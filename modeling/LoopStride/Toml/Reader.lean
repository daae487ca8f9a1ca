import LoopStride.Toml.Table

/-! Reading a TOML document. A reader takes what it knows from the front of the text and fails
where the text is not well formed. -/
namespace LoopStride.Toml

abbrev Reader := StateT (List Char) Option

def isBlank (c : Char) : Bool := c == ' ' || c == '\t'

/-- Control characters do not stand in comments and strings, but for the tabulator. -/
def isText (c : Char) : Bool := c == '\t' || (' ' ≤ c && c != '\x7f')

def isBareKeyChar (c : Char) : Bool := c.isAlphanum || c == '_' || c == '-'

def accept (t : String) : Reader Bool := do
  let cs ← get
  if t.toList.isPrefixOf cs then
    set (cs.drop t.toList.length)
    return true
  else return false

def expect (t : String) : Reader Unit := do
  if ← accept t then return () else failure

def takeWhile (p : Char → Bool) : Reader (List Char) := do
  let cs ← get
  set (cs.dropWhile p)
  return cs.takeWhile p

def skipBlanks : Reader Unit := modify (·.dropWhile isBlank)

def skipComment : Reader Unit := do
  if ← accept "#" then modify (·.dropWhile isText)

def lineBreak : Reader Bool := do
  if ← accept "\n" then return true else accept "\r\n"

def endOfLine : Reader Unit := do
  skipBlanks
  skipComment
  if (← get).isEmpty then return ()
  if ← lineBreak then return () else failure

def skipLines : Nat → Reader Unit
  | 0 => return ()
  | fuel + 1 => do
    skipBlanks
    skipComment
    if ← lineBreak then skipLines fuel

def skipAll : Reader Unit := do skipLines ((← get).length + 1)

/-! ### Strings -/

def hexDigit? (c : Char) : Option Nat :=
  if '0' ≤ c ∧ c ≤ '9' then some (c.toNat - '0'.toNat)
  else if 'a' ≤ c ∧ c ≤ 'f' then some (c.toNat - 'a'.toNat + 10)
  else if 'A' ≤ c ∧ c ≤ 'F' then some (c.toNat - 'A'.toNat + 10)
  else none

/-- The number that digits spell in a base, if there is a digit and all are below the base. -/
def number? (base : Nat) (digits : List Char) : Option Nat :=
  if digits.isEmpty then none
  else digits.foldlM (fun n c =>
    (hexDigit? c).bind fun d => if d < base then some (base * n + d) else none) 0

def codePoint (n : Nat) (cs : List Char) : Option (Char × List Char) := do
  guard (n ≤ cs.length)
  let code ← number? 16 (cs.take n)
  if code.isValidChar then some (Char.ofNat code, cs.drop n) else none

def escape : List Char → Option (Char × List Char)
  | 'b' :: cs => some ('\x08', cs)
  | 't' :: cs => some ('\t', cs)
  | 'n' :: cs => some ('\n', cs)
  | 'f' :: cs => some ('\x0c', cs)
  | 'r' :: cs => some ('\r', cs)
  | 'e' :: cs => some ('\x1b', cs)
  | '"' :: cs => some ('"', cs)
  | '\\' :: cs => some ('\\', cs)
  | 'x' :: cs => codePoint 2 cs
  | 'u' :: cs => codePoint 4 cs
  | 'U' :: cs => codePoint 8 cs
  | _ => none

def dropBlankLines : List Char → List Char
  | ' ' :: cs => dropBlankLines cs
  | '\t' :: cs => dropBlankLines cs
  | '\n' :: cs => dropBlankLines cs
  | '\r' :: '\n' :: cs => dropBlankLines cs
  | cs => cs

/-- What is left after a backslash at the end of a line: blanks and line breaks are passed over. -/
def foldedLine? (cs : List Char) : Option (List Char) :=
  match cs.dropWhile isBlank with
  | '\n' :: cs => some (dropBlankLines cs)
  | '\r' :: '\n' :: cs => some (dropBlankLines cs)
  | _ => none

/-- The forms of a string: which mark encloses it and whether it is tripled. Between double marks a
backslash escapes. -/
structure Quoting where
  mark : Char
  isTripled : Bool

def Quoting.escapes (q : Quoting) : Bool := q.mark == '"'

/-- The rest of a string after the closing marks, if they come next. Up to two further marks belong
to a tripled string. -/
def Quoting.closing? (q : Quoting) (cs : List Char) : Option (List Char × List Char) :=
  if q.isTripled then
    if List.replicate 3 q.mark |>.isPrefixOf cs then
      let more := ((cs.drop 3).takeWhile (· == q.mark)).take 2
      some (more, cs.drop (3 + more.length))
    else none
  else
    match cs with
    | c :: cs => if c == q.mark then some ([], cs) else none
    | [] => none

def Quoting.body (q : Quoting) : Nat → List Char → Option (List Char × List Char)
  | 0, _ => none
  | fuel + 1, cs =>
    match q.closing? cs with
    | some r => some r
    | none =>
      let more := fun (c : Char) cs => (body q fuel cs).map fun (t, rest) => (c :: t, rest)
      match cs with
      | [] => none
      | c :: cs =>
        if c == '\\' && q.escapes then
          match if q.isTripled then foldedLine? cs else none with
          | some cs => body q fuel cs
          | none => (escape cs).bind fun (c, cs) => more c cs
        else if c == '\n' && q.isTripled then more c cs
        else if c == '\r' && q.isTripled && cs.head? == some '\n' then more c cs
        else if isText c then more c cs
        else none

def quotedBy (q : Quoting) : Reader String := do
  let cs ← get
  match q.body (cs.length + 1) cs with
  | some (t, rest) =>
    set rest
    return String.ofList t
  | none => failure

/-- A string after an opening mark. A line break right after a tripled mark is not part of it. -/
def quoted (mark : Char) : Reader String := do
  if ← accept (String.ofList [mark, mark]) then
    let _ ← lineBreak
    quotedBy ⟨mark, true⟩
  else quotedBy ⟨mark, false⟩

/-! ### Keys, numbers and values -/

def keyPart : Reader String := do
  if ← accept "\"" then quotedBy ⟨'"', false⟩
  else if ← accept "'" then quotedBy ⟨'\'', false⟩
  else
    let cs ← takeWhile isBareKeyChar
    if cs.isEmpty then failure else return String.ofList cs

def keyParts : Nat → Reader (List String)
  | 0 => failure
  | fuel + 1 => do
    skipBlanks
    if ← accept "." then
      skipBlanks
      let part ← keyPart
      return part :: (← keyParts fuel)
    else return []

/-- A key as the path to its table and its last part. -/
def key : Reader (List String × String) := do
  let first ← keyPart
  let rest ← keyParts ((← get).length + 1)
  let parts := first :: rest
  return (parts.dropLast, parts.getLast?.getD first)

/-- The digits of a number whose underscores each stand between two digits. -/
def withoutUnderscores (cs : List Char) : Option (List Char) :=
  let groups := (String.ofList cs).splitOn "_"
  if groups.any (·.isEmpty) then none else some (cs.filter (· != '_'))

/-- A number to base ten, without a leading zero unless it is zero. -/
def decimal? (cs : List Char) : Option Nat := do
  let digits ← withoutUnderscores cs
  if digits.head? == some '0' && digits.length != 1 then none else number? 10 digits

def integer? : List Char → Option Int
  | '0' :: 'x' :: cs => (withoutUnderscores cs).bind fun ds => (number? 16 ds).map Int.ofNat
  | '0' :: 'o' :: cs => (withoutUnderscores cs).bind fun ds => (number? 8 ds).map Int.ofNat
  | '0' :: 'b' :: cs => (withoutUnderscores cs).bind fun ds => (number? 2 ds).map Int.ofNat
  | '+' :: cs => (decimal? cs).map Int.ofNat
  | '-' :: cs => (decimal? cs).map fun n => -Int.ofNat n
  | cs => (decimal? cs).map Int.ofNat

def bareValue : Reader Value := do
  let cs ← takeWhile fun c => isBareKeyChar c || c == '+' || c == '.' || c == ':'
  if cs = ['t', 'r', 'u', 'e'] then return .boolean true
  else if cs = ['f', 'a', 'l', 's', 'e'] then return .boolean false
  else
    match integer? cs with
    | some n => return .integer n
    | none => failure

mutual

def value : Nat → Reader Value
  | 0 => failure
  | fuel + 1 => do
    if ← accept "\"" then return .string (← quoted '"')
    else if ← accept "'" then return .string (← quoted '\'')
    else if ← accept "[" then return .array (← items fuel)
    else if ← accept "\x7b" then return .table (values (← fields fuel []))
    else bareValue

def items : Nat → Reader (List Value)
  | 0 => failure
  | fuel + 1 => do
    skipAll
    if ← accept "]" then return []
    let v ← value fuel
    skipAll
    if ← accept "," then return v :: (← items fuel)
    else
      expect "]"
      return [v]

def fields : Nat → Entries → Reader Entries
  | 0, _ => failure
  | fuel + 1, es => do
    skipAll
    if ← accept "\x7d" then return es
    let (path, last, v) ← field skipAll fuel
    let es ← assign path last (.leaf v) es
    skipAll
    if ← accept "," then fields fuel es
    else
      expect "\x7d"
      return es

/-- A key, as path and last part, and its value. `gap` passes over what may stand on either side of
the sign between them: blanks in a line of the document, line breaks and comments as well in an
inline table. -/
def field (gap : Reader Unit) : Nat → Reader (List String × String × Value)
  | 0 => failure
  | fuel + 1 => do
    let (path, last) ← key
    gap
    expect "="
    gap
    return (path, last, ← value fuel)

end

/-! ### Documents -/

structure Draft where
  root : Entries
  current : List String

def header (d : Draft) : Reader Draft := do
  let many ← accept "["
  skipBlanks
  let (path, last) ← key
  skipBlanks
  expect (if many then "]]" else "]")
  let root ← (if many then openItem path last d.root else openTable path last d.root)
  return ⟨root, path ++ [last]⟩

def line (d : Draft) : Reader Draft := do
  if ← accept "[" then header d
  else
    let (path, last, v) ← field skipBlanks ((← get).length + 1)
    let root ← descend false (fun _ => assign path last (.leaf v)) .header d.current d.root
    return { d with root }

def lines : Nat → Draft → Reader Entries
  | 0, _ => failure
  | fuel + 1, d => do
    skipAll
    if (← get).isEmpty then return d.root
    let d ← line d
    endOfLine
    lines fuel d

def parse? (text : String) : Option (List (String × Value)) := do
  let cs := text.toList
  let cs := if cs.head? == some '\ufeff' then cs.tail else cs
  let (es, _) ← (lines (cs.length + 1) ⟨[], []⟩).run cs
  return values es

end LoopStride.Toml
