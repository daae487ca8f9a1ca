/-! The values of a TOML document and the rules by which its tables grow.

Strings, integers, truth values, arrays and tables are all that a document here may hold. A table
remembers how it came about, since that decides what may still be added to it. -/
namespace LoopStride.Toml

inductive Value where
  | string (s : String)
  | integer (n : Int)
  | boolean (b : Bool)
  | array (items : List Value)
  | table (entries : List (String × Value))
  deriving Repr

/-- How a table came about: from its own header, from a header or from a dotted key that leads
through it. -/
inductive Origin where
  | header | passage | dotted
  deriving DecidableEq, Repr

/-- An entry of a table that may still grow. A `leaf` is finished. An array of tables keeps the
table that grows in front. -/
inductive Node where
  | leaf (v : Value)
  | table (origin : Origin) (entries : List (String × Node))
  | tables (items : List (List (String × Node)))
  deriving Repr

abbrev Entries := List (String × Node)

/-- Changes the entry under a key; a new one goes to the end. -/
def alter (g : Option Node → Option Node) (key : String) : Entries → Option Entries
  | [] => (g none).map fun n => [(key, n)]
  | (k, n) :: rest =>
    if k = key then (g (some n)).map fun n => (k, n) :: rest
    else (alter g key rest).map ((k, n) :: ·)

/-- Changes the table that a path leads to, making tables on the way. A dotted path does not lead
through a table that has a header. -/
def descend (isDotted : Bool) (g : Origin → Entries → Option Entries) (origin : Origin) :
    List String → Entries → Option Entries
  | [], es => g origin es
  | key :: path, es =>
    alter (fun
      | none =>
        let origin := if isDotted then .dotted else .passage
        (descend isDotted g origin path []).map (.table origin)
      | some (.table origin sub) =>
        if isDotted && origin == .header then none
        else (descend isDotted g origin path sub).map (.table origin)
      | some (.tables (last :: before)) =>
        (descend isDotted g .header path last).map fun last => .tables (last :: before)
      | some _ => none) key es

/-- Sets a new key. Its table is the current one or, below a dotted key, one that dotted keys
made. -/
def assign (path : List String) (key : String) (n : Node) (es : Entries) : Option Entries :=
  descend true (fun origin es =>
    if path.isEmpty || origin == .dotted then
      alter (fun old => if old.isNone then some n else none) key es
    else none) .header path es

/-- Opens the table of a header. It is new, or other headers only led through it. -/
def openTable (path : List String) (key : String) : Entries → Option Entries :=
  descend false (fun _ => alter (fun
    | none => some (.table .header [])
    | some (.table .passage sub) => some (.table .header sub)
    | some _ => none) key) .header path

def openItem (path : List String) (key : String) : Entries → Option Entries :=
  descend false (fun _ => alter (fun
    | none => some (.tables [[]])
    | some (.tables items) => some (.tables ([] :: items))
    | some _ => none) key) .header path

mutual

def Node.value : Node → Value
  | .leaf v => v
  | .table _ es => .table (values es)
  | .tables items => .array (itemValues items).reverse

def values : List (String × Node) → List (String × Value)
  | [] => []
  | (k, n) :: rest => (k, n.value) :: values rest

def itemValues : List (List (String × Node)) → List Value
  | [] => []
  | es :: rest => .table (values es) :: itemValues rest

end

end LoopStride.Toml
