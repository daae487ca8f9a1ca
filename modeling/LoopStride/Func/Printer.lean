import LoopStride.Func

/-! The text of a function: its signature, then each block with its instructions and terminator,
two blanks of indentation for each level. -/
namespace LoopStride

def indentation (level : Nat) : String := "".pushn ' ' (2 * level)

def Func.renderInst (f : Func) (id : InstId) : String :=
  match f.inst? id with
  | some i => if i.hasResult then LoopStride.renderInst id ++ " = " ++ i.render else i.render
  | none => "<unknown " ++ LoopStride.renderInst id ++ ">"

def Func.renderBlock (f : Func) (level : Nat) (b : BlockId) (block : Block) : String :=
  let inner := indentation (level + 1)
  let label := indentation level ++ "bb" ++ toString b ++ ":" ++
    (block.name.map (" ; " ++ ·)).getD "" ++ "\n"
  let lines := block.listing.map fun id => inner ++ f.renderInst id ++ "\n"
  label ++ "".intercalate lines ++ inner ++ block.terminator.render ++ "\n"

def Func.render (f : Func) (level : Nat) : String :=
  let outer := indentation level
  let params := f.params.toList.zipIdx.map fun (ty, i) => ty.render ++ " " ++ renderParam i
  let blocks := f.blocks.toList.zipIdx.map fun (block, b) => f.renderBlock level b block
  outer ++ "fn " ++ f.name ++ "(" ++ ", ".intercalate params ++ ") \x7b\n" ++
    "".intercalate blocks ++ outer ++ "\x7d\n"

end LoopStride
