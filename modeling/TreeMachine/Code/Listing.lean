import TreeMachine.Code.Module

/-! # Listings

  The text of a module: its name, the sizes of its slots, and its blocks with their
  instructions.
-/

namespace TreeMachine.Code

/-- How a value is written. -/
def Value.text (v : Value) : String :=
  match v.words with
  | 0 => "void"
  | 1 => s!"r{v.reg}"
  | words => s!"r{v.reg}:{words}"

/-- What stands after the name of an operation. -/
def Instr.operands : Instr → String
  | const _ ws => " [" ++ " ".intercalate (ws.map toString) ++ "]"
  | binary _ _ a b => s!" {a.text}, {b.text}"
  | load _ slot off => s!" s{slot}+{off}"
  | store slot off src => s!" s{slot}+{off}, {src.text}"
  | address _ slot off => s!" s{slot}+{off}"
  | loadIndirect _ addr => s!" [{addr.text}]"
  | storeIndirect addr src => s!" [{addr.text}], {src.text}"
  | branch target => s!" b{target}"
  | branchIf cond target alt => s!" {cond.text}, b{target}, b{alt}"
  | ret v => s!" {v.text}"
  | trap => ""
  | call _ host args => " " ++ host ++ "(" ++ ", ".intercalate (args.map Value.text) ++ ")"

/-- How an instruction is written. -/
def Instr.text (i : Instr) : String :=
  (if i.dst.isVoid then "" else i.dst.text ++ " = ") ++ i.opcode.name ++ i.operands

/-- How a phi is written. -/
def Phi.text (p : Phi) : String :=
  p.dst.text ++ " = phi" ++ String.join (p.incoming.map fun (block, v) => s!" [{v.text}, b{block}]")

/-- The lines of a block. -/
def Block.lines (number : Nat) (b : Block) : List String :=
  s!"b{number} ({b.name}):" ::
    (b.phis.toList.map (fun p => "  " ++ p.text) ++ b.code.toList.map (fun i => "  " ++ i.text))

/-- The line that gives the sizes of the slots, if there are any. -/
def Module.slotLines (m : Module) : List String :=
  if m.slots.isEmpty then []
  else ["; slots:" ++ String.join (m.slots.toList.zipIdx.map fun (size, i) => s!" s{i}={size}")]

/-- The text of a module. -/
def Module.listing (m : Module) : String :=
  let lines := s!"; module {m.name}" :: (m.slotLines ++
    m.blocks.toList.zipIdx.flatMap fun (b, i) => b.lines i)
  String.join (lines.map (· ++ "\n"))

end TreeMachine.Code
