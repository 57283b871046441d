import TreeMachine.Code.Instr
import TreeMachine.Text.Quoted

/-! # Modules under construction

  A module is one function: blocks of instructions, registers and slots.  Instructions go
  to the current block; what follows the end of a block is dropped.  The first mistake is
  remembered and makes closing the module fail.
-/

namespace TreeMachine.Code

/-- The name of the operation that a byte stands for, also for bytes that stand for none. -/
def nameOfCode (b : UInt8) : String :=
  match Opcode.ofCode? b with
  | some op => op.name
  | none => "op(0x" ++ String.ofList (Text.hexDigits 2 b.toNat) ++ ")"

/-- Mistakes in the construction of a module. -/
inductive BuildError where
  | notBinary (code : UInt8)
  | operandWidth (op : BinaryOp) (a b : Int)
  | insertPoint (block : Int)
  | branchWidth (words : Int)
  | phiWidth (a b : Int)
  | slotOutOfRange (slot : Int)
  | returnWidth (words before : Int)
  | emitAfterFinalize
  | finalizedTwice
deriving DecidableEq, Repr

/-- The wording of a mistake. -/
def BuildError.text : BuildError → String
  | notBinary code => nameOfCode code ++ " is not a binary operation"
  | operandWidth op a b => (Opcode.binary op).name ++ s!" on {a}- and {b}-word values"
  | insertPoint block => s!"insert point {block} out of range"
  | branchWidth words => s!"branch on {words}-word value"
  | phiWidth a b => s!"phi of {a}- and {b}-word values"
  | slotOutOfRange slot => s!"slot {slot} out of range"
  | returnWidth words before => s!"return of {words} words after returning {before}"
  | emitAfterFinalize => "emit after finalize"
  | finalizedTwice => "finalized twice"

/-- A value that depends on the block from which its block is entered. -/
structure Phi where
  dst : Value
  /-- The blocks it may be entered from, and the value for each. -/
  incoming : List (Int × Value)
deriving DecidableEq, Repr

/-- A run of instructions. -/
structure Block where
  name : String
  code : Array Instr
  phis : Array Phi
  /-- Whether the last instruction ends the block. -/
  terminated : Bool
deriving DecidableEq, Repr, Inhabited

/-- A function under construction. -/
structure Module where
  name : String
  blocks : Array Block
  /-- The block that instructions go to. -/
  cur : Nat
  /-- The number of registers handed out. -/
  registers : Int
  /-- The sizes of the slots. -/
  slots : Array Int
  /-- The width of the result, once there is a return; a negative one does not count. -/
  returns : Option Int
  /-- Whether the module has been closed. -/
  closed : Bool
  /-- The first mistake. -/
  error : Option BuildError
deriving Repr, Inhabited

/-- A function that can be run: every block ends, and every slot has its place. -/
structure Program where
  name : String
  blocks : Array Block
  registers : Int
  /-- Where each slot starts in the frame. -/
  slotOffsets : Array Int
  /-- The size of the frame. -/
  frameWords : Int
deriving Repr, Inhabited

/-- Construction steps. -/
abbrev Build := StateM Module

namespace Module

/-- A block without instructions. -/
def emptyBlock (name : String) : Block := ⟨name, #[], #[], false⟩

/-- A module with an empty entry block. -/
def create (name : String) : Module :=
  { name, blocks := #[emptyBlock "entry"], cur := 0, registers := 0, slots := #[], returns := none,
    closed := false, error := none }

/-- Remembers a mistake if it is the first. -/
def fail (e : BuildError) : Build Unit :=
  modify fun m => { m with error := m.error <|> some e }

/-- Hands out registers. -/
def fresh (words : Int) : Build Value := fun m =>
  if words = 0 then (.void, m)
  else (⟨m.registers, words⟩, { m with registers := wrap (m.registers + words) })

/-- Adds an instruction at the end of a block, unless the block has ended. -/
def pushInstr (i : Instr) (b : Block) : Block :=
  if b.terminated then b
  else { b with code := b.code.push i, terminated := i.opcode.terminates }

/-- Adds an instruction to the current block. -/
def emit (i : Instr) : Build Unit := do
  if (← get).closed then fail .emitAfterFinalize
  else modify fun m => { m with blocks := m.blocks.modify m.cur (pushInstr i) }

/-- A value with the given words. -/
def const (ws : List UInt64) : Build Value := do
  let v ← fresh ws.length
  if !v.isVoid then emit (.const v ws)
  return v

/-- The result of an operation on two words. -/
def binary (op : BinaryOp) (a b : Value) : Build Value := do
  if a.words ≠ 1 ∨ b.words ≠ 1 then fail (.operandWidth op a.words b.words)
  let v ← fresh 1
  emit (.binary op v a b)
  return v

/-- `binary` for the operation that a byte stands for. -/
def binaryOfCode (code : UInt8) (a b : Value) : Build Value := do
  match Opcode.ofCode? code with
  | some (.binary op) => binary op a b
  | _ =>
    fail (.notBinary code)
    fresh 1

/-- A new block. -/
def newBlock (name : String) : Build Nat := fun m =>
  (m.blocks.size, { m with blocks := m.blocks.push (emptyBlock name) })

/-- Makes a block the current one. -/
def setInsertPoint (b : Int) : Build Unit := do
  if 0 ≤ b ∧ b < (← get).blocks.size then modify fun m => { m with cur := b.toNat }
  else fail (.insertPoint b)

/-- Ends the current block with a jump. -/
def branch (target : Int) : Build Unit := emit (.branch target)

/-- Ends the current block with a choice. -/
def branchIf (cond : Value) (target alt : Int) : Build Unit := do
  if cond.words ≠ 1 then fail (.branchWidth cond.words)
  emit (.branchIf cond target alt)

/-- Merges two values at the start of the current block. -/
def phi (a : Value) (fromA : Int) (b : Value) (fromB : Int) : Build Value := do
  if a.words ≠ b.words then fail (.phiWidth a.words b.words)
  let v ← fresh a.words
  if !v.isVoid then
    let merged : Phi := ⟨v, [(fromA, a), (fromB, b)]⟩
    modify fun m => { m with
      blocks := m.blocks.modify m.cur fun blk => { blk with phis := blk.phis.push merged } }
  return v

/-- A new slot without words. -/
def alloca : Build Nat := fun m => (m.slots.size, { m with slots := m.slots.push 0 })

/-- Lets a slot have at least the given number of words. -/
def reserve (slot : Int) (words : Int) : Build Unit := do
  if 0 ≤ slot ∧ slot < (← get).slots.size then
    modify fun m => { m with slots := m.slots.modify slot.toNat (max · words) }
  else fail (.slotOutOfRange slot)

/-- Writes a value into a slot. -/
def store (slot off : Int) (v : Value) : Build Unit := do
  if v.isVoid then return ()
  reserve slot (wrap (off + v.words))
  emit (.store slot off v)

/-- Reads a value out of a slot. -/
def load (slot off words : Int) : Build Value := do
  let v ← fresh words
  if !v.isVoid then
    reserve slot (wrap (off + words))
    emit (.load v slot off)
  return v

/-- The address of a word of a slot. -/
def address (slot off : Int) : Build Value := do
  let v ← fresh 1
  emit (.address v slot off)
  return v

/-- Writes a value at an address. -/
def storeIndirect (addr v : Value) : Build Unit := do
  if !v.isVoid then emit (.storeIndirect addr v)

/-- Reads a value at an address. -/
def loadIndirect (addr : Value) (words : Int) : Build Value := do
  let v ← fresh words
  if !v.isVoid then emit (.loadIndirect v addr)
  return v

/-- Calls a host function. -/
def call (host : String) (args : List Value) (results : Int) : Build Value := do
  let v ← fresh results
  emit (.call v host args)
  return v

/-- Ends the function with a result. -/
def ret (v : Value) : Build Unit := do
  match (← get).returns with
  | some before => if before ≠ v.words then fail (.returnWidth v.words before)
  | none => pure ()
  modify fun m => { m with returns := if 0 ≤ v.words then some v.words else none }
  emit (.ret v)

/-- Where each slot starts when they stand one after the other from `start` on, and where
    the last one ends. -/
def layout : List Int → Int → List Int × Int
  | [], start => ([], start)
  | size :: rest, start =>
    let tail := layout rest (wrap (start + size))
    (start :: tail.1, tail.2)

/-- A block that has not ended ends in a trap. -/
def endWithTrap (b : Block) : Block :=
  if b.terminated then b else { b with code := b.code.push .trap, terminated := true }

/-- Closes a module, which gives the program it describes. -/
def finalize (m : Module) : Except BuildError (Program × Module) :=
  if m.closed then .error .finalizedTwice
  else match m.error with
    | some e => .error e
    | none =>
      let blocks := m.blocks.map endWithTrap
      let (offsets, frameWords) := layout m.slots.toList 0
      .ok (⟨m.name, blocks, m.registers, offsets.toArray, frameWords⟩,
        { m with blocks, closed := true, returns := some (m.returns.getD 0) })

/-- The message of a mistake in this module. -/
def errorMessage (m : Module) (e : BuildError) : String := s!"backend: {m.name}: {e.text}"

end Module

end TreeMachine.Code
