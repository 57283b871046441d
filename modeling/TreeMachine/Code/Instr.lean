/-! # Instructions

  Code works on registers of one word each and on a frame of words that is divided into
  slots.  A value is a run of consecutive registers.  Slots and blocks are referred to by
  number; code under construction may hold numbers that refer to nothing.
-/

namespace TreeMachine.Code

/-- The arithmetic and comparison operations. -/
inductive BinaryOp where
  | add
  | sub
  | mul
  /-- Division by zero yields zero. -/
  | udiv
  /-- The remainder by zero is zero. -/
  | urem
  /-- One if the operands differ, zero otherwise. -/
  | ne
deriving DecidableEq, Repr

/-- What an operation does to two words. -/
def BinaryOp.eval : BinaryOp → UInt64 → UInt64 → UInt64
  | add, a, b => a + b
  | sub, a, b => a - b
  | mul, a, b => a * b
  | udiv, a, b => if b = 0 then 0 else a / b
  | urem, a, b => if b = 0 then 0 else a % b
  | ne, a, b => if a = b then 0 else 1

/-- The operations of the machine. -/
inductive Opcode where
  | const
  | binary (op : BinaryOp)
  | load
  | store
  | address
  | loadIndirect
  | storeIndirect
  | branch
  | branchIf
  | ret
  | trap
  | call
deriving DecidableEq, Repr

namespace Opcode

/-- All operations, in the order of their codes. -/
def all : List Opcode :=
  [const, binary .add, binary .sub, binary .mul, binary .udiv, binary .urem, binary .ne, load,
    store, address, loadIndirect, storeIndirect, branch, branchIf, ret, trap, call]

/-- The byte of an operation. -/
def code : Opcode → UInt8
  | const => 0x00
  | binary .add => 0x10
  | binary .sub => 0x11
  | binary .mul => 0x12
  | binary .udiv => 0x13
  | binary .urem => 0x14
  | binary .ne => 0x15
  | load => 0x20
  | store => 0x21
  | address => 0x22
  | loadIndirect => 0x23
  | storeIndirect => 0x24
  | branch => 0x30
  | branchIf => 0x31
  | ret => 0x32
  | trap => 0x33
  | call => 0x34

/-- The operation that a byte stands for. -/
def ofCode? (b : UInt8) : Option Opcode := all.find? (·.code == b)

/-- How an operation is written. -/
def name : Opcode → String
  | const => "const"
  | binary .add => "add"
  | binary .sub => "sub"
  | binary .mul => "mul"
  | binary .udiv => "udiv"
  | binary .urem => "urem"
  | binary .ne => "ne"
  | load => "load"
  | store => "store"
  | address => "addr"
  | loadIndirect => "load.ind"
  | storeIndirect => "store.ind"
  | branch => "br"
  | branchIf => "condbr"
  | ret => "ret"
  | trap => "trap"
  | call => "call"

/-- The operations that end a block. -/
def terminates : Opcode → Bool
  | branch | branchIf | ret | trap => true
  | _ => false

end Opcode

/-- The signed number of 64 bits that an exact result comes out as.  Registers, widths and
    offsets are such numbers, so their sums wrap around. -/
def wrap (n : Int) : Int := n.bmod UInt64.size

/-- A run of consecutive registers.  The value without registers is void.  Code under
    construction may hold values of negative width, which cannot be read or set. -/
structure Value where
  reg : Int
  words : Int
deriving DecidableEq, Repr, Inhabited

namespace Value

/-- The value without registers. -/
def void : Value := ⟨0, 0⟩

/-- Whether a value has no registers. -/
def isVoid (v : Value) : Bool := v.words == 0

end Value

/-- One instruction. -/
inductive Instr where
  /-- Sets `dst` to the words. -/
  | const (dst : Value) (ws : List UInt64)
  /-- Sets `dst` to the result of the operation. -/
  | binary (op : BinaryOp) (dst a b : Value)
  /-- Sets `dst` to the words at an offset of a slot. -/
  | load (dst : Value) (slot off : Int)
  /-- Writes `src` at an offset of a slot. -/
  | store (slot off : Int) (src : Value)
  /-- Sets `dst` to the address of a word of a slot. -/
  | address (dst : Value) (slot off : Int)
  /-- Sets `dst` to the words at the address `addr`. -/
  | loadIndirect (dst addr : Value)
  /-- Writes `src` at the address `addr`. -/
  | storeIndirect (addr src : Value)
  /-- Goes to a block. -/
  | branch (target : Int)
  /-- Goes to `target` if `cond` is not zero and to `alt` otherwise. -/
  | branchIf (cond : Value) (target alt : Int)
  /-- Ends the function with a result. -/
  | ret (v : Value)
  /-- Stops the function with an error. -/
  | trap
  /-- Sets `dst` to the answer of a host function. -/
  | call (dst : Value) (host : String) (args : List Value)
deriving DecidableEq, Repr

namespace Instr

/-- The operation of an instruction. -/
def opcode : Instr → Opcode
  | const .. => .const
  | binary op .. => .binary op
  | load .. => .load
  | store .. => .store
  | address .. => .address
  | loadIndirect .. => .loadIndirect
  | storeIndirect .. => .storeIndirect
  | branch .. => .branch
  | branchIf .. => .branchIf
  | ret .. => .ret
  | trap => .trap
  | call .. => .call

/-- What an instruction sets. -/
def dst : Instr → Value
  | const dst _ | binary _ dst _ _ | load dst _ _ | address dst _ _ | loadIndirect dst _
  | call dst _ _ => dst
  | _ => .void

end Instr

end TreeMachine.Code
