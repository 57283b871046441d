import TreeMachine.Arena.Basic
import TreeMachine.Code.Module

/-! # Running programs

  A program runs in a frame of its own.  Addresses with the frame bit set are indices into
  that frame; all others are served by the memory of the host, which also provides the
  functions that code may call.
-/

namespace TreeMachine.Code

/-- The name of a loaded module. -/
inductive Handle where
  /-- The handle that was issued together with an entry. -/
  | issued (entry : UInt64)
  /-- A text that no machine issued. -/
  | foreign (text : String)
deriving DecidableEq, Repr, Inhabited

/-- How a handle is written. -/
def Handle.text : Handle → String
  | issued entry => s!"module-{entry}"
  | foreign text => text

/-- Why code stopped without a result. -/
inductive RunError where
  | unknownEntry (entry : UInt64)
  | unknownModule (handle : Handle)
  | unknownHost (name : String)
  /-- A slot access that leaves the frame. -/
  | slotRange (slot off words : Int) (frame : Nat)
  /-- An address past the end of the frame. -/
  | frameAddress (index : UInt64)
  /-- An address outside the frame where the host has no memory. -/
  | noMemory (addr : UInt64)
  /-- An address outside the arena. -/
  | arenaAddress (addr : UInt64) (words : Int)
  | trap
  /-- A host function answered with the wrong number of words. -/
  | hostResult (name : String) (given : Nat) (wanted : Int)
  /-- An error of a host function or of its memory, in its own words. -/
  | outside (text : String)
  /-- Where an error happened: in a host function. -/
  | inHost (name : String) (cause : RunError)
  /-- Where an error happened: in a block of a program. -/
  | inBlock (program block : String) (cause : RunError)
deriving DecidableEq, Repr

namespace RunError

/-- The wording of an error. -/
def message : RunError → String
  | unknownEntry entry => s!"backend: unknown or unloaded entry: {entry}"
  | unknownModule handle => s!"backend: unknown module handle: {handle.text}"
  | unknownHost name => s!"backend: unknown host function: {name}"
  | slotRange slot off words frame =>
    s!"backend: bad address: slot {slot}+{off} ({words} words) outside frame of {frame}"
  | frameAddress index => s!"backend: bad address: frame address {index}"
  | noMemory addr => s!"backend: bad address: {addr} (no memory installed)"
  | arenaAddress addr words => s!"backend: bad address: arena address {addr} (+{words})"
  | trap => "backend: trap"
  | hostResult name given wanted => s!"host {name} returned {given} words, want {wanted}"
  | outside text => text
  | inHost name cause => s!"host {name}: {cause.message}"
  | inBlock program block cause => s!"{program}: block {block}: {cause.message}"

/-- The error without the places it passed through. -/
def cause : RunError → RunError
  | inHost _ e => e.cause
  | inBlock _ _ e => e.cause
  | e => e

end RunError

/-- Running code in a host with state `σ`. -/
abbrev Run (σ : Type) := EStateM (Stop RunError) σ

/-- The memory behind addresses that are not in the frame. -/
structure Memory (σ : Type) where
  load : UInt64 → Int → Run σ (List UInt64)
  store : UInt64 → List UInt64 → Run σ Unit

/-- What code can reach outside its frame. -/
structure Host (σ : Type) where
  /-- The function with a given name. -/
  function? : String → Option (List UInt64 → Run σ (List UInt64))
  memory : Option (Memory σ)

/-- The registers and the slots of a running program. -/
structure Frame where
  regs : Array UInt64
  words : Array UInt64
deriving Repr, Inhabited

/-- The bit that marks an address as an index into the frame. -/
def frameBit : UInt64 := 0x8000000000000000

/-- Where an instruction leads. -/
inductive Next where
  /-- To the instruction after it. -/
  | onward (f : Frame)
  /-- To a block. -/
  | jump (f : Frame) (target : Int)
  /-- Out of the function. -/
  | done (ws : List UInt64)

namespace Frame

/-- A number of words that are zero; no memory holds a negative or an enormous number. -/
def zeros (count : Int) : Except Fault (Array UInt64) :=
  if 0 ≤ count ∧ count ≤ Arena.maxWords.toNat then .ok (Array.replicate count.toNat 0)
  else .error .outOfBounds

/-- The frame of a program that starts. -/
def create (p : Program) : Except Fault Frame := do
  return ⟨← zeros p.registers, ← zeros p.frameWords⟩

/-- Whether all registers of a value exist. -/
def holds (f : Frame) (v : Value) : Bool :=
  0 ≤ v.reg && 0 ≤ v.words && v.reg + v.words ≤ f.regs.size

/-- The words of a value. -/
def get (f : Frame) (v : Value) : Except Fault (List UInt64) :=
  if f.holds v then .ok (f.regs.extract v.reg.toNat (v.reg + v.words).toNat).toList
  else .error .outOfBounds

/-- The first word of a value. -/
def word (f : Frame) (v : Value) : Except Fault UInt64 :=
  match if v.reg < 0 then none else f.regs[v.reg.toNat]? with
  | some w => .ok w
  | none => .error .outOfBounds

/-- Sets the words of a value. -/
def set (f : Frame) (v : Value) (ws : List UInt64) : Except Fault Frame :=
  if f.holds v then
    .ok { f with regs := Arena.writeFrom f.regs v.reg.toNat (ws.take v.words.toNat) }
  else .error .outOfBounds

/-- Where a slot starts in the frame. -/
def slotOffset (p : Program) (slot : Int) : Except Fault Int :=
  match if slot < 0 then none else p.slotOffsets[slot.toNat]? with
  | some base => .ok base
  | none => .error .outOfBounds

/-- Where a slot access starts.  The sums wrap around, so an access near the greatest offset
    can pass the test; it faults. -/
def slotStart (f : Frame) (p : Program) (slot off words : Int) :
    Except (Stop RunError) Nat := do
  let base ← (slotOffset p slot).mapError .fault
  let start := wrap (base + off)
  let stop := wrap (start + words)
  if start < 0 ∨ f.words.size < stop then
    throw (.error (.slotRange slot off words f.words.size))
  if stop < start then throw (.fault .outOfBounds)
  return start.toNat

/-- The values that the phis of a block take when it is entered from `origin`. -/
def phiWords (f : Frame) (origin : Int) : List Phi → Except Fault (List (Value × List UInt64))
  | [] => .ok []
  | p :: rest => do
    match p.incoming.find? (·.1 == origin) with
    | none => f.phiWords origin rest
    | some (_, v) =>
      let ws ← f.get v
      return (p.dst, ws) :: (← f.phiWords origin rest)

/-- Sets several values. -/
def setAll (f : Frame) : List (Value × List UInt64) → Except Fault Frame
  | [] => .ok f
  | (v, ws) :: rest => do (← f.set v ws).setAll rest

end Frame

variable {σ : Type}

/-- A step that may only fault. -/
def sound {α : Type} (x : Except Fault α) : Run σ α :=
  fun s => match x with
    | .ok a => .ok a s
    | .error f => .error (.fault f) s

/-- An error that is no fault. -/
def stop {α : Type} (e : RunError) : Run σ α := throw (.error e)

/-- The `words` words at an address. -/
def loadAt (host : Host σ) (f : Frame) (addr : UInt64) (words : Int) :
    Run σ (List UInt64) :=
  if addr &&& frameBit ≠ 0 then
    let first := addr ^^^ frameBit
    let last := first + UInt64.ofInt words
    if UInt64.ofNat f.words.size < last then stop (.frameAddress first)
    else if last < first then throw (.fault .outOfBounds)
    else return (f.words.extract first.toNat last.toNat).toList
  else match host.memory with
    | none => stop (.noMemory addr)
    | some memory => memory.load addr words

/-- Writes words at an address. -/
def storeAt (host : Host σ) (f : Frame) (addr : UInt64) (ws : List UInt64) :
    Run σ Frame :=
  if addr &&& frameBit ≠ 0 then
    let index := addr ^^^ frameBit
    if UInt64.ofNat f.words.size < index + UInt64.ofNat ws.length then stop (.frameAddress index)
    else return { f with words := Arena.writeFrom f.words index.toNat ws }
  else match host.memory with
    | none => stop (.noMemory addr)
    | some memory => do
      memory.store addr ws
      return f

/-- The words of several values, one after the other. -/
def gather (f : Frame) : List Value → Except Fault (List UInt64)
  | [] => .ok []
  | v :: rest => do
    let ws ← f.get v
    return ws ++ (← gather f rest)

/-- Marks the errors of a host function. -/
def inHost {α : Type} (name : String) (x : Run σ α) : Run σ α := mapStop (.inHost name) x

/-- Calls a host function. -/
def callHost (host : Host σ) (f : Frame) (dst : Value) (name : String) (args : List Value) :
    Run σ Frame := do
  match host.function? name with
  | none => stop (.unknownHost name)
  | some fn =>
    let given ← sound (gather f args)
    let ws ← inHost name (fn given)
    if ws.length ≠ dst.words then stop (.hostResult name ws.length dst.words)
    sound (f.set dst ws)

/-- Executes one instruction. -/
def Instr.exec (host : Host σ) (p : Program) (f : Frame) : Instr → Run σ Next
  | .const dst ws => do return .onward (← sound (f.set dst ws))
  | .binary op dst a b => do
    let x ← sound (f.word a)
    let y ← sound (f.word b)
    return .onward (← sound (f.set ⟨dst.reg, 1⟩ [op.eval x y]))
  | .load dst slot off => do
    let start ← f.slotStart p slot off dst.words
    return .onward (← sound (f.set dst (f.words.extract start (start + dst.words.toNat)).toList))
  | .store slot off src => do
    let start ← f.slotStart p slot off src.words
    let ws ← sound (f.get src)
    return .onward { f with words := Arena.writeFrom f.words start ws }
  | .address dst slot off => do
    let base ← sound (Frame.slotOffset p slot)
    return .onward (← sound (f.set ⟨dst.reg, 1⟩ [frameBit ||| UInt64.ofInt (base + off)]))
  | .loadIndirect dst addr => do
    let ws ← loadAt host f (← sound (f.word addr)) dst.words
    return .onward (← sound (f.set dst ws))
  | .storeIndirect addr src => do
    let a ← sound (f.word addr)
    let ws ← sound (f.get src)
    return .onward (← storeAt host f a ws)
  | .call dst name args => do return .onward (← callHost host f dst name args)
  | .branch target => return .jump f target
  | .branchIf cond target alt => do
    return .jump f (if (← sound (f.word cond)) ≠ 0 then target else alt)
  | .ret v => do return .done (← sound (f.get v))
  | .trap => stop .trap

/-- Executes instructions until one leads elsewhere. -/
def execAll (host : Host σ) (p : Program) : List Instr → Frame → Run σ Next
  | [], _ => stop .trap
  | i :: rest, f => do
    match ← i.exec host p f with
    | .onward f => execAll host p rest f
    | next => return next

namespace Program

/-- The block with a given number. -/
def block? (p : Program) (i : Int) : Option Block :=
  if i < 0 then none else p.blocks[i.toNat]?

/-- Runs from the start of a block on; `fuel` bounds the number of blocks. -/
def runFrom (host : Host σ) (p : Program) : Nat → Int → Frame → Run σ (List UInt64)
  | 0, _, _ => throw (.fault .endless)
  | fuel + 1, cur, f => do
    match p.block? cur with
    | none => throw (.fault .outOfBounds)
    | some b =>
      match ← mapStop (.inBlock p.name b.name) (execAll host p b.code.toList f) with
      | .done ws => return ws
      | .onward _ => stop .trap
      | .jump f target =>
        match p.block? target with
        | none => throw (.fault .outOfBounds)
        | some next =>
          let incoming ← sound (f.phiWords cur next.phis.toList)
          runFrom host p fuel target (← sound (f.setAll incoming))

/-- Runs a program; `fuel` bounds the number of blocks. -/
def run (host : Host σ) (p : Program) (fuel : Nat) : Run σ (List UInt64) := do
  p.runFrom host fuel 0 (← sound (Frame.create p))

end Program

end TreeMachine.Code
