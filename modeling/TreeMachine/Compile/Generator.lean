import TreeMachine.Compile.Error
import TreeMachine.Compile.Lifetime
import TreeMachine.Dict
import TreeMachine.Node.Basic

/-! # The state of code generation

  A node is generated under one of three contracts, chosen by whoever needs it: as a value,
  into a slot reserved for it, or into a slot of its own that others may point at.  A
  shadow stack tells which generated nodes are live, and two maps hold their results, so
  that copies and pointers can find them.
-/

namespace TreeMachine.Compile

open Code (Module Value Build)

/-- How the result of a node is wanted. -/
inductive Degree where
  /-- As a value in registers. -/
  | value
  /-- Written to a place that the caller reserved. -/
  | storeInto
  /-- In a new slot of its own. -/
  | ownSlot
deriving DecidableEq, Repr

/-- A word of a slot. -/
structure Location where
  slot : Nat
  off : Nat
deriving DecidableEq, Repr, Inhabited

/-- The result of generating a node. -/
structure Info where
  /-- The result in registers; void for results that live in a slot. -/
  value : Value
  /-- Where a result that lives in a slot is. -/
  loc : Location
  type : Ty
  /-- The position of the node in the order of generation. -/
  lifetime : UInt64
  /-- Whether the result lives in a slot. -/
  addressable : Bool
  contract : Contract
deriving DecidableEq, Repr, Inhabited

/-- The result of generating nothing. -/
def Info.none : Info := ⟨.void, ⟨0, 0⟩, 0, 0, false, .unbounded⟩

/-- A live result. -/
structure ShadowEntry where
  node : Node
  addressable : Bool
deriving DecidableEq, Repr

/-- A label: its block, and whether it has still to be placed, so that jumps to it go
    forward. -/
structure LabelInfo where
  target : Nat
  forward : Bool
deriving DecidableEq, Repr

/-- The state of one compilation. -/
structure Generator where
  heap : Heap
  module : Module
  /-- The nodes whose generation has begun and not ended. -/
  active : List Node
  /-- The live results, newest first. -/
  shadow : List ShadowEntry
  /-- The results that live in a slot; only these may be pointed at. -/
  memo : Dict Node Info
  /-- The results in registers, for copies. -/
  temps : Dict Node Info
  labels : Dict Node LabelInfo
  /-- The next position in the order of generation. -/
  clock : UInt64
deriving Inhabited

/-- Code generation. -/
abbrev Gen := EStateM (Stop CompileError) Generator

/-- What has to be known about a node to deliver its result. -/
structure Site where
  node : Node
  degree : Degree
  storage : Location
  lifetime : UInt64
  /-- The height of the shadow stack before the node. -/
  depth : Nat
deriving DecidableEq, Repr

namespace Generator

/-- The state before the first node. -/
def start (heap : Heap) (name : String) : Generator :=
  { heap, module := .create name, active := [], shadow := [], memo := .empty, temps := .empty,
    labels := .empty, clock := 1 }

end Generator

/-! ### Access to the parts of the state -/

/-- Reads the heap. -/
def look {α : Type} (f : Heap → Except Fault α) : Gen α := fun g =>
  match f g.heap with
  | .ok a => .ok a g
  | .error e => .error (.fault e) g

/-- Changes the heap. -/
def onHeap {α : Type} (x : HeapM α) : Gen α := fun g =>
  let heap := g.heap
  let g := { g with heap := default }
  match x heap with
  | .ok a heap => .ok a { g with heap }
  | .error e heap => .error (.fault e) { g with heap }

/-- Adds code to the module. -/
def build {α : Type} (x : Build α) : Gen α := fun g =>
  let module := g.module
  let g := { g with module := default }
  let (a, module) := x module
  .ok a { g with module }

/-- Rejects a node. -/
def reject {α : Type} (reason : Rejection) (n : Node) : Gen α :=
  throw (.error (.rejected reason n none))

/-- Rejects a field of a node. -/
def rejectField {α : Type} (reason : Rejection) (n : Node) (field : Nat) : Gen α :=
  throw (.error (.rejected reason n (some field)))

/-- The size of a type. -/
def sizeOf (t : Ty) : Gen Nat := return (← look (·.size t)).toNat

/-- A field of a node that refers to a node. -/
def child (n : Node) (i : Nat) : Gen Node := look (·.field n i)

/-- The type of what does not return. -/
def doesNotReturn : Gen Ty := return (← get).heap.types.scalars.doesNotReturn

/-- The integer type. -/
def integer : Gen Ty := return (← get).heap.types.scalars.integer

/-- A result in registers; one that lives in a slot is loaded. -/
def valueOf (info : Info) : Gen Value := do
  if info.addressable then
    let words ← sizeOf info.type
    build (Module.load info.loc.slot info.loc.off words)
  else return info.value

/-- Forgets the result of a shadow entry. -/
def forget (g : Generator) (e : ShadowEntry) : Generator :=
  if e.addressable then { g with memo := g.memo.erase e.node }
  else { g with temps := g.temps.erase e.node }

/-- The height of the shadow stack. -/
def shadowDepth : Gen Nat := return (← get).shadow.length

/-- Cuts the shadow stack back to a height and forgets the results above it. -/
def clearStack (depth : Nat) : Gen Unit := modify fun g =>
  let above := g.shadow.length - depth
  let g' := (g.shadow.take above).foldl forget g
  { g' with shadow := g.shadow.drop above }

/-- Delivers the result of a node as its degree asks: `move` tells whether the value has
    still to be written to the storage.  A node in a slot of its own drops its temporaries.
    Results of some size are recorded; a second one in a slot is a duplication, while a node
    may be generated as a value any number of times. -/
def finish (site : Site) (v : Value) (t : Ty) (c : Contract) (move : Bool) : Gen Info := do
  let size ← sizeOf t
  let at_ := site.storage
  if site.degree ≠ .value ∧ 0 < size then
    build (Module.reserve at_.slot (at_.off + size))
    if move then build (Module.store at_.slot at_.off v)
  if site.degree = .ownSlot then clearStack site.depth
  let info : Info := ⟨.void, ⟨0, 0⟩, t, site.lifetime, false, c⟩
  if size = 0 then return info
  if site.degree = .value then
    let info := { info with value := v }
    modify fun g => { g with
      temps := g.temps.set site.node info, shadow := ⟨site.node, false⟩ :: g.shadow }
    return info
  let info := { info with loc := at_, addressable := true }
  if (← get).memo.contains site.node then reject .activeObjectDuplication site.node
  modify fun g => { g with
    memo := g.memo.set site.node info, shadow := ⟨site.node, true⟩ :: g.shadow }
  return info

/-- Delivers that a node has no result, or never ends. -/
def finishVoid (site : Site) (t : Ty) : Gen Info := finish site .void t .unbounded false

/-- Delivers a plain value. -/
def finishPlain (site : Site) (v : Value) (t : Ty) : Gen Info := finish site v t .unbounded true

end TreeMachine.Compile
