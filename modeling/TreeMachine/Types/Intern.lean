import TreeMachine.Types.Basic

/-! # Interning

  Equal types share one record.  A model describes a type that may not have a record yet;
  interning it finds or makes the record.  Concatenations are flattened and lose members
  without words.
-/

namespace TreeMachine

/-- The description of a type. -/
inductive Model where
  /-- The empty type. -/
  | empty
  /-- A type that has a record. -/
  | canonical (t : Ty)
  /-- The address of a value of another type. -/
  | pointer (target : Model)
  /-- Several types side by side. -/
  | concat (members : List Model)
  /-- A scalar type, given by the word of its kind. -/
  | plain (kindWord : UInt64)
deriving Inhabited

namespace Model

/-- The model that stands for a handle.  The null handle stands for nothing that could be
    interned. -/
def ofTy (t : Ty) : Model := if t = 0 then .plain 0 else .canonical t

mutual

/-- The height of a model. -/
def depth : Model → Nat
  | .pointer target => target.depth + 1
  | .concat members => depthAll members + 1
  | _ => 1

/-- The greatest height in a list of models. -/
def depthAll : List Model → Nat
  | [] => 1
  | m :: rest => max m.depth (depthAll rest)

end

mutual

/-- The members that a model brings to a concatenation around it: none of them is a
    concatenation itself. -/
def flatten (h : Heap) : Model → Except Fault (List Model)
  | .empty => .ok []
  | .canonical t => do
    if (← h.kind t) = some .concatenation then return (← h.members t).map ofTy
    else return [.canonical t]
  | .concat members => flattenAll h members
  | m => .ok [m]

/-- `flatten` for each model of a list. -/
def flattenAll (h : Heap) : List Model → Except Fault (List Model)
  | [] => .ok []
  | m :: rest => do
    let first ← m.flatten h
    return first ++ (← flattenAll h rest)

end

end Model

/-- The hash of a record. -/
def hashWords (ws : List UInt64) : UInt64 := ws.foldl (· ^^^ ·) 0

namespace Heap

/-- The first type of a list whose hash and record are the given ones. -/
def lookupIn (h : Heap) (hash : UInt64) (ws : List UInt64) :
    List (UInt64 × Ty) → Except Fault (Option Ty)
  | [] => .ok none
  | (hash', t) :: rest => do
    if hash' = hash then
      if (← h.typeRecord t) = ws then return some t
    h.lookupIn hash ws rest

/-- The type with the given record. -/
def lookup (h : Heap) (ws : List UInt64) : Except Fault (Option Ty) :=
  h.lookupIn (hashWords ws) ws h.types.entries

/-- Adds a type to the index. -/
def addEntry (t : Ty) (ws : List UInt64) : HeapM Unit := fun ⟨arena, types⟩ =>
  .ok () ⟨arena, { types with entries := types.entries ++ [(hashWords ws, t)] }⟩

/-- Makes a record.  The new type must have a text, so that a broken part shows at once. -/
def insertType (ws : List UInt64) : HeapM Ty := do
  let t ← allocate (UInt64.ofNat ws.length)
  setWords t ws
  addEntry t ws
  let _ ← peek (·.typeText t)
  return t

/-- The type with the given record, which is made if `fresh` tells that a part of it is
    new or if there is none; and whether it was made. -/
def internRecord (fresh : Bool) (ws : List UInt64) : HeapM (Ty × Bool) := do
  if !fresh then
    if let some t ← peek (·.lookup ws) then return (t, false)
  return (← insertType ws, true)

/-- Interns the members of a concatenation; the answer is the members that have words, and
    whether any member is new. -/
def internMembers (intern : Model → HeapM (Ty × Bool)) :
    List Model → HeapM (List Ty × Bool)
  | [] => return ([], false)
  | m :: rest => do
    let (t, fresh) ← intern m
    let size ← peek (·.size t)
    let (ts, freshRest) ← internMembers intern rest
    return (if size = 0 then ts else t :: ts, fresh || freshRest)

/-- `intern` for models of at most a given height. -/
def internWithin : Nat → Model → HeapM (Ty × Bool)
  | 0, _ => throw .endless
  | depth + 1, m =>
    match m with
    | .empty => return (0, false)
    | .canonical t => return (t, false)
    | .pointer .empty => throw (.broken .pointerWithoutTarget)
    | .pointer target => do
      let (elem, fresh) ← internWithin depth target
      if elem = 0 then throw (.broken .pointerToEmpty)
      internRecord fresh [Kind.pointer.word, elem]
    | .concat members => do
      let flat ← peek (Model.flattenAll · members)
      let (ts, fresh) ← internMembers (internWithin depth) flat
      if ts.length < 2 then throw (.broken (.thinConcatenation ts.length))
      internRecord fresh (Kind.concatenation.word :: UInt64.ofNat ts.length :: ts)
    | .plain kindWord =>
      match Kind.ofWord? kindWord with
      | some k =>
        if k.isScalar then internRecord false [kindWord]
        else throw (.broken (.invalidModel kindWord))
      | none => throw (.broken (.invalidModel kindWord))

/-- The one handle of the type that a model describes. -/
def intern (m : Model) : HeapM Ty := do
  let (t, _) ← internWithin m.depth m
  return t

/-- The type of addresses of values of type `t`. -/
def pointerTo (t : Ty) : HeapM Ty := intern (.pointer (.ofTy t))

/-- The members of several types that have words, in order. -/
def wideMembers (h : Heap) : List Ty → Except Fault (List Ty)
  | [] => .ok []
  | t :: rest => do
    let own ← (← h.members t).filterM fun m => return (← h.size m) ≠ 0
    return own ++ (← h.wideMembers rest)

/-- The type of values side by side.  One member with words is its own concatenation, and
    none at all is the empty type. -/
def concatenate (ts : List Ty) : HeapM Ty := do
  match ← peek (·.wideMembers ts) with
  | [] => return 0
  | [t] => return t
  | wide => intern (.concat (wide.map .ofTy))

/-- Sets the handle of one scalar type to the type interned for it. -/
def internScalar (k : Kind) (set : Scalars → Ty → Scalars) : HeapM Unit := do
  let t ← intern (.plain k.word)
  modify fun ⟨arena, types⟩ => ⟨arena, { types with scalars := set types.scalars t }⟩

/-- Interns the six scalar types. -/
def internScalars : HeapM Unit := do
  internScalar .integer fun s t => { s with integer := t }
  internScalar .doesNotReturn fun s t => { s with doesNotReturn := t }
  internScalar .dynamic fun s t => { s with dynamic := t }
  internScalar .ast fun s t => { s with ast := t }
  internScalar .type fun s t => { s with type := t }
  internScalar .function fun s t => { s with function := t }

/-- A heap without types. -/
def bare (capacity : UInt64) : Except Fault Heap := do
  return ⟨← Arena.create capacity, .empty⟩

/-- A heap that knows the scalar types. -/
def create (capacity : UInt64) : Except Fault Heap := do
  match internScalars (← bare capacity) with
  | .ok _ h => return h
  | .error f _ => throw f

end Heap

end TreeMachine
