import TreeMachine.Code.Run
import TreeMachine.Node.Basic
import TreeMachine.Pool

/-! # Marking

  Marking is directed by types: the type of a value says how many words it has and which of
  them are addresses.  What has been found before is not entered again, so marking ends on
  cyclic graphs as well.
-/

namespace TreeMachine.Collect

/-- Something to be marked. -/
inductive Target where
  /-- What the words of a value of a type refer to. -/
  | value (ws : List UInt64) (t : Ty)
  /-- The object of a type at an address. -/
  | object (addr : Addr) (t : Ty)
  | type (t : Ty)
  | node (n : Node)
  | function (id : UInt64)
deriving Repr

/-- What has been found so far. -/
structure Found where
  living : Living
  marks : Marks
deriving Inhabited

/-- Marking records what it finds. -/
abbrev MarkM := EStateM Fault Found

/-- Records a region; the answer tells whether it was known already. -/
def foundBefore (addr : Addr) (size : UInt64) : MarkM Bool := fun ⟨living, marks⟩ =>
  match Living.found addr size living with
  | .ok known living => .ok known ⟨living, marks⟩
  | .error f living => .error f ⟨living, marks⟩

/-- Records a function; the answer tells whether it has to be entered. -/
def visitFunction (pool : Pool) (id : UInt64) : MarkM Bool := fun ⟨living, marks⟩ =>
  let (enter, marks) := pool.visit id marks
  .ok enter ⟨living, marks⟩

/-- The word of a value at an index. -/
def wordAt (ws : List UInt64) (i : Nat) : Except Fault UInt64 :=
  match ws[i]? with
  | some w => .ok w
  | none => .error .outOfBounds

/-- Marks targets one after the other. -/
def markAll (mark : Target → MarkM Unit) : List Target → MarkM Unit
  | [] => return ()
  | t :: rest => do
    mark t
    markAll mark rest

/-- Marks what the members of a concatenation refer to; `ws` are the words from the first
    of them on. -/
def markMembers (h : Heap) (mark : Target → MarkM Unit) : List Ty → List UInt64 → MarkM Unit
  | [], _ => return ()
  | t :: rest, ws => do
    let size := (← h.size t).toNat
    if ws.length < size then throw .outOfBounds
    mark (.value (ws.take size) t)
    markMembers h mark rest (ws.drop size)

/-- Marks what the words of a value refer to.  Addresses of frames belong to a running
    function and not to the arena. -/
def markValue (h : Heap) (mark : Target → MarkM Unit) (ws : List UInt64) (t : Ty) :
    MarkM Unit := do
  match ← h.kind t with
  | some .concatenation => markMembers h mark (← h.members t) ws
  | some .pointer =>
    let addr ← wordAt ws 0
    if addr ≠ 0 ∧ addr &&& Code.frameBit = 0 then mark (.object addr (← h.elem t))
  | some .dynamic =>
    let type ← wordAt ws 0
    let object ← wordAt ws 1
    if type = 0 then
      if object ≠ 0 then throw (.broken (.untypedDynamic object))
    else
      mark (.type type)
      if object ≠ 0 then mark (.object object type)
  | some .ast => mark (.node (← wordAt ws 0))
  | some .type => mark (.type (← wordAt ws 0))
  | some .function => mark (.function (← wordAt ws 0))
  | _ => return ()

/-- Marks an object and what it refers to. -/
def markObject (h : Heap) (mark : Target → MarkM Unit) (addr : Addr) (t : Ty) : MarkM Unit := do
  let size ← h.size t
  if size = 0 then return ()
  if ← foundBefore addr size then return ()
  mark (.value (← h.slice addr size) t)

/-- Marks a type record and the types it refers to. -/
def markType (h : Heap) (mark : Target → MarkM Unit) (t : Ty) : MarkM Unit := do
  if t = 0 then return ()
  if ← foundBefore t (← h.recordWords t) then return ()
  match ← h.kind t with
  | some .pointer => mark (.type (← h.elem t))
  | some .concatenation => markAll mark ((← h.members t).map .type)
  | _ => return ()

/-- Marks the fields of a node from index `i` on, `count` of them. -/
def markFields (h : Heap) (mark : Target → MarkM Unit) (n : Node) : Nat → Nat → MarkM Unit
  | _, 0 => return ()
  | i, count + 1 => do
    mark (.node (← h.field n i))
    markFields h mark n (i + 1) count

/-- Marks a node record and what it refers to. -/
def markNode (h : Heap) (mark : Target → MarkM Unit) (n : Node) : MarkM Unit := do
  if n = 0 then return ()
  if ← foundBefore n (← h.nodeWords n) then return ()
  mark (.node (← h.preceding n))
  match ← h.tag n with
  | .literal =>
    let (t, object) ← h.literalValue n
    mark (.type t)
    if object ≠ 0 then mark (.object object t)
  | .block =>
    let vec ← h.vector n
    if vec = 0 then return ()
    if ← foundBefore vec (← h.vectorWords vec) then return ()
    markAll mark ((← h.elements n).map .node)
  | tag => markFields h mark n 0 tag.schema.nodeFields

/-- Marks a function and what its record refers to. -/
def markFunction (pool : Pool) (mark : Target → MarkM Unit) (id : UInt64) : MarkM Unit := do
  if ← visitFunction pool id then
    match pool.get? id with
    | none => return ()
    | some f =>
      mark (.node f.ast)
      mark (.type f.returnType)
      mark (.type f.paramType)

/-- Marks a target, down to a given depth. -/
def markWithin (h : Heap) (pool : Pool) : Nat → Target → MarkM Unit
  | 0, _ => throw .endless
  | depth + 1, target =>
    let mark := markWithin h pool depth
    match target with
    | .value ws t => markValue h mark ws t
    | .object addr t => markObject h mark addr t
    | .type t => markType h mark t
    | .node n => markNode h mark n
    | .function id => markFunction pool mark id

/-- A descent meets at most this many targets: every second one is new, or lies one level
    deeper in a type than the one before. -/
def depthBound (h : Heap) (pool : Pool) : Nat :=
  2 * (h.depthBound + pool.capacity + 2) * (h.depthBound + 2)

/-- What is found from a list of targets. -/
def markTargets (h : Heap) (pool : Pool) (targets : List Target) : Except Fault Found :=
  match markAll (markWithin h pool (depthBound h pool)) targets ⟨.empty, pool.newMarks⟩ with
  | .ok _ found => .ok found
  | .error f _ => .error f

end TreeMachine.Collect
