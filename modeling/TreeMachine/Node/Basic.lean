import TreeMachine.Types.Intern

/-! # Reading nodes

  A node record is

      tag, preceding node, payload 1, ..., payload n

  The payload of a literal is a type and the address of the boxed value; the payload of a
  block is the address of the vector of its elements, or null for an empty block.  A vector
  is its length, its capacity and that many words.
-/

namespace TreeMachine.Heap

/-- The number of words before the payload. -/
def headerWords : UInt64 := 2

/-- The tag of a node. -/
def tag (h : Heap) (n : Node) : Except Fault Tag := do
  let w ← h.word n
  match Tag.ofWord? w with
  | some t => return t
  | none => violate (.corruptNode n w)

/-- Insists on the tag of a node. -/
def expectTag (h : Heap) (n : Node) (wanted : Tag) : Except Fault Unit := do
  let found ← h.tag n
  if found ≠ wanted then violate (.wrongTag n found wanted)

/-- The node before a node in its basic block, or null. -/
def preceding (h : Heap) (n : Node) : Except Fault Node := h.word (n + 1)

/-- A payload word of a node. -/
def field (h : Heap) (n : Node) (i : Int) : Except Fault UInt64 := do
  let t ← h.tag n
  if i < 0 ∨ (t.fields : Int) ≤ i then violate (.noField t i)
  h.word (n + headerWords + UInt64.ofNat i.toNat)

/-- The number of words of a node record. -/
def nodeWords (h : Heap) (n : Node) : Except Fault UInt64 := do
  return headerWords + UInt64.ofNat (← h.tag n).fields

/-- The type and the boxed object of a literal. -/
def literalValue (h : Heap) (n : Node) : Except Fault (Ty × Addr) := do
  h.expectTag n .literal
  let t ← h.field n 0
  let object ← h.field n 1
  return (t, object)

/-- The words of a literal. -/
def literalWords (h : Heap) (n : Node) : Except Fault (List UInt64) := do
  let (t, object) ← h.literalValue n
  let size ← h.size t
  if size = 0 then return [] else h.slice object size

/-- The vector of a block, or null. -/
def vector (h : Heap) (n : Node) : Except Fault Addr := do
  h.expectTag n .block
  h.field n 0

/-- The number of words before the elements of a vector. -/
def vectorHeader : UInt64 := 2

/-- The number of words of a vector. -/
def vectorWords (h : Heap) (vec : Addr) : Except Fault UInt64 := do
  return vectorHeader + (← h.word (vec + 1))

/-- The elements of a block. -/
def elements (h : Heap) (n : Node) : Except Fault (List Node) := do
  let vec ← h.vector n
  if vec = 0 then return []
  let length ← h.word vec
  if Arena.maxWords < length then .error .outOfBounds
  else h.slice (vec + vectorHeader) length

/-- The payload words from index `i` on, `count` of them. -/
def fieldsFrom (h : Heap) (n : Node) : Nat → Nat → Except Fault (List UInt64)
  | _, 0 => .ok []
  | i, count + 1 => do
    let first ← h.field n i
    return first :: (← h.fieldsFrom n (i + 1) count)

end TreeMachine.Heap
