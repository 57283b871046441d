import TreeMachine.Node.Basic

/-! # Making and changing nodes

  Every constructor takes fresh words from the arena.  A block grows by moving its elements
  to a vector of twice the capacity; the old vector is left to the collector.
-/

namespace TreeMachine

/-- Why a node could not be made. -/
inductive NodeError where
  | unknownTag (tagWord : UInt64)
  /-- Literals and blocks have constructors of their own. -/
  | ownConstructor (tag : Tag)
  | fieldCount (tag : Tag) (given : Nat)
  /-- A literal of the type written `type` takes `size` words. -/
  | literalSize (type : String) (size : UInt64) (given : Nat)
deriving DecidableEq, Repr

/-- The wording of the failure to make a node. -/
def NodeError.message : NodeError → String
  | unknownTag tagWord => s!"ast: unknown tag {tagWord}"
  | ownConstructor tag => s!"ast: {tag.name} nodes need their own constructor"
  | fieldCount tag given => s!"ast: {tag.name} takes {tag.fields} fields, got {given}"
  | literalSize type size given => literalSizeText type size given

/-- Operations that make nodes. -/
abbrev NodeM := EStateM (Stop NodeError) Heap

namespace Heap

/-- Writes words one after the other. -/
def setEach (addr : Addr) : List UInt64 → HeapM Unit
  | [] => return ()
  | w :: rest => do
    setWord addr w
    setEach (addr + 1) rest

/-- A record with its header filled in and its payload zero. -/
def allocateNode (tag : Tag) (preceding : Node) : HeapM Node := do
  let n ← allocate (headerWords + UInt64.ofNat tag.fields)
  setWord n tag.word
  setWord (n + 1) preceding
  return n

/-- A node all of whose fields are nodes. -/
def newNode (tag : Tag) (preceding : Node) (fields : List Node) : NodeM Node := do
  if tag = .literal ∨ tag = .block then throw (.error (.ownConstructor tag))
  if fields.length ≠ tag.fields then throw (.error (.fieldCount tag fields.length))
  let n ← allocateNode tag preceding
  setEach (n + headerWords) fields
  return n

/-- `newNode` for the tag that a word marks. -/
def newNodeOfWord (tagWord : UInt64) (preceding : Node) (fields : List Node) : NodeM Node :=
  match Tag.ofWord? tagWord with
  | some tag => newNode tag preceding fields
  | none => throw (.error (.unknownTag tagWord))

/-- A literal of type `t`; its words are copied into an object of their own. -/
def newLiteral (preceding : Node) (t : Ty) (ws : List UInt64) : NodeM Node := do
  let size ← peek (·.size t)
  if UInt64.ofNat ws.length ≠ size then
    throw (.error (.literalSize (← peek (·.typeText t)) size ws.length))
  let mut object : Addr := 0
  if size ≠ 0 then
    object ← allocate size
    setWords object ws
  let n ← allocateNode .literal preceding
  setWord (n + 2) t
  setWord (n + 3) object
  return n

/-- A literal whose size is known to be right; anything else is a broken invariant. -/
def newLiteralOrFault (preceding : Node) (t : Ty) (ws : List UInt64) : HeapM Node := fun h =>
  match newLiteral preceding t ws h with
  | .ok n h => .ok n h
  | .error (.fault f) h => .error f h
  | .error (.error (.literalSize type size given)) h =>
    .error (.broken (.literalSize type size given)) h
  | .error (.error _) h => .error .outOfBounds h

/-- An integer literal. -/
def newInteger (v : UInt64) : HeapM Node := do
  newLiteralOrFault 0 (← get).types.scalars.integer [v]

/-! ### Blocks -/

/-- An empty vector. -/
def newVector (capacity : UInt64) : HeapM Addr := do
  let vec ← allocate (vectorHeader + capacity)
  setWord vec 0
  setWord (vec + 1) capacity
  return vec

/-- Adds an element to a vector that has room for it. -/
def pushVector (vec : Addr) (elem : Node) : HeapM Unit := do
  let length ← peek (·.word vec)
  setWord (vec + vectorHeader + length) elem
  setWord vec (length + 1)

/-- Adds elements to a vector that has room for them. -/
def pushAll (vec : Addr) : List Node → HeapM Unit
  | [] => return ()
  | elem :: rest => do
    pushVector vec elem
    pushAll vec rest

/-- A block with the given elements. -/
def newBlock (preceding : Node) (elems : List Node) : HeapM Node := do
  let n ← allocateNode .block preceding
  if !elems.isEmpty then
    let vec ← newVector (UInt64.ofNat elems.length)
    pushAll vec elems
    setWord (n + 2) vec
  return n

/-- Adds an element at the end of a block. -/
def append (block elem : Node) : HeapM Unit := do
  peek (·.expectTag block .block)
  let slot := block + 2
  let mut vec ← peek (·.word slot)
  if vec = 0 then
    vec ← newVector 4
    setWord slot vec
  let length ← peek (·.word vec)
  let capacity ← peek (·.word (vec + 1))
  if length = capacity then
    let grown ← newVector (capacity * 2)
    let _ ← peek (·.slice (grown + vectorHeader) length)
    let moved ← peek (·.slice (vec + vectorHeader) length)
    setWords (grown + vectorHeader) moved
    setWord grown length
    vec := grown
    setWord slot vec
  pushVector vec elem

/-! ### Changing and copying -/

/-- Sets a field that refers to a node. -/
def patch (n : Node) (i : Int) (child : Node) : HeapM Unit := do
  let t ← peek (·.tag n)
  if i < 0 ∨ (t.schema.nodeFields : Int) ≤ i then throw (.broken (.noNodeField t i))
  setWord (n + headerWords + UInt64.ofNat i.toNat) child

/-- A copy that shares the children of `n`.  The value of a literal and the vector of a
    block belong to their node and are copied as well. -/
def copyNode (n : Node) : HeapM Node := do
  let t ← peek (·.tag n)
  match t with
  | .literal =>
    let (type, _) ← peek (·.literalValue n)
    let before ← peek (·.preceding n)
    let ws ← peek (·.literalWords n)
    newLiteralOrFault before type ws
  | .block =>
    let before ← peek (·.preceding n)
    let elems ← peek (·.elements n)
    newBlock before elems
  | _ =>
    let before ← peek (·.preceding n)
    let c ← allocateNode t before
    let count := UInt64.ofNat t.fields
    let _ ← peek (·.slice (c + headerWords) count)
    let payload ← peek (·.slice (n + headerWords) count)
    setWords (c + headerWords) payload
    return c

end Heap

end TreeMachine
