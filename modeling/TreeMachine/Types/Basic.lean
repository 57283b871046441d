import TreeMachine.Heap

/-! # Types

  A type record is one of

      scalar         kind
      pointer        kind, element
      concatenation  kind, n, member 1, ..., member n

  and everything about a type is read off its record.  A record that refers back to itself
  has no size and no text; reading it is an endless descent.
-/

namespace TreeMachine.Heap

/-- The kind of a type; the empty type has none. -/
def kind (h : Heap) (t : Ty) : Except Fault (Option Kind) := do
  if t = 0 then return none
  let w ← h.word t
  match Kind.ofWord? w with
  | some k => return some k
  | none => violate (.corruptType t w)

/-- The number of words of a record. -/
def recordWords (h : Heap) (t : Ty) : Except Fault UInt64 := do
  match ← h.kind t with
  | some .pointer => return 2
  | some .concatenation => return 2 + (← h.word (t + 1))
  | _ => return 1

/-- The words of a record. -/
def typeRecord (h : Heap) (t : Ty) : Except Fault (List UInt64) := do
  h.slice t (← h.recordWords t)

/-- The members of a concatenation; any other type is its own only member, and the empty
    type has none. -/
def members (h : Heap) (t : Ty) : Except Fault (List Ty) := do
  match ← h.kind t with
  | none => return []
  | some .concatenation => h.slice (t + 2) (← h.word (t + 1))
  | some _ => return [t]

/-- Adds up what `f` says of each item, modulo the word size. -/
def sumWords (f : Ty → Except Fault UInt64) : List Ty → UInt64 → Except Fault UInt64
  | [], n => .ok n
  | t :: rest, n => do sumWords f rest (n + (← f t))

/-- The size of a type, down to a given depth of members. -/
def sizeWithin (h : Heap) : Nat → Ty → Except Fault UInt64
  | 0, _ => .error .endless
  | depth + 1, t => do
    match ← h.kind t with
    | none | some .doesNotReturn => return 0
    | some .dynamic => return 2
    | some .concatenation => sumWords (h.sizeWithin depth) (← h.members t) 0
    | some _ => return 1

/-- The number of words of a value. -/
def size (h : Heap) (t : Ty) : Except Fault UInt64 := h.sizeWithin h.depthBound t

/-- Whether a value is a single address word. -/
def isPointerLike (h : Heap) (t : Ty) : Except Fault Bool := do
  match ← h.kind t with
  | some .pointer | some .ast | some .type | some .function => return true
  | _ => return false

/-- Whether some item passes the test; later items are not looked at. -/
def anyTy (f : Ty → Except Fault Bool) : List Ty → Except Fault Bool
  | [] => .ok false
  | t :: rest => do if ← f t then return true else anyTy f rest

/-- Whether values of a type hold addresses, down to a given depth of members. -/
def holdsPointersWithin (h : Heap) : Nat → Ty → Except Fault Bool
  | 0, _ => .error .endless
  | depth + 1, t => do
    match ← h.kind t with
    | some .pointer | some .dynamic => return true
    | some .concatenation => anyTy (h.holdsPointersWithin depth) (← h.members t)
    | _ => return false

/-- Whether a value holds an address whose lifetime has to be watched. -/
def holdsPointers (h : Heap) (t : Ty) : Except Fault Bool :=
  h.holdsPointersWithin h.depthBound t

/-- The texts of several types. -/
def textsOf (f : Ty → Except Fault String) : List Ty → Except Fault (List String)
  | [] => .ok []
  | t :: rest => do
    let first ← f t
    return first :: (← textsOf f rest)

/-- The text of a type, down to a given depth. -/
def typeTextWithin (h : Heap) : Nat → Ty → Except Fault String
  | 0, _ => .error .endless
  | depth + 1, t => do
    match ← h.kind t with
    | none => return "nil"
    | some .pointer => return "pointer(" ++ (← h.typeTextWithin depth (← h.word (t + 1))) ++ ")"
    | some .concatenation =>
      let parts ← textsOf (h.typeTextWithin depth) (← h.members t)
      return "concat(" ++ ", ".intercalate parts ++ ")"
    | some k => return k.name

/-- How a type is written. -/
def typeText (h : Heap) (t : Ty) : Except Fault String := h.typeTextWithin h.depthBound t

/-- The target of a pointer type. -/
def elem (h : Heap) (t : Ty) : Except Fault Ty := do
  if (← h.kind t) = some .pointer then h.word (t + 1)
  else violate (.elemOfNonPointer (← h.typeText t))

/-- The scalar type whose kind has the given word. -/
def scalar (h : Heap) (kindWord : UInt64) : Except Fault Ty :=
  let s := h.types.scalars
  match Kind.ofWord? kindWord with
  | some .integer => .ok s.integer
  | some .doesNotReturn => .ok s.doesNotReturn
  | some .dynamic => .ok s.dynamic
  | some .ast => .ok s.ast
  | some .type => .ok s.type
  | some .function => .ok s.function
  | _ => violate (.notScalar kindWord)

/-! ### Fitting -/

/-- Whether the types of one list fit those of the other, one by one. -/
def allFit (f : Ty → Ty → Except Fault Bool) : List Ty → List Ty → Except Fault Bool
  | x :: xs, y :: ys => do if ← f x y then allFit f xs ys else return false
  | [], [] => .ok true
  | _, _ => .ok false

/-- `fits` down to a given depth of members. -/
def fitsWithin (h : Heap) : Nat → Ty → Ty → Except Fault Bool
  | 0, _, _ => .error .endless
  | depth + 1, given, want => do
    if given = want then return true
    if given = h.types.scalars.doesNotReturn then return true
    if want = h.types.scalars.integer then
      if ← h.isPointerLike given then return true
    if (← h.kind given) ≠ some .concatenation then return false
    if (← h.kind want) ≠ some .concatenation then return false
    let gs ← h.members given
    let ws ← h.members want
    if gs.length ≠ ws.length then return false
    allFit (h.fitsWithin depth) gs ws

/-- Whether a value of type `given` may stand where `want` is expected.  What does not
    return fits everywhere, an address fits an integer, and concatenations fit member by
    member. -/
def fits (h : Heap) (given want : Ty) : Except Fault Bool := h.fitsWithin h.depthBound given want

end TreeMachine.Heap
