import TreeMachine.Arena.Living

/-! # The arena

  A fixed array of words with a best-fit free list.  Word zero is reserved, so that the
  address zero can stand for null.  Addresses and sizes are words themselves and their
  sums wrap around.
-/

namespace TreeMachine

/-- A fixed array of words and what is free in it. -/
structure Arena where
  /-- All words, the reserved null word first. -/
  words : Array UInt64
  /-- The free regions, ordered by size and then by address. -/
  free : List Region
  /-- The sum of the sizes of the free regions. -/
  freeWords : UInt64
  /-- Whether a collection is running, which forbids allocation. -/
  collecting : Bool
deriving DecidableEq, Inhabited

namespace Arena

/-- The number of words, the null word included. -/
def limit (a : Arena) : UInt64 := UInt64.ofNat a.words.size

/-- The number of usable words. -/
def capacity (a : Arena) : UInt64 := a.limit - 1

/-! ### The free list -/

/-- Puts a region at its place in the order of the free list. -/
def insertRegion (r : Region) : List Region → List Region
  | [] => [r]
  | x :: rest => if x.before r then x :: insertRegion r rest else r :: x :: rest

/-- Adds a region to the free list; an empty one leaves no trace. -/
def release (r : Region) (a : Arena) : Arena :=
  if r.size = 0 then a
  else { a with free := insertRegion r a.free, freeWords := a.freeWords + r.size }

/-- Takes the first region of at least `n` words out of a free list. -/
def takeFit (n : UInt64) : List Region → Option (Region × List Region)
  | [] => none
  | x :: rest =>
    if n ≤ x.size then some (x, rest)
    else (takeFit n rest).map fun (r, others) => (r, x :: others)

/-- No arena is larger than this: the address space of the host ends there. -/
def maxWords : UInt64 := 0x200000000000

/-- An arena of `capacity` usable words, all of them zero and free.  The count of words wraps
    like any other sum, so the greatest capacity gives an arena without a word. -/
def create (capacity : UInt64) : Except Fault Arena :=
  if capacity = 0 then violate .emptyArena
  else if maxWords < capacity + 1 then .error .outOfBounds
  else .ok {
    words := Array.replicate (capacity + 1).toNat 0
    free := [⟨1, capacity⟩]
    freeWords := capacity
    collecting := false }

/-- Sets the `n` words from index `i` on to zero. -/
def clearFrom (words : Array UInt64) (i : Nat) : Nat → Array UInt64
  | 0 => words
  | n + 1 => clearFrom (words.setIfInBounds i 0) (i + 1) n

/-- Carves `n` words out of the smallest free region that fits and clears them.  Every
    allocation takes at least one word, so any remainder stays usable. -/
def allocate (n : UInt64) : EStateM Fault Arena Addr := fun a =>
  if a.collecting then .error (.broken (.allocationDuringCollection n)) a
  else if n = 0 then .error (.broken .allocationOfNothing) a
  else match takeFit n a.free with
    | none => .error (.broken (.outOfMemory n a.freeWords)) a
    | some (r, others) =>
      let a := { a with free := others, freeWords := a.freeWords - r.size }
      let a := a.release ⟨r.addr + n, r.size - n⟩
      if r.addr ≤ r.addr + n ∧ r.addr + n ≤ a.limit then
        .ok r.addr { a with words := clearFrom a.words r.addr.toNat n.toNat }
      else .error .outOfBounds a

/-! ### Access -/

/-- Refuses the null address and ranges that end past the arena.  The sum wraps, so a range
    near the top of the address space can slip through. -/
def check (a : Arena) (addr : Addr) (n : UInt64) : Except Fault Unit :=
  if addr = 0 ∨ a.limit < addr + n then violate (.outOfRange addr (addr + n) a.limit)
  else .ok ()

/-- The word at `addr`. -/
def word (a : Arena) (addr : Addr) : Except Fault UInt64 := do
  a.check addr 1
  match a.words[addr.toNat]? with
  | some w => .ok w
  | none => .error .outOfBounds

/-- The `n` words from `addr` on. -/
def slice (a : Arena) (addr : Addr) (n : UInt64) : Except Fault (List UInt64) := do
  a.check addr n
  if addr ≤ addr + n then
    .ok (a.words.extract addr.toNat (addr.toNat + n.toNat)).toList
  else .error .outOfBounds

/-- Writes `w` at `addr`. -/
def setWord (addr : Addr) (w : UInt64) : EStateM Fault Arena Unit := fun a =>
  match a.check addr 1 with
  | .error f => .error f a
  | .ok _ =>
    if addr.toNat < a.words.size then
      .ok () { a with words := a.words.setIfInBounds addr.toNat w }
    else .error .outOfBounds a

/-- Writes a list of words into an array from index `i` on. -/
def writeFrom (words : Array UInt64) (i : Nat) : List UInt64 → Array UInt64
  | [] => words
  | w :: rest => writeFrom (words.setIfInBounds i w) (i + 1) rest

/-- Writes `ws` into the words from `addr` on. -/
def setWords (addr : Addr) (ws : List UInt64) : EStateM Fault Arena Unit := fun a =>
  let n := UInt64.ofNat ws.length
  match a.check addr n with
  | .error f => .error f a
  | .ok _ =>
    if addr ≤ addr + n then .ok () { a with words := writeFrom a.words addr.toNat ws }
    else .error .outOfBounds a

/-- Overwrites all words.  Nothing is free afterwards: a collection rebuilds the list. -/
def restore (ws : Array UInt64) : EStateM Fault Arena Unit := fun a =>
  if ws.size = a.words.size then
    .ok () { a with words := ws, free := [], freeWords := 0 }
  else .error (.broken (.restoreSize ws.size a.words.size)) a

/-! ### Collection -/

/-- Forbids allocation until `endCollection`. -/
def beginCollection : EStateM Fault Arena Unit := fun a =>
  if a.collecting then .error (.broken .collectionRunning) a
  else .ok () { a with collecting := true }

/-- Frees the gaps between living regions, which come in ascending order; `next` is where
    the last region ended.  The answer is where the final gap starts. -/
def freeGaps : List Region → Addr → EStateM Fault Arena Addr
  | [], next => fun a => .ok next a
  | r :: rest, next => fun a =>
    if r.addr < next then .error (.broken (.livingOverlap r.addr)) a
    else freeGaps rest r.stop (a.release ⟨next, r.addr - next⟩)

/-- Rebuilds the free list as the complement of the living regions and allows allocation
    again.  If it stops half way, the gaps found so far are free and the collection is
    still running. -/
def endCollection (living : Living) : EStateM Fault Arena Unit := fun a =>
  if a.collecting then
    match freeGaps living.regions 1 { a with free := [], freeWords := 0 } with
    | .error f a => .error f a
    | .ok next a =>
      if a.limit < next then .error (.broken (.livingPastEnd next)) a
      else .ok () { a.release ⟨next, a.limit - next⟩ with collecting := false }
  else .error (.broken .collectionNotStarted) a

end Arena

end TreeMachine
