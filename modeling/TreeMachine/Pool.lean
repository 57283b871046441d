import TreeMachine.Heap
import TreeMachine.Machine

/-! # The function pool

  A fixed number of slots for compiled functions.  A function is referred to by the number
  of its slot counted from one, so that zero means no function.

  The bitmap of the occupied slots and the slots themselves are merged into one array of
  options: bit `k` of the bitmap is set exactly if slot `k` is not `none`, and a slot whose
  bit is clear has no contents.  In the same way a collection marks slots in an array of
  Booleans.  What depends on the words of the bitmap is kept: there are whole words of 64
  slots, and new functions take the lowest free slot, which is searched for word by word
  from a word before which no slot is free.
-/

namespace TreeMachine

/-- A compiled function. -/
structure Function where
  /-- The node it was compiled from. -/
  ast : Node
  returnType : Ty
  paramType : Ty
  /-- Its entry in the machine. -/
  entry : UInt64
  /-- The module to unload when the function goes. -/
  handle : Option Code.Handle
deriving DecidableEq, Repr, Inhabited

/-- The slots of the pool. -/
structure Pool where
  slots : Array (Option Function)
  /-- The lowest word that may have a free slot. -/
  firstFree : Nat
  whole : 64 ∣ slots.size
  taken : ∀ k : Nat, k < 64 * firstFree → slots[k]? ≠ some none
deriving Repr

instance : Inhabited Pool := ⟨#[], 0, ⟨0, rfl⟩, fun _ hk => absurd hk (Nat.not_lt_zero _)⟩

/-- Which slots a collection has visited. -/
structure Marks where
  visited : Array Bool
deriving Repr, Inhabited

namespace Pool

/-- The number of slots for a wanted capacity: the next multiple of 64, and not zero. -/
def slotCount (capacity : Nat) : Nat := max 64 ((capacity + 63) / 64 * 64)

/-- A pool of free slots. -/
def create (capacity : Nat) : Pool where
  slots := Array.replicate (slotCount capacity) none
  firstFree := 0
  whole := by
    rw [Array.size_replicate, slotCount]
    omega
  taken _ hk := absurd hk (Nat.not_lt_zero _)

/-- The number of slots. -/
def capacity (p : Pool) : Nat := p.slots.size

/-- The number of functions. -/
def size (p : Pool) : Nat := p.slots.countP (·.isSome)

/-- Whether a number is that of a slot. -/
def inRange (p : Pool) (id : UInt64) : Bool := id ≠ 0 && id.toNat ≤ p.slots.size

/-- The function with a given number. -/
def get? (p : Pool) (id : UInt64) : Option Function :=
  if id = 0 then none else (p.slots[id.toNat - 1]?).join

/-- The numbers of all functions, ascending. -/
def occupied (p : Pool) : List UInt64 :=
  p.slots.toList.zipIdx.filterMap fun (slot, i) => slot.map fun _ => UInt64.ofNat (i + 1)

/-- Whether there is a slot with a given index, and it is free. -/
def free (p : Pool) (k : Nat) : Bool := p.slots[k]?.any (·.isNone)

/-- The lowest free slot in the words from `i` on, `count` of them. -/
def freeFrom (p : Pool) : Nat → Nat → Option Nat
  | _, 0 => none
  | i, count + 1 =>
    match (List.range' (64 * i) 64).find? p.free with
    | some k => some k
    | none => freeFrom p (i + 1) count

/-- The lowest free slot. -/
def lowestFree (p : Pool) : Option Nat :=
  p.freeFrom p.firstFree (p.slots.size / 64 - p.firstFree)

theorem free_iff {p : Pool} {k : Nat} : p.free k = true ↔ p.slots[k]? = some none := by
  rw [free, Option.any_eq_true]
  simp

/-- A search ends with the lowest free slot of its words. -/
theorem freeFrom_eq_some {p : Pool} {i count k : Nat} (h : p.freeFrom i count = some k) :
    p.free k = true ∧ ∀ j, 64 * i ≤ j → j < k → p.free j = false := by
  fun_induction freeFrom p i count with
  | case1 => cases h
  | case2 i count j hfind =>
    cases h
    obtain ⟨hfree, -, hbefore⟩ := List.find?_range'_eq_some.1 hfind
    exact ⟨hfree, fun j hle hlt => by simpa using hbefore j hle hlt⟩
  | case3 i count hnone ih =>
    obtain ⟨hfree, hbefore⟩ := ih h
    refine ⟨hfree, fun j hle hj => ?_⟩
    by_cases hword : j < 64 * (i + 1)
    · simpa using List.find?_range'_eq_none.1 hnone j hle (by omega)
    · exact hbefore j (by omega) hj

/-- No slot is free before the one that is found. -/
theorem lowestFree_eq_some {p : Pool} {k : Nat} (h : p.lowestFree = some k) :
    p.slots[k]? = some none ∧ ∀ j : Nat, j < k → p.slots[j]? ≠ some none := by
  obtain ⟨hfree, hbefore⟩ := freeFrom_eq_some h
  refine ⟨free_iff.1 hfree, fun j hj => ?_⟩
  by_cases hold : j < 64 * p.firstFree
  · exact p.taken j hold
  · rw [Ne, ← free_iff, hbefore j (by omega) hj]
    exact Bool.false_ne_true

/-- So no slot is free before the word of the one that is found. -/
theorem taken_of_lowestFree {p : Pool} {k : Nat} (h : p.lowestFree = some k) (j : Nat)
    (hj : j < 64 * (k / 64)) : p.slots[j]? ≠ some none :=
  (lowestFree_eq_some h).2 j (by omega)

/-- Stores a function in a slot; the next search starts at word `i`. -/
def put (p : Pool) (k : Nat) (f : Function) (i : Nat)
    (hi : ∀ j : Nat, j < 64 * i → p.slots[j]? ≠ some none) : Pool where
  slots := p.slots.setIfInBounds k (some f)
  firstFree := i
  whole := by
    rw [Array.size_setIfInBounds]
    exact p.whole
  taken j hj := by
    rw [Array.getElem?_setIfInBounds]
    split
    · split <;> simp
    · exact hi j hj

/-- Stores a function in the lowest free slot. -/
def allocate (f : Function) : EStateM Fault Pool UInt64 := fun p =>
  match h : p.lowestFree with
  | some k => .ok (UInt64.ofNat (k + 1)) (p.put k f (k / 64) (taken_of_lowestFree h))
  | none => .error (.broken (.poolExhausted p.slots.size)) p

theorem allocate_eq_ok {p : Pool} {k : Nat} (h : p.lowestFree = some k) (f : Function) :
    allocate f p = .ok (UInt64.ofNat (k + 1)) (p.put k f (k / 64) (taken_of_lowestFree h)) := by
  unfold allocate
  split
  · rename_i k' hfind
    cases h.symm.trans hfind
    rfl
  · rename_i hfind
    cases h.symm.trans hfind

theorem allocate_eq_error {p : Pool} (h : p.lowestFree = none) (f : Function) :
    allocate f p = .error (.broken (.poolExhausted p.slots.size)) p := by
  unfold allocate
  split
  · rename_i k hfind
    cases h.symm.trans hfind
  · rfl

/-- Stores a function in the slot with a given number. -/
def install (id : UInt64) (f : Function) : EStateM Fault Pool Unit := fun p =>
  if !p.inRange id then .error (.broken (.outsidePool id p.slots.size)) p
  else if (p.get? id).isSome then .error (.broken (.alreadyInstalled id)) p
  else .ok () (p.put (id.toNat - 1) f p.firstFree p.taken)

/-- Nothing visited. -/
def newMarks (p : Pool) : Marks := ⟨Array.replicate p.slots.size false⟩

/-- Marks a function.  The answer is false if there is none or if it was marked before. -/
def visit (p : Pool) (id : UInt64) : StateM Marks Bool := fun m =>
  if (p.get? id).isSome && m.visited[id.toNat - 1]? == some false then
    (true, ⟨m.visited.setIfInBounds (id.toNat - 1) true⟩)
  else (false, m)

/-- The slots with a function that was not visited become free.  The answer is those
    functions, in the order of their slots. -/
def sweep (p : Pool) (m : Marks) : List Function × Pool :=
  let dead (slot : Option Function) (i : Nat) : Bool := slot.isSome && m.visited[i]? != some true
  (p.slots.toList.zipIdx.filterMap fun (slot, i) => if dead slot i then slot else none,
    { slots := p.slots.mapIdx fun i slot => if dead slot i then none else slot
      firstFree := 0
      whole := by
        rw [Array.size_mapIdx]
        exact p.whole
      taken := fun _ hk => absurd hk (Nat.not_lt_zero _) })

/-- Frees every slot. -/
def reset (p : Pool) : Pool where
  slots := Array.replicate p.slots.size none
  firstFree := 0
  whole := by
    rw [Array.size_replicate]
    exact p.whole
  taken _ hk := absurd hk (Nat.not_lt_zero _)

end Pool

end TreeMachine
