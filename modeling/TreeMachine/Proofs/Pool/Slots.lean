import TreeMachine.Proofs.Collect.Sweep

/-! # Slots of the pool

  The search for a free slot starts at a word that the pool remembers, and slots are listed
  by going through the words once.  Main statements: if no slot before the remembered word
  is free, the search ends with the lowest free slot, or there is none; and listings are
  ascending and hold exactly the slots that were asked for.
-/

namespace TreeMachine.Pool

variable {p : Pool} {marks : Marks} {f : Function} {i count k : Nat} {id : UInt64}

/-! ### Searching -/

/-- A search without an end has met no free slot. -/
theorem freeFrom_eq_none (h : p.freeFrom i count = none) {j : Nat} (hle : 64 * i ≤ j)
    (hlt : j < 64 * (i + count)) : p.free j = false := by
  fun_induction freeFrom p i count with
  | case1 => omega
  | case2 => cases h
  | case3 i count hnone ih =>
    by_cases hword : j < 64 * (i + 1)
    · have := List.find?_range'_eq_none.1 hnone j hle (by omega)
      simpa using this
    · exact ih h (by omega) (by omega)

/-- The remembered word hides no slot from the search. -/
theorem lowestFree_eq_none (h : p.lowestFree = none) (k : Nat) : p.slots[k]? ≠ some none := by
  intro hslot
  obtain ⟨hk, -⟩ := Array.getElem?_eq_some_iff.1 hslot
  have hwhole := p.whole
  by_cases hold : k < 64 * p.firstFree
  · exact p.taken k hold hslot
  · have hnot := freeFrom_eq_none h (j := k) (by omega) (by omega)
    rw [free_iff.2 hslot] at hnot
    cases hnot

/-! ### Listing -/

/-- The numbers of the slots that `q` selects, ascending. -/
def numbersOf (p : Pool) (q : Option Function → Nat → Bool) : List UInt64 :=
  p.slots.toList.zipIdx.filterMap fun (slot, i) =>
    if q slot i then some (UInt64.ofNat (i + 1)) else none

variable {q : Option Function → Nat → Bool}

theorem toNat_number (hsize : p.slots.size < 2 ^ 64) (hk : k < p.slots.size) :
    (UInt64.ofNat (k + 1)).toNat = k + 1 := by
  rw [UInt64.toNat_ofNat']
  omega

/-- A number with a slot. -/
theorem get?_number (hsize : p.slots.size < 2 ^ 64) {slot : Option Function}
    (hslot : p.slots[k]? = some slot) : p.get? (UInt64.ofNat (k + 1)) = slot := by
  have hid := toNat_number hsize (Array.getElem?_eq_some_iff.1 hslot).1
  have h0 : UInt64.ofNat (k + 1) ≠ 0 := Arena.toNat_pos_iff.1 (by omega)
  rw [get?, if_neg h0, hid, Nat.add_sub_cancel, hslot]
  rfl

theorem mem_numbersOf (hsize : p.slots.size < 2 ^ 64) : id ∈ p.numbersOf q ↔
    id ≠ 0 ∧ ∃ slot, p.slots[id.toNat - 1]? = some slot ∧ q slot (id.toNat - 1) = true := by
  simp only [numbersOf, List.mem_filterMap, Prod.exists, List.mem_zipIdx_iff_getElem?,
    Array.getElem?_toList, Option.ite_none_right_eq_some, Option.some.injEq]
  constructor
  · rintro ⟨slot, k, hslot, hq, rfl⟩
    have hid := toNat_number hsize (Array.getElem?_eq_some_iff.1 hslot).1
    refine ⟨Arena.toNat_pos_iff.1 (by omega), slot, ?_⟩
    rw [hid, Nat.add_sub_cancel]
    exact ⟨hslot, hq⟩
  · rintro ⟨h0, slot, hslot, hq⟩
    have hpos := Arena.toNat_pos_iff.2 h0
    exact ⟨slot, id.toNat - 1, hslot, hq, by rw [Nat.sub_add_cancel hpos, UInt64.ofNat_toNat]⟩

theorem numbersOf_ascending (hsize : p.slots.size < 2 ^ 64) :
    (p.numbersOf q).Pairwise (· < ·) := by
  have hindex : p.slots.toList.zipIdx.Pairwise fun x y => x.2 < y.2 := by
    have := List.pairwise_lt_range' (s := 0) (n := p.slots.toList.length)
    rw [← List.zipIdx_map_snd 0 p.slots.toList, List.pairwise_map] at this
    exact this
  refine List.Pairwise.filterMap _ ?_ (hindex.imp_of_mem (S := fun x y =>
    x.2 < y.2 ∧ y.2 < p.slots.size) ?_)
  · rintro ⟨slot, i⟩ ⟨slot', j⟩ ⟨hlt, hj⟩ a ha b hb
    simp only [Option.ite_none_right_eq_some, Option.some.injEq] at ha hb
    rw [← ha.2, ← hb.2, UInt64.lt_iff_toNat_lt, toNat_number hsize hj,
      toNat_number hsize (Nat.lt_trans hlt hj)]
    dsimp only at hlt
    omega
  · rintro x ⟨slot', j⟩ - hy hlt
    rw [List.mem_zipIdx_iff_getElem?, Array.getElem?_toList] at hy
    exact ⟨hlt, (Array.getElem?_eq_some_iff.1 hy).1⟩

/-- What is read under the numbers that are listed is what stands in their slots. -/
theorem filterMap_numbersOf (hsize : p.slots.size < 2 ^ 64) :
    (p.numbersOf q).filterMap p.get? =
      p.slots.toList.zipIdx.filterMap fun (slot, i) => if q slot i then slot else none := by
  rw [numbersOf, List.filterMap_filterMap]
  refine List.filterMap_congr ?_
  rintro ⟨slot, i⟩ hmem
  rw [List.mem_zipIdx_iff_getElem?, Array.getElem?_toList] at hmem
  dsimp only
  split
  · exact get?_number hsize hmem
  · rfl

theorem occupied_eq : p.occupied = p.numbersOf fun slot _ => slot.isSome := by
  refine List.filterMap_congr ?_
  rintro ⟨slot, i⟩ -
  cases slot <;> rfl

theorem size_eq : p.size = p.occupied.length := by
  rw [size, ← Array.countP_toList, occupied, List.length_filterMap_eq_countP]
  conv_lhs => rw [← List.zipIdx_map_fst 0 p.slots.toList, List.countP_map]
  congr 1
  funext x
  simp

/-- A listed number has a function. -/
theorem mem_occupied (hsize : p.slots.size < 2 ^ 64) :
    id ∈ p.occupied ↔ (p.get? id).isSome = true := by
  rw [occupied_eq, mem_numbersOf hsize, get?]
  by_cases h0 : id = 0
  · simp [h0]
  · rw [if_neg h0]
    cases p.slots[id.toNat - 1]? <;> simp [h0]

/-- The numbers of the functions that are dropped if only those with marks are kept. -/
def unmarked (p : Pool) (marks : Marks) : List UInt64 :=
  p.numbersOf fun slot i => slot.isSome && marks.visited[i]? != some true

theorem mem_unmarked (hsize : p.slots.size < 2 ^ 64) : id ∈ p.unmarked marks ↔
    (p.get? id).isSome = true ∧ marks.visited[id.toNat - 1]? ≠ some true := by
  rw [unmarked, mem_numbersOf hsize, get?]
  by_cases h0 : id = 0
  · simp [h0]
  · rw [if_neg h0]
    cases p.slots[id.toNat - 1]? <;> simp [h0]

/-- The functions that are dropped are those of the listed numbers, in that order. -/
theorem sweep_dropped (hsize : p.slots.size < 2 ^ 64) :
    (p.sweep marks).1 = (p.unmarked marks).filterMap p.get? := by
  rw [unmarked, filterMap_numbersOf hsize]
  rfl

theorem length_dropped (hsize : p.slots.size < 2 ^ 64) :
    (p.sweep marks).1.length = (p.unmarked marks).length := by
  rw [sweep_dropped hsize, List.length_filterMap_eq_countP, List.countP_eq_length]
  exact fun id hid => ((mem_unmarked hsize).1 hid).1

end TreeMachine.Pool
