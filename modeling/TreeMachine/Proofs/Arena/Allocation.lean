import Mathlib.Data.List.Nodup
import Mathlib.Data.List.Perm.Subperm
import TreeMachine.Proofs.Arena.Words

/-! # Allocation

  A sound arena has free regions that lie apart from each other inside it.  Allocation
  takes words that were free and touches nothing else, so whatever has been allocated stays
  as it is.  Main statements: an allocation succeeds whenever some region has room for it
  and then gives cleared words that nothing else owns.
-/

namespace TreeMachine

namespace Region

/-- A position inside the region. -/
def Has (r : Region) (i : Nat) : Prop := r.addr.toNat ≤ i ∧ i < r.addr.toNat + r.size.toNat

/-- One of the regions ends before the other starts. -/
def Apart (x y : Region) : Prop :=
  x.addr.toNat + x.size.toNat ≤ y.addr.toNat ∨ y.addr.toNat + y.size.toNat ≤ x.addr.toNat

theorem Apart.symm {x y : Region} (h : Apart x y) : Apart y x := Or.symm h

theorem Apart.not_has {x y : Region} (h : Apart x y) {i : Nat} (hx : x.Has i) : ¬ y.Has i := by
  rintro ⟨hle, hlt⟩
  obtain ⟨hle', hlt'⟩ := hx
  rcases h with h | h <;> omega

/-- The region is not empty and lies between word one and the given end. -/
structure Inside (r : Region) (stop : Nat) : Prop where
  addr_pos : 0 < r.addr.toNat
  size_pos : 0 < r.size.toNat
  stop_le : r.addr.toNat + r.size.toNat ≤ stop

end Region

namespace Arena

/-- A position in a free region. -/
def Free (a : Arena) (i : Nat) : Prop := ∃ r ∈ a.free, r.Has i

/-- The free regions lie apart inside the arena, and their sizes add up. -/
structure Sound (a : Arena) : Prop where
  sized : a.Sized
  inside : ∀ r ∈ a.free, r.Inside a.words.size
  apart : a.free.Pairwise Region.Apart
  counted : a.freeWords.toNat = (a.free.map (·.size.toNat)).sum

/-! ### The free list -/

theorem insertRegion_perm (r : Region) (l : List Region) : (insertRegion r l).Perm (r :: l) := by
  induction l with
  | nil => exact List.Perm.refl _
  | cons x rest ih =>
    unfold insertRegion
    split
    · exact (ih.cons x).trans (List.Perm.swap r x rest)
    · exact List.Perm.refl _

theorem mem_insertRegion {r x : Region} {l : List Region} :
    x ∈ insertRegion r l ↔ x = r ∨ x ∈ l := by
  rw [(insertRegion_perm r l).mem_iff, List.mem_cons]

theorem takeFit_eq_some {n : UInt64} {l others : List Region} {r : Region}
    (h : takeFit n l = some (r, others)) : l.Perm (r :: others) ∧ n.toNat ≤ r.size.toNat := by
  induction l generalizing others with
  | nil => cases h
  | cons x rest ih =>
    unfold takeFit at h
    split at h
    · rename_i hle
      cases h
      exact ⟨List.Perm.refl _, UInt64.le_iff_toNat_le.1 hle⟩
    · obtain ⟨⟨r', others'⟩, hrest, heq⟩ := Option.map_eq_some_iff.1 h
      cases heq
      obtain ⟨hperm, hle⟩ := ih hrest
      exact ⟨(hperm.cons x).trans (List.Perm.swap r x others'), hle⟩

/-- A region that is large enough is never overlooked. -/
theorem takeFit_isSome {n : UInt64} {l : List Region} {r : Region} (hmem : r ∈ l)
    (hle : n.toNat ≤ r.size.toNat) : ∃ r' others, takeFit n l = some (r', others) := by
  induction l with
  | nil => cases hmem
  | cons x rest ih =>
    unfold takeFit
    by_cases hx : n ≤ x.size
    · exact ⟨x, rest, by rw [if_pos hx]⟩
    · have hmem' : r ∈ rest := by
        rcases List.mem_cons.1 hmem with rfl | hmem'
        · exact absurd (UInt64.le_iff_toNat_le.2 hle) hx
        · exact hmem'
      obtain ⟨r', others, heq⟩ := ih hmem'
      exact ⟨r', x :: others, by rw [if_neg hx, heq]; rfl⟩

theorem pairwise_apart_perm {l l' : List Region} (h : l.Perm l') (hp : l.Pairwise Region.Apart) :
    l'.Pairwise Region.Apart :=
  (h.pairwise_iff fun h => Region.Apart.symm h).1 hp

/-- The sum of the sizes of regions that lie apart inside the arena. -/
theorem sum_sizes_le {l : List Region} (lo : Nat) {stop : Nat}
    (hin : ∀ r ∈ l, r.Inside stop ∧ lo ≤ r.addr.toNat) (hp : l.Pairwise Region.Apart)
    (hle : lo ≤ stop) : (l.map (·.size.toNat)).sum ≤ stop - lo := by
  -- The positions of the regions are distinct numbers from `lo` up to `stop`.
  let positions (r : Region) : List Nat := List.range' r.addr.toNat r.size.toNat
  have hlen : (l.flatMap positions).length = (l.map (·.size.toNat)).sum := by
    simp [List.length_flatMap, positions]
  have hnodup : (l.flatMap positions).Nodup := by
    rw [List.nodup_flatMap]
    refine ⟨fun r _ => List.nodup_range', hp.imp ?_⟩
    intro x y hxy i hx hy
    simp only [positions, List.mem_range'_1] at hx hy
    exact hxy.not_has hx hy
  have hsub : (l.flatMap positions).Subperm (List.range' lo (stop - lo)) := by
    refine List.subperm_of_subset hnodup ?_
    intro i hi
    obtain ⟨r, hr, hir⟩ := List.mem_flatMap.1 hi
    simp only [positions, List.mem_range'_1] at hir ⊢
    obtain ⟨hins, hlo⟩ := hin r hr
    have := hins.stop_le
    omega
  have := hsub.length_le
  rw [hlen, List.length_range'] at this
  exact this

/-! ### Allocating -/

/-- `n` words at `addr` have been taken out of the free words of `a`, which gives `a'`. -/
structure Allocated (a : Arena) (n : UInt64) (addr : Addr) (a' : Arena) : Prop where
  sound : a'.Sound
  size_eq : a'.words.size = a.words.size
  collecting_eq : a'.collecting = a.collecting
  region : Region.Inside ⟨addr, n⟩ a.words.size
  was_free : ∀ i, Region.Has ⟨addr, n⟩ i → a.Free i
  free_iff : ∀ i, a'.Free i ↔ a.Free i ∧ ¬ Region.Has ⟨addr, n⟩ i
  words_eq : ∀ i, a'.words[i]? = if addr.toNat ≤ i ∧ i < addr.toNat + n.toNat then some 0
    else a.words[i]?

/-- What is left of a free list when the first `n` words of one of its regions go. -/
theorem free_carved {l others : List Region} {r : Region} {n : UInt64}
    (hperm : l.Perm (r :: others)) (hp : l.Pairwise Region.Apart) (hn : n.toNat ≤ r.size.toNat)
    {rest : Region} (hrest : rest.addr.toNat = r.addr.toNat + n.toNat)
    (hsize : rest.size.toNat = r.size.toNat - n.toNat) (i : Nat) :
    ((∃ x ∈ others, x.Has i) ∨ rest.Has i) ↔
      (∃ x ∈ l, x.Has i) ∧ ¬ Region.Has ⟨r.addr, n⟩ i := by
  have hp' := List.pairwise_cons.1 (pairwise_apart_perm hperm hp)
  constructor
  · rintro (⟨x, hx, hi⟩ | ⟨hle, hlt⟩)
    · refine ⟨⟨x, hperm.mem_iff.2 (List.mem_cons_of_mem _ hx), hi⟩, ?_⟩
      rintro ⟨hle, hlt⟩
      exact (hp'.1 x hx).not_has ⟨hle, by dsimp only at hlt; omega⟩ hi
    · refine ⟨⟨r, hperm.mem_iff.2 List.mem_cons_self, by constructor <;> omega⟩, ?_⟩
      rintro ⟨-, hlt'⟩
      dsimp only at hlt'
      omega
  · rintro ⟨⟨x, hx, hi⟩, hout⟩
    rcases List.mem_cons.1 (hperm.mem_iff.1 hx) with rfl | hx
    · right
      obtain ⟨hle, hlt⟩ := hi
      have hge : ¬ i < x.addr.toNat + n.toNat := fun h => hout ⟨hle, h⟩
      constructor <;> omega
    · exact Or.inl ⟨x, hx, hi⟩

theorem release_words (r : Region) (a : Arena) : (a.release r).words = a.words := by
  unfold release
  split <;> rfl

theorem release_collecting (r : Region) (a : Arena) :
    (a.release r).collecting = a.collecting := by
  unfold release
  split <;> rfl

theorem free_release {r : Region} {a : Arena} {i : Nat} :
    (a.release r).Free i ↔ a.Free i ∨ r.Has i := by
  unfold release
  split
  · rename_i h0
    constructor
    · exact Or.inl
    · rintro (h | ⟨hle, hlt⟩)
      · exact h
      · rw [h0, UInt64.toNat_zero] at hlt
        omega
  · constructor
    · rintro ⟨x, hx, hi⟩
      rcases mem_insertRegion.1 hx with rfl | hx
      · exact Or.inr hi
      · exact Or.inl ⟨x, hx, hi⟩
    · rintro (⟨x, hx, hi⟩ | hi)
      · exact ⟨x, mem_insertRegion.2 (Or.inr hx), hi⟩
      · exact ⟨r, mem_insertRegion.2 (Or.inl rfl), hi⟩

/-- A region that lies apart from the free ones may become free. -/
theorem Sound.release {a : Arena} (ha : a.Sound) {r : Region}
    (hr : r.size ≠ 0 → r.Inside a.words.size) (hap : ∀ x ∈ a.free, r.Apart x) :
    (a.release r).Sound := by
  unfold Arena.release
  split
  · exact ha
  · rename_i h0
    have hin := hr h0
    have hperm := insertRegion_perm r a.free
    have hinside : ∀ x ∈ insertRegion r a.free, x.Inside a.words.size := by
      intro x hx
      rcases mem_insertRegion.1 hx with rfl | hx
      · exact hin
      · exact ha.inside x hx
    have hpair : (insertRegion r a.free).Pairwise Region.Apart :=
      pairwise_apart_perm hperm.symm (List.pairwise_cons.2 ⟨hap, ha.apart⟩)
    refine ⟨ha.sized, hinside, hpair, ?_⟩
    have hsum : ((insertRegion r a.free).map (·.size.toNat)).sum
        = r.size.toNat + (a.free.map (·.size.toNat)).sum := by
      rw [(hperm.map (·.size.toNat)).sum_nat, List.map_cons, List.sum_cons]
    have hbound := sum_sizes_le 0 (fun x hx => ⟨hinside x hx, Nat.zero_le _⟩) hpair
      (Nat.zero_le _)
    have hlt := ha.sized.lt
    have hcount := ha.counted
    dsimp only
    rw [hsum] at hbound ⊢
    rw [UInt64.toNat_add]
    omega

/-- Taking a region out of the free list. -/
theorem Sound.take {a : Arena} (ha : a.Sound) {r : Region} {others : List Region}
    (hperm : a.free.Perm (r :: others)) :
    ({ a with free := others, freeWords := a.freeWords - r.size } : Arena).Sound := by
  have hsum := ha.counted
  rw [(hperm.map (·.size.toNat)).sum_nat, List.map_cons, List.sum_cons] at hsum
  refine ⟨ha.sized, ?_, ?_, ?_⟩
  · intro x hx
    exact ha.inside x (hperm.mem_iff.2 (List.mem_cons_of_mem _ hx))
  · exact (List.pairwise_cons.1 (pairwise_apart_perm hperm ha.apart)).2
  · dsimp only
    rw [UInt64.toNat_sub_of_le _ _ (by rw [UInt64.le_iff_toNat_le]; omega)]
    omega

/-- A new arena is sound, if the count of its words does not wrap. -/
theorem create_sound {capacity : UInt64} {a : Arena} (hwrap : capacity + 1 ≠ 0)
    (hc : create capacity = .ok a) : a.Sound := by
  unfold create at hc
  split at hc
  · cases hc
  · rename_i h0
    split at hc
    · cases hc
    · rename_i hmax
      cases hc
      have hone : (1 : UInt64).toNat = 1 := rfl
      have hpos := toNat_pos_iff.2 h0
      have hsum : (capacity + 1).toNat = capacity.toNat + 1 := by
        have hlt := capacity.toNat_lt
        have hne := toNat_pos_iff.2 hwrap
        rw [UInt64.toNat_add] at hne ⊢
        omega
      rw [UInt64.lt_iff_toNat_lt] at hmax
      refine ⟨?_, ?_, List.pairwise_singleton _ _, by simp⟩
      · rw [Sized, Array.size_replicate]
        omega
      · intro r hr
        rw [List.mem_singleton.1 hr, Array.size_replicate]
        exact ⟨Nat.one_pos, hpos, by dsimp only; omega⟩

/-- There is a free region of at least `n` words. -/
def Room (a : Arena) (n : Nat) : Prop := 0 < n → ∃ r ∈ a.free, n ≤ r.size.toNat

theorem Room.mono {a : Arena} {m n : Nat} (h : a.Room n) (hle : m ≤ n) : a.Room m := by
  intro hpos
  obtain ⟨r, hr, hsize⟩ := h (by omega)
  exact ⟨r, hr, by omega⟩

/-- Carving the front off a free region. -/
theorem allocate_of_takeFit {a : Arena} (ha : a.Sound) (hc : a.collecting = false) {n : UInt64}
    (hn : n ≠ 0) {r : Region} {others : List Region}
    (htake : takeFit n a.free = some (r, others)) :
    ∃ a', allocate n a = .ok r.addr a' ∧ a.Allocated n r.addr a' ∧
      ∀ x, x ∈ others ∨ (x = ⟨r.addr + n, r.size - n⟩ ∧ x.size ≠ 0) → x ∈ a'.free := by
  obtain ⟨hperm, hle⟩ := takeFit_eq_some htake
  have hr := ha.inside r (hperm.mem_iff.2 List.mem_cons_self)
  obtain ⟨hpos, -, hstop⟩ := hr
  have hnpos := toNat_pos_iff.2 hn
  have hadd : (r.addr + n).toNat = r.addr.toNat + n.toNat :=
    toNat_add_of_le ha.sized (by omega)
  have hsub : (r.size - n).toNat = r.size.toNat - n.toNat :=
    UInt64.toNat_sub_of_le _ _ (UInt64.le_iff_toNat_le.2 hle)
  set rest : Region := ⟨r.addr + n, r.size - n⟩ with hrest
  have hp' := List.pairwise_cons.1 (pairwise_apart_perm hperm ha.apart)
  have htaken := ha.take hperm
  set taken : Arena := { a with free := others, freeWords := a.freeWords - r.size } with ht
  have hsound : (taken.release rest).Sound := by
    refine htaken.release ?_ ?_
    · intro h0
      have := toNat_pos_iff.2 h0
      dsimp only [rest] at this
      refine ⟨?_, ?_, ?_⟩ <;> dsimp only [rest, taken] <;> omega
    · intro x hx
      have := hp'.1 x hx
      dsimp only [Region.Apart, rest] at this ⊢
      omega
  have hwords : (taken.release rest).words = a.words := release_words rest taken
  have hlimit : (taken.release rest).limit.toNat = a.words.size := by
    rw [limit_toNat hsound.sized, hwords]
  have hcond : r.addr ≤ r.addr + n ∧ r.addr + n ≤ (taken.release rest).limit := by
    rw [UInt64.le_iff_toNat_le, UInt64.le_iff_toNat_le, hlimit]
    omega
  refine ⟨{ taken.release rest with
      words := clearFrom (taken.release rest).words r.addr.toNat n.toNat }, ?_, ?_, ?_⟩
  · unfold allocate
    rw [if_neg (by simp [hc]), if_neg hn, htake]
    exact if_pos hcond
  · have hfree : ∀ i, (taken.release rest).Free i ↔ a.Free i ∧ ¬ Region.Has ⟨r.addr, n⟩ i := by
      intro i
      rw [free_release]
      exact free_carved hperm ha.apart hle hadd hsub i
    refine ⟨⟨?_, ?_, hsound.apart, hsound.counted⟩, ?_, ?_, ⟨hpos, hnpos, by dsimp only; omega⟩,
      ?_, hfree, ?_⟩
    · rw [Sized, size_clearFrom]
      exact hsound.sized
    · intro x hx
      rw [size_clearFrom]
      exact hsound.inside x hx
    · rw [size_clearFrom, hwords]
    · exact release_collecting rest taken
    · rintro i ⟨hle', hlt'⟩
      dsimp only at hle' hlt'
      exact ⟨r, hperm.mem_iff.2 List.mem_cons_self, by constructor <;> omega⟩
    · intro i
      rw [hwords]
      exact getElem?_clearFrom _ _ _ _ (by omega)
  · rintro x hx
    dsimp only
    rcases hx with hx | ⟨rfl, h0⟩
    · unfold Arena.release
      split
      · exact hx
      · exact mem_insertRegion.2 (Or.inr hx)
    · unfold Arena.release
      rw [if_neg h0]
      exact mem_insertRegion.2 (Or.inl rfl)

/-- An allocation gives fresh words or changes nothing. -/
theorem allocate_cases {a : Arena} (ha : a.Sound) (n : UInt64) :
    (∃ addr a', allocate n a = .ok addr a' ∧ a.Allocated n addr a') ∨
      ∃ v, allocate n a = .error (.broken v) a := by
  by_cases hc : a.collecting = true
  · exact Or.inr ⟨_, if_pos hc⟩
  have hc : a.collecting = false := by simpa using hc
  by_cases hn : n = 0
  · exact Or.inr ⟨_, by unfold allocate; rw [if_neg (by simp [hc]), if_pos hn]⟩
  cases htake : takeFit n a.free with
  | none =>
    exact Or.inr ⟨_, by unfold allocate; rw [if_neg (by simp [hc]), if_neg hn, htake]⟩
  | some p =>
    obtain ⟨r, others⟩ := p
    obtain ⟨a', heq, hal, -⟩ := allocate_of_takeFit ha hc hn htake
    exact Or.inl ⟨_, a', heq, hal⟩

/-- Where there is room an allocation succeeds, and what was not asked for is left. -/
theorem allocate_room {a : Arena} (ha : a.Sound) (hc : a.collecting = false) {n : UInt64}
    (hn : n ≠ 0) {k : Nat} (hroom : a.Room (n.toNat + k)) :
    ∃ addr a', allocate n a = .ok addr a' ∧ a.Allocated n addr a' ∧ a'.Room k := by
  have hnpos := toNat_pos_iff.2 hn
  obtain ⟨big, hbig, hsize⟩ := hroom (by omega)
  obtain ⟨r, others, htake⟩ := takeFit_isSome hbig (n := n) (by omega)
  obtain ⟨hperm, hle⟩ := takeFit_eq_some htake
  obtain ⟨a', heq, hal, hfree⟩ := allocate_of_takeFit ha hc hn htake
  refine ⟨r.addr, a', heq, hal, ?_⟩
  intro hk
  -- Best fit takes the large region or leaves it alone; either way `k` words of it are left.
  rcases List.mem_cons.1 (hperm.mem_iff.1 hbig) with rfl | hbig
  · have hsub : (big.size - n).toNat = big.size.toNat - n.toNat :=
      UInt64.toNat_sub_of_le _ _ (UInt64.le_iff_toNat_le.2 hle)
    have h0 : big.size - n ≠ 0 := toNat_pos_iff.1 (by omega)
    exact ⟨_, hfree _ (Or.inr ⟨rfl, h0⟩), by dsimp only; omega⟩
  · exact ⟨big, hfree big (Or.inl hbig), by omega⟩

end Arena

end TreeMachine
