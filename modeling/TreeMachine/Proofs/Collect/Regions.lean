import TreeMachine.Proofs.Arena.Growth
import TreeMachine.Proofs.Outcome

/-! # Living regions and the rebuilt free list

  The living map is ordered by address and has each address once.  Ending a collection frees
  what lies between the living regions.  Main statement: afterwards a position is free
  exactly if no living region has it; and if the end is not reached, no position of a living
  region has become free.
-/

namespace TreeMachine

namespace Living

/-- The regions are ordered by address, each address once. -/
def Ordered (l : Living) : Prop := l.regions.Pairwise fun x y => x.addr < y.addr

theorem ordered_empty : empty.Ordered := List.Pairwise.nil

theorem insertRegion_perm (r : Region) (l : List Region) : (insertRegion r l).Perm (r :: l) := by
  induction l with
  | nil => exact List.Perm.refl _
  | cons x rest ih =>
    unfold insertRegion
    split
    · exact List.Perm.refl _
    · exact (ih.cons x).trans (List.Perm.swap r x rest)

theorem insertRegion_ordered {r : Region} {l : List Region}
    (hl : l.Pairwise fun x y => x.addr < y.addr) (hr : ∀ x ∈ l, x.addr ≠ r.addr) :
    (insertRegion r l).Pairwise fun x y => x.addr < y.addr := by
  induction l with
  | nil => exact List.pairwise_singleton _ _
  | cons x rest ih =>
    obtain ⟨hx, hrest⟩ := List.pairwise_cons.1 hl
    unfold insertRegion
    split
    · rename_i hlt
      refine List.pairwise_cons.2 ⟨?_, hl⟩
      intro y hy
      rcases List.mem_cons.1 hy with rfl | hy
      · exact hlt
      · exact UInt64.lt_trans hlt (hx y hy)
    · rename_i hge
      refine List.pairwise_cons.2 ⟨?_, ih hrest fun y hy => hr y (List.mem_cons_of_mem _ hy)⟩
      intro y hy
      rcases List.mem_cons.1 ((insertRegion_perm r rest).mem_iff.1 hy) with rfl | hy
      · have hne := hr x List.mem_cons_self
        rw [UInt64.lt_iff_toNat_lt] at hge ⊢
        rw [ne_eq, ← UInt64.toNat_inj] at hne
        omega
      · exact hx y hy

theorem size?_eq_some {l : Living} {addr : Addr} {size : UInt64} (h : l.size? addr = some size) :
    ⟨addr, size⟩ ∈ l.regions := by
  obtain ⟨r, hr, rfl⟩ := Option.map_eq_some_iff.1 h
  have haddr : r.addr = addr := by simpa using List.find?_some hr
  subst haddr
  exact List.mem_of_find?_eq_some hr

theorem size?_eq_none {l : Living} {addr : Addr} (h : l.size? addr = none) :
    ∀ x ∈ l.regions, x.addr ≠ addr := by
  rw [size?, Option.map_eq_none_iff, List.find?_eq_none] at h
  intro x hx
  simpa using h x hx

/-- What recording a region can do. -/
theorem found_cases (addr : Addr) (size : UInt64) (l : Living) :
    (found addr size l = .ok true l ∧ ⟨addr, size⟩ ∈ l.regions) ∨
      (found addr size l = .ok false ⟨insertRegion ⟨addr, size⟩ l.regions, l.words + size⟩ ∧
        ∀ x ∈ l.regions, x.addr ≠ addr) ∨
      ∃ before, found addr size l = .error (.broken (.livingSize addr before size)) l ∧
        ⟨addr, before⟩ ∈ l.regions ∧ before ≠ size := by
  unfold found
  cases hsize : l.size? addr with
  | none => exact Or.inr (Or.inl ⟨rfl, size?_eq_none hsize⟩)
  | some before =>
    by_cases heq : before = size
    · subst heq
      exact Or.inl ⟨if_pos rfl, size?_eq_some hsize⟩
    · exact Or.inr (Or.inr ⟨before, if_neg heq, size?_eq_some hsize, heq⟩)

end Living

namespace Arena

variable {a a' : Arena} {rs : List Region} {next : Addr}

/-- The regions start inside the arena and do not reach around its address space. -/
def Bounded (a : Arena) (rs : List Region) : Prop :=
  ∀ r ∈ rs, r.addr.toNat ≤ a.words.size ∧ r.addr.toNat + r.size.toNat < 2 ^ 64

/-- The free list has been filled up to `next`. -/
structure FilledTo (a : Arena) (next : Addr) : Prop where
  sound : a.Sound
  pos : 0 < next.toNat
  below : ∀ r ∈ a.free, r.addr.toNat + r.size.toNat ≤ next.toNat

theorem Sound.freeWords_release (ha : a.Sound) {r : Region} (hr : (a.release r).Sound) :
    (a.release r).freeWords.toNat = a.freeWords.toNat + r.size.toNat := by
  by_cases h0 : r.size = 0
  · rw [Arena.release, if_pos h0, h0, UInt64.toNat_zero, Nat.add_zero]
  · have hfree : (a.release r).free = insertRegion r a.free := by rw [Arena.release, if_neg h0]
    rw [hr.counted, ha.counted, hfree, ((insertRegion_perm r a.free).map (·.size.toNat)).sum_nat,
      List.map_cons, List.sum_cons, Nat.add_comm]

/-- Freeing the gap before a region. -/
theorem FilledTo.release (ha : a.FilledTo next) {addr : Addr} (hle : next.toNat ≤ addr.toNat)
    (hin : addr.toNat ≤ a.words.size) :
    (a.release ⟨next, addr - next⟩).FilledTo addr ∧
      (∀ i, (a.release ⟨next, addr - next⟩).Free i ↔
        a.Free i ∨ (next.toNat ≤ i ∧ i < addr.toNat)) ∧
      (a.release ⟨next, addr - next⟩).freeWords.toNat + next.toNat
        = a.freeWords.toNat + addr.toNat := by
  have hsize : (addr - next).toNat = addr.toNat - next.toNat :=
    UInt64.toNat_sub_of_le _ _ (UInt64.le_iff_toNat_le.2 hle)
  have hpos := ha.pos
  have hsound : (a.release ⟨next, addr - next⟩).Sound := by
    refine ha.sound.release (fun h0 => ⟨hpos, toNat_pos_iff.2 h0, ?_⟩) fun x hx => Or.inr ?_
    · dsimp only
      omega
    · exact ha.below x hx
  refine ⟨⟨hsound, by omega, ?_⟩, fun i => ?_, ?_⟩
  · intro r hr
    unfold Arena.release at hr
    split at hr
    · have := ha.below r hr
      omega
    · rcases mem_insertRegion.1 hr with rfl | hr
      · dsimp only
        omega
      · have := ha.below r hr
        omega
  · rw [free_release]
    simp only [Region.Has]
    rw [hsize, show next.toNat + (addr.toNat - next.toNat) = addr.toNat by omega]
  · rw [ha.sound.freeWords_release hsound]
    dsimp only
    omega

/-- What `freeGaps` has done when it reached the end of the regions. -/
structure Gaps (a : Arena) (rs : List Region) (next stop : Addr) (a' : Arena) : Prop where
  filled : a'.FilledTo stop
  words_eq : a'.words = a.words
  collecting_eq : a'.collecting = a.collecting
  le : next.toNat ≤ stop.toNat
  after : ∀ r ∈ rs, next.toNat ≤ r.addr.toNat
  before : ∀ r ∈ rs, r.addr.toNat + r.size.toNat ≤ stop.toNat
  apart : rs.Pairwise Region.Apart
  free_iff : ∀ i, a'.Free i ↔
    a.Free i ∨ (next.toNat ≤ i ∧ i < stop.toNat ∧ ∀ r ∈ rs, ¬ r.Has i)
  counted : a'.freeWords.toNat + (rs.map (·.size.toNat)).sum + next.toNat
    = a.freeWords.toNat + stop.toNat

theorem FilledTo.mono (ha : a.FilledTo next) {next' : Addr} (hle : next.toNat ≤ next'.toNat) :
    a.FilledTo next' :=
  ⟨ha.sound, Nat.lt_of_lt_of_le ha.pos hle, fun r hr => Nat.le_trans (ha.below r hr) hle⟩

/-- The gap before the first region, and the gaps behind it. -/
theorem Gaps.cons {a₁ : Arena} {r : Region} {stop : Addr} (hg : Gaps a₁ rs r.stop stop a')
    (hstop : r.stop.toNat = r.addr.toNat + r.size.toNat) (hle : next.toNat ≤ r.addr.toNat)
    (hlater : ∀ x ∈ rs, r.addr.toNat < x.addr.toNat)
    (hfree : ∀ i, a₁.Free i ↔ a.Free i ∨ (next.toNat ≤ i ∧ i < r.addr.toNat))
    (hwords : a₁.words = a.words) (hcoll : a₁.collecting = a.collecting)
    (hcount : a₁.freeWords.toNat + next.toNat = a.freeWords.toNat + r.addr.toNat) :
    Gaps a (r :: rs) next stop a' where
  filled := hg.filled
  words_eq := hg.words_eq.trans hwords
  collecting_eq := hg.collecting_eq.trans hcoll
  le := by have := hg.le; omega
  after x hx := by
    rcases List.mem_cons.1 hx with rfl | hx
    · exact hle
    · have := hlater x hx
      omega
  before x hx := by
    rcases List.mem_cons.1 hx with rfl | hx
    · have := hg.le
      omega
    · exact hg.before x hx
  apart := by
    refine List.pairwise_cons.2 ⟨fun x hx => Or.inl ?_, hg.apart⟩
    have := hg.after x hx
    omega
  free_iff i := by
    have hbound := hg.le
    rw [hg.free_iff, hfree, or_assoc]
    refine or_congr_right ?_
    rw [List.forall_mem_cons]
    constructor
    · rintro (⟨hge, hlt⟩ | ⟨hge, hlt, hnot⟩)
      · refine ⟨hge, by omega, fun hhas => ?_, fun x hx hhas => ?_⟩
        · have := hhas.1
          omega
        · have := hhas.1
          have := hlater x hx
          omega
      · exact ⟨by omega, hlt, fun hhas => by have := hhas.2; omega, hnot⟩
    · rintro ⟨hge, hlt, hr, hnot⟩
      by_cases hi : i < r.addr.toNat
      · exact Or.inl ⟨hge, hi⟩
      · refine Or.inr ⟨?_, hlt, hnot⟩
        by_contra hlt'
        exact hr ⟨by omega, by omega⟩
  counted := by
    have := hg.counted
    rw [List.map_cons, List.sum_cons]
    omega

/-- Walking over the regions frees the gaps between them and nothing else, also where it
    stops at an overlap. -/
theorem freeGaps_yields (ha : a.FilledTo next)
    (hord : rs.Pairwise fun x y => x.addr < y.addr) (hb : a.Bounded rs) :
    Yields (freeGaps rs next) a (fun stop a' => Gaps a rs next stop a')
      (fun f a' => (∃ v, f = .broken v) ∧ a'.Sound ∧ a'.words = a.words ∧
        a'.collecting = a.collecting ∧
        ∀ i, a'.Free i → a.Free i ∨ (next.toNat ≤ i ∧ ∀ r ∈ rs, ¬ r.Has i)) := by
  induction rs generalizing next a with
  | nil =>
    refine ⟨ha, rfl, rfl, Nat.le_refl _, by simp, by simp, .nil, ?_, rfl⟩
    intro i
    constructor
    · exact Or.inl
    · rintro (h | ⟨hle, hlt, -⟩)
      · exact h
      · omega
  | cons r rest ih =>
    obtain ⟨hr, hrest⟩ := List.pairwise_cons.1 hord
    obtain ⟨hin, hwrap⟩ := hb r List.mem_cons_self
    by_cases hover : r.addr < next
    · exact Yields.of_error (if_pos hover)
        ⟨⟨_, rfl⟩, ha.sound, rfl, rfl, fun i hi => Or.inl hi⟩
    · have hle : next.toNat ≤ r.addr.toNat := by
        rw [UInt64.lt_iff_toNat_lt] at hover
        omega
      have hstop : r.stop.toNat = r.addr.toNat + r.size.toNat := by
        rw [Region.stop, UInt64.toNat_add]
        omega
      obtain ⟨hfill, hfree, hcount⟩ := ha.release hle hin
      have hwords := release_words ⟨next, r.addr - next⟩ a
      have hcoll := release_collecting ⟨next, r.addr - next⟩ a
      have hlater : ∀ x ∈ rest, r.addr.toNat < x.addr.toNat := fun x hx =>
        UInt64.lt_iff_toNat_lt.1 (hr x hx)
      refine Yields.congr (if_neg hover) ((ih (hfill.mono (by omega)) hrest ?_).mono ?_ ?_)
      · intro x hx
        rw [hwords]
        exact hb x (List.mem_cons_of_mem _ hx)
      · intro stop a' hg
        exact hg.cons hstop hle hlater hfree hwords hcoll hcount
      · rintro f a' ⟨hv, hsound, hw, hc, hf⟩
        refine ⟨hv, hsound, hw.trans hwords, hc.trans hcoll, fun i hi => ?_⟩
        rcases hf i hi with hi | ⟨hi, hnot⟩
        · rcases (hfree i).1 hi with hi | ⟨hge, hlt⟩
          · exact Or.inl hi
          · refine Or.inr ⟨hge, fun x hx hhas => ?_⟩
            have := hhas.1
            rcases List.mem_cons.1 hx with rfl | hx
            · omega
            · have := hlater x hx
              omega
        · refine Or.inr ⟨by omega, fun x hx => ?_⟩
          rcases List.mem_cons.1 hx with rfl | hx
          · exact fun hhas => by have := hhas.2; omega
          · exact hnot x hx

/-- What a complete collection of the living regions `rs` has made of the arena. -/
structure Swept (a : Arena) (rs : List Region) (a' : Arena) : Prop where
  sound : a'.Sound
  words_eq : a'.words = a.words
  not_collecting : a'.collecting = false
  inside : ∀ r ∈ rs, 0 < r.addr.toNat ∧ r.addr.toNat + r.size.toNat ≤ a.words.size
  apart : rs.Pairwise Region.Apart
  free_iff : ∀ i, a'.Free i ↔ 0 < i ∧ i < a.words.size ∧ ∀ r ∈ rs, ¬ r.Has i
  counted : a'.freeWords.toNat + (rs.map (·.size.toNat)).sum + 1 = a.words.size

theorem not_free_nil (i : Nat) : ¬ ({ a with free := [], freeWords := 0 } : Arena).Free i := by
  rintro ⟨r, hr, -⟩
  cases hr

/-- The gaps from word one on, with the words behind the last region. -/
theorem Gaps.swept {next : Addr} (hg : Gaps { a with free := [], freeWords := 0 } rs 1 next a')
    (hle : next.toNat ≤ a'.limit.toNat) (hlimit : a'.limit.toNat = a.words.size) :
    Swept a rs { a'.release ⟨next, a'.limit - next⟩ with collecting := false } := by
  have hwords : a'.words.size = a.words.size := by rw [hg.words_eq]
  obtain ⟨hfill, hfree, hcount⟩ := hg.filled.release hle (by omega)
  have hone : (1 : UInt64).toNat = 1 := rfl
  have hsum := hg.counted
  have hpos := hg.le
  dsimp only at hsum
  rw [UInt64.toNat_zero] at hsum
  refine ⟨⟨hfill.sound.sized, hfill.sound.inside, hfill.sound.apart, hfill.sound.counted⟩,
    (release_words _ _).trans hg.words_eq, rfl, fun r hr => ?_, hg.apart, fun i => ?_, ?_⟩
  · have := hg.after r hr
    have := hg.before r hr
    omega
  · refine (hfree i).trans ?_
    rw [hg.free_iff, hlimit, hone]
    constructor
    · rintro ((h | ⟨hge, hlt, hnot⟩) | ⟨hge, hlt⟩)
      · exact absurd h (not_free_nil i)
      · exact ⟨hge, by omega, hnot⟩
      · refine ⟨by omega, hlt, fun r hr hhas => ?_⟩
        have := hg.before r hr
        have := hhas.2
        omega
    · rintro ⟨hge, hlt, hnot⟩
      by_cases hi : i < next.toNat
      · exact Or.inl (Or.inr ⟨hge, hi, hnot⟩)
      · exact Or.inr ⟨by omega, hlt⟩
  · dsimp only
    omega

/-- Ending a collection frees the complement of the living regions; where it stops, none of
    their words is free. -/
theorem endCollection_yields {l : Living} (hs : a.Sized) (hc : a.collecting = true)
    (hord : l.Ordered) (hb : a.Bounded l.regions) :
    Yields (endCollection l) a (fun _ a' => Swept a l.regions a')
      (fun f a' => (∃ v, f = .broken v) ∧ a'.Sound ∧ a'.words = a.words ∧
        a'.collecting = true ∧ ∀ r ∈ l.regions, ∀ i, r.Has i → ¬ a'.Free i) := by
  have hempty : ({ a with free := [], freeWords := 0 } : Arena).FilledTo 1 :=
    ⟨⟨hs, by simp, .nil, rfl⟩, by decide, by simp⟩
  have hgaps := freeGaps_yields hempty hord hb
  cases hrun : freeGaps l.regions 1 { a with free := [], freeWords := 0 } with
  | ok next a₁ =>
    have hg := hgaps.ok hrun
    have hlimit : a₁.limit.toNat = a.words.size := by
      rw [limit_toNat hg.filled.sound.sized, hg.words_eq]
    by_cases hpast : a₁.limit < next
    · have hend : endCollection l a = .error (.broken (.livingPastEnd next)) a₁ := by
        rw [endCollection, if_pos hc, hrun]
        exact if_pos hpast
      refine Yields.of_error hend
        ⟨⟨_, rfl⟩, hg.filled.sound, hg.words_eq, hg.collecting_eq.trans hc, ?_⟩
      intro r hr i hi hfree
      rcases (hg.free_iff i).1 hfree with h | ⟨-, -, hnot⟩
      · exact not_free_nil i h
      · exact hnot r hr hi
    · have hend : endCollection l a = .ok ()
          { a₁.release ⟨next, a₁.limit - next⟩ with collecting := false } := by
        rw [endCollection, if_pos hc, hrun]
        exact if_neg hpast
      refine Yields.of_ok hend (hg.swept ?_ hlimit)
      rw [UInt64.lt_iff_toNat_lt] at hpast
      omega
  | error f a₁ =>
    have hend : endCollection l a = .error f a₁ := by
      rw [endCollection, if_pos hc, hrun]
    obtain ⟨hv, hsound, hwords, hcoll, hfree⟩ := hgaps.error hrun
    refine Yields.of_error hend ⟨hv, hsound, hwords, hcoll.trans hc, fun r hr i hi hf => ?_⟩
    rcases hfree i hf with h | ⟨-, hnot⟩
    · exact not_free_nil i h
    · exact hnot r hr hi

end Arena

end TreeMachine
