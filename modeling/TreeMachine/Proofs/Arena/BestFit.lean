import TreeMachine.Proofs.Arena.Ledger
import TreeMachine.Proofs.Types.History

/-! # Best fit

  The free list is kept in order through every split and every rebuild, so its first region
  that is large enough is the smallest such region, and the lowest of that size.  This does
  not need free regions that lie apart: it holds as well where a collection was given a
  living region that reaches around the address space.  Main statement: in every state of an
  arena, allocation takes the front of the best region, clears it, and leaves the rest.
-/

namespace TreeMachine

namespace Region

/-- `x` may stand in front of `y` in the free list. -/
def NotAfter (x y : Region) : Prop := ¬ y.before x = true

theorem notAfter_iff {x y : Region} : x.NotAfter y ↔
    x.size.toNat < y.size.toNat ∨ x.size.toNat = y.size.toNat ∧ x.addr.toNat ≤ y.addr.toNat := by
  rw [NotAfter, before_iff]
  omega

theorem NotAfter.trans {x y z : Region} (hxy : x.NotAfter y) (hyz : y.NotAfter z) :
    x.NotAfter z := by
  rw [notAfter_iff] at hxy hyz ⊢
  omega

theorem notAfter_of_before {x y : Region} (h : x.before y = true) : x.NotAfter y := by
  rw [before_iff] at h
  rw [notAfter_iff]
  omega

/-- What is left of a region without its first `n` words, unless that is nothing. -/
def tail (r : Region) (n : UInt64) : List Region :=
  if r.size = n then [] else [⟨r.addr + n, r.size - n⟩]

end Region

namespace Arena

variable {a a' : Arena} {n : UInt64} {r : Region} {l : List Region}

/-! ### A free list in order -/

/-- The free list of an arena: in order, and inside the arena. -/
structure Listed (a : Arena) : Prop where
  ordered : a.free.Pairwise Region.NotAfter
  sized : ∀ r ∈ a.free, r.size ≠ 0
  inside : ∀ r ∈ a.free, r.addr.toNat + r.size.toNat ≤ a.words.size
  /-- The count of free words wraps as any sum of words does. -/
  counted : a.freeWords.toNat = (a.free.map (·.size.toNat)).sum % 2 ^ 64

theorem insertRegion_ordered (hl : l.Pairwise Region.NotAfter) (r : Region) :
    (insertRegion r l).Pairwise Region.NotAfter := by
  induction l with
  | nil => exact List.pairwise_singleton _ _
  | cons x rest ih =>
    obtain ⟨hx, hrest⟩ := List.pairwise_cons.1 hl
    unfold insertRegion
    split
    · rename_i hlt
      apply List.pairwise_cons.2
      constructor
      · intro y hy
        rcases mem_insertRegion.1 hy with rfl | hy
        · exact Region.notAfter_of_before hlt
        · exact hx y hy
      · exact ih hrest
    · rename_i hnot
      apply List.pairwise_cons.2
      constructor
      · intro y hy
        rcases List.mem_cons.1 hy with rfl | hy
        · exact hnot
        · exact Region.NotAfter.trans hnot (hx y hy)
      · exact hl

/-- Freeing a region inside the arena. -/
theorem Listed.release (h : a.Listed) (hr : r.addr.toNat + r.size.toNat ≤ a.words.size) :
    (a.release r).Listed := by
  unfold Arena.release
  split
  · exact h
  · rename_i h0
    have hperm := insertRegion_perm r a.free
    have hmem : ∀ {P : Region → Prop}, P r → (∀ x ∈ a.free, P x) →
        ∀ x ∈ insertRegion r a.free, P x := by
      intro P hP hfree x hx
      rcases mem_insertRegion.1 hx with rfl | hx
      · exact hP
      · exact hfree x hx
    refine ⟨insertRegion_ordered h.ordered r, hmem h0 h.sized, hmem hr h.inside, ?_⟩
    have hcount := h.counted
    dsimp only
    rw [(hperm.map (·.size.toNat)).sum_nat, List.map_cons, List.sum_cons, UInt64.toNat_add]
    omega

/-- Taking a region out of the free list. -/
theorem Listed.take (h : a.Listed) {others : List Region} (hsub : others.Sublist a.free)
    (hperm : a.free.Perm (r :: others)) :
    ({ a with free := others, freeWords := a.freeWords - r.size } : Arena).Listed := by
  have hcount := h.counted
  rw [(hperm.map (·.size.toNat)).sum_nat, List.map_cons, List.sum_cons] at hcount
  refine ⟨h.ordered.sublist hsub, ?_, ?_, ?_⟩
  · intro x hx
    exact h.sized x (hsub.subset hx)
  · intro x hx
    exact h.inside x (hsub.subset hx)
  · have hlt := r.size.toNat_lt
    dsimp only
    rw [UInt64.toNat_sub]
    omega

/-! ### The search -/

/-- `r` is the lowest of the smallest regions of a list that have `n` words. -/
structure BestFit (n : UInt64) (l : List Region) (r : Region) : Prop where
  mem : r ∈ l
  fits : n ≤ r.size
  least : ∀ x ∈ l, n ≤ x.size → r.size < x.size ∨ r.size = x.size ∧ r.addr ≤ x.addr

theorem takeFit_eq_none (h : takeFit n l = none) : ∀ x ∈ l, x.size < n := by
  intro x hx
  by_contra hnot
  rw [UInt64.lt_iff_toNat_lt] at hnot
  obtain ⟨r, others, hsome⟩ := takeFit_isSome (n := n) hx (by omega)
  rw [hsome] at h
  cases h

/-- In an ordered list the first region that is large enough is the best one. -/
theorem takeFit_bestFit (hl : l.Pairwise Region.NotAfter) {others : List Region}
    (h : takeFit n l = some (r, others)) : BestFit n l r ∧ others = l.erase r := by
  induction l generalizing others with
  | nil => cases h
  | cons x rest ih =>
    obtain ⟨hx, hrest⟩ := List.pairwise_cons.1 hl
    unfold takeFit at h
    split at h
    · rename_i hfits
      cases h
      refine ⟨⟨List.mem_cons_self, hfits, ?_⟩, (List.erase_cons_head _ _).symm⟩
      intro y hy _
      have hnot : r.NotAfter y := by
        rcases List.mem_cons.1 hy with rfl | hy
        · rw [Region.notAfter_iff]
          omega
        · exact hx y hy
      rw [Region.notAfter_iff] at hnot
      rw [UInt64.lt_iff_toNat_lt, UInt64.le_iff_toNat_le, ← UInt64.toNat_inj]
      exact hnot
    · rename_i hsmall
      obtain ⟨⟨r', others'⟩, htake, heq⟩ := Option.map_eq_some_iff.1 h
      cases heq
      obtain ⟨⟨hmem, hfits, hleast⟩, herase⟩ := ih hrest htake
      have hne : x ≠ r := by
        rintro rfl
        exact hsmall hfits
      refine ⟨⟨List.mem_cons_of_mem _ hmem, hfits, ?_⟩, ?_⟩
      · intro y hy hy'
        rcases List.mem_cons.1 hy with rfl | hy
        · exact absurd hy' hsmall
        · exact hleast y hy hy'
      · rw [List.erase_cons_tail (by simpa using hne), herase]

/-! ### Halving

  A list in order can be searched by halving it.  The place found is the one that a scan from
  the front finds, both for a request, which probes for its size at address zero, and for a
  region that becomes free. -/

/-- Halves the places from `i` up to `j` until those in front of the result are `less`. -/
def bisect (less : Region → Bool) (l : List Region) (i j : Nat) : Nat :=
  if i < j then
    if l[(i + j) / 2]?.any less then bisect less l ((i + j) / 2 + 1) j
    else bisect less l i ((i + j) / 2)
  else i
termination_by j - i

/-- Halving ends at the first region that is not `less`, where `less` regions come first. -/
theorem bisect_eq_findIdx {less : Region → Bool}
    (hl : l.Pairwise fun x y => less y = true → less x = true) {i j : Nat}
    (hi : i ≤ l.findIdx fun x => !less x) (hj : (l.findIdx fun x => !less x) ≤ j)
    (hlen : j ≤ l.length) : bisect less l i j = l.findIdx fun x => !less x := by
  -- The result stays between the bounds.
  fun_induction bisect less l i j with
  | case1 i j hlt hless ih =>
    refine ih ?_ hj hlen
    by_contra hge
    have hmid : (i + j) / 2 < l.length := by omega
    have hfirst : (l.findIdx fun x => !less x) < l.length := by omega
    have hnot : less l[l.findIdx fun x => !less x] = false := by
      simpa using List.findIdx_getElem (w := hfirst)
    rw [List.getElem?_eq_getElem hmid, Option.any_some] at hless
    rcases Nat.lt_or_eq_of_le (show (l.findIdx fun x => !less x) ≤ (i + j) / 2 by omega) with
      hlt' | heq
    · have hmono := List.pairwise_iff_getElem.1 hl _ _ hfirst hmid hlt' hless
      rw [hnot] at hmono
      cases hmono
    · simp only [heq] at hnot
      rw [hnot] at hless
      cases hless
  | case2 i j hlt hless ih =>
    refine ih hi ?_ (by omega)
    by_contra hge
    have hmid : (i + j) / 2 < l.length := by omega
    have hfront :=
      List.not_of_lt_findIdx (show (i + j) / 2 < l.findIdx (fun x => !less x) by omega)
    rw [List.getElem?_eq_getElem hmid, Option.any_some] at hless
    simp [hless] at hfront
  | case3 i j hge => omega

theorem takeFit_eq_findIdx (n : UInt64) (l : List Region) :
    takeFit n l = (l[l.findIdx fun x => decide (n ≤ x.size)]?).map fun r =>
      (r, l.eraseIdx (l.findIdx fun x => decide (n ≤ x.size))) := by
  induction l with
  | nil => rfl
  | cons x rest ih =>
    by_cases hfits : n ≤ x.size
    · simp [takeFit, hfits, List.findIdx_cons]
    · rw [takeFit, if_neg hfits, ih]
      simp [hfits, List.findIdx_cons, Option.map_map, Function.comp_def]

theorem insertRegion_eq_insertIdx (r : Region) (l : List Region) :
    insertRegion r l = l.insertIdx (l.findIdx fun x => !x.before r) r := by
  induction l with
  | nil => rfl
  | cons x rest ih =>
    by_cases hlt : x.before r = true
    · simp [insertRegion, hlt, ih, List.findIdx_cons]
    · simp [insertRegion, hlt, List.findIdx_cons]

/-- What comes before a region comes first in an ordered list. -/
theorem before_first (hl : l.Pairwise Region.NotAfter) (r : Region) :
    l.Pairwise fun x y => y.before r = true → x.before r = true := by
  refine hl.imp ?_
  intro x y hxy hy
  rw [Region.notAfter_iff] at hxy
  rw [Region.before_iff] at hy ⊢
  omega

/-- Halving a list in order for `n` words at address zero finds the region that a request is
    served from. -/
theorem takeFit_eq_bisect (hl : l.Pairwise Region.NotAfter) (n : UInt64) :
    takeFit n l = (l[bisect (·.before ⟨0, n⟩) l 0 l.length]?).map fun r =>
      (r, l.eraseIdx (bisect (·.before ⟨0, n⟩) l 0 l.length)) := by
  have hprobe : (fun x : Region => !x.before ⟨0, n⟩) = fun x => decide (n ≤ x.size) := by
    funext x
    rw [Bool.eq_iff_iff]
    simp [Region.before, UInt64.not_lt]
  rw [takeFit_eq_findIdx, bisect_eq_findIdx (before_first hl _) (Nat.zero_le _)
    List.findIdx_le_length (Nat.le_refl _), hprobe]

/-- Halving a list in order for a region finds the place where it is put. -/
theorem insertRegion_eq_bisect (hl : l.Pairwise Region.NotAfter) (r : Region) :
    insertRegion r l = l.insertIdx (bisect (·.before r) l 0 l.length) r := by
  rw [insertRegion_eq_insertIdx, bisect_eq_findIdx (before_first hl _) (Nat.zero_le _)
    List.findIdx_le_length (Nat.le_refl _)]

/-! ### One allocation -/

/-- The first `n` words of the free region `r` have been taken out of `a`, which gives `a'`. -/
structure Served (a : Arena) (n : UInt64) (r : Region) (a' : Arena) : Prop where
  /-- The region has given way to its tail, and the others are as they were. -/
  free_perm : a'.free.Perm (r.tail n ++ a.free.erase r)
  freeWords_eq : a'.freeWords = a.freeWords - n
  /-- As long as the free words can be counted, there are `n` fewer of them. -/
  fewer : (a.free.map (·.size.toNat)).sum < 2 ^ 64 →
    a'.freeWords.toNat + n.toNat = a.freeWords.toNat
  /-- The words taken are in the arena; they are cleared, and no other word changes. -/
  inside : r.addr.toNat + n.toNat ≤ a.words.size
  size_eq : a'.words.size = a.words.size
  words_eq : ∀ i, a'.words[i]? = if r.addr.toNat ≤ i ∧ i < r.addr.toNat + n.toNat then some 0
    else a.words[i]?
  collecting_eq : a'.collecting = a.collecting

theorem release_tail (hle : n ≤ r.size) :
    (a.release ⟨r.addr + n, r.size - n⟩).free.Perm (r.tail n ++ a.free) := by
  have hsub := UInt64.toNat_sub_of_le _ _ hle
  rw [UInt64.le_iff_toNat_le] at hle
  unfold release Region.tail
  by_cases heq : r.size = n
  · have h0 : r.size - n = 0 := by
      rw [← UInt64.toNat_inj, hsub, heq, UInt64.toNat_zero]
      omega
    rw [if_pos h0, if_pos heq]
    exact List.Perm.refl _
  · have h0 : r.size - n ≠ 0 := by
      intro h0
      rw [← UInt64.toNat_inj, hsub, UInt64.toNat_zero] at h0
      apply heq
      rw [← UInt64.toNat_inj]
      omega
    rw [if_neg h0, if_neg heq]
    exact insertRegion_perm _ _

theorem release_freeWords (r : Region) (a : Arena) :
    (a.release r).freeWords = a.freeWords + r.size := by
  unfold release
  split
  · rename_i h0
    simp [h0]
  · rfl

/-- An arena whose free list is in order serves a request from the best region. -/
theorem Listed.allocate (h : a.Listed) (hs : a.Sized) (hc : a.collecting = false) (hn : n ≠ 0) :
    (∀ x ∈ a.free, x.size < n) ∧
        allocate n a = .error (.broken (.outOfMemory n a.freeWords)) a ∨
      ∃ r a', BestFit n a.free r ∧ allocate n a = .ok r.addr a' ∧ Served a n r a' ∧
        a'.Listed := by
  cases htake : takeFit n a.free with
  | none =>
    left
    refine ⟨takeFit_eq_none htake, ?_⟩
    rw [Arena.allocate, if_neg (by simp [hc]), if_neg hn, htake]
  | some p =>
    right
    obtain ⟨r, others⟩ := p
    obtain ⟨hbest, rfl⟩ := takeFit_bestFit h.ordered htake
    have hperm := (takeFit_eq_some htake).1
    have hin := h.inside r hbest.mem
    have hle := UInt64.le_iff_toNat_le.1 hbest.fits
    have hadd : (r.addr + n).toNat = r.addr.toNat + n.toNat := toNat_add_of_le hs (by omega)
    have hsub : (r.size - n).toNat = r.size.toNat - n.toNat :=
      UInt64.toNat_sub_of_le _ _ hbest.fits
    set taken : Arena := { a with free := a.free.erase r, freeWords := a.freeWords - r.size }
    set left : Arena := taken.release ⟨r.addr + n, r.size - n⟩ with hleft
    have hwords : left.words = a.words := release_words _ taken
    have hlisted : left.Listed := by
      apply (h.take (takeFit_sublist htake) hperm).release
      dsimp only [taken]
      omega
    have hcond : r.addr ≤ r.addr + n ∧ r.addr + n ≤ left.limit := by
      rw [limit, hwords]
      have hlimit := limit_toNat hs
      rw [limit] at hlimit
      rw [UInt64.le_iff_toNat_le, UInt64.le_iff_toNat_le, hlimit]
      omega
    have hcount : left.freeWords = a.freeWords - n := by
      rw [hleft, release_freeWords, ← UInt64.toNat_inj]
      have hlt := r.size.toNat_lt
      have hlt' := a.freeWords.toNat_lt
      dsimp only [taken]
      rw [UInt64.toNat_add, hsub, UInt64.toNat_sub, UInt64.toNat_sub]
      omega
    refine ⟨r, { left with words := clearFrom left.words r.addr.toNat n.toNat }, hbest, ?_, ?_, ?_⟩
    · rw [Arena.allocate, if_neg (by simp [hc]), if_neg hn, htake]
      exact if_pos hcond
    · refine ⟨release_tail hbest.fits, hcount, ?_, by omega, ?_, ?_, release_collecting _ taken⟩
      · intro hfew
        have hsum := h.counted
        rw [Nat.mod_eq_of_lt hfew, (hperm.map (·.size.toNat)).sum_nat, List.map_cons,
          List.sum_cons] at hsum
        dsimp only
        rw [hcount, UInt64.toNat_sub_of_le _ _ (by rw [UInt64.le_iff_toNat_le]; omega)]
        omega
      · rw [size_clearFrom, hwords]
      · intro i
        rw [hwords]
        exact getElem?_clearFrom _ _ _ _ (by omega)
    · refine ⟨hlisted.ordered, hlisted.sized, ?_, hlisted.counted⟩
      intro x hx
      rw [size_clearFrom]
      exact hlisted.inside x hx

/-! ### The end of a collection -/

/-- A living map as a collection finds it: ordered by address, and without a region that
    both starts past the arena and reaches around the address space. -/
structure Maps (a : Arena) (living : Living) : Prop where
  ordered : living.Ordered
  starts : ∀ r ∈ living.regions,
    r.addr.toNat ≤ a.words.size ∨ r.addr.toNat + r.size.toNat < 2 ^ 64

/-- Freeing gaps changes nothing but the free list. -/
theorem freeGaps_frame (rs : List Region) (next : Addr) (a : Arena) :
    Yields (freeGaps rs next) a
      (fun _ a' => a'.words = a.words ∧ a'.collecting = a.collecting)
      (fun _ a' => a'.words = a.words ∧ a'.collecting = a.collecting) := by
  induction rs generalizing next a with
  | nil => exact Yields.of_ok rfl ⟨rfl, rfl⟩
  | cons r rest ih =>
    by_cases hover : r.addr < next
    · exact Yields.of_error (if_pos hover) ⟨rfl, rfl⟩
    · have heq : freeGaps (r :: rest) next a
          = freeGaps rest r.stop (a.release ⟨next, r.addr - next⟩) := if_neg hover
      have hrest := ih r.stop (a.release ⟨next, r.addr - next⟩)
      rw [release_words, release_collecting] at hrest
      unfold Yields at hrest ⊢
      rw [heq]
      exact hrest

/-- If the last gap starts inside the arena, then so does every region. -/
theorem starts_of_freeGaps {rs : List Region} {next stop : Addr}
    (hord : rs.Pairwise fun x y => x.addr < y.addr) {size : Nat}
    (hstarts : ∀ r ∈ rs, r.addr.toNat ≤ size ∨ r.addr.toNat + r.size.toNat < 2 ^ 64)
    (h : freeGaps rs next a = .ok stop a') (hstop : stop.toNat ≤ size) :
    ∀ r ∈ rs, r.addr.toNat ≤ size := by
  induction rs generalizing next a with
  | nil => simp
  | cons r rest ih =>
    obtain ⟨hr, hrest⟩ := List.pairwise_cons.1 hord
    obtain ⟨hstart, hstarts⟩ := List.forall_mem_cons.1 hstarts
    rw [freeGaps] at h
    split at h
    · cases h
    · have hlater := ih hrest hstarts h
      refine List.forall_mem_cons.2 ⟨?_, hlater⟩
      cases rest with
      | nil =>
        -- The last gap starts where the last region stops.
        cases h
        rcases hstart with hstart | hstart
        · exact hstart
        · rw [Region.stop, UInt64.toNat_add] at hstop
          omega
      | cons y others =>
        have hlt := UInt64.lt_iff_toNat_lt.1 (hr y List.mem_cons_self)
        have hy := hlater y List.mem_cons_self
        omega

/-- Gaps in front of regions that start inside the arena lie inside it. -/
theorem Listed.freeGaps (h : a.Listed) {rs : List Region} {next stop : Addr}
    (hin : ∀ r ∈ rs, r.addr.toNat ≤ a.words.size)
    (hgaps : freeGaps rs next a = .ok stop a') : a'.Listed := by
  induction rs generalizing next a with
  | nil =>
    cases hgaps
    exact h
  | cons r rest ih =>
    obtain ⟨hr, hrest⟩ := List.forall_mem_cons.1 hin
    rw [Arena.freeGaps] at hgaps
    split at hgaps
    · cases hgaps
    · rename_i hover
      rw [UInt64.lt_iff_toNat_lt] at hover
      have hsub : (r.addr - next).toNat = r.addr.toNat - next.toNat :=
        UInt64.toNat_sub_of_le _ _ (by rw [UInt64.le_iff_toNat_le]; omega)
      refine ih (h.release ?_) ?_ hgaps
      · dsimp only
        omega
      · rw [release_words]
        exact hrest

/-- A collection that comes to its end leaves a free list in order. -/
theorem endCollection_listed {l : Living} (hs : a.Sized) (hl : a.Maps l)
    (h : endCollection l a = .ok () a') : a'.words = a.words ∧ a'.Listed := by
  unfold endCollection at h
  split at h
  · cases hgaps : freeGaps l.regions 1 { a with free := [], freeWords := 0 } with
    | error f a₁ => simp [hgaps] at h
    | ok stop a₁ =>
      have hwords := ((freeGaps_frame l.regions 1 { a with free := [], freeWords := 0 }).ok hgaps).1
      have hlimit : a₁.limit.toNat = a.words.size := by
        rw [limit, hwords]
        exact limit_toNat hs
      simp only [hgaps] at h
      split at h
      · cases h
      · rename_i hpast
        cases h
        rw [UInt64.lt_iff_toNat_lt, hlimit] at hpast
        have hin := starts_of_freeGaps hl.ordered hl.starts hgaps (by omega)
        have hempty : ({ a with free := [], freeWords := 0 } : Arena).Listed :=
          ⟨.nil, by simp, by simp, rfl⟩
        have hlisted : (a₁.release ⟨stop, a₁.limit - stop⟩).Listed := by
          refine (hempty.freeGaps hin hgaps).release ?_
          have hsub : (a₁.limit - stop).toNat = a₁.limit.toNat - stop.toNat :=
            UInt64.toNat_sub_of_le _ _ (by rw [UInt64.le_iff_toNat_le]; omega)
          rw [hwords, hsub]
          dsimp only
          omega
        refine ⟨?_, hlisted.ordered, hlisted.sized, hlisted.inside, hlisted.counted⟩
        rw [release_words, hwords]
  · cases h

/-- A collection that does not come to its end goes on running. -/
theorem endCollection_error {l : Living} {f : Fault} (h : endCollection l a = .error f a') :
    a'.words = a.words ∧ a'.collecting = a.collecting ∧
      (a.collecting = false → a' = a) := by
  unfold endCollection at h
  split at h
  · rename_i hc
    have hframe := freeGaps_frame l.regions 1 { a with free := [], freeWords := 0 }
    cases hgaps : freeGaps l.regions 1 { a with free := [], freeWords := 0 } with
    | error f a₁ =>
      simp only [hgaps] at h
      cases h
      obtain ⟨hwords, hcoll⟩ := hframe.error hgaps
      exact ⟨hwords, hcoll, fun hc' => by simp [hc'] at hc⟩
    | ok stop a₁ =>
      simp only [hgaps] at h
      split at h
      · cases h
        obtain ⟨hwords, hcoll⟩ := hframe.ok hgaps
        exact ⟨hwords, hcoll, fun hc' => by simp [hc'] at hc⟩
      · cases h
  · cases h
    exact ⟨rfl, rfl, fun _ => rfl⟩

/-! ### Every state of an arena -/

/-- One call on an arena, also in vain. -/
inductive Move : Arena → Arena → Prop where
  | allocate {a : Arena} (n : UInt64) : Move a (stateAfter (allocate n a))
  /-- Words are written one by one, or as slices of the arena. -/
  | write {a : Arena} (ws : Array UInt64) (hsize : ws.size = a.words.size) :
      Move a { a with words := ws }
  | restore {a : Arena} (ws : Array UInt64) : Move a (stateAfter (restore ws a))
  | beginCollection {a : Arena} : Move a (stateAfter (beginCollection a))
  | endCollection {a : Arena} (l : Living) (hl : a.Maps l) :
      Move a (stateAfter (endCollection l a))

/-- Any number of calls. -/
abbrev Moves : Arena → Arena → Prop := Relation.ReflTransGen Move

/-- What holds of an arena at any time: unless a collection is running, its free list is in
    order. -/
structure Kept (a : Arena) : Prop where
  sized : a.Sized
  listed : a.collecting = false → a.Listed

namespace Kept

theorem create {capacity : UInt64} (hroom : capacity + 1 ≠ 0)
    (h : Arena.create capacity = .ok a) : a.Kept := by
  have hsound := create_sound hroom h
  refine ⟨hsound.sized, ?_⟩
  intro _
  refine ⟨?_, ?_, ?_, ?_⟩
  · unfold Arena.create at h
    split at h
    · cases h
    split at h
    · cases h
    cases h
    exact List.pairwise_singleton _ _
  · intro r hr
    exact toNat_pos_iff.1 (hsound.inside r hr).size_pos
  · intro r hr
    exact (hsound.inside r hr).stop_le
  · rw [hsound.counted, Nat.mod_eq_of_lt]
    rw [← hsound.counted]
    exact a.freeWords.toNat_lt

theorem of_words (h : a.Kept) {ws : Array UInt64} (hsize : ws.size = a.words.size) :
    ({ a with words := ws } : Arena).Kept := by
  constructor
  · rw [Sized, hsize]
    exact h.sized
  · intro hc
    obtain ⟨hord, hpos, hin, hcount⟩ := h.listed hc
    exact ⟨hord, hpos, by rw [hsize]; exact hin, hcount⟩

theorem allocate (h : a.Kept) (n : UInt64) : (stateAfter (Arena.allocate n a)).Kept := by
  by_cases hc : a.collecting = true
  · rw [Arena.allocate, if_pos hc]
    exact h
  have hc : a.collecting = false := by simpa using hc
  by_cases hn : n = 0
  · rw [Arena.allocate, if_neg (by simp [hc]), if_pos hn]
    exact h
  rcases (h.listed hc).allocate h.sized hc hn with ⟨-, heq⟩ | ⟨r, a', -, heq, hserved, hlisted⟩
  · rw [heq]
    exact h
  · rw [heq]
    refine ⟨?_, fun _ => hlisted⟩
    rw [stateAfter, Sized, hserved.size_eq]
    exact h.sized

theorem restore (h : a.Kept) (ws : Array UInt64) : (stateAfter (Arena.restore ws a)).Kept := by
  by_cases hsize : ws.size = a.words.size
  · rw [Arena.restore, if_pos hsize]
    have hempty : ({ a with words := ws, free := [], freeWords := 0 } : Arena).Listed :=
      ⟨.nil, by simp, by simp, rfl⟩
    refine ⟨?_, fun _ => hempty⟩
    rw [stateAfter, Sized, hsize]
    exact h.sized
  · rw [Arena.restore, if_neg hsize]
    exact h

theorem beginCollection (h : a.Kept) : (stateAfter (Arena.beginCollection a)).Kept := by
  by_cases hc : a.collecting = true
  · rw [Arena.beginCollection, if_pos hc]
    exact h
  · rw [Arena.beginCollection, if_neg hc]
    exact ⟨h.sized, fun hc' => absurd hc' (by simp [stateAfter])⟩

theorem endCollection (h : a.Kept) {l : Living} (hl : a.Maps l) :
    (stateAfter (Arena.endCollection l a)).Kept := by
  cases hend : Arena.endCollection l a with
  | ok _ a' =>
    obtain ⟨hwords, hlisted⟩ := endCollection_listed h.sized hl hend
    refine ⟨?_, fun _ => hlisted⟩
    rw [stateAfter, Sized, hwords]
    exact h.sized
  | error f a' =>
    obtain ⟨hwords, hcoll, hsame⟩ := endCollection_error hend
    constructor
    · rw [stateAfter, Sized, hwords]
      exact h.sized
    · intro hc
      have hc' : a.collecting = false := hcoll.symm.trans hc
      rw [stateAfter, hsame hc']
      exact h.listed hc'

theorem move (h : a.Kept) (hmove : Move a a') : a'.Kept := by
  cases hmove with
  | allocate n => exact h.allocate n
  | write ws hsize => exact h.of_words hsize
  | restore ws => exact h.restore ws
  | beginCollection => exact h.beginCollection
  | endCollection l hl => exact h.endCollection hl

theorem moves (h : a.Kept) (hmoves : Moves a a') : a'.Kept := by
  induction hmoves with
  | refl => exact h
  | tail _ hmove ih => exact ih.move hmove

end Kept

/-- Allocation is exact best fit in every state that an arena comes to.  It fails exactly if
    no free region has room, and then nothing changes; else it takes the front of the lowest
    of the smallest regions with room. -/
theorem allocate_bestFit {capacity : UInt64} {a₀ : Arena} (hroom : capacity + 1 ≠ 0)
    (hcreate : create capacity = .ok a₀) (hmoves : Moves a₀ a) (hc : a.collecting = false)
    (hn : n ≠ 0) :
    ((∃ f a', allocate n a = .error f a') ↔ ∀ r ∈ a.free, r.size < n) ∧
      (∀ f a', allocate n a = .error f a' → f = .broken (.outOfMemory n a.freeWords) ∧ a' = a) ∧
      ∀ addr a', allocate n a = .ok addr a' →
        ∃ r, BestFit n a.free r ∧ addr = r.addr ∧ Served a n r a' := by
  have hkept := (Kept.create hroom hcreate).moves hmoves
  rcases (hkept.listed hc).allocate hkept.sized hc hn with
    ⟨hnone, heq⟩ | ⟨r, a', hbest, heq, hserved, -⟩
  · rw [heq]
    refine ⟨⟨fun _ => hnone, fun _ => ⟨_, _, rfl⟩⟩, ?_, ?_⟩
    · intro f a' herr
      cases herr
      exact ⟨rfl, rfl⟩
    · intro addr a' hok
      cases hok
  · rw [heq]
    refine ⟨⟨?_, ?_⟩, ?_, ?_⟩
    · rintro ⟨f, a', herr⟩
      cases herr
    · intro hnone
      have hsmall := UInt64.lt_iff_toNat_lt.1 (hnone r hbest.mem)
      have hfits := UInt64.le_iff_toNat_le.1 hbest.fits
      omega
    · intro f a' herr
      cases herr
    · intro addr a' hok
      cases hok
      exact ⟨r, hbest, rfl, hserved⟩

/-- Twelve words, of which a collection has found two alive.  One word is asked for: it comes
    from the lower of the two regions of two words, whose other word stays free. -/
theorem allocate_bestFit_twelve :
    ∃ a₀ a a', (12 : UInt64) + 1 ≠ 0 ∧ create 12 = .ok a₀ ∧ Moves a₀ a ∧
      a.collecting = false ∧ (1 : UInt64) ≠ 0 ∧ a.free = [⟨1, 2⟩, ⟨4, 2⟩, ⟨7, 6⟩] ∧
      allocate 1 a = .ok 1 a' ∧ BestFit 1 a.free ⟨1, 2⟩ ∧ Served a 1 ⟨1, 2⟩ a' ∧
      a'.free = [⟨2, 1⟩, ⟨4, 2⟩, ⟨7, 6⟩] := by
  let living : Living := ⟨[⟨3, 1⟩, ⟨6, 1⟩], 2⟩
  let a₀ : Arena := ⟨Array.replicate 13 0, [⟨1, 12⟩], 12, false⟩
  let begun : Arena := { a₀ with collecting := true }
  let a : Arena := stateAfter (endCollection living begun)
  have hcreate : create 12 = .ok a₀ := rfl
  have hmaps : begun.Maps living := by
    constructor
    · simp [Living.Ordered, living]
    · intro r hr
      left
      revert r hr
      decide
  have hbegin : Moves a₀ begun := .single .beginCollection
  have hmoves : Moves a₀ a := hbegin.tail (.endCollection living hmaps)
  have hc : a.collecting = false := by decide +kernel
  have hfree : a.free = [⟨1, 2⟩, ⟨4, 2⟩, ⟨7, 6⟩] := by decide +kernel
  have hleft : (stateAfter (allocate 1 a)).free = [⟨2, 1⟩, ⟨4, 2⟩, ⟨7, 6⟩] := by decide +kernel
  obtain ⟨hfails, -, hserves⟩ := allocate_bestFit (by decide) hcreate hmoves hc
    (show (1 : UInt64) ≠ 0 by decide)
  cases hrun : allocate 1 a with
  | error f a' =>
    have hsmall := hfails.1 ⟨f, a', hrun⟩ ⟨1, 2⟩ (by rw [hfree]; exact List.mem_cons_self)
    exact absurd hsmall (by decide)
  | ok addr a' =>
    obtain ⟨r, hbest, rfl, hserved⟩ := hserves addr a' hrun
    have hr : r = ⟨1, 2⟩ := by
      have hmem := hbest.mem
      have hleast := hbest.least ⟨1, 2⟩ (by rw [hfree]; exact List.mem_cons_self) (by decide)
      rw [hfree] at hmem
      simp only [List.mem_cons, List.not_mem_nil, or_false] at hmem
      rcases hmem with rfl | rfl | rfl
      · rfl
      · exact absurd hleast (by decide)
      · exact absurd hleast (by decide)
    subst hr
    rw [hrun] at hleft
    exact ⟨a₀, a, a', by decide, hcreate, hmoves, hc, by decide, hfree, hrun, hbest, hserved,
      hleft⟩

end Arena

/-- Whatever the words of the heap are, a collection finds a living map of this kind. -/
theorem Image.mark_maps {image : Image} {found : Collect.Found}
    (hm : image.mark = .ok found) : image.heap.arena.Maps found.living :=
  have hgood := (searched_of_mark hm).search.good
  ⟨hgood.ordered, fun r hr => Or.inl (Nat.le_of_lt (hgood.starts r hr))⟩

end TreeMachine
