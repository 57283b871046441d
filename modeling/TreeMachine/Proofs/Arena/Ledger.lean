import TreeMachine.Proofs.Collect.Regions

/-! # The books of the arena

  The free list is ordered by size while the regions on it are kept apart by address, and a
  collection builds the list anew.  Here the regions in use are written down beside the
  arena: what allocation has given out, and what the last collection found alive.  Main
  statement: whatever is asked of a new arena, also in vain, the free list stays in order,
  and no word of a region in use is free or belongs to another such region.
-/

namespace TreeMachine

namespace Region

theorem before_iff {x y : Region} : x.before y = true ↔
    x.size.toNat < y.size.toNat ∨ x.size.toNat = y.size.toNat ∧ x.addr.toNat < y.addr.toNat := by
  simp [before, UInt64.lt_iff_toNat_lt, ← UInt64.toNat_inj]

theorem before_trans {x y z : Region} (hxy : x.before y = true) (hyz : y.before z = true) :
    x.before z = true := by
  rw [before_iff] at hxy hyz ⊢
  omega

/-- Different regions come in one order or the other. -/
theorem before_of_not {x y : Region} (h : ¬ x.before y = true) (hne : x ≠ y) :
    y.before x = true := by
  rw [before_iff] at h ⊢
  by_contra hyx
  apply hne
  have hsize : x.size.toNat = y.size.toNat := by omega
  have haddr : x.addr.toNat = y.addr.toNat := by omega
  cases x
  cases y
  simp_all [UInt64.toNat_inj]

/-- Regions that are not empty lie apart if they share no position. -/
theorem apart_of_not_has {x y : Region} (hx : 0 < x.size.toNat) (hy : 0 < y.size.toNat)
    (h : ∀ i, x.Has i → ¬ y.Has i) : x.Apart y := by
  by_contra hnot
  unfold Apart at hnot
  -- The later of the two starts belongs to both.
  apply h (max x.addr.toNat y.addr.toNat)
  · constructor <;> omega
  · constructor <;> omega

/-- A region that is not empty does not lie apart from itself. -/
theorem Apart.ne {x y : Region} (h : x.Apart y) (hx : 0 < x.size.toNat) : x ≠ y := by
  rintro rfl
  unfold Apart at h
  omega

end Region

namespace Arena

variable {a a' : Arena}

/-! ## The order of the free list -/

/-- Strictly ordered by size, and by address where sizes agree. -/
def Sorted (l : List Region) : Prop := l.Pairwise fun x y => x.before y = true

theorem insertRegion_sorted {r : Region} {l : List Region} (hl : Sorted l)
    (hr : ∀ x ∈ l, x ≠ r) : Sorted (insertRegion r l) := by
  induction l with
  | nil => exact List.pairwise_singleton _ _
  | cons x rest ih =>
    obtain ⟨hx, hrest⟩ := List.pairwise_cons.1 hl
    unfold insertRegion
    split
    · rename_i hlt
      refine List.pairwise_cons.2 ⟨?_, ih hrest fun y hy => hr y (List.mem_cons_of_mem _ hy)⟩
      intro y hy
      rcases mem_insertRegion.1 hy with rfl | hy
      · exact hlt
      · exact hx y hy
    · rename_i hnot
      have hrx : r.before x = true := Region.before_of_not hnot (hr x List.mem_cons_self)
      refine List.pairwise_cons.2 ⟨?_, hl⟩
      intro y hy
      rcases List.mem_cons.1 hy with rfl | hy
      · exact hrx
      · exact Region.before_trans hrx (hx y hy)

/-- Taking a region out keeps the others as they stand. -/
theorem takeFit_sublist {n : UInt64} {l others : List Region} {r : Region}
    (h : takeFit n l = some (r, others)) : others.Sublist l := by
  induction l generalizing others with
  | nil => cases h
  | cons x rest ih =>
    unfold takeFit at h
    split at h
    · cases h
      exact List.sublist_cons_self _ _
    · obtain ⟨⟨r', others'⟩, hrest, heq⟩ := Option.map_eq_some_iff.1 h
      cases heq
      exact (ih hrest).cons_cons x

theorem release_sorted {r : Region} (hs : Sorted a.free)
    (hr : r.size ≠ 0 → ∀ x ∈ a.free, x ≠ r) : Sorted (a.release r).free := by
  unfold release
  split
  · exact hs
  · rename_i h0
    exact insertRegion_sorted hs (hr h0)

theorem allocate_sorted (ha : a.Sound) (hs : Sorted a.free) {n : UInt64} {addr : Addr}
    (h : allocate n a = .ok addr a') : Sorted a'.free := by
  unfold allocate at h
  split at h
  · cases h
  split at h
  · cases h
  rename_i hn
  cases htake : takeFit n a.free with
  | none => simp [htake] at h
  | some p =>
    obtain ⟨r, others⟩ := p
    simp only [htake] at h
    split at h
    · cases h
      obtain ⟨hperm, hle⟩ := takeFit_eq_some htake
      have hp := List.pairwise_cons.1 (pairwise_apart_perm hperm ha.apart)
      have hstop := (ha.inside r (hperm.mem_iff.2 List.mem_cons_self)).stop_le
      have hadd : (r.addr + n).toNat = r.addr.toNat + n.toNat :=
        toNat_add_of_le ha.sized (by omega)
      have hsub : (r.size - n).toNat = r.size.toNat - n.toNat :=
        UInt64.toNat_sub_of_le _ _ (UInt64.le_iff_toNat_le.2 hle)
      -- What is left over lies in `r`, and so apart from the others.
      refine release_sorted (hs.sublist (takeFit_sublist htake)) ?_
      intro h0 x hx
      have hpos := toNat_pos_iff.2 h0
      have hrx := hp.1 x hx
      have hap : Region.Apart ⟨r.addr + n, r.size - n⟩ x := by
        dsimp only [Region.Apart] at hrx hpos ⊢
        omega
      exact (hap.ne hpos).symm
    · cases h

/-- What lies apart from the free list lies apart from what is taken out of it, and from
    what is left. -/
theorem Allocated.apart {n : UInt64} {addr : Addr} (hal : a.Allocated n addr a') {r : Region}
    (hpos : 0 < r.size.toNat) (hfree : ∀ x ∈ a.free, r.Apart x) :
    r.Apart ⟨addr, n⟩ ∧ ∀ x ∈ a'.free, r.Apart x := by
  have hnot : ∀ i, r.Has i → ¬ a.Free i := by
    rintro i hi ⟨x, hx, hix⟩
    exact (hfree x hx).not_has hi hix
  constructor
  · refine Region.apart_of_not_has hpos hal.region.size_pos ?_
    intro i hi hnew
    exact hnot i hi (hal.was_free i hnew)
  · intro x hx
    refine Region.apart_of_not_has hpos (hal.sound.inside x hx).size_pos ?_
    intro i hi hix
    exact hnot i hi ((hal.free_iff i).1 ⟨x, hx, hix⟩).1

/-! ## The end of a collection -/

/-- The regions come one behind the other. -/
def Stacked (rs : List Region) : Prop :=
  rs.Pairwise fun x y => x.addr.toNat + x.size.toNat ≤ y.addr.toNat

/-- Regions that lie apart are stacked in the order of their addresses. -/
theorem stacked_of_ordered {l : Living} (hord : l.Ordered)
    (hap : l.regions.Pairwise Region.Apart) : Stacked l.regions := by
  refine (hord.and hap).imp ?_
  rintro x y ⟨hlt, hxy⟩
  rw [UInt64.lt_iff_toNat_lt] at hlt
  rcases hxy with h | h <;> omega

theorem FilledTo.release_sorted {next addr : Addr} (ha : a.FilledTo next)
    (hs : Sorted a.free) : Sorted (a.release ⟨next, addr - next⟩).free := by
  refine Arena.release_sorted hs ?_
  rintro - x hx rfl
  have hlt := ha.below _ hx
  have hpos := (ha.sound.inside _ hx).size_pos
  dsimp only at hlt hpos
  omega

/-- Stacked regions leave gaps, and the gaps are freed in order. -/
theorem freeGaps_sorted {rs : List Region} {next : Addr} (ha : a.FilledTo next)
    (hs : Sorted a.free) (hst : Stacked rs) (hnext : next.toNat ≤ a.words.size)
    (hin : ∀ r ∈ rs, r.Inside a.words.size ∧ next.toNat ≤ r.addr.toNat) :
    ∃ stop a', freeGaps rs next a = .ok stop a' ∧ a'.FilledTo stop ∧ Sorted a'.free ∧
      a'.words = a.words ∧ stop.toNat ≤ a.words.size := by
  induction rs generalizing next a with
  | nil => exact ⟨next, a, rfl, ha, hs, rfl, hnext⟩
  | cons r rest ih =>
    obtain ⟨hr, hrest⟩ := List.pairwise_cons.1 hst
    obtain ⟨⟨-, -, hstop⟩, hle⟩ := hin r List.mem_cons_self
    have hover : ¬ r.addr < next := by
      rw [UInt64.lt_iff_toNat_lt]
      omega
    have hsum : r.stop.toNat = r.addr.toNat + r.size.toNat :=
      toNat_add_of_le ha.sound.sized hstop
    have hwords := release_words ⟨next, r.addr - next⟩ a
    obtain ⟨hfill, -, -⟩ := ha.release hle (by omega)
    have hfilled : (a.release ⟨next, r.addr - next⟩).FilledTo r.stop := hfill.mono (by omega)
    obtain ⟨stop, a', heq, hfill', hs', hw', hle'⟩ :=
      ih hfilled (ha.release_sorted hs) hrest (by rw [hwords]; omega) (by
        intro x hx
        rw [hwords, hsum]
        exact ⟨(hin x (List.mem_cons_of_mem _ hx)).1, hr x hx⟩)
    rw [hwords] at hw' hle'
    exact ⟨stop, a', (if_neg hover).trans heq, hfill', hs', hw', hle'⟩

/-- A collection of regions that lie apart inside the arena comes to its end. -/
theorem endCollection_sorted {l : Living} (hs : a.Sized) (hc : a.collecting = true)
    (hpos : 0 < a.words.size) (hord : l.Ordered) (hap : l.regions.Pairwise Region.Apart)
    (hin : ∀ r ∈ l.regions, r.Inside a.words.size) :
    ∃ a', endCollection l a = .ok () a' ∧ Swept a l.regions a' ∧ Sorted a'.free := by
  have hempty : ({ a with free := [], freeWords := 0 } : Arena).FilledTo 1 :=
    ⟨⟨hs, by simp, .nil, rfl⟩, by decide, by simp⟩
  obtain ⟨stop, a₁, heq, hfill, hsorted, hwords, hstop⟩ :=
    freeGaps_sorted hempty .nil (stacked_of_ordered hord hap) hpos
      fun r hr => ⟨hin r hr, (hin r hr).addr_pos⟩
  have hlimit : a₁.limit.toNat = a.words.size := by
    rw [limit_toNat hfill.sound.sized, hwords]
  have hpast : ¬ a₁.limit < stop := by
    rw [UInt64.lt_iff_toNat_lt, hlimit]
    exact Nat.not_lt.2 hstop
  have hend : endCollection l a = .ok ()
      { a₁.release ⟨stop, a₁.limit - stop⟩ with collecting := false } := by
    rw [endCollection, if_pos hc, heq]
    exact if_neg hpast
  have hb : a.Bounded l.regions := by
    intro r hr
    have := (hin r hr).stop_le
    have := hs.lt
    omega
  exact ⟨_, hend, (endCollection_yields hs hc hord hb).ok hend, hfill.release_sorted hsorted⟩

end Arena

/-- The living maps that marking can build: nothing found yet, then one region after the
    other, those found again or refused included. -/
inductive Living.Marked : Living → Prop where
  | empty : Marked .empty
  | found {l l' : Living} {known : Bool} (addr : Addr) (size : UInt64) :
    Marked l → l.found addr size = .ok known l' → Marked l'

theorem Living.Marked.ordered {l : Living} (h : l.Marked) : l.Ordered := by
  induction h with
  | empty => exact Living.ordered_empty
  | @found l l' known addr size _ heq ih =>
    obtain ⟨hok, -⟩ | ⟨hok, hnew⟩ | ⟨before, herr, -⟩ := Living.found_cases addr size l
    · cases hok.symm.trans heq
      exact ih
    · cases hok.symm.trans heq
      exact Living.insertRegion_ordered ih hnew
    · cases herr.symm.trans heq

/-! ## Calls and what is in use -/

/-- What can be asked of an arena. -/
inductive Arena.Call where
  | allocate (n : UInt64)
  | setWord (addr : Addr) (w : UInt64)
  | beginCollection
  | endCollection (living : Living)
  | restore (words : Array UInt64)

/-- The living map of a collection is one that marking builds, of regions that are not empty
    and lie apart among the `c` usable words. -/
def Arena.Call.Fair (c : UInt64) : Arena.Call → Prop
  | .endCollection l =>
    l.Marked ∧ (∀ r ∈ l.regions, r.Inside (c.toNat + 1)) ∧ l.regions.Pairwise Region.Apart
  | _ => True

/-- An arena and the regions in use. -/
structure Ledger where
  arena : Arena
  /-- What allocation has given out since the last collection or restoration, the latest
      first. -/
  given : List Region
  /-- What was alive when the last collection ended. -/
  living : List Region

namespace Ledger

open Arena (Call)

/-- A new arena, of which nothing is in use. -/
def opened (a : Arena) : Ledger := ⟨a, [], []⟩

/-- One call.  If it fails, nothing is entered. -/
def step (s : Ledger) : Call → Ledger
  | .allocate n =>
    match Arena.allocate n s.arena with
    | .ok addr a => { s with arena := a, given := ⟨addr, n⟩ :: s.given }
    | .error _ a => { s with arena := a }
  | .setWord addr w =>
    match Arena.setWord addr w s.arena with
    | .ok _ a => { s with arena := a }
    | .error _ a => { s with arena := a }
  | .beginCollection =>
    match Arena.beginCollection s.arena with
    | .ok _ a => { s with arena := a }
    | .error _ a => { s with arena := a }
  | .endCollection l =>
    match Arena.endCollection l s.arena with
    | .ok _ a => ⟨a, [], l.regions⟩
    | .error _ a => { s with arena := a }
  | .restore words =>
    match Arena.restore words s.arena with
    | .ok _ a => ⟨a, [], []⟩
    | .error _ a => { s with arena := a }

/-- One call after the other. -/
def run (s : Ledger) (calls : List Call) : Ledger := calls.foldl step s

/-- The books of an arena of `c` usable words are in order. -/
structure Balanced (c : UInt64) (s : Ledger) : Prop where
  size_eq : s.arena.words.size = c.toNat + 1
  sized : s.arena.Sized
  /-- The free list is strictly ordered by size and address, -/
  sorted : Arena.Sorted s.arena.free
  /-- its regions are not empty and lie inside the arena, -/
  free_inside : ∀ r ∈ s.arena.free, r.Inside (c.toNat + 1)
  /-- apart from each other, -/
  free_apart : s.arena.free.Pairwise Region.Apart
  /-- and their sizes add up to the count of free words. -/
  counted : s.arena.freeWords.toNat = (s.arena.free.map (·.size.toNat)).sum
  /-- A region that was given out is not empty and lies inside the arena, -/
  given_inside : ∀ r ∈ s.given, r.Inside (c.toNat + 1)
  /-- apart from every other such region, -/
  given_apart : s.given.Pairwise Region.Apart
  /-- from every region that was living, -/
  given_living : ∀ r ∈ s.given, ∀ x ∈ s.living, r.Apart x
  /-- and from the free list. -/
  given_free : ∀ r ∈ s.given, ∀ x ∈ s.arena.free, r.Apart x
  /-- So does a region that was living. -/
  living_inside : ∀ r ∈ s.living, r.Inside (c.toNat + 1)
  living_free : ∀ r ∈ s.living, ∀ x ∈ s.arena.free, r.Apart x

namespace Balanced

variable {c : UInt64} {s : Ledger} {a' : Arena}

theorem sound (h : s.Balanced c) : s.arena.Sound :=
  ⟨h.sized, by rw [h.size_eq]; exact h.free_inside, h.free_apart, h.counted⟩

/-- Only the words and whether a collection is running have changed. -/
theorem same_free (h : s.Balanced c) (hsize : a'.words.size = s.arena.words.size)
    (hfree : a'.free = s.arena.free) (hcount : a'.freeWords = s.arena.freeWords) :
    ({ s with arena := a' } : Ledger).Balanced c where
  size_eq := hsize.trans h.size_eq
  sized := by rw [Arena.Sized, hsize]; exact h.sized
  sorted := by rw [hfree]; exact h.sorted
  free_inside := by rw [hfree]; exact h.free_inside
  free_apart := by rw [hfree]; exact h.free_apart
  counted := by rw [hfree, hcount]; exact h.counted
  given_inside := h.given_inside
  given_apart := h.given_apart
  given_living := h.given_living
  given_free := by rw [hfree]; exact h.given_free
  living_inside := h.living_inside
  living_free := by rw [hfree]; exact h.living_free

/-- A region that allocation gives out is entered. -/
theorem allocated (h : s.Balanced c) {n : UInt64} {addr : Addr}
    (hal : s.arena.Allocated n addr a') (hsorted : Arena.Sorted a'.free) :
    ({ s with arena := a', given := ⟨addr, n⟩ :: s.given } : Ledger).Balanced c := by
  have hsize : a'.words.size = c.toNat + 1 := hal.size_eq.trans h.size_eq
  have hin : Region.Inside ⟨addr, n⟩ (c.toNat + 1) := by
    rw [← h.size_eq]
    exact hal.region
  have hgiven := fun r hr => hal.apart (h.given_inside r hr).size_pos (h.given_free r hr)
  have hliving := fun r hr => hal.apart (h.living_inside r hr).size_pos (h.living_free r hr)
  have hnew : ∀ x ∈ a'.free, Region.Apart ⟨addr, n⟩ x := by
    intro x hx
    refine Region.apart_of_not_has hin.size_pos (hal.sound.inside x hx).size_pos ?_
    intro i hi hix
    exact ((hal.free_iff i).1 ⟨x, hx, hix⟩).2 hi
  exact {
    size_eq := hsize
    sized := hal.sound.sized
    sorted := hsorted
    free_inside := by rw [← hsize]; exact hal.sound.inside
    free_apart := hal.sound.apart
    counted := hal.sound.counted
    given_inside := List.forall_mem_cons.2 ⟨hin, h.given_inside⟩
    given_apart := List.pairwise_cons.2 ⟨fun r hr => (hgiven r hr).1.symm, h.given_apart⟩
    given_living := List.forall_mem_cons.2
      ⟨fun r hr => (hliving r hr).1.symm, h.given_living⟩
    given_free := List.forall_mem_cons.2 ⟨hnew, fun r hr => (hgiven r hr).2⟩
    living_inside := h.living_inside
    living_free := fun r hr => (hliving r hr).2 }

/-- After a collection the living regions are in use and nothing else. -/
theorem swept (h : s.Balanced c) {rs : List Region} (hsw : s.arena.Swept rs a')
    (hsorted : Arena.Sorted a'.free) (hin : ∀ r ∈ rs, r.Inside (c.toNat + 1)) :
    (⟨a', [], rs⟩ : Ledger).Balanced c := by
  have hsize : a'.words.size = c.toNat + 1 := by rw [hsw.words_eq, h.size_eq]
  have hfree : ∀ r ∈ rs, ∀ x ∈ a'.free, r.Apart x := by
    intro r hr x hx
    refine Region.apart_of_not_has (hin r hr).size_pos (hsw.sound.inside x hx).size_pos ?_
    intro i hi hix
    exact ((hsw.free_iff i).1 ⟨x, hx, hix⟩).2.2 r hr hi
  exact {
    size_eq := hsize
    sized := hsw.sound.sized
    sorted := hsorted
    free_inside := by rw [← hsize]; exact hsw.sound.inside
    free_apart := hsw.sound.apart
    counted := hsw.sound.counted
    given_inside := by simp
    given_apart := .nil
    given_living := by simp
    given_free := by simp
    living_inside := hin
    living_free := hfree }

/-- Nothing is free and nothing is in use once the words have been overwritten. -/
theorem restored (h : s.Balanced c) {ws : Array UInt64} (hsize : ws.size = s.arena.words.size) :
    (⟨{ s.arena with words := ws, free := [], freeWords := 0 }, [], []⟩ : Ledger).Balanced c where
  size_eq := hsize.trans h.size_eq
  sized := by rw [Arena.Sized, hsize]; exact h.sized
  sorted := .nil
  free_inside := by simp
  free_apart := .nil
  counted := rfl
  given_inside := by simp
  given_apart := .nil
  given_living := by simp
  given_free := by simp
  living_inside := by simp
  living_free := by simp

/-! ### One call -/

theorem step_allocate (h : s.Balanced c) (n : UInt64) : (s.step (.allocate n)).Balanced c := by
  obtain ⟨addr, a', heq, hal⟩ | ⟨v, heq⟩ := Arena.allocate_cases h.sound n
  · simp only [Ledger.step, heq]
    exact h.allocated hal (Arena.allocate_sorted h.sound h.sorted heq)
  · simp only [Ledger.step, heq]
    exact h

theorem step_setWord (h : s.Balanced c) (addr : Addr) (w : UInt64) :
    (s.step (.setWord addr w)).Balanced c := by
  simp only [Ledger.step, Arena.setWord]
  cases s.arena.check addr 1 with
  | error f => exact h
  | ok _ =>
    dsimp only
    split
    · rename_i heq
      split at heq
      · cases heq
        exact h.same_free (by simp) rfl rfl
      · cases heq
    · rename_i heq
      split at heq
      · cases heq
      · cases heq
        exact h

theorem step_beginCollection (h : s.Balanced c) : (s.step .beginCollection).Balanced c := by
  simp only [Ledger.step, Arena.beginCollection]
  by_cases hc : s.arena.collecting = true
  · rw [if_pos hc]
    exact h
  · rw [if_neg hc]
    exact h.same_free rfl rfl rfl

theorem step_endCollection (h : s.Balanced c) {l : Living} (hm : l.Marked)
    (hin : ∀ r ∈ l.regions, r.Inside (c.toNat + 1)) (hap : l.regions.Pairwise Region.Apart) :
    (s.step (.endCollection l)).Balanced c := by
  by_cases hc : s.arena.collecting = true
  · obtain ⟨a', heq, hsw, hsorted⟩ := Arena.endCollection_sorted h.sized hc
      (by rw [h.size_eq]; omega) hm.ordered hap (by rw [h.size_eq]; exact hin)
    simp only [Ledger.step, heq]
    exact h.swept hsw hsorted hin
  · have heq : Arena.endCollection l s.arena = .error (.broken .collectionNotStarted) s.arena := by
      rw [Arena.endCollection, if_neg hc]
    simp only [Ledger.step, heq]
    exact h

theorem step_restore (h : s.Balanced c) (ws : Array UInt64) :
    (s.step (.restore ws)).Balanced c := by
  simp only [Ledger.step, Arena.restore]
  by_cases hsize : ws.size = s.arena.words.size
  · rw [if_pos hsize]
    exact h.restored hsize
  · rw [if_neg hsize]
    exact h

theorem step (h : s.Balanced c) {k : Call} (hk : k.Fair c) : (s.step k).Balanced c := by
  cases k with
  | allocate n => exact h.step_allocate n
  | setWord addr w => exact h.step_setWord addr w
  | beginCollection => exact h.step_beginCollection
  | endCollection l => exact h.step_endCollection hk.1 hk.2.1 hk.2.2
  | restore ws => exact h.step_restore ws

/-- Any number of calls. -/
theorem run (h : s.Balanced c) {calls : List Call} (hk : ∀ k ∈ calls, k.Fair c) :
    (s.run calls).Balanced c := by
  induction calls generalizing s with
  | nil => exact h
  | cons k rest ih =>
    have hstep := h.step (hk k List.mem_cons_self)
    exact ih hstep fun k hk' => hk k (List.mem_cons_of_mem _ hk')

/-- Of a new arena nothing is in use. -/
theorem opened {a : Arena} (hwrap : c + 1 ≠ 0) (hc : Arena.create c = .ok a) :
    (Ledger.opened a).Balanced c := by
  have hsound := Arena.create_sound hwrap hc
  have hnew : a.words.size = c.toNat + 1 ∧ Arena.Sorted a.free := by
    unfold Arena.create at hc
    split at hc
    · cases hc
    split at hc
    · cases hc
    cases hc
    have hpos := Arena.toNat_pos_iff.2 hwrap
    have hlt := c.toNat_lt
    have hone : (1 : UInt64).toNat = 1 := rfl
    rw [UInt64.toNat_add] at hpos
    refine ⟨?_, List.pairwise_singleton _ _⟩
    rw [Array.size_replicate, UInt64.toNat_add]
    omega
  obtain ⟨hsize, hsorted⟩ := hnew
  exact {
    size_eq := hsize
    sized := hsound.sized
    sorted := hsorted
    free_inside := by rw [← hsize]; exact hsound.inside
    free_apart := hsound.apart
    counted := hsound.counted
    given_inside := by simp [Ledger.opened]
    given_apart := .nil
    given_living := by simp [Ledger.opened]
    given_free := by simp [Ledger.opened]
    living_inside := by simp [Ledger.opened]
    living_free := by simp [Ledger.opened] }

end Balanced

/-- Whatever is asked of a new arena, no word is ever handed out twice: its books stay in
    order through every sequence of calls, those that fail included. -/
theorem run_balanced {c : UInt64} {a : Arena} (hwrap : c + 1 ≠ 0) (hc : Arena.create c = .ok a)
    {calls : List Call} (hfair : ∀ k ∈ calls, k.Fair c) : ((opened a).run calls).Balanced c :=
  (Balanced.opened hwrap hc).run hfair

/-- Eight words: three are given out and found alive, two of the rest are given out after the
    collection, and every call that asks too much fails on the way. -/
theorem run_balanced_eight :
    ∃ a calls, (8 : UInt64) + 1 ≠ 0 ∧ Arena.create 8 = .ok a ∧ (∀ k ∈ calls, k.Fair 8) ∧
      ((opened a).run calls).given = [⟨4, 2⟩] ∧ ((opened a).run calls).living = [⟨1, 3⟩] ∧
      ((opened a).run calls).arena.free = [⟨6, 3⟩] ∧ ((opened a).run calls).Balanced 8 := by
  let living : Living := ⟨[⟨1, 3⟩], 3⟩
  let calls : List Call :=
    [.allocate 3, .allocate 9, .endCollection living, .beginCollection, .allocate 1,
      .endCollection living, .allocate 2, .setWord 0 7, .restore #[]]
  have hliving : living.Marked := .found 1 3 .empty rfl
  have hfair : ∀ k ∈ calls, k.Fair 8 := by
    have hend : (Call.endCollection living).Fair 8 := by
      refine ⟨hliving, ?_, List.pairwise_singleton _ _⟩
      intro r hr
      rw [List.mem_singleton.1 hr]
      exact ⟨by decide, by decide, by decide⟩
    simpa [calls, Call.Fair] using hend
  exact ⟨_, calls, by decide, rfl, hfair, by decide +kernel, by decide +kernel,
    by decide +kernel, run_balanced (by decide) rfl hfair⟩

end Ledger

end TreeMachine
