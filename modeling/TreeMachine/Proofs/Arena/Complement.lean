import TreeMachine.Proofs.Arena.BestFit

/-! # The free list as a complement

  A gap of some regions is a longest run of words that none of them has.  Main statements:
  ending a collection fails only with a broken invariant; as long as no living region reaches
  the end of the address space, it comes to its end exactly if the living regions lie apart
  inside the arena, and then the free list holds their gaps and nothing else.  A region that
  does reach the end of the address space can pass all checks.
-/

namespace TreeMachine

namespace Region

/-- A longest run of words between word one and `stop` that none of the regions has. -/
structure Gap (rs : List Region) (stop : Nat) (g : Region) : Prop where
  inside : g.Inside stop
  clear : ∀ r ∈ rs, ∀ i, g.Has i → ¬ r.Has i
  /-- The word before it is word zero or belongs to a region. -/
  starts : g.addr.toNat = 1 ∨ ∃ r ∈ rs, r.Has (g.addr.toNat - 1)
  /-- The word after it is past the end or belongs to a region. -/
  ends : g.addr.toNat + g.size.toNat = stop ∨ ∃ r ∈ rs, r.Has (g.addr.toNat + g.size.toNat)

variable {rs : List Region} {stop i : Nat} {g g' : Region}

/-- A gap does not start inside another one. -/
theorem Gap.addr_le (hg : g.Gap rs stop) (hg' : g'.Gap rs stop) (hi : g.Has i)
    (hi' : g'.Has i) : g.addr.toNat ≤ g'.addr.toNat := by
  by_contra hlt
  have hpos' := hg'.inside.addr_pos
  unfold Has at hi hi'
  cases hg.starts with
  | inl hone => omega
  | inr hbefore =>
    -- The word before `g` is one of `g'`, so no region has it.
    obtain ⟨r, hr, hhas⟩ := hbefore
    apply hg'.clear r hr _ _ hhas
    constructor <;> omega

/-- A gap does not end inside another one. -/
theorem Gap.stop_le (hg : g.Gap rs stop) (hg' : g'.Gap rs stop) (hi : g.Has i)
    (hi' : g'.Has i) : g'.addr.toNat + g'.size.toNat ≤ g.addr.toNat + g.size.toNat := by
  by_contra hlt
  have hle' := hg'.inside.stop_le
  unfold Has at hi hi'
  cases hg.ends with
  | inl hend => omega
  | inr hafter =>
    obtain ⟨r, hr, hhas⟩ := hafter
    apply hg'.clear r hr _ _ hhas
    constructor <;> omega

/-- Two gaps that share a word are the same. -/
theorem Gap.eq_of_has (hg : g.Gap rs stop) (hg' : g'.Gap rs stop) (hi : g.Has i)
    (hi' : g'.Has i) : g = g' := by
  have haddr : g.addr.toNat = g'.addr.toNat :=
    Nat.le_antisymm (hg.addr_le hg' hi hi') (hg'.addr_le hg hi' hi)
  have hstop := hg.stop_le hg' hi hi'
  have hstop' := hg'.stop_le hg hi' hi
  cases g
  cases g'
  simp only [mk.injEq, ← UInt64.toNat_inj] at haddr hstop hstop' ⊢
  omega

/-- The run of words between two addresses stops at the second. -/
theorem stop_between (x y : Addr) : (⟨x, y - x⟩ : Region).stop = y := by
  rw [stop, UInt64.add_comm, UInt64.sub_add_cancel]

end Region

/-- The count of living words is the sum of the sizes, as far as a word can hold it. -/
theorem Living.Marked.words_eq {l : Living} (h : l.Marked) :
    l.words.toNat = (l.regions.map (·.size.toNat)).sum % 2 ^ 64 := by
  induction h with
  | empty => rfl
  | @found l l' known addr size _ heq ih =>
    obtain ⟨hok, -⟩ | ⟨hok, -⟩ | ⟨before, herr, -⟩ := Living.found_cases addr size l
    · cases hok.symm.trans heq
      exact ih
    · cases hok.symm.trans heq
      have hperm := (insertRegion_perm ⟨addr, size⟩ l.regions).map (·.size.toNat)
      rw [hperm.sum_nat, List.map_cons, List.sum_cons, UInt64.toNat_add, ih]
      dsimp only
      omega
    · cases herr.symm.trans heq

namespace Arena

variable {a a' : Arena} {l : Living} {rs : List Region} {next stop : Addr} {f : Fault}

/-! ### Where free regions start and stop -/

/-- The region stops where one of the others starts, and starts where one of them stops or
    at `next`. -/
def Wedged (next : Addr) (rs : List Region) (g : Region) : Prop :=
  (g.addr = next ∨ ∃ r ∈ rs, g.addr = r.stop) ∧ ∃ r ∈ rs, g.stop = r.addr

theorem mem_release {r g : Region} (hg : g ∈ (a.release r).free) : g = r ∨ g ∈ a.free := by
  unfold release at hg
  split at hg
  · exact Or.inr hg
  · exact mem_insertRegion.1 hg

theorem freeGaps_wedged (h : freeGaps rs next a = .ok stop a') :
    (∀ g ∈ a'.free, g ∈ a.free ∨ Wedged next rs g) ∧ (stop = next ∨ ∃ r ∈ rs, stop = r.stop) := by
  induction rs generalizing next a with
  | nil =>
    cases h
    exact ⟨fun g hg => Or.inl hg, Or.inl rfl⟩
  | cons r rest ih =>
    rw [freeGaps] at h
    split at h
    · cases h
    · obtain ⟨hfree, hstop⟩ := ih h
      constructor
      · intro g hg
        cases hfree g hg with
        | inl hold =>
          cases mem_release hold with
          | inl heq =>
            -- This is the gap in front of `r`.
            right
            rw [heq]
            exact ⟨Or.inl rfl, r, List.mem_cons_self, Region.stop_between _ _⟩
          | inr hold => exact Or.inl hold
        | inr hlater =>
          obtain ⟨hstart, x, hx, hend⟩ := hlater
          right
          refine ⟨Or.inr ?_, x, List.mem_cons_of_mem _ hx, hend⟩
          cases hstart with
          | inl heq => exact ⟨r, List.mem_cons_self, heq⟩
          | inr hy =>
            obtain ⟨y, hy, heq⟩ := hy
            exact ⟨y, List.mem_cons_of_mem _ hy, heq⟩
      · right
        cases hstop with
        | inl heq => exact ⟨r, List.mem_cons_self, heq⟩
        | inr hx =>
          obtain ⟨x, hx, heq⟩ := hx
          exact ⟨x, List.mem_cons_of_mem _ hx, heq⟩

/-- A collection that comes to its end has freed the gaps and what is left after them. -/
theorem endCollection_parts (h : endCollection l a = .ok () a') : ∃ next a₁,
    freeGaps l.regions 1 { a with free := [], freeWords := 0 } = .ok next a₁ ∧
      next ≤ a.limit ∧ a' = { a₁.release ⟨next, a.limit - next⟩ with collecting := false } := by
  unfold endCollection at h
  split at h
  · cases hgaps : freeGaps l.regions 1 { a with free := [], freeWords := 0 } with
    | error f a₁ => simp [hgaps] at h
    | ok next a₁ =>
      have hwords := ((freeGaps_frame l.regions 1 { a with free := [], freeWords := 0 }).ok hgaps).1
      have hlimit : a₁.limit = a.limit := by rw [limit, hwords, limit]
      simp only [hgaps, hlimit] at h
      split at h
      · cases h
      · rename_i hpast
        cases h
        exact ⟨next, a₁, rfl, UInt64.not_lt.1 hpast, rfl⟩
  · cases h

/-- Every free region starts at word one or where a living region stops, and it stops at the
    end or where a living region starts. -/
theorem endCollection_edges (h : endCollection l a = .ok () a') : ∀ g ∈ a'.free,
    (g.addr = 1 ∨ ∃ r ∈ l.regions, g.addr = r.stop) ∧
      (g.stop = a.limit ∨ ∃ r ∈ l.regions, g.stop = r.addr) := by
  intro g hg
  obtain ⟨next, a₁, hgaps, -, rfl⟩ := endCollection_parts h
  obtain ⟨hfree, hstop⟩ := freeGaps_wedged hgaps
  cases mem_release hg with
  | inl heq =>
    rw [heq, Region.stop_between]
    exact ⟨hstop, Or.inl rfl⟩
  | inr hold =>
    cases hfree g hold with
    | inl hnone => cases hnone
    | inr hw => exact ⟨hw.1, Or.inr hw.2⟩

/-! ### The end of a collection -/

/-- Living regions that overlap are a broken invariant. -/
theorem freeGaps_broken (rs : List Region) (next : Addr) (a : Arena) :
    Yields (freeGaps rs next) a (fun _ _ => True) fun f _ => ∃ v, f = .broken v := by
  induction rs generalizing next a with
  | nil => exact Yields.of_ok rfl trivial
  | cons r rest ih =>
    by_cases hover : r.addr < next
    · exact Yields.of_error (if_pos hover) ⟨_, rfl⟩
    · exact Yields.congr (if_neg hover) (ih r.stop _)

/-- Whatever the living map is, a collection that cannot be ended is a broken invariant. -/
theorem endCollection_broken (h : endCollection l a = .error f a') : ∃ v, f = .broken v := by
  unfold endCollection at h
  split at h
  · cases hgaps : freeGaps l.regions 1 { a with free := [], freeWords := 0 } with
    | error f₁ a₁ =>
      simp only [hgaps] at h
      cases h
      exact (freeGaps_broken _ _ _).error hgaps
    | ok next a₁ =>
      simp only [hgaps] at h
      split at h
      · cases h
        exact ⟨_, rfl⟩
      · cases h
  · cases h
    exact ⟨_, rfl⟩

/-- A collection that comes to its end has swept the arena. -/
theorem endCollection_swept (hs : a.Sized) (hc : a.collecting = true) (hord : l.Ordered)
    (hreach : ∀ r ∈ l.regions, r.addr.toNat + r.size.toNat < 2 ^ 64)
    (h : endCollection l a = .ok () a') : Swept a l.regions a' := by
  obtain ⟨next, a₁, hgaps, hle, -⟩ := endCollection_parts h
  rw [UInt64.le_iff_toNat_le, limit_toNat hs] at hle
  have hb : a.Bounded l.regions := by
    intro r hr
    -- The regions start one after the other, and the last of them stops inside the arena.
    have hstarts := starts_of_freeGaps hord (fun r hr => Or.inr (hreach r hr)) hgaps hle
    exact ⟨hstarts r hr, hreach r hr⟩
  exact (endCollection_yields hs hc hord hb).ok h

/-- Apart from regions that reach the end of the address space, a collection can be ended
    exactly if the living regions lie apart inside the arena. -/
theorem endCollection_eq_ok_iff (hs : a.Sized) (hpos : 0 < a.words.size)
    (hc : a.collecting = true) (hord : l.Ordered) (hsizes : ∀ r ∈ l.regions, r.size ≠ 0)
    (hreach : ∀ r ∈ l.regions, r.addr.toNat + r.size.toNat < 2 ^ 64) :
    (∃ a', endCollection l a = .ok () a') ↔
      l.regions.Pairwise Region.Apart ∧ ∀ r ∈ l.regions, r.Inside a.words.size := by
  constructor
  · intro h
    obtain ⟨a', h⟩ := h
    have hswept := endCollection_swept hs hc hord hreach h
    refine ⟨hswept.apart, ?_⟩
    intro r hr
    obtain ⟨haddr, hstop⟩ := hswept.inside r hr
    exact ⟨haddr, toNat_pos_iff.2 (hsizes r hr), hstop⟩
  · intro h
    obtain ⟨hapart, hinside⟩ := h
    obtain ⟨a', heq, -⟩ := endCollection_sorted hs hc hpos hord hapart hinside
    exact ⟨a', heq⟩

/-- A free region of a swept arena is a gap. -/
theorem endCollection_gap (hs : a.Sized) (hsizes : ∀ r ∈ l.regions, r.size ≠ 0)
    (hreach : ∀ r ∈ l.regions, r.addr.toNat + r.size.toNat < 2 ^ 64)
    (hswept : Swept a l.regions a') (h : endCollection l a = .ok () a') {g : Region}
    (hg : g ∈ a'.free) : g.Gap l.regions a.words.size := by
  have hinside := hswept.sound.inside g hg
  rw [show a'.words.size = a.words.size by rw [hswept.words_eq]] at hinside
  have hgstop : g.stop.toNat = g.addr.toNat + g.size.toNat := toNat_add_of_le hs hinside.stop_le
  obtain ⟨hstart, hend⟩ := endCollection_edges h g hg
  constructor
  · exact hinside
  · intro r hr i hi
    exact ((hswept.free_iff i).1 ⟨g, hg, hi⟩).2.2 r hr
  · cases hstart with
    | inl heq => exact Or.inl (by rw [heq, UInt64.toNat_one])
    | inr hr =>
      -- The last word of a region stands in front of the gap.
      obtain ⟨r, hr, heq⟩ := hr
      have hrpos := toNat_pos_iff.2 (hsizes r hr)
      have hrstop : g.addr.toNat = r.addr.toNat + r.size.toNat := by
        rw [heq, Region.stop, UInt64.toNat_add]
        exact Nat.mod_eq_of_lt (hreach r hr)
      right
      refine ⟨r, hr, ?_⟩
      constructor <;> omega
  · rw [← hgstop]
    cases hend with
    | inl heq => exact Or.inl (by rw [heq, limit_toNat hs])
    | inr hr =>
      -- The first word of a region stands behind it.
      obtain ⟨r, hr, heq⟩ := hr
      have hrpos := toNat_pos_iff.2 (hsizes r hr)
      right
      refine ⟨r, hr, ?_⟩
      rw [heq]
      constructor <;> omega

/-- What is free after a collection are the gaps between the living regions, each once, and
    their words and the living words are all words of the arena. -/
theorem endCollection_gaps (hs : a.Sized) (hpos : 0 < a.words.size) (hc : a.collecting = true)
    (hm : l.Marked) (hsizes : ∀ r ∈ l.regions, r.size ≠ 0)
    (hreach : ∀ r ∈ l.regions, r.addr.toNat + r.size.toNat < 2 ^ 64)
    (h : endCollection l a = .ok () a') :
    (∀ g, g ∈ a'.free ↔ g.Gap l.regions a.words.size) ∧ a'.free.Nodup ∧
      a'.freeWords.toNat + l.words.toNat = a.capacity.toNat := by
  have hswept := endCollection_swept hs hc hm.ordered hreach h
  have hgap : ∀ g ∈ a'.free, g.Gap l.regions a.words.size :=
    fun g hg => endCollection_gap hs hsizes hreach hswept h hg
  refine ⟨?_, ?_, ?_⟩
  · intro g
    refine ⟨hgap g, ?_⟩
    intro hg
    -- The first word of a gap is free, and the free region that has it is the gap itself.
    have hfirst : g.Has g.addr.toNat := ⟨Nat.le_refl _, by have := hg.inside.size_pos; omega⟩
    have hfree : a'.Free g.addr.toNat := by
      rw [hswept.free_iff]
      have hpos := hg.inside.size_pos
      have hle := hg.inside.stop_le
      exact ⟨hg.inside.addr_pos, by omega, fun r hr => hg.clear r hr _ hfirst⟩
    obtain ⟨g', hg', hhas⟩ := hfree
    rw [hg.eq_of_has (hgap g' hg') hfirst hhas]
    exact hg'
  · refine hswept.sound.apart.imp_of_mem ?_
    intro x y hx _ hxy
    exact hxy.ne (hswept.sound.inside x hx).size_pos
  · have hcount := hswept.counted
    have hlt := hs.lt
    rw [hm.words_eq, capacity_toNat hs hpos, Nat.mod_eq_of_lt (by omega)]
    omega

/-! ### Regions that reach around the address space -/

/-- A region is taken for one inside the arena if the address after it is, also where the sum
    that gives this address wraps. -/
theorem endCollection_single (hc : a.collecting = true) {r : Region} (haddr : r.addr ≠ 0)
    (hstop : r.stop ≤ a.limit) (w : UInt64) : ∃ a', endCollection ⟨[r], w⟩ a = .ok () a' := by
  have hnext : ¬ r.addr < 1 := by
    have hpos := toNat_pos_iff.2 haddr
    rw [UInt64.lt_iff_toNat_lt, UInt64.toNat_one]
    omega
  have hgaps : freeGaps [r] 1 { a with free := [], freeWords := 0 }
      = .ok r.stop (release ⟨1, r.addr - 1⟩ { a with free := [], freeWords := 0 }) :=
    if_neg hnext
  have hpast :
      ¬ (release ⟨1, r.addr - 1⟩ { a with free := [], freeWords := 0 }).limit < r.stop := by
    rw [limit, release_words]
    exact UInt64.not_lt.2 hstop
  rw [endCollection, if_pos hc]
  simp only [hgaps]
  rw [if_neg hpast]
  exact ⟨_, rfl⟩

/-- Sixteen words: a region of nearly all words of the address space starts at word five and
    seems to stop at word two, in front of a region at word six.  Words two to four are freed
    twice, word five although it is alive, and the free words are more than there are. -/
example :
    let living : Living := ⟨[⟨5, 0xFFFFFFFFFFFFFFFD⟩, ⟨6, 1⟩], 0xFFFFFFFFFFFFFFFE⟩
    let swept := stateAfter (endCollection living ⟨Array.replicate 17 0, [], 0, true⟩)
    swept.collecting = false ∧ swept.free = [⟨1, 4⟩, ⟨2, 4⟩, ⟨7, 10⟩] ∧ swept.freeWords = 18 := by
  decide +kernel

end Arena

end TreeMachine
