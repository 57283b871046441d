import TreeMachine.Proofs.Types.Shape

/-! # Interning records

  A record is looked up among the types with its hash, and made where there is none.  Main
  statements: looking up finds a type exactly if the record is in the catalogue; making a
  record adds one type to the catalogue and touches nothing that was allocated before.
-/

namespace TreeMachine

open Arena (toNat_pos_iff)

theorem Record.words_injective {r r' : Record} (h : r.words = r'.words) : r = r' := by
  cases r <;> cases r' <;> simp_all [words]
  · exact Kind.word_injective h
  · exact absurd h.1 (by decide)
  · exact absurd h.1 (by decide)

namespace Heap

variable {h h' h'' : Heap} {c c' c'' : Catalogue} {t : Ty} {r : Record}

/-! ### Growing heaps -/

/-- The heap `h'` has the types of `h` and possibly more, and all that was allocated. -/
structure Extends (h : Heap) (c : Catalogue) (h' : Heap) (c' : Catalogue) : Prop where
  interned : h'.Interned c'
  grows : h.arena.Grows h'.arena
  scalars_eq : h'.types.scalars = h.types.scalars
  older : c <+: c'

theorem Extends.refl (hi : h.Interned c) : Extends h c h c :=
  ⟨hi, Arena.Grows.refl _, rfl, List.prefix_rfl⟩

theorem Extends.trans (hab : Extends h c h' c') (hbc : Extends h' c' h'' c'') :
    Extends h c h'' c'' :=
  ⟨hbc.interned, hab.grows.trans hbc.grows, hbc.scalars_eq.trans hab.scalars_eq,
    hab.older.trans hbc.older⟩

theorem Extends.mem (he : Extends h c h' c') {e : Ty × Record} (hmem : e ∈ c) : e ∈ c' :=
  he.older.subset hmem

theorem Extends.mem_handles (he : Extends h c h' c') (ht : t ∈ c.handles) : t ∈ c'.handles := by
  obtain ⟨r, hr⟩ := Catalogue.exists_record ht
  exact Catalogue.mem_handles (he.mem hr)

theorem Extends.shapes_eq (he : Extends h c h' c') (ht : t ∈ c.handles) :
    c'.shapes t = c.shapes t := by
  obtain ⟨rest, rfl⟩ := he.older
  exact Catalogue.shapes_append he.interned.valid ht

/-! ### Lookup -/

section Lookup

variable (hread : ∀ e ∈ c, h.typeRecord e.1 = .ok e.2.words)

include hread

theorem lookupIn_some {ws : List UInt64} {hash : UInt64}
    (hl : h.lookupIn hash ws (c.map fun e => (hashWords e.2.words, e.1)) = .ok (some t)) :
    ∃ r, (t, r) ∈ c ∧ r.words = ws := by
  induction c with
  | nil => cases hl
  | cons e rest ih =>
    have htail : h.lookupIn hash ws (rest.map fun e => (hashWords e.2.words, e.1))
        = .ok (some t) → ∃ r, (t, r) ∈ e :: rest ∧ r.words = ws := by
      intro hl
      obtain ⟨r, hr, hw⟩ := ih (fun e he => hread e (List.mem_cons_of_mem _ he)) hl
      exact ⟨r, List.mem_cons_of_mem _ hr, hw⟩
    simp only [List.map_cons, lookupIn] at hl
    split at hl
    · rw [except_bind_ok (hread e List.mem_cons_self)] at hl
      split at hl
      · cases hl
        exact ⟨e.2, List.mem_cons_self, by assumption⟩
      · exact htail hl
    · exact htail hl

theorem lookupIn_none
    (hl : h.lookupIn (hashWords r.words) r.words (c.map fun e => (hashWords e.2.words, e.1))
      = .ok none) : r ∉ c.records := by
  induction c with
  | nil => simp [Catalogue.records]
  | cons e rest ih =>
    have ih := ih fun e he => hread e (List.mem_cons_of_mem _ he)
    rw [Catalogue.records, List.map_cons, List.mem_cons, not_or]
    simp only [List.map_cons, lookupIn] at hl
    split at hl
    · rw [except_bind_ok (hread e List.mem_cons_self)] at hl
      split at hl
      · cases hl
      · rename_i hne
        exact ⟨fun heq => hne (by rw [heq]), ih hl⟩
    · rename_i hne
      exact ⟨fun heq => hne (by rw [heq]), ih hl⟩

/-- A record is looked up without a fault. -/
theorem lookupIn_ok (hash : UInt64) (ws : List UInt64) :
    ∃ o, h.lookupIn hash ws (c.map fun e => (hashWords e.2.words, e.1)) = .ok o := by
  induction c with
  | nil => exact ⟨none, rfl⟩
  | cons e rest ih =>
    obtain ⟨o, ho⟩ := ih fun e he => hread e (List.mem_cons_of_mem _ he)
    simp only [List.map_cons, lookupIn]
    split
    · rw [except_bind_ok (hread e List.mem_cons_self)]
      split
      · exact ⟨_, rfl⟩
      · exact ⟨o, ho⟩
    · exact ⟨o, ho⟩

/-- Looking up finds the type of a record, or the record is new. -/
theorem lookup_cases
    (hentries : h.types.entries = c.map fun e => (hashWords e.2.words, e.1)) (r : Record) :
    (∃ t, h.lookup r.words = .ok (some t) ∧ (t, r) ∈ c) ∨
      (h.lookup r.words = .ok none ∧ r ∉ c.records) := by
  obtain ⟨o, ho⟩ := lookupIn_ok hread (hashWords r.words) r.words
  rw [lookup, hentries]
  cases o with
  | none => exact Or.inr ⟨ho, lookupIn_none hread ho⟩
  | some t =>
    obtain ⟨r', hr', hw⟩ := lookupIn_some hread ho
    rw [Record.words_injective hw] at hr'
    exact Or.inl ⟨t, ho, hr'⟩

end Lookup

theorem Interned.lookup_cases (hi : h.Interned c) (r : Record) :
    (∃ t, h.lookup r.words = .ok (some t) ∧ (t, r) ∈ c) ∨
      (h.lookup r.words = .ok none ∧ r ∉ c.records) :=
  Heap.lookup_cases (fun _ he => hi.typeRecord_eq he) hi.entries_eq r

/-! ### Making a record -/

theorem onArena_ok {α : Type} {x : EStateM Fault Arena α} {v : α} {a' : Arena}
    (hx : x h.arena = .ok v a') : onArena x h = .ok v ⟨a', h.types⟩ := by
  obtain ⟨a, types⟩ := h
  simp only [onArena, hx]

theorem onArena_error {α : Type} {x : EStateM Fault Arena α} {f : Fault} {a' : Arena}
    (hx : x h.arena = .error f a') : onArena x h = .error f ⟨a', h.types⟩ := by
  obtain ⟨a, types⟩ := h
  simp only [onArena, hx]

/-- An operation of the arena leaves the index alone. -/
theorem onArena_yields {α : Type} {x : EStateM Fault Arena α} {Q : α → Arena → Prop}
    {E : Fault → Arena → Prop} (hx : Yields x h.arena Q E) :
    Yields (onArena x) h (fun a h' => Q a h'.arena ∧ h'.types = h.types)
      (fun f h' => E f h'.arena ∧ h'.types = h.types) := by
  cases hrun : x h.arena with
  | ok v a => exact Yields.of_ok (onArena_ok hrun) ⟨hx.ok hrun, rfl⟩
  | error f a => exact Yields.of_error (onArena_error hrun) ⟨hx.error hrun, rfl⟩

/-- The heap in which the record `r` is written at `t` and indexed; `a` is the arena. -/
def recorded (h : Heap) (a : Arena) (t : Ty) (r : Record) : Heap :=
  ⟨{ a with words := Arena.writeFrom a.words t.toNat r.words },
    { h.types with entries := h.types.entries ++ [(hashWords r.words, t)] }⟩

/-- A record in words that were free is a type more. -/
theorem Interned.snoc (hi : h.Interned c) (ha : c.Admits r) (hnew : r ∉ c.records) {a' : Arena}
    {n : UInt64} (hn : r.words.length = n.toNat) (hal : h.arena.Allocated n t a') :
    Extends h c (h.recorded a' t r) (c ++ [(t, r)]) := by
  have hgrows : h.arena.Grows { a' with words := Arena.writeFrom a'.words t.toNat r.words } := by
    have hstop := hal.region.stop_le
    refine hal.grows.write (by dsimp only at hstop; omega) ?_
    intro i hle hlt
    exact hal.was_free i ⟨hle, by dsimp only; omega⟩
  have howns := hal.owns_write hn
  -- The new words were free, so no older type can be there.
  have hfresh : t ∉ c.handles := by
    intro hmem
    obtain ⟨r', hr'⟩ := Catalogue.exists_record hmem
    have hpos := List.length_pos_iff.2 r'.words_ne_nil
    refine (hi.owns _ hr').taken 0 hpos (hal.was_free _ ⟨Nat.le_refl _, ?_⟩)
    have := hal.region.size_pos
    dsimp only at this ⊢
    omega
  refine ⟨⟨hal.sound.write _ _, ?_, ?_, .snoc hi.valid hfresh hnew ha⟩, hgrows, rfl,
    List.prefix_append _ _⟩
  · dsimp only [recorded]
    rw [hi.entries_eq, List.map_append]
    rfl
  · intro e he
    rcases List.mem_append.1 he with he | he
    · exact (hi.owns e he).grows hgrows
    · rw [List.mem_singleton.1 he]
      exact howns

theorem Record.length_words_toNat (hlen : r.words.length < 2 ^ 64) :
    r.words.length = (UInt64.ofNat r.words.length).toNat := by
  rw [UInt64.toNat_ofNat']
  omega

/-- A new record is written where words for it can be allocated; otherwise nothing changes. -/
theorem Interned.insertType_cases (hi : h.Interned c) (ha : c.Admits r)
    (hnew : r ∉ c.records) (hlen : r.words.length < 2 ^ 64) :
    (∃ t a', Arena.allocate (UInt64.ofNat r.words.length) h.arena = .ok t a' ∧
        h.arena.Allocated (UInt64.ofNat r.words.length) t a' ∧
        insertType r.words h = .ok t (h.recorded a' t r)) ∨
      ∃ v, Arena.allocate (UInt64.ofNat r.words.length) h.arena = .error (.broken v) h.arena ∧
        insertType r.words h = .error (.broken v) h := by
  have hn := Record.length_words_toNat hlen
  rcases Arena.allocate_cases hi.sound (UInt64.ofNat r.words.length) with
    ⟨t, a', halloc, hal⟩ | ⟨v, halloc⟩
  · refine Or.inl ⟨t, a', halloc, hal, ?_⟩
    have hext := hi.snoc ha hnew hn hal
    have hin := hal.region.stop_le
    dsimp only at hin
    have hset : Arena.setWords t r.words a' = .ok ()
        { a' with words := Arena.writeFrom a'.words t.toNat r.words } :=
      Arena.setWords_eq_ok hal.sound.sized hal.region.addr_pos (by rw [hal.size_eq]; omega)
    obtain ⟨text, htext⟩ := hext.interned.typeText_ok (t := t) (Or.inr (by
      simp [Catalogue.handles]))
    refine (bind_eq_ok (onArena_ok halloc)).trans ((bind_eq_ok (onArena_ok hset)).trans ?_)
    have hentry : addEntry t r.words ⟨{ a' with words := Arena.writeFrom a'.words t.toNat r.words },
        h.types⟩ = .ok () (h.recorded a' t r) := rfl
    exact (bind_eq_ok hentry).trans (bind_eq_ok (inspect_eq_ok htext))
  · exact Or.inr ⟨v, halloc, bind_eq_error (onArena_error halloc)⟩

/-- Making a new record adds it to the catalogue, unless there is no room for it. -/
theorem Interned.insertType_yields (hi : h.Interned c) (ha : c.Admits r)
    (hnew : r ∉ c.records) (hlen : r.words.length < 2 ^ 64) :
    Yields (insertType r.words) h
      (fun t h' => Extends h c h' (c ++ [(t, r)]) ∧
        ∀ k, h.arena.Room (r.words.length + k) → h'.arena.Room k)
      (fun _ h' => h' = h ∧
        (h.arena.collecting = false → ¬ h.arena.Room r.words.length)) := by
  have hn := Record.length_words_toNat hlen
  have hn0 : UInt64.ofNat r.words.length ≠ 0 := by
    have := List.length_pos_iff.2 r.words_ne_nil
    exact toNat_pos_iff.1 (by omega)
  rcases hi.insertType_cases ha hnew hlen with ⟨t, a', halloc, hal, hrun⟩ | ⟨v, halloc, hrun⟩
  · refine Yields.of_ok hrun ⟨hi.snoc ha hnew hn hal, ?_⟩
    intro k hroom
    have hc : h.arena.collecting = false := by
      by_contra hc
      rw [Bool.not_eq_false] at hc
      unfold Arena.allocate at halloc
      rw [if_pos hc] at halloc
      cases halloc
    obtain ⟨t', a'', halloc', -, hroom'⟩ := Arena.allocate_room hi.sound hc hn0
      (by rw [← hn]; exact hroom)
    rw [halloc] at halloc'
    cases halloc'
    exact hroom'
  · refine Yields.of_error hrun ⟨rfl, ?_⟩
    intro hc hroom
    obtain ⟨t', a'', halloc', -⟩ := Arena.allocate_room hi.sound hc hn0 (k := 0)
      (by rw [← hn]; exact hroom)
    rw [halloc] at halloc'
    cases halloc'

/-- A record is interned under the handle it has, or under a new one; nothing changes if it
    has one already. -/
theorem Interned.internRecord_yields (hi : h.Interned c) (ha : c.Admits r) {fresh : Bool}
    (hfresh : fresh = true → r ∉ c.records) (hlen : r.words.length < 2 ^ 64) :
    Yields (internRecord fresh r.words) h
      (fun p h' => (p.2 = false ∧ h' = h ∧ (p.1, r) ∈ c) ∨
        (p.2 = true ∧ Extends h c h' (c ++ [(p.1, r)]) ∧
          ∀ k, h.arena.Room (r.words.length + k) → h'.arena.Room k))
      (fun _ h' => h' = h ∧
        (h.arena.collecting = false → ¬ h.arena.Room r.words.length)) := by
  have hmake (hnew : r ∉ c.records) : Yields (do return (← insertType r.words, true)) h
      (fun p h' => (p.2 = false ∧ h' = h ∧ (p.1, r) ∈ c) ∨
        (p.2 = true ∧ Extends h c h' (c ++ [(p.1, r)]) ∧
          ∀ k, h.arena.Room (r.words.length + k) → h'.arena.Room k))
      (fun _ h' => h' = h ∧
        (h.arena.collecting = false → ¬ h.arena.Room r.words.length)) := by
    refine Yields.bind ((hi.insertType_yields ha hnew hlen).imp ?_)
    intro t h' hpost
    exact Or.inr ⟨rfl, hpost⟩
  cases fresh with
  | true => exact hmake (hfresh rfl)
  | false =>
    rcases hi.lookup_cases r with ⟨t, hl, hmem⟩ | ⟨hl, hnew⟩
    · refine Yields.bind_ok (inspect_eq_ok hl) ?_
      exact Or.inl ⟨rfl, rfl, hmem⟩
    · refine Yields.bind_ok (inspect_eq_ok hl) ?_
      exact hmake hnew

end Heap

end TreeMachine
