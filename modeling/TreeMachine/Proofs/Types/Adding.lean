import TreeMachine.Proofs.Types.Fitting
import TreeMachine.Proofs.Types.History

/-! # What making types leaves behind

  A new type takes free words for its record, and nothing else changes.  Main statements:
  the type of pointers to a type and the concatenation of two types are found, or one record
  is added, or nothing happens; and a heap to which types have been added differs by their
  records only, while all types that were there keep their handles.
-/

namespace TreeMachine

/-- Where the record of a type is. -/
def Catalogue.place (e : Ty × Record) : Region := ⟨e.1, UInt64.ofNat e.2.words.length⟩

/-- The word belongs to one of the records. -/
def Catalogue.Covers (c : Catalogue) (i : Nat) : Prop := ∃ e ∈ c, (Catalogue.place e).Has i

theorem Catalogue.covers_append {c c' : Catalogue} {i : Nat} :
    Covers (c ++ c') i ↔ c.Covers i ∨ c'.Covers i := by
  simp only [Covers, List.mem_append, or_and_right, exists_or]

theorem Catalogue.covers_singleton {e : Ty × Record} {i : Nat} :
    Covers [e] i ↔ (place e).Has i := by
  simp only [Covers, List.mem_singleton, exists_eq_left]

namespace Arena

/-- The records `new` lie apart from each other in words that were free in `a`, and other
    words are as they were, which gives `a'`. -/
structure Takes (a : Arena) (new : Catalogue) (a' : Arena) : Prop where
  was_free : ∀ i, new.Covers i → a.Free i
  apart : new.Pairwise fun e e' => ∀ i, (Catalogue.place e).Has i → ¬ (Catalogue.place e').Has i
  free_iff : ∀ i, a'.Free i ↔ a.Free i ∧ ¬ new.Covers i
  words_eq : ∀ i, ¬ new.Covers i → a'.words[i]? = a.words[i]?

namespace Takes

variable {a a' a'' : Arena} {new new' : Catalogue}

theorem refl (a : Arena) : a.Takes [] a := by
  have hnone : ∀ i, ¬ Catalogue.Covers [] i := by
    rintro i ⟨e, he, -⟩
    cases he
  exact ⟨fun i hi => absurd hi (hnone i), .nil, fun i => (and_iff_left (hnone i)).symm,
    fun _ _ => rfl⟩

theorem trans (h : a.Takes new a') (h' : a'.Takes new' a'') : a.Takes (new ++ new') a'' where
  was_free i hi := by
    rcases Catalogue.covers_append.1 hi with hi | hi
    · exact h.was_free i hi
    · exact ((h.free_iff i).1 (h'.was_free i hi)).1
  apart := by
    refine List.pairwise_append.2 ⟨h.apart, h'.apart, fun e he e' he' i hi hi' => ?_⟩
    -- The words of later records were still free after the earlier ones.
    exact ((h.free_iff i).1 (h'.was_free i ⟨e', he', hi'⟩)).2 ⟨e, he, hi⟩
  free_iff i := by
    rw [h'.free_iff, h.free_iff, Catalogue.covers_append, not_or, and_assoc]
  words_eq i hi := by
    rw [Catalogue.covers_append, not_or] at hi
    rw [h'.words_eq i hi.2, h.words_eq i hi.1]

/-- One record in allocated words. -/
theorem of_allocated {t : Ty} {r : Record}
    (hal : a.Allocated (UInt64.ofNat r.words.length) t a')
    (hlen : r.words.length = (UInt64.ofNat r.words.length).toNat) :
    a.Takes [(t, r)] { a' with words := writeFrom a'.words t.toNat r.words } where
  was_free i hi := hal.was_free i (Catalogue.covers_singleton.1 hi)
  apart := List.pairwise_singleton _ _
  free_iff i := by
    rw [Catalogue.covers_singleton]
    exact hal.free_iff i
  words_eq i hi := by
    have hstop := hal.region.stop_le
    dsimp only at hstop
    have hout : ¬ (t.toNat ≤ i ∧ i < t.toNat + r.words.length) := by
      rw [hlen]
      exact fun h => hi (Catalogue.covers_singleton.2 h)
    dsimp only
    rw [getElem?_writeFrom _ _ _ _ (by rw [hal.size_eq]; omega), if_neg hout, hal.words_eq,
      if_neg (by rwa [← hlen])]

end Takes

end Arena

namespace Heap

variable {h h' h'' : Heap} {c c' c'' : Catalogue} {t t' : Ty} {r : Record}

/-- The heap has grown by the records of types, and by nothing else. -/
structure Adds (h : Heap) (c : Catalogue) (h' : Heap) (c' : Catalogue) : Prop
    extends Extends h c h' c' where
  takes : ∃ new, c' = c ++ new ∧ h.arena.Takes new h'.arena

theorem Adds.refl (hi : h.Interned c) : Adds h c h c :=
  ⟨.refl hi, [], (List.append_nil c).symm, .refl _⟩

theorem Adds.trans (ha : Adds h c h' c') (ha' : Adds h' c' h'' c'') : Adds h c h'' c'' := by
  obtain ⟨new, rfl, htakes⟩ := ha.takes
  obtain ⟨new', rfl, htakes'⟩ := ha'.takes
  exact ⟨ha.toExtends.trans ha'.toExtends, new ++ new', List.append_assoc .., htakes.trans htakes'⟩

/-! ### Making types -/

/-- The record is found, or it is added, or nothing happens. -/
theorem Interned.internRecord_adds (hi : h.Interned c) (ha : c.Admits r)
    (hlen : r.words.length < 2 ^ 64) :
    Yields (internRecord false r.words) h
      (fun p h' => ∃ c', Adds h c h' c' ∧ (p.1, r) ∈ c')
      (fun e h' => e ≠ .endless ∧ h' = h) := by
  rcases hi.lookup_cases r with ⟨t, hl, hmem⟩ | ⟨hl, hnew⟩
  · exact Yields.bind_ok (inspect_eq_ok hl) ⟨c, .refl hi, hmem⟩
  refine Yields.bind_ok (inspect_eq_ok hl) (Yields.bind ?_)
  rcases hi.insertType_cases ha hnew hlen with ⟨t, a', -, hal, hrun⟩ | ⟨v, -, hrun⟩
  · have hn := Record.length_words_toNat hlen
    refine Yields.of_ok hrun ⟨c ++ [(t, r)], ⟨hi.snoc ha hnew hn hal, _, rfl, ?_⟩, by simp⟩
    exact .of_allocated hal hn
  · exact Yields.of_error hrun ⟨by simp, rfl⟩

theorem Interned.pointerTo_adds (hi : h.Interned c) (ht : c.Knows t) :
    Yields (pointerTo t) h (fun u h' => ∃ c', Adds h c h' c' ∧ c'.Knows u)
      (fun e h' => e ≠ .endless ∧ h' = h) := by
  rcases ht with rfl | ht
  · have hnull : pointerTo 0 h = .error (.broken (.invalidModel 0)) h := rfl
    exact Yields.of_error hnull ⟨by simp, rfl⟩
  · have hadm : c.Admits (.pointer t) := ht
    refine Yields.congr (hi.pointerTo_eq ht)
      (Yields.bind ((hi.internRecord_adds hadm (by simp [Record.words])).imp ?_))
    rintro ⟨u, made⟩ h' ⟨c', hadds, hmem⟩
    exact ⟨c', hadds, knows_of_mem hmem⟩

theorem Standard.concatenate_adds (hs : h.Standard c) (ht : c.Knows t) (ht' : c.Knows t') :
    Yields (concatenate [t, t']) h (fun u h' => ∃ c', Adds h c h' c' ∧ c'.Knows u)
      (fun e h' => e ≠ .endless ∧ h' = h) := by
  obtain ⟨ws, hws⟩ := exists_wideOf ht
  obtain ⟨ws', hws'⟩ := exists_wideOf ht'
  have hlen := hs.length_wideOf_lt ht ht' hws hws'
  rcases hs.concatenate_cases hs.records (.cons hws (.cons hws' .nil)) with
    ⟨u, hrun, hwide⟩ | ⟨hadm, heq⟩
  · exact Yields.of_ok hrun ⟨c, .refl hs.toInterned, (hs.width_wideOf hwide).1⟩
  · have hwords := Record.length_words_concat [ws, ws'].flatten
    refine Yields.congr heq (Yields.bind ((hs.internRecord_adds hadm (by omega)).imp ?_))
    rintro ⟨u, made⟩ h' ⟨c', hadds, hmem⟩
    exact ⟨c', hadds, knows_of_mem hmem⟩

/-! ### What is left -/

/-- A handle of `h` is the handle of the same type in `h'`: its record is the same one, and
    models that had the handle have it still. -/
structure SameType (h h' : Heap) (t : Ty) : Prop where
  mem_handles : t ∈ h'.handles
  record_eq : h'.typeRecord t = h.typeRecord t
  intern_eq : ∀ m : Model, m.RefsIn (· ∈ h.handles) → (m.normal h.shape?).Countable →
    intern m h = .ok t h → intern m h' = .ok t h'

/-- The heaps differ by new types only.  Their records are added to the index and take words
    that were free; everything else in the arena is as it was, and all types that were there
    keep their handles. -/
structure Grown (h : Heap) (new : Catalogue) (h' : Heap) : Prop where
  entries_eq : h'.types.entries = h.types.entries ++ new.map fun e => (hashWords e.2.words, e.1)
  scalars_eq : h'.types.scalars = h.types.scalars
  size_eq : h'.arena.words.size = h.arena.words.size
  collecting_eq : h'.arena.collecting = h.arena.collecting
  takes : h.arena.Takes new h'.arena
  record_eq : ∀ e ∈ new, h'.typeRecord e.1 = .ok e.2.words
  fresh : ∀ e ∈ new, ∀ t ∈ h.handles, h.typeRecord t ≠ .ok e.2.words
  same : ∀ t ∈ h.handles, SameType h h' t
  canonical : h'.Canonical

theorem Extends.sameType (he : Extends h c h' c') (hs : h.Standard c) (ht : t ∈ h.handles) :
    SameType h h' t := by
  rw [hs.handles_eq] at ht
  obtain ⟨r, hr⟩ := Catalogue.exists_record ht
  refine ⟨?_, ?_, fun m hrefs hcount hrun => ?_⟩
  · rw [he.interned.handles_eq]
    exact he.mem_handles ht
  · rw [he.interned.typeRecord_eq (he.mem hr), hs.typeRecord_eq hr]
  · rw [hs.handles_eq] at hrefs
    rw [hs.normal_eq hrefs] at hcount
    obtain ⟨c₁, he₁, hd⟩ := (hs.intern_yields hs.records hrefs hcount).ok hrun
    -- The model was known to `h`, so it is of the shape that its handle has there.
    have hshapes : c₁.shapes t = c.shapes t := he₁.shapes_eq ht
    have hd : c.Denotes t (m.normal c.shapes) := by
      rcases hd with ⟨h0, -⟩ | ⟨-, hshape⟩
      · exact absurd h0 (hs.ne_zero hr)
      · exact Or.inr ⟨ht, hshapes ▸ hshape⟩
    have hd' := hd.of_prefix he.interned.valid he.older
    have hrefs' : m.RefsIn (· ∈ c'.handles) := Model.RefsIn.mono (fun _ => he.mem_handles) m hrefs
    have hnormal : m.normal c'.shapes = m.normal c.shapes :=
      Model.normal_congr (fun _ ht => he.shapes_eq ht) m hrefs
    rw [← hnormal] at hd'
    exact he.interned.intern_known (he.records hs.records) hrefs' hd'

/-- A standard heap that has grown by types. -/
theorem Adds.grown (ha : Adds h c h' c') (hs : h.Standard c) :
    ∃ new, c' = c ++ new ∧ Grown h new h' := by
  obtain ⟨new, rfl, htakes⟩ := ha.takes
  have hi' := ha.interned
  refine ⟨new, rfl, ⟨?_, ha.scalars_eq, ha.grows.size_eq, ha.grows.collecting_eq, htakes,
    fun e he => ?_, fun e he t ht => ?_, fun t => ha.sameType hs, hi'.canonical⟩⟩
  · rw [hi'.entries_eq, hs.entries_eq, List.map_append]
  · exact hi'.typeRecord_eq (List.mem_append_right _ he)
  · rw [hs.handles_eq] at ht
    obtain ⟨r, hr⟩ := Catalogue.exists_record ht
    rw [hs.typeRecord_eq hr, ne_eq, Except.ok.injEq]
    intro heq
    -- Two types with one record would have one handle.
    have hmem : (e.1, r) ∈ c ++ new := by
      rw [Record.words_injective heq]
      exact List.mem_append_right _ he
    have hsame := hi'.valid.handle_unique (List.mem_append_left _ hr) hmem
    have hnodup := hi'.valid.nodup_handles
    rw [Catalogue.handles, List.map_append, List.nodup_append] at hnodup
    exact hnodup.2.2 t ht e.1 (List.mem_map_of_mem he) hsame

end Heap

end TreeMachine
