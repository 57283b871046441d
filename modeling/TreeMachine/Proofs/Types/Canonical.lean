import TreeMachine.Proofs.Types.Normal

/-! # Interning models

  Interning a model gives the one type whose shape is the normal form of the model.  Types
  that are made on the way are newer than all others, so the record around a new part
  cannot be there yet, and it is right to make it without a look.
-/

namespace TreeMachine

namespace Shape

mutual

/-- A word can count the members of each concatenation and the words of its record. -/
def Countable : Shape → Prop
  | .pointer target => target.Countable
  | .concat members => members.length + 2 < 2 ^ 64 ∧ AllCountable members
  | _ => True

/-- `Countable` for each shape of a list. -/
def AllCountable : List Shape → Prop
  | [] => True
  | s :: rest => s.Countable ∧ AllCountable rest

end

theorem allCountable_append {xs ys : List Shape} :
    AllCountable (xs ++ ys) ↔ AllCountable xs ∧ AllCountable ys := by
  induction xs with
  | nil => simp [AllCountable]
  | cons x rest ih => simp [AllCountable, ih, and_assoc]

/-- A part that is no concatenation counts as it does inside one. -/
theorem Countable.of_spread {s : Shape} (hs : ∀ ms, s ≠ .concat ms)
    (h : AllCountable s.spread) : s.Countable := by
  cases s with
  | void => trivial
  | plain w => trivial
  | pointer target => exact h.1
  | concat ms => exact absurd rfl (hs ms)

end Shape

namespace Catalogue

/-- The type `t` has the shape `s`; the empty type is the only one of the void shape. -/
def Denotes (c : Catalogue) (t : Ty) (s : Shape) : Prop :=
  (t = 0 ∧ s = .void) ∨ (t ∈ c.handles ∧ c.shapes t = some s)

variable {c : Catalogue} {t t' : Ty} {r : Record} {s : Shape}

/-- No record has the void shape. -/
theorem Valid.shapes_ne_void (hv : c.Valid) (ht : t ∈ c.handles) : c.shapes t ≠ some .void := by
  obtain ⟨r, hr⟩ := exists_record ht
  rw [hv.shapes_eq hr]
  cases r with
  | scalar k => simp [Record.shape]
  | pointer elem => simp [Record.shape]
  | concat ms => simp [Record.shape]

/-- A shape has one type. -/
theorem Denotes.inj (hv : c.Valid) (h : c.Denotes t s) (h' : c.Denotes t' s) : t = t' := by
  rcases h with ⟨rfl, rfl⟩ | ⟨ht, hs⟩ <;> rcases h' with ⟨rfl, hs'⟩ | ⟨ht', hs'⟩
  · rfl
  · exact absurd hs' (hv.shapes_ne_void ht')
  · exact absurd (hs'.symm ▸ hs) (hv.shapes_ne_void ht)
  · exact hv.shapes_inj ht ht' (hs.trans hs'.symm)

/-- A type has one shape. -/
theorem Denotes.unique (h0 : 0 ∉ c.handles) {s' : Shape} (h : c.Denotes t s)
    (h' : c.Denotes t s') : s = s' := by
  rcases h with ⟨rfl, rfl⟩ | ⟨ht, hs⟩ <;> rcases h' with ⟨h0', rfl⟩ | ⟨ht', hs'⟩
  · rfl
  · exact absurd ht' h0
  · exact absurd (h0' ▸ ht) h0
  · exact Option.some.inj (hs.symm.trans hs')

/-- A type keeps its shape when others are added. -/
theorem Denotes.of_prefix {c' : Catalogue} (hd : c.Denotes t s) (hv : c'.Valid)
    (hle : c <+: c') : c'.Denotes t s := by
  rcases hd with hd | ⟨ht, hs⟩
  · exact Or.inl hd
  · obtain ⟨rest, rfl⟩ := hle
    refine Or.inr ⟨?_, (shapes_append hv ht).trans hs⟩
    rw [handles, List.map_append]
    exact List.mem_append_left _ ht

theorem allCountable_of_shapesOf {f : Ty → Option Shape} {ts : List Ty} {ss : List Shape}
    (hts : ∀ t ∈ ts, ∀ s, f t = some s → s.Countable) (h : shapesOf f ts = some ss) :
    Shape.AllCountable ss := by
  induction ts generalizing ss with
  | nil =>
    cases h
    trivial
  | cons t rest ih =>
    obtain ⟨s, tail, hs, htail, rfl⟩ := shapesOf_cons_eq_some h
    exact ⟨hts t List.mem_cons_self s hs,
      ih (fun t ht => hts t (List.mem_cons_of_mem _ ht)) htail⟩

/-- The shapes of types with records that can be counted. -/
theorem Valid.countable (hv : c.Valid) (hlen : ∀ e ∈ c, e.2.words.length < 2 ^ 64)
    (ht : t ∈ c.handles) (hs : c.shapes t = some s) : s.Countable := by
  induction hv generalizing t s with
  | nil => cases ht
  | @snoc c₁ t₁ r₁ hc₁ ht₁ hr₁ ha ih =>
    have ih' := fun t ht s => ih (t := t) (s := s) (fun e he => hlen e (by simp [he])) ht
    rw [shapes_snoc] at hs
    split at hs
    · have hparts := fun p hp => ih' p (ha.parts p hp)
      have hwords := hlen (t₁, r₁) (by simp)
      cases r₁ with
      | scalar k =>
        cases hs
        trivial
      | pointer elem =>
        obtain ⟨s', hs', rfl⟩ := Option.map_eq_some_iff.1 hs
        exact hparts elem (List.mem_singleton_self _) s' hs'
      | concat ms =>
        obtain ⟨ss, hss, rfl⟩ := Option.map_eq_some_iff.1 hs
        refine ⟨?_, allCountable_of_shapesOf hparts hss⟩
        rw [← length_shapesOf hss]
        simpa [Record.words] using hwords
    · rename_i hne
      rw [handles, List.map_append, List.mem_append] at ht
      rcases ht with ht | ht
      · exact ih' t ht s hs
      · exact absurd (List.mem_singleton.1 ht) hne

/-- The record of a type whose shape is no concatenation. -/
theorem Valid.record_of_shape (hv : c.Valid) (he : (t, r) ∈ c) (hs : c.shapes t = some s) :
    (∀ ms, s ≠ .concat ms) → ∀ ms, r ≠ .concat ms := by
  rintro hne ms rfl
  rw [hv.shapes_eq he] at hs
  obtain ⟨ss, -, hss⟩ := Option.map_eq_some_iff.1 hs
  exact hne ss hss.symm

end Catalogue

namespace Heap

variable {h h₁ h' : Heap} {c c₁ c' : Catalogue} {t : Ty} {s : Shape}

open Catalogue (Denotes)

/-- A part of a concatenation has words exactly if it brings itself as a member. -/
theorem Interned.size_part (hi : h.Interned c) (hd : c.Denotes t s) (hs : ∀ ms, s ≠ .concat ms) :
    ∃ n, h.size t = .ok n ∧ (n = 0 → s.spread = []) ∧
      (n ≠ 0 → s.spread = [s] ∧ ∃ r, (t, r) ∈ c ∧ r.isMember = true) := by
  rcases hd with ⟨rfl, rfl⟩ | ⟨ht, hshape⟩
  · exact ⟨0, size_zero h, fun _ => rfl, fun h => absurd rfl h⟩
  · obtain ⟨r, hr⟩ := Catalogue.exists_record ht
    have hne := hi.valid.record_of_shape hr hshape hs
    refine ⟨r.memberSize, hi.size_member hr hne, ?_, ?_⟩
    · intro h0
      rw [hi.valid.shapes_eq hr] at hshape
      cases r with
      | scalar k => cases k <;> cases hshape <;> first | rfl | cases h0
      | pointer elem => cases h0
      | concat ms => cases h0
    · intro hn
      have hmem : r.isMember = true := by
        cases r with
        | scalar k => cases k <;> first | rfl | exact absurd rfl hn
        | pointer elem => rfl
        | concat ms => exact absurd rfl (hne ms)
      obtain ⟨s', hs', hspread⟩ := hi.valid.spread_member hr hmem
      rw [hshape] at hs'
      cases hs'
      exact ⟨hspread, r, hr, hmem⟩

/-- What interning a model of shape `s` has done. -/
structure Made (h : Heap) (c : Catalogue) (s : Shape) (p : Ty × Bool) (h' : Heap)
    (c' : Catalogue) : Prop where
  ext : Extends h c h' c'
  same : p.2 = false → h' = h ∧ c' = c
  newest : p.2 = true → ∃ older r, c' = older ++ [(p.1, r)] ∧ c <+: older
  denotes : c'.Denotes p.1 s

/-- What interning the parts of a concatenation has done: `ss` are the shapes of the parts
    that have words. -/
structure MadeAll (h : Heap) (c : Catalogue) (ss : List Shape) (p : List Ty × Bool) (h' : Heap)
    (c' : Catalogue) : Prop where
  ext : Extends h c h' c'
  same : p.2 = false → h' = h ∧ c' = c
  newest : p.2 = true → ∃ older t r, c' = older ++ [(t, r)] ∧ c <+: older ∧ t ∈ p.1
  members : ∀ t ∈ p.1, ∃ r, (t, r) ∈ c' ∧ r.isMember = true
  shapes : shapesOf c'.shapes p.1 = some ss

theorem MadeAll.nil (hi : h.Interned c) : MadeAll h c [] ([], false) h c :=
  ⟨.refl hi, fun _ => ⟨rfl, rfl⟩, fun h => (nomatch h), fun _ h => (nomatch h), rfl⟩

/-- A part that was just made has words: the only scalar without words is known already. -/
theorem Made.isMember (hm : Made h c s (t, true) h' c')
    (hdnr : .scalar .doesNotReturn ∈ c.records) (hs : ∀ ms, s ≠ .concat ms) :
    ∃ r, (t, r) ∈ c' ∧ r.isMember = true := by
  obtain ⟨older, r, hc, hle⟩ := hm.newest rfl
  have hmem : (t, r) ∈ c' := by rw [hc]; simp
  have hv := hm.ext.interned.valid
  have hshape : c'.shapes t = some s := by
    rcases hm.denotes with ⟨h0, -⟩ | ⟨-, hshape⟩
    · exact absurd h0 (hm.ext.interned.ne_zero hmem)
    · exact hshape
  have hne := hv.record_of_shape hmem hshape hs
  refine ⟨r, hmem, ?_⟩
  cases r with
  | scalar k =>
    refine decide_eq_true fun heq => ?_
    subst heq
    have hnodup := hv.nodup_records
    rw [hc, Catalogue.records, List.map_append, List.nodup_append] at hnodup
    refine hnodup.2.2 _ ?_ _ (List.mem_singleton_self _) rfl
    exact (hle.map _).subset hdnr
  | pointer elem => rfl
  | concat ms => exact absurd rfl (hne ms)

theorem MadeAll.cons {b b' : Bool} {ts : List Ty} {ss : List Shape} {n : UInt64}
    (hm : Made h c s (t, b) h₁ c₁) (hrest : MadeAll h₁ c₁ ss (ts, b') h' c')
    (hdnr : .scalar .doesNotReturn ∈ c.records) (hs : ∀ ms, s ≠ .concat ms)
    (hn : h₁.size t = .ok n) :
    MadeAll h c (s.spread ++ ss) (if n = 0 then ts else t :: ts, b || b') h' c' := by
  obtain ⟨n', hn', hnarrow, hwide⟩ := hm.ext.interned.size_part hm.denotes hs
  cases hn.symm.trans hn'
  have hmade : b = true → n ≠ 0 := by
    rintro rfl h0
    obtain ⟨r, hr, hmem⟩ := hm.isMember hdnr hs
    rw [hm.ext.interned.size_member hr (isMember_ne_concat hmem)] at hn
    cases hn
    have := memberSize_pos hmem
    rw [h0] at this
    exact absurd this (by decide)
  have hin : ∀ u ∈ ts, u ∈ (if n = 0 then ts else t :: ts) := by
    intro u hu
    split
    · exact hu
    · exact List.mem_cons_of_mem _ hu
  refine ⟨hm.ext.trans hrest.ext, ?_, ?_, ?_, ?_⟩
  · intro hb
    obtain ⟨rfl, rfl⟩ := Bool.or_eq_false_iff.1 hb
    obtain ⟨rfl, rfl⟩ := hm.same rfl
    exact hrest.same rfl
  · intro hb
    cases b' with
    | true =>
      obtain ⟨older, u, r, hc, hle, hu⟩ := hrest.newest rfl
      exact ⟨older, u, r, hc, hm.ext.older.trans hle, hin u hu⟩
    | false =>
      -- Nothing was made after `t`, which is still the newest.
      have hb : b = true := by simpa using hb
      subst hb
      obtain ⟨rfl, rfl⟩ := hrest.same rfl
      obtain ⟨older, r, hc, hle⟩ := hm.newest rfl
      refine ⟨older, t, r, hc, hle, ?_⟩
      rw [if_neg (hmade rfl)]
      exact List.mem_cons_self
  · intro u hu
    dsimp only at hu
    split at hu
    · exact hrest.members u hu
    · rename_i hne
      rcases List.mem_cons.1 hu with rfl | hu
      · obtain ⟨-, r, hr, hmem⟩ := hwide hne
        exact ⟨r, hrest.ext.mem hr, hmem⟩
      · exact hrest.members u hu
  · dsimp only
    split
    · rename_i h0
      rw [hnarrow h0]
      exact hrest.shapes
    · rename_i hne
      obtain ⟨hspread, r, hr, hmem⟩ := hwide hne
      have hshape : c'.shapes t = some s := by
        rcases hm.denotes.of_prefix hrest.ext.interned.valid hrest.ext.older with
          ⟨h0, -⟩ | ⟨-, hshape⟩
        · exact absurd h0 (hm.ext.interned.ne_zero hr)
        · exact hshape
      rw [hspread]
      simp [shapesOf, hshape, show shapesOf c'.shapes ts = some ss from hrest.shapes]

/-! ### Models -/

/-- Interning the record around parts that may be new. -/
theorem Extends.internRecord_yields {r : Record} {fresh : Bool} (he : Extends h c h₁ c₁)
    (hsame : fresh = false → h₁ = h ∧ c₁ = c) (ha : c₁.Admits r)
    (hfresh : fresh = true → r ∉ c₁.records) (hlen : r.words.length < 2 ^ 64)
    (hs : r.shape c₁.shapes = some s) :
    Yields (internRecord fresh r.words) h₁ (fun p h' => ∃ c', Made h c s p h' c')
      (fun _ h' => ∃ c', Extends h c h' c') := by
  refine (he.interned.internRecord_yields ha hfresh hlen).mono ?_ ?_
  · rintro ⟨t, made⟩ h' (⟨rfl, rfl, hmem⟩ | ⟨rfl, hext, -⟩)
    · have hold : fresh = false := by
        cases fresh with
        | false => rfl
        | true => exact absurd (Catalogue.mem_records hmem) (hfresh rfl)
      refine ⟨c₁, he, fun _ => hsame hold, fun h => (nomatch h), Or.inr ?_⟩
      exact ⟨Catalogue.mem_handles hmem, by rw [he.interned.valid.shapes_eq hmem, hs]⟩
    · refine ⟨c₁ ++ [(t, r)], he.trans hext, fun h => (nomatch h), ?_, Or.inr ⟨?_, ?_⟩⟩
      · exact fun _ => ⟨c₁, r, rfl, he.older⟩
      · simp [Catalogue.handles]
      · rw [Catalogue.shapes_snoc, if_pos rfl, hs]
  · rintro f h' ⟨rfl, -⟩
    exact ⟨c₁, he⟩

/-- Interning `m` in any heap with the types it refers to gives the type of its shape; where
    it stops half way, some types may have been added. -/
def Works (f : Model → HeapM (Ty × Bool)) (m : Model) : Prop :=
  ∀ {h : Heap} {c : Catalogue}, h.Interned c → .scalar .doesNotReturn ∈ c.records →
    m.RefsIn (· ∈ c.handles) → (m.normal c.shapes).Countable →
    Yields (f m) h (fun p h' => ∃ c', Made h c (m.normal c.shapes) p h' c')
      (fun _ h' => ∃ c', Extends h c h' c')

theorem Extends.records (he : Extends h c h' c') {r : Record} (hr : r ∈ c.records) :
    r ∈ c'.records :=
  (he.older.map _).subset hr

theorem Extends.normalAll_eq (he : Extends h c h' c') {ms : List Model}
    (hms : Model.AllRefsIn (· ∈ c.handles) ms) :
    Model.normalAll c'.shapes ms = Model.normalAll c.shapes ms :=
  Model.normalAll_congr (fun _ ht => he.shapes_eq ht) ms hms

theorem Extends.single (he : Extends h c h' c') {m : Model} (hm : m.Single c) : m.Single c' := by
  cases m with
  | canonical t =>
    obtain ⟨r, hr, hne⟩ := hm
    exact ⟨r, he.mem hr, hne⟩
  | empty => exact hm
  | concat ms => exact hm
  | _ => trivial

/-- A single part is no concatenation. -/
theorem Interned.normal_ne_concat (hi : h.Interned c) {m : Model} (hm : m.Single c)
    (ms : List Shape) : m.normal c.shapes ≠ .concat ms := by
  cases m with
  | canonical t =>
    obtain ⟨r, hr, hne⟩ := hm
    rw [Model.normal, hi.valid.shapes_eq hr]
    cases r with
    | scalar k => simp [Record.shape]
    | pointer elem => cases hx : c.shapes elem <;> simp [Record.shape, hx]
    | concat ms => exact absurd rfl (hne ms)
  | empty => exact hm.elim
  | concat ms => exact hm.elim
  | _ => simp [Model.normal]

theorem Interned.internMembers_yields {f : Model → HeapM (Ty × Bool)} {flat : List Model}
    (hf : ∀ m ∈ flat, Works f m) (hi : h.Interned c)
    (hdnr : .scalar .doesNotReturn ∈ c.records)
    (hrefs : Model.AllRefsIn (· ∈ c.handles) flat) (hsingle : ∀ m ∈ flat, m.Single c)
    (hcount : Shape.AllCountable (Model.normalAll c.shapes flat)) :
    Yields (internMembers f flat) h
      (fun p h' => ∃ c', MadeAll h c (Model.normalAll c.shapes flat) p h' c')
      (fun _ h' => ∃ c', Extends h c h' c') := by
  induction flat generalizing h c with
  | nil => exact ⟨c, .nil hi⟩
  | cons m rest ih =>
    have hne := hi.normal_ne_concat (hsingle m List.mem_cons_self)
    have hcounts := Shape.allCountable_append.1 hcount
    refine Yields.bind ((hf m List.mem_cons_self hi hdnr hrefs.1
      (.of_spread hne hcounts.1)).imp ?_)
    rintro ⟨t, made⟩ h₁ ⟨c₁, hm⟩
    have hi₁ := hm.ext.interned
    obtain ⟨n, hn, -⟩ := hi₁.size_part hm.denotes hne
    have heq := hm.ext.normalAll_eq hrefs.2
    refine Yields.bind_ok (inspect_eq_ok hn) (Yields.bind ?_)
    refine (ih (fun m hm => hf m (List.mem_cons_of_mem _ hm)) hi₁ (hm.ext.records hdnr)
      (Model.AllRefsIn.mono (fun _ => hm.ext.mem_handles) rest hrefs.2)
      (fun m hmem => hm.ext.single (hsingle m (List.mem_cons_of_mem _ hmem)))
      (by rw [heq]; exact hcounts.2)).mono ?_ ?_
    · rintro ⟨ts, madeRest⟩ h₂ ⟨c₂, hrest⟩
      rw [heq] at hrest
      exact ⟨c₂, .cons hm hrest hdnr hne hn⟩
    · rintro _ h₂ ⟨c₂, hext⟩
      exact ⟨c₂, hm.ext.trans hext⟩

/-- A record around the newest type is new. -/
theorem not_mem_records_of_newest {older : Catalogue} {t : Ty} {r r' : Record}
    (hv : Catalogue.Valid (older ++ [(t, r)])) (ht : t ∈ r'.parts) :
    r' ∉ Catalogue.records (older ++ [(t, r)]) := by
  intro hmem
  obtain ⟨⟨t', _⟩, he, rfl⟩ := List.mem_map.1 hmem
  exact hv.newest_not_part he ht

theorem internWithin_pointer {depth : Nat} {target : Model} (hne : target ≠ .empty) :
    internWithin (depth + 1) (.pointer target) = (do
      let (elem, fresh) ← internWithin depth target
      if elem = 0 then throw (.broken .pointerToEmpty)
      internRecord fresh [Kind.pointer.word, elem]) := by
  cases target <;> first | rfl | exact absurd rfl hne

theorem internWithin_pointer_works {depth : Nat} {target : Model}
    (ih : Works (internWithin depth) target) :
    Works (internWithin (depth + 1)) (.pointer target) := by
  intro h c hi hdnr hrefs hcount
  by_cases hempty : target = .empty
  · subst hempty
    exact ⟨c, .refl hi⟩
  · rw [internWithin_pointer hempty]
    refine Yields.bind ((ih hi hdnr hrefs hcount).imp ?_)
    rintro ⟨elem, fresh⟩ h₁ ⟨c₁, hm⟩
    by_cases h0 : elem = 0
    · dsimp only
      rw [if_pos h0]
      exact ⟨c₁, hm.ext⟩
    · dsimp only
      rw [if_neg h0]
      have hv := hm.ext.interned.valid
      rcases hm.denotes with ⟨h0', -⟩ | ⟨helem, hshape⟩
      · exact absurd h0' h0
      · refine Extends.internRecord_yields (r := .pointer elem) hm.ext hm.same helem ?_
          (by simp [Record.words]) (by simp only [Record.shape]; rw [hshape]; rfl)
        intro hfresh
        obtain ⟨older, r, rfl, -⟩ := hm.newest hfresh
        exact not_mem_records_of_newest hv (List.mem_singleton_self _)

/-- A scalar refers to no other type, so any heap will do. -/
theorem Interned.internWithin_plain (hi : h.Interned c) {depth : Nat} (w : UInt64) :
    Yields (internWithin (depth + 1) (.plain w)) h
      (fun p h' => ∃ c', Made h c (.plain w) p h' c') (fun _ h' => ∃ c', Extends h c h' c') := by
  rw [internWithin]
  cases hk : Kind.ofWord? w with
  | none => exact ⟨c, .refl hi⟩
  | some k =>
    have hw := Kind.word_of_ofWord? hk
    cases hscalar : k.isScalar with
    | false =>
      simp only [hscalar]
      exact ⟨c, .refl hi⟩
    | true =>
      subst hw
      simp only [hscalar, if_true]
      exact Extends.internRecord_yields (r := .scalar k) (.refl hi) (fun _ => ⟨rfl, rfl⟩) hscalar
        (fun h => (nomatch h)) (by simp [Record.words]) rfl

theorem internWithin_concat_works {depth : Nat} {members : List Model}
    (ih : ∀ m, Works (internWithin depth) m) :
    Works (internWithin (depth + 1)) (.concat members) := by
  intro h c hi hdnr hrefs hcount
  obtain ⟨flat, hflat, hf⟩ := hi.flattenAll_ok members hrefs
  obtain ⟨hlen, hcounts⟩ : (Model.normalAll c.shapes members).length + 2 < 2 ^ 64 ∧
      Shape.AllCountable (Model.normalAll c.shapes members) := hcount
  rw [Model.normal, hf.normal_eq]
  rw [hf.normal_eq] at hlen hcounts
  rw [internWithin]
  refine Yields.bind_ok (inspect_eq_ok hflat) (Yields.bind ?_)
  refine (hi.internMembers_yields (fun m _ => ih m) hdnr hf.refs hf.single hcounts).imp ?_
  rintro ⟨ts, fresh⟩ h₁ ⟨c₁, hm⟩
  have hv := hm.ext.interned.valid
  by_cases hthin : ts.length < 2
  · dsimp only
    rw [if_pos hthin]
    exact ⟨c₁, hm.ext⟩
  · dsimp only
    rw [if_neg hthin]
    have hts : ts.length = (Model.normalAll c.shapes flat).length := length_shapesOf hm.shapes
    refine Extends.internRecord_yields (r := .concat ts) hm.ext hm.same
      ⟨by omega, hm.members⟩ ?_ ?_ (congrArg (Option.map Shape.concat) hm.shapes)
    · intro hfresh
      obtain ⟨older, t, r, rfl, -, ht⟩ := hm.newest hfresh
      exact not_mem_records_of_newest hv ht
    · simp only [Record.words, List.length_cons]
      omega

/-- Interning a model gives the type of its normal form. -/
theorem internWithin_works (depth : Nat) (m : Model) : Works (internWithin depth) m := by
  induction depth generalizing m with
  | zero => exact fun {h c} hi _ _ _ => ⟨c, .refl hi⟩
  | succ depth ih =>
    cases m with
    | empty =>
      intro h c hi _ _ _
      exact ⟨c, .refl hi, fun _ => ⟨rfl, rfl⟩, fun h => (nomatch h), Or.inl ⟨rfl, rfl⟩⟩
    | canonical t =>
      intro h c hi _ ht _
      obtain ⟨s, hs⟩ := hi.valid.shapes_isSome ht
      refine ⟨c, .refl hi, fun _ => ⟨rfl, rfl⟩, fun h => (nomatch h), Or.inr ⟨ht, ?_⟩⟩
      rw [Model.normal, hs, Option.getD_some]
    | pointer target => exact internWithin_pointer_works (ih target)
    | concat members => exact internWithin_concat_works ih
    | plain w => exact fun {h c} hi _ _ _ => hi.internWithin_plain w

/-- Interning either gives the type of the model's normal form, or stops; types may have
    been added in both cases, and nothing else has changed. -/
theorem Interned.intern_yields (hi : h.Interned c) (hdnr : .scalar .doesNotReturn ∈ c.records)
    {m : Model} (hrefs : m.RefsIn (· ∈ c.handles)) (hcount : (m.normal c.shapes).Countable) :
    Yields (intern m) h
      (fun t h' => ∃ c', Extends h c h' c' ∧ c'.Denotes t (m.normal c.shapes))
      (fun _ h' => ∃ c', Extends h c h' c') := by
  refine Yields.bind ((internWithin_works m.depth m hi hdnr hrefs hcount).imp ?_)
  rintro ⟨t, made⟩ h' ⟨c', hm⟩
  exact ⟨c', hm.ext, hm.denotes⟩

/-! ### Known models -/

/-- A known record is found, and nothing is made. -/
theorem Interned.internRecord_known (hi : h.Interned c) {r : Record} (he : (t, r) ∈ c) :
    internRecord false r.words h = .ok (t, false) h := by
  rcases hi.lookup_cases r with ⟨t', hl, hmem⟩ | ⟨-, hnew⟩
  · cases hi.valid.handle_unique he hmem
    have hpeek : peek (·.lookup r.words) h = .ok (some t) h := inspect_eq_ok hl
    exact bind_eq_ok hpeek
  · exact absurd (Catalogue.mem_records he) hnew

/-- A single part has no words or brings itself. -/
theorem Interned.spread_single (hi : h.Interned c) {m : Model} (hm : m.Single c) :
    m.normal c.shapes = .plain Kind.doesNotReturn.word ∨
      (m.normal c.shapes).spread = [m.normal c.shapes] := by
  cases hs : m.normal c.shapes with
  | void =>
    cases m with
    | canonical t =>
      obtain ⟨r, hr, -⟩ := hm
      have ht := Catalogue.mem_handles hr
      obtain ⟨s, hshape⟩ := hi.valid.shapes_isSome ht
      rw [Model.normal, hshape, Option.getD_some] at hs
      exact absurd (hs ▸ hshape) (hi.valid.shapes_ne_void ht)
    | empty => exact hm.elim
    | concat ms => exact hm.elim
    | pointer target => simp [Model.normal] at hs
    | plain w => simp [Model.normal] at hs
  | plain w =>
    by_cases hw : w = Kind.doesNotReturn.word
    · exact Or.inl (congrArg _ hw)
    · exact Or.inr (if_neg hw)
  | pointer target => exact Or.inr rfl
  | concat ms => exact absurd hs (hi.normal_ne_concat hm ms)

theorem Interned.internMembers_known {f : Model → HeapM (Ty × Bool)} {flat : List Model}
    {ts : List Ty} (hi : h.Interned c) (hdnr : .scalar .doesNotReturn ∈ c.records)
    (hsingle : ∀ m ∈ flat, m.Single c)
    (hf : ∀ m ∈ flat, ∀ t ∈ c.handles, c.shapes t = some (m.normal c.shapes) →
      f m h = .ok (t, false) h)
    (hts : ∀ t ∈ ts, ∃ r, (t, r) ∈ c ∧ r.isMember = true)
    (hs : shapesOf c.shapes ts = some (Model.normalAll c.shapes flat)) :
    internMembers f flat h = .ok (ts, false) h := by
  induction flat generalizing ts with
  | nil =>
    have := length_shapesOf hs
    rw [List.eq_nil_of_length_eq_zero this]
    rfl
  | cons m rest ih =>
    have hrest := fun ts => @ih ts (fun m hm => hsingle m (List.mem_cons_of_mem _ hm))
      (fun m hm => hf m (List.mem_cons_of_mem _ hm))
    -- The answer for `m` and for the rest, put together.
    have hstep : ∀ {t : Ty} {n : UInt64} {ts' : List Ty}, f m h = .ok (t, false) h →
        h.size t = .ok n → internMembers f rest h = .ok (ts', false) h →
        internMembers f (m :: rest) h = .ok (if n = 0 then ts' else t :: ts', false) h := by
      intro t n ts' hm hn hr
      have hpeek : peek (·.size t) h = .ok n h := inspect_eq_ok hn
      rw [internMembers, bind_eq_ok hm]
      exact (bind_eq_ok hpeek).trans (bind_eq_ok hr)
    rw [Model.normalAll] at hs
    rcases hi.spread_single (hsingle m List.mem_cons_self) with hm | hm
    · obtain ⟨⟨t, r⟩, ht, hr⟩ := List.mem_map.1 hdnr
      cases hr
      have hshape : c.shapes t = some (m.normal c.shapes) := by
        rw [hm, hi.valid.shapes_eq ht]
        rfl
      rw [hm] at hs
      exact hstep (hf m List.mem_cons_self t (Catalogue.mem_handles ht) hshape)
        (hi.size_member ht fun ms h => (nomatch h)) (hrest ts hts hs)
    · rw [hm] at hs
      cases ts with
      | nil => cases hs
      | cons t ts' =>
        obtain ⟨s, tail, hshape, htail, heq⟩ := shapesOf_cons_eq_some hs
        cases heq
        obtain ⟨r, hr, hmem⟩ := hts t List.mem_cons_self
        have hsize := hi.size_member hr (isMember_ne_concat hmem)
        have hpos := Arena.toNat_pos_iff.1 (memberSize_pos hmem)
        have := hstep (hf m List.mem_cons_self t (Catalogue.mem_handles hr) hshape) hsize
          (hrest ts' (fun t ht => hts t (List.mem_cons_of_mem _ ht)) htail)
        rwa [if_neg hpos] at this

/-- A model whose normal form is known is found, and nothing is made. -/
theorem Interned.internWithin_known (hi : h.Interned c)
    (hdnr : .scalar .doesNotReturn ∈ c.records) {depth : Nat} {m : Model}
    (hd : m.depth ≤ depth) (hrefs : m.RefsIn (· ∈ c.handles)) (ht : t ∈ c.handles)
    (hs : c.shapes t = some (m.normal c.shapes)) :
    internWithin depth m h = .ok (t, false) h := by
  obtain ⟨r, hr⟩ := Catalogue.exists_record ht
  induction depth generalizing m t r with
  | zero =>
    have := m.depth_pos
    omega
  | succ depth ih =>
    have hshape := hs
    rw [hi.valid.shapes_eq hr] at hshape
    cases m with
    | empty => exact absurd hs (hi.valid.shapes_ne_void ht)
    | canonical t' =>
      obtain ⟨s', hs'⟩ := hi.valid.shapes_isSome hrefs
      rw [Model.normal, hs', Option.getD_some] at hs
      cases hi.valid.shapes_inj ht hrefs (hs.trans hs'.symm)
      rfl
    | plain w =>
      cases r with
      | scalar k =>
        simp only [Record.shape, Model.normal, Option.some.injEq, Shape.plain.injEq] at hshape
        subst hshape
        have hscalar : k.isScalar = true := hi.valid.admits hr
        simp only [internWithin, Kind.ofWord?_word, hscalar, if_true]
        exact hi.internRecord_known hr
      | pointer elem => simp [Record.shape, Model.normal] at hshape
      | concat ms => simp [Record.shape, Model.normal] at hshape
    | pointer target =>
      cases r with
      | scalar k => simp [Record.shape, Model.normal] at hshape
      | concat ms => simp [Record.shape, Model.normal] at hshape
      | pointer elem =>
        have helem : elem ∈ c.handles := hi.valid.admits hr
        obtain ⟨s', hs', heq⟩ := Option.map_eq_some_iff.1 hshape
        cases heq
        have hne : target ≠ .empty := by
          rintro rfl
          exact hi.valid.shapes_ne_void helem hs'
        obtain ⟨r', hr'⟩ := Catalogue.exists_record helem
        simp only [Model.depth] at hd
        rw [internWithin_pointer hne,
          bind_eq_ok (ih (m := target) (by omega) hrefs helem hs' r' hr')]
        dsimp only
        rw [if_neg (hi.ne_zero hr')]
        exact hi.internRecord_known hr
    | concat members =>
      cases r with
      | scalar k => simp [Record.shape, Model.normal] at hshape
      | pointer elem => simp [Record.shape, Model.normal] at hshape
      | concat ts =>
        obtain ⟨ss, hss, heq⟩ := Option.map_eq_some_iff.1 hshape
        cases heq
        obtain ⟨hlen, hts⟩ := hi.valid.admits hr
        obtain ⟨flat, hflat, hf⟩ := hi.flattenAll_ok members hrefs
        rw [hf.normal_eq] at hss
        simp only [Model.depth] at hd
        have hall : internMembers (internWithin depth) flat h = .ok (ts, false) h := by
          refine hi.internMembers_known hdnr hf.single ?_ hts hss
          intro m hm u hu hus
          obtain ⟨ru, hru⟩ := Catalogue.exists_record hu
          have := hf.depth_le m hm
          exact ih (by omega) (hf.refs.of_mem hm) hu hus ru hru
        have hpeek : peek (Model.flattenAll · members) h = .ok flat h := inspect_eq_ok hflat
        rw [internWithin, bind_eq_ok hpeek, bind_eq_ok hall]
        dsimp only
        rw [if_neg (by omega)]
        exact hi.internRecord_known hr

/-- Interning a model again, or one with the same normal form, gives the type it has. -/
theorem Interned.intern_known (hi : h.Interned c) (hdnr : .scalar .doesNotReturn ∈ c.records)
    {m : Model} (hrefs : m.RefsIn (· ∈ c.handles)) (hd : c.Denotes t (m.normal c.shapes)) :
    intern m h = .ok t h := by
  rcases hd with ⟨rfl, hs⟩ | ⟨ht, hs⟩
  · cases m with
    | empty => rfl
    | canonical t =>
      obtain ⟨s, hshape⟩ := hi.valid.shapes_isSome hrefs
      rw [Model.normal, hshape, Option.getD_some] at hs
      exact absurd (hs ▸ hshape) (hi.valid.shapes_ne_void hrefs)
    | _ => simp [Model.normal] at hs
  · exact bind_eq_ok (hi.internWithin_known hdnr (Nat.le_refl _) hrefs ht hs)

end Heap

end TreeMachine
