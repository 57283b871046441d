import TreeMachine.Proofs.Types.Reading

/-! # The structure of types

  The shape of a type is its structure, without handles.  Shapes can be read off the arena,
  and in an interned heap they are the shapes of the catalogue.  Main statement: two types
  of one heap with the same shape are the same type.
-/

namespace TreeMachine

/-- The structure of a type. -/
inductive Shape where
  /-- The structure of the empty type. -/
  | void
  /-- A scalar type, given by the word of its kind. -/
  | plain (kindWord : UInt64)
  | pointer (target : Shape)
  | concat (members : List Shape)

namespace Shape

/-- The members that a part of this shape brings to a concatenation around it; what has no
    words brings nothing. -/
def spread : Shape → List Shape
  | void => []
  | plain kindWord => if kindWord = Kind.doesNotReturn.word then [] else [plain kindWord]
  | pointer target => [pointer target]
  | concat members => members

end Shape

/-- The shapes of several types. -/
def shapesOf (f : Ty → Option Shape) : List Ty → Option (List Shape)
  | [] => some []
  | t :: rest => do
    let s ← f t
    let ss ← shapesOf f rest
    return s :: ss

theorem shapesOf_congr {f g : Ty → Option Shape} {ts : List Ty} (h : ∀ t ∈ ts, f t = g t) :
    shapesOf f ts = shapesOf g ts := by
  induction ts with
  | nil => rfl
  | cons t rest ih =>
    rw [shapesOf, shapesOf, h t List.mem_cons_self,
      ih fun t ht => h t (List.mem_cons_of_mem _ ht)]

theorem shapesOf_cons_eq_some {f : Ty → Option Shape} {t : Ty} {rest : List Ty}
    {ss : List Shape} (h : shapesOf f (t :: rest) = some ss) :
    ∃ s tail, f t = some s ∧ shapesOf f rest = some tail ∧ ss = s :: tail := by
  obtain ⟨s, hs, h⟩ := Option.bind_eq_some_iff.1 h
  obtain ⟨tail, htail, h⟩ := Option.bind_eq_some_iff.1 h
  cases h
  exact ⟨s, tail, hs, htail, rfl⟩

theorem length_shapesOf {f : Ty → Option Shape} {ts : List Ty} {ss : List Shape}
    (h : shapesOf f ts = some ss) : ts.length = ss.length := by
  induction ts generalizing ss with
  | nil => cases h; rfl
  | cons t rest ih =>
    obtain ⟨s, tail, -, htail, rfl⟩ := shapesOf_cons_eq_some h
    rw [List.length_cons, List.length_cons, ih htail]

theorem shapesOf_isSome {f : Ty → Option Shape} {ts : List Ty}
    (h : ∀ t ∈ ts, ∃ s, f t = some s) : ∃ ss, shapesOf f ts = some ss := by
  induction ts with
  | nil => exact ⟨[], rfl⟩
  | cons t rest ih =>
    obtain ⟨s, hs⟩ := h t List.mem_cons_self
    obtain ⟨ss, hss⟩ := ih fun t ht => h t (List.mem_cons_of_mem _ ht)
    exact ⟨s :: ss, by simp [shapesOf, hs, hss]⟩

/-- The shape of a record, given the shapes of its parts. -/
def Record.shape (f : Ty → Option Shape) : Record → Option Shape
  | scalar k => some (.plain k.word)
  | pointer elem => (f elem).map .pointer
  | concat members => (shapesOf f members).map .concat

theorem Record.shape_congr {f g : Ty → Option Shape} {r : Record}
    (h : ∀ p ∈ r.parts, f p = g p) : r.shape f = r.shape g := by
  cases r with
  | scalar k => rfl
  | pointer elem => rw [shape, shape, h elem (List.mem_singleton_self _)]
  | concat members => exact congrArg (Option.map Shape.concat) (shapesOf_congr h)

theorem Record.shape_isSome {f : Ty → Option Shape} {r : Record}
    (h : ∀ p ∈ r.parts, ∃ s, f p = some s) : ∃ s, r.shape f = some s := by
  cases r with
  | scalar k => exact ⟨_, rfl⟩
  | pointer elem =>
    obtain ⟨s, hs⟩ := h elem (List.mem_singleton_self _)
    exact ⟨_, by rw [shape, hs]; rfl⟩
  | concat members =>
    obtain ⟨ss, hss⟩ := shapesOf_isSome h
    exact ⟨.concat ss, congrArg (Option.map Shape.concat) hss⟩

/-- Lists of types with the same shapes are equal where the shapes tell the types apart. -/
theorem eq_of_shapesOf_eq {f : Ty → Option Shape} {ts ts' : List Ty} {ss : List Shape}
    (hinj : ∀ t ∈ ts, ∀ t' ∈ ts', f t = f t' → t = t') (h : shapesOf f ts = some ss)
    (h' : shapesOf f ts' = some ss) : ts = ts' := by
  induction ts generalizing ts' ss with
  | nil =>
    cases h
    cases ts' with
    | nil => rfl
    | cons t' rest' =>
      obtain ⟨_, _, _, _, hnil⟩ := shapesOf_cons_eq_some h'
      cases hnil
  | cons t rest ih =>
    obtain ⟨s, tail, hs, htail, rfl⟩ := shapesOf_cons_eq_some h
    cases ts' with
    | nil => cases h'
    | cons t' rest' =>
      obtain ⟨s', tail', hs', htail', heq⟩ := shapesOf_cons_eq_some h'
      cases heq
      have hrest : rest = rest' := by
        refine ih (fun a ha b hb => ?_) htail htail'
        exact hinj a (List.mem_cons_of_mem _ ha) b (List.mem_cons_of_mem _ hb)
      rw [hinj t List.mem_cons_self t' List.mem_cons_self (hs.trans hs'.symm), hrest]

/-- Records with the same shape are equal where shapes tell their parts apart. -/
theorem Record.eq_of_shape_eq {f : Ty → Option Shape} {r r' : Record} {s : Shape}
    (hinj : ∀ p ∈ r.parts, ∀ p' ∈ r'.parts, f p = f p' → p = p') (h : r.shape f = some s)
    (h' : r'.shape f = some s) : r = r' := by
  cases r with
  | scalar k =>
    cases h
    cases r' with
    | scalar k' =>
      simp only [shape, Option.some.injEq, Shape.plain.injEq] at h'
      rw [Kind.word_injective h']
    | pointer elem => simp [shape] at h'
    | concat members => simp [shape] at h'
  | pointer elem =>
    obtain ⟨sp, hsp, rfl⟩ := Option.map_eq_some_iff.1 h
    cases r' with
    | scalar k' => cases h'
    | pointer elem' =>
      obtain ⟨sp', hsp', heq⟩ := Option.map_eq_some_iff.1 h'
      cases heq
      rw [hinj elem (List.mem_singleton_self _) elem' (List.mem_singleton_self _)
        (hsp.trans hsp'.symm)]
    | concat members => simp [shape] at h'
  | concat members =>
    obtain ⟨ss, hss, rfl⟩ := Option.map_eq_some_iff.1 h
    cases r' with
    | scalar k' => cases h'
    | pointer elem => simp [shape] at h'
    | concat members' =>
      obtain ⟨ss', hss', heq⟩ := Option.map_eq_some_iff.1 h'
      cases heq
      exact congrArg concat (eq_of_shapesOf_eq hinj hss hss')

namespace Catalogue

/-- The shape of each type, found from the oldest type on. -/
def shapes (c : Catalogue) : Ty → Option Shape :=
  c.foldl (fun f e t => if t = e.1 then e.2.shape f else f t) fun _ => none

theorem shapes_snoc (c : Catalogue) (t : Ty) (r : Record) (t' : Ty) :
    shapes (c ++ [(t, r)]) t' = if t' = t then r.shape c.shapes else c.shapes t' := by
  rw [shapes, List.foldl_append]
  rfl

/-- What is added later does not change a shape. -/
theorem shapes_append {c rest : Catalogue} (hv : Valid (c ++ rest)) {t : Ty}
    (ht : t ∈ c.handles) : shapes (c ++ rest) t = c.shapes t := by
  induction rest using List.reverseRecOn with
  | nil => rw [List.append_nil]
  | append_singleton rest e ih =>
    rw [← List.append_assoc] at hv ⊢
    generalize heq : c ++ rest ++ [e] = whole at hv
    cases hv with
    | nil => simp at heq
    | @snoc c' t' r' hc' ht' _ _ =>
      obtain ⟨rfl, hlast⟩ := List.append_inj' heq rfl
      cases hlast
      have hne : t ≠ t' := by
        rintro rfl
        exact ht' (by rw [handles, List.map_append]; exact List.mem_append_left _ ht)
      rw [shapes_snoc, if_neg hne, ih hc']

/-- The shape of a type is that of its record. -/
theorem Valid.shapes_eq {c : Catalogue} (hv : Valid c) {t : Ty} {r : Record}
    (he : (t, r) ∈ c) : c.shapes t = r.shape c.shapes := by
  induction hv with
  | nil => cases he
  | @snoc c₁ t₁ r₁ hc₁ ht₁ hr₁ ha ih =>
    have hstable : ∀ r, c₁.Admits r → r.shape (shapes (c₁ ++ [(t₁, r₁)])) = r.shape c₁.shapes := by
      intro r hr
      refine Record.shape_congr fun p hp => ?_
      rw [shapes_snoc, if_neg]
      rintro rfl
      exact ht₁ (hr.parts p hp)
    rcases List.mem_append.1 he with he | he
    · have hne : t ≠ t₁ := fun heq => ht₁ (heq ▸ mem_handles he)
      rw [shapes_snoc, if_neg hne, ih he, hstable r (hc₁.admits he)]
    · cases List.mem_singleton.1 he
      rw [shapes_snoc, if_pos rfl, hstable r ha]

theorem Valid.shapes_isSome {c : Catalogue} (hv : Valid c) {t : Ty} (ht : t ∈ c.handles) :
    ∃ s, c.shapes t = some s := by
  induction hv generalizing t with
  | nil => cases ht
  | @snoc c₁ t₁ r₁ hc₁ ht₁ hr₁ ha ih =>
    rw [shapes_snoc]
    by_cases heq : t = t₁
    · rw [if_pos heq]
      exact Record.shape_isSome fun p hp => ih (ha.parts p hp)
    · rw [if_neg heq]
      rw [handles, List.map_append, List.mem_append] at ht
      rcases ht with ht | ht
      · exact ih ht
      · exact absurd (List.mem_singleton.1 ht) heq

theorem shapes_of_not_mem {c : Catalogue} {t : Ty} (ht : t ∉ c.handles) : c.shapes t = none := by
  induction c using List.reverseRecOn with
  | nil => rfl
  | append_singleton c e ih =>
    rw [handles, List.map_append, List.mem_append, not_or, List.map_cons, List.map_nil,
      List.mem_singleton] at ht
    rw [shapes_snoc, if_neg ht.2, ih ht.1]

/-- Types with the same shape are the same type. -/
theorem Valid.shapes_inj {c : Catalogue} (hv : Valid c) {t t' : Ty} (ht : t ∈ c.handles)
    (ht' : t' ∈ c.handles) (heq : c.shapes t = c.shapes t') : t = t' := by
  induction hv generalizing t t' with
  | nil => cases ht
  | @snoc c₁ t₁ r₁ hc₁ ht₁ hr₁ ha ih =>
    -- A type older than the newest cannot share its shape: their records would be equal.
    have hnew : ∀ u ∈ c₁.handles, c₁.shapes u ≠ r₁.shape c₁.shapes := by
      intro u hu hsame
      obtain ⟨ru, hru⟩ := exists_record hu
      obtain ⟨s, hs⟩ := hc₁.shapes_isSome hu
      have hrs : ru.shape c₁.shapes = some s := by rw [← hc₁.shapes_eq hru, hs]
      have : ru = r₁ := by
        refine Record.eq_of_shape_eq ?_ hrs (by rw [← hsame, hs])
        intro p hp p' hp' hpp
        exact ih ((hc₁.admits hru).parts p hp) (ha.parts p' hp') hpp
      subst this
      exact hr₁ (mem_records hru)
    rw [shapes_snoc, shapes_snoc] at heq
    rw [handles, List.map_append, List.mem_append, List.map_cons, List.map_nil,
      List.mem_singleton] at ht ht'
    rcases ht with ht | ht <;> rcases ht' with ht' | ht'
    · rw [if_neg (by rintro rfl; exact ht₁ ht), if_neg (by rintro rfl; exact ht₁ ht')] at heq
      exact ih ht ht' heq
    · rw [if_neg (by rintro rfl; exact ht₁ ht), if_pos ht'] at heq
      exact absurd heq (hnew t ht)
    · rw [if_pos ht, if_neg (by rintro rfl; exact ht₁ ht')] at heq
      exact absurd heq.symm (hnew t' ht')
    · rw [ht, ht']

end Catalogue

namespace Heap

/-- The shape of a type as it is read off the arena, down to a given depth. -/
def shapeWithin (h : Heap) : Nat → Ty → Option Shape
  | 0, _ => none
  | depth + 1, t =>
    match h.kind t with
    | .ok (some .pointer) =>
      match h.elem t with
      | .ok elem => (h.shapeWithin depth elem).map .pointer
      | .error _ => none
    | .ok (some .concatenation) =>
      match h.members t with
      | .ok members => (shapesOf (h.shapeWithin depth) members).map .concat
      | .error _ => none
    | .ok (some k) => some (.plain k.word)
    | _ => none

/-- The shape of a type; the empty type and what is no type have none here. -/
def shape? (h : Heap) (t : Ty) : Option Shape := h.shapeWithin h.depthBound t

/-- Each type refers to older ones, so its shape is found within the number of types. -/
theorem Interned.shapeWithin_eq {h : Heap} {c c' rest : Catalogue} {t : Ty} (hi : h.Interned c)
    (hc : c = c' ++ rest) (ht : t ∈ c'.handles) {depth : Nat} (hd : c'.length ≤ depth) :
    h.shapeWithin depth t = c'.shapes t := by
  have hvalid : c'.Valid := Catalogue.Valid.of_append (hc ▸ hi.valid)
  induction hvalid generalizing rest t depth with
  | nil => cases ht
  | @snoc c₁ t₁ r₁ hc₁ ht₁ hr₁ ha ih =>
    rw [List.length_append, List.length_singleton] at hd
    rw [List.append_assoc] at hc
    obtain ⟨depth, rfl⟩ : ∃ d, depth = d + 1 := ⟨depth - 1, by omega⟩
    rw [Catalogue.handles, List.map_append, List.mem_append, List.map_cons, List.map_nil,
      List.mem_singleton] at ht
    rw [Catalogue.shapes_snoc]
    rcases ht with ht | rfl
    · rw [if_neg (by rintro rfl; exact ht₁ ht)]
      exact ih hc ht (by omega)
    · have hmem : (t, r₁) ∈ c := by rw [hc]; simp
      have hparts : ∀ p ∈ r₁.parts, h.shapeWithin depth p = c₁.shapes p := fun p hp =>
        ih hc (ha.parts p hp) (by omega)
      rw [if_pos rfl, shapeWithin, hi.kind_eq hmem]
      cases r₁ with
      | scalar k =>
        cases k <;> first | rfl | (simp [Catalogue.Admits, Kind.isScalar] at ha)
      | pointer elem =>
        simp only [Record.kind, hi.elem_eq hmem, Record.shape]
        rw [hparts elem (List.mem_singleton_self _)]
      | concat members =>
        simp only [Record.kind, hi.members_eq hmem, Record.shape, memberList]
        exact congrArg (Option.map Shape.concat) (shapesOf_congr hparts)

theorem Interned.shape?_eq {h : Heap} {c : Catalogue} {t : Ty} (hi : h.Interned c)
    (ht : t ∈ c.handles) : h.shape? t = c.shapes t := by
  have hle := hi.length_le
  exact hi.shapeWithin_eq (List.append_nil c).symm ht (by unfold depthBound; omega)

end Heap

end TreeMachine
