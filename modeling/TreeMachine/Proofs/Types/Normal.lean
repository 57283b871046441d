import TreeMachine.Proofs.Types.Interning

/-! # Normal forms of models

  The normal form of a model is the shape it describes: handles are expanded, concatenations
  inside concatenations are flattened, and parts without words are dropped.  Main statement:
  interning a model gives the one type whose shape is the normal form.  If a part of the
  model is new, no type can contain it yet, so the record around it is made without a look.
-/

namespace TreeMachine

namespace Model

mutual

/-- The shape that a model describes, given the shapes of the handles in it. -/
def normal (f : Ty → Option Shape) : Model → Shape
  | .empty => .void
  | .canonical t => (f t).getD .void
  | .pointer target => .pointer (target.normal f)
  | .concat members => .concat (normalAll f members)
  | .plain kindWord => .plain kindWord

/-- The members that a list of models brings to a concatenation. -/
def normalAll (f : Ty → Option Shape) : List Model → List Shape
  | [] => []
  | m :: rest => (m.normal f).spread ++ normalAll f rest

end

mutual

/-- Every handle in a model satisfies `P`. -/
def RefsIn (P : Ty → Prop) : Model → Prop
  | .canonical t => P t
  | .pointer target => target.RefsIn P
  | .concat members => AllRefsIn P members
  | _ => True

/-- Every handle in a list of models satisfies `P`. -/
def AllRefsIn (P : Ty → Prop) : List Model → Prop
  | [] => True
  | m :: rest => m.RefsIn P ∧ AllRefsIn P rest

end

theorem normalAll_append (f : Ty → Option Shape) (xs ys : List Model) :
    normalAll f (xs ++ ys) = normalAll f xs ++ normalAll f ys := by
  induction xs with
  | nil => simp [normalAll]
  | cons x rest ih => simp [normalAll, ih]

theorem allRefsIn_append {P : Ty → Prop} {xs ys : List Model} :
    AllRefsIn P (xs ++ ys) ↔ AllRefsIn P xs ∧ AllRefsIn P ys := by
  induction xs with
  | nil => simp [AllRefsIn]
  | cons x rest ih => simp [AllRefsIn, ih, and_assoc]

mutual

theorem normal_congr {f g : Ty → Option Shape} {P : Ty → Prop} (hfg : ∀ t, P t → f t = g t) :
    ∀ m : Model, m.RefsIn P → m.normal f = m.normal g
  | .empty, _ => rfl
  | .canonical t, hm => by rw [normal, normal, hfg t hm]
  | .pointer target, hm => by rw [normal, normal, normal_congr hfg target hm]
  | .concat members, hm => by rw [normal, normal, normalAll_congr hfg members hm]
  | .plain _, _ => rfl

theorem normalAll_congr {f g : Ty → Option Shape} {P : Ty → Prop}
    (hfg : ∀ t, P t → f t = g t) :
    ∀ ms : List Model, AllRefsIn P ms → normalAll f ms = normalAll g ms
  | [], _ => rfl
  | m :: rest, hm => by
    rw [normalAll, normalAll, normal_congr hfg m hm.1, normalAll_congr hfg rest hm.2]

end

mutual

theorem RefsIn.mono {P Q : Ty → Prop} (hpq : ∀ t, P t → Q t) :
    ∀ m : Model, m.RefsIn P → m.RefsIn Q
  | .empty, _ => trivial
  | .canonical t, hm => hpq t hm
  | .pointer target, hm => RefsIn.mono hpq target hm
  | .concat members, hm => AllRefsIn.mono hpq members hm
  | .plain _, _ => trivial

theorem AllRefsIn.mono {P Q : Ty → Prop} (hpq : ∀ t, P t → Q t) :
    ∀ ms : List Model, AllRefsIn P ms → AllRefsIn Q ms
  | [], _ => trivial
  | m :: rest, hm => ⟨RefsIn.mono hpq m hm.1, AllRefsIn.mono hpq rest hm.2⟩

end

theorem AllRefsIn.of_mem {P : Ty → Prop} {ms : List Model} (h : AllRefsIn P ms) {m : Model}
    (hm : m ∈ ms) : m.RefsIn P := by
  induction ms with
  | nil => cases hm
  | cons x rest ih =>
    rcases List.mem_cons.1 hm with rfl | hm
    · exact h.1
    · exact ih h.2 hm

/-! ### Flattening -/

/-- The model stands for one type that is no concatenation. -/
def Single (c : Catalogue) : Model → Prop
  | .empty | .concat _ => False
  | .canonical t => ∃ r, (t, r) ∈ c ∧ ∀ ms, r ≠ .concat ms
  | _ => True

/-- What a flattened list of models says. -/
structure Flat (c : Catalogue) (ms flat : List Model) : Prop where
  normal_eq : normalAll c.shapes ms = normalAll c.shapes flat
  refs : AllRefsIn (· ∈ c.handles) flat
  single : ∀ m ∈ flat, m.Single c
  depth_le : ∀ m ∈ flat, m.depth ≤ depthAll ms

theorem depth_pos (m : Model) : 1 ≤ m.depth := by
  cases m <;> simp [depth]

theorem depthAll_pos (ms : List Model) : 1 ≤ depthAll ms := by
  cases ms with
  | nil => simp [depthAll]
  | cons m rest =>
    have := m.depth_pos
    simp only [depthAll]
    omega

theorem depthAll_append (ms ms' : List Model) :
    depthAll (ms ++ ms') = max (depthAll ms) (depthAll ms') := by
  induction ms with
  | nil =>
    have := depthAll_pos ms'
    simp only [List.nil_append, depthAll]
    omega
  | cons m rest ih =>
    simp only [List.cons_append, depthAll, ih]
    omega

theorem Flat.append {c : Catalogue} {ms ms' flat flat' : List Model} (h : Flat c ms flat)
    (h' : Flat c ms' flat') : Flat c (ms ++ ms') (flat ++ flat') where
  normal_eq := by rw [normalAll_append, normalAll_append, h.normal_eq, h'.normal_eq]
  refs := allRefsIn_append.2 ⟨h.refs, h'.refs⟩
  single m hm := (List.mem_append.1 hm).elim (h.single m) (h'.single m)
  depth_le m hm := by
    rw [depthAll_append]
    rcases List.mem_append.1 hm with hm | hm
    · have := h.depth_le m hm
      omega
    · have := h'.depth_le m hm
      omega

/-- A model that is its own only part. -/
theorem Flat.singleton {c : Catalogue} {m : Model} (hrefs : m.RefsIn (· ∈ c.handles))
    (hm : m.Single c) : Flat c [m] [m] where
  normal_eq := rfl
  refs := ⟨hrefs, trivial⟩
  single x hx := List.mem_singleton.1 hx ▸ hm
  depth_le x hx := by
    rw [List.mem_singleton.1 hx, depthAll]
    omega

end Model

/-- The shape of a member has words and is no concatenation, so it brings itself. -/
theorem Catalogue.Valid.spread_member {c : Catalogue} (hv : c.Valid) {t : Ty} {r : Record}
    (he : (t, r) ∈ c) (hr : r.isMember = true) :
    ∃ s, c.shapes t = some s ∧ s.spread = [s] := by
  obtain ⟨s, hs⟩ := hv.shapes_isSome (mem_handles he)
  refine ⟨s, hs, ?_⟩
  rw [hv.shapes_eq he] at hs
  cases r with
  | scalar k =>
    cases hs
    cases k <;> first | rfl | cases hr
  | pointer elem =>
    obtain ⟨s', -, rfl⟩ := Option.map_eq_some_iff.1 hs
    rfl
  | concat members => cases hr

/-- The members of a concatenation bring exactly its shape's members. -/
theorem Catalogue.Valid.normalAll_members {c : Catalogue} (hv : c.Valid) {ts : List Ty}
    (hts : ∀ t ∈ ts, ∃ r, (t, r) ∈ c ∧ r.isMember = true) :
    shapesOf c.shapes ts = some (Model.normalAll c.shapes (ts.map .canonical)) := by
  induction ts with
  | nil => rfl
  | cons t rest ih =>
    obtain ⟨r, hr, hmem⟩ := hts t List.mem_cons_self
    obtain ⟨s, hs, hspread⟩ := hv.spread_member hr hmem
    have hrest := ih fun t ht => hts t (List.mem_cons_of_mem _ ht)
    simp [shapesOf, hs, hrest, Model.normalAll, Model.normal, hspread]

namespace Heap

variable {h : Heap} {c : Catalogue}

theorem Interned.ofTy_eq (hi : h.Interned c) {t : Ty} (ht : t ∈ c.handles) :
    Model.ofTy t = .canonical t := by
  rw [Model.ofTy, if_neg]
  rintro rfl
  exact hi.zero_not_mem ht

theorem allRefsIn_canonical {P : Ty → Prop} {ts : List Ty} (hts : ∀ t ∈ ts, P t) :
    Model.AllRefsIn P (ts.map .canonical) := by
  induction ts with
  | nil => trivial
  | cons t rest ih =>
    exact ⟨hts t List.mem_cons_self, ih fun t ht => hts t (List.mem_cons_of_mem _ ht)⟩

/-- Flattening one handle. -/
theorem Interned.flatten_canonical (hi : h.Interned c) {t : Ty} (ht : t ∈ c.handles) :
    ∃ flat, (Model.canonical t).flatten h = .ok flat ∧ Model.Flat c [.canonical t] flat := by
  obtain ⟨r, hr⟩ := Catalogue.exists_record ht
  rw [Model.flatten, except_bind_ok (hi.kind_eq hr)]
  by_cases hconcat : ∃ ms, r = .concat ms
  · obtain ⟨ms, rfl⟩ := hconcat
    have hadm := (hi.valid.admits hr).2
    have hmap : ms.map Model.ofTy = ms.map .canonical := by
      refine List.map_congr_left fun m hm => ?_
      obtain ⟨rm, hrm, -⟩ := hadm m hm
      exact hi.ofTy_eq (Catalogue.mem_handles hrm)
    refine ⟨ms.map .canonical, ?_, ?_, ?_, ?_, ?_⟩
    · rw [if_pos (show some (Record.concat ms).kind = some Kind.concatenation from rfl),
        except_bind_ok (hi.members_eq hr), ← hmap]
      rfl
    · have hshape := hi.valid.shapes_eq hr
      have hmembers := hi.valid.normalAll_members hadm
      simp only [Record.shape, hmembers, Option.map_some] at hshape
      simp [Model.normalAll, Model.normal, hshape, Shape.spread]
    · refine allRefsIn_canonical fun m hm => ?_
      obtain ⟨rm, hrm, -⟩ := hadm m hm
      exact Catalogue.mem_handles hrm
    · intro m hm
      obtain ⟨t', ht', rfl⟩ := List.mem_map.1 hm
      obtain ⟨rm, hrm, hmem⟩ := hadm t' ht'
      exact ⟨rm, hrm, isMember_ne_concat hmem⟩
    · intro m hm
      obtain ⟨t', -, rfl⟩ := List.mem_map.1 hm
      simp [Model.depth, Model.depthAll]
  · have hkind : some r.kind ≠ some Kind.concatenation := fun heq =>
      hi.kind_ne_concat hr (fun ms hms => hconcat ⟨ms, hms⟩) (congrArg Except.ok heq)
    refine ⟨[.canonical t], by rw [if_neg hkind]; rfl, .singleton ht ?_⟩
    exact ⟨r, hr, fun ms hms => hconcat ⟨ms, hms⟩⟩

mutual

theorem Interned.flatten_ok (hi : h.Interned c) :
    ∀ m : Model, m.RefsIn (· ∈ c.handles) → ∃ flat, m.flatten h = .ok flat ∧
      Model.Flat c [m] flat
  | .empty, _ => ⟨[], by simp [Model.flatten], rfl, trivial, by simp, by simp⟩
  | .canonical t, hm => hi.flatten_canonical hm
  | .pointer target, hm => ⟨[.pointer target], by simp [Model.flatten], .singleton hm trivial⟩
  | .plain k, _ => ⟨[.plain k], by simp [Model.flatten], .singleton trivial trivial⟩
  | .concat members, hm => by
    obtain ⟨flat, hflat, hf⟩ := hi.flattenAll_ok members hm
    refine ⟨flat, by rw [Model.flatten, hflat], ?_, hf.refs, hf.single, ?_⟩
    · rw [← hf.normal_eq]
      simp [Model.normalAll, Model.normal, Shape.spread]
    · intro m hm
      have := hf.depth_le m hm
      simp only [Model.depthAll, Model.depth]
      omega

theorem Interned.flattenAll_ok (hi : h.Interned c) :
    ∀ ms : List Model, Model.AllRefsIn (· ∈ c.handles) ms →
      ∃ flat, Model.flattenAll h ms = .ok flat ∧ Model.Flat c ms flat
  | [], _ => ⟨[], by simp [Model.flattenAll], rfl, trivial, by simp, by simp⟩
  | m :: rest, hm => by
    obtain ⟨first, hfirst, hf⟩ := hi.flatten_ok m hm.1
    obtain ⟨others, hothers, hf'⟩ := hi.flattenAll_ok rest hm.2
    refine ⟨first ++ others, ?_, hf.append hf'⟩
    rw [Model.flattenAll, except_bind_ok hfirst, except_bind_ok hothers]
    rfl

end

end Heap

end TreeMachine
