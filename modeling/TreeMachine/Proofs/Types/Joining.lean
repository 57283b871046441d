import TreeMachine.Proofs.Types.Order

/-! # Joining types

  A sequence of types can be joined by one concatenation, by concatenations inside each
  other, or by interning a nested model.  The first two flatten handles and the last one
  flattens models, but what they make depends on the members with words only.  Main
  statement: concatenation is a monoid of words whose unit are the types without words, and
  each sequence of types has one concatenation, whichever way it is joined and at whatever
  time.
-/

namespace TreeMachine

/-! ### Ways to join a sequence of types -/

/-- A nesting of concatenations. -/
inductive Nest where
  | type (t : Ty)
  | join (parts : List Nest)

namespace Nest

mutual

/-- The types in a nesting, in order. -/
def leaves : Nest → List Ty
  | type t => [t]
  | join parts => leavesAll parts

/-- The types in several nestings. -/
def leavesAll : List Nest → List Ty
  | [] => []
  | n :: rest => n.leaves ++ leavesAll rest

end

mutual

/-- Joins the types by nested concatenations, from the inside out. -/
def make : Nest → HeapM Ty
  | type t => return t
  | join parts => do Heap.concatenate (← makeAll parts)

/-- `make` for each nesting of a list. -/
def makeAll : List Nest → HeapM (List Ty)
  | [] => return []
  | n :: rest => do
    let t ← n.make
    return t :: (← makeAll rest)

end

mutual

/-- The nesting as a model, whose leaves refer to the types. -/
def model : Nest → Model
  | type t => if t = 0 then .empty else .canonical t
  | join parts => .concat (modelAll parts)

/-- The models of several nestings. -/
def modelAll : List Nest → List Model
  | [] => []
  | n :: rest => n.model :: modelAll rest

end

end Nest

/-- The members with words of the types of a sequence, one after the other. -/
def Catalogue.WideOfAll (c : Catalogue) (ts ws : List Ty) : Prop :=
  ∃ wss, List.Forall₂ c.WideOf ts wss ∧ wss.flatten = ws

/-- The type `t` joins the members `ws`. -/
def Catalogue.Joins (c : Catalogue) (t : Ty) : List Ty → Prop
  | [] => t = 0
  | [m] => t = m ∧ ∃ r, (m, r) ∈ c ∧ r.isMember = true
  | ws => (t, .concat ws) ∈ c

namespace Catalogue

variable {c c' : Catalogue} {t : Ty} {ts us ws : List Ty}

theorem WideOf.of_prefix (hle : c <+: c') (hw : c.WideOf t ws) : c'.WideOf t ws := by
  rcases hw with hzero | ⟨r, hr, hws⟩
  · exact Or.inl hzero
  · exact Or.inr ⟨r, hle.subset hr, hws⟩

namespace WideOfAll

theorem nil : c.WideOfAll [] [] := ⟨[], .nil, rfl⟩

theorem cons {ws' : List Ty} (hw' : c.WideOfAll ts ws') (hw : c.WideOf t ws) :
    c.WideOfAll (t :: ts) (ws ++ ws') := by
  obtain ⟨wss, hall, rfl⟩ := hw'
  exact ⟨ws :: wss, .cons hw hall, rfl⟩

/-- The members of two sequences in a row are those of one and then those of the other. -/
theorem of_append (hw : c.WideOfAll (ts ++ us) ws) :
    ∃ ws₁ ws₂, c.WideOfAll ts ws₁ ∧ c.WideOfAll us ws₂ ∧ ws = ws₁ ++ ws₂ := by
  induction ts generalizing ws with
  | nil => exact ⟨[], ws, nil, hw, rfl⟩
  | cons t rest ih =>
    obtain ⟨wss, hall, rfl⟩ := hw
    cases hall with
    | @cons _ first _ wss' hfirst hrest =>
      obtain ⟨ws₁, ws₂, hw₁, hw₂, heq⟩ := ih ⟨wss', hrest, rfl⟩
      refine ⟨first ++ ws₁, ws₂, hw₁.cons hfirst, hw₂, ?_⟩
      rw [List.flatten_cons, heq, List.append_assoc]

theorem of_prefix (hle : c <+: c') (hw : c.WideOfAll ts ws) : c'.WideOfAll ts ws := by
  obtain ⟨wss, hall, rfl⟩ := hw
  exact ⟨wss, hall.imp fun _ _ h => h.of_prefix hle, rfl⟩

end WideOfAll

theorem Joins.of_prefix (hle : c <+: c') (hj : c.Joins t ws) : c'.Joins t ws := by
  match ws, hj with
  | [], hj => exact hj
  | [m], ⟨ht, r, hr, hmem⟩ => exact ⟨ht, r, hle.subset hr, hmem⟩
  | _ :: _ :: _, hj => exact hle.subset hj

/-- The members with words of a type that joins some members are these members. -/
theorem Joins.wideOf (hj : c.Joins t ws) : c.WideOf t ws := by
  match ws, hj with
  | [], hj => exact Or.inl ⟨hj, rfl⟩
  | [m], ⟨ht, r, hr, hmem⟩ =>
    subst ht
    refine Or.inr ⟨r, hr, ?_⟩
    cases r with
    | scalar k => cases k <;> first | rfl | cases hmem
    | pointer elem => rfl
    | concat ms => cases hmem
  | _ :: _ :: _, hj => exact Or.inr ⟨_, hj, rfl⟩

/-- Only a concatenation has more than one member. -/
theorem WideOf.joins (hw : c.WideOf t ws) (hlen : 2 ≤ ws.length) : c.Joins t ws := by
  rcases hw with ⟨-, rfl⟩ | ⟨r, hr, rfl⟩
  · simp at hlen
  · cases r with
    | scalar k => cases k <;> simp [Record.wideList] at hlen
    | pointer elem => simp [Record.wideList] at hlen
    | concat ms =>
      cases ms with
      | nil => simp [Record.wideList] at hlen
      | cons m ms =>
        cases ms with
        | nil => simp [Record.wideList] at hlen
        | cons => exact hr

/-- Members are joined by one type. -/
theorem Joins.unique (hv : c.Valid) {t' : Ty} (hj : c.Joins t ws) (hj' : c.Joins t' ws) :
    t = t' := by
  match ws, hj, hj' with
  | [], hj, hj' => exact hj.trans hj'.symm
  | [m], hj, hj' => exact hj.1.trans hj'.1.symm
  | _ :: _ :: _, hj, hj' => exact hv.handle_unique hj hj'

end Catalogue

namespace Heap

variable {h h' : Heap} {c c' : Catalogue} {t : Ty} {ts us ws : List Ty}

/-! ### One concatenation -/

theorem Interned.wideOfAll_eq (hi : h.Interned c) (hw : c.WideOfAll ts ws) :
    h.wideMembers ts = .ok ws := by
  obtain ⟨wss, hall, rfl⟩ := hw
  exact hi.wideMembers_eq hall

/-- What a sequence of known types has for members does not depend on how it is read. -/
theorem exists_wideOfAll_flat (hts : ∀ t ∈ ts, c.Knows t) : ∃ ws, c.WideOfAll ts ws := by
  obtain ⟨wss, hall⟩ := exists_wideOfAll hts
  exact ⟨_, wss, hall, rfl⟩

theorem Interned.wideOfAll_members (hi : h.Interned c) (hw : c.WideOfAll ts ws) :
    ∀ m ∈ ws, ∃ r, (m, r) ∈ c ∧ r.isMember = true := by
  obtain ⟨wss, hall, rfl⟩ := hw
  induction hall with
  | nil => simp
  | cons hfirst _ ih =>
    intro m hm
    rcases List.mem_append.1 hm with hm | hm
    · exact hi.wideOf_members hfirst m hm
    · exact ih m hm

/-- A concatenation without members is the empty type, and one of a single member is that
    member. -/
theorem concatenate_short (hw : h.wideMembers ts = .ok ws) (hlen : ws.length < 2) :
    concatenate ts h = .ok (ws.head?.getD 0) h := by
  have hpeek : peek (·.wideMembers ts) h = .ok ws h := inspect_eq_ok hw
  rw [concatenate, bind_eq_ok hpeek]
  cases ws with
  | nil => rfl
  | cons m rest =>
    cases rest with
    | nil => rfl
    | cons =>
      simp only [List.length_cons] at hlen
      omega

/-- A concatenation of several members has a record. -/
theorem Interned.concatenate_long (hi : h.Interned c)
    (hdnr : .scalar .doesNotReturn ∈ c.records) (hw : c.WideOfAll ts ws)
    (hlen : 2 ≤ ws.length) :
    concatenate ts h
      = (internRecord false (Record.concat ws).words >>= fun p => pure p.1) h := by
  have hpeek : peek (·.wideMembers ts) h = .ok ws h := inspect_eq_ok (hi.wideOfAll_eq hw)
  rw [concatenate, bind_eq_ok hpeek]
  cases ws with
  | nil => simp at hlen
  | cons m rest =>
    cases rest with
    | nil => simp at hlen
    | cons m' rest => exact hi.intern_concat hdnr hlen (hi.wideOfAll_members hw)

/-- The concatenation of a sequence of types joins their members. -/
theorem Interned.concatenate_joins (hi : h.Interned c)
    (hdnr : .scalar .doesNotReturn ∈ c.records) (hw : c.WideOfAll ts ws)
    (hcount : ws.length + 2 < 2 ^ 64) :
    Yields (concatenate ts) h
      (fun t h' => ∃ c', Extends h c h' c' ∧ c'.Joins t ws)
      (fun _ h' => h' = h ∧ (h.arena.collecting = false → ¬ h.arena.Room (2 + ws.length))) := by
  have hmembers := hi.wideOfAll_members hw
  match ws, hw, hmembers with
  | [], hw, _ =>
    have hrun := concatenate_short (hi.wideOfAll_eq hw) (by simp)
    exact Yields.of_ok hrun ⟨c, .refl hi, rfl⟩
  | [m], hw, hmembers =>
    have hrun := concatenate_short (hi.wideOfAll_eq hw) (by simp)
    exact Yields.of_ok hrun ⟨c, .refl hi, rfl, hmembers m List.mem_cons_self⟩
  | m :: m' :: rest, ⟨wss, hall, hflat⟩, _ =>
    rw [← hflat] at hcount ⊢
    refine (hi.concatenate_yields hdnr hall hcount).imp ?_
    rintro t h' ⟨c', hext, hwide, -⟩
    exact ⟨c', hext, hwide.joins (by rw [hflat]; simp)⟩

/-- Joining members again gives the type that joins them, and makes nothing. -/
theorem Interned.concatenate_known (hi : h.Interned c)
    (hdnr : .scalar .doesNotReturn ∈ c.records) (hw : c.WideOfAll ts ws)
    (hj : c.Joins t ws) : concatenate ts h = .ok t h := by
  match ws, hw, hj with
  | [], hw, hj =>
    rw [concatenate_short (hi.wideOfAll_eq hw) (by simp), show t = 0 from hj]
    rfl
  | [m], hw, hj =>
    rw [concatenate_short (hi.wideOfAll_eq hw) (by simp), hj.1]
    rfl
  | m :: m' :: rest, hw, hj =>
    rw [hi.concatenate_long hdnr hw (by simp)]
    exact bind_eq_ok (hi.internRecord_known hj)

/-! ### Concatenations inside each other -/

/-- How making a nesting of types with members `ws` stops: not all records have room. -/
def Cramped (h : Heap) (c : Catalogue) (ws : List Ty) (h' : Heap) : Prop :=
  ∃ c', Extends h c h' c' ∧ (h.arena.collecting = false → ¬ h'.arena.Room (2 + ws.length))

theorem Cramped.of_extends (he : Extends h c h' c') {h'' : Heap} (hc : Cramped h' c' ws h'')
    {ws' : List Ty} (hle : ws.length ≤ ws'.length) : Cramped h c ws' h'' := by
  obtain ⟨c'', he', hno⟩ := hc
  refine ⟨c'', he.trans he', ?_⟩
  intro hrun hroom
  exact hno (he.grows.collecting_eq.trans hrun) (hroom.mono (by omega))

/-- The concatenation of types that are made first. -/
theorem Standard.concatenate_made (hs : h.Standard c) {x : HeapM (List Ty)}
    (hcount : ws.length + 2 < 2 ^ 64)
    (hx : Yields x h (fun ts h' => ∃ c', Extends h c h' c' ∧ c'.WideOfAll ts ws)
      (fun _ h' => Cramped h c ws h')) :
    Yields (do concatenate (← x)) h (fun t h' => ∃ c', Extends h c h' c' ∧ c'.Joins t ws)
      (fun _ h' => Cramped h c ws h') := by
  refine Yields.bind (hx.imp ?_)
  rintro ts h₁ ⟨c₁, he₁, hall⟩
  have hs₁ := hs.extends he₁
  refine (hs₁.concatenate_joins hs₁.records hall hcount).mono ?_ ?_
  · rintro t h₂ ⟨c₂, he₂, hj⟩
    exact ⟨c₂, he₁.trans he₂, hj⟩
  · rintro f h₂ ⟨rfl, hno⟩
    refine ⟨c₁, he₁, ?_⟩
    intro hrun
    exact hno (he₁.grows.collecting_eq.trans hrun)

mutual

/-- Nested concatenations make a type with the members of the leaves. -/
theorem Standard.make_wideOf : ∀ (n : Nest) {h : Heap} {c : Catalogue} {ws : List Ty},
    h.Standard c → c.WideOfAll n.leaves ws → ws.length + 2 < 2 ^ 64 →
    Yields n.make h (fun t h' => ∃ c', Extends h c h' c' ∧ c'.WideOf t ws)
      (fun _ h' => Cramped h c ws h')
  | .type t, h, c, ws, hs, hw, _ => by
    obtain ⟨wss, hall, rfl⟩ := hw
    cases hall with
    | cons hfirst hrest =>
      cases hrest
      rw [List.flatten_cons, List.flatten_nil, List.append_nil]
      exact Yields.pure ⟨c, .refl hs.toInterned, hfirst⟩
  | .join parts, h, c, ws, hs, hw, hcount => by
    refine (hs.concatenate_made hcount (makeAll_wideOf parts hs hw hcount)).imp ?_
    rintro t h' ⟨c', he, hj⟩
    exact ⟨c', he, hj.wideOf⟩

/-- `make_wideOf` for each nesting of a list. -/
theorem Standard.makeAll_wideOf : ∀ (parts : List Nest) {h : Heap} {c : Catalogue}
    {ws : List Ty}, h.Standard c → c.WideOfAll (Nest.leavesAll parts) ws →
    ws.length + 2 < 2 ^ 64 →
    Yields (Nest.makeAll parts) h (fun ts h' => ∃ c', Extends h c h' c' ∧ c'.WideOfAll ts ws)
      (fun _ h' => Cramped h c ws h')
  | [], h, c, ws, hs, hw, _ => Yields.pure ⟨c, .refl hs.toInterned, hw⟩
  | n :: rest, h, c, ws, hs, hw, hcount => by
    obtain ⟨ws₁, ws₂, hw₁, hw₂, rfl⟩ := hw.of_append
    rw [List.length_append] at hcount
    refine Yields.bind ((make_wideOf n hs hw₁ (by omega)).mono ?_ ?_)
    · rintro t h₁ ⟨c₁, he₁, hwide⟩
      have hrest := makeAll_wideOf rest (hs.extends he₁) (hw₂.of_prefix he₁.older) (by omega)
      refine Yields.bind (hrest.mono ?_ ?_)
      · rintro ts h₂ ⟨c₂, he₂, hall⟩
        exact ⟨c₂, he₁.trans he₂, hall.cons (hwide.of_prefix he₂.older)⟩
      · intro f h₂ hcramped
        exact hcramped.of_extends he₁ (by simp)
    · intro f h₁ hcramped
      exact hcramped.of_extends (.refl hs.toInterned) (by simp)

end

/-- A concatenation of nestings joins the members of their leaves. -/
theorem Standard.make_joins (hs : h.Standard c) {parts : List Nest}
    (hw : c.WideOfAll (Nest.leavesAll parts) ws) (hcount : ws.length + 2 < 2 ^ 64) :
    Yields (Nest.join parts).make h (fun t h' => ∃ c', Extends h c h' c' ∧ c'.Joins t ws)
      (fun _ h' => Cramped h c ws h') :=
  hs.concatenate_made hcount (makeAll_wideOf parts hs hw hcount)

/-! ### Nested models -/

theorem shapesOf_append {f : Ty → Option Shape} {ts us : List Ty} {ss ss' : List Shape}
    (hts : shapesOf f ts = some ss) (hus : shapesOf f us = some ss') :
    shapesOf f (ts ++ us) = some (ss ++ ss') := by
  induction ts generalizing ss with
  | nil =>
    cases hts
    exact hus
  | cons t rest ih =>
    obtain ⟨s, tail, hs, htail, rfl⟩ := shapesOf_cons_eq_some hts
    simp [shapesOf, hs, ih htail]

mutual

/-- The members of the leaves have the shapes that the model brings to a concatenation. -/
theorem Interned.shapesOf_nest (hi : h.Interned c) : ∀ (n : Nest) {ws : List Ty},
    c.WideOfAll n.leaves ws → shapesOf c.shapes ws = some (n.model.normal c.shapes).spread
  | .type t, ws, hw => by
    obtain ⟨wss, hall, rfl⟩ := hw
    cases hall with
    | cons hfirst hrest =>
      cases hrest
      have hshapes := hi.shapesOf_wideOf hfirst
      rw [List.flatten_cons, List.flatten_nil, List.append_nil, Nest.model]
      split
      · rename_i h0
        rw [hshapes, h0, Catalogue.shapes_of_not_mem hi.zero_not_mem]
        rfl
      · exact hshapes
  | .join parts, ws, hw => hi.shapesOf_nestAll parts hw

/-- `shapesOf_nest` for each nesting of a list. -/
theorem Interned.shapesOf_nestAll (hi : h.Interned c) : ∀ (parts : List Nest) {ws : List Ty},
    c.WideOfAll (Nest.leavesAll parts) ws →
      shapesOf c.shapes ws = some (Model.normalAll c.shapes (Nest.modelAll parts))
  | [], ws, hw => by
    obtain ⟨wss, hall, rfl⟩ := hw
    cases hall
    rfl
  | n :: rest, ws, hw => by
    obtain ⟨ws₁, ws₂, hw₁, hw₂, rfl⟩ := hw.of_append
    exact shapesOf_append (hi.shapesOf_nest n hw₁) (hi.shapesOf_nestAll rest hw₂)

end

mutual

theorem refsIn_nest : ∀ n : Nest, (∀ t ∈ n.leaves, c.Knows t) →
    n.model.RefsIn (· ∈ c.handles)
  | .type t, hn => by
    rw [Nest.model]
    split
    · trivial
    · rename_i h0
      exact (hn t List.mem_cons_self).resolve_left h0
  | .join parts, hn => refsIn_nestAll parts hn

theorem refsIn_nestAll : ∀ parts : List Nest, (∀ t ∈ Nest.leavesAll parts, c.Knows t) →
    Model.AllRefsIn (· ∈ c.handles) (Nest.modelAll parts)
  | [], _ => trivial
  | n :: rest, hn =>
    ⟨refsIn_nest n fun t ht => hn t (List.mem_append_left _ ht),
      refsIn_nestAll rest fun t ht => hn t (List.mem_append_right _ ht)⟩

end

mutual

/-- A nesting is flattened to handles. -/
theorem Interned.flatten_nest (hi : h.Interned c) : ∀ (n : Nest) {flat : List Model},
    (∀ t ∈ n.leaves, c.Knows t) → n.model.flatten h = .ok flat →
    ∀ m ∈ flat, ∃ u ∈ c.handles, m = .canonical u
  | .type t, flat, hn, hflat => by
    rw [Nest.model] at hflat
    split at hflat
    · cases hflat
      simp
    · rename_i h0
      have ht := (hn t List.mem_cons_self).resolve_left h0
      obtain ⟨r, hr⟩ := Catalogue.exists_record ht
      rw [Model.flatten, except_bind_ok (hi.kind_eq hr)] at hflat
      split at hflat
      · rw [except_bind_ok (hi.members_eq hr)] at hflat
        cases hflat
        intro m hm
        obtain ⟨u, hu, rfl⟩ := List.mem_map.1 hm
        have hu' : u ∈ c.handles := by
          cases r with
          | concat ms => exact (hi.valid.admits hr).parts u hu
          | scalar k => exact List.mem_singleton.1 hu ▸ ht
          | pointer elem => exact List.mem_singleton.1 hu ▸ ht
        exact ⟨u, hu', hi.ofTy_eq hu'⟩
      · cases hflat
        intro m hm
        exact ⟨t, ht, List.mem_singleton.1 hm⟩
  | .join parts, flat, hn, hflat => by
    rw [Nest.model, Model.flatten] at hflat
    exact hi.flatten_nestAll parts hn hflat

/-- `flatten_nest` for each nesting of a list. -/
theorem Interned.flatten_nestAll (hi : h.Interned c) : ∀ (parts : List Nest) {flat : List Model},
    (∀ t ∈ Nest.leavesAll parts, c.Knows t) →
      Model.flattenAll h (Nest.modelAll parts) = .ok flat →
        ∀ m ∈ flat, ∃ u ∈ c.handles, m = .canonical u
  | [], flat, _, hflat => by
    cases hflat
    simp
  | n :: rest, flat, hn, hflat => by
    rw [Nest.modelAll, Model.flattenAll] at hflat
    obtain ⟨first, hfirst, hflat⟩ := of_except_bind_eq_ok hflat
    obtain ⟨others, hothers, hflat⟩ := of_except_bind_eq_ok hflat
    cases hflat
    intro m hm
    rcases List.mem_append.1 hm with hm | hm
    · exact hi.flatten_nest n (fun t ht => hn t (List.mem_append_left _ ht)) hfirst m hm
    · exact hi.flatten_nestAll rest (fun t ht => hn t (List.mem_append_right _ ht)) hothers m hm

end

/-- Interning a nested model with several members does what concatenating its leaves does. -/
theorem Standard.intern_nest (hs : h.Standard c) {n : Nest} (hn : ∀ t ∈ n.leaves, c.Knows t)
    (hw : c.WideOfAll n.leaves ws) (hlen : 2 ≤ ws.length) :
    intern n.model h = concatenate n.leaves h := by
  cases n with
  | type t =>
    -- A single leaf with several members is their concatenation already.
    have hj : c.Joins t ws := by
      obtain ⟨wss, hall, rfl⟩ := hw
      cases hall with
      | cons hfirst hrest =>
        cases hrest
        rw [List.flatten_cons, List.flatten_nil, List.append_nil] at hlen ⊢
        exact hfirst.joins hlen
    have hne : t ≠ 0 := by
      rintro rfl
      match ws, hlen, hj with
      | _ :: _ :: _, _, hj => exact hs.ne_zero hj rfl
    rw [hs.concatenate_known hs.records hw hj, Nest.model, if_neg hne]
    rfl
  | join parts =>
    have hrefs := refsIn_nestAll parts hn
    obtain ⟨flat, hflat, hf⟩ := hs.flattenAll_ok (Nest.modelAll parts) hrefs
    have hshapes := hs.shapesOf_nestAll parts hw
    rw [hf.normal_eq] at hshapes
    rw [hs.concatenate_long hs.records hw hlen]
    refine hs.intern_handles hs.records hflat ?_ (hs.wideOfAll_members hw) hshapes hlen
    intro m hm
    exact ⟨hf.single m hm, hs.flatten_nestAll parts hn hflat m hm⟩

/-! ### Types without words -/

/-- The types of a sequence that have words. -/
def withWords (h : Heap) (ts : List Ty) : List Ty :=
  ts.filter fun t => t ≠ 0 ∧ t ≠ h.types.scalars.doesNotReturn

/-- The type of what does not return stays the same. -/
theorem Standard.withWords_eq (hs : h.Standard c) (hs' : h'.Standard c') (hle : c <+: c') :
    h'.withWords = h.withWords := by
  have hdnr := hs'.valid.handle_unique hs'.doesNotReturn (hle.subset hs.doesNotReturn)
  funext ts
  rw [withWords, withWords, hdnr]

/-- Types without words have no members with words. -/
theorem Standard.wideOfAll_withWords (hs : h.Standard c) (hw : c.WideOfAll ts ws) :
    c.WideOfAll (h.withWords ts) ws := by
  induction ts generalizing ws with
  | nil => exact hw
  | cons t rest ih =>
    obtain ⟨wss, hall, rfl⟩ := hw
    cases hall with
    | @cons _ first _ wss' hfirst hrest =>
      have hkept := ih ⟨wss', hrest, rfl⟩
      rw [List.flatten_cons]
      by_cases hwords : t ≠ 0 ∧ t ≠ h.types.scalars.doesNotReturn
      · have heq : h.withWords (t :: rest) = t :: h.withWords rest :=
          List.filter_cons_of_pos (by simpa using hwords)
        rw [heq]
        exact hkept.cons hfirst
      · have heq : h.withWords (t :: rest) = h.withWords rest :=
          List.filter_cons_of_neg (by simpa using hwords)
        have hnone : first = [] := by
          rcases hfirst with ⟨-, hnil⟩ | ⟨r, hr, rfl⟩
          · exact hnil
          · have hdnr : t = h.types.scalars.doesNotReturn := by
              by_contra hne
              exact hwords ⟨hs.ne_zero hr, hne⟩
            subst hdnr
            cases hs.valid.record_unique hr hs.doesNotReturn
            rfl
        rw [heq, hnone]
        exact hkept

/-- Sequences with the same types that have words have the same members. -/
theorem Standard.wideOfAll_congr (hs : h.Standard c) (hw : c.WideOfAll ts ws)
    (hus : ∀ t ∈ us, c.Knows t) (heq : h.withWords us = h.withWords ts) :
    c.WideOfAll us ws := by
  obtain ⟨ws', hw'⟩ := exists_wideOfAll_flat hus
  have hsame := hs.wideOfAll_eq (hs.wideOfAll_withWords hw')
  rw [heq, hs.wideOfAll_eq (hs.wideOfAll_withWords hw)] at hsame
  cases hsame
  exact hw'

/-- Sequences with the same members are concatenated in the same way. -/
theorem Standard.concatenate_congr (hs : h.Standard c) (hts : c.WideOfAll ts ws)
    (hus : c.WideOfAll us ws) : concatenate ts h = concatenate us h := by
  by_cases hlen : ws.length < 2
  · rw [concatenate_short (hs.wideOfAll_eq hts) hlen, concatenate_short (hs.wideOfAll_eq hus) hlen]
  · rw [hs.concatenate_long hs.records hts (by omega),
      hs.concatenate_long hs.records hus (by omega)]

/-- A type that has words joins its own members. -/
theorem joins_wideList (hv : c.Valid) {r : Record} (hr : (t, r) ∈ c)
    (hne : r ≠ .scalar .doesNotReturn) : c.Joins t (r.wideList t) := by
  cases r with
  | scalar k =>
    have hk : k ≠ .doesNotReturn := fun h => hne (by rw [h])
    have hwide : (Record.scalar k).wideList t = [t] := by
      cases k <;> first | rfl | exact absurd rfl hk
    rw [hwide]
    exact ⟨rfl, _, hr, by simpa [Record.isMember] using hk⟩
  | pointer elem => exact ⟨rfl, _, hr, rfl⟩
  | concat ms => exact Catalogue.WideOf.joins (Or.inr ⟨_, hr, rfl⟩) (hv.admits hr).1

/-! ### Sizes -/

theorem Interned.width_wideOfAll (hi : h.Interned c) (hw : c.WideOfAll ts ws) :
    (ts.map h.width).sum = (ws.map h.width).sum := by
  obtain ⟨wss, hall, rfl⟩ := hw
  induction hall with
  | nil => rfl
  | cons hfirst _ ih =>
    rw [List.map_cons, List.sum_cons, ih, (hi.width_wideOf hfirst).2, List.flatten_cons,
      List.map_append, List.sum_append]

/-- The size of a type is the sum of the sizes of several types. -/
def SumOfSizes (h : Heap) (ts : List Ty) (h' : Heap) (t : Ty) : Prop :=
  ∃ ns n, List.Forall₂ (fun u size => h.size u = .ok size) ts ns ∧ h'.size t = .ok n ∧
    n.toNat = (ns.map (·.toNat)).sum

theorem Interned.sumOfSizes (hi : h.Interned c) (hts : ∀ t ∈ ts, c.Knows t)
    (hw : c.WideOfAll ts ws) (he : Extends h c h' c') (hj : c'.Joins t ws) :
    SumOfSizes h ts h' t := by
  obtain ⟨hknows, hwidth⟩ := he.interned.width_wideOf hj.wideOf
  obtain ⟨hsize, hlt⟩ := he.interned.size_known hknows
  have hmembers : ws.map h'.width = ws.map h.width := by
    refine List.map_congr_left fun m hm => ?_
    obtain ⟨r, hr, -⟩ := hi.wideOfAll_members hw m hm
    exact he.width_eq hi (knows_of_mem hr)
  have hsum : h'.width t = (ts.map h.width).sum := by
    rw [hwidth, hmembers, hi.width_wideOfAll hw]
  have htoNat : ∀ {k : Nat}, k < 2 ^ 47 → (UInt64.ofNat k).toNat = k := by
    intro k hk
    rw [UInt64.toNat_ofNat']
    omega
  refine ⟨ts.map fun u => UInt64.ofNat (h.width u), _, ?_, hsize, ?_⟩
  · rw [List.forall₂_map_right_iff, List.forall₂_same]
    intro u hu
    exact (hi.size_known (hts u hu)).1
  · rw [htoNat hlt, hsum, List.map_map]
    congr 1
    refine List.map_congr_left fun u hu => ?_
    exact (htoNat (hi.size_known (hts u hu)).2).symm

/-! ### The monoid -/

/-- The sequence consists of types, and a word counts their members and the words of a
    record of them. -/
structure Joinable (h : Heap) (ts : List Ty) : Prop where
  types : ∀ t ∈ ts, h.IsType t
  counted : ∀ ws, h.wideMembers ts = .ok ws → ws.length + 2 < 2 ^ 64

/-- Concatenation adds sizes, its units are the types without words, a nested model is the
    concatenation of its leaves, and concatenations are flat. -/
structure MonoidOfWords (h : Heap) : Prop where
  sizes : ∀ ts t h', h.Joinable ts → concatenate ts h = .ok t h' → SumOfSizes h ts h' t
  units : ∀ ts us, (∀ t ∈ ts, h.IsType t) → (∀ t ∈ us, h.IsType t) →
    h.withWords us = h.withWords ts → concatenate us h = concatenate ts h
  single : ∀ t, h.IsType t → h.size t ≠ .ok 0 → concatenate [t] h = .ok t h
  models : ∀ (n : Nest) ws, (∀ t ∈ n.leaves, h.IsType t) → h.wideMembers n.leaves = .ok ws →
    2 ≤ ws.length → intern n.model h = concatenate n.leaves h
  members : ∀ t, h.kind t = .ok (some .concatenation) → h.IsType t →
    ∃ ms, h.members t = .ok ms ∧ 2 ≤ ms.length ∧ ∀ m ∈ ms, h.IsType m ∧
      (∃ k, h.kind m = .ok (some k) ∧ k ≠ .concatenation) ∧ ∃ n, h.size m = .ok n ∧ n ≠ 0

theorem Standard.monoidOfWords (hs : h.Standard c) : h.MonoidOfWords := by
  constructor
  · rintro ts t h' ⟨hts, hcount⟩ hrun
    simp only [hs.isType_iff] at hts
    obtain ⟨ws, hw⟩ := exists_wideOfAll_flat hts
    have hlen := hcount ws (hs.wideOfAll_eq hw)
    obtain ⟨c', he, hj⟩ := (hs.concatenate_joins hs.records hw hlen).ok hrun
    exact hs.sumOfSizes hts hw he hj
  · intro ts us hts hus heq
    simp only [hs.isType_iff] at hts hus
    obtain ⟨ws, hw⟩ := exists_wideOfAll_flat hts
    exact hs.concatenate_congr (hs.wideOfAll_congr hw hus heq) hw
  · intro t ht hsize
    rw [hs.isType_iff] at ht
    rcases ht with rfl | ht
    · exact absurd rfl hsize
    · obtain ⟨r, hr⟩ := Catalogue.exists_record ht
      have hne : r ≠ .scalar .doesNotReturn := by
        rintro rfl
        exact hsize (hs.size_member hr fun ms hms => by cases hms)
      have hw : c.WideOfAll [t] (r.wideList t) :=
        ⟨[r.wideList t], .cons (Or.inr ⟨r, hr, rfl⟩) .nil, by simp⟩
      exact hs.concatenate_known hs.records hw (joins_wideList hs.valid hr hne)
  · intro n ws hn hwide hlen
    simp only [hs.isType_iff] at hn
    obtain ⟨ws', hw⟩ := exists_wideOfAll_flat hn
    rw [hs.wideOfAll_eq hw] at hwide
    cases hwide
    exact hs.intern_nest hn hw hlen
  · intro t hkind ht
    rw [hs.isType_iff] at ht
    obtain ⟨ms, hms⟩ := hs.concat_of_kind ht hkind
    obtain ⟨hlen, hall⟩ := hs.valid.admits hms
    refine ⟨ms, hs.members_eq hms, hlen, ?_⟩
    intro m hm
    obtain ⟨r, hr, hmem⟩ := hall m hm
    refine ⟨hs.isType_iff.2 (knows_of_mem hr), ⟨r.kind, hs.kind_eq hr, ?_⟩, ?_⟩
    · intro hk
      exact hs.kind_ne_concat hr (isMember_ne_concat hmem) (by rw [hk])
    · exact ⟨_, hs.size_member hr (isMember_ne_concat hmem),
        Arena.toNat_pos_iff.1 (memberSize_pos hmem)⟩

end Heap

namespace Image

variable {image image' : Image} {c : Catalogue}

/-- A nesting that has been made in an image joins the members of its leaves from then on. -/
theorem make_joins {parts : List Nest} {ws : List Ty} (hs : image.heap.Standard c)
    (hw : c.WideOfAll (Nest.leavesAll parts) ws) (hcount : ws.length + 2 < 2 ^ 64) {t : Ty}
    (hrun : onHeap (Nest.join parts).make image = .ok t image') :
    ∃ c' : Catalogue, c <+: c' ∧ image'.heap.Standard c' ∧ c'.Joins t ws := by
  obtain ⟨c', he, hj⟩ := (onHeap_yields (hs.make_joins hw hcount)).ok hrun
  exact ⟨c', he.older, hs.extends he, hj⟩

/-- In every image that a history leads to, concatenation is a monoid of words.  Once a
    sequence of types has been joined, by concatenations inside each other in any way, every
    way to join it gives the same type at any later time, also with types without words put
    in or left out; and joining stops only where there is no room for the records. -/
theorem concatenate_monoid {words : UInt64} {functions : Nat} {image₀ image₁ : Image}
    (hcreate : Image.create words functions = .ok image₀) (hsteps : Steps image₀ image₁) :
    image₁.heap.MonoidOfWords ∧
      ∀ parts : List Nest, image₁.heap.Joinable (Nest.leavesAll parts) →
        (∀ t image₂, onHeap (Nest.join parts).make image₁ = .ok t image₂ →
          ∀ (image₃ : Image) (parts' : List Nest), Steps image₂ image₃ →
            (∀ u ∈ Nest.leavesAll parts', image₃.heap.IsType u) →
            image₃.heap.withWords (Nest.leavesAll parts')
              = image₁.heap.withWords (Nest.leavesAll parts) →
            onHeap (Heap.concatenate (Nest.leavesAll parts')) image₃ = .ok t image₃ ∧
              ∀ t' image₄, onHeap (Nest.join parts').make image₃ = .ok t' image₄ → t' = t) ∧
        ∀ f image₂ ws, image₁.heap.wideMembers (Nest.leavesAll parts) = .ok ws →
          onHeap (Nest.join parts).make image₁ = .error f image₂ →
          image₁.heap.arena.collecting = false → ¬ image₂.heap.arena.Room (2 + ws.length) := by
  obtain ⟨c₀, hs₀⟩ := create_standard hcreate
  obtain ⟨c₁, -, hs₁⟩ := hsteps.hasTypes hs₀
  refine ⟨hs₁.monoidOfWords, ?_⟩
  rintro parts ⟨htypes, hcounted⟩
  simp only [hs₁.isType_iff] at htypes
  obtain ⟨ws, hw⟩ := Heap.exists_wideOfAll_flat htypes
  have hcount := hcounted ws (hs₁.wideOfAll_eq hw)
  constructor
  · intro t image₂ hrun image₃ parts' hlater htypes' hsame
    obtain ⟨c₂, hle₂, hs₂, hj⟩ := make_joins hs₁ hw hcount hrun
    obtain ⟨c₃, hle₃, hs₃⟩ := hlater.hasTypes hs₂
    simp only [hs₃.isType_iff] at htypes'
    have hj₃ := hj.of_prefix hle₃
    have hle := hle₂.trans hle₃
    have hw₃ : c₃.WideOfAll (Nest.leavesAll parts') ws := by
      apply hs₃.wideOfAll_congr (hw.of_prefix hle) htypes'
      rw [hsame, hs₁.withWords_eq hs₃ hle]
    constructor
    · exact onHeap_ok (hs₃.concatenate_known hs₃.records hw₃ hj₃)
    · intro t' image₄ hrun'
      obtain ⟨c₄, hle₄, hs₄, hj₄⟩ := make_joins hs₃ hw₃ hcount hrun'
      exact hj₄.unique hs₄.valid (hj₃.of_prefix hle₄)
  · intro f image₂ ws' hws' hrun hcollecting
    rw [hs₁.wideOfAll_eq hw] at hws'
    cases hws'
    obtain ⟨c₂, -, hno⟩ := (onHeap_yields (hs₁.make_joins hw hcount)).error hrun
    exact hno hcollecting

/-- Integers around a dynamic value, in a small image: joined in two ways, one of them with
    types that have no words, they have one type. -/
theorem concatenate_monoid_nested : ∃ image₀ image₁ image₂ t,
    Image.create 32 1 = .ok image₀ ∧ image₀.heap.MonoidOfWords ∧
      image₀.heap.Joinable [1, 3, 1] ∧
      onHeap (Nest.join [.join [.type 1, .type 3], .type 1]).make image₀ = .ok t image₁ ∧
      onHeap (Nest.join [.type 0, .type 1, .join [.type 3, .type 2, .type 1]]).make image₁
        = .ok t image₂ := by
  have hruns : (match Image.create 32 1 with
      | .ok image₀ =>
        match onHeap (Nest.join [.join [.type 1, .type 3], .type 1]).make image₀ with
        | .ok _ image₁ =>
          match onHeap (Nest.join [.type 0, .type 1, .join [.type 3, .type 2, .type 1]]).make
              image₁ with
          | .ok _ _ =>
            ([1, 3, 1] : List Ty).all (fun u => decide (u ∈ image₀.heap.handles)) &&
            decide (image₀.heap.wideMembers [1, 3, 1] = .ok [1, 3, 1]) &&
            ([0, 1, 3, 2, 1] : List Ty).all (fun u => decide (u = 0 ∨ u ∈ image₁.heap.handles)) &&
            decide (image₁.heap.withWords [0, 1, 3, 2, 1] = image₀.heap.withWords [1, 3, 1])
          | .error _ _ => false
        | .error _ _ => false
      | .error _ => false) = true := by decide +kernel
  split at hruns
  · rename_i image₀ hcreate
    split at hruns
    · rename_i t image₁ hfirst
      split at hruns
      · rename_i t' image₂ hsecond
        simp only [Bool.and_eq_true, List.all_eq_true, decide_eq_true_eq] at hruns
        obtain ⟨⟨⟨htypes, hwide⟩, htypes'⟩, hsame⟩ := hruns
        have hjoinable : image₀.heap.Joinable [1, 3, 1] := by
          refine ⟨fun u hu => Or.inr (htypes u hu), ?_⟩
          intro ws hws
          rw [hwide] at hws
          cases hws
          decide
        obtain ⟨hmonoid, hjoin⟩ := concatenate_monoid hcreate .refl
        have hsteady := (hjoin [.join [.type 1, .type 3], .type 1] hjoinable).1 t image₁ hfirst
          image₁ [.type 0, .type 1, .join [.type 3, .type 2, .type 1]] .refl htypes' hsame
        obtain rfl := hsteady.2 t' image₂ hsecond
        exact ⟨image₀, image₁, image₂, _, hcreate, hmonoid, hjoinable, hfirst, hsecond⟩
      · cases hruns
    · cases hruns
  · cases hruns

end Image

end TreeMachine
