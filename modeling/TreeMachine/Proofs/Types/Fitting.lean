import TreeMachine.Proofs.Types.Integers

/-! # Widths of types

  The width of a type is read off its record, so it stays the same while the heap grows.
  Main statements: what fits has the width of what it fits, unless it does not return, and
  the width of a concatenation is the sum of the widths of its parts.
-/

namespace TreeMachine

/-- The empty type or a type of the catalogue. -/
def Catalogue.Knows (c : Catalogue) (t : Ty) : Prop := t = 0 ∨ t ∈ c.handles

namespace Heap

variable {h h' : Heap} {c c' : Catalogue} {t : Ty} {r : Record}

theorem knows_of_mem (he : (t, r) ∈ c) : c.Knows t := Or.inr (Catalogue.mem_handles he)

theorem Extends.knows (he : Extends h c h' c') (ht : c.Knows t) : c'.Knows t :=
  ht.imp id he.mem_handles

theorem width_zero (h : Heap) : h.width 0 = 0 := rfl

/-- Every type has a size, and a small one. -/
theorem Interned.size_known (hi : h.Interned c) (ht : c.Knows t) :
    h.size t = .ok (UInt64.ofNat (h.width t)) ∧ h.width t < 2 ^ 47 := by
  rcases ht with rfl | ht
  · exact ⟨rfl, by rw [width_zero]; decide⟩
  · obtain ⟨r, hr⟩ := Catalogue.exists_record ht
    exact ⟨hi.size_eq hr, hi.width_lt hr⟩

theorem Interned.width_record (hi : h.Interned c) (he : (t, r) ∈ c) (hr : ∀ ms, r ≠ .concat ms) :
    h.width t = r.memberSize.toNat :=
  width_of_size (hi.size_member he hr)

/-- A type keeps its width while the heap grows. -/
theorem Extends.width_eq (he : Extends h c h' c') (hi : h.Interned c) (ht : c.Knows t) :
    h'.width t = h.width t := by
  have hi' := he.interned
  rcases ht with rfl | ht
  · rfl
  obtain ⟨r, hr⟩ := Catalogue.exists_record ht
  by_cases hconcat : ∃ ms, r = .concat ms
  · obtain ⟨ms, rfl⟩ := hconcat
    rw [(hi.size_concat hr).2.1, (hi'.size_concat (he.mem hr)).2.1]
    congr 1
    refine List.map_congr_left fun m hm => ?_
    obtain ⟨rm, hrm, hmem⟩ := (hi.valid.admits hr).2 m hm
    have hne := isMember_ne_concat hmem
    rw [hi.width_record hrm hne, hi'.width_record (he.mem hrm) hne]
  · have hne : ∀ ms, r ≠ .concat ms := fun ms hms => hconcat ⟨ms, hms⟩
    rw [hi.width_record hr hne, hi'.width_record (he.mem hr) hne]

/-! ### Types of one word -/

theorem Standard.width_doesNotReturn (hs : h.Standard c) :
    h.width h.types.scalars.doesNotReturn = 0 :=
  hs.width_record hs.doesNotReturn fun ms hms => by cases hms

theorem Standard.width_dynamic (hs : h.Standard c) : h.width h.types.scalars.dynamic = 2 :=
  hs.width_record hs.dynamic fun ms hms => by cases hms

theorem Standard.width_function (hs : h.Standard c) : h.width h.types.scalars.function = 1 :=
  hs.width_record hs.function fun ms hms => by cases hms

theorem Standard.width_ast (hs : h.Standard c) : h.width h.types.scalars.ast = 1 :=
  hs.width_record hs.ast fun ms hms => by cases hms

theorem Interned.width_pointer (hi : h.Interned c) {elem : Ty} (he : (t, .pointer elem) ∈ c) :
    h.width t = 1 :=
  hi.width_record he fun ms hms => by cases hms

/-- Every type has a kind, but for the empty one. -/
theorem Interned.kind_known (hi : h.Interned c) (ht : c.Knows t) : ∃ k, h.kind t = .ok k := by
  rcases ht with rfl | ht
  · exact ⟨none, rfl⟩
  · obtain ⟨r, hr⟩ := Catalogue.exists_record ht
    exact ⟨_, hi.kind_eq hr⟩

/-- The record of a type with a kind. -/
theorem Interned.record_of_kind (hi : h.Interned c) (ht : c.Knows t) {k : Kind}
    (hk : h.kind t = .ok (some k)) : ∃ r, (t, r) ∈ c ∧ r.kind = k := by
  rcases ht with rfl | ht
  · cases hk
  · obtain ⟨r, hr⟩ := Catalogue.exists_record ht
    rw [hi.kind_eq hr] at hk
    exact ⟨r, hr, Option.some.inj (Except.ok.inj hk)⟩

/-- A type of the kind of pointers is one to a type of the catalogue. -/
theorem Interned.pointer_of_kind (hi : h.Interned c) (ht : c.Knows t)
    (hk : h.kind t = .ok (some .pointer)) :
    ∃ elem, (t, .pointer elem) ∈ c ∧ h.elem t = .ok elem ∧ c.Knows elem ∧ h.width t = 1 := by
  obtain ⟨r, hr, hkind⟩ := hi.record_of_kind ht hk
  cases r with
  | scalar k =>
    have hk : k = .pointer := hkind
    subst hk
    have := hi.valid.admits hr
    cases this
  | pointer elem =>
    exact ⟨elem, hr, hi.elem_eq hr, Or.inr (hi.valid.admits hr), hi.width_pointer hr⟩
  | concat ms => cases hkind

theorem Interned.concat_of_kind (hi : h.Interned c) (ht : c.Knows t)
    (hk : h.kind t = .ok (some .concatenation)) : ∃ ms, (t, .concat ms) ∈ c := by
  obtain ⟨r, hr, hkind⟩ := hi.record_of_kind ht hk
  cases r with
  | scalar k =>
    have hk : k = .concatenation := hkind
    subst hk
    have := hi.valid.admits hr
    cases this
  | pointer elem => cases hkind
  | concat ms => exact ⟨ms, hr⟩

/-- What fits an integer as an address has one word. -/
theorem Interned.width_pointerLike (hi : h.Interned c) (ht : c.Knows t)
    (hp : h.isPointerLike t = .ok true) : h.width t = 1 := by
  unfold isPointerLike at hp
  obtain ⟨k, hk, hp⟩ := of_except_bind_eq_ok hp
  cases k with
  | none => cases hp
  | some k =>
    obtain ⟨r, hr, rfl⟩ := hi.record_of_kind ht hk
    cases r with
    | scalar k =>
      rw [hi.width_record hr fun ms hms => by cases hms]
      cases k <;> first | rfl | cases hp
    | pointer elem => exact hi.width_pointer hr
    | concat ms => cases hp

/-! ### Fitting -/

theorem allFit_eq_true {f : Ty → Ty → Except Fault Bool} {gs ws : List Ty}
    (hf : allFit f gs ws = .ok true) : List.Forall₂ (fun g w => f g w = .ok true) gs ws := by
  induction gs generalizing ws with
  | nil =>
    cases ws with
    | nil => exact .nil
    | cons w ws => cases hf
  | cons g gs ih =>
    cases ws with
    | nil => cases hf
    | cons w ws =>
      obtain ⟨b, hb, hf⟩ := of_except_bind_eq_ok hf
      cases b with
      | false => cases hf
      | true => exact .cons hb (ih hf)

/-- Members of concatenations all return, so members that fit have the same widths. -/
theorem Standard.widths_fit (hs : h.Standard c) {f : Ty → Ty → Except Fault Bool}
    (hf : ∀ {given want : Ty}, c.Knows given → c.Knows want → f given want = .ok true →
      given = h.types.scalars.doesNotReturn ∨ h.width given = h.width want)
    {gs ws : List Ty} (hall : List.Forall₂ (fun g w => f g w = .ok true) gs ws)
    (hgs : ∀ m ∈ gs, ∃ r, (m, r) ∈ c ∧ r.isMember = true)
    (hws : ∀ m ∈ ws, ∃ r, (m, r) ∈ c ∧ r.isMember = true) :
    gs.map h.width = ws.map h.width := by
  induction hall with
  | nil => rfl
  | @cons g w gs ws hgw _ ih =>
    obtain ⟨rg, hrg, hmem⟩ := hgs g List.mem_cons_self
    obtain ⟨rw', hrw, -⟩ := hws w List.mem_cons_self
    have hne : g ≠ h.types.scalars.doesNotReturn := by
      rintro rfl
      cases hs.valid.record_unique hrg hs.doesNotReturn
      cases hmem
    have hone := (hf (knows_of_mem hrg) (knows_of_mem hrw) hgw).resolve_left hne
    have hrest := ih (fun m hm => hgs m (List.mem_cons_of_mem _ hm))
      fun m hm => hws m (List.mem_cons_of_mem _ hm)
    rw [List.map_cons, List.map_cons, hone, hrest]

/-- What fits has the width of what it fits, unless it does not return. -/
theorem Standard.width_fitsWithin (hs : h.Standard c) {depth : Nat} {given want : Ty}
    (hg : c.Knows given) (hw : c.Knows want) (hf : h.fitsWithin depth given want = .ok true) :
    given = h.types.scalars.doesNotReturn ∨ h.width given = h.width want := by
  induction depth generalizing given want with
  | zero => cases hf
  | succ depth ih =>
    unfold fitsWithin at hf
    split at hf
    · exact Or.inr (by congr 1)
    split at hf
    · exact Or.inl (by assumption)
    -- Concatenations fit member by member.
    have hmembers : (do
        if (← h.kind given) ≠ some .concatenation then return false
        if (← h.kind want) ≠ some .concatenation then return false
        let gs ← h.members given
        let ws ← h.members want
        if gs.length ≠ ws.length then return false
        allFit (h.fitsWithin depth) gs ws : Except Fault Bool) = .ok true →
        h.width given = h.width want := by
      intro hf
      obtain ⟨k, hk, hf⟩ := of_except_bind_eq_ok hf
      split at hf
      · cases hf
      rename_i hgk
      obtain ⟨k', hk', hf⟩ := of_except_bind_eq_ok hf
      split at hf
      · cases hf
      rename_i hwk
      rw [not_not] at hgk hwk
      subst hgk hwk
      obtain ⟨gs, hgs⟩ := hs.concat_of_kind hg hk
      obtain ⟨ws, hws⟩ := hs.concat_of_kind hw hk'
      rw [except_bind_ok (hs.members_eq hgs), except_bind_ok (hs.members_eq hws)] at hf
      split at hf
      · cases hf
      rw [(hs.size_concat hgs).2.1, (hs.size_concat hws).2.1]
      congr 1
      exact hs.widths_fit ih (allFit_eq_true hf) (hs.valid.admits hgs).2 (hs.valid.admits hws).2
    right
    split at hf
    · rename_i hint
      obtain ⟨b, hb, hf⟩ := of_except_bind_eq_ok hf
      cases b with
      | true => rw [hs.width_pointerLike hg hb, hint, hs.width_integer]
      | false => exact hmembers hf
    · exact hmembers hf

theorem Standard.width_fits (hs : h.Standard c) {given want : Ty} (hg : c.Knows given)
    (hw : c.Knows want) (hf : h.fits given want = .ok true) :
    given = h.types.scalars.doesNotReturn ∨ h.width given = h.width want :=
  hs.width_fitsWithin hg hw hf

/-- Operands are checked to be integers, nodes or functions. -/
theorem kind_checked {tag : Tag} {want : Kind} (hp : .checked want ∈ tag.schema.params) :
    want = .integer ∨ want = .ast ∨ want = .function := by
  revert hp
  cases tag <;> simp +contextual [Tag.schema, Tag.unary, Tag.binary]

/-- The type that an operand is checked for. -/
theorem scalar_checked (h : Heap) {tag : Tag} {want : Kind}
    (hp : .checked want ∈ tag.schema.params) : ∃ want', h.scalar want.word = .ok want' := by
  rcases kind_checked hp with rfl | rfl | rfl <;> exact ⟨_, rfl⟩

/-- An operand that is checked has one word, unless it does not return. -/
theorem Standard.width_checked (hs : h.Standard c) {tag : Tag} {want : Kind}
    (hp : .checked want ∈ tag.schema.params) {want' : Ty} (hwant : h.scalar want.word = .ok want') :
    c.Knows want' ∧ h.width want' = 1 := by
  rcases kind_checked hp with rfl | rfl | rfl
  · cases hwant
    exact ⟨knows_of_mem hs.integer, hs.width_integer⟩
  · cases hwant
    exact ⟨knows_of_mem hs.ast, hs.width_ast⟩
  · cases hwant
    exact ⟨knows_of_mem hs.function, hs.width_function⟩

/-! ### Making types -/

/-- A type is as wide as its members that have words are together. -/
theorem Interned.width_wideOf (hi : h.Interned c) {ws : List Ty} (hw : c.WideOf t ws) :
    c.Knows t ∧ h.width t = (ws.map h.width).sum := by
  rcases hw with ⟨rfl, rfl⟩ | ⟨r, hr, rfl⟩
  · exact ⟨Or.inl rfl, rfl⟩
  · refine ⟨knows_of_mem hr, ?_⟩
    cases r with
    | scalar k =>
      have hwidth := hi.width_record hr fun ms hms => by cases hms
      cases k with
      | doesNotReturn => exact hwidth
      | _ => simp [Record.wideList]
    | pointer elem => simp [Record.wideList]
    | concat ms => exact (hi.size_concat hr).2.1

theorem Interned.length_le_width (hi : h.Interned c) {ws : List Ty}
    (hw : ∀ m ∈ ws, ∃ r, (m, r) ∈ c ∧ r.isMember = true) : ws.length ≤ (ws.map h.width).sum := by
  induction ws with
  | nil => exact Nat.le_refl _
  | cons m rest ih =>
    obtain ⟨r, hr, hmem⟩ := hw m List.mem_cons_self
    have hpos := (hi.width_member hr hmem).2.1
    have := ih fun m hm => hw m (List.mem_cons_of_mem _ hm)
    rw [List.map_cons, List.sum_cons, List.length_cons]
    omega

/-- A word can count the members of a concatenation of two types. -/
theorem Standard.length_wideOf_lt (hs : h.Standard c) {t' : Ty} (ht : c.Knows t)
    (ht' : c.Knows t') {ws ws' : List Ty} (hws : c.WideOf t ws) (hws' : c.WideOf t' ws') :
    [ws, ws'].flatten.length + 2 < 2 ^ 64 := by
  have hle := hs.length_le_width (hs.wideOf_members hws)
  have hle' := hs.length_le_width (hs.wideOf_members hws')
  have hlt := (hs.size_known ht).2
  have hlt' := (hs.size_known ht').2
  rw [← (hs.width_wideOf hws).2] at hle
  rw [← (hs.width_wideOf hws').2] at hle'
  simp only [List.flatten_cons, List.flatten_nil, List.append_nil, List.length_append]
  omega

/-- The concatenation of two types is as wide as both together. -/
theorem Standard.concatenate_width (hs : h.Standard c) {t t' : Ty} (ht : c.Knows t)
    (ht' : c.Knows t') :
    Yields (concatenate [t, t']) h
      (fun u h' => ∃ c', Extends h c h' c' ∧ c'.Knows u ∧ h'.width u = h.width t + h.width t')
      (fun _ _ => True) := by
  obtain ⟨ws, hws⟩ := exists_wideOf ht
  obtain ⟨ws', hws'⟩ := exists_wideOf ht'
  have hwidth := (hs.width_wideOf hws).2
  have hwidth' := (hs.width_wideOf hws').2
  have hmembers := hs.wideOf_members hws
  have hmembers' := hs.wideOf_members hws'
  have hlen := hs.length_wideOf_lt ht ht' hws hws'
  refine (hs.concatenate_yields hs.records (.cons hws (.cons hws' .nil)) hlen).mono ?_
    fun _ _ _ => trivial
  rintro u h' ⟨c', hext, hwide, -⟩
  obtain ⟨hknows, hsum⟩ := hext.interned.width_wideOf hwide
  refine ⟨c', hext, hknows, ?_⟩
  have hsame : ∀ {l : List Ty}, (∀ m ∈ l, ∃ r, (m, r) ∈ c ∧ r.isMember = true) →
      l.map h'.width = l.map h.width := by
    intro l hl
    refine List.map_congr_left fun m hm => ?_
    obtain ⟨r, hr, -⟩ := hl m hm
    exact hext.width_eq hs.toInterned (knows_of_mem hr)
  rw [hsum, hwidth, hwidth', List.flatten_cons, List.flatten_cons, List.flatten_nil,
    List.append_nil, List.map_append, List.sum_append, hsame hmembers, hsame hmembers']

/-- The type of pointers to a type is the one with the record that names it. -/
theorem Interned.pointerTo_eq (hi : h.Interned c) (ht : t ∈ c.handles) :
    pointerTo t h
      = (internRecord false (Record.pointer t).words >>= fun p => pure p.1) h := by
  obtain ⟨r, hr⟩ := Catalogue.exists_record ht
  have hwithin : internWithin (Model.pointer (.canonical t)).depth (.pointer (.canonical t))
      = internRecord false (Record.pointer t).words := by
    show (do if t = 0 then throw (.broken .pointerToEmpty)
             internRecord false [Kind.pointer.word, t] : HeapM (Ty × Bool)) = _
    rw [if_neg (hi.ne_zero hr)]
    rfl
  unfold pointerTo intern
  rw [hi.ofTy_eq ht, hwithin]

/-- The type of pointers to a type of the catalogue. -/
theorem Interned.pointerTo_yields (hi : h.Interned c) (ht : c.Knows t) :
    Yields (pointerTo t) h (fun u h' => ∃ c', Extends h c h' c' ∧ (u, .pointer t) ∈ c')
      (fun _ _ => True) := by
  rcases ht with rfl | ht
  · exact trivial
  have hadm : c.Admits (.pointer t) := ht
  refine Yields.congr (hi.pointerTo_eq ht) (Yields.bind ((hi.internRecord_yields hadm
    (fun hb => absurd hb Bool.false_ne_true) (by simp [Record.words])).mono ?_
    fun _ _ _ => trivial))
  rintro ⟨u, made⟩ h' (⟨-, rfl, hmem⟩ | ⟨-, hext, -⟩)
  · exact ⟨c, .refl hi, hmem⟩
  · exact ⟨_, hext, by simp⟩

end Heap

end TreeMachine
