import TreeMachine.Proofs.Types.Concatenation

/-! # Types of integers side by side

  Compiled expressions have the types of some number of integers: the empty type, the integer
  type or a concatenation.  Main statements: such a type is determined by its width, fits
  exactly itself, and can be made whenever there is room for its record.
-/

namespace TreeMachine

/-- The words of the records in `W` that are not in the catalogue. -/
def Catalogue.lacking (c : Catalogue) (W : List Record) : Nat :=
  ((W.filter (· ∉ c.records)).map (·.words.length)).sum

/-- The type of `w` integers. -/
def Catalogue.Integers (c : Catalogue) (int : Ty) : Nat → Ty → Prop
  | 0, t => t = 0
  | 1, t => t = int
  | n + 2, t => (t, .concat (List.replicate (n + 2) int)) ∈ c

namespace Catalogue

variable {c : Catalogue} {W : List Record} {r : Record} {t : Ty}

theorem lacking_cons (c : Catalogue) (r : Record) (W : List Record) :
    c.lacking (r :: W) = (if r ∈ c.records then 0 else r.words.length) + c.lacking W := by
  unfold lacking
  by_cases hr : r ∈ c.records
  · rw [List.filter_cons_of_neg (by simpa using hr), if_pos hr, Nat.zero_add]
  · rw [List.filter_cons_of_pos (by simpa using hr), if_neg hr, List.map_cons, List.sum_cons]

theorem lacking_le (c : Catalogue) (W : List Record) :
    c.lacking W ≤ (W.map (·.words.length)).sum := by
  induction W with
  | nil => exact Nat.le_refl _
  | cons r W ih =>
    rw [lacking_cons, List.map_cons, List.sum_cons]
    split <;> omega

theorem mem_records_snoc {r' : Record} :
    r' ∈ Catalogue.records (c ++ [(t, r)]) ↔ r' ∈ c.records ∨ r' = r := by
  simp [records]

/-- A new record is not lacking any more. -/
theorem lacking_snoc (hr : r ∈ W) (hnew : r ∉ c.records) :
    r.words.length + Catalogue.lacking (c ++ [(t, r)]) W ≤ c.lacking W := by
  have hle : ∀ W : List Record, Catalogue.lacking (c ++ [(t, r)]) W ≤ c.lacking W := by
    intro W
    induction W with
    | nil => exact Nat.le_refl _
    | cons r' W ih =>
      rw [lacking_cons, lacking_cons]
      by_cases hold : r' ∈ c.records
      · rw [if_pos hold, if_pos (mem_records_snoc.2 (Or.inl hold))]
        omega
      · rw [if_neg hold]
        split <;> omega
  induction W with
  | nil => cases hr
  | cons r' W ih =>
    rw [lacking_cons, lacking_cons]
    by_cases heq : r' = r
    · subst heq
      rw [if_pos (mem_records_snoc.2 (Or.inr rfl)), if_neg hnew]
      have := hle W
      omega
    · have hmem : r ∈ W := (List.mem_cons.1 hr).resolve_left fun h => heq h.symm
      have := ih hmem
      by_cases hold : r' ∈ c.records
      · rw [if_pos hold, if_pos (mem_records_snoc.2 (Or.inl hold))]
        omega
      · rw [if_neg hold, if_neg fun h => (mem_records_snoc.1 h).elim hold heq]
        omega

theorem length_le_lacking (hr : r ∈ W) (hnew : r ∉ c.records) :
    r.words.length ≤ c.lacking W := by
  have := lacking_snoc (t := 0) hr hnew
  omega

end Catalogue

namespace Heap

variable {h h' : Heap} {c c' : Catalogue} {t t' : Ty} {W : List Record} {w w' : Nat}

/-! ### Making records where there is room -/

/-- With room for what is lacking, a record that is asked for can be made, and then there is
    room for the rest. -/
theorem Interned.internRecord_room (hi : h.Interned c) (hidle : h.arena.collecting = false)
    (hroom : h.arena.Room (c.lacking W)) {r : Record} (hr : r ∈ W) (ha : c.Admits r)
    (hlen : r.words.length < 2 ^ 64) :
    ∃ t made h' c', internRecord false r.words h = .ok (t, made) h' ∧ Extends h c h' c' ∧
      (t, r) ∈ c' ∧ h'.arena.Room (c'.lacking W) := by
  by_cases hold : r ∈ c.records
  · obtain ⟨⟨t, r'⟩, hmem, rfl⟩ := List.mem_map.1 hold
    exact ⟨t, false, h, c, hi.internRecord_known hmem, .refl hi, hmem, hroom⟩
  · have hfits := hroom.mono (Catalogue.length_le_lacking hr hold)
    have hyields := hi.internRecord_yields ha (fun hb => absurd hb Bool.false_ne_true) hlen
    obtain ⟨⟨t, made⟩, h', hrun, hpost⟩ :=
      (hyields.mono (fun _ _ => id) fun _ _ herr => herr.2 hidle hfits).exists_ok
    rcases hpost with ⟨-, -, hmem⟩ | ⟨-, hext, hrest⟩
    · exact absurd (Catalogue.mem_records hmem) hold
    · refine ⟨t, made, h', c ++ [(t, r)], hrun, hext, by simp, hrest _ ?_⟩
      exact hroom.mono (Catalogue.lacking_snoc hr hold)

/-! ### Types of a width -/

theorem Extends.integers (he : Extends h c h' c') {int : Ty} (ht : c.Integers int w t) :
    c'.Integers int w t := by
  match w, ht with
  | 0, ht => exact ht
  | 1, ht => exact ht
  | n + 2, ht => exact he.mem ht

/-- The type of a width is the only one. -/
theorem Interned.integers_unique (hi : h.Interned c) {int : Ty} (ht : c.Integers int w t)
    (ht' : c.Integers int w t') : t = t' := by
  match w, ht, ht' with
  | 0, ht, ht' => exact ht.trans ht'.symm
  | 1, ht, ht' => exact ht.trans ht'.symm
  | n + 2, ht, ht' => exact hi.valid.handle_unique ht ht'

theorem Standard.integers_wide (hs : h.Standard c)
    (ht : c.Integers h.types.scalars.integer w t) :
    c.WideOf t (List.replicate w h.types.scalars.integer) := by
  match w, ht with
  | 0, ht => exact Or.inl ⟨ht, rfl⟩
  | 1, ht =>
    subst ht
    exact Or.inr ⟨_, hs.integer, rfl⟩
  | n + 2, ht => exact Or.inr ⟨_, ht, rfl⟩

theorem Standard.width_integer (hs : h.Standard c) : h.width h.types.scalars.integer = 1 :=
  width_of_size (hs.size_member hs.integer fun _ hms => by cases hms)

/-- The size of the type of a width. -/
theorem Standard.size_integers (hs : h.Standard c)
    (ht : c.Integers h.types.scalars.integer w t) :
    h.size t = .ok (UInt64.ofNat w) ∧ w < 2 ^ 47 := by
  match w, ht with
  | 0, ht =>
    subst ht
    exact ⟨size_zero h, by decide⟩
  | 1, ht =>
    subst ht
    exact ⟨hs.size_member hs.integer fun _ hms => (by cases hms), by decide⟩
  | n + 2, ht =>
    obtain ⟨hsize, hwidth, -⟩ := hs.size_concat ht
    have hlt := hs.width_lt ht
    have hsum : ((List.replicate (n + 2) h.types.scalars.integer).map h.width).sum = n + 2 := by
      rw [List.map_replicate, hs.width_integer, List.sum_replicate_nat, Nat.mul_one]
    rw [hsum] at hsize hwidth
    exact ⟨hsize, by omega⟩

/-- The record of the type of a width; the empty type has none. -/
theorem Standard.integers_record (hs : h.Standard c)
    (ht : c.Integers h.types.scalars.integer w t) (hw : 0 < w) :
    ∃ r, (t, r) ∈ c ∧ r ≠ .scalar .doesNotReturn := by
  match w, ht with
  | 1, ht =>
    subst ht
    exact ⟨_, hs.integer, by decide⟩
  | n + 2, ht => exact ⟨_, ht, fun heq => by cases heq⟩

theorem Standard.integers_returns (hs : h.Standard c)
    (ht : c.Integers h.types.scalars.integer w t) : t ≠ h.types.scalars.doesNotReturn := by
  intro heq
  by_cases hw : w = 0
  · subst hw
    exact hs.ne_zero hs.doesNotReturn (heq.symm.trans ht)
  · obtain ⟨r, hr, hne⟩ := hs.integers_record ht (by omega)
    rw [heq] at hr
    exact hne (hs.valid.record_unique hr hs.doesNotReturn)

theorem Standard.integers_text (hs : h.Standard c)
    (ht : c.Integers h.types.scalars.integer w t) : ∃ s, h.typeText t = .ok s := by
  refine hs.typeText_ok ?_
  by_cases hw : w = 0
  · subst hw
    exact Or.inl ht
  · obtain ⟨r, hr, -⟩ := hs.integers_record ht (by omega)
    exact Or.inr (Catalogue.mem_handles hr)

/-! ### Fitting -/

/-- The kind of the type of a width. -/
def integersKind : Nat → Option Kind
  | 0 => none
  | 1 => some .integer
  | _ + 2 => some .concatenation

theorem Standard.kind_integers (hs : h.Standard c)
    (ht : c.Integers h.types.scalars.integer w t) : h.kind t = .ok (integersKind w) := by
  match w, ht with
  | 0, ht =>
    subst ht
    rfl
  | 1, ht =>
    subst ht
    exact hs.kind_eq hs.integer
  | n + 2, ht => exact hs.kind_eq ht

/-- A type of integers fits exactly the type of the same width. -/
theorem Standard.fits_integers (hs : h.Standard c)
    (ht : c.Integers h.types.scalars.integer w t)
    (ht' : c.Integers h.types.scalars.integer w' t') :
    h.fits t t' = .ok (decide (w = w')) := by
  by_cases hw : w = w'
  · subst hw
    rw [hs.integers_unique ht' ht, decide_eq_true rfl]
    unfold fits depthBound fitsWithin
    rw [if_pos rfl]
    rfl
  · have hne : t ≠ t' := by
      intro heq
      subst heq
      have hsize := (hs.size_integers ht).1
      rw [(hs.size_integers ht').1, Except.ok.injEq] at hsize
      have hlt := (hs.size_integers ht).2
      have hlt' := (hs.size_integers ht').2
      have := congrArg UInt64.toNat hsize
      rw [UInt64.toNat_ofNat', UInt64.toNat_ofNat'] at this
      omega
    rw [decide_eq_false hw]
    unfold fits depthBound fitsWithin
    rw [if_neg hne, if_neg (hs.integers_returns ht)]
    have hkind := hs.kind_integers ht
    have hkind' := hs.kind_integers ht'
    -- No type of integers is an address, so only two concatenations are compared further.
    have hlike : h.isPointerLike t = .ok false := by
      rw [isPointerLike, except_bind_ok hkind]
      match w with
      | 0 | 1 | n + 2 => rfl
    rw [hlike, hkind, hkind']
    match w, w', ht, ht' with
    | 0, _, _, _ | 1, _, _, _ => split <;> rfl
    | n + 2, 0, _, _ | n + 2, 1, _, _ => split <;> rfl
    | n + 2, n' + 2, ht, ht' =>
      have hmembers := hs.members_eq ht
      have hmembers' := hs.members_eq ht'
      have hlen : (memberList t (.concat (List.replicate (n + 2) h.types.scalars.integer))).length
          ≠ (memberList t' (.concat (List.replicate (n' + 2) h.types.scalars.integer))).length := by
        simp only [memberList, List.length_replicate]
        omega
      rw [hmembers, hmembers']
      split
      all_goals
        simp only [integersKind, bind, Except.bind, ne_eq, not_true_eq_false, if_false]
        rw [if_pos hlen]
        rfl

/-- A type of integers fits the integer type if it is that type. -/
theorem Standard.fits_integer (hs : h.Standard c)
    (ht : c.Integers h.types.scalars.integer w t) :
    h.fits t h.types.scalars.integer = .ok (decide (w = 1)) :=
  hs.fits_integers ht rfl

/-! ### Making the types of expressions -/

/-- The members of a type of integers. -/
theorem Standard.admits_integers (hs : h.Standard c) (n : Nat) :
    c.Admits (.concat (List.replicate (n + 2) h.types.scalars.integer)) := by
  refine ⟨by simp, ?_⟩
  intro m hm
  rw [List.eq_of_mem_replicate hm]
  exact ⟨_, hs.integer, rfl⟩

/-- The concatenation of two types of integers. -/
theorem Standard.concatenate_room (hs : h.Standard c) (hidle : h.arena.collecting = false)
    (hroom : h.arena.Room (c.lacking W)) (ht : c.Integers h.types.scalars.integer w t)
    (ht' : c.Integers h.types.scalars.integer w' t')
    (hW : ∀ n, w + w' = n + 2 → .concat (List.replicate (n + 2) h.types.scalars.integer) ∈ W) :
    ∃ u h' c', concatenate [t, t'] h = .ok u h' ∧ Extends h c h' c' ∧
      c'.Integers h.types.scalars.integer (w + w') u ∧ h'.arena.Room (c'.lacking W) := by
  have hlt := (hs.size_integers ht).2
  have hlt' := (hs.size_integers ht').2
  have hwide : h.wideMembers [t, t']
      = .ok (List.replicate (w + w') h.types.scalars.integer) := by
    rw [hs.wideMembers_eq (.cons (hs.integers_wide ht) (.cons (hs.integers_wide ht') .nil)),
      List.flatten_cons, List.flatten_cons, List.flatten_nil, List.append_nil,
      List.replicate_append_replicate]
  have hpeek : peek (·.wideMembers [t, t']) h
      = .ok (List.replicate (w + w') h.types.scalars.integer) h := inspect_eq_ok hwide
  generalize hsum : w + w' = k at hpeek hW ⊢
  match k, hpeek, hW with
  | 0, hpeek, _ => exact ⟨0, h, c, bind_eq_ok hpeek, .refl hs.toInterned, rfl, hroom⟩
  | 1, hpeek, _ => exact ⟨_, h, c, bind_eq_ok hpeek, .refl hs.toInterned, rfl, hroom⟩
  | n + 2, hpeek, hW =>
    have hadm := hs.admits_integers n
    have hlen : (Record.concat (List.replicate (n + 2) h.types.scalars.integer)).words.length
        < 2 ^ 64 := by
      simp only [Record.words, List.length_cons, List.length_replicate]
      omega
    obtain ⟨u, made, h', c', hrun, hext, hmem, hrest⟩ :=
      hs.internRecord_room hidle hroom (hW n rfl) hadm hlen
    refine ⟨u, h', c', ?_, hext, hmem, hrest⟩
    have hintern := hs.intern_concat hs.records hadm.1 hadm.2
    rw [bind_eq_ok hrun] at hintern
    exact (bind_eq_ok hpeek).trans hintern

/-- The type of pointers to integers. -/
theorem Standard.pointerTo_room (hs : h.Standard c) (hidle : h.arena.collecting = false)
    (hroom : h.arena.Room (c.lacking W)) (hW : .pointer h.types.scalars.integer ∈ W) :
    ∃ u h' c', pointerTo h.types.scalars.integer h = .ok u h' ∧ Extends h c h' c' ∧
      (u, .pointer h.types.scalars.integer) ∈ c' ∧ h'.arena.Room (c'.lacking W) := by
  have hadm : c.Admits (.pointer h.types.scalars.integer) := Catalogue.mem_handles hs.integer
  obtain ⟨u, made, h', c', hrun, hext, hmem, hrest⟩ :=
    hs.internRecord_room hidle hroom hW hadm (by simp [Record.words])
  refine ⟨u, h', c', ?_, hext, hmem, hrest⟩
  have hne := hs.ne_zero hs.integer
  unfold pointerTo intern
  rw [hs.ofTy_eq (Catalogue.mem_handles hs.integer)]
  have hwithin : internWithin (Model.pointer (.canonical h.types.scalars.integer)).depth
      (.pointer (.canonical h.types.scalars.integer)) h = .ok (u, made) h' := by
    show (if h.types.scalars.integer = 0 then throw (.broken .pointerToEmpty)
      else internRecord false [Kind.pointer.word, h.types.scalars.integer] :
        HeapM (Ty × Bool)) h = _
    rw [if_neg hne]
    exact hrun
  rw [bind_eq_ok hwithin]
  rfl

end Heap

end TreeMachine
