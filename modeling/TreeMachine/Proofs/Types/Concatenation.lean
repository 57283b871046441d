import TreeMachine.Proofs.Types.Scalars

/-! # Pointers and concatenations of types

  The concatenation of types is made of their members that have words.  What interns it sees
  handles only, so at most one record is made.
-/

namespace TreeMachine

/-- The members with words of a type `t` that has this record. -/
def Record.wideList (t : Ty) : Record → List Ty
  | .scalar .doesNotReturn => []
  | .concat members => members
  | _ => [t]

/-- The list `ws` holds the members with words of `t`. -/
def Catalogue.WideOf (c : Catalogue) (t : Ty) (ws : List Ty) : Prop :=
  (t = 0 ∧ ws = []) ∨ ∃ r, (t, r) ∈ c ∧ ws = r.wideList t

namespace Heap

variable {h h' : Heap} {c c' : Catalogue} {t : Ty} {ws : List Ty}

theorem exists_wideOf (ht : t = 0 ∨ t ∈ c.handles) : ∃ ws, c.WideOf t ws := by
  rcases ht with rfl | ht
  · exact ⟨[], Or.inl ⟨rfl, rfl⟩⟩
  · obtain ⟨r, hr⟩ := Catalogue.exists_record ht
    exact ⟨_, Or.inr ⟨r, hr, rfl⟩⟩

/-- Each of them is a member that has words. -/
theorem Interned.wideOf_members (hi : h.Interned c) (hw : c.WideOf t ws) :
    ∀ m ∈ ws, ∃ r, (m, r) ∈ c ∧ r.isMember = true := by
  rcases hw with ⟨-, rfl⟩ | ⟨r, hr, rfl⟩
  · exact fun m hm => (nomatch hm)
  · intro m hm
    cases r with
    | scalar k =>
      cases k with
      | doesNotReturn => cases hm
      | _ => exact ⟨_, List.mem_singleton.1 hm ▸ hr, rfl⟩
    | pointer elem => exact ⟨_, List.mem_singleton.1 hm ▸ hr, rfl⟩
    | concat ms => exact (hi.valid.admits hr).2 m hm

theorem filterM_eq {p : Ty → Except Fault Bool} {q : Ty → Bool} {l : List Ty}
    (hp : ∀ x ∈ l, p x = .ok (q x)) : l.filterM p = .ok (l.filter q) := by
  have haux : ∀ (l acc : List Ty), (∀ x ∈ l, p x = .ok (q x)) →
      List.filterAuxM p l acc = .ok ((l.filter q).reverse ++ acc) := by
    intro l
    induction l with
    | nil => exact fun _ _ => rfl
    | cons x rest ih =>
      intro acc hp
      rw [List.filterAuxM, except_bind_ok (hp x List.mem_cons_self),
        ih _ fun y hy => hp y (List.mem_cons_of_mem _ hy)]
      cases hq : q x <;> simp [hq]
  rw [List.filterM, except_bind_ok (haux l [] hp)]
  simp [Pure.pure, Except.pure]

/-- The members with words of one type. -/
theorem Interned.own_wide (hi : h.Interned c) (hw : c.WideOf t ws) :
    (do (← h.members t).filterM fun m => return (← h.size m) ≠ 0) = .ok ws := by
  -- All members of a concatenation have words; any other type is looked at itself.
  have hmembers := hi.wideOf_members hw
  have hkeep : (∀ m ∈ ws, (do return decide ((← h.size m) ≠ 0) : Except Fault Bool)
      = .ok true) := by
    intro m hm
    obtain ⟨r, hr, hmem⟩ := hmembers m hm
    have hpos := Arena.toNat_pos_iff.1 (memberSize_pos hmem)
    rw [except_bind_ok (hi.size_member hr (isMember_ne_concat hmem)), decide_eq_true hpos]
    rfl
  have hall : ws.filterM (fun m => return (← h.size m) ≠ 0) = (.ok ws : Except Fault _) := by
    rw [filterM_eq (q := fun _ => true) hkeep, List.filter_eq_self.2 fun _ _ => rfl]
  rcases hw with ⟨rfl, rfl⟩ | ⟨r, hr, rfl⟩
  · rfl
  · rw [except_bind_ok (hi.members_eq hr)]
    cases r with
    | scalar k =>
      cases k with
      | doesNotReturn =>
        have hsize := hi.size_member hr fun ms h => (nomatch h)
        rw [filterM_eq (q := fun _ => false)]
        · rfl
        · intro x hx
          rw [List.mem_singleton.1 hx, except_bind_ok hsize]
          rfl
      | _ => exact hall
    | pointer elem => exact hall
    | concat ms => exact hall

/-- The members with words of several types. -/
theorem Interned.wideMembers_eq (hi : h.Interned c) {ts : List Ty} {wss : List (List Ty)}
    (hw : List.Forall₂ c.WideOf ts wss) : h.wideMembers ts = .ok wss.flatten := by
  induction hw with
  | nil => rfl
  | @cons t ws ts wss hfirst _ ih =>
    have hown := hi.own_wide hfirst
    rw [wideMembers, List.flatten_cons]
    obtain ⟨ms, hms, hfilter⟩ := of_except_bind_eq_ok hown
    rw [except_bind_ok hms, except_bind_ok hfilter, except_bind_ok ih]
    rfl

/-- The members with words have the shapes that the type brings to a concatenation. -/
theorem Interned.shapesOf_wideOf (hi : h.Interned c) (hw : c.WideOf t ws) :
    shapesOf c.shapes ws = some ((c.shapes t).getD .void).spread := by
  rcases hw with ⟨rfl, rfl⟩ | ⟨r, hr, rfl⟩
  · rw [Catalogue.shapes_of_not_mem hi.zero_not_mem]
    rfl
  · have hshape := hi.valid.shapes_eq hr
    by_cases hmem : r.isMember = true
    · obtain ⟨s, hs, hspread⟩ := hi.valid.spread_member hr hmem
      have hwide : r.wideList t = [t] := by
        cases r with
        | scalar k => cases k <;> first | rfl | cases hmem
        | pointer elem => rfl
        | concat ms => cases hmem
      rw [hwide, hs, Option.getD_some, hspread, shapesOf, hs]
      rfl
    · cases r with
      | scalar k =>
        have hk : k = .doesNotReturn := by simpa [Record.isMember] using hmem
        subst hk
        rw [hshape]
        rfl
      | pointer elem => exact absurd rfl hmem
      | concat ms =>
        obtain ⟨ss, hss⟩ := shapesOf_isSome fun m hm => by
          obtain ⟨rm, hrm, -⟩ := (hi.valid.admits hr).2 m hm
          exact hi.valid.shapes_isSome (Catalogue.mem_handles hrm)
        rw [hshape, Record.shape, hss]
        exact hss

theorem exists_wideOfAll {ts : List Ty} (hts : ∀ t ∈ ts, t = 0 ∨ t ∈ c.handles) :
    ∃ wss, List.Forall₂ c.WideOf ts wss := by
  induction ts with
  | nil => exact ⟨[], .nil⟩
  | cons t rest ih =>
    obtain ⟨ws, hws⟩ := exists_wideOf (hts t List.mem_cons_self)
    obtain ⟨wss, hwss⟩ := ih fun t ht => hts t (List.mem_cons_of_mem _ ht)
    exact ⟨ws :: wss, .cons hws hwss⟩

/-- The concatenation of the types has as many members as its normal form. -/
theorem Interned.length_wideOf (hi : h.Interned c) {ts : List Ty} {wss : List (List Ty)}
    (hw : List.Forall₂ c.WideOf ts wss) :
    wss.flatten.length = (Model.normalAll c.shapes (ts.map .canonical)).length := by
  induction hw with
  | nil => rfl
  | cons hfirst _ ih =>
    have := length_shapesOf (hi.shapesOf_wideOf hfirst)
    rw [List.flatten_cons, List.length_append, List.map_cons, Model.normalAll,
      List.length_append, ih, Model.normal, this]

/-- A member with words is a single part of a concatenation. -/
theorem single_of_isMember {r : Record} (hr : (t, r) ∈ c) (hmem : r.isMember = true) :
    (Model.canonical t).Single c :=
  ⟨r, hr, isMember_ne_concat hmem⟩

/-- Handles of members bring themselves to a concatenation. -/
theorem Interned.flattenAll_members (hi : h.Interned c)
    (hws : ∀ m ∈ ws, ∃ r, (m, r) ∈ c ∧ r.isMember = true) :
    Model.flattenAll h (ws.map .ofTy) = .ok (ws.map .canonical) := by
  induction ws with
  | nil => rfl
  | cons m rest ih =>
    obtain ⟨r, hr, hmem⟩ := hws m List.mem_cons_self
    have hkind : some r.kind ≠ some Kind.concatenation := fun heq =>
      hi.kind_ne_concat hr (isMember_ne_concat hmem) (congrArg Except.ok heq)
    have hfirst : (Model.ofTy m).flatten h = .ok [.canonical m] := by
      rw [hi.ofTy_eq (Catalogue.mem_handles hr), Model.flatten, except_bind_ok (hi.kind_eq hr),
        if_neg hkind]
      rfl
    rw [List.map_cons, Model.flattenAll, except_bind_ok hfirst,
      except_bind_ok (ih fun m hm => hws m (List.mem_cons_of_mem _ hm))]
    rfl

/-- A model that is flattened to handles makes no other record than its own. -/
theorem Interned.intern_handles (hi : h.Interned c) (hdnr : .scalar .doesNotReturn ∈ c.records)
    {ms flat : List Model} (hflat : Model.flattenAll h ms = .ok flat)
    (hhandles : ∀ m ∈ flat, m.Single c ∧ ∃ u ∈ c.handles, m = .canonical u)
    (hws : ∀ m ∈ ws, ∃ r, (m, r) ∈ c ∧ r.isMember = true)
    (hshapes : shapesOf c.shapes ws = some (Model.normalAll c.shapes flat))
    (hlen : 2 ≤ ws.length) :
    intern (.concat ms) h
      = (internRecord false (Record.concat ws).words >>= fun p => pure p.1) h := by
  have hpeek : peek (Model.flattenAll · ms) h = .ok flat h := inspect_eq_ok hflat
  obtain ⟨depth, hdepth⟩ : ∃ d, Model.depthAll ms = d + 1 := by
    have := Model.depthAll_pos ms
    exact ⟨Model.depthAll ms - 1, by omega⟩
  have hall : internMembers (internWithin (depth + 1)) flat h = .ok (ws, false) h := by
    refine hi.internMembers_known hdnr (fun m hm => (hhandles m hm).1) ?_ hws hshapes
    intro m hm t ht hshape
    obtain ⟨-, u, hu, rfl⟩ := hhandles m hm
    obtain ⟨s, hsu⟩ := hi.valid.shapes_isSome hu
    rw [Model.normal, hsu, Option.getD_some] at hshape
    cases hi.valid.shapes_inj ht hu (hshape.trans hsu.symm)
    rfl
  have hwithin : internWithin (Model.concat ms).depth (.concat ms) h
      = internRecord false (Record.concat ws).words h := by
    rw [Model.depth, hdepth, internWithin, bind_eq_ok hpeek, bind_eq_ok hall]
    dsimp only
    rw [if_neg (by omega)]
    rfl
  exact bind_run_congr hwithin

/-- The concatenation of members with words is interned as one record. -/
theorem Interned.intern_concat (hi : h.Interned c) (hdnr : .scalar .doesNotReturn ∈ c.records)
    (hlen : 2 ≤ ws.length) (hws : ∀ m ∈ ws, ∃ r, (m, r) ∈ c ∧ r.isMember = true) :
    intern (.concat (ws.map .ofTy)) h
      = (internRecord false (Record.concat ws).words >>= fun p => pure p.1) h := by
  refine hi.intern_handles hdnr (hi.flattenAll_members hws) ?_ hws
    (hi.valid.normalAll_members hws) hlen
  intro m hm
  obtain ⟨u, hu, rfl⟩ := List.mem_map.1 hm
  obtain ⟨r, hr, hmem⟩ := hws u hu
  exact ⟨single_of_isMember hr hmem, u, Catalogue.mem_handles hr, rfl⟩

/-- The concatenation of types has a type already, or it is the one with the record of their
    members that have words. -/
theorem Interned.concatenate_cases (hi : h.Interned c)
    (hdnr : .scalar .doesNotReturn ∈ c.records) {ts : List Ty} {wss : List (List Ty)}
    (hw : List.Forall₂ c.WideOf ts wss) :
    (∃ t, concatenate ts h = .ok t h ∧ c.WideOf t wss.flatten) ∨
      c.Admits (.concat wss.flatten) ∧ concatenate ts h
        = (internRecord false (Record.concat wss.flatten).words >>= fun p => pure p.1) h := by
  have hmembers : ∀ m ∈ wss.flatten, ∃ r, (m, r) ∈ c ∧ r.isMember = true := by
    induction hw with
    | nil => exact fun m hm => (nomatch hm)
    | cons hfirst _ ih =>
      intro m hm
      rw [List.flatten_cons, List.mem_append] at hm
      exact hm.elim (hi.wideOf_members hfirst m) (ih m)
  have hpeek : peek (·.wideMembers ts) h = .ok wss.flatten h := inspect_eq_ok (hi.wideMembers_eq hw)
  rw [concatenate, bind_eq_ok hpeek]
  generalize wss.flatten = ws at hmembers
  match ws, hmembers with
  | [], _ => exact Or.inl ⟨0, rfl, Or.inl ⟨rfl, rfl⟩⟩
  | [m], hmembers =>
    obtain ⟨r, hr, hmem⟩ := hmembers m List.mem_cons_self
    refine Or.inl ⟨m, rfl, Or.inr ⟨r, hr, ?_⟩⟩
    cases r with
    | scalar k => cases k <;> first | rfl | cases hmem
    | pointer elem => rfl
    | concat ms => cases hmem
  | m :: m' :: rest, hmembers =>
    have hlen2 : 2 ≤ (m :: m' :: rest).length := by simp
    exact Or.inr ⟨⟨hlen2, hmembers⟩, hi.intern_concat hdnr hlen2 hmembers⟩

theorem Record.length_words_concat (ms : List Ty) :
    (Record.concat ms).words.length = 2 + ms.length := by
  simp only [Record.words, List.length_cons]
  omega

/-- The concatenation of types is the type with their members; nothing is made if it is
    known, or if fewer than two members have words. -/
theorem Interned.concatenate_yields (hi : h.Interned c)
    (hdnr : .scalar .doesNotReturn ∈ c.records) {ts : List Ty} {wss : List (List Ty)}
    (hw : List.Forall₂ c.WideOf ts wss) (hlen : wss.flatten.length + 2 < 2 ^ 64) :
    Yields (concatenate ts) h
      (fun t h' => ∃ c', Extends h c h' c' ∧ c'.WideOf t wss.flatten ∧
        ∀ k, h.arena.Room (2 + wss.flatten.length + k) → h'.arena.Room k)
      (fun _ h' => h' = h ∧ (h.arena.collecting = false →
        ¬ h.arena.Room (2 + wss.flatten.length))) := by
  have hroom : ∀ k, h.arena.Room (2 + wss.flatten.length + k) → h.arena.Room k := fun k hk =>
    hk.mono (by omega)
  rcases hi.concatenate_cases hdnr hw with ⟨t, hrun, hwide⟩ | ⟨hadm, heq⟩
  · exact Yields.of_ok hrun ⟨c, .refl hi, hwide, hroom⟩
  · refine Yields.congr heq (Yields.bind ?_)
    have hwords := Record.length_words_concat wss.flatten
    refine (hi.internRecord_yields hadm (fun hb => absurd hb Bool.false_ne_true)
      (by omega)).mono ?_ ?_
    · rintro ⟨t, made⟩ h' (⟨-, rfl, hmem⟩ | ⟨-, hext, hroom'⟩)
      · exact ⟨c, .refl hi, Or.inr ⟨_, hmem, rfl⟩, hroom⟩
      · refine ⟨_, hext, Or.inr ⟨.concat wss.flatten, by simp, rfl⟩, ?_⟩
        rwa [hwords] at hroom'
    · rintro f h' ⟨rfl, hno⟩
      rw [hwords] at hno
      exact ⟨rfl, hno⟩

end Heap

end TreeMachine
