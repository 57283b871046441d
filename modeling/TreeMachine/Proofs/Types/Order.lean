import TreeMachine.Compile.Control
import TreeMachine.Proofs.Types.Fitting
import TreeMachine.Proofs.Types.History

/-! # The order of types

  A type fits another one if its values may stand where values of the other are expected.
  Read off the records, this is one of three things: the type does not return, it is the
  same or an address in the place of an integer, or both are concatenations whose members
  fit one by one.  Main statement: fitting is a partial order in which what does not return
  comes first, all other types that fit have the same size, and the type of a choice does
  not depend on the order of its branches.
-/

namespace TreeMachine

/-- Values of a type with this record are single addresses. -/
def Record.isAddress : Record → Bool
  | scalar .ast | scalar .type | scalar .function | pointer _ => true
  | _ => false

namespace Catalogue

/-- The types are the same, or an address stands where an integer is expected. -/
def Suits (c : Catalogue) (given want : Ty) : Prop :=
  given = want ∨
    (∃ r, (given, r) ∈ c ∧ r.isAddress = true) ∧ (want, .scalar .integer) ∈ c

/-- How types fit, as their records say. -/
inductive Fits (c : Catalogue) : Ty → Ty → Prop where
  | never {given want : Ty} (hnever : (given, .scalar .doesNotReturn) ∈ c) : Fits c given want
  | single {given want : Ty} (hsuits : c.Suits given want) : Fits c given want
  | members {given want : Ty} {gs ws : List Ty} (hgiven : (given, .concat gs) ∈ c)
      (hwant : (want, .concat ws) ∈ c) (hall : List.Forall₂ c.Suits gs ws) : Fits c given want

variable {c : Catalogue} {t u v : Ty}

namespace Suits

theorem trans (hc : c.Valid) (htu : c.Suits t u) (huv : c.Suits u v) : c.Suits t v := by
  rcases htu with rfl | ⟨ht, hu⟩
  · exact huv
  rcases huv with rfl | ⟨⟨r, hr, haddr⟩, -⟩
  · exact Or.inr ⟨ht, hu⟩
  · cases hc.record_unique hr hu
    cases haddr

theorem antisymm (hc : c.Valid) (htu : c.Suits t u) (hut : c.Suits u t) : t = u := by
  rcases htu with rfl | ⟨-, hu⟩
  · rfl
  rcases hut with rfl | ⟨⟨r, hr, haddr⟩, -⟩
  · rfl
  · cases hc.record_unique hr hu
    cases haddr

theorem trans_all (hc : c.Valid) {ts us vs : List Ty} (htu : List.Forall₂ c.Suits ts us)
    (huv : List.Forall₂ c.Suits us vs) : List.Forall₂ c.Suits ts vs := by
  induction htu generalizing vs with
  | nil => exact huv
  | cons h _ ih =>
    cases huv with
    | cons h' hrest => exact .cons (h.trans hc h') (ih hrest)

theorem antisymm_all (hc : c.Valid) {ts us : List Ty} (htu : List.Forall₂ c.Suits ts us)
    (hut : List.Forall₂ c.Suits us ts) : ts = us := by
  induction htu with
  | nil => rfl
  | cons h _ ih =>
    cases hut with
    | cons h' hrest => rw [h.antisymm hc h', ih hrest]

/-- What suits an address or a scalar is no concatenation, and the other way round. -/
theorem eq_of_concat (hc : c.Valid) (h : c.Suits t u) {ms : List Ty}
    (hconcat : (t, .concat ms) ∈ c ∨ (u, .concat ms) ∈ c) : t = u := by
  rcases h with rfl | ⟨⟨r, hr, haddr⟩, hint⟩
  · rfl
  rcases hconcat with ht | hu
  · cases hc.record_unique ht hr
    cases haddr
  · cases hc.record_unique hu hint

/-- Only what does not return suits what does not return. -/
theorem eq_of_never (hc : c.Valid) (h : c.Suits t u)
    (hnever : (u, .scalar .doesNotReturn) ∈ c) : t = u := by
  rcases h with rfl | ⟨-, hint⟩
  · rfl
  · cases hc.record_unique hnever hint

end Suits

namespace Fits

theorem trans (hc : c.Valid) (htu : c.Fits t u) (huv : c.Fits u v) : c.Fits t v := by
  cases htu with
  | never ht => exact .never ht
  | single htu =>
    cases huv with
    | never hu =>
      obtain rfl := htu.eq_of_never hc hu
      exact .never hu
    | single huv => exact .single (htu.trans hc huv)
    | members hu hv hall =>
      obtain rfl := htu.eq_of_concat hc (Or.inr hu)
      exact .members hu hv hall
  | members ht hu hall =>
    cases huv with
    | never hu' => cases hc.record_unique hu hu'
    | single huv =>
      obtain rfl := huv.eq_of_concat hc (Or.inl hu)
      exact .members ht hu hall
    | members hu' hv hall' =>
      cases hc.record_unique hu hu'
      exact .members ht hv (Suits.trans_all hc hall hall')

theorem eq_of_never (hc : c.Valid) (h : c.Fits t u)
    (hnever : (u, .scalar .doesNotReturn) ∈ c) : t = u := by
  cases h with
  | never ht => exact hc.handle_unique ht hnever
  | single h => exact h.eq_of_never hc hnever
  | members _ hu _ => cases hc.record_unique hu hnever

theorem antisymm (hc : c.Valid) (htu : c.Fits t u) (hut : c.Fits u t) : t = u := by
  cases htu with
  | never ht => exact (hut.eq_of_never hc ht).symm
  | single htu =>
    cases hut with
    | never hu => exact htu.eq_of_never hc hu
    | single hut => exact htu.antisymm hc hut
    | members hu _ _ => exact htu.eq_of_concat hc (Or.inr hu)
  | members ht hu hall =>
    cases hut with
    | never hu' => cases hc.record_unique hu hu'
    | single hut => exact (hut.eq_of_concat hc (Or.inl hu)).symm
    | members hu' ht' hall' =>
      cases hc.record_unique ht ht'
      cases hc.record_unique hu hu'
      rw [Suits.antisymm_all hc hall hall'] at ht
      exact hc.handle_unique ht hu

end Fits

end Catalogue

namespace Heap

variable {h : Heap} {c : Catalogue} {t u : Ty} {r r' : Record}

/-! ### Reading off how types fit -/

theorem Interned.isPointerLike_eq (hi : h.Interned c) (ht : (t, r) ∈ c) :
    h.isPointerLike t = .ok r.isAddress := by
  rw [isPointerLike, except_bind_ok (hi.kind_eq ht)]
  cases r with
  | scalar k =>
    have hadm := hi.valid.admits ht
    cases k <;> first | rfl | (simp [Catalogue.Admits, Kind.isScalar] at hadm)
  | pointer elem => rfl
  | concat ms => rfl

theorem Standard.eq_integer (hs : h.Standard c) :
    u = h.types.scalars.integer ↔ (u, .scalar .integer) ∈ c :=
  ⟨fun heq => heq ▸ hs.integer, fun hu => hs.valid.handle_unique hu hs.integer⟩

theorem Standard.eq_doesNotReturn (hs : h.Standard c) :
    t = h.types.scalars.doesNotReturn ↔ (t, .scalar .doesNotReturn) ∈ c :=
  ⟨fun heq => heq ▸ hs.doesNotReturn, fun ht => hs.valid.handle_unique ht hs.doesNotReturn⟩

/-- A type is an address, or it is not. -/
theorem Interned.isPointerLike_iff (hi : h.Interned c) (ht : c.Knows t) :
    ∃ b, h.isPointerLike t = .ok b ∧ (b = true ↔ ∃ r, (t, r) ∈ c ∧ r.isAddress = true) := by
  rcases ht with rfl | ht
  · refine ⟨false, rfl, iff_of_false Bool.false_ne_true ?_⟩
    rintro ⟨r, hr, -⟩
    exact hi.ne_zero hr rfl
  · obtain ⟨r, hr⟩ := Catalogue.exists_record ht
    refine ⟨_, hi.isPointerLike_eq hr, fun haddr => ⟨r, hr, haddr⟩, ?_⟩
    rintro ⟨r', hr', haddr⟩
    rwa [hi.valid.record_unique hr hr']

/-- The comparison of concatenations, which comes last. -/
def fitsMembers (h : Heap) (depth : Nat) (given want : Ty) : Except Fault Bool := do
  if (← h.kind given) ≠ some .concatenation then return false
  if (← h.kind want) ≠ some .concatenation then return false
  let gs ← h.members given
  let ws ← h.members want
  if gs.length ≠ ws.length then return false
  allFit (h.fitsWithin depth) gs ws

/-- What fits without a look at members does; otherwise the members decide. -/
theorem Standard.fitsWithin_cases (hs : h.Standard c) (ht : c.Knows t) (depth : Nat) :
    h.fitsWithin (depth + 1) t u = .ok true ∧
        ((t, .scalar .doesNotReturn) ∈ c ∨ c.Suits t u) ∨
      h.fitsWithin (depth + 1) t u = h.fitsMembers depth t u ∧
        (t, .scalar .doesNotReturn) ∉ c ∧ ¬ c.Suits t u := by
  rw [fitsWithin]
  by_cases heq : t = u
  · exact Or.inl ⟨if_pos heq, Or.inr (Or.inl heq)⟩
  by_cases hnever : t = h.types.scalars.doesNotReturn
  · exact Or.inl ⟨by rw [if_neg heq, if_pos hnever]; rfl, Or.inl (hs.eq_doesNotReturn.1 hnever)⟩
  rw [if_neg heq, if_neg hnever]
  rw [hs.eq_doesNotReturn] at hnever
  by_cases hint : u = h.types.scalars.integer
  · rw [if_pos hint]
    obtain ⟨b, hb, hiff⟩ := hs.isPointerLike_iff ht
    rw [hs.eq_integer] at hint
    rw [except_bind_ok hb]
    cases b with
    | true => exact Or.inl ⟨rfl, Or.inr (Or.inr ⟨hiff.1 rfl, hint⟩)⟩
    | false =>
      refine Or.inr ⟨rfl, hnever, ?_⟩
      rintro (rfl | ⟨haddr, -⟩)
      · exact heq rfl
      · exact Bool.false_ne_true (hiff.2 haddr)
  · rw [if_neg hint]
    rw [hs.eq_integer] at hint
    refine Or.inr ⟨rfl, hnever, ?_⟩
    rintro (rfl | ⟨-, hu⟩)
    · exact heq rfl
    · exact hint hu

/-- Only concatenations have members to compare. -/
theorem Interned.fitsMembers_cases (hi : h.Interned c) (ht : c.Knows t) (hu : c.Knows u)
    (depth : Nat) :
    (∃ gs ws, (t, .concat gs) ∈ c ∧ (u, .concat ws) ∈ c ∧ h.fitsMembers depth t u
        = if gs.length ≠ ws.length then .ok false else allFit (h.fitsWithin depth) gs ws) ∨
      h.fitsMembers depth t u = .ok false ∧
        ∀ gs ws, (t, .concat gs) ∈ c → (u, .concat ws) ∉ c := by
  have hkind : ∀ {v : Ty}, c.Knows v → (∃ ms, (v, .concat ms) ∈ c) ∨
      ∃ k, h.kind v = .ok k ∧ k ≠ some .concatenation := by
    rintro v (rfl | hv)
    · exact Or.inr ⟨none, rfl, by decide⟩
    · obtain ⟨r, hr⟩ := Catalogue.exists_record hv
      by_cases hconcat : ∃ ms, r = .concat ms
      · obtain ⟨ms, rfl⟩ := hconcat
        exact Or.inl ⟨ms, hr⟩
      · refine Or.inr ⟨_, hi.kind_eq hr, fun heq => ?_⟩
        exact hi.kind_ne_concat hr (fun ms hms => hconcat ⟨ms, hms⟩) (congrArg Except.ok heq)
  rcases hkind ht with ⟨gs, hgs⟩ | ⟨k, hk, hne⟩
  · rcases hkind hu with ⟨ws, hws⟩ | ⟨k, hk, hne⟩
    · refine Or.inl ⟨gs, ws, hgs, hws, ?_⟩
      rw [fitsMembers, except_bind_ok (hi.kind_eq hgs), except_bind_ok (hi.kind_eq hws),
        except_bind_ok (hi.members_eq hgs), except_bind_ok (hi.members_eq hws)]
      rfl
    · refine Or.inr ⟨?_, fun gs' ws _ hws => ?_⟩
      · rw [fitsMembers, except_bind_ok (hi.kind_eq hgs), except_bind_ok hk]
        exact if_pos hne
      · rw [hi.kind_eq hws] at hk
        cases hk
        exact hne rfl
  · refine Or.inr ⟨?_, fun gs ws hgs _ => ?_⟩
    · rw [fitsMembers, except_bind_ok hk]
      exact if_pos hne
    · rw [hi.kind_eq hgs] at hk
      cases hk
      exact hne rfl

/-- Members of concatenations are compared without a further look at members. -/
theorem Standard.fitsWithin_member (hs : h.Standard c) (ht : (t, r) ∈ c)
    (hr : r.isMember = true) (hu : (u, r') ∈ c) (depth : Nat) :
    ∃ b, h.fitsWithin (depth + 1) t u = .ok b ∧ (b = true ↔ c.Suits t u) := by
  have hreturns : (t, .scalar .doesNotReturn) ∉ c := by
    intro hnever
    cases hs.valid.record_unique ht hnever
    cases hr
  rcases hs.fitsWithin_cases (u := u) (knows_of_mem ht) depth with
    ⟨hfits, hor⟩ | ⟨hfits, -, hnot⟩
  · exact ⟨true, hfits, iff_of_true rfl (hor.resolve_left hreturns)⟩
  rcases hs.fitsMembers_cases (knows_of_mem ht) (knows_of_mem hu) depth with
    ⟨gs, ws, hgs, -⟩ | ⟨hfalse, -⟩
  · cases hs.valid.record_unique ht hgs
    cases hr
  · exact ⟨false, hfits.trans hfalse, iff_of_false Bool.false_ne_true hnot⟩

theorem Standard.allFit_members (hs : h.Standard c) {gs ws : List Ty}
    (hgs : ∀ m ∈ gs, ∃ r, (m, r) ∈ c ∧ r.isMember = true)
    (hws : ∀ m ∈ ws, ∃ r, (m, r) ∈ c ∧ r.isMember = true) (depth : Nat) :
    ∃ b, allFit (h.fitsWithin (depth + 1)) gs ws = .ok b ∧
      (b = true ↔ List.Forall₂ c.Suits gs ws) := by
  induction gs generalizing ws with
  | nil =>
    cases ws with
    | nil => exact ⟨true, rfl, iff_of_true rfl .nil⟩
    | cons w ws => exact ⟨false, rfl, iff_of_false Bool.false_ne_true fun hall => by cases hall⟩
  | cons g gs ih =>
    cases ws with
    | nil => exact ⟨false, rfl, iff_of_false Bool.false_ne_true fun hall => by cases hall⟩
    | cons w ws =>
      obtain ⟨r, hr, hmem⟩ := hgs g List.mem_cons_self
      obtain ⟨r', hr', -⟩ := hws w List.mem_cons_self
      obtain ⟨b, hb, hiff⟩ := hs.fitsWithin_member hr hmem hr' depth
      obtain ⟨b', hb', hiff'⟩ := ih (fun m hm => hgs m (List.mem_cons_of_mem _ hm))
        fun m hm => hws m (List.mem_cons_of_mem _ hm)
      rw [allFit, except_bind_ok hb]
      cases b with
      | true =>
        refine ⟨b', hb', ?_⟩
        rw [List.forall₂_cons, hiff']
        exact (and_iff_right (hiff.1 rfl)).symm
      | false =>
        refine ⟨false, rfl, iff_of_false Bool.false_ne_true fun hall => ?_⟩
        cases hall with
        | cons hsuits _ => exact Bool.false_ne_true (hiff.2 hsuits)

/-- Whether types fit can always be said, and it is as their records say. -/
theorem Standard.fits_iff (hs : h.Standard c) (ht : c.Knows t) (hu : c.Knows u) :
    ∃ b, h.fits t u = .ok b ∧ (b = true ↔ c.Fits t u) := by
  have hdeep : h.depthBound = h.arena.words.size - 1 + 1 + 1 := by
    have := hs.size_pos hs.integer
    unfold depthBound
    omega
  rw [fits, hdeep]
  generalize h.arena.words.size - 1 = depth
  rcases hs.fitsWithin_cases (u := u) ht (depth + 1) with ⟨hfits, hor⟩ | ⟨hfits, hnever, hnot⟩
  · exact ⟨true, hfits, iff_of_true rfl (hor.elim .never .single)⟩
  rcases hs.fitsMembers_cases ht hu (depth + 1) with
    ⟨gs, ws, hgs, hws, hmembers⟩ | ⟨hfalse, hno⟩
  · obtain ⟨b, hb, hiff⟩ := hs.allFit_members (hs.valid.admits hgs).2 (hs.valid.admits hws).2
      depth
    have hb' : h.fitsWithin (depth + 1 + 1) t u = .ok b := by
      rw [hfits, hmembers]
      split
      · rename_i hlen
        cases b with
        | false => rfl
        | true => exact absurd (hiff.1 rfl).length_eq hlen
      · exact hb
    refine ⟨b, hb', hiff.trans ⟨.members hgs hws, fun hf => ?_⟩⟩
    cases hf with
    | never h => exact absurd h hnever
    | single h => exact absurd h hnot
    | members hgs' hws' hall =>
      cases hs.valid.record_unique hgs hgs'
      cases hs.valid.record_unique hws hws'
      exact hall
  · refine ⟨false, hfits.trans hfalse, iff_of_false Bool.false_ne_true fun hf => ?_⟩
    cases hf with
    | never h => exact hnever h
    | single h => exact hnot h
    | members hgs hws _ => exact hno _ _ hgs hws

theorem Standard.fits_true (hs : h.Standard c) (ht : c.Knows t) (hu : c.Knows u) :
    h.fits t u = .ok true ↔ c.Fits t u := by
  obtain ⟨b, hb, hiff⟩ := hs.fits_iff ht hu
  rw [hb, Except.ok.injEq, hiff]

/-! ### The order -/

/-- The empty type or a type of the index. -/
def IsType (h : Heap) (t : Ty) : Prop := t = 0 ∨ t ∈ h.handles

/-- The types have the same size. -/
def SameSize (h : Heap) (t u : Ty) : Prop := ∃ n, h.size t = .ok n ∧ h.size u = .ok n

/-- Fitting is a partial order of the types that keeps sizes, but for the type of what does
    not return, which comes first. -/
structure OrdersTypes (h : Heap) : Prop where
  decided : ∀ t u, h.IsType t → h.IsType u → ∃ b, h.fits t u = .ok b
  refl : ∀ t, h.IsType t → h.fits t t = .ok true
  trans : ∀ t u v, h.IsType t → h.IsType u → h.IsType v → h.fits t u = .ok true →
    h.fits u v = .ok true → h.fits t v = .ok true
  antisymm : ∀ t u, h.IsType t → h.IsType u → h.fits t u = .ok true →
    h.fits u t = .ok true → t = u
  least : h.IsType h.types.scalars.doesNotReturn ∧
    ∀ t, h.IsType t → h.fits h.types.scalars.doesNotReturn t = .ok true
  sizes : ∀ t u, h.IsType t → h.IsType u → h.fits t u = .ok true →
    t ≠ h.types.scalars.doesNotReturn → h.SameSize t u

theorem Interned.isType_iff (hi : h.Interned c) : h.IsType t ↔ c.Knows t := by
  rw [IsType, hi.handles_eq]
  rfl

theorem Standard.sameSize_of_fits (hs : h.Standard c) (ht : c.Knows t) (hu : c.Knows u)
    (hf : h.fits t u = .ok true) (hne : t ≠ h.types.scalars.doesNotReturn) :
    h.SameSize t u := by
  have hwidth := (hs.width_fits ht hu hf).resolve_left hne
  refine ⟨_, (hs.size_known ht).1, ?_⟩
  rw [hwidth]
  exact (hs.size_known hu).1

theorem Standard.ordersTypes (hs : h.Standard c) : h.OrdersTypes := by
  refine ⟨?_, ?_, ?_, ?_, ⟨?_, ?_⟩, ?_⟩ <;> simp only [hs.isType_iff]
  · intro t u ht hu
    obtain ⟨b, hb, -⟩ := hs.fits_iff ht hu
    exact ⟨b, hb⟩
  · intro t ht
    exact (hs.fits_true ht ht).2 (.single (Or.inl rfl))
  · intro t u v ht hu hv htu huv
    rw [hs.fits_true ht hu] at htu
    rw [hs.fits_true hu hv] at huv
    exact (hs.fits_true ht hv).2 (htu.trans hs.valid huv)
  · intro t u ht hu htu hut
    rw [hs.fits_true ht hu] at htu
    rw [hs.fits_true hu ht] at hut
    exact htu.antisymm hs.valid hut
  · exact knows_of_mem hs.doesNotReturn
  · intro t ht
    exact (hs.fits_true (knows_of_mem hs.doesNotReturn) ht).2 (.never hs.doesNotReturn)
  · intro t u ht hu
    exact hs.sameSize_of_fits ht hu

end Heap

/-! ### Choices -/

namespace Compile

variable {g : Generator} {c : Catalogue} {t u : Ty}

/-- The type of a choice is the greater of the types of its branches. -/
theorem choiceType_eq (hs : g.heap.Standard c) (ht : c.Knows t) (hu : c.Knows u) (n : Node) :
    choiceType n t u g = .ok t g ∧ c.Fits u t ∨
      choiceType n t u g = .ok u g ∧ c.Fits t u ∧ ¬ c.Fits u t ∨
      choiceType n t u g = .error (.error (.rejected .typeMismatch n (some 2))) g ∧
        ¬ c.Fits t u ∧ ¬ c.Fits u t := by
  obtain ⟨b, hb, hiff⟩ := hs.fits_iff hu ht
  obtain ⟨b', hb', hiff'⟩ := hs.fits_iff ht hu
  have hlook : look (·.fits u t) g = .ok b g := by simp only [look, hb]
  have hlook' : look (·.fits t u) g = .ok b' g := by simp only [look, hb']
  rw [choiceType, bind_eq_ok hlook]
  cases b with
  | true => exact Or.inl ⟨rfl, hiff.1 rfl⟩
  | false =>
    have hnot : ¬ c.Fits u t := fun hf => Bool.false_ne_true (hiff.2 hf)
    refine Or.inr ?_
    have hrest : (if (false : Bool) = true then return t else do
        if ← look (·.fits t u) then return u
        rejectField .typeMismatch n 2 : Gen Ty) g
        = (if b' = true then return u else rejectField .typeMismatch n 2 : Gen Ty) g := by
      rw [if_neg Bool.false_ne_true, bind_eq_ok hlook']
    refine hrest ▸ ?_
    cases b' with
    | true => exact Or.inl ⟨rfl, hiff'.1 rfl, hnot⟩
    | false => exact Or.inr ⟨rfl, fun hf => Bool.false_ne_true (hiff'.2 hf), hnot⟩

/-- The branches of a choice may change places. -/
theorem choiceType_comm (hs : g.heap.Standard c) (ht : c.Knows t) (hu : c.Knows u) (n : Node) :
    choiceType n t u g = choiceType n u t g := by
  rcases choiceType_eq hs ht hu n with ⟨heq, hf⟩ | ⟨heq, hf, hf'⟩ | ⟨heq, hf, hf'⟩ <;>
    rcases choiceType_eq hs hu ht n with ⟨heq', hg⟩ | ⟨heq', hg, hg'⟩ | ⟨heq', hg, hg'⟩ <;>
    rw [heq, heq']
  · rw [hf.antisymm hs.valid hg]
  · exact absurd hf hg
  · exact absurd hg hf'
  · exact absurd hf hg'
  · exact absurd hg hf
  · exact absurd hg hf'

/-- A branch that returns has the size of the whole choice. -/
theorem choiceType_sameSize (hs : g.heap.Standard c) (ht : c.Knows t) (hu : c.Knows u)
    {n : Node} {v : Ty} {g' : Generator} (hrun : choiceType n t u g = .ok v g') :
    g' = g ∧ (v = t ∨ v = u) ∧ ∀ w, w = t ∨ w = u →
      w ≠ g.heap.types.scalars.doesNotReturn → g.heap.SameSize w v := by
  have hsame : ∀ {w v : Ty}, c.Knows w → c.Knows v → c.Fits w v →
      w ≠ g.heap.types.scalars.doesNotReturn → g.heap.SameSize w v := fun hw hv hf =>
    hs.sameSize_of_fits hw hv ((hs.fits_true hw hv).2 hf)
  have hself : ∀ {w : Ty}, c.Fits w w := .single (Or.inl rfl)
  rcases choiceType_eq hs ht hu n with ⟨heq, hf⟩ | ⟨heq, hf, -⟩ | ⟨heq, -⟩ <;>
    rw [heq] at hrun <;> cases hrun
  · refine ⟨rfl, Or.inl rfl, ?_⟩
    rintro w (rfl | rfl)
    · exact hsame ht ht hself
    · exact hsame hu ht hf
  · refine ⟨rfl, Or.inr rfl, ?_⟩
    rintro w (rfl | rfl)
    · exact hsame ht hu hf
    · exact hsame hu hu hself

end Compile

namespace Image

/-- In every image that a history leads to, fitting is a partial order of the types that
    keeps sizes, and the type of a choice is the same for both orders of its branches; each
    branch that returns has its size. -/
theorem fits_ordersTypes {words : UInt64} {functions : Nat} {image₀ image : Image}
    (hcreate : Image.create words functions = .ok image₀) (hsteps : Steps image₀ image) :
    image.heap.OrdersTypes ∧
      ∀ (g : Compile.Generator) (n : Node) (t u : Ty), g.heap = image.heap →
        image.heap.IsType t → image.heap.IsType u →
        Compile.choiceType n t u g = Compile.choiceType n u t g ∧
          ∀ v g', Compile.choiceType n t u g = .ok v g' → g' = g ∧ (v = t ∨ v = u) ∧
            ∀ w, w = t ∨ w = u → w ≠ image.heap.types.scalars.doesNotReturn →
              image.heap.SameSize w v := by
  obtain ⟨c₀, hs₀⟩ := create_standard hcreate
  obtain ⟨c, -, hs⟩ := hsteps.hasTypes hs₀
  refine ⟨hs.ordersTypes, fun g n t u hg ht hu => ?_⟩
  rw [hs.isType_iff] at ht hu
  rw [← hg] at hs ⊢
  exact ⟨Compile.choiceType_comm hs ht hu n, fun v g' => Compile.choiceType_sameSize hs ht hu⟩

/-- The address of an integer fits an integer in a small image, and not the other way. -/
theorem fits_ordersTypes_pointer : ∃ image₀ image t,
    Image.create 16 1 = .ok image₀ ∧ Steps image₀ image ∧ image.heap.OrdersTypes ∧
      image.heap.fits t image.heap.types.scalars.integer = .ok true ∧
      image.heap.fits image.heap.types.scalars.integer t = .ok false := by
  have hruns : (match Image.create 16 1 with
      | .ok image₀ => match onHeap (Heap.intern (.pointer (.plain 1))) image₀ with
        | .ok t image =>
          decide (image.heap.fits t image.heap.types.scalars.integer = .ok true) &&
            decide (image.heap.fits image.heap.types.scalars.integer t = .ok false)
        | .error _ _ => false
      | .error _ => false) = true := by decide +kernel
  split at hruns
  · rename_i image₀ hcreate
    split at hruns
    · rename_i t image hrun
      rw [Bool.and_eq_true, decide_eq_true_eq, decide_eq_true_eq] at hruns
      have hstep : Step image₀ image := by
        have hintern :
            Step image₀ (stateAfter (onHeap (Heap.intern (.pointer (.plain 1))) image₀)) :=
          .intern (.pointer (.plain 1)) ⟨trivial, trivial⟩
        rwa [hrun] at hintern
      have hsteps : Steps image₀ image := .single hstep
      exact ⟨image₀, image, t, hcreate, hsteps, (fits_ordersTypes hcreate hsteps).1, hruns⟩
    · cases hruns
  · cases hruns

end Image

end TreeMachine
