import TreeMachine.Proofs.Source.Forms
import TreeMachine.Proofs.Source.Writing

/-! # Reading what was written

  The signs of a well-scoped form, with a label for each node that is met again, are read as
  the same form.  The labels are defined when their nodes begin, or end if they are quotes,
  so those of the nodes that have begun and are no open quotes are known all the time.
-/

namespace TreeMachine.Source

open Forest (mark signs)

/-- Names for numbers, no two numbers under one name, and each name one that can be written
    and stands for a node. -/
structure Labelling (label : Nat → Option String) : Prop where
  name : ∀ k s, label k = some s → isName s = true
  ne_nil : ∀ k s, label k = some s → s ≠ "nil"
  unique : ∀ j k s, label j = some s → label k = some s → j = k

namespace Draft

/-- Exactly the labels of these numbers are known. -/
def Known (label : Nat → Option String) (B : Nat → Prop) (names : Dict String Nat) : Prop :=
  ∀ k s, label k = some s → (B k → names.get? s = some k) ∧ (¬ B k → names.get? s = none)

variable {label : Nat → Option String} {B B' : Nat → Prop} {D : Draft} {F : Forest} {i : Nat}
  {Q : Nat → Prop} {names : Dict String Nat} {s : Sign} {ss : List Sign} {name : Option String}

theorem Takes.mono {m n : Nat} {stack : List Frame} (h : Takes n stack) (hle : m ≤ n) :
    Takes m stack := by
  match stack with
  | [] | ⟨.fields _, _⟩ :: _ | ⟨.block, _⟩ :: _ => trivial
  | ⟨.quote _, done⟩ :: _ => exact Nat.le_trans (Nat.add_le_add_left hle _) h

theorem Takes.add {n : Nat} (h : Takes (F.length + n) D.stack) : Takes n (D.add F).stack := by
  obtain ⟨names, stack, expect, forms⟩ := D
  cases stack with
  | nil => trivial
  | cons f outer =>
    obtain ⟨⟨⟩ | ⟨⟩ | ⟨⟩, done⟩ := f
    · trivial
    · trivial
    · show (done ++ F).length + n ≤ 1
      rw [Forest.length_append, Nat.add_assoc]
      exact h

theorem add_add (D : Draft) (F G : Forest) : (D.add F).add G = D.add (F ++ G) := by
  obtain ⟨names, stack, expect, forms⟩ := D
  cases stack with
  | nil => simp [add]
  | cons f outer => simp [add]

theorem add_nil (h : D.expect = .form) : D.add .nil = D := by
  obtain ⟨names, stack, expect, forms⟩ := D
  cases h
  cases stack with
  | nil => simp [add]
  | cons f outer => simp [add]

/-! ### Labels -/

theorem Known.congr (h : Known label B names) (hB : ∀ k, B k ↔ B' k) :
    Known label B' names := by
  intro k s hs
  rw [← hB k]
  exact h k s hs

/-- One more label is defined. -/
theorem Known.bind (h : Known label B D.names) (hl : Labelling label) (i : Nat) :
    Known label (fun k => k = i ∨ B k) (D.bind (label i) i).names := by
  intro k s hs
  obtain ⟨hknown, hnew⟩ := h k s hs
  cases hi : label i with
  | none =>
    have hne : k ≠ i := by
      rintro rfl
      rw [hi] at hs
      cases hs
    exact ⟨fun hk => hknown (hk.resolve_left hne), fun hk => hnew fun hb => hk (Or.inr hb)⟩
  | some s' =>
    by_cases hk : k = i
    · subst hk
      rw [hi] at hs
      cases hs
      exact ⟨fun _ => Dict.get?_set_self .., fun hnot => absurd (Or.inl rfl) hnot⟩
    · have hne : s ≠ s' := by
        rintro rfl
        exact hk (hl.unique _ _ _ hs hi)
      show (_ → (D.names.set s' i).get? s = _) ∧ (_ → (D.names.set s' i).get? s = _)
      rw [Dict.get?_set_ne _ _ hne]
      exact ⟨fun hb => hknown (hb.resolve_left hk), fun hb => hnew fun hb' => hb (Or.inr hb')⟩

/-! ### Single steps -/

/-- A sign that ends nothing begins a form. -/
theorem step_form (hexpect : D.expect = .form) (htakes : Takes 1 D.stack)
    (hbracket : s ≠ .lexeme .closing) (hbrace : s ≠ .closeBrace) : D.step s = D.form s := by
  obtain ⟨names, stack, expect, forms⟩ := D
  cases hexpect
  match stack with
  | [] => rfl
  | ⟨.fields t, done⟩ :: outer => exact if_neg hbracket
  | ⟨.block, done⟩ :: outer => exact if_neg hbrace
  | ⟨.quote name, done⟩ :: outer =>
    have hlen : done.length + 1 ≤ 1 := htakes
    exact if_pos (by omega)

theorem add_expect_eq (D : Draft) (e : Awaited) (F : Forest) :
    { D with expect := e }.add F = D.add F := by
  obtain ⟨names, stack, expect, forms⟩ := D
  cases stack <;> rfl

/-- Signs that begin a node of its own. -/
def Begins (s : Sign) : Prop :=
  (∃ v, s = .lexeme (.number v)) ∨ s = .lexeme .opening ∨ s = .openBrace

/-- The first sign of a node under its label. -/
theorem run_mark (hexpect : D.expect = .form) (htakes : Takes 1 D.stack)
    (hnew : ∀ l, label i = some l → D.names.get? l = none) (hs : Begins s) :
    D.run (mark label i ++ s :: ss) = (D.atom (label i) s).bind fun D => D.run ss := by
  have hbracket : s ≠ .lexeme .closing := by
    rcases hs with ⟨v, rfl⟩ | rfl | rfl <;> simp
  have hbrace : s ≠ .closeBrace := by
    rcases hs with ⟨v, rfl⟩ | rfl | rfl <;> simp
  cases hi : label i with
  | none =>
    rw [show mark label i = [] by rw [mark, hi], List.nil_append, run,
      step_form hexpect htakes hbracket hbrace]
    rcases hs with ⟨v, rfl⟩ | rfl | rfl <;> rfl
  | some l =>
    have hdefine : D.step (.lexeme (.define l)) = some { D with expect := .named l } := by
      rw [step_form hexpect htakes (by simp) (by simp), form, Dict.contains, hnew l hi]
      rfl
    rw [show mark label i = [.lexeme (.define l)] by rw [mark, hi], List.singleton_append, run,
      hdefine, Option.bind_some, run]
    -- What was expected makes no difference any more.
    have hatom : ({ D with expect := .named l } : Draft).step s = D.atom (some l) s := by
      rcases hs with ⟨v, rfl⟩ | rfl | rfl
      · exact congrArg some (add_expect_eq (D.bind (some l) D.place) _ _)
      · rfl
      · rfl
    rw [hatom]

/-! ### Whole forests -/

/-- The draft with other names. -/
def withNames (D : Draft) (names : Dict String Nat) : Draft := { D with names := names }

theorem add_withNames (D : Draft) (F : Forest) (names : Dict String Nat) :
    (D.add F).withNames names = (D.withNames names).add F := by
  obtain ⟨names', stack, expect, forms⟩ := D
  cases stack <;> rfl

/-- A draft that has read the signs of the forest has the forest, and knows the labels of its
    nodes. -/
def Reread (label : Nat → Option String) (Q : Nat → Prop) (i : Nat) (F : Forest) : Prop :=
  ∀ D : Draft, D.place = i → D.expect = .form → Takes F.length D.stack →
    Known label (fun k => k < i ∧ ¬ Q k) D.names →
    ∃ names, (∀ ss, D.run (signs label i F ++ ss) = ((D.withNames names).add F).run ss) ∧
      Known label (fun k => k < i + F.size ∧ ¬ Q k) names

theorem signs_append (F G : Forest) (i : Nat) :
    signs label i (F ++ G) = signs label i F ++ signs label (i + F.size) G := by
  induction F generalizing i with
  | nil => rfl
  | null rest ih => simp [signs, ih, Forest.size]
  | again back rest ih => simp [signs, ih, Forest.size]
  | integer v rest ih => simp [signs, ih, Forest.size, Nat.add_assoc, Nat.add_comm 1]
  | fields t below rest _ ih =>
    simp [signs, ih, Forest.size, Nat.add_assoc, Nat.add_comm 1]
  | block below rest _ ih => simp [signs, ih, Forest.size, Nat.add_assoc, Nat.add_comm 1]
  | quote below rest _ ih => simp [signs, ih, Forest.size, Nat.add_assoc, Nat.add_comm 1]

theorem Reread.append {F G : Forest} (hF : Reread label Q i F)
    (hG : Reread label Q (i + F.size) G) : Reread label Q i (F ++ G) := by
  intro D hplace hexpect htakes hknown
  rw [Forest.length_append] at htakes
  obtain ⟨names, hrun, hknown'⟩ :=
    hF D hplace hexpect (htakes.mono (Nat.le_add_right _ _)) hknown
  obtain ⟨names', hrun', hknown''⟩ := hG ((D.withNames names).add F)
    (by rw [add_place]; exact congrArg (· + F.size) hplace) (add_expect ..)
    (Takes.add htakes) (by rwa [add_names])
  refine ⟨names', ?_, by rwa [Forest.size_append, ← Nat.add_assoc]⟩
  intro ss
  rw [signs_append, List.append_assoc, hrun, hrun', add_withNames, add_add]
  rfl

theorem reread_nil : Reread label Q i .nil := by
  intro D hplace hexpect htakes hknown
  refine ⟨D.names, fun ss => ?_, hknown⟩
  rw [show (D.withNames D.names).add .nil = D from add_nil hexpect]
  rfl

theorem reread_null : Reread label Q i (.null .nil) := by
  intro D hplace hexpect htakes hknown
  refine ⟨D.names, fun ss => ?_, hknown⟩
  show D.run (.lexeme (.name "nil") :: ss) = _
  rw [run, step_form hexpect htakes (by simp) (by simp)]
  rfl

/-- A label that is known is read as the node that it stands for. -/
theorem reread_again (hl : Labelling label) {back : Nat} (hF : (Forest.again back .nil).Scoped Q i)
    (hlabel : label (i - back) ≠ none) : Reread label Q i (.again back .nil) := by
  intro D hplace hexpect htakes hknown
  obtain ⟨hpos, hle, hnot, -⟩ := hF
  obtain ⟨l, hi⟩ := Option.ne_none_iff_exists'.1 hlabel
  refine ⟨D.names, fun ss => ?_, hknown⟩
  have hget : D.names.get? l = some (i - back) := (hknown _ _ hi).1 ⟨by omega, hnot⟩
  have hstep : D.step (.lexeme (.name l)) = some (D.add (.again back .nil)) := by
    rw [step_form hexpect htakes (by simp) (by simp)]
    show D.atom none (.lexeme (.name l)) = _
    rw [atom, if_neg (hl.ne_nil _ _ hi), hget, hplace, Option.map_some, Nat.sub_sub_self hle]
    rfl
  simp only [signs, hi, Option.getD_some, List.cons_append, List.nil_append, run, hstep,
    Option.bind_some]
  rfl

/-- Labels that are known before a node begins. -/
theorem Known.new (h : Known label (fun k => k < i ∧ ¬ Q k) names) :
    ∀ l, label i = some l → names.get? l = none :=
  fun l hi => (h i l hi).2 fun hb => Nat.lt_irrefl _ hb.1

/-- The label of a node is known once the node has begun. -/
theorem Known.begun (h : Known label (fun k => k < i ∧ ¬ Q k) D.names) (hl : Labelling label)
    (hQ : ∀ k, Q k → k < i) :
    Known label (fun k => k < i + 1 ∧ ¬ Q k) (D.bind (label i) i).names := by
  refine (h.bind hl i).congr fun k => ?_
  constructor
  · rintro (rfl | ⟨hlt, hnot⟩)
    · exact ⟨Nat.lt_succ_self _, fun hq => Nat.lt_irrefl _ (hQ _ hq)⟩
    · exact ⟨by omega, hnot⟩
  · rintro ⟨hlt, hnot⟩
    by_cases hk : k = i
    · exact Or.inl hk
    · exact Or.inr ⟨by omega, hnot⟩

theorem bind_eq_withNames (D : Draft) (name : Option String) (k : Nat) :
    D.bind name k = D.withNames (D.bind name k).names := by
  cases name <;> rfl

theorem reread_integer (hl : Labelling label) (hQ : ∀ k, Q k → k < i) (v : UInt64) :
    Reread label Q i (.integer v .nil) := by
  intro D hplace hexpect htakes hknown
  refine ⟨(D.bind (label i) i).names, fun ss => ?_, hknown.begun hl hQ⟩
  rw [signs, signs, List.append_assoc, List.singleton_append,
    run_mark hexpect htakes hknown.new (Or.inl ⟨v, rfl⟩), ← bind_eq_withNames, ← hplace]
  rfl

/-- A node that is no quote, around what is below it. -/
theorem reread_around (hl : Labelling label) (hQ : ∀ k, Q k → k < i) (head : Head)
    (front back : List Sign) {below node : Forest}
    (hnode : node.length = 1 ∧ node.size = below.size + 1)
    (hsigns : signs label i node = mark label i ++ front ++ signs label (i + 1) below ++ back)
    (hfront : ∀ D : Draft, D.place = i → D.expect = .form → Takes 1 D.stack →
      (∀ l, label i = some l → D.names.get? l = none) → ∀ ss,
      D.run (mark label i ++ front ++ ss) = ((D.bind (label i) i).push head).run ss)
    (hhead : ∀ l, head ≠ .quote l)
    (hback : ∀ (D : Draft) outer, D.expect = .form → D.stack = ⟨head, below⟩ :: outer → ∀ ss,
      D.run (back ++ ss) = (D.pop outer node).run ss)
    (hbelow : Reread label Q (i + 1) below) : Reread label Q i node := by
  intro D hplace hexpect htakes hknown
  rw [hnode.1] at htakes
  obtain ⟨names, hrun, hknown'⟩ := hbelow ((D.bind (label i) i).push head)
    (by rw [push_place, bind_place, hplace]) rfl
    (by cases head with
      | quote l => exact absurd rfl (hhead l)
      | fields t => trivial
      | block => trivial) (hknown.begun hl hQ)
  refine ⟨names, fun ss => ?_, ?_⟩
  · rw [hsigns, List.append_assoc, List.append_assoc, hfront D hplace hexpect htakes hknown.new,
      hrun, hback _ D.stack (add_expect ..)]
    · rw [bind_eq_withNames]
      rfl
    · rw [bind_eq_withNames]
      rfl
  · rw [hnode.2]
    rwa [Nat.add_right_comm, Nat.add_assoc] at hknown'

theorem reread_fields (hl : Labelling label) (hQ : ∀ k, Q k → k < i) {t : Tag} {below : Forest}
    (ht : t ≠ .literal ∧ t ≠ .block) (hlen : below.length = t.fields)
    (hbelow : Reread label Q (i + 1) below) : Reread label Q i (.fields t below .nil) := by
  refine reread_around hl hQ (.fields t) [.lexeme .opening, .lexeme (.name t.name)]
    [.lexeme .closing] ⟨rfl, by simp [Forest.size]⟩ (by simp [signs]) ?_ (by simp) ?_ hbelow
  · intro D hplace hexpect htakes hnew ss
    rw [List.append_assoc, List.cons_append, List.singleton_append,
      run_mark hexpect htakes hnew (Or.inr (Or.inl rfl))]
    have htag : ({ D with expect := .tagName (label i) } : Draft).step (.lexeme (.name t.name))
        = some ((D.bind (label i) i).push (.fields t)) := by
      unfold step tagName
      dsimp only
      rw [if_neg (name_ne_quote t), ofName?_name]
      dsimp only
      rw [if_neg (not_or.2 ht), ← hplace]
      generalize label D.place = name
      cases name <;> rfl
    show ({ D with expect := .tagName (label i) } : Draft).run _ = _
    rw [run, htag, Option.bind_some]
  · rintro ⟨names, stack, expect, forms⟩ outer rfl rfl ss
    have hstep : step ⟨names, ⟨.fields t, below⟩ :: outer, .form, forms⟩ (.lexeme .closing)
        = some (pop ⟨names, ⟨.fields t, below⟩ :: outer, .form, forms⟩ outer
          (.fields t below .nil)) := by
      unfold step
      dsimp only
      rw [if_pos rfl, if_pos hlen]
    rw [List.singleton_append, run, hstep, Option.bind_some]

theorem reread_block (hl : Labelling label) (hQ : ∀ k, Q k → k < i) {below : Forest}
    (hbelow : Reread label Q (i + 1) below) : Reread label Q i (.block below .nil) := by
  refine reread_around hl hQ .block [.openBrace] [.closeBrace] ⟨rfl, by simp [Forest.size]⟩
    (by simp [signs]) ?_ (by simp) ?_ hbelow
  · intro D hplace hexpect htakes hnew ss
    rw [List.append_assoc, List.singleton_append,
      run_mark hexpect htakes hnew (Or.inr (Or.inr rfl)), ← hplace]
    rfl
  · rintro ⟨names, stack, expect, forms⟩ outer rfl rfl ss
    have hstep : step ⟨names, ⟨.block, below⟩ :: outer, .form, forms⟩ .closeBrace
        = some (pop ⟨names, ⟨.block, below⟩ :: outer, .form, forms⟩ outer (.block below .nil)) := by
      unfold step
      dsimp only
      rw [if_pos rfl]
    rw [List.singleton_append, run, hstep, Option.bind_some]

/-- The label of a quote is known once the quote has ended. -/
theorem reread_quote (hl : Labelling label) (hQ : ∀ k, Q k → k < i) {below : Forest}
    (hlen : below.length = 1)
    (hbelow : Reread label (fun k => k = i ∨ Q k) (i + 1) below) :
    Reread label Q i (.quote below .nil) := by
  intro D hplace hexpect htakes hknown
  have hnot : ¬ Q i := fun hq => Nat.lt_irrefl _ (hQ i hq)
  obtain ⟨names, hrun, hknown'⟩ := hbelow (D.push (.quote (label i)))
    (by rw [push_place, hplace]) rfl (by
      show 0 + below.length ≤ 1
      omega) (hknown.congr fun k => by
      constructor
      · rintro ⟨hlt, hq⟩
        exact ⟨by omega, not_or.2 ⟨by omega, hq⟩⟩
      · rintro ⟨hlt, hq⟩
        obtain ⟨hne, hq⟩ := not_or.1 hq
        exact ⟨by omega, hq⟩)
  refine ⟨((D.withNames names).bind (label i) i).names, fun ss => ?_, ?_⟩
  · have hsigns : signs label i (.quote below .nil) ++ ss = mark label i ++ .lexeme .opening ::
        (.lexeme (.name "quote") :: (signs label (i + 1) below ++ .lexeme .closing :: ss)) := by
      simp [signs]
    rw [hsigns, run_mark hexpect htakes hknown.new (Or.inr (Or.inl rfl))]
    have hopen : ({ D with expect := .tagName (label i) } : Draft).step (.lexeme (.name "quote"))
        = some (D.push (.quote (label i))) := rfl
    show ({ D with expect := .tagName (label i) } : Draft).run _ = _
    rw [run, hopen, Option.bind_some, hrun, run]
    have hclose : (((D.push (.quote (label i))).withNames names).add below).step (.lexeme .closing)
        = some (((D.withNames names).bind (label i) i).add (.quote below .nil)) := by
      obtain ⟨names₀, stack, expect, forms⟩ := D
      cases hexpect
      have hpos : ¬ (Forest.nil ++ below).length = 0 := by
        rw [Forest.nil_append]
        omega
      unfold step
      show (if (Forest.nil ++ below).length = 0 then _ else _) = _
      rw [if_neg hpos, if_pos rfl, ← hplace]
      cases label (place ⟨names₀, stack, .form, forms⟩) <;> rfl
    rw [hclose, Option.bind_some, bind_eq_withNames]
    rfl
  · refine ((show Known label _ (D.withNames names).names from hknown').bind hl i).congr fun k => ?_
    simp only [Forest.size]
    constructor
    · rintro (rfl | ⟨hlt, hq⟩)
      · exact ⟨by omega, hnot⟩
      · exact ⟨by omega, (not_or.1 hq).2⟩
    · rintro ⟨hlt, hq⟩
      by_cases hk : k = i
      · exact Or.inl hk
      · exact Or.inr ⟨by omega, not_or.2 ⟨hk, hq⟩⟩

/-- A node with what is below it, and the nodes after it. -/
theorem Reread.cons {node below rest : Forest} (hnode : Reread label Q i node)
    (hsize : node.size = below.size + 1) (hrest : Reread label Q (i + 1 + below.size) rest) :
    Reread label Q i (node ++ rest) := by
  refine hnode.append ?_
  rwa [hsize, ← Nat.add_assoc, Nat.add_right_comm]

theorem lt_later (hQ : ∀ k, Q k → k < i) (s : Nat) : ∀ k, Q k → k < i + 1 + s := by
  intro k hq
  have hlt := hQ k hq
  omega

/-- Well-scoped forests are read again. -/
theorem reread (hl : Labelling label) (hF : F.Scoped Q i) (hQ : ∀ k, Q k → k < i)
    (hbacks : ∀ k, 0 < F.backs k i → label k ≠ none) : Reread label Q i F := by
  -- Each node is read from what is left of its signs, and the forest after it goes on from there.
  induction F generalizing Q i with
  | nil => exact reread_nil
  | null rest ih => exact reread_null.append (ih hF hQ hbacks)
  | again back rest ih =>
    obtain ⟨hpos, hle, hnot, hrest⟩ := hF
    simp only [Forest.backs] at hbacks
    have hback : label (i - back) ≠ none := hbacks _ (by rw [if_pos rfl]; omega)
    refine (reread_again hl ⟨hpos, hle, hnot, trivial⟩ hback).append (ih hrest hQ ?_)
    intro k hk
    rw [Forest.size, Forest.size, Nat.add_zero] at hk
    exact hbacks k (by omega)
  | integer v rest ih =>
    exact (reread_integer hl hQ v).append (ih hF (lt_later hQ 0) hbacks)
  | fields t below rest ihb ih =>
    obtain ⟨ht, hlen, hbelow, hrest⟩ := hF
    simp only [Forest.backs] at hbacks
    have hfirst := ihb hbelow (lt_later hQ 0) fun k hk => hbacks k (by omega)
    exact (reread_fields hl hQ ht hlen hfirst).cons rfl
      (ih hrest (lt_later hQ _) fun k hk => hbacks k (by omega))
  | block below rest ihb ih =>
    obtain ⟨hbelow, hrest⟩ := hF
    simp only [Forest.backs] at hbacks
    have hfirst := ihb hbelow (lt_later hQ 0) fun k hk => hbacks k (by omega)
    exact (reread_block hl hQ hfirst).cons rfl
      (ih hrest (lt_later hQ _) fun k hk => hbacks k (by omega))
  | quote below rest ihb ih =>
    obtain ⟨hlen, hbelow, hrest⟩ := hF
    simp only [Forest.backs] at hbacks
    -- The label of the quote itself is not known below it.
    have hopen : ∀ k, k = i ∨ Q k → k < i + 1 := fun k hk =>
      hk.elim (fun heq => by omega) (lt_later hQ 0 k)
    have hfirst := ihb hbelow hopen fun k hk => hbacks k (by omega)
    exact (reread_quote hl hQ hlen hfirst).cons rfl
      (ih hrest (lt_later hQ _) fun k hk => hbacks k (by omega))

/-- The signs of a well-scoped form are read as the form. -/
theorem run_signs (hl : Labelling label) (hF : F.Scoped (fun _ => False) 0) (hlen : F.length = 1)
    (hbacks : ∀ k, 0 < F.backs k 0 → label k ≠ none) :
    ∃ D, start.run (signs label 0 F) = some D ∧ D.finish = some F ∧ D.forms.length = 1 := by
  obtain ⟨names, hrun, -⟩ := reread hl hF (fun _ hq => hq.elim) hbacks start rfl rfl trivial
    fun k s _ => ⟨fun hk => absurd hk.1 (Nat.not_lt_zero k), fun _ => rfl⟩
  refine ⟨_, by simpa [run] using hrun [], ?_, hlen⟩
  show (if F.length = 0 then none else if F.length = 1 then some F else _) = _
  rw [if_neg (by omega), if_pos hlen]

end Draft

end TreeMachine.Source
