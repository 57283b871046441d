import TreeMachine.Dict
import TreeMachine.Proofs.Source.Forest
import TreeMachine.Proofs.Source.Signs

/-! # Drafts

  A draft reads signs as the reader does, but makes forests in place of nodes: a name stands
  for a number, and the number of a node is settled when it begins.  Main statement: what a
  draft has read is well scoped.
-/

namespace TreeMachine.Source

/-- What is open. -/
inductive Head where
  | fields (t : Tag)
  | block
  /-- A quote and the name it will get. -/
  | quote (name : Option String)

/-- An open form and what has been read in it. -/
structure Frame where
  head : Head
  done : Forest

/-- What a draft waits for. -/
inductive Awaited where
  | form
  | named (s : String)
  | tagName (name : Option String)

/-- What has been read so far. -/
structure Draft where
  names : Dict String Nat
  /-- The open forms, innermost first. -/
  stack : List Frame
  expect : Awaited
  /-- The complete forms. -/
  forms : Forest

namespace Draft

/-- Nothing has been read. -/
def start : Draft := ⟨.empty, [], .form, .nil⟩

/-- The number of the next node that begins in the frames. -/
def placeIn (forms : Forest) : List Frame → Nat
  | [] => forms.size
  | f :: outer => placeIn forms outer + 1 + f.done.size

/-- The number of the next node that begins. -/
def place (D : Draft) : Nat := placeIn D.forms D.stack

/-- Lets a name, if there is one, stand for a number. -/
def bind (D : Draft) (name : Option String) (k : Nat) : Draft :=
  match name with
  | some s => { D with names := D.names.set s k }
  | none => D

/-- Hands over what is complete to what is around it. -/
def add (D : Draft) (F : Forest) : Draft :=
  match D.stack with
  | [] => { D with expect := .form, forms := D.forms ++ F }
  | f :: outer => { D with expect := .form, stack := { f with done := f.done ++ F } :: outer }

/-- Begins a form. -/
def push (D : Draft) (head : Head) : Draft :=
  { D with expect := .form, stack := ⟨head, .nil⟩ :: D.stack }

/-- Ends the innermost open form, which `outer` are around. -/
def pop (D : Draft) (outer : List Frame) (F : Forest) : Draft := { D with stack := outer }.add F

/-- Reads the first sign of a form that `name` defines. -/
def atom (D : Draft) (name : Option String) : Sign → Option Draft
  | .lexeme (.number v) => some ((D.bind name D.place).add (.integer v .nil))
  | .lexeme (.name s) =>
    if s = "nil" then if name = none then some (D.add (.null .nil)) else none
    else (D.names.get? s).map fun k => (D.bind name k).add (.again (D.place - k) .nil)
  | .lexeme .opening => some { D with expect := .tagName name }
  | .openBrace => some ((D.bind name D.place).push .block)
  | .lexeme .closing | .lexeme (.define _) | .closeBrace => none

/-- Reads the tag name after a bracket. -/
def tagName (D : Draft) (name : Option String) : Sign → Option Draft
  | .lexeme (.name s) =>
    if s = "quote" then some (D.push (.quote name))
    else match Tag.ofName? s with
      | some t =>
        if t = .literal ∨ t = .block then none
        else some ((D.bind name D.place).push (.fields t))
      | none => none
  | _ => none

/-- Reads the start of a form, with or without a definition in front. -/
def form (D : Draft) : Sign → Option Draft
  | .lexeme (.define s) =>
    if D.names.contains s then none else some { D with expect := .named s }
  | s => D.atom none s

/-- Reads one sign. -/
def step (D : Draft) (s : Sign) : Option Draft :=
  match D.expect with
  | .named name => D.atom (some name) s
  | .tagName name => D.tagName name s
  | .form =>
    match D.stack with
    | ⟨.fields t, done⟩ :: outer =>
      if s = .lexeme .closing then
        if done.length = t.fields then some (D.pop outer (.fields t done .nil)) else none
      else D.form s
    | ⟨.block, done⟩ :: outer =>
      if s = .closeBrace then some (D.pop outer (.block done .nil)) else D.form s
    | ⟨.quote name, done⟩ :: outer =>
      if done.length = 0 then D.form s
      else if s = .lexeme .closing then
        some ((D.bind name (placeIn D.forms outer)).pop outer (.quote done .nil))
      else none
    | [] => D.form s

/-- Reads signs one after the other. -/
def run (D : Draft) : List Sign → Option Draft
  | [] => some D
  | s :: ss => (D.step s).bind fun D => D.run ss

/-- What has been read, at the end of the text.  Several forms become the elements of a
    block. -/
def finish (D : Draft) : Option Forest :=
  match D.expect, D.stack with
  | .form, [] =>
    if D.forms.length = 0 then none
    else if D.forms.length = 1 then some D.forms
    else some (.block D.forms .nil)
  | _, _ => none

/-! ### Small facts -/

section

variable (D : Draft) (name : Option String) (k : Nat) (F : Forest) (head : Head)

@[simp] theorem bind_stack : (D.bind name k).stack = D.stack := by cases name <;> rfl
@[simp] theorem bind_forms : (D.bind name k).forms = D.forms := by cases name <;> rfl
@[simp] theorem bind_expect : (D.bind name k).expect = D.expect := by cases name <;> rfl
@[simp] theorem bind_place : (D.bind name k).place = D.place := by cases name <;> rfl

@[simp] theorem add_names : (D.add F).names = D.names := by
  unfold add
  split <;> rfl

@[simp] theorem add_expect : (D.add F).expect = .form := by
  unfold add
  split <;> rfl

@[simp] theorem add_place : (D.add F).place = D.place + F.size := by
  obtain ⟨names, stack, expect, forms⟩ := D
  cases stack with
  | nil => simp [add, place, placeIn]
  | cons f outer => simp [add, place, placeIn, Nat.add_assoc]

@[simp] theorem push_place : (D.push head).place = D.place + 1 := by
  simp [push, place, placeIn, Forest.size]

end

/-! ### Well-scoped drafts -/

/-- The quotes that are open: those of the frames that are quotes. -/
def quotesIn (forms : Forest) : List Frame → Nat → Prop
  | [], _ => False
  | ⟨.quote _, _⟩ :: outer, k => k = placeIn forms outer ∨ quotesIn forms outer k
  | _ :: outer, k => quotesIn forms outer k

/-- The innermost frame can take so many forms more: a quote takes one in all. -/
def Takes (n : Nat) : List Frame → Prop
  | ⟨.quote _, done⟩ :: _ => done.length + n ≤ 1
  | _ => True

/-- What has been read in the frames is well scoped. -/
def ScopedIn (forms : Forest) : List Frame → Prop
  | [] => forms.Scoped (fun _ => False) 0
  | f :: outer => f.done.Scoped (quotesIn forms (f :: outer)) (placeIn forms outer + 1) ∧
    (∀ t, f.head = .fields t → t ≠ .literal ∧ t ≠ .block) ∧
    (∀ name, f.head = .quote name → f.done.length ≤ 1) ∧ Takes 1 outer ∧ ScopedIn forms outer

/-- What has been read is well scoped, and names stand for nodes that have begun and are no
    open quotes. -/
structure Scoped (D : Draft) : Prop where
  names : ∀ s k, D.names.get? s = some k → k < D.place ∧ ¬ quotesIn D.forms D.stack k
  frames : ScopedIn D.forms D.stack
  ready : D.expect = .form ∨ Takes 1 D.stack

variable {D D' : Draft} {name : Option String} {k : Nat} {F : Forest} {s : Sign}
  {forms : Forest} {stack outer : List Frame} {f : Frame}

theorem start_scoped : start.Scoped := ⟨fun _ _ h => (by cases h), trivial, Or.inl rfl⟩

/-- Open quotes have begun. -/
theorem quotesIn_lt (h : quotesIn forms stack k) : k < placeIn forms stack := by
  induction stack with
  | nil => exact h.elim
  | cons f outer ih =>
    obtain ⟨head, done⟩ := f
    simp only [placeIn]
    cases head with
    | quote name =>
      rcases h with rfl | h
      · omega
      · have := ih h
        omega
    | fields t =>
      have := ih h
      omega
    | block =>
      have := ih h
      omega

/-- What is read in a form does not decide which quotes are open. -/
theorem quotesIn_add : quotesIn (D.add F).forms (D.add F).stack = quotesIn D.forms D.stack := by
  obtain ⟨names, stack, expect, forms⟩ := D
  cases stack with
  | nil => rfl
  | cons f outer =>
    obtain ⟨⟨⟩ | ⟨⟩ | ⟨⟩, done⟩ := f <;> rfl

/-- One more form. -/
theorem ScopedIn.add (h : ScopedIn D.forms D.stack) (htakes : Takes F.length D.stack)
    (hF : F.Scoped (quotesIn D.forms D.stack) D.place) :
    ScopedIn (D.add F).forms (D.add F).stack := by
  obtain ⟨names, stack, expect, forms⟩ := D
  cases stack with
  | nil =>
    refine Forest.scoped_append.2 ⟨h, ?_⟩
    rw [Nat.zero_add]
    exact hF
  | cons f outer =>
    obtain ⟨head, done⟩ := f
    obtain ⟨hdone, hhead, -, houter, hrest⟩ := h
    refine ⟨Forest.scoped_append.2 ⟨?_, ?_⟩, hhead, ?_, houter, hrest⟩
    · cases head <;> exact hdone
    · cases head <;> exact hF
    · rintro name rfl
      rw [Forest.length_append]
      exact htakes

/-- A state that goes on from a well-scoped one, with one more name perhaps. -/
theorem Scoped.next (h : D.Scoped) (name : Option String) (k : Nat)
    (hnames : D'.names = (D.bind name k).names)
    (hk : name ≠ none → k < D'.place ∧ ¬ quotesIn D'.forms D'.stack k)
    (hle : D.place ≤ D'.place)
    (hquotes : ∀ j, j < D.place → quotesIn D'.forms D'.stack j → quotesIn D.forms D.stack j)
    (hframes : ScopedIn D'.forms D'.stack)
    (hready : D'.expect = .form ∨ Takes 1 D'.stack) :
    D'.Scoped := by
  refine ⟨?_, hframes, hready⟩
  have hold : ∀ s j, D.names.get? s = some j →
      j < D'.place ∧ ¬ quotesIn D'.forms D'.stack j := by
    intro s j hs
    obtain ⟨hlt, hnot⟩ := h.names s j hs
    exact ⟨by omega, fun hq => hnot (hquotes j hlt hq)⟩
  intro s j hs
  rw [hnames] at hs
  cases name with
  | none => exact hold s j hs
  | some s' =>
    by_cases heq : s = s'
    · subst heq
      rw [bind, Dict.get?_set_self] at hs
      cases hs
      exact hk (by simp)
    · rw [bind, Dict.get?_set_ne _ _ heq] at hs
      exact hold s j hs

/-- A complete form, which `name` defines, is read. -/
theorem Scoped.add (h : D.Scoped) (name : Option String) (k : Nat) (hready : Takes 1 D.stack)
    (hk : name ≠ none → k < D.place + F.size ∧ ¬ quotesIn D.forms D.stack k)
    (hF : F.Scoped (quotesIn D.forms D.stack) D.place) (hlen : F.length = 1) :
    ((D.bind name k).add F).Scoped := by
  have hframes : ScopedIn (D.bind name k).forms (D.bind name k).stack := by
    rw [bind_stack, bind_forms]
    exact h.frames
  refine h.next name k (add_names ..) ?_ ?_ ?_ ?_ (Or.inl (add_expect ..))
  · rw [quotesIn_add, bind_stack, bind_forms, add_place, bind_place]
    exact hk
  · rw [add_place, bind_place]
    omega
  · rw [quotesIn_add, bind_stack, bind_forms]
    exact fun _ _ hq => hq
  · refine hframes.add (by rwa [bind_stack, hlen]) ?_
    rwa [bind_stack, bind_forms, bind_place]

/-- A form is begun, which `name` defines. -/
theorem Scoped.push (h : D.Scoped) (name : Option String) (hready : Takes 1 D.stack) {head : Head}
    (hhead : ∀ t, head = .fields t → t ≠ .literal ∧ t ≠ .block)
    (hname : name ≠ none → ∀ s, head ≠ .quote s) :
    ((D.bind name D.place).push head).Scoped := by
  have hlt : ¬ quotesIn D.forms D.stack D.place := fun hq => Nat.lt_irrefl _ (quotesIn_lt hq)
  refine h.next name D.place rfl ?_ ?_ ?_ ?_ (Or.inl rfl)
  · intro hsome
    rw [push_place, bind_place]
    refine ⟨Nat.lt_succ_self _, ?_⟩
    show ¬ quotesIn (D.bind name D.place).forms (⟨head, .nil⟩ :: (D.bind name D.place).stack) _
    rw [bind_stack, bind_forms]
    cases head with
    | quote s => exact absurd rfl (hname hsome s)
    | fields t => exact hlt
    | block => exact hlt
  · rw [push_place, bind_place]
    exact Nat.le_succ _
  · intro j hj hq
    rw [show ((D.bind name D.place).push head).forms = D.forms from bind_forms ..,
      show ((D.bind name D.place).push head).stack = ⟨head, .nil⟩ :: D.stack from
        congrArg _ (bind_stack ..)] at hq
    cases head with
    | quote s => exact hq.resolve_left (by show ¬ j = D.place; omega)
    | fields t => exact hq
    | block => exact hq
  · rw [show ((D.bind name D.place).push head).forms = D.forms from bind_forms ..,
      show ((D.bind name D.place).push head).stack = ⟨head, .nil⟩ :: D.stack from
        congrArg _ (bind_stack ..)]
    exact ⟨trivial, hhead, fun _ _ => Nat.zero_le _, hready, h.frames⟩

theorem Scoped.atom (h : D.Scoped) (hready : Takes 1 D.stack) (hstep : D.atom name s = some D') :
    D'.Scoped := by
  have hplace : ¬ quotesIn D.forms D.stack D.place := fun hq => Nat.lt_irrefl _ (quotesIn_lt hq)
  unfold Draft.atom at hstep
  split at hstep
  · cases hstep
    exact h.add _ _ hready (fun _ => ⟨Nat.lt_succ_self _, hplace⟩) trivial rfl
  · split at hstep
    · split at hstep
      · cases hstep
        exact h.add none 0 hready (fun hne => absurd rfl hne) trivial
          rfl
      · cases hstep
    · obtain ⟨k, hk, rfl⟩ := Option.map_eq_some_iff.1 hstep
      obtain ⟨hlt, hnot⟩ := h.names _ _ hk
      refine h.add _ _ hready (fun _ => ⟨by omega, hnot⟩) ?_ rfl
      refine ⟨by omega, by omega, ?_, trivial⟩
      rwa [Nat.sub_sub_self (Nat.le_of_lt hlt)]
  · cases hstep
    exact h.next none 0 rfl (fun hne => absurd rfl hne) (Nat.le_refl _)
      (fun _ _ hq => hq) h.frames (Or.inr hready)
  · cases hstep
    exact h.push _ hready (fun _ ht => by cases ht) (fun _ _ hq => by cases hq)
  all_goals cases hstep

theorem Scoped.tagName (h : D.Scoped) (hready : Takes 1 D.stack)
    (hstep : D.tagName name s = some D') : D'.Scoped := by
  unfold Draft.tagName at hstep
  split at hstep
  · split at hstep
    · cases hstep
      exact h.push none hready (fun _ ht => by cases ht) (fun hne => absurd rfl hne)
    · split at hstep
      · split at hstep
        · cases hstep
        · rename_i t _ ht
          cases hstep
          refine h.push _ hready ?_ (fun _ _ hq => by cases hq)
          rintro t' heq
          cases heq
          exact not_or.1 ht
      · cases hstep
  · cases hstep

theorem Scoped.form (h : D.Scoped) (hready : Takes 1 D.stack) (hstep : D.form s = some D') :
    D'.Scoped := by
  unfold Draft.form at hstep
  split at hstep
  · split at hstep
    · cases hstep
    · cases hstep
      exact h.next none 0 rfl (fun hne => absurd rfl hne) (Nat.le_refl _)
        (fun _ _ hq => hq) h.frames (Or.inr hready)
  · exact h.atom hready hstep

/-- The innermost form ends. -/
theorem Scoped.pop (h : D.Scoped) (name : Option String) (k : Nat) (hstack : D.stack = f :: outer)
    (hk : name ≠ none → k = placeIn D.forms outer)
    (hF : F.Scoped (quotesIn D.forms outer) (placeIn D.forms outer)) (hlen : F.length = 1)
    (hsize : F.size = f.done.size + 1) : ((D.bind name k).pop outer F).Scoped := by
  obtain ⟨names, stack, expect, forms⟩ := D
  cases hstack
  obtain ⟨-, -, -, hready, hrest⟩ := h.frames
  have hsub : ∀ j, quotesIn forms outer j → quotesIn forms (f :: outer) j := by
    intro j hq
    obtain ⟨⟨⟩ | ⟨⟩ | ⟨⟩, done⟩ := f
    · exact hq
    · exact hq
    · exact Or.inr hq
  let D₁ : Draft := { (bind ⟨names, f :: outer, expect, forms⟩ name k) with stack := outer }
  have hforms : D₁.forms = forms := bind_forms ..
  have hplace : D₁.place = placeIn forms outer := congrArg (placeIn · outer) hforms
  show (D₁.add F).Scoped
  refine h.next name k (add_names ..) ?_ ?_ ?_ ?_ (Or.inl (add_expect ..))
  · intro hsome
    rw [hk hsome, quotesIn_add, add_place, hplace, hforms]
    exact ⟨by dsimp only; omega, fun hq => Nat.lt_irrefl _ (quotesIn_lt hq)⟩
  · rw [add_place, hplace]
    show placeIn forms outer + 1 + f.done.size ≤ placeIn forms outer + F.size
    omega
  · intro j _ hq
    rw [quotesIn_add, hforms] at hq
    exact hsub j hq
  · refine ScopedIn.add ?_ (by rw [hlen]; exact hready) ?_
    · rw [hforms]
      exact hrest
    · rw [hforms, hplace]
      exact hF

/-- What is read stays well scoped. -/
theorem Scoped.step (h : D.Scoped) (hstep : D.step s = some D') : D'.Scoped := by
  have hready : D.expect ≠ .form → Takes 1 D.stack := fun hne => h.ready.resolve_left hne
  unfold Draft.step at hstep
  split at hstep
  · rename_i name hexpect
    exact h.atom (hready (by rw [hexpect]; exact Awaited.noConfusion)) hstep
  · rename_i name hexpect
    exact h.tagName (hready (by rw [hexpect]; exact Awaited.noConfusion)) hstep
  · have hframes := h.frames
    split at hstep
    · rename_i t done outer hstack
      have hopen : Takes 1 D.stack := by
        rw [hstack]
        trivial
      rw [hstack] at hframes
      obtain ⟨hdone, ht, -, -, -⟩ := hframes
      split at hstep
      · -- A node may end once it has a form for each of its fields.
        split at hstep
        · rename_i hlen
          cases hstep
          exact h.pop none 0 hstack (fun hne => absurd rfl hne)
            ⟨ht t rfl, hlen, hdone, trivial⟩ rfl (by simp [Forest.size])
        · cases hstep
      · exact h.form hopen hstep
    · rename_i done outer hstack
      have hopen : Takes 1 D.stack := by
        rw [hstack]
        trivial
      rw [hstack] at hframes
      split at hstep
      · cases hstep
        exact h.pop none 0 hstack (fun hne => absurd rfl hne)
          ⟨hframes.1, trivial⟩ rfl (by simp [Forest.size])
      · exact h.form hopen hstep
    · rename_i name done outer hstack
      rw [hstack] at hframes
      obtain ⟨hdone, -, hlen, -, -⟩ := hframes
      -- A quote takes one form and no more, and its name is known only after it.
      split at hstep
      · rename_i h0
        exact h.form (by rw [hstack]; show done.length + 1 ≤ 1; omega) hstep
      · rename_i h0
        split at hstep
        · cases hstep
          have hone : done.length = 1 := by
            have := hlen name rfl
            dsimp only at this
            omega
          exact h.pop _ _ hstack (fun _ => rfl) ⟨hone, hdone, trivial⟩ rfl (by simp [Forest.size])
        · cases hstep
    · rename_i hstack
      exact h.form (by rw [hstack]; trivial) hstep

/-- What has been read is well scoped. -/
theorem Scoped.run {ss : List Sign} (h : D.Scoped) (hrun : D.run ss = some D') : D'.Scoped := by
  induction ss generalizing D with
  | nil =>
    cases hrun
    exact h
  | cons s ss ih =>
    obtain ⟨D₁, hstep, hrest⟩ := Option.bind_eq_some_iff.1 hrun
    exact ih (h.step hstep) hrest

/-- What has been read at the end of a text is a well-scoped form. -/
theorem Scoped.finish (h : D.Scoped) (hfinish : D.finish = some F) :
    F.Scoped (fun _ => False) 0 ∧ F.length = 1 := by
  obtain ⟨names, stack, expect, forms⟩ := D
  unfold Draft.finish at hfinish
  split at hfinish
  · rename_i hexpect hstack
    cases hstack
    have hforms : forms.Scoped (fun _ => False) 0 := h.frames
    split at hfinish
    · cases hfinish
    · split at hfinish
      · rename_i hlen
        cases hfinish
        exact ⟨hforms, hlen⟩
      · cases hfinish
        exact ⟨⟨hforms.shift fun _ hq => hq, trivial⟩, rfl⟩
  · cases hfinish

end Draft

end TreeMachine.Source
