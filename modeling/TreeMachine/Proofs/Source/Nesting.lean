import TreeMachine.Proofs.Source.Forms

/-! # Brackets and the reader

  The reader opens a bracket or brace for each such token and closes it again, and nothing
  else changes how many are open.  Main statements: what one step of the reader can do with
  names and brackets, and that at the end of what it has read as many are open as the tokens
  say, also where it stops because of one.
-/

namespace TreeMachine.Source

/-! ### Brackets that are open -/

/-- The name that is bound only when the form ends. -/
def OpenForm.late : OpenForm → Option String
  | .quote _ name => name
  | .node .. | .block .. => none

/-- The bracket that is open, but belongs to no form on the stack. -/
def Expect.bracket : Expect → List (Option String)
  | .form | .named _ => []
  | .tagName _ _ => [none]
  | .quoteEnd _ name _ => [name]

/-- The name that the form to be read is going to have. -/
def Expect.pending : Expect → Option String
  | .named s => some s
  | .tagName _ name => name
  | .form | .quoteEnd .. => none

/-- The brackets and braces that are open, innermost first, each with the name that is bound
    when it is closed. -/
def Reader.brackets (r : Reader) : List (Option String) :=
  r.expect.bracket ++ r.stack.map OpenForm.late

/-- How many more brackets and braces are open after the token. -/
def Token.balance (tok : Token) : Int :=
  match tok.kind with
  | .openBracket | .openBrace => 1
  | .closeBracket | .closeBrace => -1
  | .endOfText | .invalid | .integer | .name | .define => 0

/-- How many more brackets and braces are open after the tokens. -/
def balance (toks : List Token) : Int := (toks.map Token.balance).sum

@[simp] theorem balance_nil : balance [] = 0 := rfl

@[simp] theorem balance_cons (tok : Token) (toks : List Token) :
    balance (tok :: toks) = tok.balance + balance toks := by
  simp [balance]

@[simp] theorem balance_append (toks toks' : List Token) :
    balance (toks ++ toks') = balance toks + balance toks' := by
  simp [balance]

/-- Reading stops because a bracket or brace is not closed. -/
def Unclosed (err : Stop ReadError) : Prop :=
  ∃ e, err = .error e ∧ (e.problem = .unclosedBracket ∨ e.problem = .unclosedBrace)

variable {h : Heap} {r r' : Reader} {tok : Token} {after : Position} {name : Option String}
  {n : Node}

theorem not_unclosed_fault {f : Fault} : ¬ Unclosed (.fault f) := by
  rintro ⟨e, he, -⟩
  cases he

/-- An operation that may only fault. -/
theorem lift_not_unclosed {α : Type} {x : EStateM Fault Heap α} {Q : α → Heap → Prop}
    (hq : ∀ a h', Q a h') :
    Yields (liftM x : ReadM α) h Q fun err _ => ¬ Unclosed err := by
  cases hx : x h with
  | ok a h' => exact Yields.of_ok (lift_eq_ok hx) (hq a h')
  | error f h' => exact Yields.of_error (lift_eq_error hx) not_unclosed_fault

/-- The making of a node. -/
theorem mapStop_not_unclosed {α : Type} {x : EStateM (Stop NodeError) Heap α} (pos : Position)
    {Q : α → Heap → Prop} (hq : ∀ a h', Q a h') :
    Yields (mapStop (fun e => ReadError.mk pos (.store e)) x) h Q
      fun err _ => ¬ Unclosed err := by
  cases hx : x h with
  | ok a h' => exact Yields.of_ok (mapStop_eq_ok hx) (hq a h')
  | error e h' =>
    refine Yields.of_error (mapStop_eq_error hx) ?_
    rintro ⟨e', he', hproblem⟩
    cases e with
    | fault f => cases he'
    | error e =>
      cases he'
      simp at hproblem

theorem complain_not_unclosed {α : Type} {Q : α → Heap → Prop} (pos : Position)
    {problem : Problem} (hp : problem ≠ .unclosedBracket ∧ problem ≠ .unclosedBrace) :
    Yields (complain pos problem) h Q fun err _ => ¬ Unclosed err := by
  refine Yields.of_error rfl ?_
  rintro ⟨e, he, hproblem⟩
  cases he
  exact hproblem.elim hp.1 hp.2

/-! ### What a step can do -/

/-- The state after a token, as far as names and brackets are concerned. -/
inductive Moves (r : Reader) (tok : Token) (r' : Reader) : Prop where
  /-- A definition begins; its name is new. -/
  | define : tok.kind = .define → r.Awaits none → r.names.contains tok.literal = false →
    r'.names = r.names → r'.brackets = r.brackets → r'.expect = .named tok.literal →
    Moves r tok r'
  /-- A numeral or a name is a complete form. -/
  | atom {name : Option String} {n : Node} : tok.kind = .integer ∨ tok.kind = .name →
    r.Awaits name → r'.names = (r.bind name n).names → r'.brackets = r.brackets →
    r'.expect.pending = none → Moves r tok r'
  | openBracket {name : Option String} : tok.kind = .openBracket → r.Awaits name →
    r'.names = r.names → r'.brackets = none :: r.brackets →
    r'.expect = .tagName tok.pos name → Moves r tok r'
  | openBrace {name : Option String} {n : Node} : tok.kind = .openBrace → r.Awaits name →
    r'.names = (r.bind name n).names → r'.brackets = none :: r.brackets →
    r'.expect.pending = none → Moves r tok r'
  /-- The bracket is a quote, and the name has to wait. -/
  | quote {opened : Position} {name : Option String} : tok.kind = .name → tok.literal = "quote" →
    r.expect = .tagName opened name → r'.names = r.names →
    r'.brackets = name :: r.brackets.tail → r'.expect.pending = none → Moves r tok r'
  /-- The bracket is a node, which gets the name. -/
  | node {opened : Position} {name : Option String} {n : Node} : tok.kind = .name →
    tok.literal ≠ "quote" → r.expect = .tagName opened name →
    r'.names = (r.bind name n).names → r'.brackets = r.brackets → r'.expect.pending = none →
    Moves r tok r'
  | close {name : Option String} {n : Node} : tok.kind = .closeBracket ∨ tok.kind = .closeBrace →
    r.brackets = name :: r'.brackets → r.expect.pending = none →
    r'.names = (r.bind name n).names → r'.expect.pending = none → Moves r tok r'

/-- The reader moves, or stops for some other reason than an open bracket. -/
abbrev StepsOn (x : ReadM Reader) (h : Heap) (Q : Reader → Prop) : Prop :=
  Yields x h (fun r' _ => Q r') fun err _ => ¬ Unclosed err

theorem Reader.bind_stack (r : Reader) (name : Option String) (n : Node) :
    (r.bind name n).stack = r.stack := by
  cases name <;> rfl

/-- Handing over a form leaves names and brackets alone. -/
theorem deliver_moves (r : Reader) (n : Node) : StepsOn (r.deliver n) h fun r' =>
    r'.names = r.names ∧ r'.brackets = r.stack.map OpenForm.late ∧ r'.expect.pending = none := by
  obtain ⟨names, stack, e, forms⟩ := r
  unfold Reader.deliver
  -- Only the form on top of the stack matters; a quote leaves it, but its bracket stays open.
  cases stack with
  | nil => exact Yields.pure ⟨rfl, rfl, rfl⟩
  | cons f outer =>
    cases f with
    | node opened tag m given =>
      dsimp only
      split
      · exact Yields.bind (lift_not_unclosed fun _ _ => Yields.pure ⟨rfl, rfl, rfl⟩)
      · exact Yields.pure ⟨rfl, rfl, rfl⟩
    | quote start name => exact Yields.pure ⟨rfl, rfl, rfl⟩
    | block start b =>
      exact Yields.bind (lift_not_unclosed fun _ _ => Yields.pure ⟨rfl, rfl, rfl⟩)

/-- A reader that awaits a form has no other bracket open than those on its stack. -/
theorem Reader.Awaits.brackets (hr : r.Awaits name) :
    r.brackets = r.stack.map OpenForm.late := by
  cases name <;> simp [show r.expect = _ from hr, Reader.brackets, Expect.bracket]

theorem atom_moves (hr : r.Awaits name) :
    StepsOn (r.atom name tok after) h (Moves r tok) := by
  have hbrackets := hr.brackets
  obtain ⟨kind, literal, pos⟩ := tok
  -- Where a form is complete, it is handed over.
  have hatom : ∀ kind name n h, kind = .integer ∨ kind = .name → r.Awaits name →
      StepsOn ((r.bind name n).deliver n) h (Moves r ⟨kind, literal, pos⟩) := by
    intro kind name n h hkind hr
    apply (deliver_moves (r.bind name n) n).imp
    intro r' _ hr'
    obtain ⟨hnames, hopen, hpending⟩ := hr'
    rw [Reader.bind_stack, ← hbrackets] at hopen
    exact .atom hkind hr hnames hopen hpending
  unfold Reader.atom
  dsimp only
  cases kind with
  | integer =>
    dsimp only
    cases Text.readNumeral literal with
    | error e => exact complain_not_unclosed _ (by simp)
    | ok v =>
      exact Yields.bind (lift_not_unclosed fun n h' => hatom _ name n h' (Or.inl rfl) hr)
  | name =>
    dsimp only
    split
    · cases name with
      | some name => exact complain_not_unclosed _ (by simp)
      | none => exact hatom _ none 0 h (Or.inr rfl) hr
    · cases r.names.get? literal with
      | none => exact complain_not_unclosed _ (by simp)
      | some n => exact hatom _ name n h (Or.inr rfl) hr
  | openBracket =>
    refine Yields.pure (.openBracket rfl hr rfl ?_ rfl)
    rw [hbrackets]
    rfl
  | openBrace =>
    refine Yields.bind (lift_not_unclosed fun n _ => Yields.pure ?_)
    refine .openBrace rfl hr rfl ?_ rfl
    show _ :: List.map _ (r.bind name n).stack = _
    rw [Reader.bind_stack, hbrackets]
    rfl
  | define | invalid | endOfText | closeBracket | closeBrace =>
    exact complain_not_unclosed _ (by simp)

theorem form_moves (hr : r.Awaits none) : StepsOn (r.form tok after) h (Moves r tok) := by
  unfold Reader.form
  by_cases hkind : tok.kind = .define
  · rw [if_pos hkind]
    by_cases hdefined : r.names.contains tok.literal = true
    · rw [if_pos hdefined]
      exact complain_not_unclosed _ (by simp)
    · rw [if_neg hdefined]
      refine Yields.pure (.define hkind hr (by simpa using hdefined) rfl ?_ rfl)
      rw [hr.brackets]
      rfl
  · rw [if_neg hkind]
    exact atom_moves hr

theorem tagName_moves {opened : Position} (hr : r.expect = .tagName opened name) :
    StepsOn (r.tagName opened name tok after) h (Moves r tok) := by
  have hbrackets : r.brackets = none :: r.stack.map OpenForm.late := by
    rw [Reader.brackets, hr]
    rfl
  unfold Reader.tagName
  by_cases hkind : tok.kind = .name
  · rw [if_neg fun hne => hne hkind]
    by_cases hquote : tok.literal = "quote"
    · rw [if_pos hquote]
      refine Yields.pure (.quote hkind hquote hr rfl ?_ rfl)
      rw [hbrackets]
      rfl
    · rw [if_neg hquote]
      cases Tag.ofName? tok.literal with
      | none => exact complain_not_unclosed _ (by simp)
      | some t =>
        dsimp only
        split
        · exact complain_not_unclosed _ (by simp)
        · refine Yields.bind (mapStop_not_unclosed _ fun n _ => Yields.pure ?_)
          refine .node hkind hquote hr rfl ?_ rfl
          show none :: List.map _ (r.bind name n).stack = _
          rw [Reader.bind_stack, hbrackets]
  · rw [if_pos hkind]
    exact complain_not_unclosed _ (by simp)

theorem closeQuote_moves {start : Position} {q : Node} (hr : r.expect = .quoteEnd start name q) :
    StepsOn (r.closeQuote start name q tok) h (Moves r tok) := by
  unfold Reader.closeQuote
  by_cases hkind : tok.kind = .closeBracket
  · rw [if_neg fun hne => hne hkind]
    refine Yields.get_bind (Yields.bind (mapStop_not_unclosed _ ?_))
    intro n h'
    apply (deliver_moves (r.bind name n) n).imp
    intro r' _ hr'
    obtain ⟨hnames, hopen, hpending⟩ := hr'
    rw [Reader.bind_stack] at hopen
    refine .close (Or.inl hkind) ?_ ?_ hnames hpending
    · rw [hopen, Reader.brackets, hr]
      rfl
    · rw [hr]
      rfl
  · rw [if_pos hkind]
    exact complain_not_unclosed _ (by simp)

/-- A node or block is closed. -/
theorem pop_moves {f : OpenForm} {outer : List OpenForm} (hr : r.expect = .form)
    (hstack : r.stack = f :: outer) (hf : f.late = none)
    (hkind : tok.kind = .closeBracket ∨ tok.kind = .closeBrace) (n : Node) :
    StepsOn ({ r with stack := outer }.deliver n) h (Moves r tok) := by
  apply (deliver_moves { r with stack := outer } n).imp
  intro r' _ hr'
  obtain ⟨hnames, hopen, hpending⟩ := hr'
  have hclosed : r.brackets = none :: r'.brackets := by
    rw [hopen, Reader.brackets, hr, hstack, List.map_cons, hf]
    rfl
  apply Moves.close (n := n) hkind hclosed _ hnames hpending
  rw [hr]
  rfl

/-- One token moves the reader. -/
theorem step_moves (r : Reader) (tok : Token) (after : Position) (h : Heap) :
    StepsOn (r.step tok after) h (Moves r tok) := by
  unfold Reader.step
  -- One case for each thing that the reader can wait for.
  cases hexpect : r.expect with
  | named s => exact atom_moves hexpect
  | tagName opened name => exact tagName_moves hexpect
  | quoteEnd start name q => exact closeQuote_moves hexpect
  | form =>
    have hform : StepsOn (r.form tok after) h (Moves r tok) := form_moves hexpect
    dsimp only
    -- A node or block on top may be closed; everything else begins a form.
    split
    · rename_i opened tag n given outer hstack
      by_cases hkind : tok.kind = .closeBracket
      · rw [if_pos hkind]
        split
        · exact pop_moves hexpect hstack rfl (Or.inl hkind) n
        · exact complain_not_unclosed _ (by simp)
      · rw [if_neg hkind]
        exact hform
    · rename_i start b outer hstack
      by_cases hkind : tok.kind = .closeBrace
      · rw [if_pos hkind]
        exact pop_moves hexpect hstack rfl (Or.inr hkind) b
      · rw [if_neg hkind]
        exact hform
    · exact hform

/-! ### Counting brackets -/

/-- A step opens and closes what its token says. -/
theorem Moves.length_brackets (hm : Moves r tok r') :
    (r'.brackets.length : Int) = r.brackets.length + tok.balance := by
  unfold Token.balance
  cases hm with
  | define hkind _ _ _ hopen => simp [hkind, hopen]
  | atom hkind _ _ hopen => rcases hkind with hkind | hkind <;> simp [hkind, hopen]
  | openBracket hkind _ _ hopen => simp [hkind, hopen]
  | openBrace hkind _ _ hopen => simp [hkind, hopen]
  | quote hkind _ hexpect _ hopen =>
    have hr : r.brackets = none :: r.stack.map OpenForm.late := by
      rw [Reader.brackets, hexpect]
      rfl
    simp [hkind, hopen, hr]
  | node hkind _ _ _ hopen => simp [hkind, hopen]
  | close hkind hopen => rcases hkind with hkind | hkind <;> simp [hkind, hopen]

/-- At the end of the text no bracket is open, or one of them is the problem. -/
theorem finish_brackets (r : Reader) (tok : Token) (h : Heap) :
    Yields (r.finish tok) h (fun _ _ => r.brackets = []) fun err _ =>
      Unclosed err → r.brackets ≠ [] := by
  have hother : ∀ {x : ReadM Node}, Yields x h (fun _ _ => r.brackets = [])
      (fun err _ => ¬ Unclosed err) → Yields x h (fun _ _ => r.brackets = [])
      fun err _ => Unclosed err → r.brackets ≠ [] :=
    fun hx => hx.mono (fun _ _ => id) fun _ _ hne he => absurd he hne
  unfold Reader.finish
  cases hexpect : r.expect with
  | named s => exact hother (complain_not_unclosed _ (by simp))
  | tagName opened name => exact hother (complain_not_unclosed _ (by simp))
  | quoteEnd start name q => exact hother (complain_not_unclosed _ (by simp))
  | form =>
    have hbrackets : r.brackets = r.stack.map OpenForm.late := by
      rw [Reader.brackets, hexpect]
      rfl
    cases hstack : r.stack with
    | nil =>
      have hnil : r.brackets = [] := by rw [hbrackets, hstack, List.map_nil]
      match r.forms with
      | [] => exact hother (complain_not_unclosed _ (by simp))
      | [n] => exact Yields.pure hnil
      | _ :: _ :: _ => exact hother (lift_not_unclosed fun _ _ => hnil)
    | cons f outer =>
      have hne : r.brackets ≠ [] := by
        rw [hbrackets, hstack]
        exact List.cons_ne_nil _ _
      cases f with
      | node | quote | block => exact Yields.of_error rfl fun _ => hne

/-- What is open at the end is what was open before and what the tokens open. -/
theorem run_balance (r : Reader) (toks : List Token) (last : Token) (h : Heap) :
    Yields (r.run (toks ++ [last])) h
      (fun _ _ => (r.brackets.length : Int) + balance toks = 0) fun err _ =>
        Unclosed err → 0 < (r.brackets.length : Int) + balance toks := by
  -- The count goes along with the reader: each step moves its part from the tokens to the stack.
  induction toks generalizing r h with
  | nil =>
    apply (finish_brackets r last h).mono
    · intro _ _ hnil
      simp [hnil]
    · intro _ _ hne he
      have hpos := List.length_pos_iff.2 (hne he)
      simpa using hpos
  | cons tok toks ih =>
    obtain ⟨after, hrun⟩ := r.run_cons tok (toks ++ [last]) (by simp)
    rw [List.cons_append, hrun]
    apply Yields.bind
    apply (step_moves r tok after h).mono
    · intro r' h' hm
      rw [balance_cons, ← Int.add_assoc, ← hm.length_brackets]
      exact ih r' h'
    · intro err _ hne he
      exact absurd he hne

end TreeMachine.Source
