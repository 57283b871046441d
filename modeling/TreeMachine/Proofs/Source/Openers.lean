import TreeMachine.Image
import TreeMachine.Proofs.Source.Coverage
import TreeMachine.Proofs.Source.Nesting

/-! # Where an open bracket is reported

  The reader keeps a mark for each bracket and brace that is open: the place that it is going
  to report when the text ends too early.  For the bracket of a node that is the bracket, for
  the brace of a block the token after the brace.  Main statements: what one token does to the
  marks, that the marks are those of the brackets that the tokens leave open, and so where a
  text with an unclosed bracket or brace is found to be wrong.
-/

namespace TreeMachine.Source

/-! ### Tokens with all brackets closed -/

/-- The token that closes what the token opens. -/
def TokenKind.Closes : TokenKind → TokenKind → Prop
  | .openBracket, kind => kind = .closeBracket
  | .openBrace, kind => kind = .closeBrace
  | _, _ => False

/-- Among the tokens each bracket and brace is closed, and none is closed that they do not
    open. -/
inductive Matched : List Token → Prop where
  | nil : Matched []
  | plain {toks : List Token} {tok : Token} : Matched toks → tok.balance = 0 →
    Matched (toks ++ [tok])
  | nest {toks inner : List Token} {opener closer : Token} : Matched toks → Matched inner →
    opener.kind.Closes closer.kind → Matched (toks ++ opener :: inner ++ [closer])

/-! ### Marks -/

/-- A bracket or brace that is open, with the place that is reported if it stays open. -/
inductive Mark where
  | node (opened : Position)
  /-- The bracket of a quote is reported by another error. -/
  | quote
  | block (start : Position)
deriving DecidableEq, Repr

namespace Mark

/-- The token that opens the form. -/
def opener : Mark → TokenKind
  | node _ | quote => .openBracket
  | block _ => .openBrace

/-- The token that closes the form. -/
def closer : Mark → TokenKind
  | node _ | quote => .closeBracket
  | block _ => .closeBrace

theorem closes (m : Mark) : m.opener.Closes m.closer := by
  cases m <;> rfl

/-- The mark is that of the token, which has the given position behind it. -/
def Of (m : Mark) (tok : Token) (after : Position) : Prop :=
  tok.kind = m.opener ∧
    match m with
    | node opened => opened = tok.pos
    | quote => True
    | block start => start = after

end Mark

def OpenForm.mark : OpenForm → Mark
  | .node opened _ _ _ => .node opened
  | .quote _ _ => .quote
  | .block start _ => .block start

/-- The mark of a bracket that belongs to no form on the stack. -/
def Expect.marks : Expect → List Mark
  | .form | .named _ => []
  | .tagName opened _ => [.node opened]
  | .quoteEnd .. => [.quote]

/-- The marks of what is open, innermost first. -/
def Reader.marks (r : Reader) : List Mark := r.expect.marks ++ r.stack.map OpenForm.mark

/-! ### What a step does to the marks -/

/-- The marks after a token, where `after` is the position of the token behind it. -/
inductive Turns (marks : List Mark) (tok : Token) (after : Position) : List Mark → Prop where
  | plain : tok.balance = 0 → Turns marks tok after marks
  /-- A bracket turns out to be a quote. -/
  | quote {opened : Position} {outer : List Mark} : tok.balance = 0 →
    marks = .node opened :: outer → Turns marks tok after (.quote :: outer)
  | openBracket : tok.kind = .openBracket → Turns marks tok after (.node tok.pos :: marks)
  | openBrace : tok.kind = .openBrace → Turns marks tok after (.block after :: marks)
  | close {m : Mark} {outer : List Mark} : tok.kind = m.closer → marks = m :: outer →
    Turns marks tok after outer

section

variable {h : Heap} {r : Reader} {tok : Token} {after : Position} {name : Option String}

/-- Handing over a form leaves open what is on the stack. -/
theorem deliver_marks (r : Reader) (n : Node) :
    StepsOn (r.deliver n) h fun r' => r'.marks = r.stack.map OpenForm.mark := by
  obtain ⟨names, stack, e, forms⟩ := r
  unfold Reader.deliver
  cases stack with
  | nil => exact Yields.pure rfl
  | cons f outer =>
    cases f with
    | node opened tag m given =>
      dsimp only
      split
      · exact Yields.bind (lift_not_unclosed fun _ _ => Yields.pure rfl)
      · exact Yields.pure rfl
    | quote start name => exact Yields.pure rfl
    | block start b => exact Yields.bind (lift_not_unclosed fun _ _ => Yields.pure rfl)

theorem Reader.Awaits.marks (hr : r.Awaits name) : r.marks = r.stack.map OpenForm.mark := by
  cases name <;> simp [show r.expect = _ from hr, Reader.marks, Expect.marks]

theorem atom_turns (hr : r.Awaits name) :
    StepsOn (r.atom name tok after) h fun r' => Turns r.marks tok after r'.marks := by
  have hmarks := hr.marks
  obtain ⟨kind, literal, pos⟩ := tok
  -- Where a form is complete, nothing is opened or closed.
  have hatom : ∀ kind name n h, (Token.mk kind literal pos).balance = 0 →
      StepsOn ((r.bind name n).deliver n) h fun r' =>
        Turns r.marks ⟨kind, literal, pos⟩ after r'.marks := by
    intro kind name n h hbalance
    apply (deliver_marks (r.bind name n) n).imp
    intro r' _ hr'
    rw [Reader.bind_stack, ← hmarks] at hr'
    show Turns r.marks _ after r'.marks
    rw [hr']
    exact .plain hbalance
  unfold Reader.atom
  dsimp only
  cases kind with
  | integer =>
    dsimp only
    cases Text.readNumeral literal with
    | error e => exact complain_not_unclosed _ (by simp)
    | ok v => exact Yields.bind (lift_not_unclosed fun n h' => hatom _ name n h' rfl)
  | name =>
    dsimp only
    split
    · cases name with
      | some name => exact complain_not_unclosed _ (by simp)
      | none => exact hatom _ none 0 h rfl
    · cases r.names.get? literal with
      | none => exact complain_not_unclosed _ (by simp)
      | some n => exact hatom _ name n h rfl
  | openBracket =>
    apply Yields.pure
    rw [hmarks]
    exact .openBracket rfl
  | openBrace =>
    refine Yields.bind (lift_not_unclosed fun n _ => Yields.pure ?_)
    show Turns r.marks _ after (.block after :: List.map _ (r.bind name n).stack)
    rw [Reader.bind_stack, ← hmarks]
    exact .openBrace rfl
  | define | invalid | endOfText | closeBracket | closeBrace =>
    exact complain_not_unclosed _ (by simp)

theorem form_turns (hr : r.Awaits none) :
    StepsOn (r.form tok after) h fun r' => Turns r.marks tok after r'.marks := by
  unfold Reader.form
  by_cases hkind : tok.kind = .define
  · rw [if_pos hkind]
    split
    · exact complain_not_unclosed _ (by simp)
    · apply Yields.pure
      rw [hr.marks]
      apply Turns.plain
      rw [Token.balance, hkind]
  · rw [if_neg hkind]
    exact atom_turns hr

theorem tagName_turns {opened : Position} (hr : r.expect = .tagName opened name) :
    StepsOn (r.tagName opened name tok after) h fun r' => Turns r.marks tok after r'.marks := by
  have hmarks : r.marks = .node opened :: r.stack.map OpenForm.mark := by
    rw [Reader.marks, hr]
    rfl
  unfold Reader.tagName
  by_cases hkind : tok.kind = .name
  · have hbalance : tok.balance = 0 := by rw [Token.balance, hkind]
    rw [if_neg fun hne => hne hkind]
    by_cases hquote : tok.literal = "quote"
    · rw [if_pos hquote]
      exact Yields.pure (.quote hbalance hmarks)
    · rw [if_neg hquote]
      cases Tag.ofName? tok.literal with
      | none => exact complain_not_unclosed _ (by simp)
      | some t =>
        dsimp only
        split
        · exact complain_not_unclosed _ (by simp)
        · refine Yields.bind (mapStop_not_unclosed _ fun n _ => Yields.pure ?_)
          -- The node takes the bracket's place on the stack, with the same mark.
          show Turns r.marks tok after (.node opened :: List.map _ (r.bind name n).stack)
          rw [Reader.bind_stack, ← hmarks]
          exact .plain hbalance
  · rw [if_pos hkind]
    exact complain_not_unclosed _ (by simp)

theorem closeQuote_turns {start : Position} {q : Node} (hr : r.expect = .quoteEnd start name q) :
    StepsOn (r.closeQuote start name q tok) h fun r' => Turns r.marks tok after r'.marks := by
  have hmarks : r.marks = .quote :: r.stack.map OpenForm.mark := by
    rw [Reader.marks, hr]
    rfl
  unfold Reader.closeQuote
  by_cases hkind : tok.kind = .closeBracket
  · rw [if_neg fun hne => hne hkind]
    refine Yields.get_bind (Yields.bind (mapStop_not_unclosed _ ?_))
    intro n h'
    apply (deliver_marks (r.bind name n) n).imp
    intro r' _ hr'
    show Turns r.marks tok after r'.marks
    rw [hr', Reader.bind_stack]
    exact .close (m := .quote) hkind hmarks
  · rw [if_pos hkind]
    exact complain_not_unclosed _ (by simp)

/-- A node or block is closed. -/
theorem pop_turns {f : OpenForm} {outer : List OpenForm} (hr : r.expect = .form)
    (hstack : r.stack = f :: outer) (hkind : tok.kind = f.mark.closer) (n : Node) :
    StepsOn ({ r with stack := outer }.deliver n) h fun r' => Turns r.marks tok after r'.marks := by
  apply (deliver_marks { r with stack := outer } n).imp
  intro r' _ hr'
  have hmarks : r.marks = f.mark :: outer.map OpenForm.mark := by
    rw [Reader.marks, hr, hstack]
    rfl
  show Turns r.marks tok after r'.marks
  rw [hr']
  exact .close hkind hmarks

/-- One token turns the marks. -/
theorem step_turns (r : Reader) (tok : Token) (after : Position) (h : Heap) :
    StepsOn (r.step tok after) h fun r' => Turns r.marks tok after r'.marks := by
  unfold Reader.step
  -- One case for each thing that the reader can wait for.
  cases hexpect : r.expect with
  | named s => exact atom_turns hexpect
  | tagName opened name => exact tagName_turns hexpect
  | quoteEnd start name q => exact closeQuote_turns hexpect
  | form =>
    have hform : StepsOn (r.form tok after) h fun r' => Turns r.marks tok after r'.marks :=
      form_turns hexpect
    dsimp only
    split
    · -- The only thing that a node waits for besides forms is its bracket.
      rename_i opened tag n given outer hstack
      by_cases hkind : tok.kind = .closeBracket
      · rw [if_pos hkind]
        split
        · exact pop_turns hexpect hstack hkind n
        · exact complain_not_unclosed _ (by simp)
      · rw [if_neg hkind]
        exact hform
    · rename_i start b outer hstack
      by_cases hkind : tok.kind = .closeBrace
      · rw [if_pos hkind]
        exact pop_turns hexpect hstack hkind b
      · rw [if_neg hkind]
        exact hform
    · exact hform

end

/-! ### The marks of a run -/

/-- The marks are those of the brackets and braces that the first tokens `passed` of all
    `toks` leave open. -/
inductive Opened (toks : List Token) : List Token → List Mark → Prop where
  | nil {passed : List Token} : Matched passed → Opened toks passed []
  | cons {front back rest : List Token} {opener following : Token} {m : Mark}
    {outer : List Mark} : Opened toks front outer → toks = front ++ opener :: following :: rest →
    m.Of opener following.pos → Matched back → Opened toks (front ++ opener :: back) (m :: outer)

section

variable {toks passed rest : List Token} {tok following : Token} {marks marks' : List Mark}
  {m : Mark}

/-- More tokens that leave nothing open. -/
theorem Opened.append {mid : List Token} (ho : Opened toks passed marks)
    (hmid : ∀ back, Matched back → Matched (back ++ mid)) : Opened toks (passed ++ mid) marks := by
  cases ho with
  | nil hpassed => exact .nil (hmid _ hpassed)
  | cons houter htoks hof hback =>
    rw [List.append_assoc, List.cons_append]
    exact .cons houter htoks hof (hmid _ hback)

/-- The marks stay those of the tokens when one more of them is passed. -/
theorem Opened.turn (ho : Opened toks passed marks)
    (htoks : toks = passed ++ tok :: following :: rest)
    (ht : Turns marks tok following.pos marks') : Opened toks (passed ++ [tok]) marks' := by
  cases ht with
  | plain hbalance =>
    apply ho.append
    intro back hback
    exact hback.plain hbalance
  | quote hbalance hmarks =>
    -- The bracket is the same one, of which less is remembered now.
    subst hmarks
    cases ho with
    | cons houter htoks' hof hback =>
      rw [List.append_assoc, List.cons_append]
      exact .cons houter htoks' ⟨hof.1, trivial⟩ (hback.plain hbalance)
  | openBracket hkind => exact .cons ho htoks ⟨hkind, rfl⟩ .nil
  | openBrace hkind => exact .cons ho htoks ⟨hkind, rfl⟩ .nil
  | @close m outer hkind hmarks =>
    subst hmarks
    cases ho with
    | @cons front back rest' opener following' _ _ houter htoks' hof hback =>
      -- What was open and is closed now lies between the tokens before it.
      have hcloses : opener.kind.Closes tok.kind := by
        rw [hof.1, hkind]
        exact m.closes
      rw [List.append_assoc]
      apply houter.append
      intro before hbefore
      have hnest := Matched.nest hbefore hback hcloses
      simpa using hnest

/-- The text ends while a bracket or brace is open, and the error points at its mark. -/
def PointsAt (toks : List Token) (err : Stop ReadError) : Prop :=
  Unclosed err → ∃ e m outer last passed, err = .error e ∧ toks = passed ++ [last] ∧
    Opened toks passed (m :: outer) ∧
    (e.problem = .unclosedBracket ∧ m = .node e.pos ∨
      e.problem = .unclosedBrace ∧ m = .block e.pos)

theorem finish_points {r : Reader} {last : Token} {h : Heap} (htoks : toks = passed ++ [last])
    (ho : Opened toks passed r.marks) :
    Yields (r.finish last) h (fun _ _ => True) fun err _ => PointsAt toks err := by
  have hother : ∀ {x : ReadM Node}, Yields x h (fun _ _ => True) (fun err _ => ¬ Unclosed err) →
      Yields x h (fun _ _ => True) fun err _ => PointsAt toks err :=
    fun hx => hx.mono (fun _ _ => id) fun _ _ hne he => absurd he hne
  unfold Reader.finish
  cases hexpect : r.expect with
  | named s => exact hother (complain_not_unclosed _ (by simp))
  | tagName opened name => exact hother (complain_not_unclosed _ (by simp))
  | quoteEnd start name q => exact hother (complain_not_unclosed _ (by simp))
  | form =>
    -- Only what is open on the stack makes the error one of the two.
    cases hstack : r.stack with
    | nil =>
      match r.forms with
      | [] => exact hother (complain_not_unclosed _ (by simp))
      | [n] => exact Yields.pure trivial
      | _ :: _ :: _ => exact hother (lift_not_unclosed fun _ _ => trivial)
    | cons f outer =>
      rw [Reader.marks, hexpect, hstack] at ho
      cases f with
      | node opened tag n given =>
        apply Yields.of_error rfl
        intro _
        exact ⟨_, _, _, last, passed, rfl, htoks, ho, Or.inl ⟨rfl, rfl⟩⟩
      | block start b =>
        apply Yields.of_error rfl
        intro _
        exact ⟨_, _, _, last, passed, rfl, htoks, ho, Or.inr ⟨rfl, rfl⟩⟩
      | quote start name => exact hother (complain_not_unclosed _ (by simp))

/-- Wherever the reader is, the marks go on being those of the tokens up to the end. -/
theorem run_points (r : Reader) (rest : List Token) (last : Token) (h : Heap)
    (htoks : toks = passed ++ (rest ++ [last])) (ho : Opened toks passed r.marks) :
    Yields (r.run (rest ++ [last])) h (fun _ _ => True) fun err _ => PointsAt toks err := by
  induction rest generalizing r h passed with
  | nil => exact finish_points htoks ho
  | cons tok rest ih =>
    -- The token after this one may be the last one.
    obtain ⟨following, rest', hrest⟩ : ∃ following rest', rest ++ [last] = following :: rest' :=
      List.exists_cons_of_ne_nil (by simp)
    rw [List.cons_append, hrest] at htoks ⊢
    apply Yields.bind
    apply (step_turns r tok following.pos h).mono
    · intro r' h' ht
      have hpassed : toks = passed ++ [tok] ++ (rest ++ [last]) := by
        rw [htoks, hrest, List.append_assoc]
        rfl
      rw [← hrest]
      exact ih r' h' hpassed (ho.turn htoks ht)
    · intro err _ hne he
      exact absurd he hne

end

/-! ### The errors of a text -/

variable {text : List UInt8} {e : ReadError} {h h' : Heap}

/-- A token comes behind the one before it. -/
theorem offset_lt_following {front rest : List Token} {tok following : Token}
    (htokens : tokens text = front ++ tok :: following :: rest) :
    tok.pos.offset < following.pos.offset := by
  obtain ⟨k, hcovers⟩ := exists_covers text
  have hnth : ∀ i tok, (tokens text)[i]? = some tok → i < k + 1 ∧ nthToken text i = tok := by
    intro i tok hget
    rw [hcovers.tokens_eq] at hget
    obtain ⟨hi, htok⟩ := List.getElem?_eq_some_iff.1 hget
    rw [List.getElem_map, List.getElem_range] at htok
    exact ⟨by simpa using hi, htok⟩
  obtain ⟨-, htok⟩ := hnth front.length tok (by rw [htokens]; simp)
  obtain ⟨hlt, hfollowing⟩ := hnth (front.length + 1) following (by rw [htokens]; simp)
  rw [← htok, ← hfollowing]
  obtain ⟨hstop, hle⟩ := hcovers.inside front.length (by omega)
  exact Nat.lt_of_lt_of_le hstop (tokenStop_le_start (Nat.lt_succ_self _))

/-- What is open innermost where a text ends too early, and where that is reported: all
    brackets behind the opener are closed again, and the error points at a bracket itself, but
    at the token that comes after a brace. -/
theorem read_unclosed (hread : read text h = .error (.error e) h')
    (hproblem : e.problem = .unclosedBracket ∨ e.problem = .unclosedBrace) :
    ∃ front opener following rest back last, tokens text = front ++ opener :: (back ++ [last]) ∧
      Matched back ∧ back ++ [last] = following :: rest ∧
      (opener.kind = .openBracket ∧ e.problem = .unclosedBracket ∧ e.pos = opener.pos ∨
        opener.kind = .openBrace ∧ e.problem = .unclosedBrace ∧ e.pos = following.pos) := by
  obtain ⟨toks, last, hlast, -⟩ := (Cursor.start text).scan_last
  have hlast : tokens text = toks ++ [last] := hlast
  rw [read, hlast] at hread
  have hopened : Opened (toks ++ [last]) [] Reader.start.marks := .nil .nil
  have htoks : toks ++ [last] = [] ++ (toks ++ [last]) := rfl
  have hpoints := (run_points Reader.start toks last h htoks hopened).error hread
    ⟨e, rfl, hproblem⟩
  obtain ⟨e', m, outer, last', passed, he, hsplit, ho, hmark⟩ := hpoints
  cases he
  -- The last token is the one that the scanner ended with.
  obtain ⟨hsame, hlasts⟩ := List.append_inj' hsplit rfl
  subst hsame
  cases hlasts
  cases ho with
  | @cons front back rest opener following _ _ houter htoks hof hback =>
    have htail : back ++ [last] = following :: rest := by
      have hrest : front ++ (opener :: (back ++ [last]))
          = front ++ (opener :: following :: rest) := by
        rw [← htoks]
        simp
      exact (List.cons.inj (List.append_cancel_left hrest)).2
    refine ⟨front, opener, following, rest, back, last, ?_, hback, htail, ?_⟩
    · rw [hlast]
      simp
    · rcases hmark with ⟨hproblem, rfl⟩ | ⟨hproblem, rfl⟩
      · exact Or.inl ⟨hof.1, hproblem, hof.2⟩
      · exact Or.inr ⟨hof.1, hproblem, hof.2⟩

/-- An unclosed brace is always reported behind the innermost brace that is open. -/
theorem read_unclosed_brace (hread : read text h = .error (.error e) h')
    (hproblem : e.problem = .unclosedBrace) :
    ∃ front opener back last, tokens text = front ++ opener :: (back ++ [last]) ∧
      Matched back ∧ opener.kind = .openBrace ∧ opener.pos.offset < e.pos.offset := by
  obtain ⟨front, opener, following, rest, back, last, htokens, hback, htail, hmark⟩ :=
    read_unclosed hread (Or.inr hproblem)
  rcases hmark with ⟨-, hbracket, -⟩ | ⟨hkind, -, hpos⟩
  · rw [hproblem] at hbracket
    cases hbracket
  · refine ⟨front, opener, back, last, htokens, hback, hkind, ?_⟩
    rw [hpos]
    rw [htail] at htokens
    exact offset_lt_following htokens

/-- The brace is at offset 0, and the numeral after it is reported. -/
example : ((Image.create 64 1).toOption.any fun image =>
    (error? (read (Text.toBytes "\x7b1") image.heap)).any fun p =>
      p.1 = ⟨⟨1, 1, 2⟩, .unclosedBrace⟩) = true := by
  decide +kernel

end TreeMachine.Source
