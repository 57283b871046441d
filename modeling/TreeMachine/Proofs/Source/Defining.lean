import TreeMachine.Image
import TreeMachine.Proofs.Source.Extents
import TreeMachine.Proofs.Source.Nesting
import TreeMachine.Source.Printer

/-! # Defining names

  A name is bound as soon as its node exists, so that of a quote when the quote ends; and a
  definition is refused only if its name is bound.  Main statement: if a text is read and it
  defines a name twice, then the second definition stands inside the quote that the first one
  names.  Without quotes every name is defined once.
-/

namespace TreeMachine.Source

variable {h h' : Heap} {r r' : Reader} {tok d d' : Token} {x : String} {name : Option String}
  {n : Node} {toks front middle back : List Token} {top outer : List (Option String)}

/-! ### Names between two tokens -/

/-- The tokens begin a quote and do not come to its end. -/
def InsideQuote (toks : List Token) : Prop :=
  ∃ bracket tag inner, toks = bracket :: tag :: inner ∧ bracket.kind = .openBracket ∧
    tag.kind = .name ∧ tag.literal = "quote" ∧ ∀ pre, pre <+: inner → 0 ≤ balance pre

/-- What has become of a definition of `x` after the tokens `toks`. -/
inductive Defines (x : String) (toks : List Token) (r : Reader) : Prop where
  | bound : r.names.contains x = true → Defines x toks r
  /-- The form is still to come. -/
  | named : toks = [] → r.expect = .named x → Defines x toks r
  /-- The form is a bracket whose tag name is still to come. -/
  | tagName {opened : Position} {bracket : Token} : toks = [bracket] →
    bracket.kind = .openBracket → r.expect = .tagName opened (some x) → Defines x toks r
  /-- The form is a quote that is still open, and so are the brackets `top` in it. -/
  | quote {bracket tag : Token} {inner : List Token} {top outer : List (Option String)} :
    toks = bracket :: tag :: inner → bracket.kind = .openBracket → tag.kind = .name →
    tag.literal = "quote" → (∀ pre, pre <+: inner → 0 ≤ balance pre) →
    r.brackets = top ++ some x :: outer → balance inner = top.length → Defines x toks r

theorem contains_set (names : Dict String Node) (s : String) (n : Node) :
    (names.set s n).contains s = true := by
  rw [Dict.contains, Dict.get?_set_self]
  rfl

theorem contains_bind (hx : r.names.contains x = true) (name : Option String) (n : Node) :
    (r.bind name n).names.contains x = true := by
  cases name with
  | none => exact hx
  | some s =>
    show (r.names.set s n).contains x = true
    by_cases hs : x = s
    · rw [hs]
      exact contains_set ..
    · rw [Dict.contains, Dict.get?_set_ne _ _ hs]
      exact hx

/-- Names stay bound. -/
theorem Moves.contains (hm : Moves r tok r') (hx : r.names.contains x = true) :
    r'.names.contains x = true := by
  cases hm with
  | define _ _ _ hnames | openBracket _ _ hnames | quote _ _ _ hnames =>
    rw [hnames]
    exact hx
  | atom _ _ hnames | openBrace _ _ hnames | node _ _ _ hnames | close _ _ _ hnames =>
    rw [hnames]
    exact contains_bind hx _ _

/-- A bracket stays open, or it is closed and its name is bound. -/
theorem Moves.brackets (hm : Moves r tok r') (hopen : r.brackets = top ++ some x :: outer) :
    r'.names.contains x = true ∨ ∃ top', r'.brackets = top' ++ some x :: outer := by
  cases hm with
  | define _ _ _ _ hsame | atom _ _ _ hsame | node _ _ _ _ hsame =>
    rw [hsame]
    exact Or.inr ⟨top, hopen⟩
  | openBracket _ _ _ hmore | openBrace _ _ _ hmore =>
    rw [hmore, hopen]
    exact Or.inr ⟨none :: top, rfl⟩
  | @quote opened name _ _ hexpect _ hname =>
    rw [hname]
    rw [Reader.brackets, hexpect] at hopen ⊢
    -- The innermost bracket has no name yet, so it is another one.
    cases top with
    | nil => cases hopen
    | cons t top =>
      obtain ⟨-, hopen⟩ := List.cons.inj hopen
      exact Or.inr ⟨name :: top, congrArg _ hopen⟩
  | close _ hless _ hnames =>
    rw [hless] at hopen
    cases top with
    | nil =>
      obtain ⟨rfl, -⟩ := List.cons.inj hopen
      rw [hnames]
      exact Or.inl (contains_set ..)
    | cons t top => exact Or.inr ⟨top, (List.cons.inj hopen).2⟩

/-- A name that was to be given is given when its form begins, unless the form is a
    bracket. -/
theorem Moves.named (hm : Moves r tok r') (hr : r.expect = .named x) :
    Defines x [tok] r' := by
  have hname : ∀ {name}, r.Awaits name → name = some x := by
    intro name hawaits
    cases name with
    | none => exact absurd (hr.symm.trans hawaits) (by simp)
    | some s =>
      cases hr.symm.trans hawaits
      rfl
  cases hm with
  | define _ hawaits => exact absurd (hname hawaits) (by simp)
  | atom _ hawaits hnames | openBrace _ hawaits hnames =>
    cases hname hawaits
    refine .bound ?_
    rw [hnames]
    exact contains_set ..
  | openBracket hkind hawaits _ _ hexpect =>
    cases hname hawaits
    exact .tagName rfl hkind hexpect
  | quote _ _ hexpect | node _ _ hexpect => exact absurd (hr.symm.trans hexpect) (by simp)
  | close _ _ hpending =>
    rw [hr] at hpending
    cases hpending

/-- A name that was to be given to a bracket is given to a node, and not to a quote. -/
theorem Moves.tagName {opened : Position} {bracket : Token} (hm : Moves r tok r')
    (hbracket : bracket.kind = .openBracket) (hr : r.expect = .tagName opened (some x)) :
    Defines x [bracket, tok] r' := by
  have hother : ∀ {name}, ¬ r.Awaits name := by
    intro name hawaits
    cases name <;> exact absurd (hr.symm.trans hawaits) (by simp)
  cases hm with
  | define _ hawaits | atom _ hawaits | openBracket _ hawaits | openBrace _ hawaits =>
    exact absurd hawaits hother
  | quote hkind hliteral hexpect _ hopen =>
    cases hr.symm.trans hexpect
    have hquote : r'.brackets = [] ++ some x :: r.brackets.tail := hopen
    refine .quote rfl hbracket hkind hliteral ?_ hquote rfl
    intro pre hpre
    rw [List.prefix_nil.1 hpre]
    exact Int.le_refl 0
  | node _ _ hexpect hnames =>
    cases hr.symm.trans hexpect
    refine .bound ?_
    rw [hnames]
    exact contains_set ..
  | close _ _ hpending =>
    rw [hr] at hpending
    cases hpending

/-- One more token. -/
theorem Defines.step (hd : Defines x toks r) (hm : Moves r tok r') :
    Defines x (toks ++ [tok]) r' := by
  cases hd with
  | bound hx => exact .bound (hm.contains hx)
  | named htoks hr =>
    subst htoks
    exact hm.named hr
  | tagName htoks hbracket hr =>
    subst htoks
    exact hm.tagName hbracket hr
  | @quote bracket tag inner top outer htoks hbracket htag hquote hpre hopen hbalance =>
    subst htoks
    -- Either the bracket of the quote is closed now, or it stays open under the new ones.
    rcases hm.brackets hopen with hx | ⟨top', hopen'⟩
    · exact .bound hx
    · have hlength := hm.length_brackets
      rw [hopen, hopen', List.length_append, List.length_append] at hlength
      have hbalance' : balance (inner ++ [tok]) = top'.length := by
        rw [balance_append, hbalance, balance_cons, balance_nil]
        omega
      refine .quote rfl hbracket htag hquote ?_ hopen' hbalance'
      intro pre hprefix
      rcases List.prefix_concat_iff.1 hprefix with rfl | hprefix
      · rw [hbalance']
        exact Int.natCast_nonneg _
      · exact hpre pre hprefix

/-- A name is defined again only while its quote is open. -/
theorem Defines.insideQuote (hd : Defines tok.literal toks r) (hm : Moves r tok r')
    (hkind : tok.kind = .define) : InsideQuote toks := by
  cases hm with
  | define _ hawaits hnew =>
    have hexpect : r.expect = .form := hawaits
    cases hd with
    | bound hx => exact absurd (hnew.symm.trans hx) (by simp)
    | named _ hr => exact absurd (hr.symm.trans hexpect) (by simp)
    | tagName _ _ hr => exact absurd (hr.symm.trans hexpect) (by simp)
    | quote htoks hbracket htag hquote hpre =>
      exact ⟨_, _, _, htoks, hbracket, htag, hquote, hpre⟩
  | atom hother | close hother =>
    rw [hkind] at hother
    simp at hother
  | openBracket hother | openBrace hother | quote hother | node hother =>
    cases hkind.symm.trans hother

/-- A definition names the form that comes next. -/
theorem Moves.expects (hm : Moves r tok r') (hkind : tok.kind = .define) :
    r'.expect = .named tok.literal := by
  cases hm with
  | define _ _ _ _ _ hexpect => exact hexpect
  | atom hother | close hother =>
    rw [hkind] at hother
    simp at hother
  | openBracket hother | openBrace hother | quote hother | node hother =>
    cases hkind.symm.trans hother

/-! ### Runs -/

/-- A run that has an answer begins with a step. -/
theorem run_moves {last : Token} (hrun : r.run (tok :: toks ++ [last]) h = .ok n h') :
    ∃ r' h₁, Moves r tok r' ∧ r'.run (toks ++ [last]) h₁ = .ok n h' := by
  obtain ⟨after, hcons⟩ := r.run_cons tok (toks ++ [last]) (by simp)
  rw [List.cons_append, hcons] at hrun
  obtain ⟨r', h₁, hstep, hrest⟩ := of_bind_eq_ok hrun
  exact ⟨r', h₁, (step_moves r tok after h).ok hstep, hrest⟩

/-- After a definition of `x` tokens define it again only in its quote. -/
theorem Defines.run {last : Token} (hd : Defines d.literal toks r)
    (hrun : r.run (middle ++ d :: back ++ [last]) h = .ok n h') (hkind : d.kind = .define) :
    InsideQuote (toks ++ middle) := by
  -- Along the tokens up to the second definition, whatever becomes of the first one.
  induction middle generalizing toks r h with
  | nil =>
    obtain ⟨r', h₁, hm, -⟩ := run_moves hrun
    rw [List.append_nil]
    exact hd.insideQuote hm hkind
  | cons tok middle ih =>
    obtain ⟨r', h₁, hm, hrest⟩ := run_moves hrun
    rw [List.append_cons]
    exact ih (hd.step hm) hrest

/-- Where two tokens define one name, what lies between them is the first part of a quote. -/
theorem run_defines {last : Token}
    (hrun : r.run (front ++ d :: (middle ++ d' :: back) ++ [last]) h = .ok n h')
    (hd : d.kind = .define) (hd' : d'.kind = .define) (hname : d'.literal = d.literal) :
    InsideQuote middle := by
  induction front generalizing r h with
  | nil =>
    obtain ⟨r', h₁, hm, hrest⟩ := run_moves hrun
    have hdefines : Defines d'.literal [] r' := by
      rw [hname]
      exact .named rfl (hm.expects hd)
    exact hdefines.run hrest hd'
  | cons tok front ih =>
    obtain ⟨r', h₁, -, hrest⟩ := run_moves hrun
    exact ih hrest

/-- In a text that is read, a name is defined a second time only inside the quote that the
    first definition names. -/
theorem read_defines {text : List UInt8} (hread : read text h = .ok n h')
    (htokens : tokens text = front ++ d :: (middle ++ d' :: back)) (hd : d.kind = .define)
    (hd' : d'.kind = .define) (hname : d'.literal = d.literal) : InsideQuote middle := by
  obtain ⟨toks, last, hlast, hend⟩ := (Cursor.start text).scan_last
  have hsplit : front ++ d :: (middle ++ d' :: back) = toks ++ [last] := htokens.symm.trans hlast
  rw [read, htokens] at hread
  -- The end of the text is no definition, so it comes after the second one.
  rcases List.eq_nil_or_concat' back with rfl | ⟨back, tok, rfl⟩
  · have hsplit : front ++ d :: middle ++ [d'] = toks ++ [last] := by simpa using hsplit
    obtain ⟨-, hsame⟩ := List.append_inj' hsplit rfl
    cases hsame
    cases hend.symm.trans hd'
  · have hrun : Reader.start.run (front ++ d :: (middle ++ d' :: back) ++ [tok]) h = .ok n h' := by
      simpa using hread
    exact run_defines hrun hd hd' hname

/-- A text without quotes that is read defines no name twice. -/
theorem read_defines_once {text : List UInt8} (hread : read text h = .ok n h')
    (hquote : ∀ tok ∈ tokens text, tok.kind = .name → tok.literal ≠ "quote") :
    ((tokens text).filter (·.kind = .define)).Pairwise fun d d' => d.literal ≠ d'.literal := by
  rw [List.pairwise_filter, List.pairwise_iff_forall_sublist]
  intro d d' hsub hd hd' hname
  -- Two definitions of one name would have the name of a quote between them.
  obtain ⟨front, rest, htokens, hmem, hrest⟩ := List.cons_sublist_iff.1 hsub
  obtain ⟨front, middle₁, rfl⟩ := List.append_of_mem hmem
  obtain ⟨middle₂, back, rfl⟩ := List.append_of_mem (List.singleton_sublist.1 hrest)
  have hsplit : tokens text = front ++ d :: ((middle₁ ++ middle₂) ++ d' :: back) := by
    rw [htokens]
    simp
  obtain ⟨bracket, tag, inner, hmiddle, -, hkind, hliteral, -⟩ := read_defines hread hsplit
    (by simpa using hd) (by simpa using hd') hname.symm
  refine hquote tag ?_ hkind hliteral
  rw [hsplit, hmiddle]
  simp

/-- The quote is accepted although the form in it has the name that the quote is going to get. -/
example : ((Image.create 64 1).toOption.any fun image =>
    (answer? (read (Text.toBytes "_x [quote _x 1]") image.heap)).any fun p =>
      (print p.2 p.1).toOption = some "[quote 1]") = true := by
  decide +kernel

end TreeMachine.Source
