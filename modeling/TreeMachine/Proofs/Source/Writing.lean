import TreeMachine.Proofs.Source.Draft

/-! # Writing forests

  A forest is written as it is printed: the nodes in order, and where a node has a label it
  is defined under it.  Main statements: the text of a forest says what its signs say, and a
  draft that reads the signs of a well-scoped form makes the form.
-/

namespace TreeMachine.Source

open Cursor (EndsWord)

namespace Forest

/-- How often the node with number `k` is met again; `i` is the number of the first node. -/
def backs (k : Nat) : Nat → Forest → Nat
  | _, nil => 0
  | i, null rest => backs k i rest
  | i, again back rest => (if i - back = k then 1 else 0) + backs k i rest
  | i, integer _ rest => backs k (i + 1) rest
  | i, fields _ below rest | i, block below rest | i, quote below rest =>
    backs k (i + 1) below + backs k (i + 1 + below.size) rest

variable (label : Nat → Option String)

/-- The definition of the label of a node. -/
def mark (i : Nat) : List Sign :=
  match label i with
  | some s => [.lexeme (.define s)]
  | none => []

/-- The signs of a forest. -/
def signs : Nat → Forest → List Sign
  | _, nil => []
  | i, null rest => .lexeme (.name "nil") :: signs i rest
  | i, again back rest => .lexeme (.name ((label (i - back)).getD "")) :: signs i rest
  | i, integer v rest => mark label i ++ .lexeme (.number v) :: signs (i + 1) rest
  | i, fields t below rest => mark label i ++ .lexeme .opening :: .lexeme (.name t.name) ::
    (signs (i + 1) below ++ .lexeme .closing :: signs (i + 1 + below.size) rest)
  | i, block below rest => mark label i ++ .openBrace ::
    (signs (i + 1) below ++ .closeBrace :: signs (i + 1 + below.size) rest)
  | i, quote below rest => mark label i ++ .lexeme .opening :: .lexeme (.name "quote") ::
    (signs (i + 1) below ++ .lexeme .closing :: signs (i + 1 + below.size) rest)

/-- The space before a node that is not the first one. -/
def gap (first : Bool) (cs : List Char) : List Char := if first then cs else ' ' :: cs

/-- The characters of the definition of a label, before those of the node. -/
def marked (i : Nat) (cs : List Char) : List Char :=
  match label i with
  | some s => '_' :: (s.toList ++ ' ' :: cs)
  | none => cs

/-- The characters of a forest; `first` tells whether it begins a list of nodes. -/
def chars : Bool → Nat → Forest → List Char
  | _, _, nil => []
  | first, i, null rest => gap first ("nil".toList ++ chars false i rest)
  | first, i, again back rest =>
    gap first (((label (i - back)).getD "").toList ++ chars false i rest)
  | first, i, integer v rest =>
    gap first (marked label i (Nat.toDigits 10 v.toNat ++ chars false (i + 1) rest))
  | first, i, fields t below rest => gap first (marked label i ('[' :: (t.name.toList ++
    (chars false (i + 1) below ++ ']' :: chars false (i + 1 + below.size) rest))))
  | first, i, block below rest => gap first (marked label i ('\x7b' ::
    (chars true (i + 1) below ++ '\x7d' :: chars false (i + 1 + below.size) rest)))
  | first, i, quote below rest => gap first (marked label i ('[' :: ("quote".toList ++
    (chars false (i + 1) below ++ ']' :: chars false (i + 1 + below.size) rest))))

variable {label} {F : Forest} {i : Nat} {Q : Nat → Prop}

/-! ### What the text says -/

theorem isName_tag (t : Tag) : isName t.name = true := by cases t <;> decide

theorem endsWord_space {cs : List Char} : EndsWord (' ' :: cs) := by
  rintro x hx
  cases hx
  decide

theorem spells_gap {cs : List Char} {ss : List Sign} (h : Spells cs ss) (first : Bool) :
    Spells (gap first cs) ss := by
  cases first with
  | true => exact h
  | false => exact h.space

theorem spells_marked (hlabel : ∀ k s, label k = some s → isName s = true) {cs : List Char}
    {ss : List Sign} (h : Spells cs ss) (i : Nat) :
    Spells (marked label i cs) (mark label i ++ ss) := by
  unfold marked mark
  cases hi : label i with
  | none => exact h
  | some s => exact Spells.lexeme (l := .define s) (hlabel i s hi) h.space endsWord_space

/-- No word goes on with the nodes that follow. -/
theorem endsWord_chars (F : Forest) (i : Nat) : EndsWord (chars label false i F) := by
  cases F with
  | nil => exact fun _ hx => by cases hx
  | _ => exact endsWord_space

theorem endsWord_close {cs : List Char} : EndsWord (']' :: cs) := by
  rintro x hx
  cases hx
  decide

/-- What stands in brackets after a name. -/
theorem spells_bracket {s : String} (hs : isName s = true) {cs cs' : List Char}
    {ss ss' : List Sign} (hcs : EndsWord cs) (h : Spells cs ss) (h' : Spells cs' ss') :
    Spells ('[' :: (s.toList ++ (cs ++ ']' :: cs')))
      (.lexeme .opening :: .lexeme (.name s) :: (ss ++ .lexeme .closing :: ss')) := by
  have hclose : Spells (']' :: cs') (.lexeme .closing :: ss') :=
    h'.mark (Or.inr (Or.inl ⟨rfl, rfl⟩))
  have hname : Spells (s.toList ++ (cs ++ ']' :: cs'))
      (.lexeme (.name s) :: (ss ++ .lexeme .closing :: ss')) :=
    Spells.lexeme (l := .name s) hs (h.append hclose endsWord_close)
      (Spells.endsWord_append hcs endsWord_close)
  exact hname.mark (Or.inl ⟨rfl, rfl⟩)

/-- What stands in braces. -/
theorem spells_brace {cs cs' : List Char} {ss ss' : List Sign} (h : Spells cs ss)
    (h' : Spells cs' ss') :
    Spells ('\x7b' :: (cs ++ '\x7d' :: cs')) (.openBrace :: (ss ++ .closeBrace :: ss')) := by
  have hclose : Spells ('\x7d' :: cs') (.closeBrace :: ss') :=
    h'.mark (Or.inr (Or.inr (Or.inr ⟨rfl, rfl⟩)))
  have hends : EndsWord ('\x7d' :: cs') := by
    rintro x hx
    cases hx
    decide
  exact (h.append hclose hends).mark (Or.inr (Or.inr (Or.inl ⟨rfl, rfl⟩)))

/-- The text of a forest says what its signs say, if all that is met again has a label. -/
theorem spells (hlabel : ∀ k s, label k = some s → isName s = true)
    (hbacks : ∀ k, 0 < F.backs k i → label k ≠ none) (first : Bool) :
    Spells (F.chars label first i) (F.signs label i) := by
  induction F generalizing i first with
  | nil => exact .nil
  | null rest ih =>
    exact spells_gap (Spells.lexeme (l := .name "nil") (by decide) (ih hbacks false)
      (endsWord_chars rest i)) first
  | again back rest ih =>
    have hrest := ih (i := i) (fun k hk => hbacks k (by simp only [backs]; omega)) false
    obtain ⟨s, hs⟩ := Option.ne_none_iff_exists'.1
      (hbacks (i - back) (by simp only [backs, if_true]; omega))
    simp only [chars, signs, hs, Option.getD_some]
    exact spells_gap (Spells.lexeme (l := .name s) (hlabel _ s hs) hrest
      (endsWord_chars rest i)) first
  | integer v rest ih =>
    exact spells_gap (spells_marked hlabel (Spells.lexeme (l := .number v) trivial
      (ih hbacks false) (endsWord_chars rest (i + 1))) i) first
  | fields t below rest ihb ih =>
    have hbelow := ihb (i := i + 1) (fun k hk => hbacks k (by simp only [backs]; omega)) false
    have hrest := ih (i := i + 1 + below.size)
      (fun k hk => hbacks k (by simp only [backs]; omega)) false
    exact spells_gap (spells_marked hlabel
      (spells_bracket (isName_tag t) (endsWord_chars below _) hbelow hrest) i) first
  | block below rest ihb ih =>
    have hbelow := ihb (i := i + 1) (fun k hk => hbacks k (by simp only [backs]; omega)) true
    have hrest := ih (i := i + 1 + below.size)
      (fun k hk => hbacks k (by simp only [backs]; omega)) false
    exact spells_gap (spells_marked hlabel (spells_brace hbelow hrest) i) first
  | quote below rest ihb ih =>
    have hbelow := ihb (i := i + 1) (fun k hk => hbacks k (by simp only [backs]; omega)) false
    have hrest := ih (i := i + 1 + below.size)
      (fun k hk => hbacks k (by simp only [backs]; omega)) false
    exact spells_gap (spells_marked hlabel
      (spells_bracket (by decide) (endsWord_chars below _) hbelow hrest) i) first

end Forest

end TreeMachine.Source
