import TreeMachine.Proofs.Node.Closed
import TreeMachine.Proofs.Node.Inventory
import TreeMachine.Proofs.Source.Counting
import TreeMachine.Proofs.Source.Forms
import TreeMachine.Proofs.Source.Positions
import TreeMachine.Proofs.Types.History

/-! # Reading is safe

  Between two tokens the reader holds nodes that it has made itself, and these refer to each
  other and to nothing else.  Main statement: whatever the bytes of a text are, reading ends
  with a node, with an error inside the text or for want of memory.  It leaves alone what
  there was before, and the nodes that can be reached from the one that is read are sound
  records in words of their own.
-/

namespace TreeMachine

/-! ### Closed memories -/

namespace NodeMemory

/-- The memory has the node, under the tag. -/
def Tagged (M : NodeMemory) (n : Node) (t : Tag) : Prop := ∃ r, M n = some r ∧ r.tag = t

/-- The nodes of the memory refer to each other or to nothing. -/
def Closed (M : NodeMemory) : Prop := ∀ n r, M n = some r → ∀ m ∈ r.children, OrNull M.Tagged m

/-- Nodes keep their tags. -/
def Keeps (M M' : NodeMemory) : Prop := ∀ n t, M.Tagged n t → M'.Tagged n t

variable {M M' : NodeMemory} {n : Node} {r : Cell} {t : Tag}

theorem Keeps.orNull (hk : M.Keeps M') (hn : OrNull M.Tagged n) : OrNull M'.Tagged n := by
  cases hn with
  | inl h0 => exact Or.inl h0
  | inr hn =>
    obtain ⟨t, hn⟩ := hn
    exact Or.inr ⟨t, hk n t hn⟩

theorem tagged_update (M : NodeMemory) (n : Node) (r : Cell) :
    NodeMemory.Tagged (Function.update M n (some r)) n r.tag :=
  ⟨r, Function.update_self .., rfl⟩

/-- A node is made, or its cell is replaced by another with the same tag. -/
theorem Closed.update (hM : M.Closed) (htag : ∀ r', M n = some r' → r'.tag = r.tag)
    (hr : ∀ m ∈ r.children, OrNull M.Tagged m) :
    M.Keeps (Function.update M n (some r)) ∧
      NodeMemory.Closed (Function.update M n (some r)) := by
  have hkeeps : M.Keeps (Function.update M n (some r)) := by
    intro m t hm
    obtain ⟨r', hr', rfl⟩ := hm
    by_cases hmn : m = n
    · subst hmn
      rw [htag r' hr']
      exact tagged_update M m r
    · exact ⟨r', by rw [Function.update_of_ne hmn, hr'], rfl⟩
  refine ⟨hkeeps, ?_⟩
  intro m r' hm m' hm'
  apply hkeeps.orNull
  by_cases hmn : m = n
  · rw [hmn, Function.update_self] at hm
    cases hm
    exact hr m' hm'
  · rw [Function.update_of_ne hmn] at hm
    exact hM m r' hm m' hm'

/-- A node is made. -/
theorem Closed.new (hM : M.Closed) (hnone : M n = none)
    (hr : ∀ m ∈ r.children, OrNull M.Tagged m) :
    M.Keeps (Function.update M n (some r)) ∧
      NodeMemory.Closed (Function.update M n (some r)) := by
  apply hM.update _ hr
  intro r' hr'
  rw [hnone] at hr'
  cases hr'

/-- Only a node with fields has the tag of one. -/
theorem Tagged.fields (hn : M.Tagged n t) (ht : t ≠ .literal ∧ t ≠ .block) :
    ∃ ms, M n = some (.fields t ms) := by
  obtain ⟨r, hr, rfl⟩ := hn
  cases r with
  | integer | quote => exact absurd rfl ht.1
  | block => exact absurd rfl ht.2
  | fields t ms => exact ⟨ms, hr⟩

end NodeMemory

/-- Only a block has the tag of one. -/
theorem Heap.Populated.elements {h₀ h : Heap} {M : NodeMemory} {n : Node}
    (hp : h₀.Populated h M) (hn : M.Tagged n .block) : ∃ elems, M n = some (.block elems) := by
  obtain ⟨r, hr, htag⟩ := hn
  cases r with
  | integer | quote => cases htag
  | block elems => exact ⟨elems, hr⟩
  | fields t ms =>
    obtain ⟨x, hl⟩ := hp.laid hr
    exact absurd htag hl.of_fields.2.2.2

namespace Source

variable {h₀ h h' : Heap} {c : Catalogue} {M M' : NodeMemory} {r : Reader} {f : OpenForm}
  {e : Expect} {n m : Node} {len k : Nat} {pos after : Position} {name : Option String}
  {tok : Token}

/-! ### States of the reader -/

/-- The form has begun inside a text of `len` bytes, and its node is one of the memory. -/
def OpenForm.Within (len : Nat) (M : NodeMemory) : OpenForm → Prop
  | .node opened t n _ => opened.offset ≤ len ∧ (t ≠ .literal ∧ t ≠ .block) ∧ M.Tagged n t
  | .quote start _ => start.offset ≤ len
  | .block start b => start.offset ≤ len ∧ M.Tagged b .block

/-- What is expected belongs to a form that has begun inside the text. -/
def Expect.Within (len : Nat) (M : NodeMemory) : Expect → Prop
  | .form | .named _ => True
  | .tagName opened _ => opened.offset ≤ len
  | .quoteEnd start _ q => start.offset ≤ len ∧ OrNull M.Tagged q

/-- The reader holds nodes of the memory and positions inside the text, and at most `k` forms
    are complete. -/
structure Reader.Within (len k : Nat) (M : NodeMemory) (r : Reader) : Prop where
  names : ∀ s n, r.names.get? s = some n → OrNull M.Tagged n
  stack : ∀ f ∈ r.stack, f.Within len M
  expect : r.expect.Within len M
  forms : ∀ n ∈ r.forms, OrNull M.Tagged n
  count : r.forms.length ≤ k

/-- The reader holds nodes that it has made since `h₀`. -/
def Proceeds (h₀ : Heap) (len k : Nat) (r : Reader) (h : Heap) : Prop :=
  ∃ M, h₀.Populated h M ∧ M.Closed ∧ r.Within len k M

/-- Reading stops inside the text or for want of memory, and what there was in `h₀` stays. -/
def Stops (h₀ : Heap) (len : Nat) (err : Stop ReadError) (h : Heap) : Prop :=
  h₀.Fills h 0 ∧ ((∃ e, err = .error e ∧ e.pos.offset ≤ len) ∨ Heap.Starved err h)

theorem Stops.of_spent {err : Stop ReadError} (hf : ∃ f, err = .fault f ∧ Heap.Spent h₀ f h) :
    Stops h₀ len err h := by
  obtain ⟨f, rfl, hex, hfills⟩ := hf
  exact ⟨hfills, Or.inr ⟨f, rfl, hex⟩⟩

/-- A problem is reported where a token or an open form begins. -/
theorem complain_stops {α : Type} {Q : α → Heap → Prop} (hp : h₀.Populated h M)
    (hpos : pos.offset ≤ len) (problem : Problem) :
    Yields (complain pos problem) h Q (Stops h₀ len) :=
  Yields.of_error rfl ⟨hp.fills, Or.inl ⟨_, rfl, hpos⟩⟩

theorem OpenForm.Within.mono (hf : f.Within len M) (hk : M.Keeps M') : f.Within len M' := by
  cases f with
  | node => exact ⟨hf.1, hf.2.1, hk _ _ hf.2.2⟩
  | quote => exact hf
  | block => exact ⟨hf.1, hk _ _ hf.2⟩

theorem Expect.Within.mono (he : e.Within len M) (hk : M.Keeps M') : e.Within len M' := by
  cases e with
  | form | named => trivial
  | tagName => exact he
  | quoteEnd => exact ⟨he.1, hk.orNull he.2⟩

namespace Reader.Within

theorem start : Reader.start.Within len 0 M where
  names _ _ hs := by cases hs
  stack _ hf := absurd hf List.not_mem_nil
  expect := trivial
  forms _ hn := absurd hn List.not_mem_nil
  count := Nat.le_refl 0

theorem mono (hr : r.Within len k M) (hk : M.Keeps M') : r.Within len k M' where
  names s n hs := hk.orNull (hr.names s n hs)
  stack f hf := (hr.stack f hf).mono hk
  expect := hr.expect.mono hk
  forms n hn := hk.orNull (hr.forms n hn)
  count := hr.count

theorem more (hr : r.Within len k M) : r.Within len (k + 1) M :=
  ⟨hr.names, hr.stack, hr.expect, hr.forms, Nat.le_succ_of_le hr.count⟩

theorem expecting (hr : r.Within len k M) (he : e.Within len M) :
    { r with expect := e }.Within len k M :=
  ⟨hr.names, hr.stack, he, hr.forms, hr.count⟩

theorem bind (hr : r.Within len k M) (hn : OrNull M.Tagged n) (name : Option String) :
    (r.bind name n).Within len k M := by
  cases name with
  | none => exact hr
  | some s =>
    refine ⟨?_, hr.stack, hr.expect, hr.forms, hr.count⟩
    intro s' m hs
    change (r.names.set s n).get? s' = some m at hs
    by_cases hss : s' = s
    · rw [hss, Dict.get?_set_self] at hs
      cases hs
      exact hn
    · rw [Dict.get?_set_ne _ _ hss] at hs
      exact hr.names s' m hs

/-- A form begins. -/
theorem push (hr : r.Within len k M) (hf : f.Within len M) :
    { r with expect := .form, stack := f :: r.stack }.Within len k M := by
  refine ⟨hr.names, ?_, trivial, hr.forms, hr.count⟩
  intro f' hf'
  cases List.mem_cons.1 hf' with
  | inl heq => exact heq ▸ hf
  | inr hf' => exact hr.stack f' hf'

/-- The innermost form ends. -/
theorem pop {names : Dict String Node} {outer : List OpenForm} {forms : List Node}
    (hr : Reader.Within len k M ⟨names, f :: outer, e, forms⟩) :
    Reader.Within len k M ⟨names, outer, e, forms⟩ :=
  ⟨hr.names, fun f' hf' => hr.stack f' (List.mem_cons_of_mem f hf'), hr.expect, hr.forms, hr.count⟩

/-- The innermost form goes on. -/
theorem replace {names : Dict String Node} {f' : OpenForm} {outer : List OpenForm}
    {forms : List Node} (hr : Reader.Within len k M ⟨names, f :: outer, e, forms⟩)
    (hf' : f'.Within len M) : Reader.Within len k M ⟨names, f' :: outer, .form, forms⟩ :=
  hr.pop.push hf'

/-! ### Steps -/

/-- A complete form is handed to what is around it. -/
theorem deliver (hr : r.Within len k M) (hp : h₀.Populated h M) (hM : M.Closed)
    (hn : OrNull M.Tagged n) :
    Yields (r.deliver n) h (Proceeds h₀ len (k + 1)) (Stops h₀ len) := by
  obtain ⟨names, stack, e, forms⟩ := r
  cases stack with
  | nil =>
    refine Yields.pure ⟨M, hp, hM, hr.names, hr.stack, trivial, ?_, Nat.succ_le_succ hr.count⟩
    intro m hm
    cases List.mem_cons.1 hm with
    | inl heq => exact heq ▸ hn
    | inr hm => exact hr.forms m hm
  | cons f outer =>
    have hf := hr.stack f List.mem_cons_self
    unfold Reader.deliver
    cases f with
    | quote start name =>
      exact Yields.pure ⟨M, hp, hM, hr.pop.more.expecting ⟨hf, hn⟩⟩
    | node opened t m given =>
      obtain ⟨hopened, ht, hm⟩ := hf
      dsimp only
      by_cases hlt : given < t.fields
      · obtain ⟨ms, hms⟩ := hm.fields ht
        obtain ⟨h', hpatch, hp'⟩ := hp.patch hms hlt n
        have hchildren : ∀ m' ∈ (Cell.fields t (ms.set given n)).children, OrNull M.Tagged m' := by
          intro m' hm'
          cases List.mem_or_eq_of_mem_set hm' with
          | inl hold => exact hM m _ hms m' hold
          | inr heq => exact heq ▸ hn
        obtain ⟨hkeeps, hM'⟩ := hM.update (r := .fields t (ms.set given n))
          (fun r' hr' => by cases hms.symm.trans hr'; rfl) hchildren
        rw [if_pos hlt]
        refine Yields.bind_ok (lift_eq_ok hpatch) (Yields.pure ⟨_, hp', hM', ?_⟩)
        exact (hr.more.mono hkeeps).replace ⟨hopened, ht, hkeeps _ _ hm⟩
      · -- There is no field for the form, so it is only counted.
        rw [if_neg hlt]
        exact Yields.pure ⟨M, hp, hM, hr.more.replace ⟨hopened, ht, hm⟩⟩
    | block start b =>
      obtain ⟨elems, helems⟩ := hp.elements hf.2
      have hchildren : ∀ m ∈ (Cell.block (elems ++ [n])).children, OrNull M.Tagged m := by
        intro m hm
        cases List.mem_append.1 hm with
        | inl hold => exact hM b _ helems m hold
        | inr hnew => exact List.mem_singleton.1 hnew ▸ hn
      obtain ⟨hkeeps, hM'⟩ := hM.update (r := .block (elems ++ [n]))
        (fun r' hr' => by cases helems.symm.trans hr'; rfl) hchildren
      refine Yields.bind ((Heap.yields_lift (hp.append helems n)).mono ?_ fun _ _ => Stops.of_spent)
      intro _ h' hp'
      exact Yields.pure ⟨_, hp', hM', (hr.more.mono hkeeps).expecting trivial⟩

/-- A node that has been made is bound to its name and handed over. -/
theorem deliver_new {x : Cell} (hr : r.Within len k M) (hM : M.Closed) (hnone : M n = none)
    (hx : ∀ m ∈ x.children, OrNull M.Tagged m)
    (hp : h₀.Populated h (Function.update M n (some x))) (name : Option String) :
    Yields ((r.bind name n).deliver n) h (Proceeds h₀ len (k + 1)) (Stops h₀ len) := by
  obtain ⟨hkeeps, hM'⟩ := hM.new hnone hx
  have hn : OrNull (NodeMemory.Tagged (Function.update M n (some x))) n :=
    Or.inr ⟨_, NodeMemory.tagged_update M n x⟩
  exact ((hr.mono hkeeps).bind hn name).deliver hp hM' hn

/-- A form begins with a node that has been made. -/
theorem push_new {x : Cell} (hr : r.Within len k M) (hM : M.Closed) (hnone : M n = none)
    (hx : ∀ m ∈ x.children, OrNull M.Tagged m)
    (hp : h₀.Populated h (Function.update M n (some x))) (name : Option String)
    (hf : ∀ {M' : NodeMemory}, M'.Tagged n x.tag → f.Within len M') :
    Proceeds h₀ len (k + 1)
      { r.bind name n with expect := .form, stack := f :: (r.bind name n).stack } h := by
  obtain ⟨hkeeps, hM'⟩ := hM.new hnone hx
  have hn := NodeMemory.tagged_update M n x
  exact ⟨_, hp, hM', ((hr.more.mono hkeeps).bind (Or.inr ⟨_, hn⟩) name).push (hf hn)⟩

/-- The first token of a form. -/
theorem atom (hr : r.Within len k M) (hp : h₀.Populated h M) (hM : M.Closed) (hs : h₀.Standard c)
    (hpos : tok.pos.offset ≤ len) (hafter : after.offset ≤ len) :
    Yields (r.atom name tok after) h (Proceeds h₀ len (k + 1)) (Stops h₀ len) := by
  obtain ⟨kind, literal, pos⟩ := tok
  unfold Reader.atom
  dsimp only
  cases kind with
  | integer =>
    dsimp only
    cases Text.readNumeral literal with
    | error e => exact complain_stops hp hpos _
    | ok v =>
      refine Yields.bind ((Heap.yields_lift (hp.newInteger hs v)).mono ?_ fun _ _ => Stops.of_spent)
      intro n h' hnew
      obtain ⟨hnone, -, hp'⟩ := hnew
      exact hr.deliver_new hM hnone (fun m hm => absurd hm List.not_mem_nil) hp' name
  | name =>
    dsimp only
    by_cases hnil : literal = "nil"
    · rw [if_pos hnil]
      cases name with
      | some s => exact complain_stops hp hpos _
      | none => exact hr.deliver hp hM (Or.inl rfl)
    · rw [if_neg hnil]
      cases hget : r.names.get? literal with
      | none => exact complain_stops hp hpos _
      | some n =>
        have hn := hr.names literal n hget
        exact (hr.bind hn name).deliver hp hM hn
  | openBracket => exact Yields.pure ⟨M, hp, hM, hr.more.expecting hpos⟩
  | openBrace =>
    have hnew := hp.newBlock (show ([] : List Node).length + 2 < 2 ^ 64 by simp)
    refine Yields.bind ((Heap.yields_lift hnew).mono ?_ fun _ _ => Stops.of_spent)
    intro n h' hnew
    obtain ⟨hnone, -, hp'⟩ := hnew
    exact Yields.pure (hr.push_new hM hnone (fun m hm => absurd hm List.not_mem_nil) hp' name
      fun hn => ⟨hafter, hn⟩)
  | invalid | closeBracket | closeBrace | define | endOfText => exact complain_stops hp hpos _

/-- The tag name after a bracket. -/
theorem tagName {opened : Position} (hr : r.Within len k M) (hp : h₀.Populated h M)
    (hM : M.Closed) (hopened : opened.offset ≤ len) (hpos : tok.pos.offset ≤ len)
    (hafter : after.offset ≤ len) :
    Yields (r.tagName opened name tok after) h (Proceeds h₀ len (k + 1)) (Stops h₀ len) := by
  unfold Reader.tagName
  by_cases hkind : tok.kind = .name
  · rw [if_neg fun hne => hne hkind]
    by_cases hquote : tok.literal = "quote"
    · rw [if_pos hquote]
      exact Yields.pure ⟨M, hp, hM, hr.more.push hafter⟩
    · rw [if_neg hquote]
      cases Tag.ofName? tok.literal with
      | none => exact complain_stops hp hpos _
      | some t =>
        dsimp only
        by_cases ht : t = .literal ∨ t = .block
        · rw [if_pos ht]
          exact complain_stops hp hpos _
        · rw [if_neg ht]
          rw [not_or] at ht
          refine Yields.bind ((Heap.yields_mapStop (hp.newNode ht)).mono ?_
            fun _ _ => Stops.of_spent)
          intro n h' hnew
          obtain ⟨hnone, -, hp'⟩ := hnew
          -- The fields are null until their forms have been read.
          have hnull : ∀ m ∈ (Cell.fields t (List.replicate t.fields 0)).children,
              OrNull M.Tagged m := by
            intro m hm
            exact Or.inl (List.eq_of_mem_replicate hm)
          exact Yields.pure (hr.push_new hM hnone hnull hp' name fun hn => ⟨hopened, ht, hn⟩)
  · rw [if_pos hkind]
    exact complain_stops hp hpos _

/-- The end of a quote. -/
theorem closeQuote {start : Position} {q : Node} (hr : r.Within len k M) (hp : h₀.Populated h M)
    (hM : M.Closed) (hs : h₀.Standard c) (hstart : start.offset ≤ len)
    (hq : OrNull M.Tagged q) :
    Yields (r.closeQuote start name q tok) h (Proceeds h₀ len (k + 1)) (Stops h₀ len) := by
  unfold Reader.closeQuote
  by_cases hkind : tok.kind = .closeBracket
  · rw [if_neg fun hne => hne hkind]
    refine Yields.get_bind (Yields.bind ((Heap.yields_mapStop (hp.newQuote hs q)).mono ?_
      fun _ _ => Stops.of_spent))
    intro n h' hnew
    obtain ⟨hnone, -, hp'⟩ := hnew
    have hquoted : ∀ m ∈ (Cell.quote q).children, OrNull M.Tagged m := by
      intro m hm
      rw [List.mem_singleton.1 hm]
      exact hq
    exact hr.deliver_new hM hnone hquoted hp' name
  · rw [if_pos hkind]
    exact complain_stops hp hstart _

/-- The start of a form. -/
theorem form (hr : r.Within len k M) (hp : h₀.Populated h M) (hM : M.Closed) (hs : h₀.Standard c)
    (hpos : tok.pos.offset ≤ len) (hafter : after.offset ≤ len) :
    Yields (r.form tok after) h (Proceeds h₀ len (k + 1)) (Stops h₀ len) := by
  unfold Reader.form
  by_cases hkind : tok.kind = .define
  · rw [if_pos hkind]
    by_cases hdefined : r.names.contains tok.literal = true
    · rw [if_pos hdefined]
      exact complain_stops hp hpos _
    · rw [if_neg hdefined]
      exact Yields.pure ⟨M, hp, hM, hr.more.expecting trivial⟩
  · rw [if_neg hkind]
    exact hr.atom hp hM hs hpos hafter

/-- One token. -/
theorem step (hr : r.Within len k M) (hp : h₀.Populated h M) (hM : M.Closed) (hs : h₀.Standard c)
    (hpos : tok.pos.offset ≤ len) (hafter : after.offset ≤ len) :
    Yields (r.step tok after) h (Proceeds h₀ len (k + 1)) (Stops h₀ len) := by
  have hform := hr.form hp hM hs hpos hafter
  have hexpect := hr.expect
  obtain ⟨names, stack, e, forms⟩ := r
  cases e with
  | named s => exact hr.atom hp hM hs hpos hafter
  | tagName opened name => exact hr.tagName hp hM hexpect hpos hafter
  | quoteEnd start name q => exact hr.closeQuote hp hM hs hexpect.1 hexpect.2
  | form =>
    cases stack with
    | nil => exact hform
    | cons f outer =>
      have hf := hr.stack f List.mem_cons_self
      cases f with
      | quote => exact hform
      | node opened t n given =>
        obtain ⟨hopened, ht, hn⟩ := hf
        unfold Reader.step
        dsimp only
        split
        · split
          · exact hr.pop.deliver hp hM (Or.inr ⟨t, hn⟩)
          · exact complain_stops hp hopened _
        · exact hform
      | block start b =>
        unfold Reader.step
        dsimp only
        split
        · exact hr.pop.deliver hp hM (Or.inr ⟨_, hf.2⟩)
        · exact hform

/-! ### Runs -/

/-- The end of the text.  All forms fit into a block, since there are no more of them than
    bytes. -/
theorem finish (hr : r.Within len k M) (hp : h₀.Populated h M) (hM : M.Closed)
    (hpos : tok.pos.offset ≤ len) (hfits : k + 2 < 2 ^ 64) :
    Yields (r.finish tok) h
      (fun n h' => ∃ M, h₀.Populated h' M ∧ M.Closed ∧ OrNull M.Tagged n) (Stops h₀ len) := by
  have hexpect := hr.expect
  obtain ⟨names, stack, e, forms⟩ := r
  cases e with
  | named | tagName => exact complain_stops hp hpos _
  | quoteEnd => exact complain_stops hp hexpect.1 _
  | form =>
    cases stack with
    | cons f outer =>
      have hf := hr.stack f List.mem_cons_self
      cases f with
      | node | block => exact complain_stops hp hf.1 _
      | quote => exact complain_stops hp hpos _
    | nil =>
      have hforms := hr.forms
      have hcount := hr.count
      match forms with
      | [] => exact complain_stops hp hpos _
      | [n] => exact Yields.pure ⟨M, hp, hM, hforms n List.mem_cons_self⟩
      | n :: n' :: forms =>
        have hlen : (n :: n' :: forms).reverse.length + 2 < 2 ^ 64 := by
          rw [List.length_reverse]
          dsimp only at hcount
          omega
        refine (Heap.yields_lift (hp.newBlock hlen)).mono ?_ fun _ _ => Stops.of_spent
        intro b h' hnew
        obtain ⟨hnone, -, hp'⟩ := hnew
        have helems : ∀ m ∈ (Cell.block (n :: n' :: forms).reverse).children,
            OrNull M.Tagged m := by
          intro m hm
          exact hforms m (List.mem_reverse.1 hm)
        obtain ⟨-, hM'⟩ := hM.new hnone helems
        exact ⟨_, hp', hM', Or.inr ⟨_, NodeMemory.tagged_update M b _⟩⟩

/-- The remaining tokens, each of which completes one form at most. -/
theorem run {toks : List Token} (hr : r.Within len k M) (hp : h₀.Populated h M) (hM : M.Closed)
    (hs : h₀.Standard c) (hpos : ∀ tok ∈ toks, tok.pos.offset ≤ len)
    (hfits : k + toks.length + 1 < 2 ^ 64) :
    Yields (r.run toks) h
      (fun n h' => ∃ M, h₀.Populated h' M ∧ M.Closed ∧ OrNull M.Tagged n) (Stops h₀ len) := by
  induction toks generalizing r k M h with
  | nil => exact complain_stops hp (Nat.zero_le _) _
  | cons tok toks ih =>
    have htok := hpos tok List.mem_cons_self
    rw [List.length_cons] at hfits
    cases toks with
    | nil => exact hr.finish hp hM htok (by simpa using hfits)
    | cons following rest =>
      have hrest : ∀ tok ∈ following :: rest, tok.pos.offset ≤ len :=
        fun tok htok => hpos tok (List.mem_cons_of_mem _ htok)
      apply Yields.bind ((hr.step hp hM hs htok (hrest following List.mem_cons_self)).imp ?_)
      intro r' h' hgoes
      obtain ⟨M', hp', hM', hr'⟩ := hgoes
      exact ih hr' hp' hM' hrest (by omega)

end Reader.Within

/-! ### What has been read -/

/-- The nodes that can be reached from a node through fields, elements and quotes, with the
    node itself. -/
inductive Reaches (h : Heap) (n : Node) : Node → Prop
  | root : n ≠ 0 → Reaches h n n
  | child {m m' : Node} {ms : List Node} : Reaches h n m → children h m = .ok ms → m' ∈ ms →
    m' ≠ 0 → Reaches h n m'

/-- All that can be reached is in the memory. -/
theorem Reaches.tagged (hm : Reaches h n m) (hp : h₀.Populated h M) (hM : M.Closed)
    (hs : h₀.Standard c) (hn : OrNull M.Tagged n) : ∃ t, M.Tagged m t := by
  induction hm with
  | root hne => exact hn.resolve_left hne
  | child _ hchildren hm' hne ih =>
    obtain ⟨t, r, hr, -⟩ := ih
    obtain ⟨x, hl⟩ := hp.laid hr
    -- What is read off the node are the children of its cell.
    rw [children_laid (hp.fills.standard hs) hl] at hchildren
    cases hchildren
    exact (hM _ r hr _ hm').resolve_left hne

end Source

namespace Heap

variable {h₀ h h' : Heap} {c : Catalogue} {M : NodeMemory} {n m : Node} {r : Cell}

/-- What was allocated stays as it is, and so do the types. -/
structure Untouched (h h' : Heap) : Prop where
  types : h'.types = h.types
  taken : ∀ i, ¬ h.arena.Free i → ¬ h'.arena.Free i
  words : ∀ i, ¬ h.arena.Free i → h'.arena.words[i]? = h.arena.words[i]?

theorem Fills.untouched {k : Nat} (hf : h.Fills h' k) : h.Untouched h' where
  types := hf.types
  taken i hi hfree := hi (hf.grows.free_sub i hfree)
  words := hf.grows.same

/-- The node is a sound record that has been made since `h₀`. -/
structure MadeSince (h₀ h : Heap) (n : Node) : Prop where
  /-- It has a tag with as many fields as the tag takes, and no node before it. -/
  record : ∃ t ms, h.tag n = .ok t ∧ h.preceding n = .ok 0 ∧ ms.length = t.fields ∧
    h.arena.Owns n (t.word :: 0 :: ms)
  /-- A literal is an integer or holds a node. -/
  literal : h.tag n = .ok .literal → ∃ t object w, h.literalValue n = .ok (t, object) ∧
    (t = h.types.scalars.integer ∨ t = h.types.scalars.ast) ∧ h.literalWords n = .ok [w]
  /-- A block that is not empty has a vector in its regions. -/
  block : h.tag n = .ok .block → ∃ elems rs, h.elements n = .ok elems ∧ h.regions n = .ok rs ∧
    h.VectorIn n elems rs
  children : ∃ ms, Source.children h n = .ok ms
  /-- Its words were free in `h₀`, and its regions share none. -/
  regions : ∃ rs, h.regions n = .ok rs ∧ rs.Pairwise Region.Apart ∧
    ∀ r ∈ rs, ∀ i, r.Has i → h₀.arena.Free i ∧ ¬ h.arena.Free i

/-- The value of a literal that the reader makes is one word. -/
theorem Standard.cell_fits (hs : h.Standard c) (r : Cell) : (r.entry h.types.scalars).Fits h := by
  cases r with
  | integer v =>
    exact ⟨hs.isType_iff.2 (knows_of_mem hs.integer), (hs.size_integers (w := 1) rfl).1⟩
  | quote q =>
    exact ⟨hs.isType_iff.2 (knows_of_mem hs.ast), hs.size_member hs.ast fun _ hms => by cases hms⟩
  | fields | block => trivial

namespace Populated

theorem fits (hp : h₀.Populated h M) (hs : h₀.Standard c) (r : Cell) :
    (r.entry h₀.types.scalars).Fits h := by
  have hfits := (hp.fills.standard hs).cell_fits r
  rwa [hp.fills.types] at hfits

/-- Every node of the memory is a sound record. -/
theorem madeSince (hp : h₀.Populated h M) (hs : h₀.Standard c) (hn : M n = some r) :
    h₀.MadeSince h n := by
  have hsized := hp.fills.sound.sized
  have hstd := hp.fills.standard hs
  obtain ⟨x, hl⟩ := hp.laid hn
  have hspread := laid_iff_spread.1 hl
  obtain ⟨htag, hbefore, hreads⟩ := hspread.reads hsized (hstd.cell_fits r)
  obtain ⟨rs, hrs, hapart, hnew⟩ := hp.stocked.regions (entry hn _) (hp.fits hs r)
  refine ⟨?_, ?_, ?_, ⟨_, Source.children_laid hstd hl⟩, rs, hrs, hapart, hnew⟩
  · cases hl with
    | integer hr | quote hr | empty hr | block hr => exact ⟨_, _, htag, hbefore, rfl, hr⟩
    | fields hr hlen => exact ⟨_, _, htag, hbefore, hlen, hr⟩
  · intro hliteral
    cases r with
    | integer v =>
      obtain ⟨⟨object, hvalue⟩, hwords⟩ := hreads
      exact ⟨_, object, v, hvalue, Or.inl rfl, hwords⟩
    | quote q =>
      obtain ⟨⟨object, hvalue⟩, hwords⟩ := hreads
      exact ⟨_, object, q, hvalue, Or.inr rfl, hwords⟩
    | fields t ms =>
      cases htag.symm.trans hliteral
      exact absurd rfl hl.of_fields.2.2.1
    | block => cases htag.symm.trans hliteral
  · intro hblock
    cases r with
    | integer | quote => cases htag.symm.trans hblock
    | fields t ms =>
      cases htag.symm.trans hblock
      exact absurd rfl hl.of_fields.2.2.2
    | block elems => exact ⟨elems, rs, hreads, hrs, hspread.vectorIn hsized hrs⟩

end Populated

end Heap

namespace Source

variable {h : Heap} {c : Catalogue}

/-- Whatever the bytes of a text are, as long as a word can count them, reading it ends with a
    node, with an error inside the text or for want of memory.  Nothing that was there before
    changes, and the nodes that can be reached from the one that is read are sound records,
    each in words of its own. -/
theorem read_safe (hs : h.Standard c) (hidle : h.arena.collecting = false) {text : List UInt8}
    (hlen : text.length + 2 < 2 ^ 64) :
    Yields (read text) h
      (fun n h' => h.Untouched h' ∧ ∀ m, Reaches h' n m → h.MadeSince h' m ∧
        ∀ m', Reaches h' n m' → m ≠ m' → ∀ rs rs', h'.regions m = .ok rs →
          h'.regions m' = .ok rs' → ∀ r ∈ rs, ∀ r' ∈ rs', r.Apart r')
      (fun err h' => h.Untouched h' ∧
        ((∃ e, err = .error e ∧ e.pos.offset ≤ text.length) ∨
          ∃ f, err = .fault f ∧ Exhausted f h'.arena)) := by
  have hclosed : NodeMemory.Closed fun _ => none := fun n r hn => by cases hn
  have hcount := length_tokens_le text
  have hrun := Reader.Within.start.run (.start hs.sound hidle) hclosed hs (tokens_within text)
    (by omega)
  refine hrun.mono ?_ ?_
  · rintro n h' ⟨M, hp, hM, hn⟩
    refine ⟨hp.fills.untouched, ?_⟩
    intro m hm
    obtain ⟨-, r, hr, -⟩ := hm.tagged hp hM hs hn
    refine ⟨hp.madeSince hs hr, ?_⟩
    intro m' hm' hne rs rs' hrs hrs'
    obtain ⟨-, r', hr', -⟩ := hm'.tagged hp hM hs hn
    exact hp.stocked.regions_apart (Heap.Populated.entry hr _) (Heap.Populated.entry hr' _) hne
      (hp.fits hs r) (hp.fits hs r') hrs hrs'
  · intro err h' hstop
    obtain ⟨hfills, hwhy⟩ := hstop
    exact ⟨hfills.untouched, hwhy⟩

/-- A block with a quote of itself is read in a small image. -/
theorem read_safe_cycle : ∃ image n h' q, Image.create 64 1 = .ok image ∧
    image.heap.arena.collecting = false ∧
    read (Text.toBytes "_b \x7b7 [quote b]\x7d") image.heap = .ok n h' ∧
    image.heap.Untouched h' ∧ Reaches h' n n ∧ Reaches h' n q ∧ q ≠ n ∧
    children h' q = .ok [n] ∧ image.heap.MadeSince h' n ∧ image.heap.MadeSince h' q := by
  have hruns : ((Image.create 64 1).toOption.any fun image =>
      !image.heap.arena.collecting &&
      (answer? (read (Text.toBytes "_b \x7b7 [quote b]\x7d") image.heap)).any fun p =>
        (children p.2 p.1).toOption.any fun ms => ms[1]?.any fun q =>
          p.1 != 0 && q != 0 && q != p.1 && decide (children p.2 q = .ok [p.1])) = true := by
    decide +kernel
  simp only [Option.any_eq_true, Bool.and_eq_true, Bool.not_eq_true', bne_iff_ne,
    decide_eq_true_eq, toOption_eq_some, answer?_eq_some] at hruns
  obtain ⟨image, hcreate, hidle, ⟨n, h'⟩, hread, ms, hms, q, hq, ⟨⟨hn, hq0⟩, hne⟩, hback⟩ := hruns
  have hlen : (Text.toBytes "_b \x7b7 [quote b]\x7d").length + 2 < 2 ^ 64 := by decide +kernel
  obtain ⟨c, hs⟩ := Image.create_standard hcreate
  obtain ⟨huntouched, hall⟩ := (read_safe hs hidle hlen).ok hread
  have hroot : Reaches h' n n := .root hn
  have hquote : Reaches h' n q := hroot.child hms (List.mem_of_getElem? hq) hq0
  exact ⟨image, n, h', q, hcreate, hidle, hread, huntouched, hroot, hquote, hne, hback,
    (hall n hroot).1, (hall q hquote).1⟩

end Source

end TreeMachine
