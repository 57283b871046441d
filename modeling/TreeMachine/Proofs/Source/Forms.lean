import Mathlib.Data.List.Forall2
import TreeMachine.Proofs.Node.Making
import TreeMachine.Proofs.Source.Lexemes
import TreeMachine.Source.Reader

/-! # Reading forms

  `Reads` says what the reader does with the lexemes of a form, wherever the form stands: it
  makes the nodes of the form in free words and hands the form to what is around it.  What
  was read says itself what stands in the heap afterwards, and goes on standing while the
  forms around it are filled in.  Main statements: the rules for numerals, names and bracket
  forms, and that forms at the top of a text are read one after the other.
-/

namespace TreeMachine.Source

open Arena (Placed Since)

/-- A form: its lexemes, the number of words it takes, and what stands in the heap once it is
    read.  The list holds the nodes that are made for it. -/
structure Form where
  lexemes : List Lexeme
  cost : Nat
  Stands : Heap → Node → List Node → Prop

/-- The forms stand in the heap with the given nodes; the list holds all nodes made. -/
def Form.AllStand (h : Heap) : List Form → List Node → List Node → Prop
  | [], ms, ns => ms = [] ∧ ns = []
  | f :: fs, ms, ns => ∃ m ms' ns₁ ns₂, ms = m :: ms' ∧ ns = ns₁ ++ ns₂ ∧ f.Stands h m ns₁ ∧
    AllStand h fs ms' ns₂

/-- The words that the forms take. -/
def Form.costs (fs : List Form) : Nat := (fs.map (·.cost)).sum

/-- The lexemes of the forms, one after the other. -/
def Form.allLexemes (fs : List Form) : List Lexeme := fs.flatMap (·.lexemes)

namespace Reader

/-- The reader expects a form, which `name` defines if there is one. -/
def Awaits (r : Reader) : Option String → Prop
  | none => r.expect = .form
  | some s => r.expect = .named s

/-- Handing over a form does not depend on what was expected. -/
theorem deliver_expect (r : Reader) (e : Expect) (n : Node) :
    { r with expect := e }.deliver n = r.deliver n := by
  obtain ⟨names, stack, expect, forms⟩ := r
  unfold deliver
  cases stack with
  | nil => rfl
  | cons top outer => cases top <;> rfl

@[simp] theorem bind_none (r : Reader) (n : Node) : r.bind none n = r := rfl

theorem run_cons (r : Reader) (tok : Token) (rest : List Token) (hrest : rest ≠ []) :
    ∃ after, r.run (tok :: rest) = (do let r ← r.step tok after; r.run rest) := by
  obtain ⟨following, rest, rfl⟩ := List.exists_cons_of_ne_nil hrest
  exact ⟨following.pos, rfl⟩

/-- A token that begins a form. -/
theorem step_atom {r : Reader} {name : Option String} {tok : Token} {after : Position}
    (hr : r.Awaits name) (hdefine : tok.kind ≠ .define) (hbracket : tok.kind ≠ .closeBracket)
    (hbrace : tok.kind ≠ .closeBrace) : r.step tok after = r.atom name tok after := by
  obtain ⟨names, stack, expect, forms⟩ := r
  cases name with
  | some s =>
    cases (show expect = .named s from hr)
    rfl
  | none =>
    cases (show expect = .form from hr)
    have hform : ∀ r : Reader, r.form tok after = r.atom none tok after := fun r => by
      rw [Reader.form, if_neg hdefine]
    unfold step
    cases stack with
    | nil => exact hform _
    | cons top outer =>
      cases top with
      | node opened tag n given => exact (if_neg hbracket).trans (hform _)
      | quote start s => exact hform _
      | block start n => exact (if_neg hbrace).trans (hform _)

end Reader

/-- The tokens of two parts of a text. -/
theorem matches_append {ls₁ ls₂ : List Lexeme} {toks : List Token}
    (h : List.Forall₂ Lexeme.Matches (ls₁ ++ ls₂) toks) :
    ∃ toks₁ toks₂, toks = toks₁ ++ toks₂ ∧ List.Forall₂ Lexeme.Matches ls₁ toks₁ ∧
      List.Forall₂ Lexeme.Matches ls₂ toks₂ := by
  induction ls₁ generalizing toks with
  | nil => exact ⟨[], toks, rfl, .nil, h⟩
  | cons l ls ih =>
    cases h with
    | cons hl hls =>
      obtain ⟨toks₁, toks₂, rfl, h₁, h₂⟩ := ih hls
      exact ⟨_ :: toks₁, toks₂, rfl, .cons hl h₁, h₂⟩

/-! ### What reading a form does -/

/-- A form has been read between two heaps, with `n` for its node and `ns` made for it. -/
structure HasRead (h h' : Heap) (k : Nat) (ns : List Node) (S : Heap → Prop) : Prop where
  fills : h.Fills h' k
  nodup : ns.Nodup
  fresh : ∀ m ∈ ns, h.arena.Free m.toNat ∧ ¬ h'.arena.Free m.toNat
  stands : ∀ h'', h''.types = h'.types → Since h.arena h'.arena h''.arena → S h''

/-- Wherever the form is expected, with these names, it is read and handed to what is around
    it. -/
def Reads (c : Catalogue) (names : Dict String Node) (name : Option String) (f : Form) : Prop :=
  ∀ (r : Reader) (toks rest : List Token) (h : Heap) (k : Nat), r.names = names → r.Awaits name →
    List.Forall₂ Lexeme.Matches f.lexemes toks → rest ≠ [] → h.Standard c →
    h.arena.collecting = false → h.arena.Room (f.cost + k) →
    ∃ n ns h', r.run (toks ++ rest) h
        = (do let r' ← (r.bind name n).deliver n; r'.run rest) h' ∧
      HasRead h h' k ns fun h'' => f.Stands h'' n ns

variable {c : Catalogue} {names : Dict String Node} {name : Option String}

/-! ### Numerals and names -/

/-- An integer literal. -/
def Form.number (w : UInt64) : Form where
  lexemes := [.number w]
  cost := 5
  Stands h n ns := ns = [n] ∧ ∃ object,
    h.arena.Owns n [Tag.literal.word, 0, h.types.scalars.integer, object] ∧ h.arena.Owns object [w]

/-- The null node. -/
def Form.nil : Form where
  lexemes := [.name "nil"]
  cost := 0
  Stands _ n ns := n = 0 ∧ ns = []

/-- A node that has a name. -/
def Form.named (s : String) (m : Node) : Form where
  lexemes := [.name s]
  cost := 0
  Stands _ n ns := n = m ∧ ns = []

/-- A step of the reader that ends with handing over a form. -/
theorem run_atom {r : Reader} {tok : Token} {rest : List Token} {h h' : Heap} {n : Node}
    (hrest : rest ≠ []) (hr : r.Awaits name) (hdefine : tok.kind ≠ .define)
    (hbracket : tok.kind ≠ .closeBracket) (hbrace : tok.kind ≠ .closeBrace)
    (hatom : ∀ after, r.atom name tok after h = (r.bind name n).deliver n h') :
    r.run ([tok] ++ rest) h = (do let r' ← (r.bind name n).deliver n; r'.run rest) h' := by
  obtain ⟨after, hrun⟩ := r.run_cons tok rest hrest
  rw [List.singleton_append, hrun, Reader.step_atom hr hdefine hbracket hbrace]
  exact bind_run_congr (hatom after)

theorem number_reads (w : UInt64) : Reads c names name (.number w) := by
  intro r toks rest h k hnames hr htoks hrest hs hidle hroom
  obtain ⟨tok, rfl, hkind, hvalue⟩ : ∃ tok, toks = [tok] ∧ tok.kind = .integer ∧
      Text.readNumeral tok.literal = .ok w := by
    cases htoks with
    | cons htok hnil =>
      cases hnil
      exact ⟨_, rfl, htok⟩
  obtain ⟨n, object, h', hnew, hf, hn, hobject⟩ := Heap.newInteger_fills hs hidle w hroom
  refine ⟨n, [n], h', run_atom hrest hr (by rw [hkind]; decide) (by rw [hkind]; decide)
    (by rw [hkind]; decide) ?_, hf, List.nodup_singleton n, ?_, ?_⟩
  · intro after
    unfold Reader.atom
    simp only [hkind, hvalue]
    exact bind_eq_ok (lift_eq_ok hnew)
  · intro m hm
    rw [List.mem_singleton.1 hm]
    exact ⟨hn.was_free 0 (Nat.succ_pos _), hn.taken 0 (Nat.succ_pos _)⟩
  · intro h'' htypes hsince
    refine ⟨rfl, object, ?_, (hobject.since hsince).toOwns⟩
    rw [htypes, hf.types]
    exact (hn.since hsince).toOwns

/-- A form that makes nothing. -/
theorem HasRead.nothing {h : Heap} (hs : h.Standard c) {k : Nat} (hroom : h.arena.Room k)
    {S : Heap → Prop} (hS : ∀ h'', S h'') : HasRead h h k [] S :=
  ⟨.refl hs.sound hroom, List.nodup_nil, fun _ hm => (by cases hm), fun h'' _ _ => hS h''⟩

theorem nil_reads : Reads c names none .nil := by
  intro r toks rest h k hnames hr htoks hrest hs hidle hroom
  obtain ⟨tok, rfl, hkind, hliteral⟩ : ∃ tok, toks = [tok] ∧ tok.kind = .name ∧
      tok.literal = "nil" := by
    cases htoks with
    | cons htok hnil =>
      cases hnil
      exact ⟨_, rfl, htok⟩
  refine ⟨0, [], h, run_atom hrest hr (by rw [hkind]; decide) (by rw [hkind]; decide)
    (by rw [hkind]; decide) ?_, .nothing hs (hroom.mono (by omega)) fun _ => ⟨rfl, rfl⟩⟩
  intro after
  unfold Reader.atom
  simp only [hkind, hliteral, if_true]
  rfl

theorem named_reads {s : String} {m : Node} (hget : names.get? s = some m) (hs : s ≠ "nil") :
    Reads c names none (.named s m) := by
  intro r toks rest h k hnames hr htoks hrest hstd hidle hroom
  obtain ⟨tok, rfl, hkind, hliteral⟩ : ∃ tok, toks = [tok] ∧ tok.kind = .name ∧
      tok.literal = s := by
    cases htoks with
    | cons htok hnil =>
      cases hnil
      exact ⟨_, rfl, htok⟩
  refine ⟨m, [], h, run_atom hrest hr (by rw [hkind]; decide) (by rw [hkind]; decide)
    (by rw [hkind]; decide) ?_, .nothing hstd (hroom.mono (by omega)) fun _ => ⟨rfl, rfl⟩⟩
  intro after
  unfold Reader.atom
  simp only [hkind, hliteral, hs, if_false, hnames, hget]

/-! ### Bracket forms -/

/-- The node with the given tag and fields. -/
def Form.node (tag : Tag) (fs : List Form) : Form where
  lexemes := .opening :: .name tag.name :: (Form.allLexemes fs ++ [.closing])
  cost := tag.fields + 2 + Form.costs fs
  Stands h n ns := ∃ ms ns', ns = n :: ns' ∧ h.arena.Owns n (tag.word :: 0 :: ms) ∧
    Form.AllStand h fs ms ns'

/-- What later stages of a node leave alone: all that was made while the words of the node
    were taken. -/
def Undisturbed (n : Node) (tag : Tag) (h h' : Heap) : Prop :=
  ∀ a a' : Arena, (∀ j, n.toNat ≤ j → j < n.toNat + (tag.fields + 2) → ¬ a.Free j) →
    Since a a' h.arena → Since a a' h'.arena

/-- The fields that are still missing have been read. -/
structure HasFilled (h₀ h h' : Heap) (k : Nat) (n : Node) (tag : Tag) (done ms ns : List Node)
    (fs : List Form) : Prop where
  fills : h₀.Fills h' k
  node : Placed h₀.arena h'.arena n (tag.word :: 0 :: (done ++ ms))
  nodup : ns.Nodup
  fresh : ∀ m ∈ ns, h.arena.Free m.toNat ∧ ¬ h'.arena.Free m.toNat
  others : Undisturbed n tag h h'
  stands : ∀ h'', h''.types = h'.types → Since h.arena h'.arena h''.arena →
    Form.AllStand h'' fs ms ns

/-- One more field has been read and filled in. -/
theorem HasFilled.cons {h₀ h h₁ h' : Heap} {k k' i : Nat} {n m : Node} {tag : Tag}
    {done ms ns₁ ns₂ : List Node} {f : Form} {fs : List Form} (htypes₀ : h.types = h₀.types)
    (hn : ∀ j, n.toNat ≤ j → j < n.toNat + (tag.fields + 2) → ¬ h.arena.Free j)
    (hread : HasRead h h₁ k' ns₁ fun h'' => f.Stands h'' m ns₁)
    (hpatch : Undisturbed n tag h₁ (h₁.written i [m]))
    (hrest : HasFilled h₀ (h₁.written i [m]) h' k n tag (done ++ [m]) ms ns₂ fs) :
    HasFilled h₀ h h' k n tag done (m :: ms) (ns₁ ++ ns₂) (f :: fs) := by
  have hothers : Undisturbed n tag h₁ h' := fun a a' ha hs =>
    hrest.others a a' ha (hpatch a a' ha hs)
  have hsince : Since h.arena h₁.arena h'.arena := hothers _ _ hn (.refl _ _)
  have hnode := hrest.node
  rw [List.append_assoc, List.singleton_append] at hnode
  refine ⟨hrest.fills, hnode, ?_, ?_, ?_, ?_⟩
  · refine List.nodup_append.2 ⟨hread.nodup, hrest.nodup, ?_⟩
    rintro x hx y hy rfl
    exact (hread.fresh x hx).2 (hrest.fresh x hy).1
  · intro x hx
    rcases List.mem_append.1 hx with hx | hx
    · obtain ⟨hfree, htaken⟩ := hread.fresh x hx
      exact ⟨hfree, hsince.taken _ hfree htaken⟩
    · obtain ⟨hfree, htaken⟩ := hrest.fresh x hx
      exact ⟨hread.fills.grows.free_sub _ hfree, htaken⟩
  · exact fun a a' ha hs => hothers a a' ha (hs.grows hread.fills.grows)
  · intro h'' htypes hs''
    refine ⟨m, ms, ns₁, ns₂, rfl, rfl, hread.stands h'' ?_ (hs''.part (.refl _) hsince),
      hrest.stands h'' htypes ?_⟩
    · rw [htypes, hrest.fills.types, hread.fills.types, htypes₀]
    · exact ⟨hs''.size_eq, fun i hi => hs''.taken i (hread.fills.grows.free_sub i hi),
        fun i hi => hs''.same i (hread.fills.grows.free_sub i hi)⟩

/-- The words of a node that was made are taken. -/
theorem words_taken {a a' : Arena} {n : Node} {tag : Tag} {fields : List UInt64}
    (hm : Placed a a' n (tag.word :: 0 :: fields)) (hlen : fields.length = tag.fields) :
    ∀ j, n.toNat ≤ j → j < n.toNat + (tag.fields + 2) → ¬ a'.Free j := by
  intro j hlo hhi
  have htaken := hm.taken (j - n.toNat) (by simp only [List.length_cons, hlen]; omega)
  rwa [Nat.add_sub_cancel' hlo] at htaken

/-- The fields of a node are read one after the other, and then its bracket is closed. -/
theorem fields_read {tag : Tag} (htag : tag ≠ .literal ∧ tag ≠ .block) {n : Node} {h₀ : Heap}
    (hs₀ : h₀.Standard c) (hidle₀ : h₀.arena.collecting = false) {k : Nat} (opened : Position)
    (outer : List OpenForm) {last : Token} (hlast : last.kind = .closeBracket) {rest : List Token}
    (hrest : rest ≠ []) (fs : List Form) (hfs : ∀ f ∈ fs, Reads c names none f) (r : Reader)
    (hnames : r.names = names) (hexpect : r.expect = .form) (given : Nat)
    (hstack : r.stack = .node opened tag n given :: outer) (toks : List Token)
    (htoks : List.Forall₂ Lexeme.Matches (Form.allLexemes fs) toks) (h : Heap)
    (done : List Node) (hdone : done.length = given) (hcount : given + fs.length = tag.fields)
    (hf : h₀.Fills h (Form.costs fs + k))
    (hm : Placed h₀.arena h.arena n (tag.word :: 0 :: (done ++ List.replicate fs.length 0))) :
    ∃ ms ns h', r.run (toks ++ last :: rest) h
        = (do let r' ← { r with stack := outer }.deliver n; r'.run rest) h' ∧
      HasFilled h₀ h h' k n tag done ms ns fs := by
  induction fs generalizing r given toks h done with
  | nil =>
    cases htoks
    obtain ⟨after, hrun⟩ := r.run_cons last rest hrest
    have hstep : r.step last after = { r with stack := outer }.deliver n := by
      unfold Reader.step
      simp only [hexpect, hstack]
      rw [if_pos hlast, if_pos (by simpa using hcount)]
    refine ⟨[], [], h, ?_, ?_⟩
    · rw [List.nil_append, hrun, hstep]
    · exact ⟨⟨hf.types, hf.grows, hf.sound, hf.room.mono (by omega)⟩, hm, List.nodup_nil,
        fun _ hx => (by cases hx), fun _ _ _ hs => hs, fun _ _ _ => ⟨rfl, rfl⟩⟩
  | cons f fs ih =>
    obtain ⟨toks₁, toks₂, rfl, htoks₁, htoks₂⟩ := matches_append
      (show List.Forall₂ Lexeme.Matches (f.lexemes ++ Form.allLexemes fs) toks from htoks)
    have hlen : (done ++ List.replicate (f :: fs).length 0).length = tag.fields := by
      rw [List.length_append, List.length_replicate, hdone]
      exact hcount
    have hgiven : given < tag.fields := by
      rw [List.length_cons] at hcount
      omega
    have hcosts : Form.costs (f :: fs) = f.cost + Form.costs fs := rfl
    -- The form itself.
    obtain ⟨m, ns₁, h₁, hrun₁, hread⟩ := hfs f List.mem_cons_self r toks₁ (toks₂ ++ last :: rest) h
      (Form.costs fs + k) hnames hexpect htoks₁ (by simp) (hf.standard hs₀) (hf.idle hidle₀)
      (by rw [← Nat.add_assoc, ← hcosts]; exact hf.room)
    have hf₁ := hf.trans hread.fills
    have hm₁ := hm.since ((Since.refl _ _).grows hread.fills.grows)
    -- Its node becomes a field.
    obtain ⟨i, hpatch, hf₂, hm₂, hlo, hhi⟩ := hf₁.patch htag hm₁ hlen hgiven m
    have hset : (done ++ List.replicate (f :: fs).length 0).set given m
        = (done ++ [m]) ++ List.replicate fs.length 0 := by
      rw [← hdone]
      simp [List.replicate_succ]
    rw [hset] at hm₂
    have hquiet : Undisturbed n tag h₁ (h₁.written i [m]) := by
      intro a a' ha hs
      refine hs.write ?_ fun j hj hj' => ha j (by omega) ?_
      · have hin := hm₁.inside
        rw [List.length_cons, List.length_cons, hlen] at hin
        rw [List.length_singleton]
        omega
      · rw [List.length_singleton] at hj'
        omega
    obtain ⟨ms, ns₂, h', hrun₂, hrest'⟩ := ih (fun f' hf' => hfs f' (List.mem_cons_of_mem _ hf'))
      { r with expect := .form, stack := .node opened tag n (given + 1) :: outer } hnames rfl
      (given + 1) rfl toks₂ htoks₂ (h₁.written i [m]) (done ++ [m]) (by simp [hdone])
      (by rw [List.length_cons] at hcount; omega) hf₂ hm₂
    refine ⟨m :: ms, ns₁ ++ ns₂, h', ?_, hrest'.cons hf.types (words_taken hm hlen) hread hquiet⟩
    have hdeliver : (r.bind none m).deliver m h₁
        = .ok { r with expect := .form, stack := .node opened tag n (given + 1) :: outer }
            (h₁.written i [m]) := by
      rw [Reader.bind_none]
      unfold Reader.deliver
      simp only [hstack]
      rw [if_pos hgiven]
      exact (bind_eq_ok (lift_eq_ok hpatch)).trans rfl
    rw [List.append_assoc, hrun₁, bind_eq_ok hdeliver, hrun₂]
    exact bind_run_congr (congrFun (Reader.deliver_expect { r with stack := outer } .form n) h')

theorem ofName?_name (tag : Tag) : Tag.ofName? tag.name = some tag := by
  cases tag <;> decide

theorem name_ne_quote (tag : Tag) : tag.name ≠ "quote" := by
  cases tag <;> decide

/-- A bracket form, if its fields are read wherever they stand.  The name that it defines
    stands for the node already while the fields are read. -/
theorem node_reads {tag : Tag} (htag : tag ≠ .literal ∧ tag ≠ .block) {fs : List Form}
    (hlen : fs.length = tag.fields)
    (hfs : ∀ r : Reader, r.names = names → ∀ n, ∀ f ∈ fs, Reads c (r.bind name n).names none f) :
    Reads c names name (.node tag fs) := by
  intro r toks rest h k hnames hr htoks hrest hs hidle hroom
  cases htoks with
  | @cons _ first _ toks hfirst htoks =>
  cases htoks with
  | @cons _ second _ toks hsecond htoks =>
  obtain ⟨toks₁, toks₂, rfl, htoks₁, htoks₂⟩ := matches_append htoks
  obtain ⟨last, rfl, hlast⟩ : ∃ last, toks₂ = [last] ∧ last.kind = .closeBracket := by
    cases htoks₂ with
    | cons hlast hnil =>
      cases hnil
      exact ⟨_, rfl, hlast⟩
  have hopen : first.kind = .openBracket := hfirst
  obtain ⟨hkind, hliteral⟩ : second.kind = .name ∧ second.literal = tag.name := hsecond
  -- The node is made once its tag is known.
  obtain ⟨n, h₁, hnew, hf, hm⟩ := Heap.newNode_fills (k := Form.costs fs + k) hs.sound hidle htag
    (by rw [← Nat.add_assoc]; exact hroom)
  let r₁ : Reader := { r with expect := .tagName first.pos name }
  let r₂ : Reader :=
    { r.bind name n with expect := .form, stack := .node first.pos tag n 0 :: r.stack }
  obtain ⟨ms, ns, h', hrun, hfilled⟩ := fields_read htag hs hidle (k := k) first.pos
    r.stack hlast hrest fs (hfs r hnames n) r₂ rfl rfl 0 rfl toks₁ htoks₁ h₁ [] rfl
    (by rw [Nat.zero_add]; exact hlen) hf (by rw [hlen]; exact hm)
  have hnode : n ∉ ns := by
    intro hmem
    exact hm.taken 0 (Nat.succ_pos _) (hfilled.fresh n hmem).1
  refine ⟨n, n :: ns, h', ?_, hfilled.fills, List.nodup_cons.2 ⟨hnode, hfilled.nodup⟩, ?_, ?_⟩
  · obtain ⟨after, hfirst⟩ := r.run_cons first (second :: (toks₁ ++ last :: rest)) (by simp)
    obtain ⟨after', hsecond⟩ := r₁.run_cons second (toks₁ ++ last :: rest) (by simp)
    have hstep : r.step first after h = .ok r₁ h := by
      rw [Reader.step_atom hr (by rw [hopen]; decide) (by rw [hopen]; decide)
        (by rw [hopen]; decide)]
      unfold Reader.atom
      simp only [hopen]
      rfl
    have hmake : mapStop (fun e => ReadError.mk second.pos (.store e))
        (Heap.newNode tag 0 (List.replicate tag.fields 0)) h = .ok n h₁ := by
      simp only [mapStop, hnew]
    have htagName : r₁.step second after' h = .ok r₂ h₁ := by
      show r₁.tagName first.pos name second after' h = _
      unfold Reader.tagName
      rw [if_neg (by rw [hkind]; exact fun hne => hne rfl),
        if_neg (by rw [hliteral]; exact name_ne_quote tag),
        hliteral, ofName?_name]
      dsimp only
      rw [if_neg (by rintro (h | h); exacts [htag.1 h, htag.2 h])]
      refine (bind_eq_ok hmake).trans ?_
      cases name <;> rfl
    show r.run (first :: second :: (toks₁ ++ [last]) ++ rest) h = _
    rw [show first :: second :: (toks₁ ++ [last]) ++ rest
      = first :: second :: (toks₁ ++ last :: rest) by simp, hfirst, bind_eq_ok hstep, hsecond,
      bind_eq_ok htagName, hrun]
    refine bind_run_congr (congrFun ?_ h')
    have hdeliver := Reader.deliver_expect (r.bind name n) .form n
    cases name <;> exact hdeliver
  · intro m hmem
    rcases List.mem_cons.1 hmem with rfl | hmem
    · exact ⟨hm.was_free 0 (Nat.succ_pos _), hfilled.node.taken 0 (Nat.succ_pos _)⟩
    · obtain ⟨hfree, htaken⟩ := hfilled.fresh m hmem
      exact ⟨hf.grows.free_sub _ hfree, htaken⟩
  · intro h'' htypes hsince
    refine ⟨ms, ns, rfl, (hfilled.node.since hsince).toOwns, hfilled.stands h'' htypes ?_⟩
    exact ⟨hsince.size_eq, fun i hi => hsince.taken i (hf.grows.free_sub i hi),
      fun i hi => hsince.same i (hf.grows.free_sub i hi)⟩

/-- Forms in brackets, without a name. -/
theorem plain_reads {tag : Tag} (htag : tag ≠ .literal ∧ tag ≠ .block) {fs : List Form}
    (hlen : fs.length = tag.fields) (hfs : ∀ f ∈ fs, Reads c names none f) :
    Reads c names none (.node tag fs) :=
  node_reads htag hlen fun r hr _ f hf => by
    rw [Reader.bind_none, hr]
    exact hfs f hf

/-! ### The top of a text -/

/-- One thing after the other. -/
theorem HasRead.append {h h₁ h' : Heap} {k k' : Nat} {ns₁ ns₂ : List Node} {S₁ S₂ : Heap → Prop}
    (h₁₁ : HasRead h h₁ k' ns₁ S₁) (h₂ : HasRead h₁ h' k ns₂ S₂) :
    HasRead h h' k (ns₁ ++ ns₂) fun h'' => S₁ h'' ∧ S₂ h'' := by
  have hsince : Since h.arena h₁.arena h'.arena := (Since.refl _ _).grows h₂.fills.grows
  refine ⟨h₁₁.fills.trans h₂.fills, ?_, ?_, ?_⟩
  · refine List.nodup_append.2 ⟨h₁₁.nodup, h₂.nodup, ?_⟩
    rintro x hx y hy rfl
    exact (h₁₁.fresh x hx).2 (h₂.fresh x hy).1
  · intro x hx
    rcases List.mem_append.1 hx with hx | hx
    · obtain ⟨hfree, htaken⟩ := h₁₁.fresh x hx
      exact ⟨hfree, hsince.taken _ hfree htaken⟩
    · obtain ⟨hfree, htaken⟩ := h₂.fresh x hx
      exact ⟨h₁₁.fills.grows.free_sub _ hfree, htaken⟩
  · intro h'' htypes hs
    refine ⟨h₁₁.stands h'' (htypes.trans h₂.fills.types) (hs.part (.refl _) hsince),
      h₂.stands h'' htypes ⟨hs.size_eq, ?_, ?_⟩⟩
    · exact fun i hi => hs.taken i (h₁₁.fills.grows.free_sub i hi)
    · exact fun i hi => hs.same i (h₁₁.fills.grows.free_sub i hi)

theorem HasRead.imp {h h' : Heap} {k : Nat} {ns : List Node} {S S' : Heap → Prop}
    (hr : HasRead h h' k ns S) (himp : ∀ h'', S h'' → S' h'') : HasRead h h' k ns S' :=
  ⟨hr.fills, hr.nodup, hr.fresh, fun h'' htypes hs => himp h'' (hr.stands h'' htypes hs)⟩

/-- The reader between two forms at the top of a text. -/
structure Reader.AtTop (r : Reader) (names : Dict String Node) : Prop where
  names : r.names = names
  stack : r.stack = []
  expect : r.expect = .form

/-- The reader with more forms. -/
def Reader.took (r : Reader) (names : Dict String Node) (ms : List Node) : Reader :=
  { r with names, forms := ms.reverse ++ r.forms }

theorem Reader.AtTop.took {r : Reader} (h : r.AtTop names) (names' : Dict String Node)
    (ms : List Node) : (r.took names' ms).AtTop names' :=
  ⟨rfl, h.stack, h.expect⟩

theorem Reader.took_took (r : Reader) (names names' : Dict String Node) (ms ms' : List Node) :
    (r.took names ms).took names' ms' = r.took names' (ms ++ ms') := by
  simp [Reader.took]

/-- Handing over a form at the top of a text. -/
theorem Reader.AtTop.deliver {r : Reader} (h : r.AtTop names) (n : Node) (heap : Heap) :
    r.deliver n heap = .ok (r.took names [n]) heap := by
  obtain ⟨names, stack, expect, forms⟩ := r
  obtain ⟨rfl, rfl, rfl⟩ := h
  rfl

/-- Forms are read one after the other. -/
theorem forms_read {fs : List Form} (hfs : ∀ f ∈ fs, Reads c names none f) {r : Reader}
    (hr : r.AtTop names) {toks rest : List Token}
    (htoks : List.Forall₂ Lexeme.Matches (Form.allLexemes fs) toks) (hrest : rest ≠ []) {h : Heap}
    {k : Nat} (hs : h.Standard c) (hidle : h.arena.collecting = false)
    (hroom : h.arena.Room (Form.costs fs + k)) :
    ∃ ms ns h', r.run (toks ++ rest) h = (r.took names ms).run rest h' ∧
      HasRead h h' k ns fun h'' => Form.AllStand h'' fs ms ns := by
  induction fs generalizing r toks h with
  | nil =>
    cases htoks
    refine ⟨[], [], h, ?_, .nothing hs (hroom.mono (by omega)) fun _ => ⟨rfl, rfl⟩⟩
    rw [List.nil_append, Reader.took, ← hr.names]
    rfl
  | cons f fs ih =>
    obtain ⟨toks₁, toks₂, rfl, htoks₁, htoks₂⟩ := matches_append
      (show List.Forall₂ Lexeme.Matches (f.lexemes ++ Form.allLexemes fs) toks from htoks)
    have hcosts : Form.costs (f :: fs) = f.cost + Form.costs fs := rfl
    obtain ⟨m, ns₁, h₁, hrun₁, hread₁⟩ := hfs f List.mem_cons_self r toks₁ (toks₂ ++ rest) h
      (Form.costs fs + k) hr.names hr.expect htoks₁ (by simp [hrest]) hs hidle
      (by rw [← Nat.add_assoc, ← hcosts]; exact hroom)
    obtain ⟨ms, ns₂, h', hrun₂, hread₂⟩ := ih (fun f' hf' => hfs f' (List.mem_cons_of_mem _ hf'))
      (hr.took names [m]) htoks₂ (hread₁.fills.standard hs) (hread₁.fills.idle hidle)
      hread₁.fills.room
    refine ⟨m :: ms, ns₁ ++ ns₂, h', ?_, (hread₁.append hread₂).imp ?_⟩
    · rw [List.append_assoc, hrun₁, Reader.bind_none, bind_eq_ok (hr.deliver m h₁), hrun₂,
        Reader.took_took]
      rfl
    · exact fun h'' hboth => ⟨m, ms, ns₁, ns₂, rfl, rfl, hboth.1, hboth.2⟩

/-- A definition at the top of a text. -/
theorem definition_read {f : Form} {s : String} (hf : Reads c names (some s) f)
    (hnew : names.get? s = none) {r : Reader} (hr : r.AtTop names) {toks rest : List Token}
    (htoks : List.Forall₂ Lexeme.Matches (.define s :: f.lexemes) toks) (hrest : rest ≠ [])
    {h : Heap} {k : Nat} (hs : h.Standard c) (hidle : h.arena.collecting = false)
    (hroom : h.arena.Room (f.cost + k)) :
    ∃ n ns h', r.run (toks ++ rest) h = (r.took (names.set s n) [n]).run rest h' ∧
      HasRead h h' k ns fun h'' => f.Stands h'' n ns := by
  cases htoks with
  | @cons _ tok _ toks htok htoks =>
  obtain ⟨hkind, hliteral⟩ : tok.kind = .define ∧ tok.literal = s := htok
  obtain ⟨n, ns, h', hrun, hread⟩ := hf { r with expect := .named s } toks rest h k hr.names rfl
    htoks hrest hs hidle hroom
  refine ⟨n, ns, h', ?_, hread⟩
  obtain ⟨after, hfirst⟩ := r.run_cons tok (toks ++ rest) (by simp [hrest])
  obtain ⟨names₀, stack, expect, forms⟩ := r
  obtain ⟨rfl, rfl, rfl⟩ := hr
  have hstep : Reader.step ⟨names₀, [], .form, forms⟩ tok after h
      = .ok ⟨names₀, [], .named s, forms⟩ h := by
    have hcontains : ¬ (names₀.contains tok.literal = true) := by
      rw [hliteral, Dict.contains, hnew]
      decide
    show Reader.form ⟨names₀, [], .form, forms⟩ tok after h = _
    rw [Reader.form, if_pos hkind, if_neg hcontains, hliteral]
    rfl
  exact (congrFun hfirst h).trans ((bind_eq_ok hstep).trans (hrun.trans rfl))

/-- The lexemes of definitions of integers. -/
def definitions (vs : List (String × UInt64)) : List Lexeme :=
  vs.flatMap fun v => [.define v.1, .number v.2]

/-- An integer literal with a given value. -/
def IsNumber (h : Heap) (v : UInt64) (n : Node) : Prop := ∃ object,
  h.arena.Owns n [Tag.literal.word, 0, h.types.scalars.integer, object] ∧ h.arena.Owns object [v]

/-- The names stand for the nodes, and other names for what they stood for. -/
structure Binds (names : Dict String Node) (vs : List (String × UInt64)) (xs : List Node)
    (names' : Dict String Node) : Prop where
  length : xs.length = vs.length
  bound : ∀ (i : Nat) (v : String × UInt64) (x : Node), vs[i]? = some v → xs[i]? = some x →
    names'.get? v.1 = some x
  other : ∀ s, s ∉ vs.map Prod.fst → names'.get? s = names.get? s

/-- Variables are defined one after the other. -/
theorem variables_read {vs : List (String × UInt64)} (hnodup : (vs.map Prod.fst).Nodup)
    (hnew : ∀ v ∈ vs, names.get? v.1 = none) {r : Reader} (hr : r.AtTop names)
    {toks rest : List Token} (htoks : List.Forall₂ Lexeme.Matches (definitions vs) toks)
    (hrest : rest ≠ []) {h : Heap} {k : Nat} (hs : h.Standard c)
    (hidle : h.arena.collecting = false) (hroom : h.arena.Room (5 * vs.length + k)) :
    ∃ xs names' h', r.run (toks ++ rest) h = (r.took names' xs).run rest h' ∧
      Binds names vs xs names' ∧
      HasRead h h' k xs fun h'' => List.Forall₂ (fun v x => IsNumber h'' v.2 x) vs xs := by
  induction vs generalizing r toks h names with
  | nil =>
    cases htoks
    refine ⟨[], names, h, ?_, ⟨rfl, fun i v x hv => by simp at hv, fun _ _ => rfl⟩,
      .nothing hs (hroom.mono (by omega)) fun _ => .nil⟩
    rw [List.nil_append, Reader.took, ← hr.names]
    rfl
  | cons v vs ih =>
    obtain ⟨hv, hnodup⟩ := List.nodup_cons.1 hnodup
    obtain ⟨toks₁, toks₂, rfl, htoks₁, htoks₂⟩ := matches_append
      (show List.Forall₂ Lexeme.Matches ([.define v.1, .number v.2] ++ definitions vs) toks
        from htoks)
    obtain ⟨x, ns₁, h₁, hrun₁, hread₁⟩ := definition_read (k := 5 * vs.length + k)
      (number_reads v.2) (hnew v List.mem_cons_self) hr htoks₁
      (show toks₂ ++ rest ≠ [] by simp [hrest]) hs hidle (hroom.mono (by
        show 5 + _ ≤ _
        rw [List.length_cons]
        omega))
    have hns : ns₁ = [x] := (hread₁.stands h₁ rfl (.refl _ _)).1
    subst hns
    have hne : ∀ v' ∈ vs, v'.1 ≠ v.1 := fun v' hv' heq => hv (List.mem_map.2 ⟨v', hv', heq⟩)
    have hnew' : ∀ v' ∈ vs, (names.set v.1 x).get? v'.1 = none := by
      intro v' hv'
      rw [Dict.get?_set_ne _ _ (hne v' hv')]
      exact hnew v' (List.mem_cons_of_mem _ hv')
    obtain ⟨xs, names', h', hrun₂, hbinds, hread₂⟩ := ih hnodup hnew'
      (hr.took (names.set v.1 x) [x]) htoks₂ (hread₁.fills.standard hs) (hread₁.fills.idle hidle)
      hread₁.fills.room
    refine ⟨x :: xs, names', h', ?_, ⟨by simp [hbinds.length], ?_, ?_⟩,
      (hread₁.append hread₂).imp fun h'' hboth => .cons hboth.1.2 hboth.2⟩
    · rw [List.append_assoc, hrun₁, hrun₂, Reader.took_took]
      rfl
    · intro i v' x' hv' hx'
      cases i with
      | zero =>
        cases hv'
        cases hx'
        rw [hbinds.other _ hv, Dict.get?_set_self]
      | succ i => exact hbinds.bound i v' x' hv' hx'
    · intro s hs
      obtain ⟨hne', hrest'⟩ := not_or.1 fun hor => hs (List.mem_cons.2 hor)
      rw [hbinds.other s hrest', Dict.get?_set_ne _ _ hne']

/-- A text of one form is read into the node of the form. -/
theorem form_read {f : Form} (hf : Reads c .empty none f) {text : List UInt8}
    (htext : Says text f.lexemes) {h : Heap} {k : Nat} (hs : h.Standard c)
    (hidle : h.arena.collecting = false) (hroom : h.arena.Room (f.cost + k)) :
    ∃ n ns h', read text h = .ok n h' ∧ HasRead h h' k ns fun h'' => f.Stands h'' n ns := by
  obtain ⟨toks, last, htokens, -, htoks⟩ := htext
  obtain ⟨n, ns, h', hrun, hread⟩ :=
    hf Reader.start toks [last] h k rfl rfl htoks (by simp) hs hidle hroom
  refine ⟨n, ns, h', ?_, hread⟩
  rw [read, htokens, hrun]
  rfl

/-- Several forms become the elements of a block. -/
theorem block_read {r : Reader} (hr : r.AtTop names) (last : Token) {forms : List Node}
    (hforms : r.forms = forms.reverse) (hmany : 2 ≤ forms.length) {h : Heap} {k : Nat}
    (hs : h.Standard c) (hidle : h.arena.collecting = false)
    (hroom : h.arena.Room (3 + (forms.length + 2 + k))) :
    ∃ root vec h', r.run [last] h = .ok root h' ∧ h.Fills h' k ∧
      Placed h.arena h'.arena root [Tag.block.word, 0, vec] ∧
      Placed h.arena h'.arena vec
        (UInt64.ofNat forms.length :: UInt64.ofNat forms.length :: forms) := by
  have hne : forms ≠ [] := by
    rintro rfl
    simp at hmany
  obtain ⟨root, vec, h', hnew, hf, hroot, hvec⟩ :=
    Heap.newBlock_fills hs.sound hidle hne hroom
  refine ⟨root, vec, h', ?_, hf, hroot, hvec⟩
  obtain ⟨names, stack, expect, taken⟩ := r
  obtain ⟨-, rfl, rfl⟩ := hr
  obtain ⟨x, y, others, rfl⟩ : ∃ x y others, taken = x :: y :: others := by
    have hlen : 2 ≤ taken.length := by
      rw [show taken = forms.reverse from hforms, List.length_reverse]
      exact hmany
    match taken, hlen with
    | x :: y :: others, _ => exact ⟨x, y, others, rfl⟩
  have hfinish : Heap.newBlock 0 (x :: y :: others).reverse h = .ok root h' := by
    rw [show x :: y :: others = forms.reverse from hforms, List.reverse_reverse]
    exact hnew
  exact lift_eq_ok hfinish

end TreeMachine.Source
