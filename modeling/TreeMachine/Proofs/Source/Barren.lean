import TreeMachine.Proofs.Node.Cells
import TreeMachine.Proofs.Source.Forms

/-! # Reading during a collection

  While a collection is running nothing can be allocated, so no node can be made.  Main
  statement: what is read then is null, and the heap stays as it is.
-/

namespace TreeMachine.Source

variable {h h' : Heap} {c : Catalogue} {r r' : Reader} {n : Node}

/-! ### Operations that make nothing -/

/-- The operation has no answer. -/
def Refused {ε α : Type} (x : EStateM ε Heap α) (h : Heap) : Prop :=
  Yields x h (fun _ _ => False) fun _ _ => True

theorem Refused.bind {ε α β : Type} {x : EStateM ε Heap α} (hx : Refused x h)
    (f : α → EStateM ε Heap β) {Q : β → Heap → Prop} :
    Yields (x >>= f) h Q fun _ _ => True :=
  Yields.bind (hx.imp fun _ _ => False.elim)

theorem Refused.lift {ε α : Type} {x : EStateM Fault Heap α} (hx : Refused x h) :
    Refused (liftM x : EStateM (Stop ε) Heap α) h :=
  (Heap.yields_lift hx).mono (fun _ _ => id) fun _ _ _ => trivial

theorem Refused.mapStop {ε ε' α : Type} {x : EStateM (Stop ε) Heap α} (hx : Refused x h)
    (f : ε → ε') : Refused (mapStop f x) h := by
  cases hrun : x h with
  | ok a h' => exact (hx.ok hrun).elim
  | error e h' => exact Yields.of_error (mapStop_eq_error hrun) trivial

section

variable (hc : h.arena.collecting = true)

include hc

theorem allocate_refused (size : UInt64) : Refused (Heap.allocate size) h := by
  have hfail : Arena.allocate size h.arena
      = .error (.broken (.allocationDuringCollection size)) h.arena := by
    rw [Arena.allocate, if_pos hc]
  exact Yields.of_error (Heap.onArena_error hfail) trivial

theorem newLiteral_refused {t : Ty} (hsize : h.size t = .ok 1) (w : UInt64) :
    Refused (Heap.newLiteral 0 t [w]) h := by
  unfold Heap.newLiteral
  refine Yields.bind_ok (lift_eq_ok (inspect_eq_ok hsize)) ?_
  rw [if_neg fun hne => hne rfl]
  dsimp only
  rw [if_pos (by decide)]
  exact (allocate_refused hc 1).lift.bind _

theorem newInteger_refused (hs : h.Standard c) (v : UInt64) : Refused (Heap.newInteger v) h := by
  have hliteral := newLiteral_refused hc (hs.size_integers (w := 1) rfl).1 v
  show Refused (Heap.newLiteralOrFault 0 h.types.scalars.integer [v]) h
  unfold Refused Yields Heap.newLiteralOrFault
  cases hrun : Heap.newLiteral 0 h.types.scalars.integer [v] h with
  | ok n h' => exact (hliteral.ok hrun).elim
  | error e h' =>
    cases e with
    | fault f => trivial
    | error e => cases e <;> trivial

theorem newNode_refused (t : Tag) (fields : List Node) : Refused (Heap.newNode t 0 fields) h := by
  unfold Heap.newNode
  by_cases ht : t = .literal ∨ t = .block
  · rw [if_pos ht]
    exact Yields.of_error rfl trivial
  · rw [if_neg ht]
    by_cases hlen : fields.length ≠ t.fields
    · rw [if_pos hlen]
      exact Yields.of_error rfl trivial
    · rw [if_neg hlen]
      exact Refused.bind (Refused.lift ((allocate_refused hc _).bind _)) _

theorem newBlock_refused (elems : List Node) : Refused (Heap.newBlock 0 elems) h :=
  Refused.bind ((allocate_refused hc _).bind _) _

end

/-! ### The reader -/

/-- Nothing but null has been read. -/
structure Barren (r : Reader) : Prop where
  names : ∀ s, r.names.get? s = none
  stack : ∀ f ∈ r.stack, ∃ start name, f = .quote start name
  forms : ∀ m ∈ r.forms, m = 0

/-- The reader goes on in the same heap, with nothing but null. -/
abbrev StaysBarren (x : ReadM Reader) (h : Heap) : Prop :=
  Yields x h (fun r' h' => Barren r' ∧ h' = h) fun _ _ => True

namespace Barren

theorem start : Barren Reader.start where
  names _ := rfl
  stack _ hf := absurd hf List.not_mem_nil
  forms _ hm := absurd hm List.not_mem_nil

theorem expecting (hr : Barren r) (e : Expect) : Barren { r with expect := e } :=
  ⟨hr.names, hr.stack, hr.forms⟩

theorem deliver (hr : Barren r) : StaysBarren (r.deliver 0) h := by
  obtain ⟨names, stack, e, forms⟩ := r
  cases stack with
  | nil =>
    refine Yields.pure ⟨⟨hr.names, hr.stack, ?_⟩, rfl⟩
    intro m hm
    rcases List.mem_cons.1 hm with rfl | hm
    · rfl
    · exact hr.forms m hm
  | cons f outer =>
    obtain ⟨start, name, rfl⟩ := hr.stack f List.mem_cons_self
    refine Yields.pure ⟨⟨hr.names, ?_, hr.forms⟩, rfl⟩
    exact fun f hf => hr.stack f (List.mem_cons_of_mem _ hf)

theorem atom (hr : Barren r) (hc : h.arena.collecting = true) (hs : h.Standard c)
    (name : Option String) (tok : Token) (after : Position) :
    StaysBarren (r.atom name tok after) h := by
  obtain ⟨kind, literal, pos⟩ := tok
  unfold Reader.atom
  dsimp only
  cases kind with
  | integer =>
    dsimp only
    cases Text.readNumeral literal with
    | error e => exact Yields.of_error rfl trivial
    | ok v => exact (newInteger_refused hc hs v).lift.bind _
  | name =>
    dsimp only
    by_cases hnil : literal = "nil"
    · rw [if_pos hnil]
      cases name with
      | some name => exact Yields.of_error rfl trivial
      | none => exact hr.deliver
    · rw [if_neg hnil, hr.names]
      exact Yields.of_error rfl trivial
  | openBracket => exact Yields.pure ⟨hr.expecting _, rfl⟩
  | openBrace => exact (newBlock_refused hc []).lift.bind _
  | _ => exact Yields.of_error rfl trivial

theorem tagName (hr : Barren r) (hc : h.arena.collecting = true) (opened : Position)
    (name : Option String) (tok : Token) (after : Position) :
    StaysBarren (r.tagName opened name tok after) h := by
  unfold Reader.tagName
  by_cases hkind : tok.kind = .name
  · rw [if_neg fun hne => hne hkind]
    by_cases hquote : tok.literal = "quote"
    · rw [if_pos hquote]
      refine Yields.pure ⟨⟨hr.names, ?_, hr.forms⟩, rfl⟩
      intro f hf
      rcases List.mem_cons.1 hf with rfl | hf
      · exact ⟨_, _, rfl⟩
      · exact hr.stack f hf
    · rw [if_neg hquote]
      cases Tag.ofName? tok.literal with
      | none => exact Yields.of_error rfl trivial
      | some t =>
        dsimp only
        split
        · exact Yields.of_error rfl trivial
        · exact ((newNode_refused hc t _).mapStop _).bind _
  · rw [if_pos hkind]
    exact Yields.of_error rfl trivial

theorem form (hr : Barren r) (hc : h.arena.collecting = true) (hs : h.Standard c) (tok : Token)
    (after : Position) : StaysBarren (r.form tok after) h := by
  unfold Reader.form
  split
  · split
    · exact Yields.of_error rfl trivial
    · exact Yields.pure ⟨hr.expecting _, rfl⟩
  · exact hr.atom hc hs none tok after

theorem closeQuote (hc : h.arena.collecting = true) (hs : h.Standard c) (start : Position)
    (name : Option String) (q : Node) (tok : Token) :
    StaysBarren (r.closeQuote start name q tok) h := by
  have hsize : h.size h.types.scalars.ast = .ok 1 := hs.size_member hs.ast fun _ hms => by cases hms
  unfold Reader.closeQuote
  split
  · exact Yields.of_error rfl trivial
  · exact Yields.get_bind (((newLiteral_refused hc hsize q).mapStop _).bind _)

theorem step (hr : Barren r) (hc : h.arena.collecting = true) (hs : h.Standard c) (tok : Token)
    (after : Position) : StaysBarren (r.step tok after) h := by
  have hform := hr.form hc hs tok after
  obtain ⟨names, stack, e, forms⟩ := r
  cases e with
  | named s => exact hr.atom hc hs (some s) tok after
  | tagName opened name => exact hr.tagName hc opened name tok after
  | quoteEnd start name q => exact closeQuote hc hs start name q tok
  | form =>
    cases stack with
    | nil => exact hform
    | cons f outer =>
      obtain ⟨start, name, rfl⟩ := hr.stack f List.mem_cons_self
      exact hform

theorem finish (hr : Barren r) (hc : h.arena.collecting = true) (tok : Token) :
    Yields (r.finish tok) h (fun n h' => n = 0 ∧ h' = h) fun _ _ => True := by
  obtain ⟨names, stack, e, forms⟩ := r
  cases e with
  | named | tagName | quoteEnd => exact Yields.of_error rfl trivial
  | form =>
    cases stack with
    | cons f outer =>
      obtain ⟨start, name, rfl⟩ := hr.stack f List.mem_cons_self
      exact Yields.of_error rfl trivial
    | nil =>
      match forms with
      | [] => exact Yields.of_error rfl trivial
      | [n] => exact Yields.pure ⟨hr.forms n List.mem_cons_self, rfl⟩
      | n :: n' :: forms =>
        exact (newBlock_refused hc _).lift.mono (fun _ _ => False.elim) fun _ _ => id

theorem run (hr : Barren r) (hc : h.arena.collecting = true) (hs : h.Standard c)
    (toks : List Token) :
    Yields (r.run toks) h (fun n h' => n = 0 ∧ h' = h) fun _ _ => True := by
  induction toks generalizing r with
  | nil => exact Yields.of_error rfl trivial
  | cons tok toks ih =>
    by_cases hlast : toks = []
    · subst hlast
      exact hr.finish hc tok
    · obtain ⟨after, hrun⟩ := r.run_cons tok toks hlast
      rw [hrun]
      refine Yields.bind ((hr.step hc hs tok after).imp ?_)
      rintro r' h' ⟨hr', rfl⟩
      exact ih hr'

end Barren

/-- What is read during a collection is null. -/
theorem read_collecting (hc : h.arena.collecting = true) (hs : h.Standard c) {text : List UInt8}
    (hread : read text h = .ok n h') : n = 0 ∧ h' = h :=
  (Barren.start.run hc hs (tokens text)).ok hread

/-- Null is read in any heap. -/
theorem read_null (h : Heap) : read (Text.toBytes "nil") h = .ok 0 h := by
  have htokens : tokens (Text.toBytes "nil")
      = [⟨.name, "nil", ⟨0, 1, 1⟩⟩, ⟨.endOfText, "", ⟨3, 1, 4⟩⟩] := by decide +kernel
  rw [read, htokens]
  rfl

end TreeMachine.Source
