import TreeMachine.Proofs.Compile.Operations
import TreeMachine.Proofs.Types.Adding
import TreeMachine.Proofs.Types.Order

/-! # How generation ends

  Generation ends with a result or with an error.  In both cases the heap has grown by types
  only, and the nodes that were in progress before are in progress again.  Nothing is asked
  of the module.  Main statement: whatever ends in this way for sub-nodes, each node ends in
  this way from it.
-/

namespace TreeMachine.Compile

open Code (Module Value BinaryOp Build)

variable {N : Node → Tag → Prop} {A : List Node} {g g' g'' : Generator} {c c' c'' : Catalogue}

/-! ### States -/

/-- A state in which the nodes `A` are in progress.  The nodes of the heap are closed, and
    all results that are recorded have types. -/
structure Typed (N : Node → Tag → Prop) (A : List Node) (g : Generator) (c : Catalogue) :
    Prop where
  standard : g.heap.Standard c
  closed : g.heap.Closed c N
  active_eq : g.active = A
  memo : ∀ n info, g.memo.get? n = some info → c.Knows info.type
  temps : ∀ n info, g.temps.get? n = some info → c.Knows info.type

/-- The heap has grown by types, and the same nodes are in progress. -/
structure Goes (g : Generator) (c : Catalogue) (g' : Generator) (c' : Catalogue) : Prop where
  adds : Heap.Adds g.heap c g'.heap c'
  active_eq : g'.active = g.active

namespace Goes

theorem of_eq (hi : g.heap.Interned c) (hheap : g'.heap = g.heap) (hactive : g'.active = g.active) :
    Goes g c g' c := by
  refine ⟨?_, hactive⟩
  rw [hheap]
  exact .refl hi

theorem refl (hi : g.heap.Interned c) : Goes g c g c := of_eq hi rfl rfl

theorem trans (h : Goes g c g' c') (h' : Goes g' c' g'' c'') : Goes g c g'' c'' :=
  ⟨h.adds.trans h'.adds, h'.active_eq.trans h.active_eq⟩

theorem knows (h : Goes g c g' c') {t : Ty} (ht : c.Knows t) : c'.Knows t :=
  h.adds.toExtends.knows ht

end Goes

/-- Generation from a state ends with an answer and a state as `Q` says, or with an error;
    it does not descend without an end. -/
def Halts {α : Type} (x : Gen α) (g : Generator) (c : Catalogue)
    (Q : α → Generator → Catalogue → Prop) : Prop :=
  Yields x g (fun a g' => ∃ c', Goes g c g' c' ∧ Q a g' c')
    fun e g' => e ≠ .fault .endless ∧ ∃ c', Goes g c g' c'

namespace Typed

variable {t : Ty} {info : Info}

/-- The state before the first node. -/
theorem start {h : Heap} (hs : h.Standard c) (hN : h.Closed c N) (name : String) :
    Typed N [] (.start h name) c :=
  ⟨hs, hN, rfl, fun _ _ hn => (by cases hn), fun _ _ hn => (by cases hn)⟩

theorem interned (h : Typed N A g c) : g.heap.Interned c := h.standard.toInterned

/-- What is recorded was recorded before, or it has a type. -/
theorem of_records (h : Typed N A g c) (hheap : g'.heap = g.heap) (hactive : g'.active = g.active)
    (hmemo : ∀ n info, g'.memo.get? n = some info →
      g.memo.get? n = some info ∨ c.Knows info.type)
    (htemps : ∀ n info, g'.temps.get? n = some info →
      g.temps.get? n = some info ∨ c.Knows info.type) : Typed N A g' c where
  standard := hheap ▸ h.standard
  closed := hheap ▸ h.closed
  active_eq := hactive.trans h.active_eq
  memo n info hn := (hmemo n info hn).elim (h.memo n info) id
  temps n info hn := (htemps n info hn).elim (h.temps n info) id

/-- Anything but the heap, the nodes in progress and the results may change. -/
theorem of_eq (h : Typed N A g c) (hheap : g'.heap = g.heap) (hactive : g'.active = g.active)
    (hmemo : g'.memo = g.memo) (htemps : g'.temps = g.temps) : Typed N A g' c :=
  h.of_records hheap hactive (fun _ _ hn => Or.inl (hmemo ▸ hn)) fun _ _ hn => Or.inl (htemps ▸ hn)

/-- The heap grows by types. -/
theorem setHeap (h : Typed N A g c) {heap : Heap} (he : Heap.Extends g.heap c heap c') :
    Typed N A { g with heap } c' where
  standard := h.standard.extends he
  closed := h.closed.extends he
  active_eq := h.active_eq
  memo n info hn := he.knows (h.memo n info hn)
  temps n info hn := he.knows (h.temps n info hn)

theorem setMemo (h : Typed N A g c) (n : Node) (hinfo : c.Knows info.type)
    (shadow : List ShadowEntry) : Typed N A { g with memo := g.memo.set n info, shadow } c := by
  refine h.of_records rfl rfl (fun n' info' hn' => ?_) fun _ _ => Or.inl
  rcases Dict.get?_of_set hn' with rfl | hold
  · exact Or.inr hinfo
  · exact Or.inl hold

theorem setTemp (h : Typed N A g c) (n : Node) (hinfo : c.Knows info.type)
    (shadow : List ShadowEntry) : Typed N A { g with temps := g.temps.set n info, shadow } c := by
  refine h.of_records rfl rfl (fun _ _ => Or.inl) fun n' info' hn' => ?_
  rcases Dict.get?_of_set hn' with rfl | hold
  · exact Or.inr hinfo
  · exact Or.inl hold

theorem forget (h : Typed N A g c) (e : ShadowEntry) : Typed N A (Compile.forget g e) c := by
  unfold Compile.forget
  split
  · exact h.of_records rfl rfl (fun _ _ hn => Or.inl (Dict.get?_of_erase hn)) fun _ _ => Or.inl
  · exact h.of_records rfl rfl (fun _ _ => Or.inl) fun _ _ hn => Or.inl (Dict.get?_of_erase hn)

theorem forgetAll (h : Typed N A g c) (l : List ShadowEntry) :
    Typed N A (l.foldl Compile.forget g) c := by
  induction l generalizing g with
  | nil => exact h
  | cons e rest ih => exact ih (h.forget e)

theorem clear (h : Typed N A g c) (depth : Nat) : Typed N A (Compile.clear depth g) c :=
  (h.forgetAll (g.shadow.take (g.shadow.length - depth))).of_eq rfl rfl rfl rfl

/-- A field that refers to a node. -/
theorem child_eq (h : Typed N A g c) {n : Node} {tag : Tag} (hn : N n tag) {i : Nat}
    (hi : i < tag.schema.nodeFields) : ∃ k, child n i g = .ok k g ∧ OrNull N k := by
  obtain ⟨k, hk, hN⟩ := h.closed.field_eq h.interned.sized hn hi
  exact ⟨k, look_eq_ok hk, hN⟩

/-- The value of a result is read or loaded. -/
theorem valueOf_eq (h : Typed N A g c) (hinfo : c.Knows info.type) :
    ∃ v m, valueOf info g = .ok v { g with module := m } := by
  unfold valueOf
  split
  · exact ⟨_, _, bind_eq_ok (sizeOf_known h.interned hinfo)⟩
  · exact ⟨info.value, g.module, rfl⟩

end Typed

/-! ### Rules -/

namespace Halts

variable {α β : Type} {Q R : α → Generator → Catalogue → Prop}

theorem of_ok {x : Gen α} {a : α} (h : x g = .ok a g') (hg : Goes g c g' c') (hq : Q a g' c') :
    Halts x g c Q :=
  Yields.of_ok h ⟨c', hg, hq⟩

theorem pure {a : α} (hi : g.heap.Interned c) (hq : Q a g c) :
    Halts (Pure.pure a : Gen α) g c Q :=
  of_ok rfl (.refl hi) hq

theorem congr {x y : Gen α} (heq : x g = y g) (h : Halts y g c Q) : Halts x g c Q :=
  Yields.congr heq h

/-- What happens after the state has gone on. -/
theorem after {x : Gen α} (hg : Goes g c g' c') (h : Halts x g' c' R) :
    Yields x g' (fun a g'' => ∃ c'', Goes g c g'' c'' ∧ R a g'' c'')
      fun e g'' => e ≠ .fault .endless ∧ ∃ c'', Goes g c g'' c'' := by
  refine Yields.mono h (fun a g'' => ?_) fun e g'' => ?_
  · rintro ⟨c'', hg', hr⟩
    exact ⟨c'', hg.trans hg', hr⟩
  · rintro ⟨he, c'', hg'⟩
    exact ⟨he, c'', hg.trans hg'⟩

theorem bind {x : Gen α} {f : α → Gen β} {R : β → Generator → Catalogue → Prop}
    (hx : Halts x g c Q) (hf : ∀ a g' c', Goes g c g' c' → Q a g' c' → Halts (f a) g' c' R) :
    Halts (x >>= f) g c R := by
  refine Yields.bind (Yields.imp hx fun a g' => ?_)
  rintro ⟨c', hg, hq⟩
  exact (hf a g' c' hg hq).after hg

/-- A first step with a known end. -/
theorem step {x : Gen α} {a : α} {f : α → Gen β} {R : β → Generator → Catalogue → Prop}
    (hx : x g = .ok a g') (hg : Goes g c g' c') (hf : Halts (f a) g' c' R) :
    Halts (x >>= f) g c R :=
  Yields.bind_ok hx (hf.after hg)

/-- A first step that leaves the state alone. -/
theorem read {x : Gen α} {a : α} {f : α → Gen β} {R : β → Generator → Catalogue → Prop}
    (hx : x g = .ok a g) (hf : Halts (f a) g c R) : Halts (x >>= f) g c R :=
  Yields.bind_ok hx hf

/-- A change of the state. -/
theorem modify {f : Generator → Generator} {Q : Unit → Generator → Catalogue → Prop}
    (hg : Goes g c (f g) c) (hq : Q () (f g) c) :
    Halts (modifyGet (fun s => ((), f s)) : Gen Unit) g c Q :=
  of_ok rfl hg hq

/-- A first look at the heap, which may fault. -/
theorem look {x : Heap → Except Fault α} {f : α → Gen β} {R : β → Generator → Catalogue → Prop}
    (hi : g.heap.Interned c) (hx : x g.heap ≠ .error .endless)
    (hf : ∀ a, x g.heap = .ok a → Halts (f a) g c R) : Halts (Compile.look x >>= f) g c R := by
  cases hrun : x g.heap with
  | ok a => exact read (look_eq_ok hrun) (hf a hrun)
  | error e =>
    have hlook : Compile.look x g = .error (.fault e) g := by simp only [Compile.look, hrun]
    refine Yields.bind (Yields.of_error hlook ⟨fun heq => hx ?_, c, .refl hi⟩)
    cases heq
    exact hrun

/-- A node that is rejected. -/
theorem rejected {x : Gen α} {reason : Rejection} {n : Node} {field : Option Nat}
    (hi : g.heap.Interned c) (hx : x g = .error (.error (.rejected reason n field)) g) :
    Halts x g c Q :=
  Yields.of_error hx ⟨by simp, c, .refl hi⟩

/-- A node that is rejected before the rest. -/
theorem rejected_bind {x : Gen α} {f : α → Gen β} {R : β → Generator → Catalogue → Prop}
    {reason : Rejection} {n : Node} {field : Option Nat} (hi : g.heap.Interned c)
    (hx : x g = .error (.error (.rejected reason n field)) g) : Halts (x >>= f) g c R :=
  rejected hi (bind_eq_error hx)

/-- A first step of construction. -/
theorem build {x : Build α} {f : α → Gen β} {R : β → Generator → Catalogue → Prop}
    (h : Typed N A g c) (hf : ∀ a g', Typed N A g' c → Halts (f a) g' c R) :
    Halts (Compile.build x >>= f) g c R := by
  have hrun : Compile.build x g = .ok (x g.module).1 { g with module := (x g.module).2 } := rfl
  exact step hrun (.of_eq h.interned rfl rfl) (hf _ _ (h.of_eq rfl rfl rfl rfl))

/-- A first step that fetches the value of a result. -/
theorem value {info : Info} {f : Value → Gen β} {R : β → Generator → Catalogue → Prop}
    (h : Typed N A g c) (hinfo : c.Knows info.type)
    (hf : ∀ v g', Typed N A g' c → Halts (f v) g' c R) : Halts (valueOf info >>= f) g c R := by
  obtain ⟨v, m, hv⟩ := h.valueOf_eq hinfo
  exact step hv (.of_eq h.interned rfl rfl) (hf v _ (h.of_eq rfl rfl rfl rfl))

/-- A first step that cuts the shadow stack back. -/
theorem clear {depth : Nat} {f : Unit → Gen β} {R : β → Generator → Catalogue → Prop}
    (h : Typed N A g c) (hf : ∀ g', Typed N A g' c → Halts (f ()) g' c R) :
    Halts (clearStack depth >>= f) g c R := by
  obtain ⟨hheap, -, hactive, -⟩ := forget_frame (g.shadow.take (g.shadow.length - depth)) g
  exact step (clearStack_eq depth g) (.of_eq h.interned hheap hactive) (hf _ (h.clear depth))

/-- A first step that makes a type. -/
theorem makes {x : HeapM α} {f : α → Gen β} {S : α → Catalogue → Prop}
    {R : β → Generator → Catalogue → Prop} (h : Typed N A g c)
    (hx : Yields x g.heap (fun a heap => ∃ c', Heap.Adds g.heap c heap c' ∧ S a c')
      fun e heap => e ≠ .endless ∧ heap = g.heap)
    (hf : ∀ a g' c', Goes g c g' c' → Typed N A g' c' → S a c' → Halts (f a) g' c' R) :
    Halts (onHeap x >>= f) g c R := by
  cases hrun : x g.heap with
  | ok a heap =>
    obtain ⟨c', hadds, hs⟩ := hx.ok hrun
    have hg : Goes g c { g with heap } c' := ⟨hadds, rfl⟩
    exact step (onHeap_eq_ok hrun) hg (hf a _ c' hg (h.setHeap hadds.toExtends) hs)
  | error e heap =>
    obtain ⟨he, rfl⟩ := hx.error hrun
    have hfail : onHeap x g = .error (.fault e) { g with heap := g.heap } := by
      simp only [onHeap, hrun]
    exact Yields.bind (Yields.of_error hfail
      ⟨fun heq => he (Stop.fault.inj heq), c, .refl h.interned⟩)

end Halts

/-! ### Results -/

/-- A result with a type has been delivered. -/
def Delivers (N : Node → Tag → Prop) (A : List Node) (info : Info) (g : Generator)
    (c : Catalogue) : Prop :=
  Typed N A g c ∧ c.Knows info.type

section Finish

variable {site : Site} {v : Value} {t : Ty} {ct : Contract} {move : Bool} {info : Info}

theorem record_halts (h : Typed N A g c) (hinfo : c.Knows info.type) :
    Halts (record site info) g c (Delivers N A) := by
  unfold record
  refine .read (x := get) rfl ?_
  dsimp only
  split
  · exact .rejected_bind h.interned rfl
  · exact .of_ok rfl (.of_eq h.interned rfl rfl) ⟨h.setMemo site.node hinfo _, hinfo⟩

theorem settle_halts (h : Typed N A g c) (hinfo : c.Knows info.type) :
    Halts (settle site info) g c (Delivers N A) := by
  unfold settle
  split
  · exact .clear h fun g₁ h₁ => record_halts h₁ hinfo
  · exact record_halts h hinfo

/-- A result with a type is delivered, or its node has one already. -/
theorem finish_halts (h : Typed N A g c) (ht : c.Knows t) :
    Halts (finish site v t ct move) g c (Delivers N A) := by
  have hsize := sizeOf_known h.interned ht
  by_cases hpos : 0 < g.heap.width t
  swap
  · rw [show g.heap.width t = 0 by omega] at hsize
    obtain ⟨hheap, -, hactive, -⟩ := forget_frame (g.shadow.take (g.shadow.length - site.depth)) g
    refine .of_ok (finish_empty hsize) ?_ ⟨?_, ht⟩
    · unfold dropped
      split
      · exact .of_eq h.interned hheap hactive
      · exact .refl h.interned
    · unfold dropped
      split
      · exact h.clear site.depth
      · exact h
  by_cases hd : site.degree = .value
  · let info : Info := ⟨v, ⟨0, 0⟩, t, site.lifetime, false, ct⟩
    have hinfo : c.Knows info.type := ht
    exact .of_ok (finish_value hsize hpos hd) (.of_eq h.interned rfl rfl)
      ⟨h.setTemp site.node hinfo _, ht⟩
  · refine .congr (finish_eq_settle hsize hpos hd) (.build h fun _ g₁ h₁ => ?_)
    cases move with
    | true => exact .build h₁ fun _ g₂ h₂ => settle_halts h₂ ht
    | false => exact settle_halts h₁ ht

/-- A result of a sub-node becomes the result of the node. -/
theorem passThrough_halts (h : Typed N A g c) (hinfo : c.Knows info.type) :
    Halts (passThrough site info) g c (Delivers N A) := by
  unfold passThrough
  split
  · refine .read (sizeOf_known h.interned hinfo) ?_
    dsimp only
    split
    · exact .value h hinfo fun v g₁ h₁ => finish_halts h₁ hinfo
    · exact finish_halts h hinfo
  · exact finish_halts h hinfo

/-- The result of a node that has none. -/
theorem finishVoid_halts (h : Typed N A g c) : Halts (finishVoid site 0) g c (Delivers N A) :=
  finish_halts h (Or.inl rfl)

/-- The result of a node that never ends. -/
theorem finishNever_halts (h : Typed N A g c) :
    Halts (do finishVoid site (← doesNotReturn)) g c (Delivers N A) :=
  .read (doesNotReturn_eq g) (finish_halts h (Heap.knows_of_mem h.standard.doesNotReturn))

end Finish

/-! ### Control flow -/

/-- The generator of sub-nodes ends for all nodes of the set, while the nodes `A` are in
    progress. -/
def SubGen.Halts (gen : SubGen) (N : Node → Tag → Prop) (A : List Node) : Prop :=
  ∀ (g : Generator) (c : Catalogue) (n : Node) (degree : Degree) (storage : Location),
    OrNull N n → Typed N A g c → Compile.Halts (gen n degree storage) g c (Delivers N A)

variable {gen : SubGen} {site : Site} {tag : Tag} {a b : Info}

theorem choiceBranch_halts (hgen : SubGen.Halts gen N A) (h : Typed N A g c)
    (hn : N site.node tag) {start merge i depth : Nat} (hi : i < tag.schema.nodeFields) :
    Halts (choiceBranch gen site start merge i depth) g c fun r g' c' =>
      Typed N A g' c' ∧ c'.Knows r.1.type := by
  unfold choiceBranch
  dsimp only
  refine .build h fun _ g₁ h₁ => ?_
  obtain ⟨k, hk, hN⟩ := h₁.child_eq hn hi
  refine .read hk ((hgen g₁ c k _ _ hN h₁).bind ?_)
  rintro r g₂ c₂ - ⟨h₂, hr⟩
  -- What is left once the value is there.
  have hrest {g₃ : Generator} (h₃ : Typed N A g₃ c₂) (v : Value) :
      Halts (branchEnd merge depth r v) g₃ c₂ fun r g' c' =>
        Typed N A g' c' ∧ c'.Knows r.1.type := by
    unfold branchEnd
    refine .clear h₃ fun g₄ h₄ => .read (x := get) rfl (.build h₄ fun _ g₅ h₅ => ?_)
    exact .pure h₅.interned ⟨h₅, hr⟩
  split
  · refine .read (doesNotReturn_eq g₂) ?_
    split
    · refine .read (sizeOf_known h₂.interned hr) ?_
      split
      · exact .value h₂ hr fun v g₃ h₃ => hrest h₃ v
      · exact hrest h₂ .void
    · exact hrest h₂ .void
  · exact hrest h₂ .void

/-- The type of a choice is that of a branch, if there is one. -/
theorem choiceType_halts {n : Node} {t t' : Ty} (h : Typed N A g c) (ht : c.Knows t)
    (ht' : c.Knows t') :
    Halts (choiceType n t t') g c fun u g' c' => Typed N A g' c' ∧ c'.Knows u := by
  rcases choiceType_eq h.standard ht ht' n with ⟨heq, -⟩ | ⟨heq, -⟩ | ⟨heq, -⟩
  · exact .of_ok heq (.refl h.interned) ⟨h, ht⟩
  · exact .of_ok heq (.refl h.interned) ⟨h, ht'⟩
  · exact .rejected h.interned heq

theorem choiceEnd_halts {never : Ty} {r₁ r₂ : Info × Value × Nat} (h : Typed N A g c)
    (h₁ : c.Knows r₁.1.type) (h₂ : c.Knows r₂.1.type) :
    Halts (choiceEnd site never r₁ r₂) g c (Delivers N A) := by
  unfold choiceEnd
  refine (choiceType_halts h h₁ h₂).bind ?_
  rintro t g₁ c₁ - ⟨h, ht⟩
  dsimp only
  split
  · exact finish_halts h ht
  refine .read (sizeOf_known h.interned ht) ?_
  split
  · exact finish_halts h ht
  split
  · exact finish_halts h ht
  split
  · exact finish_halts h ht
  · exact .build h fun v g₂ h₂ => finish_halts h₂ ht

theorem choice_halts (hgen : SubGen.Halts gen N A) (h : Typed N A g c) (hn : N site.node .cond) :
    Halts (choice gen site) g c (Delivers N A) := by
  unfold choice
  obtain ⟨k, hk, hN⟩ := h.child_eq hn (i := 0) (by decide)
  refine .read hk ?_
  dsimp only
  split
  · exact .rejected_bind h.interned rfl
  refine (hgen g c k .value nowhere hN h).bind ?_
  rintro cond g₁ c₁ - ⟨h₁, hcond⟩
  refine .read (doesNotReturn_eq g₁) ?_
  split
  · exact finish_halts h₁ hcond
  obtain ⟨fits, hfits, -⟩ := h₁.standard.fits_iff hcond (Heap.knows_of_mem h₁.standard.integer)
  refine .read (look_eq_ok hfits) ?_
  split
  · exact .rejected_bind h₁.interned rfl
  refine .build h₁ fun thenBlock g₂ h₂ => .build h₂ fun elseBlock g₃ h₃ =>
    .build h₃ fun merge g₄ h₄ => .value h₄ hcond fun tested g₅ h₅ =>
    .build h₅ fun zero g₆ h₆ => .build h₆ fun differs g₇ h₇ => .build h₇ fun _ g₈ h₈ => ?_
  refine .read (x := shadowDepth) rfl ((choiceBranch_halts hgen h₈ hn (by decide)).bind ?_)
  rintro r₁ g₉ c₂ - ⟨h₉, hr₁⟩
  refine (choiceBranch_halts hgen h₉ hn (by decide)).bind ?_
  rintro r₂ g₁₀ c₃ hg ⟨h₁₀, hr₂⟩
  exact .build h₁₀ fun _ g₁₁ h₁₁ => choiceEnd_halts h₁₁ (hg.knows hr₁) hr₂

theorem concatAt_halts (hgen : SubGen.Halts gen N A) (h : Typed N A g c)
    (hn : N site.node .concatenate) (storage : Location) :
    Halts (concatAt gen site storage) g c (Delivers N A) := by
  unfold concatAt
  refine .read (doesNotReturn_eq g) ?_
  obtain ⟨k, hk, hN⟩ := h.child_eq hn (i := 0) (by decide)
  refine .read hk ((hgen g c k .storeInto storage hN h).bind ?_)
  rintro left g₁ c₁ - ⟨h₁, hleft⟩
  split
  · exact finish_halts h₁ hleft
  refine .read (sizeOf_known h₁.interned hleft) ?_
  obtain ⟨k', hk', hN'⟩ := h₁.child_eq hn (i := 1) (by decide)
  refine .read hk' ((hgen g₁ c₁ k' .storeInto _ hN' h₁).bind ?_)
  rintro right g₂ c₂ hg ⟨h₂, hright⟩
  split
  · exact finish_halts h₂ hright
  refine .read (sizeOf_known h₂.interned hright) ?_
  refine .makes h₂ (h₂.standard.concatenate_adds (hg.knows hleft) hright) ?_
  intro t g₃ c₃ _ h₃ ht
  dsimp only
  split
  · exact .build h₃ fun v g₄ h₄ => finish_halts h₄ ht
  · exact finish_halts h₃ ht

theorem concatenation_halts (hgen : SubGen.Halts gen N A) (h : Typed N A g c)
    (hn : N site.node .concatenate) : Halts (concatenation gen site) g c (Delivers N A) := by
  by_cases hd : site.degree = .value
  · have heq : concatenation gen site = (do
        let slot ← build Module.alloca
        concatAt gen site ⟨slot, 0⟩) := by
      unfold concatenation
      rw [if_pos hd]
      rfl
    rw [heq]
    exact .build h fun slot g₁ h₁ => concatAt_halts hgen h₁ hn _
  · rw [concatenation_slot gen hd]
    exact concatAt_halts hgen h hn _

/-- Recording where a label is. -/
theorem setLabel_step {β : Type} {n : Node} {lbl : LabelInfo} {f : Unit → Gen β}
    {R : β → Generator → Catalogue → Prop} (h : Typed N A g c)
    (hf : ∀ g', Typed N A g' c → Halts (f ()) g' c R) : Halts (setLabel n lbl >>= f) g c R :=
  .step rfl (.of_eq h.interned rfl rfl)
    (hf { g with labels := g.labels.set n lbl } (h.of_eq rfl rfl rfl rfl))

theorem labelEnd_halts {target : Nat} (h : Typed N A g c) :
    Halts (labelEnd site target) g c (Delivers N A) :=
  setLabel_step h fun _ h₁ => .build h₁ fun _ _ h₂ => .build h₂ fun _ _ h₃ => finishVoid_halts h₃

theorem label_halts (hgen : SubGen.Halts gen N A) (h : Typed N A g c) (hn : N site.node .label) :
    Halts (label gen site) g c (Delivers N A) := by
  unfold label
  refine .read (x := get) rfl ?_
  dsimp only
  split
  · exact .rejected_bind h.interned rfl
  refine .build h fun target g₁ h₁ => setLabel_step h₁ fun g₂ h₂ => ?_
  obtain ⟨k, hk, hN⟩ := h₂.child_eq hn (i := 0) (by decide)
  refine .read hk ?_
  split
  · refine (hgen g₂ c k .ownSlot nowhere hN h₂).bind ?_
    rintro body g₃ c₃ - ⟨h₃, -⟩
    exact labelEnd_halts h₃
  · exact labelEnd_halts h₂

theorem jumpBack_halts (hgen : SubGen.Halts gen N A) (h : Typed N A g c) (hn : N site.node .goto)
    {target exhausted depth : Nat} :
    Halts (jumpBack gen site target exhausted depth) g c (Delivers N A) := by
  unfold jumpBack
  refine .clear h fun g₁ h₁ => .build h₁ fun _ g₂ h₂ => .build h₂ fun _ g₃ h₃ => ?_
  obtain ⟨k, hk, hN⟩ := h₃.child_eq hn (i := 2) (by decide)
  refine .read hk ((hgen g₃ c k _ _ hN h₃).bind ?_)
  rintro failure g₄ c₄ - ⟨h₄, hfailure⟩
  exact passThrough_halts h₄ hfailure

theorem jump_halts (hgen : SubGen.Halts gen N A) (h : Typed N A g c) (hn : N site.node .goto) :
    Halts (jump gen site) g c (Delivers N A) := by
  unfold jump
  obtain ⟨k, hk, -⟩ := h.child_eq hn (i := 0) (by decide)
  refine .read hk ?_
  dsimp only
  split
  · exact .rejected_bind h.interned rfl
  refine .read (x := get) rfl ?_
  split
  · exact .rejected h.interned rfl
  rename_i lbl hlbl
  split
  · exact .build h fun _ g₁ h₁ => .build h₁ fun _ g₂ h₂ => .build h₂ fun _ g₃ h₃ =>
      finishNever_halts h₃
  refine .build h fun again g₁ h₁ => .build h₁ fun exhausted g₂ h₂ =>
    .build h₂ fun granted g₃ h₃ => .build h₃ fun _ g₄ h₄ => .build h₄ fun _ g₅ h₅ => ?_
  refine .read (x := shadowDepth) rfl ?_
  obtain ⟨k₁, hk₁, hN₁⟩ := h₅.child_eq hn (i := 1) (by decide)
  refine .read hk₁ ?_
  split
  · refine (hgen g₅ c k₁ .ownSlot nowhere hN₁ h₅).bind ?_
    rintro success g₆ c₆ - ⟨h₆, -⟩
    exact jumpBack_halts hgen h₆ hn
  · exact jumpBack_halts hgen h₅ hn

theorem statements_halts (hgen : SubGen.Halts gen N A) {elems : List Node}
    (helems : ∀ e ∈ elems, OrNull N e) (h : Typed N A g c) :
    Halts (statements gen elems) g c fun _ g' c' => Typed N A g' c' := by
  induction elems generalizing g c with
  | nil => exact .pure h.interned h
  | cons e rest ih =>
    refine (hgen g c e .ownSlot nowhere (helems e List.mem_cons_self) h).bind ?_
    rintro info g₁ c₁ - ⟨h₁, -⟩
    exact ih (fun e he => helems e (List.mem_cons_of_mem _ he)) h₁

theorem block_halts (hgen : SubGen.Halts gen N A) (h : Typed N A g c) (hn : N site.node .block) :
    Halts (block gen site) g c (Delivers N A) := by
  obtain ⟨elems, helems, hall⟩ := h.closed.elements_eq h.interned.sized hn
  unfold block
  refine .read (look_eq_ok helems) ?_
  split
  · exact finishVoid_halts h
  rename_i lastNode hlast
  have hmem : lastNode ∈ elems := List.mem_of_getLast? hlast
  refine (statements_halts hgen (fun e he => hall e (List.dropLast_subset _ he)) h).bind ?_
  intro _ g₁ c₁ _ h₁
  refine (hgen g₁ c₁ lastNode .value nowhere (hall _ hmem) h₁).bind ?_
  rintro last g₂ c₂ - ⟨h₂, hlast⟩
  refine .read (doesNotReturn_eq g₂) ?_
  dsimp only
  split
  · refine .read (sizeOf_known h₂.interned hlast) ?_
    split <;> exact finish_halts h₂ hlast
  · exact finish_halts h₂ hlast

/-! ### Operations -/

theorem reference_halts (h : Typed N A g c) (hn : N site.node tag)
    (hfield : 0 < tag.schema.nodeFields) (copy : Bool) :
    Halts (reference site copy) g c (Delivers N A) := by
  obtain ⟨k, hk, -⟩ := h.child_eq hn hfield
  unfold reference
  refine .read hk ?_
  dsimp only
  split
  · exact .rejected_bind h.interned rfl
  refine .read (x := get) rfl ?_
  cases hmemo : g.memo.get? k with
  | some info =>
    have hinfo := h.memo k info hmemo
    dsimp only
    split
    · exact .value h hinfo fun v g₁ h₁ => finish_halts h₁ hinfo
    · refine .build h fun v g₁ h₁ => .makes h₁ (h₁.interned.pointerTo_adds hinfo) ?_
      exact fun t g₂ c₂ _ h₂ ht => finish_halts h₂ ht
  | none =>
    cases htemp : g.temps.get? k with
    | none => exact .rejected h.interned rfl
    | some info =>
      dsimp only
      split
      · exact finish_halts h (h.temps k info htemp)
      · exact .rejected h.interned rfl

/-- There is no tag at the null address. -/
theorem tag_null (h : Heap) : h.tag 0 = .error (.broken (.outOfRange 0 (0 + 1) h.arena.limit)) := by
  simp [Heap.tag, Heap.word, Arena.word, Arena.check, violate, bind, Except.bind]

theorem storedInto_halts (h : Typed N A g c) {dest : Node} (hdest : OrNull N dest)
    (ct : Contract) : Halts (storedInto dest ct) g c fun _ g' c' => Typed N A g' c' := by
  unfold storedInto
  rcases hdest with rfl | ⟨t, hn⟩
  · refine .look h.interned ?_ fun t ht => ?_
    · rw [tag_null]
      simp
    · rw [tag_null] at ht
      cases ht
  refine .read (look_eq_ok (h.closed.tag_eq h.interned.sized hn)) ?_
  split
  · rename_i ht
    subst ht
    obtain ⟨target, htarget, -⟩ := h.child_eq hn (i := 0) (by decide)
    refine .read htarget ?_
    refine .modify ?_ ?_
    · cases g.memo.get? target with
      | none => exact .refl h.interned
      | some info => exact .of_eq h.interned rfl rfl
    · cases hmemo : g.memo.get? target with
      | none => exact h
      | some info =>
        let wider : Info := { info with contract := info.contract.merge ct }
        have hwider : c.Knows wider.type := h.memo target info hmemo
        exact h.setMemo target hwider g.shadow
  · exact .pure h.interned h

theorem loadThrough_halts (h : Typed N A g c) (ha : c.Knows a.type) :
    Halts (loadThrough site a) g c (Delivers N A) := by
  obtain ⟨k, hk⟩ := h.interned.kind_known ha
  unfold loadThrough
  refine .read (look_eq_ok hk) ?_
  split
  · exact .rejected_bind h.interned rfl
  rename_i hkind
  rw [not_not] at hkind
  subst hkind
  obtain ⟨elem, -, helem, hknows, -⟩ := h.interned.pointer_of_kind ha hk
  refine .read (look_eq_ok helem) (.value h ha fun addr g₁ h₁ => ?_)
  refine .read (sizeOf_known h₁.interned hknows) (.build h₁ fun v g₂ h₂ => ?_)
  obtain ⟨holds, hholds⟩ := h₂.interned.holdsPointers_ok hknows
  exact .read (look_eq_ok hholds) (finish_halts h₂ hknows)

theorem storeThrough_halts (h : Typed N A g c) (hn : N site.node tag)
    (hfield : 0 < tag.schema.nodeFields) (ha : c.Knows a.type) (hb : c.Knows b.type) :
    Halts (storeThrough site a b) g c (Delivers N A) := by
  -- What follows the write itself.
  have hrest {g₁ : Generator} (h₁ : Typed N A g₁ c) : Halts (do
      storedInto (← child site.node 0) b.contract
      finishVoid site 0) g₁ c (Delivers N A) := by
    obtain ⟨k, hk, hN⟩ := h₁.child_eq hn hfield
    refine .read hk ((storedInto_halts h₁ hN b.contract).bind ?_)
    exact fun _ g₂ c₂ _ h₂ => finishVoid_halts h₂
  obtain ⟨k, hk⟩ := h.interned.kind_known ha
  unfold storeThrough
  refine .read (look_eq_ok hk) ?_
  dsimp only
  split
  · exact .rejected_bind h.interned rfl
  rename_i hkind
  rw [not_not] at hkind
  subst hkind
  obtain ⟨elem, -, helem, hknows, -⟩ := h.interned.pointer_of_kind ha hk
  obtain ⟨fits, hfits, -⟩ := h.standard.fits_iff hb hknows
  have hlook : (do g.heap.fits b.type (← g.heap.elem a.type) : Except Fault Bool) = .ok fits := by
    rw [except_bind_ok helem, hfits]
  refine .read (look_eq_ok hlook) ?_
  split
  · exact .rejected_bind h.interned rfl
  split
  · exact .rejected_bind h.interned rfl
  refine .read (sizeOf_known h.interned hb) ?_
  split
  · exact .value h ha fun addr g₁ h₁ => .value h₁ hb fun v g₂ h₂ =>
      .build h₂ fun _ g₃ h₃ => hrest h₃
  · exact hrest h

/-- A value of a scalar type is delivered. -/
theorem deliverScalar_halts {v : Value} {ct : Contract} (h : Typed N A g c) (pick : Scalars → Ty)
    (hpick : ∀ (heap : Heap) (c : Catalogue), heap.Standard c → c.Knows (pick heap.types.scalars)) :
    Halts (do finish site v (pick (← get).heap.types.scalars) ct true) g c (Delivers N A) :=
  .read (x := get) rfl (finish_halts h (hpick g.heap c h.standard))

theorem deliverInteger_halts {v : Value} (h : Typed N A g c) :
    Halts (do finishPlain site v (← integer)) g c (Delivers N A) :=
  .read (integer_eq g) (finish_halts h (Heap.knows_of_mem h.standard.integer))

theorem arithmetic_halts (h : Typed N A g c) (op : BinaryOp) (ha : c.Knows a.type)
    (hb : c.Knows b.type) : Halts (arithmetic site op a b) g c (Delivers N A) :=
  .value h ha fun _ _ h₁ => .value h₁ hb fun _ _ h₂ => .build h₂ fun _ _ h₃ =>
    deliverInteger_halts h₃

theorem stepByOne_halts (h : Typed N A g c) (op : BinaryOp) (ha : c.Knows a.type) :
    Halts (stepByOne site op a) g c (Delivers N A) :=
  .value h ha fun _ _ h₁ => .build h₁ fun _ _ h₂ => .build h₂ fun _ _ h₃ =>
    deliverInteger_halts h₃

theorem dynamify_halts (h : Typed N A g c) (ha : c.Knows a.type) :
    Halts (dynamify site a) g c (Delivers N A) := by
  have hrest {g₁ : Generator} (h₁ : Typed N A g₁ c) (v : Value) : Halts (do
      finish site v (← get).heap.types.scalars.dynamic ⟨a.contract.validity, never⟩ true) g₁ c
      (Delivers N A) :=
    deliverScalar_halts h₁ (·.dynamic) fun _ _ hs => Heap.knows_of_mem hs.dynamic
  unfold dynamify
  refine .read (sizeOf_known h.interned ha) ?_
  dsimp only
  split
  · exact .build h fun v g₁ h₁ => hrest h₁ v
  · exact .build h fun _ g₁ h₁ => .value h₁ ha fun _ g₂ h₂ => .build h₂ fun v g₃ h₃ => hrest h₃ v

theorem literal_halts (h : Typed N A g c) (hn : N site.node .literal) (infos : List Info) :
    Halts (dispatch gen site .literal infos) g c (Delivers N A) := by
  obtain ⟨t, object, hvalue, ht⟩ := h.closed.literal_eq h.interned.sized hn
  unfold dispatch
  refine .read (look_eq_ok hvalue) ?_
  refine .look h.interned (h.interned.literalWords_ne_endless hvalue ht) fun ws _ => ?_
  exact .build h fun v g₁ h₁ => finish_halts h₁ ht

/-! ### Nodes -/

/-- The operands of a node end one after the other. -/
theorem operands_halt (hgen : SubGen.Halts gen N A) {n : Node} (hn : N n tag) {i : Nat}
    {params : List Param} (hparams : ∀ p ∈ params, p ∈ tag.schema.params)
    (hi : i + params.length ≤ tag.schema.nodeFields) (h : Typed N A g c) :
    Halts (operands gen n i params) g c fun infos g' c' =>
      Typed N A g' c' ∧
        ∀ l, infos = some l → List.Forall₂ (fun _ info => c'.Knows info.type) params l := by
  induction params generalizing i g c with
  | nil =>
    refine .pure h.interned ⟨h, fun l hl => ?_⟩
    cases hl
    exact .nil
  | cons p rest ih =>
    rw [List.length_cons] at hi
    unfold operands
    obtain ⟨k, hk, hN⟩ := h.child_eq hn (i := i) (by omega)
    refine .read hk ?_
    dsimp only
    split
    · exact .rejected_bind h.interned rfl
    refine (hgen g c k .value nowhere hN h).bind ?_
    rintro info g₁ c₁ - ⟨h₁, hinfo⟩
    refine .read (doesNotReturn_eq g₁) ?_
    split
    · exact .pure h₁.interned ⟨h₁, fun l hl => by cases hl⟩
    have hrest : Halts (do return (← operands gen n (i + 1) rest).map (info :: ·)) g₁ c₁
        fun infos g' c' => Typed N A g' c' ∧
          ∀ l, infos = some l → List.Forall₂ (fun _ info => c'.Knows info.type) (p :: rest) l := by
      refine (ih (fun q hq => hparams q (List.mem_cons_of_mem _ hq)) (by omega) h₁).bind ?_
      rintro infos g₂ c₂ hg ⟨h₂, hinfos⟩
      refine .pure h₂.interned ⟨h₂, fun l hl => ?_⟩
      cases infos with
      | none => cases hl
      | some infos =>
        cases hl
        exact .cons (hg.knows hinfo) (hinfos infos rfl)
    cases p with
    | unchecked => exact hrest
    | checked want =>
      obtain ⟨want', hwant⟩ := g₁.heap.scalar_checked (hparams _ List.mem_cons_self)
      obtain ⟨hknows, -⟩ := h₁.standard.width_checked (hparams _ List.mem_cons_self) hwant
      obtain ⟨fits, hfits, -⟩ := h₁.standard.fits_iff hinfo hknows
      have hlook : (do g₁.heap.fits info.type (← g₁.heap.scalar want.word) : Except Fault Bool)
          = .ok fits := by
        rw [except_bind_ok hwant, hfits]
      refine .read (look_eq_ok hlook) ?_
      split
      · exact .rejected_bind h₁.interned rfl
      · exact hrest

/-- A node with its operands ends. -/
theorem dispatch_halts (hgen : SubGen.Halts gen N A) (h : Typed N A g c) (hn : N site.node tag)
    {infos : List Info}
    (hinfos : List.Forall₂ (fun _ info => c.Knows info.type) tag.schema.params infos) :
    Halts (dispatch gen site tag infos) g c (Delivers N A) := by
  cases tag with
  | literal => exact literal_halts h hn infos
  | zero => exact .build h fun _ _ h₁ => deliverInteger_halts h₁
  | increment =>
    obtain ⟨a, rfl, ha⟩ := one_operand hinfos
    exact stepByOne_halts h .add ha
  | decrement =>
    obtain ⟨a, rfl, ha⟩ := one_operand hinfos
    exact stepByOne_halts h .sub ha
  | add =>
    obtain ⟨a, b, rfl, ha, hb⟩ := two_operands hinfos
    exact arithmetic_halts h .add ha hb
  | subtract =>
    obtain ⟨a, b, rfl, ha, hb⟩ := two_operands hinfos
    exact arithmetic_halts h .sub ha hb
  | multiply =>
    obtain ⟨a, b, rfl, ha, hb⟩ := two_operands hinfos
    exact arithmetic_halts h .mul ha hb
  | udiv =>
    obtain ⟨a, b, rfl, ha, hb⟩ := two_operands hinfos
    exact arithmetic_halts h .udiv ha hb
  | urem =>
    obtain ⟨a, b, rfl, ha, hb⟩ := two_operands hinfos
    exact arithmetic_halts h .urem ha hb
  | random => exact .build h fun _ _ h₁ => deliverInteger_halts h₁
  | cond => exact choice_halts hgen h hn
  | pointer => exact reference_halts h hn (by decide) false
  | copy => exact reference_halts h hn (by decide) true
  | load =>
    obtain ⟨a, rfl, ha⟩ := one_operand hinfos
    exact loadThrough_halts h ha
  | store =>
    obtain ⟨a, b, rfl, ha, hb⟩ := two_operands hinfos
    exact storeThrough_halts h hn (by decide) ha hb
  | concatenate => exact concatenation_halts hgen h hn
  | dynamify =>
    obtain ⟨a, rfl, ha⟩ := one_operand hinfos
    exact dynamify_halts h ha
  | compile =>
    obtain ⟨a, rfl, ha⟩ := one_operand hinfos
    exact .value h ha fun _ _ h₁ => .build h₁ fun _ _ h₂ =>
      deliverScalar_halts h₂ (·.function) fun _ _ hs => Heap.knows_of_mem hs.function
  | run =>
    obtain ⟨a, rfl, ha⟩ := one_operand hinfos
    exact .value h ha fun _ _ h₁ => .build h₁ fun _ _ h₂ =>
      deliverScalar_halts h₂ (·.dynamic) fun _ _ hs => Heap.knows_of_mem hs.dynamic
  | label => exact label_halts hgen h hn
  | goto => exact jump_halts hgen h hn
  | block => exact block_halts hgen h hn

theorem body_halts (hgen : SubGen.Halts gen N A) (h : Typed N A g c) (hn : N site.node tag) :
    Halts (body gen site tag) g c (Delivers N A) := by
  have hfew : 0 + tag.schema.params.length ≤ tag.schema.nodeFields := by
    cases tag <;> decide
  unfold body
  refine (operands_halt hgen hn (fun p hp => hp) hfew h).bind ?_
  rintro infos g₁ c₁ - ⟨h₁, hinfos⟩
  cases infos with
  | some infos => exact dispatch_halts hgen h₁ hn (hinfos infos rfl)
  | none => exact finishNever_halts h₁

theorem nodeRest_halts (hgen : SubGen.Halts gen N A) (h : Typed N A g c) {n : Node} (hn : N n tag)
    (degree : Degree) (storage : Location) :
    Halts (nodeRest gen n degree storage) g c (Delivers N A) := by
  -- The body of the node, wherever its result goes.
  have hbody {g₁ : Generator} (h₁ : Typed N A g₁ c) (place : Location) :
      Halts (do body gen ⟨n, degree, place, g.clock, g.shadow.length⟩ (← look (·.tag n))) g₁ c
        (Delivers N A) :=
    .read (look_eq_ok (h₁.closed.tag_eq h₁.interned.sized hn)) (body_halts hgen h₁ hn)
  unfold nodeRest
  refine .read (x := get) rfl (.read (x := shadowDepth) rfl ?_)
  have h₁ : Typed N A { g with clock := g.clock + 1 } c := h.of_eq rfl rfl rfl rfl
  refine .step (a := ()) rfl (.of_eq h.interned rfl rfl) ?_
  dsimp only
  split
  · exact .build h₁ fun slot g₂ h₂ => hbody h₂ ⟨slot, 0⟩
  · exact hbody h₁ storage

/-- A node ends if its sub-nodes do. -/
theorem generateNode_halts (hgen : SubGen.Halts gen N A) (h : Typed N A g c) {n : Node}
    (hn : N n tag) (degree : Degree) (storage : Location) :
    Halts (generateNode gen n degree storage) g c (Delivers N A) := by
  obtain ⟨before, hbefore, hN⟩ := h.closed.preceding_eq h.interned.sized hn
  unfold generateNode
  refine .read (look_eq_ok hbefore) ?_
  dsimp only
  split
  · refine (hgen g c before .ownSlot nowhere hN h).bind ?_
    rintro info g₁ c₁ - ⟨h₁, -⟩
    exact nodeRest_halts hgen h₁ hn degree storage
  · exact nodeRest_halts hgen h hn degree storage

/-- What ends while a node is in progress ends as well without it. -/
theorem whileActive_halts {x : Gen Info} (h : Typed N A g c) (n : Node)
    (hx : ∀ g₁, Typed N (n :: A) g₁ c → Halts x g₁ c (Delivers N (n :: A))) :
    Halts (whileActive n x) g c (Delivers N A) := by
  have h₁ : Typed N (n :: A) { g with active := n :: g.active } c :=
    ⟨h.standard, h.closed, congrArg (n :: ·) h.active_eq, h.memo, h.temps⟩
  have hrun := hx _ h₁
  -- The node stands in front of the others that are in progress, so taking it out restores them.
  have hback {g₂ : Generator} {c₂ : Catalogue}
      (hg : Goes { g with active := n :: g.active } c g₂ c₂) :
      Goes g c { g₂ with active := g₂.active.erase n } c₂ := by
    refine ⟨hg.adds, ?_⟩
    show g₂.active.erase n = g.active
    rw [hg.active_eq, List.erase_cons_head]
  unfold Halts Yields at hrun ⊢
  unfold whileActive
  cases heq : x { g with active := n :: g.active } with
  | ok info g₂ =>
    rw [heq] at hrun
    obtain ⟨c₂, hg, h₂, hinfo⟩ := hrun
    refine ⟨c₂, hback hg, ⟨h₂.standard, h₂.closed, ?_, h₂.memo, h₂.temps⟩, hinfo⟩
    exact (hback hg).active_eq.trans h.active_eq
  | error e g₂ =>
    rw [heq] at hrun
    obtain ⟨he, c₂, hg⟩ := hrun
    exact ⟨he, c₂, hback hg⟩

end TreeMachine.Compile
