import TreeMachine.Proofs.Termination.Layout
import TreeMachine.Proofs.Compile.Ending
import TreeMachine.Proofs.Compile.Root

/-! # The order of generated blocks

  Generation keeps the blocks laid out in an order, in which the current block stands
  somewhere.  What is generated next goes between the blocks before the current one and those
  after it, which the surrounding nodes still need: the other branch of a choice and the
  block where both meet, or the block that a label stands for.  Only a jump back to a label
  breaks this order, so it begins a new run of blocks in front of all the others, and its
  first block is entered with a unit of the budget.  Nothing is asked of the heap.  Main
  statement: the blocks of a generated module are laid out in an order.
-/

namespace TreeMachine.Compile

open Code (Module Value Build Block LaidOut Before BinaryOp)

variable {α β : Type} {g g' g'' : Generator} {gen : SubGen} {site : Site}

/-! ### Straight code -/

/-- The state has gone on in the same block, which leads nowhere yet. -/
structure Prolongs (g g' : Generator) : Prop where
  module : g.module.Extends g'.module
  labels : g'.labels = g.labels

theorem Prolongs.refl (g : Generator) : Prolongs g g := ⟨.refl g.module, rfl⟩

theorem Prolongs.trans (h : Prolongs g g') (h' : Prolongs g' g'') : Prolongs g g'' :=
  ⟨h.module.trans h'.module, h'.labels.trans h.labels⟩

/-- From every state, generation that ends well has gone on in the same block. -/
def Stays (x : Gen α) : Prop := ∀ g, Yields x g (fun _ g' => Prolongs g g') fun _ _ => True

namespace Stays

theorem pure (a : α) : Stays (Pure.pure a) := fun g => Prolongs.refl g

theorem throw (e : Stop CompileError) : Stays (throw e : Gen α) := fun _ => trivial

theorem bind {x : Gen α} {f : α → Gen β} (hx : Stays x) (hf : ∀ a, Stays (f a)) :
    Stays (x >>= f) :=
  fun g => Yields.bind ((hx g).imp fun a g' h => (hf a g').imp fun _ _ h' => h.trans h')

theorem ite {p : Prop} [Decidable p] {x y : Gen α} (hx : Stays x) (hy : Stays y) :
    Stays (if p then x else y) := by
  split
  · exact hx
  · exact hy

/-- A first step that is made only if `p` holds. -/
theorem first {p : Prop} [Decidable p] {x : Gen Unit} {y : Gen α} (hx : Stays x) (hy : Stays y) :
    Stays (if p then x >>= fun _ => y else y) :=
  .ite (.bind hx fun _ => hy) hy

theorem get : Stays (MonadState.get : Gen Generator) := fun g => Prolongs.refl g

theorem modify {f : Generator → Generator} (hmodule : ∀ g, (f g).module = g.module)
    (hlabels : ∀ g, (f g).labels = g.labels) :
    Stays (modifyGet (fun s => ((), f s)) : Gen Unit) :=
  fun g =>
    ⟨.of_eq (congrArg Module.cur (hmodule g)) (congrArg Module.blocks (hmodule g)), hlabels g⟩

theorem look (f : Heap → Except Fault α) : Stays (Compile.look f) := by
  intro g
  cases hf : f g.heap with
  | ok a => exact Yields.of_ok (look_eq_ok hf) (.refl g)
  | error e =>
    have hlook : Compile.look f g = .error (.fault e) g := by simp only [Compile.look, hf]
    exact Yields.of_error hlook trivial

theorem onHeap (x : HeapM α) : Stays (Compile.onHeap x) := by
  intro g
  unfold Compile.onHeap Yields
  dsimp only
  cases x g.heap with
  | ok a heap => exact ⟨.of_eq rfl rfl, rfl⟩
  | error e heap => trivial

theorem build {x : Build α} (hx : Module.Stays x) : Stays (Compile.build x) :=
  fun g => ⟨hx g.module, rfl⟩

end Stays

/-! ### Results -/

theorem sizeOf_stays (t : Ty) : Stays (sizeOf t) := .bind (.look _) fun _ => .pure _

theorem child_stays (n : Node) (i : Nat) : Stays (child n i) := .look _

theorem doesNotReturn_stays : Stays doesNotReturn := .bind .get fun _ => .pure _

theorem integer_stays : Stays integer := .bind .get fun _ => .pure _

theorem valueOf_stays (info : Info) : Stays (valueOf info) := by
  unfold valueOf
  exact .ite (.bind (sizeOf_stays _) fun _ => .build (Module.load_stays _ _ _)) (.pure _)

theorem clearStack_stays (depth : Nat) : Stays (clearStack depth) := by
  intro g
  obtain ⟨-, hmodule, -, hlabels⟩ := forget_frame (g.shadow.take (g.shadow.length - depth)) g
  exact Yields.of_ok (clearStack_eq depth g)
    ⟨.of_eq (congrArg Module.cur hmodule) (congrArg Module.blocks hmodule), hlabels⟩

/-- A size is found, or the heap is broken. -/
theorem sizeOf_cases (t : Ty) (g : Generator) :
    (∃ w, sizeOf t g = .ok w g) ∨ ∃ e, sizeOf t g = .error e g := by
  unfold sizeOf
  cases hsize : g.heap.size t with
  | ok size =>
    have hlook : look (·.size t) g = .ok size g := look_eq_ok hsize
    exact Or.inl ⟨size.toNat, bind_eq_ok hlook⟩
  | error e =>
    have hlook : look (·.size t) g = .error (.fault e) g := by simp only [look, hsize]
    exact Or.inr ⟨_, bind_eq_error hlook⟩

theorem record_stays (info : Info) : Stays (record site info) :=
  .bind .get fun _ => .first (.throw _) <|
    .bind (.modify (fun _ => rfl) fun _ => rfl) fun _ => .pure _

theorem settle_stays (info : Info) : Stays (settle site info) := by
  unfold settle
  exact .first (clearStack_stays _) (record_stays info)

/-- Delivering a result writes it, at most. -/
theorem finish_stays (v : Value) (t : Ty) (c : Contract) (move : Bool) :
    Stays (finish site v t c move) := by
  intro g
  rcases sizeOf_cases t g with ⟨w, hsize⟩ | ⟨e, hsize⟩
  swap
  · exact Yields.of_error (bind_eq_error hsize) trivial
  rcases Nat.eq_zero_or_pos w with rfl | hpos
  · refine Yields.of_ok (finish_empty hsize) ?_
    unfold dropped
    split
    · exact (clearStack_stays site.depth g).ok (clearStack_eq site.depth g)
    · exact .refl g
  by_cases hd : site.degree = .value
  · exact Yields.of_ok (finish_value hsize hpos hd) ⟨.of_eq rfl rfl, rfl⟩
  · refine Yields.congr (finish_eq_settle hsize hpos hd) (Stays.bind ?_ (fun _ => ?_) g)
    · exact .build (Module.reserve_stays _ _)
    · exact .first (.build (Module.store_stays _ _ _)) (settle_stays _)

theorem finishVoid_stays (t : Ty) : Stays (finishVoid site t) := finish_stays _ _ _ _

theorem finishNever_stays : Stays (do finishVoid site (← doesNotReturn)) :=
  .bind doesNotReturn_stays fun _ => finishVoid_stays _

/-- A word is delivered as an integer. -/
theorem deliverInteger_stays (v : Value) : Stays (do finishPlain site v (← integer)) :=
  .bind integer_stays fun _ => finish_stays _ _ _ _

theorem passThrough_stays (sub : Info) : Stays (passThrough site sub) := by
  unfold passThrough
  refine .ite (.bind (sizeOf_stays _) fun size => ?_) (finish_stays _ _ _ _)
  dsimp only
  exact .ite (.bind (valueOf_stays _) fun _ => finish_stays _ _ _ _) (finish_stays _ _ _ _)

/-! ### Operations -/

theorem reference_stays (copy : Bool) : Stays (reference site copy) := by
  unfold reference
  refine .bind (child_stays _ _) fun target => ?_
  refine .first (.throw _) (.bind .get fun g => ?_)
  cases g.memo.get? target with
  | some info =>
    refine .ite (.bind (valueOf_stays _) fun _ => finish_stays _ _ _ _) ?_
    exact .bind (.build (Module.address_stays _ _)) fun _ => .bind (.onHeap _) fun _ =>
      finish_stays _ _ _ _
  | none =>
    cases g.temps.get? target with
    | some info => exact .ite (finish_stays _ _ _ _) (.throw _)
    | none => exact .throw _

theorem storedInto_stays (dest : Node) (c : Contract) : Stays (storedInto dest c) := by
  unfold storedInto
  refine .bind (.look _) fun tag => .ite (.bind (child_stays _ _) fun target => ?_) (.pure _)
  refine .modify (fun g => ?_) fun g => ?_
  · cases g.memo.get? target <;> rfl
  · cases g.memo.get? target <;> rfl

theorem loadThrough_stays (pointer : Info) : Stays (loadThrough site pointer) := by
  have hrest : Stays (do
      let elem ← look (·.elem pointer.type)
      let addr ← valueOf pointer
      let words ← sizeOf elem
      let v ← build (Module.loadIndirect addr words)
      let holds ← look (·.holdsPointers elem)
      finish site v elem (.loadedThrough pointer.contract holds) true) :=
    .bind (.look _) fun _ => .bind (valueOf_stays _) fun _ => .bind (sizeOf_stays _) fun _ =>
      .bind (.build (Module.loadIndirect_stays _ _)) fun _ => .bind (.look _) fun _ =>
        finish_stays _ _ _ _
  unfold loadThrough
  exact .bind (.look _) fun kind => .first (.throw _) hrest

theorem storeThrough_stays (pointer value : Info) : Stays (storeThrough site pointer value) := by
  have hend : Stays (do
      storedInto (← child site.node 0) value.contract
      finishVoid site 0) :=
    .bind (child_stays _ _) fun _ => .bind (storedInto_stays _ _) fun _ => finishVoid_stays _
  have hwrite : Stays (do
      if 0 < (← sizeOf value.type) then
        let addr ← valueOf pointer
        let v ← valueOf value
        build (Module.storeIndirect addr v)
      storedInto (← child site.node 0) value.contract
      finishVoid site 0) :=
    .bind (sizeOf_stays _) fun _ => .ite (.bind (valueOf_stays _) fun _ =>
      .bind (valueOf_stays _) fun _ =>
        .bind (.build (Module.storeIndirect_stays _ _)) fun _ => hend)
      hend
  -- The checks before it add no code.
  unfold storeThrough
  exact .bind (.look _) fun _ => .first (.throw _) <| .bind (.look _) fun _ => .first (.throw _) <|
    .first (.throw _) hwrite

theorem arithmetic_stays (op : BinaryOp) (a b : Info) : Stays (arithmetic site op a b) :=
  .bind (valueOf_stays _) fun _ => .bind (valueOf_stays _) fun _ =>
    .bind (.build (Module.binary_stays _ _ _)) fun _ => deliverInteger_stays _

theorem stepByOne_stays (op : BinaryOp) (a : Info) : Stays (stepByOne site op a) :=
  .bind (valueOf_stays _) fun _ => .bind (.build (Module.const_stays _)) fun _ =>
    .bind (.build (Module.binary_stays _ _ _)) fun _ => deliverInteger_stays _

/-- A value of a scalar type is delivered. -/
theorem deliverScalar_stays (v : Value) (c : Contract) (pick : Scalars → Ty) :
    Stays (do finish site v (pick (← get).heap.types.scalars) c true) :=
  .bind .get fun _ => finish_stays _ _ _ _

theorem dynamify_stays (a : Info) : Stays (dynamify site a) := by
  unfold dynamify
  refine .bind (sizeOf_stays _) fun size => ?_
  dsimp only
  refine .ite (.bind (.build (Module.const_stays _)) fun _ => ?_) ?_
  · exact deliverScalar_stays _ _ (·.dynamic)
  exact .bind (.build (Module.const_stays _)) fun _ => .bind (valueOf_stays _) fun _ =>
    .bind (.build (Module.call_stays _ _ _)) fun _ => deliverScalar_stays _ _ (·.dynamic)

/-- A call of the host with a value, whose answer is of a scalar type. -/
theorem callScalar_stays (a : Info) (name : HostName) (words : Int) (pick : Scalars → Ty) :
    Stays (do
      let x ← valueOf a
      let v ← build (Module.call name.text [x] words)
      finishPlain site v (pick (← get).heap.types.scalars)) :=
  .bind (valueOf_stays _) fun _ => .bind (.build (Module.call_stays _ _ _)) fun _ =>
    deliverScalar_stays _ _ pick

theorem choiceType_stays (n : Node) (t t' : Ty) : Stays (choiceType n t t') := by
  unfold choiceType
  refine .bind (.look _) fun _ => .ite (.pure _) ?_
  exact .bind (.look _) fun _ => .ite (.pure _) (.throw _)

theorem choiceEnd_stays (never : Ty) (r₁ r₂ : Info × Value × Nat) :
    Stays (choiceEnd site never r₁ r₂) := by
  unfold choiceEnd
  refine .bind (choiceType_stays _ _ _) fun t => ?_
  dsimp only
  refine .ite (finish_stays _ _ _ _) (.bind (sizeOf_stays _) fun size => ?_)
  refine .ite (finish_stays _ _ _ _) (.ite (finish_stays _ _ _ _) ?_)
  exact .ite (finish_stays _ _ _ _) (.bind (.build (Module.phi_stays _ _ _ _)) fun _ =>
    finish_stays _ _ _ _)

/-! ### Positions -/

/-- The current block stands between the blocks `before` and `after` of an order.  `F` relates
    a node to a block if it is a label that has still to be placed there; these blocks come
    after the current one. -/
structure Placed (F : Node → Nat → Prop) (g : Generator) (before after : List Nat) : Prop where
  laidOut : LaidOut HostName.finiteness.text g.module.blocks (before ++ g.module.cur :: after)
  pending : ∀ n target, g.labels.get? n = some ⟨target, true⟩ → F n target
  ahead : ∀ n target, F n target → target ∈ after
  target_lt : ∀ n lbl, g.labels.get? n = some lbl → lbl.target < g.module.blocks.size

variable {F F' : Node → Nat → Prop} {before before' after after' l₁ l₂ : List Nat} {i j : Nat}

theorem before_cur {c : Nat} (hj : j ∈ after) : Before (before ++ c :: after) c j := by
  rw [List.append_cons]
  exact Code.before_append (by simp) hj

namespace Placed

/-- Straight code does not move the current block. -/
theorem prolongs (h : Placed F g before after) (hg : Prolongs g g') : Placed F g' before after where
  laidOut := by
    rw [hg.module.cur]
    exact h.laidOut.extend hg.module.size hg.module.blocks
  pending n target hn := h.pending n target (hg.labels ▸ hn)
  ahead := h.ahead
  target_lt n lbl hn := by
    rw [hg.module.size]
    exact h.target_lt n lbl (hg.labels ▸ hn)

/-- A new block may stand anywhere in the order. -/
theorem addBlock (h : Placed F g before after) (name : String) (l₁ l₂ before' after' : List Nat)
    (hold : before ++ g.module.cur :: after = l₁ ++ l₂)
    (hnew : before' ++ g.module.cur :: after' = l₁ ++ g.module.blocks.size :: l₂)
    (hsub : after ⊆ after') :
    Placed F { g with module := (Module.newBlock name g.module).2 } before' after' where
  laidOut := by
    have hpush := h.laidOut
    rw [hold] at hpush
    show LaidOut _ (g.module.blocks.push _) (before' ++ g.module.cur :: after')
    rw [hnew]
    exact hpush.push name
  pending := h.pending
  ahead n target hn := hsub (h.ahead n target hn)
  target_lt n lbl hn := by
    show _ < (g.module.blocks.push _).size
    rw [Array.size_push]
    exact Nat.lt_succ_of_lt (h.target_lt n lbl hn)

/-- Generation goes on in another block. -/
theorem enter (h : Placed F g before after) (before' : List Nat) (i : Nat) (after' : List Nat)
    (horder : before ++ g.module.cur :: after = before' ++ i :: after')
    (hF : ∀ n target, F n target → target ∈ after') :
    Placed F { g with module := (Module.setInsertPoint i g.module).2 } before' after' := by
  have hi : i < g.module.blocks.size := by
    rw [← h.laidOut.mem_iff, horder]
    simp
  have hcur : (Module.setInsertPoint i g.module).2 = { g.module with cur := i } := by
    have hrun : Module.setInsertPoint i g.module = (if
          0 ≤ (i : Int) ∧ (i : Int) < g.module.blocks.size
        then modify fun m => { m with cur := (i : Int).toNat }
        else Module.fail (.insertPoint i) : Build Unit) g.module := rfl
    rw [hrun, if_pos ⟨by omega, by omega⟩]
    rfl
  rw [hcur]
  refine ⟨?_, h.pending, hF, h.target_lt⟩
  rw [← horder]
  exact h.laidOut

end Placed

/-- The current block stands before the blocks `after`. -/
def Arranged (F : Node → Nat → Prop) (after : List Nat) (g : Generator) : Prop :=
  ∃ before, Placed F g before after

/-- Generation that ends well leaves the current block before the blocks `after`. -/
def Arranges (F : Node → Nat → Prop) (after : List Nat) (x : Gen α) (g : Generator) : Prop :=
  Yields x g (fun _ g' => Arranged F after g') fun _ _ => True

theorem Placed.arranged (h : Placed F g before after) : Arranged F after g := ⟨before, h⟩

/-- A first step that adds straight code. -/
theorem Stays.placed {x : Gen α} {f : α → Gen β} {Q : β → Generator → Prop} (hx : Stays x)
    (h : Placed F g before after)
    (hf : ∀ a g', Placed F g' before after → Yields (f a) g' Q fun _ _ => True) :
    Yields (x >>= f) g Q fun _ _ => True :=
  Yields.bind ((hx g).imp fun a g' hg => hf a g' (h.prolongs hg))

theorem Stays.arranged {x : Gen α} {f : α → Gen β} (hx : Stays x) (h : Arranged F after g)
    (hf : ∀ a g', Arranged F after g' → Arranges F after (f a) g') :
    Arranges F after (x >>= f) g := by
  obtain ⟨before, h⟩ := h
  exact hx.placed h fun a g' h' => hf a g' h'.arranged

theorem Stays.arranges {x : Gen α} (hx : Stays x) (h : Arranged F after g) :
    Arranges F after x g := by
  obtain ⟨before, h⟩ := h
  exact (hx g).imp fun a g' hg => ⟨before, h.prolongs hg⟩

namespace Arranges

theorem bind {x : Gen α} {f : α → Gen β} (hx : Arranges F after x g)
    (hf : ∀ a g', Arranged F after g' → Arranges F after (f a) g') :
    Arranges F after (x >>= f) g :=
  Yields.bind (Yields.imp hx hf)

theorem ite {p : Prop} [Decidable p] {x y : Gen α} (hx : Arranges F after x g)
    (hy : Arranges F after y g) : Arranges F after (if p then x else y) g := by
  split
  · exact hx
  · exact hy

/-- A check that comes first. -/
theorem check {p : Prop} [Decidable p] {e : Stop CompileError} {y : Gen α}
    (hy : Arranges F after y g) :
    Arranges F after (if p then throw e >>= fun (_ : Unit) => y else y) g := by
  split
  · exact trivial
  · exact hy

end Arranges

namespace Placed

/-- A first new block, which goes after the current one. -/
theorem newBlock {f : Nat → Gen β} {Q : β → Generator → Prop} (l₁ : List Nat)
    (h : Placed F g before (l₁ ++ l₂)) (name : String)
    (hf : ∀ i g', Placed F g' before (l₁ ++ i :: l₂) → Yields (f i) g' Q fun _ _ => True) :
    Yields (build (Module.newBlock name) >>= f) g Q fun _ _ => True :=
  hf g.module.blocks.size _ <|
    h.addBlock name (before ++ g.module.cur :: l₁) l₂ _ _ (by simp) (by simp) (by simp)

/-- The code of the current block may change, if the blocks stay in their order. -/
theorem setModule (h : Placed F g before after) {m : Module} (hcur : m.cur = g.module.cur)
    (hm : LaidOut HostName.finiteness.text m.blocks (before ++ g.module.cur :: after)) :
    Placed F { g with module := m } before after where
  laidOut := by
    rw [← hcur] at hm
    exact hm
  pending := h.pending
  ahead := h.ahead
  target_lt n lbl hn := by
    show _ < m.blocks.size
    rw [h.laidOut.size_eq hm]
    exact h.target_lt n lbl hn

/-- A first jump to a later block. -/
theorem branch {f : Unit → Gen β} {Q : β → Generator → Prop} (h : Placed F g before after)
    (hj : j ∈ after) (hf : ∀ g', Placed F g' before after → Yields (f ()) g' Q fun _ _ => True) :
    Yields (build (Module.branch j) >>= f) g Q fun _ _ => True := by
  obtain ⟨hcur, hm⟩ := h.laidOut.branch (before_cur hj)
  exact hf _ (h.setModule hcur hm)

/-- A first choice between jumps to later blocks. -/
theorem branchIf {f : Unit → Gen β} {Q : β → Generator → Prop} (h : Placed F g before after)
    (cond : Value) (hi : i ∈ after) (hj : j ∈ after)
    (hf : ∀ g', Placed F g' before after → Yields (f ()) g' Q fun _ _ => True) :
    Yields (build (Module.branchIf cond i j) >>= f) g Q fun _ _ => True := by
  obtain ⟨hcur, hm⟩ := h.laidOut.branchIf cond (before_cur hi) (before_cur hj)
  exact hf _ (h.setModule hcur hm)

/-- A first jump that is only taken if the budget has a unit for it. -/
theorem asks {y : Gen β} {Q : β → Generator → Prop} (h : Placed F g before after) (i : Nat)
    (hj : j ∈ after) (hy : ∀ g', Placed F g' before after → Yields y g' Q fun _ _ => True) :
    Yields (do
        let granted ← build (Module.call HostName.finiteness.text [] 1)
        build (Module.branchIf granted i j)
        y) g Q fun _ _ => True := by
  obtain ⟨hcur, hm⟩ := h.laidOut.asks i (before_cur hj)
  exact hy _ (h.setModule hcur hm)

/-- Leaving the current block for a later one. -/
theorem goOn {f : Unit → Gen β} {Q : β → Generator → Prop} (l₁ : List Nat)
    (h : Placed F g before (l₁ ++ i :: after)) (hF : ∀ n target, F n target → target ∈ after)
    (hf : ∀ g', Arranged F after g' → Yields (f ()) g' Q fun _ _ => True) :
    Yields (build (Module.setInsertPoint i) >>= f) g Q fun _ _ => True :=
  hf _ (h.enter (before ++ g.module.cur :: l₁) i after (by simp) hF).arranged

end Placed

/-! ### Control flow -/

/-- The generator of sub-nodes keeps the blocks in an order. -/
def SubGen.Arranges (gen : SubGen) : Prop :=
  ∀ (F : Node → Nat → Prop) (after : List Nat) (g : Generator) (n : Node) (degree : Degree)
    (storage : Location), Arranged F after g → Compile.Arranges F after (gen n degree storage) g

theorem branchEnd_arranges {merge depth : Nat} {r : Info} {v : Value} (h : Arranged F after g)
    (hmerge : merge ∈ after) : Arranges F after (branchEnd merge depth r v) g := by
  unfold branchEnd
  refine (clearStack_stays depth).arranged h fun _ g₁ h₁ => ?_
  refine Stays.get.arranged h₁ fun _ g₂ h₂ => ?_
  obtain ⟨before, h₂⟩ := h₂
  exact h₂.branch hmerge fun g₃ h₃ => h₃.arranged

/-- A branch begins in the first of the blocks to come, and ends before the others. -/
theorem choiceBranch_arranges (hgen : SubGen.Arranges gen) {start merge i depth : Nat}
    (h : Arranged F (start :: after) g) (hF : ∀ n target, F n target → target ∈ after)
    (hmerge : merge ∈ after) :
    Yields (choiceBranch gen site start merge i depth) g (fun _ g' => Arranged F after g')
      fun _ _ => True := by
  obtain ⟨before, h⟩ := h
  unfold choiceBranch
  dsimp only
  refine h.goOn [] hF fun g₁ h₁ => ?_
  refine (child_stays _ _).arranged h₁ fun k g₂ h₂ => ?_
  refine (hgen F after g₂ k _ _ h₂).bind fun r g₃ h₃ => ?_
  have hend {g : Generator} (h : Arranged F after g) (v : Value) :
      Arranges F after (branchEnd merge depth r v) g := branchEnd_arranges h hmerge
  refine .ite (doesNotReturn_stays.arranged h₃ fun never g₄ h₄ => ?_) (hend h₃ .void)
  refine .ite ((sizeOf_stays _).arranged h₄ fun size g₅ h₅ => ?_) (hend h₄ .void)
  exact .ite ((valueOf_stays r).arranged h₅ fun v g₆ h₆ => hend h₆ v) (hend h₅ .void)

theorem choice_arranges (hgen : SubGen.Arranges gen) (h : Arranged F after g) :
    Arranges F after (choice gen site) g := by
  unfold choice
  refine (child_stays _ _).arranged h fun condNode g₁ h₁ => ?_
  dsimp only
  refine .check ((hgen F after g₁ condNode _ _ h₁).bind fun cond g₂ h₂ => ?_)
  refine doesNotReturn_stays.arranged h₂ fun never g₃ h₃ => ?_
  refine .ite ((finishVoid_stays _).arranges h₃) ?_
  refine (Stays.look _).arranged h₃ fun fits g₄ h₄ => .check ?_
  obtain ⟨before, h₄⟩ := h₄
  have hF := h₄.ahead
  -- The branches come first, one after the other, and then the block where they meet.
  refine h₄.newBlock [] "then" fun thenBlock g₅ h₅ => ?_
  refine h₅.newBlock [thenBlock] "else" fun elseBlock g₆ h₆ => ?_
  refine h₆.newBlock [thenBlock, elseBlock] "merge" fun merge g₇ h₇ => ?_
  refine (valueOf_stays cond).placed h₇ fun tested g₈ h₈ => ?_
  refine (Stays.build (Module.const_stays _)).placed h₈ fun zero g₉ h₉ => ?_
  refine (Stays.build (Module.binary_stays _ _ _)).placed h₉ fun differs g₁₀ h₁₀ => ?_
  refine h₁₀.branchIf differs (by simp) (by simp) fun g₁₁ h₁₁ => ?_
  refine Stays.placed (x := shadowDepth) (.bind .get fun _ => .pure _) h₁₁ fun depth g₁₂ h₁₂ => ?_
  have hF₁ : ∀ n target, F n target → target ∈ elseBlock :: merge :: after :=
    fun n target hn => by simp [hF n target hn]
  have hF₂ : ∀ n target, F n target → target ∈ merge :: after :=
    fun n target hn => by simp [hF n target hn]
  refine Yields.bind ((choiceBranch_arranges hgen h₁₂.arranged hF₁ (by simp)).imp ?_)
  intro r₁ g₁₃ h₁₃
  refine Yields.bind ((choiceBranch_arranges hgen h₁₃ hF₂ (by simp)).imp ?_)
  intro r₂ g₁₄ h₁₄
  obtain ⟨before', h₁₄⟩ := h₁₄
  exact h₁₄.goOn [] hF fun g₁₅ h₁₅ => (choiceEnd_stays never r₁ r₂).arranges h₁₅

theorem concatAt_arranges (hgen : SubGen.Arranges gen) (storage : Location)
    (h : Arranged F after g) : Arranges F after (concatAt gen site storage) g := by
  unfold concatAt
  refine doesNotReturn_stays.arranged h fun never g₁ h₁ => ?_
  refine (child_stays _ _).arranged h₁ fun k g₂ h₂ => ?_
  refine (hgen F after g₂ k _ _ h₂).bind fun left g₃ h₃ => ?_
  refine .ite ((finishVoid_stays _).arranges h₃) ?_
  refine (sizeOf_stays _).arranged h₃ fun size g₄ h₄ => ?_
  refine (child_stays _ _).arranged h₄ fun k' g₅ h₅ => ?_
  refine (hgen F after g₅ k' _ _ h₅).bind fun right g₆ h₆ => ?_
  refine .ite ((finishVoid_stays _).arranges h₆) ?_
  refine (sizeOf_stays _).arranged h₆ fun size' g₇ h₇ => ?_
  refine (Stays.onHeap _).arranged h₇ fun t g₈ h₈ => ?_
  dsimp only
  refine .ite ?_ ((finish_stays _ _ _ _).arranges h₈)
  exact (Stays.build (Module.load_stays _ _ _)).arranged h₈ fun v g₉ h₉ =>
    (finish_stays _ _ _ _).arranges h₉

theorem concatenation_arranges (hgen : SubGen.Arranges gen) (h : Arranged F after g) :
    Arranges F after (concatenation gen site) g := by
  by_cases hd : site.degree = .value
  · have heq : concatenation gen site = (do
        let slot ← build Module.alloca
        concatAt gen site ⟨slot, 0⟩) := by
      unfold concatenation
      rw [if_pos hd]
      rfl
    rw [heq]
    exact (Stays.build Module.alloca_stays).arranged h fun slot g₁ h₁ =>
      concatAt_arranges hgen ⟨slot, 0⟩ h₁
  · rw [concatenation_slot gen hd]
    exact concatAt_arranges hgen site.storage h

/-- Recording where a label is. -/
theorem Placed.setLabel {f : Unit → Gen β} {Q : β → Generator → Prop} {n : Node} {lbl : LabelInfo}
    (h : Placed F g before after) (F' : Node → Nat → Prop) (hlt : lbl.target < g.module.blocks.size)
    (hpending : lbl.forward = true → F' n lbl.target)
    (hothers : ∀ n' target, n' ≠ n → F n' target → F' n' target)
    (hahead : ∀ n target, F' n target → target ∈ after)
    (hf : ∀ g', Placed F' g' before after → Yields (f ()) g' Q fun _ _ => True) :
    Yields (setLabel n lbl >>= f) g Q fun _ _ => True := by
  refine hf { g with labels := g.labels.set n lbl } ⟨h.laidOut, fun n' target hn => ?_, hahead, ?_⟩
  · by_cases hn' : n' = n
    · subst hn'
      rw [Dict.get?_set_self] at hn
      cases hn
      exact hpending rfl
    · rw [Dict.get?_set_ne _ _ hn'] at hn
      exact hothers n' target hn' (h.pending n' target hn)
  · intro n' lbl' hn
    rcases Dict.get?_of_set hn with rfl | hold
    · exact hlt
    · exact h.target_lt n' lbl' hold

/-- The labels to be placed, with one more. -/
def alsoPending (F : Node → Nat → Prop) (n : Node) (target : Nat) : Node → Nat → Prop :=
  fun n' target' => F n' target' ∨ n' = n ∧ target' = target

theorem labelEnd_arranges {target : Nat} (hF : ∀ n target, F n target → target ∈ after)
    (h : Arranged (alsoPending F site.node target) (target :: after) g) :
    Arranges F after (labelEnd site target) g := by
  obtain ⟨before, h⟩ := h
  have hlt : target < g.module.blocks.size := by
    rw [← h.laidOut.mem_iff]
    simp
  unfold labelEnd
  refine h.setLabel F hlt (fun hforward => by cases hforward) ?_ ?_ fun g₁ h₁ => ?_
  · exact fun n' t hn hor => hor.resolve_right fun h => hn h.1
  · exact fun n t hn => List.mem_cons_of_mem _ (hF n t hn)
  refine h₁.branch List.mem_cons_self fun g₂ h₂ => ?_
  exact h₂.goOn [] hF fun g₃ h₃ => (finishVoid_stays 0).arranges h₃

/-- The block of a label comes right after its body. -/
theorem label_arranges (hgen : SubGen.Arranges gen) (h : Arranged F after g) :
    Arranges F after (label gen site) g := by
  unfold label
  refine Stays.get.arranged h fun g₀ g₁ h₁ => ?_
  dsimp only
  refine .check ?_
  obtain ⟨before, h₁⟩ := h₁
  have hF := h₁.ahead
  refine h₁.newBlock [] "label" fun target g₂ h₂ => ?_
  have hlt : target < g₂.module.blocks.size := by
    rw [← h₂.laidOut.mem_iff]
    simp
  refine h₂.setLabel (alsoPending F site.node target) hlt (fun _ => Or.inr ⟨rfl, rfl⟩) ?_ ?_
    fun g₃ h₃ => ?_
  · exact fun n' t _ hn => Or.inl hn
  · rintro n t (hn | ⟨-, rfl⟩)
    · exact List.mem_cons_of_mem _ (hF n t hn)
    · exact List.mem_cons_self
  refine (child_stays _ _).placed h₃ fun body g₄ h₄ => ?_
  split
  · refine Yields.bind ((hgen _ _ g₄ body _ _ h₄.arranged).imp fun _ g₅ h₅ => ?_)
    exact labelEnd_arranges hF h₅
  · exact labelEnd_arranges hF h₄.arranged

theorem jumpForward_arranges {target : Nat} (h : Placed F g before after)
    (htarget : target ∈ after) :
    Arranges F after (jumpForward site target) g := by
  have hF := h.ahead
  unfold jumpForward
  refine h.branch htarget fun g₁ h₁ => ?_
  refine h₁.newBlock [] "after_goto" fun next g₂ h₂ => ?_
  exact h₂.goOn [] hF fun g₃ h₃ => finishNever_stays.arranges h₃

/-- A jump back is taken from the last block of a run that stands in front of all the blocks
    that were there before. -/
theorem jumpBack_arranges (hgen : SubGen.Arranges gen) {target exhausted depth : Nat}
    (hF : ∀ n target, F n target → target ∈ after)
    (h : Arranged F (l₁ ++ exhausted :: after) g) (htarget : target ∈ l₁ ++ exhausted :: after) :
    Arranges F after (jumpBack gen site target exhausted depth) g := by
  obtain ⟨before, h⟩ := h
  unfold jumpBack
  refine (clearStack_stays depth).placed h fun _ g₁ h₁ => ?_
  refine h₁.branch htarget fun g₂ h₂ => h₂.goOn l₁ hF fun g₃ h₃ => ?_
  refine (child_stays _ _).arranged h₃ fun k g₄ h₄ => ?_
  refine (hgen F after g₄ k _ _ h₄).bind fun failure g₅ h₅ => ?_
  exact (passThrough_stays failure).arranges h₅

/-- The blocks of the success branch of a jump back stand in front of all others, and the one
    for its failure after the current one. -/
theorem jump_arranges (hgen : SubGen.Arranges gen) (h : Arranged F after g) :
    Arranges F after (jump gen site) g := by
  unfold jump
  refine (child_stays _ _).arranged h fun target g₁ h₁ => ?_
  dsimp only
  refine .check ?_
  obtain ⟨before, h₁⟩ := h₁
  have hF := h₁.ahead
  refine Yields.bind_ok (x := get) rfl ?_
  split
  · exact trivial
  rename_i lbl hlbl
  split
  · rename_i hforward
    exact jumpForward_arranges h₁ (hF _ _ (h₁.pending target lbl.target (by rw [hlbl, ← hforward])))
  -- The first block of the new run comes first of all, so nothing leads to it for free.
  let again := g₁.module.blocks.size
  have hlt : lbl.target < again := h₁.target_lt target lbl hlbl
  refine Yields.bind_ok (a := again) rfl ?_
  have h₂ := h₁.addBlock "again" [] _ (again :: before) after rfl rfl (List.Subset.refl after)
  refine h₂.newBlock [] "exhausted" fun exhausted g₃ h₃ => ?_
  refine h₃.asks again List.mem_cons_self fun g₄ h₄ => ?_
  -- The label is the block of an earlier node, so it stands behind the new run.
  have htarget : lbl.target ∈ (before ++ [g₄.module.cur]) ++ exhausted :: after := by
    have hmem := h₄.laidOut.mem_iff
    have hagain : again < g₄.module.blocks.size := (hmem again).1 (by simp)
    have htarget := (hmem lbl.target).2 (by omega)
    rw [List.nil_append, List.cons_append, List.mem_cons] at htarget
    simpa using htarget.resolve_left (by omega)
  have h₅ := h₄.enter [] again ((before ++ [g₄.module.cur]) ++ exhausted :: after) (by simp)
    fun n t hn => by simp [hF n t hn]
  refine Yields.bind_ok (a := ()) rfl (Yields.bind_ok (x := shadowDepth) rfl ?_)
  refine (child_stays _ _).placed h₅ fun success g₆ h₆ => ?_
  split
  · refine Yields.bind ((hgen F _ g₆ success _ _ h₆.arranged).imp fun _ g₇ h₇ => ?_)
    exact jumpBack_arranges hgen hF h₇ htarget
  · exact jumpBack_arranges hgen hF h₆.arranged htarget

theorem statements_arranges (hgen : SubGen.Arranges gen) (elems : List Node)
    (h : Arranged F after g) : Arranges F after (statements gen elems) g := by
  induction elems generalizing g with
  | nil => exact h
  | cons e rest ih => exact (hgen F after g e _ _ h).bind fun _ g₁ h₁ => ih h₁

theorem block_arranges (hgen : SubGen.Arranges gen) (h : Arranged F after g) :
    Arranges F after (block gen site) g := by
  unfold block
  refine (Stays.look _).arranged h fun elems g₁ h₁ => ?_
  split
  · exact (finishVoid_stays 0).arranges h₁
  rename_i lastNode _
  refine (statements_arranges hgen elems.dropLast h₁).bind fun _ g₂ h₂ => ?_
  refine (hgen F after g₂ lastNode _ _ h₂).bind fun last g₃ h₃ => ?_
  refine doesNotReturn_stays.arranged h₃ fun never g₄ h₄ => ?_
  dsimp only
  refine .ite ((sizeOf_stays _).arranged h₄ fun size g₅ h₅ => ?_)
    ((finish_stays _ _ _ _).arranges h₄)
  exact .ite ((finish_stays _ _ _ _).arranges h₅) ((finish_stays _ _ _ _).arranges h₅)

/-! ### Nodes -/

theorem operands_arrange (hgen : SubGen.Arranges gen) (n : Node) (i : Nat) (params : List Param)
    (h : Arranged F after g) : Arranges F after (operands gen n i params) g := by
  induction params generalizing i g with
  | nil => exact h
  | cons p rest ih =>
    unfold operands
    refine (child_stays _ _).arranged h fun operand g₁ h₁ => ?_
    dsimp only
    refine .check ((hgen F after g₁ operand _ _ h₁).bind fun info g₂ h₂ => ?_)
    refine doesNotReturn_stays.arranged h₂ fun never g₃ h₃ => .ite h₃ ?_
    have hrest {g : Generator} (h : Arranged F after g) : Arranges F after
        (do return (← operands gen n (i + 1) rest).map (info :: ·)) g :=
      (ih (i + 1) h).bind fun _ _ h => h
    cases p with
    | unchecked => exact hrest h₃
    | checked want => exact (Stays.look _).arranged h₃ fun fits g₄ h₄ => .check (hrest h₄)

theorem dispatch_arranges (hgen : SubGen.Arranges gen) (tag : Tag) (infos : List Info)
    (h : Arranged F after g) : Arranges F after (dispatch gen site tag infos) g := by
  unfold dispatch
  split
  · exact Stays.arranges (.bind (.look _) fun _ => .bind (.look _) fun _ =>
      .bind (.build (Module.const_stays _)) fun _ => finish_stays _ _ _ _) h
  · exact Stays.arranges (.bind (.build (Module.const_stays _)) fun _ => deliverInteger_stays _) h
  · exact (stepByOne_stays _ _).arranges h
  · exact (stepByOne_stays _ _).arranges h
  · exact (arithmetic_stays _ _ _).arranges h
  · exact (arithmetic_stays _ _ _).arranges h
  · exact (arithmetic_stays _ _ _).arranges h
  · exact (arithmetic_stays _ _ _).arranges h
  · exact (arithmetic_stays _ _ _).arranges h
  · exact Stays.arranges (.bind (.build (Module.call_stays _ _ _)) fun _ =>
      deliverInteger_stays _) h
  · exact (loadThrough_stays _).arranges h
  · exact (storeThrough_stays _ _).arranges h
  · exact (dynamify_stays _).arranges h
  · exact (callScalar_stays _ .compile 1 (·.function)).arranges h
  · exact (callScalar_stays _ .run 2 (·.dynamic)).arranges h
  · exact (reference_stays false).arranges h
  · exact (reference_stays true).arranges h
  · exact choice_arranges hgen h
  · exact concatenation_arranges hgen h
  · exact label_arranges hgen h
  · exact jump_arranges hgen h
  · exact block_arranges hgen h
  · exact trivial

theorem body_arranges (hgen : SubGen.Arranges gen) (tag : Tag) (h : Arranged F after g) :
    Arranges F after (body gen site tag) g := by
  unfold body
  refine (operands_arrange hgen _ _ _ h).bind fun infos g₁ h₁ => ?_
  cases infos with
  | some infos => exact dispatch_arranges hgen tag infos h₁
  | none => exact finishNever_stays.arranges h₁

theorem nodeRest_arranges (hgen : SubGen.Arranges gen) (n : Node) (degree : Degree)
    (storage : Location) (h : Arranged F after g) :
    Arranges F after (nodeRest gen n degree storage) g := by
  have hbody {g : Generator} (h : Arranged F after g) (site : Site) :
      Arranges F after (do body gen site (← look (·.tag n))) g :=
    (Stays.look _).arranged h fun tag _ h₁ => body_arranges hgen tag h₁
  unfold nodeRest
  refine Stays.get.arranged h fun g₀ g₁ h₁ => ?_
  refine Stays.arranged (x := shadowDepth) (.bind .get fun _ => .pure _) h₁ fun depth g₂ h₂ => ?_
  refine Stays.arranged (.modify (f := fun g => { g with clock := g.clock + 1 }) (fun _ => rfl)
    fun _ => rfl) h₂ fun _ g₃ h₃ => ?_
  dsimp only
  refine .ite ?_ (hbody h₃ ⟨n, degree, storage, g₀.clock, depth⟩)
  exact (Stays.build Module.alloca_stays).arranged h₃ fun slot g₄ h₄ =>
    hbody h₄ ⟨n, degree, ⟨slot, 0⟩, g₀.clock, depth⟩

theorem generateNode_arranges (hgen : SubGen.Arranges gen) (n : Node) (degree : Degree)
    (storage : Location) (h : Arranged F after g) :
    Arranges F after (generateNode gen n degree storage) g := by
  unfold generateNode
  refine (Stays.look _).arranged h fun before g₁ h₁ => ?_
  dsimp only
  split
  · exact (hgen F after g₁ before _ _ h₁).bind fun _ g₂ h₂ =>
      nodeRest_arranges hgen n degree storage h₂
  · exact nodeRest_arranges hgen n degree storage h₁

/-- Which nodes are in progress does not count. -/
theorem whileActive_arranges {x : Gen α} (n : Node) (h : Arranged F after g)
    (hx : ∀ g, Arranged F after g → Arranges F after x g) :
    Arranges F after (whileActive n x) g := by
  obtain ⟨before, h⟩ := h
  have hrun := hx { g with active := n :: g.active }
    ⟨before, h.laidOut, h.pending, h.ahead, h.target_lt⟩
  unfold Arranges Yields at hrun ⊢
  unfold whileActive
  cases heq : x { g with active := n :: g.active } with
  | ok a g₁ =>
    rw [heq] at hrun
    obtain ⟨before', h₁⟩ := hrun
    exact ⟨before', h₁.laidOut, h₁.pending, h₁.ahead, h₁.target_lt⟩
  | error e g₁ => trivial

/-- Every node is generated into its place in the order, by induction on the depth of the
    descent. -/
theorem generate_arranges (depth : Nat) : SubGen.Arranges (generate depth) := by
  induction depth with
  | zero =>
    intro F after g n degree storage h
    unfold generate
    refine .ite h (Stays.get.arranged h fun g₀ g₁ h₁ => .check ?_)
    exact trivial
  | succ depth ih =>
    intro F after g n degree storage h
    unfold generate
    refine .ite h (Stays.get.arranged h fun g₀ g₁ h₁ => .check ?_)
    exact whileActive_arranges n h₁ fun g h => generateNode_arranges ih n degree storage h

/-! ### Roots -/

/-- Before the first node there is only the entry. -/
theorem start_arranged (heap : Heap) (name : String) :
    Arranged (fun _ _ => False) [] (.start heap name) :=
  ⟨[], LaidOut.entry "entry", fun _ _ hn => (by cases hn), fun _ _ hn => hn.elim,
    fun _ _ hn => (by cases hn)⟩

theorem rootEnd_stays (info : Info) : Stays (rootEnd info) := by
  have hret (v : Value) : Stays (do
      build (Module.ret v)
      let _ ← look (·.typeText info.type)
      return info.type) :=
    .bind (.build (Module.ret_stays v)) fun _ => .bind (.look _) fun _ => .pure _
  unfold rootEnd
  exact .bind (sizeOf_stays _) fun _ =>
    .ite (.bind (valueOf_stays _) fun v => hret v) (hret .void)

/-- Generated blocks have an order in which none leads back, or to itself, without a unit of
    the budget.  That holds for the nodes of any heap: what stands in it does not count, and
    neither do the branches that labels and jumps stand in. -/
theorem compileModule_laidOut {root : Node} {heap heap' : Heap} {m : Module} {t : Ty}
    (h : compileModule root heap = .ok (m, t) heap') :
    ∃ order, LaidOut HostName.finiteness.text m.blocks order := by
  unfold compileModule at h
  by_cases hroot : root = 0
  · subst hroot
    cases h
  have hrun : Arranges (fun _ _ => False) [] (generateRoot root) (.start heap s!"fn_{root}") := by
    refine Yields.congr (generateRoot_eq hroot) ?_
    exact (generate_arranges _ _ _ _ root .ownSlot nowhere (start_arranged heap _)).bind
      fun info g h => (rootEnd_stays info).arranges h
  cases hgen : generateRoot root (.start heap s!"fn_{root}") with
  | error e g =>
    rw [hgen] at h
    cases h
  | ok t' g =>
    rw [hgen] at h
    cases h
    obtain ⟨before, hplaced⟩ := Yields.ok hrun hgen
    exact ⟨_, hplaced.laidOut⟩

end TreeMachine.Compile
