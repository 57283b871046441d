import TreeMachine.Proofs.Compile.Ending
import TreeMachine.Proofs.Compile.Recording

/-! # Cutting back

  A choice and a jump back each cut the shadow stack back to where it was when they began,
  so that what runs instead of a branch, or after it, sees none of its results.  Main
  statement: whatever keeps the shadow stack for sub-nodes, choices, concatenations, labels,
  jumps and blocks keep it from that.
-/

namespace TreeMachine.Compile

open Code (Module Value Build)

variable {N : Node → Tag → Prop} {p : Prop} {b b' g g' : Generator} {c c' : Catalogue}

/-! ### Sub-nodes -/

/-- The node, or one before it in its basic block. -/
inductive OnChain (h : Heap) : Node → Node → Prop where
  | self (n : Node) : OnChain h n n
  | before {n k m : Node} (hk : h.preceding n = .ok k) (hne : k ≠ 0) (hm : OnChain h k m) :
    OnChain h n m

/-- A node has been generated from the state `b`.  One in a slot of its own leaves only
    results in slots on the shadow stack, of itself and of nodes before it. -/
structure Generated (N : Node → Tag → Prop) (p : Prop) (b : Generator) (n : Node) (degree : Degree)
    (info : Info) (g : Generator) (c : Catalogue) : Prop where
  standing : Standing N p b g c
  sized : info.Sized g c
  value : degree = .value → info.addressable = false
  own : degree = .ownSlot → ∃ added, g.shadow = added ++ b.shadow ∧
    ∀ e ∈ added, e.addressable = true ∧ OnChain b.heap n e.node

/-- The generator of sub-nodes keeps the shadow stack for all nodes of the set, and where `p`
    holds, the clock has not run over when one is done. -/
def SubGen.Tracks (gen : SubGen) (N : Node → Tag → Prop) (p : Prop) : Prop :=
  ∀ (g : Generator) (c : Catalogue) (n : Node) (degree : Degree) (storage : Location),
    OrNull N n → Standing N p g g c →
    (degree = .storeInto → storage.slot < g.module.slots.size) →
    Leaves p (gen n degree storage) g c fun info g' c' =>
      Generated N p g n degree info g' c' ∧ (p → n ≠ 0 → g'.clock ≠ 0)

variable {gen : SubGen} {site : Site} {tag : Tag} {info : Info}

/-- What is left above the state in which a sub-node begins is above those before it. -/
theorem Leaves.inside {x : Gen Info} {n : Node} {degree : Degree} {S : Generator → Prop}
    (hx : Leaves p x g c fun info g' c' => Generated N p g n degree info g' c' ∧ S g')
    (h : Standing N p b g c) :
    Leaves p x g c fun info g' c' =>
      Standing N p b g' c' ∧ info.Sized g' c' ∧ (degree = .value → info.addressable = false) :=
  hx.imp fun _ _ _ _ hr => ⟨hr.1.standing.lower h.above, hr.1.sized, hr.1.value⟩

/-- A sub-node is generated in the midst of a node that began in `b`. -/
theorem SubGen.Tracks.inside (hgen : SubGen.Tracks gen N p) (h : Standing N p b g c) {n : Node}
    (hn : OrNull N n) {degree : Degree} {storage : Location}
    (hslot : degree = .storeInto → storage.slot < g.module.slots.size) :
    Leaves p (gen n degree storage) g c fun info g' c' =>
      Standing N p b g' c' ∧ info.Sized g' c' ∧ (degree = .value → info.addressable = false) :=
  (hgen g c n degree storage hn h.rebase hslot).inside h

/-- A sub-node whose result becomes the node's own is generated. -/
theorem SubGen.Tracks.branch (hgen : SubGen.Tracks gen N p) (h : Standing N p b g c)
    (hslot : site.degree ≠ .value → site.storage.slot < g.module.slots.size) {n : Node}
    (hn : OrNull N n) :
    Leaves p (gen n (branchTarget site).1 (branchTarget site).2) g c fun info g' c' =>
      Standing N p b g' c' ∧ info.Sized g' c' := by
  refine (hgen.inside h hn fun hd => ?_).imp fun _ _ _ _ hr => ⟨hr.1, hr.2.1⟩
  obtain ⟨hne, hloc⟩ := branchTarget_storeInto hd
  rw [hloc]
  exact hslot hne

/-! ### Choices -/

/-- What is known of the result of a branch and of its value, which is as wide as its type
    if one is wanted. -/
structure BranchSized (site : Site) (r : Info × Value × Nat) (g : Generator) (c : Catalogue) :
    Prop where
  knows : c.Knows r.1.type
  words : site.degree = .value → r.2.1.words = g.heap.width r.1.type

theorem BranchSized.proceeds {r : Info × Value × Nat} (h : BranchSized site r g c)
    (hi : g.heap.Interned c) (hg : Proceeds p g c g' c') : BranchSized site r g' c' where
  knows := hg.knows h.knows
  words hd := by
    rw [hg.width_eq hi h.knows]
    exact h.words hd

theorem branchEnd_cuts {merge depth : Nat} {r : Info} {v : Value} (h : Standing N p b g c)
    (hdepth : depth = b.shadow.length) (hr : c.Knows r.type)
    (hv : site.degree = .value → v.words = g.heap.width r.type) :
    Leaves p (branchEnd merge depth r v) g c fun r g' c' =>
      Standing N p b g' c' ∧ BranchSized site r g' c' := by
  unfold branchEnd
  refine .clear h hdepth fun g₁ hg₁ h₁ _ _ => .read (x := get) rfl ?_
  refine .build h₁ (Module.branch_spares _) fun _ g₂ hg₂ h₂ _ => ?_
  have hsized : BranchSized site (r, v, g₁.module.cur) g c := ⟨hr, hv⟩
  exact .pure h₂.interned ⟨h₂, hsized.proceeds h.interned (hg₁.trans hg₂)⟩

/-- A branch leaves the shadow stack as it was in `b`. -/
theorem choiceBranch_cuts (hgen : SubGen.Tracks gen N p) (h : Standing N p b g c)
    (hsite : site.Opens N tag p b' g) {start merge i depth : Nat} (hi : i < tag.schema.nodeFields)
    (hdepth : depth = b.shadow.length) :
    Leaves p (choiceBranch gen site start merge i depth) g c fun r g' c' =>
      Standing N p b g' c' ∧ BranchSized site r g' c' := by
  unfold choiceBranch
  dsimp only
  refine .build h (Module.setInsertPoint_spares _) fun _ g₁ hg₁ h₁ _ => ?_
  obtain ⟨k, hk, hN⟩ := h₁.child_eq hsite.node hi
  refine .read hk ((hgen.branch h₁ (hsite.proceeds hg₁).slot hN).bind ?_)
  rintro r g₂ c₂ - ⟨h₂, hr⟩
  -- The value has to be fetched before the shadow stack is cut back.
  split
  · refine .read (doesNotReturn_eq g₂) ?_
    split
    · refine .read (sizeOf_known h₂.interned hr.knows) ?_
      split
      · refine .value h₂ hr fun v g₃ hg₃ h₃ hv => branchEnd_cuts h₃ hdepth hr.knows fun _ => ?_
        rw [hg₃.width_eq h₂.interned hr.knows]
        exact hv
      · refine branchEnd_cuts h₂ hdepth hr.knows fun _ => ?_
        rw [show g₂.heap.width r.type = 0 by omega]
        rfl
    · rename_i hnever
      rw [not_not] at hnever
      -- There is nothing to fetch from a branch that does not return.
      refine branchEnd_cuts h₂ hdepth hr.knows fun _ => ?_
      rw [hnever, h₂.standard.width_doesNotReturn]
      rfl
  · rename_i hd
    rw [branchTarget_value] at hd
    exact branchEnd_cuts h₂ hdepth hr.knows fun hd' => absurd hd' hd

/-- The type of a choice is that of a branch, and as wide as both unless they do not
    return. -/
theorem choiceType_leaves {n : Node} {t t' : Ty} (hs : g.heap.Standard c) (ht : c.Knows t)
    (ht' : c.Knows t') :
    Leaves p (choiceType n t t') g c fun u g' c' => g' = g ∧ c' = c ∧ (u = t ∨ u = t') ∧
      (t = g.heap.types.scalars.doesNotReturn ∨ g.heap.width t = g.heap.width u) ∧
      (t' = g.heap.types.scalars.doesNotReturn ∨ g.heap.width t' = g.heap.width u) := by
  unfold choiceType
  refine .look fun fits hfits => ?_
  split
  · rename_i hyes
    subst hyes
    exact .pure hs.toInterned
      ⟨rfl, rfl, Or.inl rfl, Or.inr rfl, hs.width_fits ht' ht hfits⟩
  · refine .look fun fits' hfits' => ?_
    split
    · rename_i hyes
      subst hyes
      exact .pure hs.toInterned
        ⟨rfl, rfl, Or.inr rfl, hs.width_fits ht ht' hfits', Or.inr rfl⟩
    · exact .fail rfl

/-- Where the branches meet, the value of the one that has run is as wide as the choice. -/
theorem choiceEnd_records {r₁ r₂ : Info × Value × Nat} (h : Standing N p b g c)
    (hsite : site.Opens N tag p b g) (h₁ : BranchSized site r₁ g c)
    (h₂ : BranchSized site r₂ g c) :
    Leaves p (choiceEnd site g.heap.types.scalars.doesNotReturn r₁ r₂) g c
      (Recorded N p b site.node site.degree) := by
  have hnever := h.standard.width_doesNotReturn
  unfold choiceEnd
  refine (choiceType_leaves h.standard h₁.knows h₂.knows).bind ?_
  rintro t g' c' - ⟨rfl, rfl, ht, hw₁, hw₂⟩
  have hknows : c'.Knows t := by
    rcases ht with rfl | rfl
    · exact h₁.knows
    · exact h₂.knows
  dsimp only
  split
  · exact finish_records h hsite hknows fun hd => absurd hd ‹_›
  rename_i hd
  rw [not_not] at hd
  refine .read (sizeOf_known h.interned hknows) ?_
  split
  · exact finish_records_empty h hsite hknows ‹_›
  rename_i hpos
  -- A branch that does not return has no words, so the type is that of the other one.
  have hreturns : ¬ (r₁.1.type = g'.heap.types.scalars.doesNotReturn ∧
      r₂.1.type = g'.heap.types.scalars.doesNotReturn) := by
    rintro ⟨hr₁, hr₂⟩
    apply hpos
    rcases ht with rfl | rfl
    · rw [hr₁, hnever]
    · rw [hr₂, hnever]
  split
  · rename_i hr₁
    have hwidth := hw₂.resolve_left fun hr₂ => hreturns ⟨hr₁, hr₂⟩
    refine finish_records h hsite hknows fun _ => ?_
    rw [← hwidth]
    exact h₂.words hd
  rename_i hr₁
  have hv₁ := h₁.words hd
  rw [hw₁.resolve_left hr₁] at hv₁
  split
  · exact finish_records h hsite hknows fun _ => hv₁
  · exact .build h (Module.phi_spares _ _ _ _) fun v g₁ hg₁ hs hv =>
      finish_records_after hg₁ h.interned hs hsite hknows (hv.trans hv₁)

/-- Each branch of a choice sees the results that were there before the choice. -/
theorem choice_records (hgen : SubGen.Tracks gen N p) (h : Standing N p b g c)
    (hsite : site.Opens N .cond p b g) :
    Leaves p (choice gen site) g c (Recorded N p b site.node site.degree) := by
  unfold choice
  obtain ⟨k, hk, hN⟩ := h.child_eq hsite.node (i := 0) (by decide)
  refine .read hk ?_
  dsimp only
  split
  · exact .fail_bind rfl
  refine (hgen.inside h hN fun hd => by cases hd).bind ?_
  rintro cond g₁ c₁ hg₁ ⟨h₁, hcond, -⟩
  have hsite₁ := hsite.proceeds hg₁
  refine .read (doesNotReturn_eq g₁) ?_
  split
  · exact finishNever_records h₁ hsite₁ ‹_›
  refine .look fun fits _ => ?_
  split
  · exact .fail_bind rfl
  refine .build h₁ (Module.newBlock_spares _) fun thenBlock g₂ hg₂ h₂ _ => ?_
  refine .build h₂ (Module.newBlock_spares _) fun elseBlock g₃ hg₃ h₃ _ => ?_
  refine .build h₃ (Module.newBlock_spares _) fun merge g₄ hg₄ h₄ _ => ?_
  have hsized₄ := ((hg₂.trans hg₃).trans hg₄).sized h₁.interned hcond
  refine .value h₄ hsized₄ fun tested g₅ hg₅ h₅ _ => ?_
  refine .build h₅ (Module.const_spares _) fun zero g₆ hg₆ h₆ _ => ?_
  refine .build h₆ (Module.binary_spares _ _ _) fun differs g₇ hg₇ h₇ _ => ?_
  refine .build h₇ (Module.branchIf_spares _ _ _) fun _ g₈ hg₈ h₈ _ => ?_
  have htest := (((hg₅.trans hg₆).trans hg₇).trans hg₈)
  have hsite₈ := hsite₁.proceeds (((hg₂.trans hg₃).trans hg₄).trans htest)
  refine .read (x := shadowDepth) rfl ?_
  -- The branches begin in this state, above which nothing is left of either of them.
  refine (choiceBranch_cuts hgen h₈.rebase hsite₈ (by decide) rfl).bind ?_
  rintro r₁ g₉ c₉ hg₉ ⟨h₉, hr₁⟩
  refine (choiceBranch_cuts hgen h₉ (hsite₈.proceeds hg₉) (by decide) rfl).bind ?_
  rintro r₂ g₁₀ c₁₀ hg₁₀ ⟨h₁₀, hr₂⟩
  refine .build h₁₀ (Module.setInsertPoint_spares _) fun _ g₁₁ hg₁₁ h₁₁ _ => ?_
  have hg := (((hg₂.trans hg₃).trans hg₄).trans htest).trans ((hg₉.trans hg₁₀).trans hg₁₁)
  have hend := choiceEnd_records (h₁₁.lower h₈.above) (hsite₁.proceeds hg)
    (hr₁.proceeds h₉.interned (hg₁₀.trans hg₁₁)) (hr₂.proceeds h₁₀.interned hg₁₁)
  rw [hg.doesNotReturn_eq] at hend
  exact hend

/-! ### Concatenations -/

theorem concatAt_records (hgen : SubGen.Tracks gen N p) (h : Standing N p b g c)
    (hsite : site.Opens N .concatenate p b g) {storage : Location}
    (hslot : storage.slot < g.module.slots.size) :
    Leaves p (concatAt gen site storage) g c (Recorded N p b site.node site.degree) := by
  unfold concatAt
  refine .read (doesNotReturn_eq g) ?_
  obtain ⟨k, hk, hN⟩ := h.child_eq hsite.node (i := 0) (by decide)
  refine .read hk ((hgen.inside h hN fun _ => hslot).bind ?_)
  rintro left g₁ c₁ hg₁ ⟨h₁, hleft, -⟩
  have hsite₁ := hsite.proceeds hg₁
  split
  · rename_i hnever
    exact finishNever_records h₁ hsite₁ (hnever.trans hg₁.doesNotReturn_eq.symm)
  refine .read (sizeOf_known h₁.interned hleft.knows) ?_
  -- The second half goes behind the first one, into the same slot.
  obtain ⟨k', hk', hN'⟩ := h₁.child_eq hsite.node (i := 1) (by decide)
  have hnext := hgen g₁ c₁ k' .storeInto ⟨storage.slot, storage.off + g₁.heap.width left.type⟩ hN'
    h₁.rebase fun _ => Nat.lt_of_lt_of_le hslot hg₁.slots.size_le
  refine .read hk' ((hnext.inside h₁).bind ?_)
  rintro right g₂ c₂ hg₂ ⟨h₂, hright, -⟩
  have hsite₂ := hsite₁.proceeds hg₂
  split
  · rename_i hnever
    exact finishNever_records h₂ hsite₂ (hnever.trans (hg₁.trans hg₂).doesNotReturn_eq.symm)
  refine .read (sizeOf_known h₂.interned hright.knows) ?_
  have hleft₂ := hg₂.knows hleft.knows
  refine .makes h₂ (h₂.standard.concatenate_width hleft₂ hright.knows) ?_
  rintro t g₃ c₃ hg₃ h₃ ⟨hknows, hwidth⟩
  have hsite₃ := hsite₂.proceeds hg₃
  dsimp only
  split
  · -- The two halves are loaded as one value.
    have hwords : ((storage.off + g₁.heap.width left.type + g₂.heap.width right.type : Nat) : Int)
        - storage.off = (g₃.heap.width t : Nat) := by
      rw [hwidth, hg₂.width_eq h₁.interned hleft.knows]
      omega
    rw [hwords]
    exact .build h₃ (Module.load_spares _ _ _) fun v g₄ hg₄ h₄ hv =>
      finish_records_after hg₄ h₃.interned h₄ hsite₃ hknows hv
  · rename_i hd
    exact finish_records h₃ hsite₃ hknows fun hd' => absurd hd' hd

/-- The halves of a concatenation stay on the shadow stack until its node is done. -/
theorem concatenation_records (hgen : SubGen.Tracks gen N p) (h : Standing N p b g c)
    (hsite : site.Opens N .concatenate p b g) :
    Leaves p (concatenation gen site) g c (Recorded N p b site.node site.degree) := by
  by_cases hd : site.degree = .value
  · -- A slot of its own takes the halves.
    have heq : concatenation gen site = (do
        let slot ← build Module.alloca
        concatAt gen site ⟨slot, 0⟩) := by
      unfold concatenation
      rw [if_pos hd]
      rfl
    rw [heq]
    exact .alloca h fun slot g₁ hg₁ h₁ hslot =>
      concatAt_records hgen h₁ (hsite.proceeds hg₁) hslot
  · rw [concatenation_slot gen hd]
    exact concatAt_records hgen h hsite (hsite.slot hd)

/-! ### Labels and jumps -/

/-- A first step that records where a label is. -/
theorem Leaves.setLabel {β : Type} {n : Node} {lbl : LabelInfo} {f : Unit → Gen β}
    {R : β → Generator → Catalogue → Prop} (h : Standing N p b g c)
    (hf : ∀ g', Proceeds p g c g' c → Standing N p b g' c → Leaves p (f ()) g' c R) :
    Leaves p (setLabel n lbl >>= f) g c R := by
  have hg : Proceeds p g c { g with labels := g.labels.set n lbl } c :=
    .of_eq h.interned rfl rfl rfl
  exact .step rfl hg (hf _ hg (h.proceeds hg rfl rfl rfl))

theorem labelEnd_records {target : Nat} (h : Standing N p b g c) (hsite : site.Opens N tag p b g) :
    Leaves p (labelEnd site target) g c (Recorded N p b site.node site.degree) := by
  unfold labelEnd
  refine .setLabel h fun g₁ hg₁ h₁ => ?_
  refine .build h₁ (Module.branch_spares _) fun _ g₂ hg₂ h₂ _ => ?_
  refine .build h₂ (Module.setInsertPoint_spares _) fun _ g₃ hg₃ h₃ _ => ?_
  exact finishVoid_records h₃ (hsite.proceeds ((hg₁.trans hg₂).trans hg₃))

/-- What the body of a label leaves stays until the node is done. -/
theorem label_records (hgen : SubGen.Tracks gen N p) (h : Standing N p b g c)
    (hsite : site.Opens N .label p b g) :
    Leaves p (label gen site) g c (Recorded N p b site.node site.degree) := by
  unfold label
  refine .read (x := get) rfl ?_
  dsimp only
  split
  · exact .fail_bind rfl
  refine .build h (Module.newBlock_spares _) fun target g₁ hg₁ h₁ _ => ?_
  refine .setLabel h₁ fun g₂ hg₂ h₂ => ?_
  have hsite₂ := hsite.proceeds (hg₁.trans hg₂)
  obtain ⟨k, hk, hN⟩ := h₂.child_eq hsite.node (i := 0) (by decide)
  refine .read hk ?_
  split
  · refine (hgen.inside h₂ hN fun hd => by cases hd).bind ?_
    rintro body g₃ c₃ hg₃ ⟨h₃, -⟩
    exact labelEnd_records h₃ (hsite₂.proceeds hg₃)
  · exact labelEnd_records h₂ hsite₂

/-- The way past a jump sees what was there before the success branch. -/
theorem jumpBack_records (hgen : SubGen.Tracks gen N p) {target exhausted depth : Nat}
    (h : Standing N p b' g c) (hb : Above b b') (hdepth : depth = b'.shadow.length)
    (hsite : site.Opens N .goto p b g) :
    Leaves p (jumpBack gen site target exhausted depth) g c
      (Recorded N p b site.node site.degree) := by
  unfold jumpBack
  refine .clear h hdepth fun g₁ hg₁ h₁ _ _ => ?_
  refine .build h₁ (Module.branch_spares _) fun _ g₂ hg₂ h₂ _ => ?_
  refine .build h₂ (Module.setInsertPoint_spares _) fun _ g₃ hg₃ h₃ _ => ?_
  have hsite₃ := hsite.proceeds ((hg₁.trans hg₂).trans hg₃)
  obtain ⟨k, hk, hN⟩ := h₃.child_eq hsite.node (i := 2) (by decide)
  refine .read hk ((hgen.branch (h₃.lower hb) hsite₃.slot hN).bind ?_)
  rintro failure g₄ c₄ hg₄ ⟨h₄, hfailure⟩
  exact passThrough_records h₄ (hsite₃.proceeds hg₄) hfailure

theorem jump_records (hgen : SubGen.Tracks gen N p) (h : Standing N p b g c)
    (hsite : site.Opens N .goto p b g) :
    Leaves p (jump gen site) g c (Recorded N p b site.node site.degree) := by
  unfold jump
  obtain ⟨k, hk, -⟩ := h.child_eq hsite.node (i := 0) (by decide)
  refine .read hk ?_
  dsimp only
  split
  · exact .fail_bind rfl
  refine .read (x := get) rfl ?_
  split
  · exact .fail rfl
  rename_i lbl hlbl
  split
  · -- What comes after a jump forward is never run.
    refine .build h (Module.branch_spares _) fun _ g₁ hg₁ h₁ _ => ?_
    refine .build h₁ (Module.newBlock_spares _) fun after g₂ hg₂ h₂ _ => ?_
    refine .build h₂ (Module.setInsertPoint_spares _) fun _ g₃ hg₃ h₃ _ => ?_
    exact .read (doesNotReturn_eq g₃)
      (finishNever_records h₃ (hsite.proceeds ((hg₁.trans hg₂).trans hg₃)) rfl)
  refine .build h (Module.newBlock_spares _) fun again g₁ hg₁ h₁ _ => ?_
  refine .build h₁ (Module.newBlock_spares _) fun exhausted g₂ hg₂ h₂ _ => ?_
  refine .build h₂ (Module.call_spares _ _ _) fun granted g₃ hg₃ h₃ _ => ?_
  refine .build h₃ (Module.branchIf_spares _ _ _) fun _ g₄ hg₄ h₄ _ => ?_
  refine .build h₄ (Module.setInsertPoint_spares _) fun _ g₅ hg₅ h₅ _ => ?_
  have hsite₅ := hsite.proceeds ((((hg₁.trans hg₂).trans hg₃).trans hg₄).trans hg₅)
  refine .read (x := shadowDepth) rfl ?_
  -- The success branch begins in this state, and the shadow stack is cut back to it.
  obtain ⟨k₁, hk₁, hN₁⟩ := h₅.child_eq hsite.node (i := 1) (by decide)
  refine .read hk₁ ?_
  split
  · refine (hgen.inside h₅.rebase hN₁ fun hd => by cases hd).bind ?_
    rintro success g₆ c₆ hg₆ ⟨h₆, -⟩
    exact jumpBack_records hgen h₆ h₅.above rfl (hsite₅.proceeds hg₆)
  · exact jumpBack_records hgen h₅.rebase h₅.above rfl hsite₅

/-! ### Blocks -/

theorem statements_leave (hgen : SubGen.Tracks gen N p) {elems : List Node}
    (helems : ∀ e ∈ elems, OrNull N e) (h : Standing N p b g c) :
    Leaves p (statements gen elems) g c fun _ g' c' => Standing N p b g' c' := by
  induction elems generalizing g c with
  | nil => exact .pure h.interned h
  | cons e rest ih =>
    refine (hgen.inside h (helems e List.mem_cons_self) fun hd => by cases hd).bind ?_
    rintro info g₁ c₁ - ⟨h₁, -⟩
    exact ih (fun e he => helems e (List.mem_cons_of_mem _ he)) h₁

/-- The elements of a block stay on the shadow stack until it is done, so that the last one
    sees them. -/
theorem block_records (hgen : SubGen.Tracks gen N p) (h : Standing N p b g c)
    (hsite : site.Opens N .block p b g) :
    Leaves p (block gen site) g c (Recorded N p b site.node site.degree) := by
  obtain ⟨elems, helems, hall⟩ := h.closed.elements_eq h.interned.sized hsite.node
  unfold block
  refine .read (look_eq_ok helems) ?_
  split
  · exact finishVoid_records h hsite
  rename_i lastNode hlast
  have hmem : lastNode ∈ elems := List.mem_of_getLast? hlast
  -- The last element sees what the others have left.
  refine (statements_leave hgen (fun e he => hall e (List.dropLast_subset _ he)) h).bind ?_
  rintro - g₁ c₁ hg₁ h₁
  refine (hgen.inside h₁ (hall _ hmem) fun hd => by cases hd).bind ?_
  rintro last g₂ c₂ hg₂ ⟨h₂, hsized, hvalue⟩
  have hsite₂ := hsite.proceeds (hg₁.trans hg₂)
  refine .read (doesNotReturn_eq g₂) ?_
  dsimp only
  split
  · refine .read (sizeOf_known h₂.interned hsized.knows) ?_
    split
    · exact finish_records h₂ hsite₂ hsized.knows fun _ => hsized.words (hvalue rfl)
    · exact finish_records_empty h₂ hsite₂ hsized.knows (by omega)
  · rename_i hnever
    rw [not_not] at hnever
    refine finish_records_empty h₂ hsite₂ hsized.knows ?_
    rw [hnever]
    exact h₂.standard.width_doesNotReturn

end TreeMachine.Compile
