import TreeMachine.Proofs.Compile.Choices
import TreeMachine.Proofs.Compile.Halves
import TreeMachine.Proofs.Compile.Steady

/-! # Steady control flow

  Choices, jumps and labels open blocks, go on in others, and end each of them once.  Main
  statements: whatever generates sub-nodes in bounds, choices, concatenations, labels, jumps
  and blocks are generated in bounds from it.
-/

namespace TreeMachine.Compile

open Code (Module Value Bounds JumpsTo)
open Code.Module (Later Builds)

variable {N : Node → Tag → Prop} {g g' : Generator} {c c' : Catalogue} {U U' P : List Nat}

/-! ### Blocks -/

namespace Steady

theorem perm (h : Steady N U g c) (hU : U.Perm U') : Steady N U' g c :=
  h.onward (.refl h.interned) (h.underway.perm hU) rfl rfl rfl

/-- A new block waits for its end, and so does the current one. -/
theorem newBlock (h : Steady N (g.module.cur :: P) g c) (name : String) :
    Advances (build (Module.newBlock name)) g c fun i g' c' =>
      Steady N (g'.module.cur :: i :: P) g' c' ∧ g'.module.reach.block i := by
  obtain ⟨i, m, hm, hb, hi⟩ := h.underway.newBlock_builds name
  refine h.builds hm hb.later hb.underway fun g' hg' _ hs => ?_
  rw [hg']
  exact ⟨hs, hi⟩

/-- A new block waits for its end, whatever the current one does. -/
theorem opens (h : Steady N U g c) (name : String) :
    Advances (build (Module.newBlock name)) g c fun i g' c' => Steady N (i :: U) g' c' := by
  obtain ⟨i, m, hm, hu, hl, -⟩ := h.underway.newBlock name
  exact h.builds hm hl hu fun g' _ _ hs => hs

/-- Going on in a block that waits for its end. -/
theorem enter {i : Nat} (h : Steady N (i :: P) g c) :
    Advances (build (Module.setInsertPoint i)) g c fun _ g' c' =>
      Steady N (g'.module.cur :: P) g' c' ∧ g'.module.cur = i := by
  obtain ⟨m, hm, hu, hl, hcur⟩ := h.underway.setInsertPoint List.mem_cons_self
  refine h.builds hm hl hu fun g' hg' _ hs => ?_
  rw [hg', hcur]
  exact ⟨hs, rfl⟩

end Steady

theorem Onward.jumpsTo (h : Onward g c g' c') (hs : Steady N U g c) {a i : Nat}
    (hj : JumpsTo g.module.blocks a i) : JumpsTo g'.module.blocks a i :=
  hs.underway.jumpsTo h.later hj

/-! ### Sub-nodes -/

/-- The node of the site is one of the set, and there is a slot for its result if there has
    to be one. -/
structure Site.Fits (site : Site) (N : Node → Tag → Prop) (tag : Tag) (g : Generator) : Prop where
  node : N site.node tag
  slot : site.degree ≠ .value → HasSlot g.module site.storage.slot

theorem Site.Fits.onward {site : Site} {tag : Tag} (h : site.Fits N tag g)
    (ho : Onward g c g' c') : site.Fits N tag g' :=
  ⟨h.node, fun hd => (h.slot hd).later ho.later⟩

variable {gen : SubGen} {site : Site} {tag : Tag}

/-- What is wanted of a branch is wanted of its node. -/
theorem branchTarget_value (site : Site) :
    (branchTarget site).1 = .value ↔ site.degree = .value := by
  unfold branchTarget
  split <;> simp_all

theorem branchTarget_storeInto {site : Site} (h : (branchTarget site).1 = .storeInto) :
    site.degree ≠ .value ∧ (branchTarget site).2 = site.storage := by
  unfold branchTarget at h ⊢
  split at h
  · cases h
  · rename_i hd
    rw [if_neg hd]
    exact ⟨hd, rfl⟩

/-- What a branch leaves: a result, which is in registers if a value is wanted, and a jump
    to where the branches meet. -/
structure Branch (site : Site) (merge : Nat) (result : Info × Value × Nat) (g : Generator)
    (c : Catalogue) : Prop where
  fits : result.1.Fits g c
  value : site.degree = .value → g.module.reach.value result.2.1 (g.heap.width result.1.type)
  jumps : JumpsTo g.module.blocks result.2.2 merge

theorem Branch.onward {merge : Nat} {result : Info × Value × Nat} (h : Branch site merge result g c)
    (hs : Steady N U g c) (ho : Onward g c g' c') : Branch site merge result g' c' where
  fits := ho.fits hs.interned h.fits
  value hd := ho.value hs.interned h.fits.knows (h.value hd)
  jumps := ho.jumpsTo hs h.jumps

/-- What is left of a branch once its value is there. -/
def branchEnd (merge depth : Nat) (r : Info) (v : Value) : Gen (Info × Value × Nat) := do
  clearStack depth
  let stop := (← get).module.cur
  build (Module.branch merge)
  return (r, v, stop)

/-- What follows once the body of a label is generated. -/
def labelEnd (site : Site) (target : Nat) : Gen Info := do
  setLabel site.node ⟨target, false⟩
  build (Module.branch target)
  build (Module.setInsertPoint target)
  finishVoid site 0

/-- A jump forward.  What comes after it goes to a block that nothing leads to. -/
def jumpForward (site : Site) (target : Nat) : Gen Info := do
  build (Module.branch target)
  let after ← build (Module.newBlock "after_goto")
  build (Module.setInsertPoint after)
  finishVoid site (← doesNotReturn)

/-- The jump itself, and what is done instead of it when the budget is spent. -/
def jumpBack (gen : SubGen) (site : Site) (target exhausted depth : Nat) : Gen Info := do
  clearStack depth
  build (Module.branch target)
  build (Module.setInsertPoint exhausted)
  let (degree, storage) := branchTarget site
  let failure ← gen (← child site.node 2) degree storage
  passThrough site failure

end TreeMachine.Compile
