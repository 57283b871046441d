import TreeMachine.Proofs.Loop.Generation

/-! # The passes of a loop

  At the end of each pass the code asks the host whether to go on.  Main statement: with a
  budget for `b` jumps back the program of a loop does `b + 1` passes and returns the result.
-/

namespace TreeMachine.Compile

open Code (Module Value Program Frame Host Run Stands Contains Leads)

variable {k : Nat} {L : Loop k} {name : String} {mL mB mE : Module} {R t RB RE r : Nat} {n : Int}
  {B : Nat} {σ : Type} {host : Host σ} {p : Program}

/-- The host grants `b` jumps back in the world `world b`, for all `b` up to `B`. -/
structure Grants (host : Host σ) (world : Nat → σ) (B : Nat) : Prop where
  grants : ∃ fn : List UInt64 → Run σ (List UInt64),
    host.function? HostName.finiteness.text = some fn ∧
      (∀ b, b < B → fn [] (world (b + 1)) = .ok [1] (world b)) ∧ fn [] (world 0) = .ok [0] (world 0)

section Cycles

variable {world : Nat → σ} {f : Frame} {env : Fin k → UInt64}

/-- The code of the assignments, from the label to the jump back. -/
theorem Cycles.pass (h : Cycles L name mL R t mB RB)
    (hcon : Contains p [] (jumped t mB RB n) (RB + 1)) (hf : f.Fits p) (henv : Env slotOf p f env)
    (s : σ) : ∃ f', f'.Fits p ∧ Env slotOf p f' (L.pass env) ∧
      Leads host p (mB.blocks.size - mL.blocks.size) ⟨⟨t, 0⟩, f, s⟩ ⟨mB.here, f', s⟩ := by
  have hgrows := @Module.jumpBack_grows mB RB HostName.finiteness.text "again" "exhausted" t n
    h.body.opened
  obtain ⟨f', hf', hlead, hdone⟩ := h.body.does host p [] (fun i hi => by cases hi)
    (hcon.below (hgrows.below []) (Nat.le_succ RB)) f s hf
  rw [h.target] at hlead
  exact ⟨f', hf', hdone env henv, hlead⟩

/-- One pass: the assignments are done, and the host says where it goes on. -/
theorem Cycles.cycle (h : Cycles L name mL R t mB RB)
    (hcon : Contains p [] (jumped t mB RB n) (RB + 1)) (hf : f.Fits p) (henv : Env slotOf p f env)
    {fn : List UInt64 → Run σ (List UInt64)}
    (hfn : host.function? HostName.finiteness.text = some fn) {w : UInt64} {s s' : σ}
    (hrun : fn [] s = .ok [w] s') :
    ∃ f', f'.Fits p ∧ Env slotOf p f' (L.pass env) ∧
      Leads host p (mB.blocks.size - mL.blocks.size + 2) ⟨⟨t, 0⟩, f, s⟩
        ⟨if w ≠ 0 then ⟨t, 0⟩ else (jumped t mB RB n).here, f', s'⟩ := by
  obtain ⟨f₁, hf₁, henv₁, hlead₁⟩ :=
    @Cycles.pass k L name mL mB R t RB n σ host p f env h hcon hf henv s
  have hgrows := h.body.grows.trans (@Module.jumpBack_grows mB RB HostName.finiteness.text "again"
    "exhausted" t n h.body.opened)
  obtain ⟨b, hb, hg⟩ := (hcon.below (hgrows.below []) (Nat.le_succ_of_le h.body.le)).blocks t _
    List.not_mem_nil h.block
  obtain ⟨f₂, hf₂, hsets, hlead₂⟩ :=
    Module.jumpBack_leads h.body.opened hfn hrun hcon hb hg.phis hf₁
  refine ⟨f₂, hf₂, ?_, hlead₁.trans hlead₂⟩
  intro i
  rw [hsets.words]
  exact henv₁ i

/-- All passes, by induction on the budget that is left. -/
theorem Cycles.cycles (h : Cycles L name mL R t mB RB)
    (hcon : Contains p [] (jumped t mB RB n) (RB + 1)) (hgrants : Grants host world B)
    (hf : f.Fits p) (henv : Env slotOf p f env) {b : Nat} (hb : b ≤ B) :
    ∃ f', f'.Fits p ∧ Env slotOf p f' (L.pass^[b + 1] env) ∧
      Leads host p ((b + 1) * (mB.blocks.size - mL.blocks.size + 2)) ⟨⟨t, 0⟩, f, world b⟩
        ⟨(jumped t mB RB n).here, f', world 0⟩ := by
  obtain ⟨fn, hfn, hmore, hlast⟩ := hgrants.grants
  induction b generalizing f env with
  | zero =>
    obtain ⟨f', hf', henv', hlead⟩ := h.cycle hcon hf henv hfn hlast
    exact ⟨f', hf', henv', hlead.mono (by omega)⟩
  | succ b ih =>
    obtain ⟨f₁, hf₁, henv₁, hlead₁⟩ := h.cycle hcon hf henv hfn (hmore b hb)
    obtain ⟨f', hf', henv', hlead⟩ := ih hf₁ henv₁ (Nat.le_of_succ_le hb)
    refine ⟨f', hf', henv', (hlead₁.trans hlead).mono ?_⟩
    rw [Nat.succ_mul (b + 1)]
    omega

end Cycles

/-- The program of a loop returns the result after one pass more than there are jumps back. -/
theorem Coded.run (h : Coded L name mL R t mB RB n mE RE r)
    (hmemory : L.cost ≤ Arena.maxWords.toNat) {world : Nat → σ} (hgrants : Grants host world B)
    {b : Nat} (hb : b ≤ B) {fuel : Nat}
    (hfuel : ((mE.returning (Value.run r 1)).finished.blocks.size + 1) * (b + 1) ≤ fuel) :
    (mE.returning (Value.run r 1)).finished.run host fuel (world b)
      = .ok [L.answer (b + 1)] (world 0) := by
  have hmax := Arena.maxWords_toNat
  have hfew := h.few
  have hslots := h.slots
  have ho := h.leaves.opened
  obtain ⟨hcon, hret⟩ := Module.contains_returning ho h.leaves.count (by omega) (by omega)
    (Value.run r 1)
  obtain ⟨f₀, hcreate⟩ :=
    Module.create_returning ho h.leaves.count (by omega) (by omega) (Value.run r 1)
  have hjumped := hcon.below (h.leaves.grows.below []) h.leaves.le
  have hback := @Module.jumpBack_grows mB RB HostName.finiteness.text "again" "exhausted" t n
    h.body.opened
  have hentered := hjumped.below ((h.body.grows.trans hback).below [])
    (Nat.le_succ_of_le h.body.le)
  have hnone : ∀ m : Module, m.Waiting [] := fun m i hi => by cases hi
  -- From the entry to the label, all passes, and from past the jump to the end.
  obtain ⟨f₁, hf₁, hlead₁, henv₁⟩ :=
    h.enters.does host _ [] (hnone _) hentered f₀ (world b) (Frame.fits_create hcreate)
  rw [h.target] at hlead₁
  obtain ⟨f₂, hf₂, henv₂, hlead₂⟩ := h.toCycles.cycles hjumped hgrants hf₁ henv₁ hb
  obtain ⟨f₃, hf₃, hlead₃, hword⟩ := h.leaves.does host _ [] (hnone _) hcon f₂ (world 0) hf₂
  have hstands : Stands f₃.regs r [L.answer (b + 1)] := Stands.single.2 (hword _ henv₂)
  refine Leads.run ((hlead₁.trans hlead₂).trans hlead₃) hcreate hret hf₃ hstands ?_
  -- Every pass enters no more blocks than the program has.
  have hsize : (mE.returning (Value.run r 1)).finished.blocks.size = mE.blocks.size := by
    simp [Module.finished, Module.returning]
  have hsizeB := h.body.grows.size_le
  have hsizeE := h.leaves.grows.size_le
  have hsizeJ : (jumped t mB RB n).blocks.size = mB.blocks.size + 2 := Module.size_jumpBack
  have hcreated : (Module.create name).blocks.size = 1 := rfl
  rw [hsize] at hfuel
  rw [hsizeJ] at hsizeE ⊢
  rw [hcreated]
  refine Nat.lt_of_lt_of_le ?_ hfuel
  obtain ⟨d, hd⟩ : ∃ d, mE.blocks.size + 1 = (mB.blocks.size - mL.blocks.size + 2) + (d + 1) :=
    ⟨mE.blocks.size - (mB.blocks.size - mL.blocks.size + 2), by omega⟩
  have hd' : d + 1 ≤ (d + 1) * (b + 1) := Nat.le_mul_of_pos_right _ (Nat.succ_pos b)
  have hmul : (mE.blocks.size + 1) * (b + 1)
      = (b + 1) * (mB.blocks.size - mL.blocks.size + 2) + (d + 1) * (b + 1) := by
    rw [hd, Nat.add_mul, Nat.mul_comm (b + 1)]
  rw [hmul]
  omega

end TreeMachine.Compile
