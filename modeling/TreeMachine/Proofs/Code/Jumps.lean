import TreeMachine.Proofs.Code.Branching

/-! # Falling into a block and jumping back

  A label is a new block that the code before it falls into.  A jump back asks a function of
  the host first: it goes to the label as long as the answer is not zero, and past itself
  otherwise.  Main statements: falling into a block does nothing, and a jump back leads to
  one of its two ends, with the state in which the host answered.
-/

namespace TreeMachine.Code

open Arena (writeFrom size_writeFrom)

variable {σ : Type} {host : Host σ} {p : Program}

/-- A call without arguments of a function of the host. -/
theorem exec_call {f : Frame} {r : Nat} {name : String} {fn : List UInt64 → Run σ (List UInt64)}
    {ws : List UInt64} {s s' : σ} (hf : f.Fits p) (hfn : host.function? name = some fn)
    (hrun : fn [] s = .ok ws s') (hr : r + ws.length ≤ f.regs.size) (hpos : 0 < ws.length) :
    (Instr.call (Value.run r ws.length) name []).exec host p f s
      = .ok (.onward { f with regs := writeFrom f.regs r ws }) s' := by
  have hgather : (sound (gather f []) : Run σ (List UInt64)) s = .ok [] s := rfl
  have hhost : inHost name (fn []) s = .ok ws s' := mapStop_eq_ok hrun
  have hcall : callHost host f (Value.run r ws.length) name [] s
      = .ok { f with regs := writeFrom f.regs r ws } s' := by
    unfold callHost
    rw [hfn]
    refine (bind_eq_ok hgather).trans ((bind_eq_ok hhost).trans ?_)
    rw [if_neg (by simp)]
    exact sound_eq_ok (Frame.set_run hr hpos hf.fewRegs)
  rw [Instr.exec, bind_eq_ok hcall]
  rfl

/-- A jump to a block without phis. -/
theorem Leads.branch {pt : Point} {f : Frame} {s : σ} {t : Nat} {b : Block}
    (hi : p.instr? pt = some (.branch t)) (hb : p.blocks[t]? = some b) (hphis : b.phis = #[]) :
    Leads host p 1 ⟨pt, f, s⟩ ⟨⟨t, 0⟩, f, s⟩ :=
  Leads.jump_plain hi rfl hb hphis

namespace Module

variable {m : Module} {R : Nat} {name : String}

/-! ### New blocks -/

/-- The module with a new block. -/
def addBlock (name : String) (m : Module) : Module :=
  { m with blocks := m.blocks.push (emptyBlock name) }

@[simp] theorem size_addBlock (name : String) (m : Module) :
    (m.addBlock name).blocks.size = m.blocks.size + 1 := by
  simp [addBlock]

theorem addBlock_old {i : Nat} (hi : i < m.blocks.size) :
    (m.addBlock name).blocks[i]? = m.blocks[i]? := by
  simp only [addBlock, Array.getElem?_push]
  rw [if_neg (by omega)]

theorem addBlock_new : (m.addBlock name).blocks[m.blocks.size]? = some (emptyBlock name) := by
  simp [addBlock]

theorem Open.cur_lt (ho : m.Open) : m.cur < m.blocks.size := by
  obtain ⟨b, hb, -⟩ := ho.here
  exact (Array.getElem?_eq_some_iff.1 hb).1

theorem addBlock_open (ho : m.Open) : (m.addBlock name).Open := by
  obtain ⟨b, hb, ht⟩ := ho.here
  exact ⟨⟨b, (addBlock_old ho.cur_lt).trans hb, ht⟩, ho.closed, ho.error, ho.returns, ho.sizes⟩

theorem addBlock_here (ho : m.Open) : (m.addBlock name).here = m.here := by
  obtain ⟨b, hb, -⟩ := ho.here
  rw [here_eq hb]
  exact @here_eq (m.addBlock name) b ((addBlock_old ho.cur_lt).trans hb)

theorem addBlock_grows (ho : m.Open) : m.Grows (m.addBlock name) :=
  ⟨by simp, fun _ hi _ => addBlock_old hi,
    fun b hb => ⟨b, (addBlock_old ho.cur_lt).trans hb, .refl b⟩, Or.inl rfl, ho.keepsSlots⟩

/-- Ending the current block and going on at a later one. -/
theorem goOn_grows {i : Instr} {b : Nat} {m₀ : Module} (hm : m₀.Grows m) (ho : m.Open)
    (hb : m₀.blocks.size ≤ b) : m₀.Grows (m.goOn i b) := by
  have hadd := hm.trans (@add_grows m i ho m.registers m.slots ho.keepsSlots)
  exact ⟨hadd.size_le, hadd.other, hadd.here, Or.inr hb, hadd.slots⟩

/-! ### Falling into a block -/

/-- The module that goes on in a new block. -/
def fallInto (name : String) (m : Module) : Module :=
  (m.addBlock name).goOn (.branch m.blocks.size) m.blocks.size

theorem fallInto_here (ho : m.Open) : (m.fallInto name).here = ⟨m.blocks.size, 0⟩ :=
  goOn_here addBlock_new (Nat.ne_of_gt ho.cur_lt)

theorem fallInto_new (ho : m.Open) :
    (m.fallInto name).blocks[m.blocks.size]? = some (emptyBlock name) :=
  (@goOn_other (m.addBlock name) _ _ _ (Nat.ne_of_gt ho.cur_lt)).trans addBlock_new

theorem fallInto_emits (ho : m.Open) (hc : m.registers = wrap R) :
    Emits m R (m.fallInto name) R fun _ f f' => f' = f where
  grows := goOn_grows (addBlock_grows ho) (addBlock_open ho) (Nat.le_refl _)
  opened := goOn_open (addBlock_open ho) addBlock_new (Nat.ne_of_gt ho.cur_lt)
  count := hc
  le := Nat.le_refl R
  does host p S hw hcon f s hf := by
    have hinstr := goOn_instr (addBlock_open ho) hcon hw.cur
    rw [addBlock_here ho] at hinstr
    have hnot : m.blocks.size ∉ S := fun hmem => Nat.lt_irrefl _ (hw _ hmem).1
    obtain ⟨b, hb, hg⟩ := hcon.blocks m.blocks.size _ hnot (fallInto_new ho)
    refine ⟨f, hf, ?_, rfl⟩
    rw [fallInto_here ho]
    exact (Leads.branch hinstr hb hg.phis).mono (by rw [fallInto, size_goOn, size_addBlock]; omega)

/-! ### Jumping back -/

/-- The module with a call that answers one word, in the next register. -/
def addCall (name : String) (R : Nat) (registers : Int) (m : Module) : Module :=
  { m.add (.call (Value.run R 1) name []) with registers }

theorem call_eq (ho : m.Open) (hc : m.registers = wrap R) :
    ∃ n, n = wrap ((R + 1 : Nat) : Int) ∧
      call name [] 1 m = (Value.run R 1, m.addCall name R n) := by
  obtain ⟨n, hn, hfresh⟩ := fresh_one hc
  refine ⟨n, hn, ?_⟩
  unfold call
  rw [bind_eq hfresh, bind_eq (emit_eq (ho.setRegisters n) _)]
  rfl

/-- The module that asks a function of the host whether to jump back to the block `t`, in a
    block of its own, and goes on after that. -/
def jumpBack (name again after : String) (t R : Nat) (registers : Int) (m : Module) : Module :=
  ((((m.addBlock again).addBlock after).addCall name R registers).goOn
    (.branchIf (Value.run R 1) m.blocks.size (m.blocks.size + 1 : Nat)) m.blocks.size).goOn
    (.branch t) (m.blocks.size + 1)

section JumpBack

variable {again after : String} {t : Nat} {n : Int}

/-- The stages of a jump back: the new blocks, the question and the two jumps. -/
theorem jumpBack_stages (ho : m.Open) :
    let m₁ := (m.addBlock again).addBlock after
    let m₂ := m₁.addCall name R n
    let m₃ := m₂.goOn (.branchIf (Value.run R 1) m.blocks.size (m.blocks.size + 1 : Nat))
      m.blocks.size
    m₁.Open ∧ m₁.here = m.here ∧ m₂.Open ∧ m₂.here = m.here.next ∧ m.Grows m₂ ∧
      m₃.Open ∧ m₃.here = ⟨m.blocks.size, 0⟩ ∧ m.Grows m₃ ∧
      m₃.blocks[m.blocks.size]? = some (emptyBlock again) ∧
      m₃.blocks[m.blocks.size + 1]? = some (emptyBlock after) := by
  intro m₁ m₂ m₃
  have hcur := ho.cur_lt
  have ho₁ : m₁.Open := addBlock_open (addBlock_open ho)
  have hhere₁ : m₁.here = m.here := (addBlock_here (addBlock_open ho)).trans (addBlock_here ho)
  have hgrows₁ : m.Grows m₁ := (addBlock_grows ho).trans (addBlock_grows (addBlock_open ho))
  have ho₂ : m₂.Open := add_open ho₁ rfl ho₁.sizes
  have hgrows₂ : m.Grows m₂ := hgrows₁.trans (add_grows ho₁ ho₁.keepsSlots)
  have hhere₂ : m₂.here = m.here.next := by
    obtain ⟨b, hb, ht⟩ := ho₁.here
    rw [← hhere₁, here_eq hb]
    exact (@here_eq m₂ _ (@add_here m₁ (.call (Value.run R 1) name []) b hb ht)).trans
      (by simp [Point.next]; rfl)
  have hagain : m₁.blocks[m.blocks.size]? = some (emptyBlock again) := by
    refine (addBlock_old ?_).trans addBlock_new
    simp
  have hafter : m₁.blocks[m.blocks.size + 1]? = some (emptyBlock after) := by
    have := @addBlock_new (m.addBlock again) after
    rw [size_addBlock] at this
    exact this
  have hcur₁ : m₁.cur = m.cur := rfl
  have hagain₂ : m₂.blocks[m.blocks.size]? = some (emptyBlock again) :=
    (add_other (by omega)).trans hagain
  have hafter₂ : m₂.blocks[m.blocks.size + 1]? = some (emptyBlock after) :=
    (add_other (by omega)).trans hafter
  have hcur₂ : m₂.cur = m.cur := rfl
  exact ⟨ho₁, hhere₁, ho₂, hhere₂, hgrows₂, goOn_open ho₂ hagain₂ (by omega),
    goOn_here hagain₂ (by omega), goOn_grows hgrows₂ ho₂ (Nat.le_refl _),
    (goOn_other (by omega)).trans hagain₂, (goOn_other (by omega)).trans hafter₂⟩

theorem jumpBack_grows (ho : m.Open) : m.Grows (m.jumpBack name again after t R n) := by
  obtain ⟨-, -, -, -, -, ho₃, -, hgrows₃, -⟩ := @jumpBack_stages m R name again after n ho
  exact goOn_grows hgrows₃ ho₃ (Nat.le_succ _)

theorem jumpBack_open (ho : m.Open) : (m.jumpBack name again after t R n).Open := by
  obtain ⟨-, -, -, -, -, ho₃, -, -, -, hafter⟩ := @jumpBack_stages m R name again after n ho
  refine goOn_open ho₃ hafter ?_
  show m.blocks.size + 1 ≠ m.blocks.size
  omega

theorem jumpBack_here (ho : m.Open) :
    (m.jumpBack name again after t R n).here = ⟨m.blocks.size + 1, 0⟩ := by
  obtain ⟨-, -, -, -, -, ho₃, -, -, -, hafter⟩ := @jumpBack_stages m R name again after n ho
  refine goOn_here hafter ?_
  show m.blocks.size + 1 ≠ m.blocks.size
  omega

@[simp] theorem size_jumpBack :
    (m.jumpBack name again after t R n).blocks.size = m.blocks.size + 2 := by
  simp [jumpBack, addCall]

/-- A jump back leads to its target, or past itself if the host answers zero. -/
theorem jumpBack_leads (ho : m.Open) {fn : List UInt64 → Run σ (List UInt64)} {w : UInt64}
    {s s' : σ} (hfn : host.function? name = some fn) (hrun : fn [] s = .ok [w] s')
    (hcon : Contains p [] (m.jumpBack name again after t R n) (R + 1)) {b : Block}
    (hb : p.blocks[t]? = some b) (hphis : b.phis = #[]) {f : Frame} (hf : f.Fits p) :
    ∃ f', f'.Fits p ∧ f.Sets f' R [w] ∧ Leads host p 2 ⟨m.here, f, s⟩
      ⟨if w ≠ 0 then ⟨t, 0⟩ else (m.jumpBack name again after t R n).here, f', s'⟩ := by
  obtain ⟨ho₁, hhere₁, ho₂, hhere₂, -, ho₃, hhere₃, -, hagain, hafter⟩ :=
    @jumpBack_stages m R name again after n ho
  have hne : m.blocks.size + 1 ≠ m.blocks.size := by omega
  -- The program contains each stage, so it has their instructions and blocks.
  have hcon₃ := hcon.below (goOn_below ho₃ []) (Nat.le_refl _)
  have hcon₂ := hcon₃.below (goOn_below ho₂ []) (Nat.le_refl _)
  have hcall : p.instr? m.here = some (.call (Value.run R 1) name []) := by
    obtain ⟨blk, hblk, ht⟩ := ho₁.here
    rw [← hhere₁, here_eq hblk]
    exact hcon₂.instr List.not_mem_nil (@add_here _ (.call (Value.run R 1) name []) blk hblk ht)
      (by simp)
  have hbranch := goOn_instr ho₂ hcon₃ List.not_mem_nil
  rw [hhere₂] at hbranch
  have hback := goOn_instr ho₃ hcon List.not_mem_nil
  rw [hhere₃] at hback
  obtain ⟨bA, hbA, hgA⟩ := hcon₃.blocks _ _ List.not_mem_nil hagain
  obtain ⟨bX, hbX, hgX⟩ := hcon.blocks _ _ List.not_mem_nil ((goOn_other hne).trans hafter)
  -- The question.
  have hregs := hcon.regs_le hf
  have hexec := @exec_call σ host p f R name fn [w] s s' hf hfn hrun hregs Nat.one_pos
  rw [List.length_singleton] at hexec
  have hsets : f.Sets { f with regs := writeFrom f.regs R [w] } R [w] :=
    Frame.sets_writeFrom hregs
  have hf' := hf.setRegs R [w]
  have hw := Stands.single.1 hsets.stands
  refine ⟨_, hf', hsets, ?_⟩
  have hasked := Leads.onward hcall hexec
  have hchoice := @exec_branchIf σ host p _ s' R m.blocks.size (m.blocks.size + 1) w hf' hw
  by_cases hzero : w = 0
  · rw [if_neg (fun hne => hne hzero)] at hchoice
    rw [if_neg (fun hne => hne hzero), jumpBack_here ho]
    exact (hasked.trans (Leads.jump_plain hbranch hchoice hbX hgX.phis)).mono (by omega)
  · rw [if_pos hzero] at hchoice
    rw [if_pos hzero]
    exact (hasked.trans (Leads.jump_plain hbranch hchoice hbA hgA.phis)).trans
      (Leads.branch hback hb hphis)

end JumpBack

end Module

end TreeMachine.Code
