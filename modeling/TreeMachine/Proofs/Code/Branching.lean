import TreeMachine.Proofs.Code.Builder

/-! # Branches that join

  A choice ends the current block with a conditional jump to one of two new blocks, and both
  branches end with a jump to a third.  While the branches are made, the phis of that block
  are not known yet.  Main statement: the code of a choice does what one of its branches
  does, and then what entering the last block does.
-/

namespace TreeMachine.Code.Module

variable {m : Module} {R : Nat}

/-! ### The parts of a choice -/

/-- The module with three new blocks. -/
def addFork (m : Module) : Module :=
  let branches := (m.blocks.push (emptyBlock "then")).push (emptyBlock "else")
  { m with blocks := branches.push (emptyBlock "merge") }

/-- The module with its current block ended by `i`, and the block `b` the current one. -/
def goOn (i : Instr) (b : Nat) (m : Module) : Module := { m.add i with cur := b }

theorem newBlock_eq (name : String) (m : Module) :
    newBlock name m = (m.blocks.size, { m with blocks := m.blocks.push (emptyBlock name) }) :=
  rfl

theorem setInsertPoint_eq {b : Nat} (hb : b < m.blocks.size) :
    setInsertPoint b m = ((), { m with cur := b }) := by
  show (if (0 : Int) ≤ b ∧ (b : Int) < m.blocks.size then
    modify fun m => { m with cur := (b : Int).toNat } else fail (.insertPoint b) : Build Unit) m = _
  rw [if_pos (by omega), Int.toNat_natCast]
  rfl

theorem branchIf_eq (ho : m.Open) (c : Nat) (t e : Int) :
    branchIf (Value.run c 1) t e m = ((), m.add (.branchIf (Value.run c 1) t e)) := by
  have hwidth : ¬ (Value.run c 1).words ≠ 1 := by simp
  unfold branchIf
  rw [if_neg hwidth]
  exact emit_eq ho _

@[simp] theorem size_addFork (m : Module) : m.addFork.blocks.size = m.blocks.size + 3 := by
  simp [addFork]

@[simp] theorem size_goOn (i : Instr) (b : Nat) (m : Module) :
    (m.goOn i b).blocks.size = m.blocks.size := by
  simp [goOn]

theorem addFork_old {i : Nat} (hi : i < m.blocks.size) :
    m.addFork.blocks[i]? = m.blocks[i]? := by
  simp only [addFork, Array.getElem?_push, Array.size_push]
  rw [if_neg (by omega), if_neg (by omega), if_neg (by omega)]

theorem addFork_new {i : Nat} (hi : m.blocks.size ≤ i) (hlt : i < m.blocks.size + 3) :
    ∃ name, m.addFork.blocks[i]? = some (emptyBlock name) := by
  simp only [addFork, Array.getElem?_push, Array.size_push]
  split
  · exact ⟨_, rfl⟩
  · split
    · exact ⟨_, rfl⟩
    · rw [if_pos (by omega)]
      exact ⟨_, rfl⟩

theorem addFork_here (ho : m.Open) : m.addFork.here = m.here := by
  obtain ⟨b, hb, -⟩ := ho.here
  have hlt := (Array.getElem?_eq_some_iff.1 hb).1
  rw [here_eq hb]
  exact @here_eq m.addFork b ((addFork_old hlt).trans hb)

theorem addFork_open (ho : m.Open) : m.addFork.Open := by
  obtain ⟨b, hb, ht⟩ := ho.here
  have hlt := (Array.getElem?_eq_some_iff.1 hb).1
  exact ⟨⟨b, (addFork_old hlt).trans hb, ht⟩, ho.closed, ho.error, ho.returns, ho.sizes⟩

theorem goOn_other {i : Instr} {b j : Nat} (hj : j ≠ m.cur) :
    (m.goOn i b).blocks[j]? = m.blocks[j]? :=
  add_other hj

theorem goOn_below {i : Instr} {b : Nat} (ho : m.Open) (S : List Nat) :
    Below S m (m.goOn i b) :=
  let h := (@add_grows m i ho m.registers m.slots ho.keepsSlots).below S
  ⟨h.blocks, h.slots⟩

/-- Going on at a block that is still empty. -/
theorem goOn_open {i : Instr} {b : Nat} (ho : m.Open) {name : String}
    (hb : m.blocks[b]? = some (emptyBlock name)) (hne : b ≠ m.cur) : (m.goOn i b).Open :=
  ⟨⟨_, (goOn_other hne).trans hb, rfl⟩, ho.closed, ho.error, ho.returns, ho.sizes⟩

theorem goOn_here {i : Instr} {b : Nat} {name : String}
    (hb : m.blocks[b]? = some (emptyBlock name)) (hne : b ≠ m.cur) :
    (m.goOn i b).here = ⟨b, 0⟩ :=
  @here_eq (m.goOn i b) _ ((goOn_other hne).trans hb)

/-- The instruction that ended the block before. -/
theorem goOn_instr {i : Instr} {b : Nat} (ho : m.Open) {p : Program} {S : List Nat} {R : Nat}
    (hcon : Contains p S (m.goOn i b) R) (hcur : m.cur ∉ S) : p.instr? m.here = some i := by
  obtain ⟨blk, hblk, ht⟩ := ho.here
  rw [here_eq hblk]
  refine hcon.instr hcur (@add_here m i blk hblk ht) ?_
  simp

/-! ### Entering the last block -/

/-- What entering a block with these phis from the block `origin` does. -/
def Joins (m' : Module) (R' : Nat) (origin : Nat) (phis : Array Phi)
    (J : Program → Frame → Frame → Prop) : Prop :=
  ∀ p S f, Contains p S m' R' → f.Fits p → ∃ incoming f',
    f.phiWords origin phis.toList = .ok incoming ∧ f.setAll incoming = .ok f' ∧ f'.Fits p ∧
      J p f f'

theorem joins_nothing (m' : Module) (R' origin : Nat) :
    Joins m' R' origin #[] fun _ f f' => f' = f :=
  fun _ _ f _ hf => ⟨[], f, rfl, rfl, hf, rfl⟩

/-- The phi that merges two values of `w` words into the next registers. -/
def merged (R w r₁ o₁ r₂ o₂ : Nat) : Phi :=
  ⟨Value.run R w, [((o₁ : Int), Value.run r₁ w), ((o₂ : Int), Value.run r₂ w)]⟩

/-- The module with a phi in its current block. -/
def addPhi (x : Phi) (registers : Int) (m : Module) : Module :=
  { m with
    registers
    blocks := m.blocks.modify m.cur fun b => { b with phis := b.phis.push x } }

theorem phi_eq (hc : m.registers = wrap R) {w : Nat} (hw : 0 < w) (r₁ o₁ r₂ o₂ : Nat) :
    ∃ n, n = wrap ((R + w : Nat) : Int) ∧
      phi (Value.run r₁ w) o₁ (Value.run r₂ w) o₂ m
        = (Value.run R w, m.addPhi (merged R w r₁ o₁ r₂ o₂) n) := by
  obtain ⟨n, hn, hfresh⟩ := fresh_eq hc w
  have hwidth : ¬ (Value.run r₁ w).words ≠ (Value.run r₂ w).words := by simp
  have hfresh' : fresh (Value.run r₁ w).words m = (Value.run R w, { m with registers := n }) := by
    rw [Value.words_run]
    exact hfresh
  refine ⟨n, hn, ?_⟩
  unfold phi
  rw [if_neg hwidth]
  dsimp only
  rw [bind_eq hfresh', if_pos (not_isVoid_run hw)]
  rfl

/-- Entering the block of a phi from the origin of one of its values. -/
theorem joins_merged {m' : Module} {R w r r₁ o₁ r₂ o₂ origin : Nat} (hw : 0 < w)
    (hfind : (merged R w r₁ o₁ r₂ o₂).incoming.find? (·.1 == (origin : Int))
      = some ((origin : Int), Value.run r w)) (hr : r + w ≤ R) :
    Joins m' (R + w) origin #[merged R w r₁ o₁ r₂ o₂] fun _ f f' => ∃ ws, ws.length = w ∧
      Stands f.regs r ws ∧ f.Sets f' R ws := by
  intro p S f hcon hf
  have hregs := hcon.regs_le hf
  obtain ⟨ws, rfl, hat⟩ := Stands.exists_of_le (show r + w ≤ f.regs.size by omega)
  have hget := Frame.get_run hat hf.fewRegs
  have hset := Frame.set_run hregs hw hf.fewRegs
  refine ⟨[(Value.run R ws.length, ws)], _, ?_, ?_, hf.setRegs R ws, ws, rfl, hat,
    Frame.sets_writeFrom hregs⟩
  · simp only [Frame.phiWords, hfind, hget, bind, Except.bind, pure, Except.pure]
    rfl
  · simp only [Frame.setAll, hset, bind, Except.bind]

/-- One branch, from its first block to the last block of the choice. -/
theorem branch_leads {mX mX' m' : Module} {R R₁ R' j k : Nat}
    {PX J : Program → Frame → Frame → Prop} {phis : Array Phi} (hX : Emits mX R mX' R₁ PX)
    (hJ : Joins m' R' mX'.cur phis J)
    {σ : Type} {host : Host σ} {p : Program} {S T : List Nat} (hw : mX.Waiting S)
    (hend : Contains p S (mX'.goOn (.branch j) k) R₁) (hcon : Contains p T m' R')
    {b : Block} (hb : p.blocks[j]? = some b) (hphis : b.phis = phis) {f : Frame}
    (s : σ) (hf : f.Fits p) :
    ∃ f₁ f₂, f₁.Fits p ∧ f₂.Fits p ∧ PX p f f₁ ∧ J p f₁ f₂ ∧
      Leads host p (mX'.blocks.size - mX.blocks.size + 1) ⟨mX.here, f, s⟩ ⟨⟨j, 0⟩, f₂, s⟩ := by
  have hconX := hend.below (goOn_below hX.opened S) (Nat.le_refl _)
  obtain ⟨f₁, hf₁, hlead, hP⟩ := hX.does host p S hw hconX f s hf
  obtain ⟨incoming, f₂, hinc, hset, hf₂, hj⟩ := hJ p T f₁ hcon hf₁
  have hinstr := goOn_instr hX.opened hend (hw.grows hX.grows).cur
  have hexec : (Instr.branch j).exec host p f₁ s = .ok (.jump f₁ j) s := rfl
  have hcur : mX'.here.block = mX'.cur := rfl
  have hjump := Leads.jump hinstr hexec hb (by rw [hphis, hcur]; exact hinc) hset
  exact ⟨f₁, f₂, hf₁, hf₂, hP, hj, hlead.trans hjump⟩

/-! ### Blocks that are still empty -/

section Empty

variable {mC mT mE : Module} {Rc Rt Re c i : Nat} {PC PT PE : Program → Frame → Frame → Prop}

/-- The branches and the last block are there, and empty, when the condition is known. -/
theorem empty_cond (ho : m.Open) (hcond : Emits m.addFork R mC Rc PC) (hi : m.blocks.size ≤ i)
    (hlt : i < m.blocks.size + 3) :
    (∃ name, mC.blocks[i]? = some (emptyBlock name)) ∧ i ≠ mC.cur := by
  obtain ⟨b, hb, -⟩ := ho.here
  have hcur := (Array.getElem?_eq_some_iff.1 hb).1
  have hcur' : m.addFork.cur = m.cur := rfl
  have hsize := size_addFork m
  obtain ⟨name, hname⟩ := addFork_new hi hlt
  refine ⟨⟨name, ?_⟩, ?_⟩
  · rw [hcond.grows.other i (by omega) (by omega), hname]
  · have hmoved := hcond.grows.moved
    omega

/-- The second branch and the last block are still empty after the first branch. -/
theorem empty_first {x : Instr} (ho : m.Open) (hcond : Emits m.addFork R mC Rc PC)
    (hfirst : Emits (mC.goOn x m.blocks.size) Rc mT Rt PT) (hi : m.blocks.size < i)
    (hlt : i < m.blocks.size + 3) :
    (∃ name, mT.blocks[i]? = some (emptyBlock name)) ∧ i ≠ mT.cur := by
  obtain ⟨⟨name, hname⟩, hne⟩ := empty_cond ho hcond (Nat.le_of_lt hi) hlt
  have hle := hcond.grows.size_le
  rw [size_addFork] at hle
  have hsize := size_goOn x m.blocks.size mC
  refine ⟨⟨name, ?_⟩, ?_⟩
  · rw [hfirst.grows.other i (by omega) (Nat.ne_of_gt hi), goOn_other hne, hname]
  · have hmoved : mT.cur = m.blocks.size ∨ _ := hfirst.grows.moved
    omega

/-- The last block is still empty after both branches. -/
theorem empty_second {x y : Instr} (ho : m.Open) (hcond : Emits m.addFork R mC Rc PC)
    (hfirst : Emits (mC.goOn x m.blocks.size) Rc mT Rt PT)
    (hsecond : Emits (mT.goOn y (m.blocks.size + 1)) Rt mE Re PE) :
    (∃ name, mE.blocks[m.blocks.size + 2]? = some (emptyBlock name)) ∧
      m.blocks.size + 2 ≠ mE.cur := by
  obtain ⟨⟨name, hname⟩, hne⟩ := empty_first ho hcond hfirst (i := m.blocks.size + 2) (by omega)
    (by omega)
  have hle := hcond.grows.size_le
  have hle' := hfirst.grows.size_le
  rw [size_addFork] at hle
  rw [size_goOn] at hle'
  have hsize := size_goOn y (m.blocks.size + 1) mT
  have hcur : (mT.goOn y (m.blocks.size + 1)).cur = m.blocks.size + 1 := rfl
  refine ⟨⟨name, ?_⟩, ?_⟩
  · rw [hsecond.grows.other _ (by omega) (by omega), goOn_other hne, hname]
  · have hmoved := hsecond.grows.moved
    omega

end Empty

/-! ### Blocks that wait

While the branches are made, the last block waits for its phis. -/

section Waits

variable {S : List Nat} {mX : Module} {i : Nat}

/-- New blocks do not wait yet. -/
theorem Waiting.new_not_mem (hw : m.Waiting S) (hi : m.blocks.size ≤ i) : i ∉ S := by
  intro hmem
  have := (hw i hmem).1
  omega

theorem not_mem_last (hi : i ∉ S) (hne : i ≠ m.blocks.size + 2) :
    i ∉ (m.blocks.size + 2) :: S :=
  List.not_mem_cons_of_ne_of_not_mem hne hi

theorem waiting_addFork (ho : m.Open) (hw : m.Waiting S) :
    m.addFork.Waiting ((m.blocks.size + 2) :: S) := by
  obtain ⟨b, hb, -⟩ := ho.here
  have hcur := (Array.getElem?_eq_some_iff.1 hb).1
  have hcur' : m.addFork.cur = m.cur := rfl
  have hsize := size_addFork m
  intro k hk
  rcases List.mem_cons.1 hk with rfl | hk
  · exact ⟨by omega, by omega⟩
  · obtain ⟨hlt, hne⟩ := hw k hk
    exact ⟨by omega, hne⟩

/-- Going on at one of the branches. -/
theorem waiting_goOn {x : Instr} (hw : m.Waiting S) (hsize : m.blocks.size + 3 ≤ mX.blocks.size)
    (hi : m.blocks.size ≤ i) (hlt : i < m.blocks.size + 2) :
    (mX.goOn x i).Waiting ((m.blocks.size + 2) :: S) := by
  have hcur : (mX.goOn x i).cur = i := rfl
  have hsize' := size_goOn x i mX
  intro k hk
  rcases List.mem_cons.1 hk with rfl | hk
  · exact ⟨by omega, by omega⟩
  · have := (hw k hk).1
    exact ⟨by omega, by omega⟩

end Waits

/-- The stages of a choice: the condition `mC`, the ends `mT` and `mE` of the branches, and
    the end `m'`, where only the phis of the last block are new. -/
structure Forks (m : Module) (R : Nat) (mC : Module) (Rc : Nat) (mT : Module) (Rt : Nat)
    (mE : Module) (Re : Nat) (m' : Module) (R' : Nat) (c : Nat) (phis : Array Phi)
    (PC PT PE : Program → Frame → Frame → Prop) : Prop where
  cond : Emits m.addFork R mC Rc PC
  reg : c < Rc
  first : Emits (mC.goOn (.branchIf (Value.run c 1) m.blocks.size (m.blocks.size + 1 : Nat))
    m.blocks.size) Rc mT Rt PT
  second : Emits (mT.goOn (.branch (m.blocks.size + 2 : Nat)) (m.blocks.size + 1)) Rt mE Re PE
  le : Re ≤ R'
  opened : m'.Open
  count : m'.registers = wrap R'
  slots : m'.slots = mE.slots
  cur : m'.cur = m.blocks.size + 2
  size : m'.blocks.size = mE.blocks.size
  other : ∀ i, i ≠ m.blocks.size + 2 →
    m'.blocks[i]? = (mE.goOn (.branch (m.blocks.size + 2 : Nat)) (m.blocks.size + 2)).blocks[i]?
  merge : ∃ b, m'.blocks[m.blocks.size + 2]? = some b ∧ b.code = #[] ∧ b.phis = phis

namespace Forks

variable {mC mT mE m' : Module} {Rc Rt Re R' c : Nat} {phis : Array Phi}
  {PC PT PE : Program → Frame → Frame → Prop}

/-- The first stages are below the end, but for the phis of the last block. -/
theorem below (h : Forks m R mC Rc mT Rt mE Re m' R' c phis PC PT PE) {S : List Nat}
    (hS : m.blocks.size + 2 ∈ S) :
    Below S (mE.goOn (.branch (m.blocks.size + 2 : Nat)) (m.blocks.size + 2)) m' := by
  refine ⟨?_, ?_⟩
  · intro i b hi hb
    refine ⟨b, ?_, .refl b⟩
    rw [h.other i fun heq => hi (heq ▸ hS), hb]
  · intro k size hk
    exact ⟨size, by rw [h.slots]; exact hk, Int.le_refl _⟩

/-- From the end of the first branch on. -/
theorem below_second (h : Forks m R mC Rc mT Rt mE Re m' R' c phis PC PT PE) {S : List Nat}
    (hS : m.blocks.size + 2 ∈ S) :
    Below S (mT.goOn (.branch (m.blocks.size + 2 : Nat)) (m.blocks.size + 1)) m' :=
  ((h.second.grows.below S).trans (goOn_below h.second.opened S)).trans (h.below hS)

/-- From the end of the condition on. -/
theorem below_first (h : Forks m R mC Rc mT Rt mE Re m' R' c phis PC PT PE) {S : List Nat}
    (hS : m.blocks.size + 2 ∈ S) :
    Below S (mC.goOn (.branchIf (Value.run c 1) m.blocks.size (m.blocks.size + 1 : Nat))
      m.blocks.size) m' :=
  ((h.first.grows.below S).trans (goOn_below h.first.opened S)).trans (h.below_second hS)

theorem sizes (h : Forks m R mC Rc mT Rt mE Re m' R' c phis PC PT PE) :
    m.blocks.size + 3 ≤ mC.blocks.size ∧ mC.blocks.size ≤ mT.blocks.size ∧
      mT.blocks.size ≤ mE.blocks.size := by
  have hC := h.cond.grows.size_le
  have hT := h.first.grows.size_le
  have hE := h.second.grows.size_le
  rw [size_addFork] at hC
  rw [size_goOn] at hT hE
  exact ⟨hC, hT, hE⟩

/-- Old blocks other than the current one stay as they are. -/
theorem other_eq (h : Forks m R mC Rc mT Rt mE Re m' R' c phis PC PT PE) {i : Nat}
    (hi : i < m.blocks.size) (hne : i ≠ m.cur) : m'.blocks[i]? = m.blocks[i]? := by
  obtain ⟨hC, hT, hE⟩ := h.sizes
  have hcurC : mC.cur = m.cur ∨ m.addFork.blocks.size ≤ mC.cur := h.cond.grows.moved
  have hcurT : mT.cur = m.blocks.size ∨ _ := h.first.grows.moved
  have hcurE : mE.cur = m.blocks.size + 1 ∨ _ := h.second.grows.moved
  rw [size_addFork] at hcurC
  rw [size_goOn] at hcurT hcurE
  have hfirst := h.first.grows.other i (by rw [size_goOn]; omega) (Nat.ne_of_lt hi)
  have hsecond := h.second.grows.other i (by rw [size_goOn]; omega)
    (Nat.ne_of_lt (Nat.lt_succ_of_lt hi))
  rw [h.other i (by omega), goOn_other (by omega), hsecond, goOn_other (by omega), hfirst,
    goOn_other (by omega), h.cond.grows.other i (by rw [size_addFork]; omega) hne,
    addFork_old hi]

theorem grows (h : Forks m R mC Rc mT Rt mE Re m' R' c phis PC PT PE) : m.Grows m' := by
  obtain ⟨hC, hT, hE⟩ := h.sizes
  have hsize := h.size
  have hbelow := (goOn_below h.cond.opened [m.blocks.size + 2]).trans
    (h.below_first List.mem_cons_self)
  refine ⟨by omega, fun i hi hne => h.other_eq hi hne, ?_, Or.inr (by rw [h.cur]; omega), ?_⟩
  · intro b hb
    have hlt := (Array.getElem?_eq_some_iff.1 hb).1
    obtain ⟨b₁, hb₁, hg₁⟩ := h.cond.grows.here b ((addFork_old hlt).trans hb)
    have hnot : m.cur ∉ [m.blocks.size + 2] := by
      simp only [List.mem_singleton]
      omega
    obtain ⟨b₂, hb₂, hg₂⟩ := hbelow.blocks _ b₁ hnot hb₁
    exact ⟨b₂, hb₂, hg₁.trans hg₂⟩
  · intro k size hk
    obtain ⟨s₁, hs₁, hle₁⟩ := h.cond.grows.slots k size hk
    obtain ⟨s₂, hs₂, hle₂⟩ := hbelow.slots k s₁ hs₁
    exact ⟨s₂, hs₂, Int.le_trans hle₁ hle₂⟩

/-- What a program has of the stages while the last block waits for its phis. -/
theorem contained (h : Forks m R mC Rc mT Rt mE Re m' R' c phis PC PT PE) {p : Program}
    {S : List Nat} (hcon : Contains p S m' R') :
    Contains p ((m.blocks.size + 2) :: S)
        (mC.goOn (.branchIf (Value.run c 1) m.blocks.size (m.blocks.size + 1 : Nat))
          m.blocks.size) Rc ∧
      Contains p ((m.blocks.size + 2) :: S)
        (mT.goOn (.branch (m.blocks.size + 2 : Nat)) (m.blocks.size + 1)) Rt ∧
      Contains p ((m.blocks.size + 2) :: S)
        (mE.goOn (.branch (m.blocks.size + 2 : Nat)) (m.blocks.size + 2)) Re := by
  have hlast : m.blocks.size + 2 ∈ (m.blocks.size + 2) :: S := List.mem_cons_self
  have hwait := hcon.weaken fun i hi => List.mem_cons_of_mem (m.blocks.size + 2) hi
  have hle₂ : Rt ≤ R' := Nat.le_trans h.second.le h.le
  have hle₁ : Rc ≤ R' := Nat.le_trans h.first.le hle₂
  exact ⟨hwait.below (h.below_first hlast) hle₁, hwait.below (h.below_second hlast) hle₂,
    hwait.below (h.below hlast) h.le⟩

/-- The block that both branches end at. -/
theorem merge_block (h : Forks m R mC Rc mT Rt mE Re m' R' c phis PC PT PE) {p : Program}
    {S : List Nat} (hw : m.Waiting S) (hcon : Contains p S m' R') :
    ∃ b, p.blocks[m.blocks.size + 2]? = some b ∧ b.phis = phis := by
  obtain ⟨b, hb, -, hphis⟩ := h.merge
  obtain ⟨b', hb', hgrown⟩ := hcon.blocks _ b (hw.new_not_mem (Nat.le_add_right _ 2)) hb
  exact ⟨b', hb', hgrown.phis.trans hphis⟩

theorem merge_here (h : Forks m R mC Rc mT Rt mE Re m' R' c phis PC PT PE) :
    m'.here = ⟨m.blocks.size + 2, 0⟩ := by
  obtain ⟨b, hb, hcode, -⟩ := h.merge
  have hcur : m'.blocks[m'.cur]? = some b := by rw [h.cur]; exact hb
  rw [here_eq hcur, h.cur, hcode]
  rfl

section Running

variable {σ : Type} (host : Host σ) {p : Program} {S : List Nat} {f : Frame} {x : UInt64}
  {J : Program → Frame → Frame → Prop}

/-- From the end of the condition to the branch that the condition names. -/
theorem jumps (h : Forks m R mC Rc mT Rt mE Re m' R' c phis PC PT PE) (ho : m.Open)
    (hw : m.Waiting S) (hcon : Contains p S m' R') (hf : f.Fits p) (hx : f.regs[c]? = some x)
    (s : σ) {i : Nat} (hi : i = if x ≠ 0 then m.blocks.size else m.blocks.size + 1) {b : Block}
    (hb : p.blocks[i]? = some b) (hphis : b.phis = #[]) :
    Leads host p 1 ⟨mC.here, f, s⟩ ⟨⟨i, 0⟩, f, s⟩ := by
  have hinstr := goOn_instr h.cond.opened (h.contained hcon).1
    ((waiting_addFork ho hw).grows h.cond.grows).cur
  have hexec := @exec_branchIf _ host p f s c m.blocks.size (m.blocks.size + 1) x hf hx
  rw [show (if x ≠ 0 then m.blocks.size else m.blocks.size + 1) = i from hi.symm] at hexec
  exact Leads.jump_plain hinstr hexec hb hphis

/-- The first branch is taken on a word that is not zero. -/
theorem first_leads (h : Forks m R mC Rc mT Rt mE Re m' R' c phis PC PT PE) (ho : m.Open)
    (hJ : Joins m' R' mT.cur phis J) (hw : m.Waiting S) (hcon : Contains p S m' R')
    (hf : f.Fits p) (hx : f.regs[c]? = some x) (hx0 : x ≠ 0) (s : σ) :
    ∃ f₁ f₂, f₁.Fits p ∧ f₂.Fits p ∧ PT p f f₁ ∧ J p f₁ f₂ ∧
      Leads host p (mT.blocks.size - mC.blocks.size + 2) ⟨mC.here, f, s⟩
        ⟨⟨m.blocks.size + 2, 0⟩, f₂, s⟩ := by
  obtain ⟨hsize, -, -⟩ := h.sizes
  obtain ⟨hcon₁, hcon₂, -⟩ := h.contained hcon
  obtain ⟨bm, hbm, hphis⟩ := h.merge_block hw hcon
  obtain ⟨⟨name, hname⟩, hne⟩ := empty_cond ho h.cond (Nat.le_refl _) (by omega)
  obtain ⟨b, hb, hgrown⟩ := hcon₁.blocks m.blocks.size _
    (not_mem_last (hw.new_not_mem (Nat.le_refl _)) (by omega)) ((goOn_other hne).trans hname)
  have hjump := h.jumps host ho hw hcon hf hx s (if_pos hx0).symm hb hgrown.phis
  have hw₁ : (mC.goOn (.branchIf (Value.run c 1) m.blocks.size (m.blocks.size + 1 : Nat))
      m.blocks.size).Waiting ((m.blocks.size + 2) :: S) :=
    waiting_goOn hw hsize (Nat.le_refl _) (by omega)
  obtain ⟨f₁, f₂, hf₁, hf₂, hPT, hjoin, hlead⟩ := branch_leads h.first hJ hw₁ hcon₂ hcon hbm hphis
    s hf
  rw [goOn_here hname hne, size_goOn] at hlead
  exact ⟨f₁, f₂, hf₁, hf₂, hPT, hjoin, (hjump.trans hlead).mono (by omega)⟩

/-- The second branch is taken on zero. -/
theorem second_leads (h : Forks m R mC Rc mT Rt mE Re m' R' c phis PC PT PE) (ho : m.Open)
    (hJ : Joins m' R' mE.cur phis J) (hw : m.Waiting S) (hcon : Contains p S m' R')
    (hf : f.Fits p) (hx : f.regs[c]? = some x) (hx0 : x = 0) (s : σ) :
    ∃ f₁ f₂, f₁.Fits p ∧ f₂.Fits p ∧ PE p f f₁ ∧ J p f₁ f₂ ∧
      Leads host p (mE.blocks.size - mT.blocks.size + 2) ⟨mC.here, f, s⟩
        ⟨⟨m.blocks.size + 2, 0⟩, f₂, s⟩ := by
  obtain ⟨hsize, hsize', -⟩ := h.sizes
  obtain ⟨-, hcon₂, hcon₃⟩ := h.contained hcon
  obtain ⟨bm, hbm, hphis⟩ := h.merge_block hw hcon
  obtain ⟨⟨name, hname⟩, hne⟩ := empty_first ho h.cond h.first (Nat.lt_succ_self _) (by omega)
  obtain ⟨b, hb, hgrown⟩ := hcon₂.blocks (m.blocks.size + 1) _
    (not_mem_last (hw.new_not_mem (Nat.le_add_right _ 1)) (by omega)) ((goOn_other hne).trans hname)
  have hjump := h.jumps host ho hw hcon hf hx s (if_neg (not_not_intro hx0)).symm hb
    hgrown.phis
  have hw₂ : (mT.goOn (.branch (m.blocks.size + 2 : Nat)) (m.blocks.size + 1)).Waiting
      ((m.blocks.size + 2) :: S) :=
    waiting_goOn hw (Nat.le_trans hsize hsize') (Nat.le_add_right _ 1) (by omega)
  obtain ⟨f₁, f₂, hf₁, hf₂, hPE, hjoin, hlead⟩ := branch_leads h.second hJ hw₂ hcon₃ hcon hbm hphis
    s hf
  rw [goOn_here hname hne, size_goOn] at hlead
  exact ⟨f₁, f₂, hf₁, hf₂, hPE, hjoin, (hjump.trans hlead).mono (by omega)⟩

end Running

/-- The code of a choice runs one of its branches. -/
theorem emits (h : Forks m R mC Rc mT Rt mE Re m' R' c phis PC PT PE) (ho : m.Open)
    {J J' : Program → Frame → Frame → Prop} (hJ : Joins m' R' mT.cur phis J)
    (hJ' : Joins m' R' mE.cur phis J') :
    Emits m R m' R' fun p f f' => ∃ f₀ f₁ x, f₀.Fits p ∧ PC p f f₀ ∧ f₀.regs[c]? = some x ∧
      f₁.Fits p ∧ ((x ≠ 0 ∧ PT p f₀ f₁ ∧ J p f₁ f') ∨ (x = 0 ∧ PE p f₀ f₁ ∧ J' p f₁ f')) where
  grows := h.grows
  opened := h.opened
  count := h.count
  le := Nat.le_trans (Nat.le_trans h.cond.le (Nat.le_trans h.first.le h.second.le)) h.le
  does host p S hw hcon f s hf := by
    obtain ⟨hC, hT, hE⟩ := h.sizes
    have hsize := h.size
    have hcon₁ := (h.contained hcon).1
    -- The condition.
    obtain ⟨f₀, hf₀, hlead₀, hP₀⟩ := h.cond.does host p _ (waiting_addFork ho hw)
      (hcon₁.below (goOn_below h.cond.opened _) (Nat.le_refl _)) f s hf
    rw [addFork_here ho, size_addFork] at hlead₀
    have hregs := hcon₁.regs_le hf₀
    have hreg := h.reg
    obtain ⟨x, hx⟩ : ∃ x, f₀.regs[c]? = some x :=
      ⟨f₀.regs[c], Array.getElem?_eq_getElem (by omega)⟩
    rw [h.merge_here]
    by_cases hx0 : x = 0
    · obtain ⟨f₁, f₂, hf₁, hf₂, hPE, hjoin, hlead⟩ :=
        h.second_leads host ho hJ' hw hcon hf₀ hx hx0 s
      exact ⟨f₂, hf₂, (hlead₀.trans hlead).mono (by omega), f₀, f₁, x, hf₀, hP₀, hx, hf₁,
        Or.inr ⟨hx0, hPE, hjoin⟩⟩
    · obtain ⟨f₁, f₂, hf₁, hf₂, hPT, hjoin, hlead⟩ :=
        h.first_leads host ho hJ hw hcon hf₀ hx hx0 s
      exact ⟨f₂, hf₂, (hlead₀.trans hlead).mono (by omega), f₀, f₁, x, hf₀, hP₀, hx, hf₁,
        Or.inl ⟨hx0, hPT, hjoin⟩⟩

section Endings

variable {mC mT mE : Module} {Rc Rt Re c : Nat} {PC PT PE : Program → Frame → Frame → Prop}

/-- A choice whose branches bring nothing together. -/
theorem of_nothing (ho : m.Open) (hcond : Emits m.addFork R mC Rc PC) (hreg : c < Rc)
    (hfirst : Emits (mC.goOn (.branchIf (Value.run c 1) m.blocks.size (m.blocks.size + 1 : Nat))
      m.blocks.size) Rc mT Rt PT)
    (hsecond : Emits (mT.goOn (.branch (m.blocks.size + 2 : Nat)) (m.blocks.size + 1)) Rt mE Re
      PE) :
    Forks m R mC Rc mT Rt mE Re
      (mE.goOn (.branch (m.blocks.size + 2 : Nat)) (m.blocks.size + 2)) Re c #[] PC PT PE := by
  obtain ⟨⟨name, hname⟩, hne⟩ := empty_second ho hcond hfirst hsecond
  exact ⟨hcond, hreg, hfirst, hsecond, Nat.le_refl _, goOn_open hsecond.opened hname hne,
    hsecond.count, rfl, rfl, size_goOn _ _ _, fun _ _ => rfl, _, (goOn_other hne).trans hname, rfl,
    rfl⟩

/-- A choice whose branches end with a phi. -/
theorem of_phi (h : Forks m R mC Rc mT Rt mE Re
      (mE.goOn (.branch (m.blocks.size + 2 : Nat)) (m.blocks.size + 2)) Re c #[] PC PT PE) {w : Nat}
    {registers : Int} (hregisters : registers = wrap ((Re + w : Nat) : Int)) (x : Phi) :
    Forks m R mC Rc mT Rt mE Re (addPhi x registers
      (mE.goOn (.branch (m.blocks.size + 2 : Nat)) (m.blocks.size + 2))) (Re + w) c #[x] PC PT
        PE := by
  obtain ⟨b, hb, hcode, hphis⟩ := h.merge
  obtain ⟨b', hb', ht⟩ := h.opened.here
  have hcur := h.cur
  rw [hcur] at hb'
  cases hb.symm.trans hb'
  have hblock : (addPhi x registers (mE.goOn (.branch (m.blocks.size + 2 : Nat))
      (m.blocks.size + 2))).blocks[m.blocks.size + 2]? = some { b with phis := b.phis.push x } := by
    rw [addPhi, hcur, Array.getElem?_modify, if_pos rfl, hb]
    rfl
  refine ⟨h.cond, h.reg, h.first, h.second, Nat.le_add_right _ _, ?_, hregisters, h.slots, hcur, ?_,
    ?_, _, hblock, hcode, ?_⟩
  · exact ⟨⟨_, hblock, ht⟩, h.opened.closed, h.opened.error, h.opened.returns, h.opened.sizes⟩
  · rw [addPhi, Array.size_modify]
    exact h.size
  · intro i hi
    rw [addPhi, hcur, Array.getElem?_modify, if_neg fun heq => hi heq.symm]
  · show b.phis.push x = _
    rw [hphis]
    rfl

/-- The branches end in different blocks. -/
theorem origins_ne (h : Forks m R mC Rc mT Rt mE Re m' R' c phis PC PT PE) : mT.cur ≠ mE.cur := by
  obtain ⟨b, hb, -⟩ := h.first.opened.here
  have hlt := (Array.getElem?_eq_some_iff.1 hb).1
  have hT : mT.cur = m.blocks.size ∨ _ := h.first.grows.moved
  have hE : mE.cur = m.blocks.size + 1 ∨ _ := h.second.grows.moved
  obtain ⟨hC, hTs, hEs⟩ := h.sizes
  rw [size_goOn] at hT hE
  omega

end Endings

end Forks

end TreeMachine.Code.Module
