import TreeMachine.Proofs.Compile.Arithmetic

/-! # Choices

  A choice tests its condition and runs one of its branches.  Both branches leave their
  result at the same place, or each in registers of its own, and then a phi brings them
  together.  Main statement: a choice leaves the words of the branch that its condition
  selects.
-/

namespace TreeMachine.Compile

open Code (Module Value Program Frame Stands wrap Contains)
open Code.Module (Emits Forks Joins addFork goOn merged)

variable {X : Type} {W : List Record} {node : X → Node} {place : X → Location}
  {g g' : Generator} {c c' : Catalogue} {R R' w : Nat} {site : Site} {a t e : Expr X}

/-! ### The test -/

/-- The register after the next one tells whether the register `r` is zero. -/
def Tests (m : Module) (R r : Nat) : Program → Frame → Frame → Prop := fun p f f' =>
  f.Keeps f' R (p.start m.slots.size) 0 0 ∧
    ∀ x, f.regs[r]? = some x → f'.regs[R + 1]? = some (if x = 0 then 0 else 1)

theorem test_emits {m : Module} {r : Nat} (ho : m.Open) (hc : m.registers = wrap R) (hr : r < R) :
    ∃ m₁ m₂, Module.const [0] m = (Value.run R 1, m₁) ∧
      Module.binary .ne (Value.run r 1) (Value.run R 1) m₁ = (Value.run (R + 1) 1, m₂) ∧
      m₂.slots = m.slots ∧ Emits m R m₂ (R + 2) (Tests m R r) := by
  obtain ⟨m₁, hconst, hslots₁, hcode₁⟩ :=
    Module.const_emits ho hc (show 0 < [(0 : UInt64)].length by simp)
  obtain ⟨m₂, hbinary, hslots₂, hcode₂⟩ := Module.binary_emits hcode₁.opened hcode₁.count .ne
    (show r < R + 1 by omega) (show R < R + 1 by omega)
  refine ⟨m₁, m₂, hconst, hbinary, hslots₂.trans hslots₁, (hcode₁.trans hcode₂).imp ?_⟩
  intro p S f f' hcon hf hdone
  obtain ⟨f₁, -, hsets₁, x, y, hx, hy, hsets₂⟩ := hdone
  have hzero : f₁.regs[R]? = some 0 := Stands.single.1 hsets₁.stands
  cases hzero.symm.trans hy
  refine ⟨?_, ?_⟩
  · have hkeeps := hsets₁.keeps (Nat.le_refl R) (p.start m.slots.size) 0 0
    exact hkeeps.trans_same (hsets₂.keeps (Nat.le_add_right R 1) _ _ _)
  · intro x' hx'
    rw [← hsets₁.others r (by omega)] at hx'
    cases hx.symm.trans hx'
    exact Stands.single.1 hsets₂.stands

/-! ### Going on in another block -/

/-- Only the code and the slots of the module count. -/
theorem Ready.setModule (h : Ready W node place g c R) {m : Module} (ho : m.Open)
    (hc : m.registers = wrap R') (hslots : m.slots = g.module.slots) :
    Ready W node place { g with module := m } c R' := by
  refine ⟨h.standard, h.idle, h.room, ho, hc, ?_⟩
  intro x
  obtain ⟨size, hsize, hle⟩ := (h.vars x).room
  refine ⟨(h.vars x).real, (h.vars x).memo, size, ?_, hle⟩
  show m.slots[_]? = _
  rw [hslots, hsize]

/-- The three new blocks of a choice. -/
theorem fork_eq {α : Type} (f : Nat → Nat → Nat → Gen α) (g : Generator) :
    (do let thenBlock ← build (Module.newBlock "then")
        let elseBlock ← build (Module.newBlock "else")
        let merge ← build (Module.newBlock "merge")
        f thenBlock elseBlock merge) g
      = f g.module.blocks.size (g.module.blocks.size + 1) (g.module.blocks.size + 2)
          { g with module := g.module.addFork } := by
  rw [bind_eq_ok (build_eq_ok (Module.newBlock_eq "then" g.module)),
    bind_eq_ok (build_eq_ok (Module.newBlock_eq "else" _)),
    bind_eq_ok (build_eq_ok (Module.newBlock_eq "merge" _))]
  simp only [Array.size_push]
  rfl

/-! ### One branch -/

/-- A branch has been generated; `m` is the module before its last jump. -/
structure Branched (W : List Record) (place : X → Location) (e : Expr X) (ns : List Node)
    (site : Site) (merge : Nat) (g : Generator) (c : Catalogue) (R : Nat)
    (result : Info × Value × Nat) (g' : Generator) (w : Nat) (c' : Catalogue) (R' : Nat)
    (m : Module) : Prop where
  width : e.width = some w
  moves : Moves g c ns g' c'
  shadow : g'.shadow = g.shadow
  room : g'.heap.arena.Room (c'.lacking W)
  type : c'.Integers g'.heap.types.scalars.integer w result.1.type
  plain : result.1.contract.validity = 0
  few : R' ≤ R + e.volume
  module : g'.module = m.add (.branch merge)
  value : site.degree = .value → result.2.1 = result.1.value
  stop : result.2.2 = m.cur
  delivered : Delivered place e site.degree.inner site.storage g.module R m R' w result.1

/-- What is left of a branch after its first block is the current one. -/
def branchRest (gen : SubGen) (site : Site) (merge i depth : Nat) : Gen (Info × Value × Nat) := do
  let r ← gen (← child site.node i) (branchTarget site).1 (branchTarget site).2
  let mut v := Value.void
  if (branchTarget site).1 = .value then
    if r.type ≠ (← doesNotReturn) then
      if 0 < (← sizeOf r.type) then v ← valueOf r
  clearStack depth
  let stop := (← get).module.cur
  build (Module.branch merge)
  return (r, v, stop)

/-- A branch begins in its block. -/
theorem choiceBranch_eq {gen : SubGen} {start merge i depth : Nat} {m : Module} {x : Code.Instr}
    (hm : g.module = m.add x) (hstart : start < m.blocks.size) :
    choiceBranch gen site start merge i depth g
      = branchRest gen site merge i depth { g with module := m.goOn x start } := by
  have hpoint : build (Module.setInsertPoint start) g
      = .ok () { g with module := m.goOn x start } := by
    refine build_eq_ok ?_
    rw [hm]
    exact Module.setInsertPoint_eq (by simpa using hstart)
  unfold choiceBranch branchRest
  exact bind_eq_ok hpoint

/-- Where the result of a branch goes. -/
theorem branchTarget_eq (site : Site) :
    branchTarget site =
      (site.degree.inner, if site.degree = .value then nowhere else site.storage) := by
  unfold branchTarget
  cases site.degree <;> rfl

/-- A branch is generated, or it has no width. -/
theorem branchRest_yields {gen : SubGen} {n : Node} {ns : List Node} {merge i : Nat}
    (hwork : Works W node place gen e n ns) (hready : Ready W node place g c R)
    (hspell : Expr.Spells g.heap node e n ns) (hfresh : Fresh g ns)
    (hW : ∀ r ∈ e.types g.heap.types.scalars.integer, r ∈ W)
    (hat : site.degree ≠ .value → Writable place g site.storage)
    (hchild : child site.node i g = .ok n g) :
    Yields (branchRest gen site merge i g.shadow.length) g
      (fun result g' => ∃ w c' R' m, Branched W place e ns site merge g c R result g' w c' R' m)
      fun _ _ => e.width = none := by
  unfold branchRest
  rw [branchTarget_eq]
  refine Yields.bind_ok hchild (Yields.bind ((hwork g c R _ _ hready hspell hfresh hW ?_).mono ?_
    fun _ _ hnone => hnone))
  · intro hd
    have hne : site.degree ≠ .value := by
      intro heq
      rw [heq] at hd
      cases hd
    rw [if_neg hne]
    exact hat hne
  intro info g₁ hset
  obtain ⟨w, c₁, R₁, hset⟩ := hset
  have hs₁ : g₁.heap.Standard c₁ := hready.standard.extends hset.moves.ext
  obtain ⟨hm, hshadow, hmodule, hheap, -⟩ := hset.moves.clear
  obtain ⟨P, hcode⟩ := hset.delivered.emits
  -- What remains is the same whatever the value is.
  have hrest : ∀ v, (site.degree = .value → v = info.value) →
      Yields (do
        clearStack g.shadow.length
        let stop := (← get).module.cur
        build (Module.branch merge)
        return (info, v, stop)) g₁
      (fun result g' => ∃ w c' R' m, Branched W place e ns site merge g c R result g' w c' R' m)
      fun _ _ => e.width = none := by
    intro v hv
    have hbranch : build (Module.branch merge) (clear g.shadow.length g₁)
        = .ok () { clear g.shadow.length g₁ with module := g₁.module.add (.branch merge) } := by
      refine build_eq_ok ?_
      rw [hmodule]
      exact Module.emit_eq hcode.opened _
    refine Yields.bind_ok (clearStack_eq _ _) (Yields.get_bind (Yields.bind_ok hbranch ?_))
    refine Yields.pure ⟨w, c₁, R₁, g₁.module, hset.width, hm.setModule _, hshadow, ?_, ?_,
      hset.plain, hset.few, rfl, hv, congrArg Module.cur hmodule, ?_⟩
    · show (clear g.shadow.length g₁).heap.arena.Room _
      rw [hheap]
      exact hset.room
    · show c₁.Integers (clear g.shadow.length g₁).heap.types.scalars.integer w info.type
      rw [hheap]
      exact hset.type
    · have hdel := hset.delivered
      by_cases hd : site.degree = .value
      · rw [hd] at hdel ⊢
        exact hdel
      · rw [if_neg hd] at hdel
        exact hdel
  by_cases hd : site.degree = .value
  · have hdel := hset.delivered
    rw [hd] at hdel
    obtain ⟨htemp, ⟨r, -, -, hvalue, -⟩, -⟩ := hdel
    rw [hd]
    refine Yields.bind_ok (doesNotReturn_eq g₁) ?_
    rw [if_pos (hs₁.integers_returns hset.type)]
    refine Yields.bind_ok (sizeOf_eq hs₁ hset.type) ?_
    by_cases hw : 0 < w
    · rw [if_pos hw]
      exact Yields.bind_ok (valueOf_temporary htemp g₁) (hrest _ fun _ => rfl)
    · rw [if_neg hw]
      refine hrest _ fun _ => ?_
      rw [hvalue, show w = 0 by omega]
      rfl
  · have hinner : ¬ site.degree.inner = .value := by
      rw [Degree.inner_of_ne hd]
      decide
    rw [if_neg hinner]
    exact hrest .void fun h => absurd h hd

/-! ### Both branches -/

/-- The code leaves the words of an expression as `Q` says, and changes only `n` words of the
    slots of `m`. -/
def Gives (place : X → Location) (e : Expr X) (m : Module) (R : Nat) (lo : Program → Nat) (n : Nat)
    (Q : Frame → Program → List UInt64 → Prop) : Program → Frame → Frame → Prop := fun p f f' =>
  f.Keeps f' R (p.start m.slots.size) (lo p) n ∧ ∀ env, Env place p f env → Q f' p (e.eval env)

/-- Less is kept of the registers and slots than is known. -/
theorem Gives.weaken {m m₁ : Module} {R₁ n : Nat} {lo : Program → Nat} {p : Program} {f f' : Frame}
    {Q : Frame → Program → List UInt64 → Prop} (h : Gives place t m₁ R₁ lo n Q p f f') (hR : R ≤ R₁)
    (hlimit : p.start m.slots.size ≤ p.start m₁.slots.size) : Gives place t m R lo n Q p f f' :=
  ⟨h.1.weaken hR hlimit fun _ _ hlo hhi => ⟨hlo, hhi⟩, h.2⟩

/-- The instruction that ends the block of the condition. -/
def forkAt (m : Module) (R : Nat) : Code.Instr :=
  .branchIf (Value.run (R + 1) 1) m.blocks.size (m.blocks.size + 1 : Nat)

/-- What the code of a choice does, given what the ways to the last block make of the results
    of the branches. -/
theorem chooses {m mC mT mE m' : Module} {R₀ Rc Rt Re r n : Nat} {phis : Array Code.Phi}
    {J J' : Program → Frame → Frame → Prop} {lo : Program → Nat}
    {Q QT QE : Frame → Program → List UInt64 → Prop} (hready : Ready W node place g c R₀)
    (hcode : LeavesRegisters place a g.module R₀ m R r) (ha : a.width = some 1)
    (hforks : Forks m R mC Rc mT Rt mE Re m' R' (R + 1) phis (Tests m R r)
      (Gives place t (mC.goOn (forkAt m R) m.blocks.size) Rc lo n QT)
      (Gives place e (mT.goOn (.branch (m.blocks.size + 2 : Nat)) (m.blocks.size + 1)) Rt lo n QE))
    (hJ : Joins m' R' mT.cur phis J) (hJ' : Joins m' R' mE.cur phis J')
    (hT : ∀ p f f₁ f', Gives place t m R lo n QT p f f₁ → J p f₁ f' →
      Gives place t m R lo n Q p f f')
    (hE : ∀ p f f₁ f', Gives place e m R lo n QE p f f₁ → J' p f₁ f' →
      Gives place e m R lo n Q p f f') :
    Emits g.module R₀ m' R' (Gives place (.cond a t e) g.module R₀ lo n Q) := by
  have hrest := hforks.emits hcode.opened hJ hJ'
  refine (hcode.trans hrest).imp ?_
  intro p S f f' hcon hf hdone
  obtain ⟨f₁, -, ⟨hkeeps₁, hvalue⟩, f₂, f₃, x, -, ⟨hkeeps₂, htest⟩, hx, -, hbranch⟩ := hdone
  have hcon₀ := hcon.below ((hcode.grows.trans hrest.grows).below S)
    (Nat.le_trans hcode.le hrest.le)
  have hlimit := hcon.start_mono hcode.grows.slots_le
  have hlimit₁ := hcon.start_mono hforks.cond.grows.slots_le
  have hlimit₂ := hcon.start_mono hforks.first.grows.slots_le
  have hleC := hforks.cond.le
  have hleT := hforks.first.le
  -- The condition and its test leave alone what was there.
  have hkeeps : f.Keeps f₂ R₀ (p.start g.module.slots.size) 0 0 :=
    hkeeps₁.trans hkeeps₂ hcode.le hlimit (by omega)
  have henv₂ : ∀ env, Env place p f env → Env place p f₂ env := fun env henv =>
    hready.env_keeps_zero hcon₀ henv hkeeps
  have hcond : ∀ env, Env place p f env → (x = 0 ↔ Expr.wordOf (a.eval env) = 0) := by
    intro env henv
    have hflag := htest _ (stands_word ha (hvalue env henv))
    cases hx.symm.trans hflag
    split <;> simp [*]
  have hkeeps' : f.Keeps f₂ R₀ (p.start g.module.slots.size) (lo p) n :=
    hkeeps.weaken (Nat.le_refl _) (Nat.le_refl _) (by omega)
  rcases hbranch with ⟨hne, hPT, hJT⟩ | ⟨heq, hPE, hJE⟩
  · obtain ⟨hkeeps₃, hresult⟩ := hT p f₂ f₃ f' (hPT.weaken (by omega) hlimit₁) hJT
    refine ⟨hkeeps'.trans hkeeps₃ hcode.le hlimit fun _ _ hlo hhi => ⟨hlo, hhi⟩, ?_⟩
    intro env henv
    rw [Expr.eval, if_pos fun hzero => hne ((hcond env henv).2 hzero)]
    exact hresult env (henv₂ env henv)
  · obtain ⟨hkeeps₃, hresult⟩ := hE p f₂ f₃ f'
      (hPE.weaken (by omega) (Nat.le_trans hlimit₁ hlimit₂)) hJE
    refine ⟨hkeeps'.trans hkeeps₃ hcode.le hlimit fun _ _ hlo hhi => ⟨hlo, hhi⟩, ?_⟩
    intro env henv
    rw [Expr.eval, if_neg fun hne => hne ((hcond env henv).1 heq)]
    exact hresult env (henv₂ env henv)

/-- The result of a branch in registers is what a phi makes of it. -/
theorem Gives.phi {m : Module} {p : Program} {f f₁ f' : Frame} {r Re : Nat}
    (h : Gives place t m R (fun _ => 0) 0 (fun f _ ws => Stands f.regs r ws) p f f₁)
    (ht : t.width = some w) (hRe : R ≤ Re)
    (hphi : ∃ ws, ws.length = w ∧ Stands f₁.regs r ws ∧ f₁.Sets f' Re ws) :
    Gives place t m R (fun _ => 0) 0 (fun f _ ws => Stands f.regs Re ws) p f f' := by
  obtain ⟨ws, hlen, hat, hsets⟩ := hphi
  refine ⟨h.1.trans_same (hsets.keeps hRe _ _ _), ?_⟩
  intro env henv
  have heq := (h.2 env henv).eq hat (by rw [hlen]; exact t.length_eval env ht)
  rw [heq]
  exact hsets.stands

/-- Generates both branches and goes to the last block. -/
def bothBranches (gen : SubGen) (site : Site) (k depth : Nat) :
    Gen ((Info × Value × Nat) × (Info × Value × Nat)) := do
  let r₁ ← choiceBranch gen site k (k + 2) 1 depth
  let r₂ ← choiceBranch gen site (k + 1) (k + 2) 2 depth
  build (Module.setInsertPoint (k + 2 : Nat))
  return (r₁, r₂)

/-- Both branches have been generated, from the block that ends with `x` on. -/
structure BothBranched (W : List Record) (place : X → Location) (t e : Expr X) (ns : List Node)
    (site : Site) (g : Generator) (c : Catalogue) (mC : Module) (Rc : Nat) (x : Code.Instr)
    (r₁ r₂ : Info × Value × Nat) (g' : Generator) (c' : Catalogue) (w₁ w₂ : Nat) (mT : Module)
    (Rt : Nat) (mE : Module) (Re : Nat) : Prop where
  width₁ : t.width = some w₁
  width₂ : e.width = some w₂
  moves : Moves g c ns g' c'
  room : g'.heap.arena.Room (c'.lacking W)
  type₁ : c'.Integers g'.heap.types.scalars.integer w₁ r₁.1.type
  type₂ : c'.Integers g'.heap.types.scalars.integer w₂ r₂.1.type
  plain : (r₁.1.contract.merge r₂.1.contract).validity = 0
  few : Re ≤ Rc + t.volume + e.volume
  module : g'.module
    = mE.goOn (.branch (g.module.blocks.size + 2 : Nat)) (g.module.blocks.size + 2)
  value₁ : site.degree = .value → r₁.2.1 = r₁.1.value
  value₂ : site.degree = .value → r₂.2.1 = r₂.1.value
  stop₁ : r₁.2.2 = mT.cur
  stop₂ : r₂.2.2 = mE.cur
  delivered₁ : Delivered place t site.degree.inner site.storage
    (mC.goOn x g.module.blocks.size) Rc mT Rt w₁ r₁.1
  delivered₂ : Delivered place e site.degree.inner site.storage
    (mT.goOn (.branch (g.module.blocks.size + 2 : Nat)) (g.module.blocks.size + 1)) Rt mE Re w₂ r₂.1

/-- The condition of a choice has been generated, with the code `mC` from the new blocks on,
    and its branches are ahead. -/
structure Ahead (W : List Record) (node : X → Node) (place : X → Location) (gen : SubGen)
    (t e : Expr X) (n₂ n₃ : Node) (ns₂ ns₃ : List Node) (site : Site) (g : Generator)
    (c : Catalogue) (R : Nat) (mC : Module) (Rc : Nat) : Prop where
  ready : Ready W node place g c R
  fresh : Fresh g (ns₂ ++ ns₃)
  nodup : (ns₂ ++ ns₃).Nodup
  record : ∃ n₁, g.heap.arena.Owns site.node [Tag.cond.word, 0, n₁, n₂, n₃]
  spells₁ : Expr.Spells g.heap node t n₂ ns₂
  spells₂ : Expr.Spells g.heap node e n₃ ns₃
  works₁ : Works W node place gen t n₂ ns₂
  works₂ : Works W node place gen e n₃ ns₃
  types₁ : ∀ r ∈ t.types g.heap.types.scalars.integer, r ∈ W
  types₂ : ∀ r ∈ e.types g.heap.types.scalars.integer, r ∈ W
  slot : site.degree ≠ .value → Writable place g site.storage
  cond : ∃ P, Emits g.module.addFork R mC Rc P
  slots : mC.slots = g.module.slots

namespace Ahead

variable {gen : SubGen} {n₂ n₃ : Node} {ns₂ ns₃ : List Node} {mC : Module} {Rc : Nat}
  {x : Code.Instr}

/-- Generation can go on in the empty block of the first branch. -/
theorem ready_first (h : Ahead W node place gen t e n₂ n₃ ns₂ ns₃ site g c R mC Rc)
    (x : Code.Instr) :
    Ready W node place { g with module := mC.goOn x g.module.blocks.size } c Rc := by
  obtain ⟨PC, hcond⟩ := h.cond
  obtain ⟨⟨name, hname⟩, hne⟩ := Module.empty_cond h.ready.opened hcond (Nat.le_refl _)
    (by omega : g.module.blocks.size < g.module.blocks.size + 3)
  exact h.ready.setModule (Module.goOn_open hcond.opened hname hne) hcond.count h.slots

theorem slot_first (h : Ahead W node place gen t e n₂ n₃ ns₂ ns₃ site g c R mC Rc)
    (x : Code.Instr) (hd : site.degree ≠ .value) :
    Writable place { g with module := mC.goOn x g.module.blocks.size } site.storage := by
  refine ⟨?_, (h.slot hd).2⟩
  show _ < mC.slots.size
  rw [h.slots]
  exact (h.slot hd).1

/-- The first branch. -/
theorem first (h : Ahead W node place gen t e n₂ n₃ ns₂ ns₃ site g c R mC Rc) (x : Code.Instr) :
    Yields (choiceBranch gen site g.module.blocks.size (g.module.blocks.size + 2) 1
        g.shadow.length) { g with module := mC.add x }
      (fun r g' => ∃ w c' R' m, Branched W place t ns₂ site (g.module.blocks.size + 2)
        { g with module := mC.goOn x g.module.blocks.size } c Rc r g' w c' R' m)
      fun _ _ => t.width = none := by
  obtain ⟨PC, hcond⟩ := h.cond
  obtain ⟨n₁, hn⟩ := h.record
  have hgrow := hcond.grows.size_le
  rw [Module.size_addFork] at hgrow
  have hready := h.ready_first x
  refine Yields.congr (choiceBranch_eq rfl (by omega)) ?_
  exact branchRest_yields h.works₁ hready h.spells₁ h.fresh.left h.types₁ (h.slot_first x)
    (child_eq hready.standard.sized hn rfl rfl)

variable {r₁ : Info × Value × Nat} {g₂ : Generator} {c₂ : Catalogue} {w₁ Rt : Nat} {mT : Module}

/-- The second branch, in the state that the first one leaves. -/
theorem second (h : Ahead W node place gen t e n₂ n₃ ns₂ ns₃ site g c R mC Rc)
    (hfirst : Branched W place t ns₂ site (g.module.blocks.size + 2)
      { g with module := mC.goOn x g.module.blocks.size } c Rc r₁ g₂ w₁ c₂ Rt mT) :
    Yields (choiceBranch gen site (g.module.blocks.size + 1) (g.module.blocks.size + 2) 2
        g.shadow.length) g₂
      (fun r g' => ∃ w c' R' m, Branched W place e ns₃ site (g.module.blocks.size + 2)
        { g₂ with module := mT.goOn (.branch (g.module.blocks.size + 2 : Nat))
                    (g.module.blocks.size + 1) } c₂ Rt r g' w c' R' m)
      fun _ _ => e.width = none := by
  obtain ⟨PC, hcond⟩ := h.cond
  obtain ⟨PT, hcode⟩ := hfirst.delivered.emits
  obtain ⟨n₁, hn⟩ := h.record
  have hm : Moves g c ns₂ g₂ c₂ := hfirst.moves.ofModule
  have hready₁ := h.ready_first x
  obtain ⟨⟨name, hname⟩, hne⟩ := Module.empty_first h.ready.opened hcond hcode
    (Nat.lt_succ_self _) (by omega : g.module.blocks.size + 1 < g.module.blocks.size + 3)
  let g₃ : Generator := { g₂ with
    module := mT.goOn (.branch (g.module.blocks.size + 2 : Nat)) (g.module.blocks.size + 1) }
  have hreadyT : Ready W node place { g₂ with module := mT } c₂ Rt :=
    hready₁.next h.fresh.left (hfirst.moves.setModule mT) hfirst.room hcode
  have hready₃ : Ready W node place g₃ c₂ Rt :=
    hreadyT.setModule (Module.goOn_open hcode.opened hname hne) hcode.count rfl
  have hat : site.degree ≠ .value → Writable place g₃ site.storage := by
    intro hd
    have hle := hcode.grows.slots_le
    exact ⟨Nat.lt_of_lt_of_le (h.slot_first x hd).1 hle, (h.slot hd).2⟩
  have htypes : ∀ r ∈ e.types g₃.heap.types.scalars.integer, r ∈ W := by
    rw [show g₃.heap.types.scalars = g.heap.types.scalars from hm.ext.scalars_eq]
    exact h.types₂
  have hdepth : g.shadow.length = g₃.shadow.length := by
    show _ = g₂.shadow.length
    rw [hfirst.shadow]
  have hgrow := hcond.grows.size_le
  have hgrow₁ := hcode.grows.size_le
  rw [Module.size_addFork] at hgrow
  rw [Module.size_goOn] at hgrow₁
  refine Yields.congr (choiceBranch_eq hfirst.module (by omega)) ?_
  rw [hdepth]
  exact branchRest_yields h.works₂ hready₃ (h.spells₂.extends hm.ext)
    (h.fresh.after h.nodup (hm.setModule g₃.module)) htypes hat
    (child_eq hready₃.standard.sized (hn.grows hm.ext.grows) rfl rfl)

end Ahead

theorem bothBranches_yields {gen : SubGen} {n₂ n₃ : Node} {ns₂ ns₃ : List Node} {mC : Module}
    {Rc : Nat} (h : Ahead W node place gen t e n₂ n₃ ns₂ ns₃ site g c R mC Rc) (x : Code.Instr) :
    Yields (bothBranches gen site g.module.blocks.size g.shadow.length)
      { g with module := mC.add x }
      (fun r g' => ∃ c' w₁ w₂ mT Rt mE Re, BothBranched W place t e (ns₂ ++ ns₃) site g c mC Rc x
        r.1 r.2 g' c' w₁ w₂ mT Rt mE Re)
      fun _ _ => t.width = none ∨ e.width = none := by
  unfold bothBranches
  refine Yields.bind ((h.first x).mono ?_ fun _ _ hnone => Or.inl hnone)
  intro r₁ g₂ hfirst
  obtain ⟨w₁, c₂, Rt, mT, hfirst⟩ := hfirst
  refine Yields.bind ((h.second hfirst).mono ?_ fun _ _ hnone => Or.inr hnone)
  intro r₂ g₄ hsecond
  obtain ⟨w₂, c₄, Re, mE, hsecond⟩ := hsecond
  have hm₁ : Moves g c ns₂ g₂ c₂ := hfirst.moves.ofModule
  have hm₂ : Moves g₂ c₂ ns₃ g₄ c₄ := hsecond.moves.ofModule
  let j := g.module.blocks.size + 2
  have hpoint : build (Module.setInsertPoint (j : Nat)) g₄
      = .ok () { g₄ with module := mE.goOn (.branch j) j } := by
    obtain ⟨PC, hcond⟩ := h.cond
    obtain ⟨PT, hcode₁⟩ := hfirst.delivered.emits
    obtain ⟨PE, hcode₂⟩ := hsecond.delivered.emits
    have hgrow := hcond.grows.size_le
    have hgrow₁ := hcode₁.grows.size_le
    have hgrow₂ := hcode₂.grows.size_le
    rw [Module.size_addFork] at hgrow
    rw [Module.size_goOn] at hgrow₁ hgrow₂
    refine build_eq_ok ?_
    rw [hsecond.module]
    exact Module.setInsertPoint_eq (by rw [Module.size_add]; omega)
  refine Yields.bind_ok hpoint (Yields.pure ⟨c₄, w₁, w₂, mT, Rt, mE, Re, ?_⟩)
  have hfew₁ := hfirst.few
  have hfew₂ := hsecond.few
  refine ⟨hfirst.width, hsecond.width, (hm₁.append hm₂).setModule _, hsecond.room, ?_, hsecond.type,
    ?_, by omega, rfl, hfirst.value, hsecond.value, hfirst.stop, hsecond.stop, hfirst.delivered,
    hsecond.delivered⟩
  · have htype := hm₂.ext.integers hfirst.type
    rwa [← hm₂.ext.scalars_eq] at htype
  · rw [Contract.merge, hfirst.plain, hsecond.plain]
    rfl

/-! ### The result -/

/-- Brings the results of the branches together. -/
def choiceEnd (site : Site) (never : Ty) (r₁ r₂ : Info × Value × Nat) : Gen Info := do
  let t ← choiceType site.node r₁.1.type r₂.1.type
  let c := r₁.1.contract.merge r₂.1.contract
  if site.degree ≠ .value then return ← finish site .void t c false
  if (← sizeOf t) = 0 then return ← finish site .void t c false
  let v ←
    if r₁.1.type = never then pure r₂.2.1
    else if r₂.1.type = never then pure r₁.2.1
    else build (Module.phi r₁.2.1 r₁.2.2 r₂.2.1 r₂.2.2)
  finish site v t c true

/-- The branches have one type if they have one width. -/
theorem choiceType_yields {w₁ w₂ : Nat} {t₁ t₂ : Ty} {n : Node} {Q : Ty → Generator → Prop}
    {E : Stop CompileError → Generator → Prop} (hs : g.heap.Standard c)
    (h₁ : c.Integers g.heap.types.scalars.integer w₁ t₁)
    (h₂ : c.Integers g.heap.types.scalars.integer w₂ t₂) (hnext : w₂ = w₁ → Q t₁ g)
    (herr : w₂ ≠ w₁ → ∀ f s, E f s) : Yields (choiceType n t₁ t₂) g Q E := by
  have hfits : look (·.fits t₂ t₁) g = .ok (decide (w₂ = w₁)) g :=
    look_eq_ok (hs.fits_integers h₂ h₁)
  have hfits' : look (·.fits t₁ t₂) g = .ok (decide (w₁ = w₂)) g :=
    look_eq_ok (hs.fits_integers h₁ h₂)
  unfold choiceType
  refine Yields.bind_ok hfits ?_
  by_cases hw : w₂ = w₁
  · rw [decide_eq_true hw]
    exact hnext hw
  · rw [decide_eq_false hw, if_neg Bool.false_ne_true]
    refine Yields.bind_ok hfits' ?_
    rw [decide_eq_false fun h => hw h.symm, if_neg Bool.false_ne_true]
    exact herr hw _ _

theorem Expr.width_cond_none (h : ∀ w, ¬ (a.width = some 1 ∧ t.width = some w ∧ e.width = some w)) :
    (Expr.cond a t e).width = none := by
  cases hw : (Expr.cond a t e).width with
  | none => rfl
  | some w => exact absurd (Expr.width_cond.1 hw) (h w)

section Ending

variable {g₁ : Generator} {c₁ : Catalogue} {R₁ r : Nat} {ns₁ ns₂ : List Node} {mC mT mE : Module}
  {Rt Re w₁ w₂ : Nat} {r₁ r₂ : Info × Value × Nat}

/-- The condition stands in a register and has been tested, and both branches, of the same
    width, have been generated. -/
structure Meeting (W : List Record) (node : X → Node) (place : X → Location) (a t e : Expr X)
    (ns₁ ns₂ : List Node) (site : Site) (g : Generator) (c : Catalogue) (R : Nat) (g₁ : Generator)
    (c₁ : Catalogue) (R₁ r : Nat) (r₁ r₂ : Info × Value × Nat) (g' : Generator) (c' : Catalogue)
    (w : Nat) (mC mT : Module) (Rt : Nat) (mE : Module) (Re : Nat) : Prop where
  here : AtSite W node place g c R site (ns₁ ++ ns₂)
  width : a.width = some 1
  moves : Moves g c ns₁ g₁ c₁
  code : LeavesRegisters place a g.module R g₁.module R₁ r
  few : R₁ ≤ R + a.volume
  slots : ∃ new, g₁.module.slots.toList = g.module.slots.toList ++ new ∧ new.sum ≤ a.volume
  tests : Emits g₁.module.addFork R₁ mC (R₁ + 2) (Tests g₁.module R₁ r)
  same : mC.slots = g₁.module.slots
  both : BothBranched W place t e ns₂ site g₁ c₁ mC (R₁ + 2) (forkAt g₁.module R₁) r₁ r₂ g' c' w w
    mT Rt mE Re

namespace Meeting

variable (h : Meeting W node place a t e ns₁ ns₂ site g c R g₁ c₁ R₁ r r₁ r₂ g' c' w mC mT Rt mE Re)

include h

theorem all_moves : Moves g c (ns₁ ++ ns₂) g' c' :=
  h.moves.append h.both.moves

theorem cond_width : (Expr.cond a t e).width = some w :=
  Expr.width_cond.2 ⟨h.width, h.both.width₁, h.both.width₂⟩

theorem cond_volume : (Expr.cond a t e).volume = 2 + w + a.volume + t.volume + e.volume := by
  rw [Expr.volume, h.cond_width]
  rfl

theorem standard : g'.heap.Standard c' := h.here.ready.standard.extends h.all_moves.ext

/-- A result of the branches is not the type of what does not return. -/
theorem returns {u : Ty} (hu : c'.Integers g'.heap.types.scalars.integer w u) :
    u ≠ g.heap.types.scalars.doesNotReturn := by
  rw [← h.all_moves.ext.scalars_eq]
  exact h.standard.integers_returns hu

/-- Branches that leave their results in registers make no slot for them. -/
theorem value_slots (hd : site.degree = .value) :
    ∃ new, mE.slots.toList = g.module.slots.toList ++ new ∧
      new.sum + (if site.degree = .value then 0 else w : Nat) ≤
        ((Expr.cond a t e).volume : Int) := by
  have hdel₁ := h.both.delivered₁
  have hdel₂ := h.both.delivered₂
  rw [hd] at hdel₁ hdel₂
  obtain ⟨-, -, newa, hnewa, hsuma⟩ := hdel₁
  obtain ⟨-, -, newb, hnewb, hsumb⟩ := hdel₂
  obtain ⟨new₁, hnew₁, hsum₁⟩ := h.slots
  refine ⟨new₁ ++ newa ++ newb, ?_, ?_⟩
  · have hgo : mT.slots.toList = mC.slots.toList ++ newa := hnewa
    have hgo' : mE.slots.toList = mT.slots.toList ++ newb := hnewb
    rw [hgo', hgo, h.same, hnew₁, List.append_assoc, List.append_assoc, List.append_assoc]
  · rw [List.sum_append, List.sum_append, h.cond_volume, if_pos hd]
    omega

/-- Nothing has to be brought together, so it does not matter whether it is moved. -/
theorem empty_outcome (hd : site.degree = .value) (hw : w = 0) :
    Outcome W place (.cond a t e) (site.node :: (ns₁ ++ ns₂)) site.degree.inner site.storage g c R
      (finish site .void r₁.1.type (r₁.1.contract.merge r₂.1.contract) false) g' := by
  subst hw
  have hdel₁ := h.both.delivered₁
  have hdel₂ := h.both.delivered₂
  rw [hd] at hdel₁ hdel₂
  obtain ⟨-, ⟨ra, hloa, hhia, hvaluea, hcodea⟩, -⟩ := hdel₁
  obtain ⟨-, ⟨rb, hlob, hhib, hvalueb, hcodeb⟩, -⟩ := hdel₂
  have hforks := Forks.of_nothing h.code.opened h.tests (by omega) hcodea hcodeb
  have hempty : ∀ {u : Expr X} {env : X → UInt64} {xs : Array UInt64}, u.width = some 0 →
      Stands xs Re (u.eval env) := by
    intro u env xs hu
    rw [List.eq_nil_of_length_eq_zero (u.length_eval env hu)]
    exact Stands.nil _ _
  have hcode : LeavesRegisters place (.cond a t e) g.module R g'.module Re Re := by
    rw [h.both.module]
    refine chooses h.here.ready h.code h.width hforks (Module.joins_nothing _ _ _)
      (Module.joins_nothing _ _ _) ?_ ?_
    · intro p f f₁ f' hgives hJ
      subst hJ
      exact ⟨hgives.1, fun env _ => hempty h.both.width₁⟩
    · intro p f f₁ f' hgives hJ
      subst hJ
      exact ⟨hgives.1, fun env _ => hempty h.both.width₂⟩
  have hsame : finish site .void r₁.1.type (r₁.1.contract.merge r₂.1.contract) false g'
      = finish site (Value.run Re 0) r₁.1.type (r₁.1.contract.merge r₂.1.contract) true g' :=
    (finish_zero h.standard h.both.type₁).trans (finish_zero h.standard h.both.type₁).symm
  refine Yields.congr hsame ?_
  have hle := h.code.le
  have hlea := hcodea.le
  have hleb := hcodeb.le
  have hfew := h.few
  have hfew' := h.both.few
  have hvolume := h.cond_volume
  have hslots := h.value_slots hd
  refine h.here.finish h.all_moves h.both.room h.cond_width h.both.type₁ h.both.plain (by omega)
    (by omega) (Nat.le_refl _) hcode ?_
  rw [h.both.module]
  exact hslots

/-- A phi brings the results of the branches together. -/
theorem phi_outcome (hd : site.degree = .value) (hw : 0 < w) :
    Outcome W place (.cond a t e) (site.node :: (ns₁ ++ ns₂)) site.degree.inner site.storage g c R
      (do
        let v ← build (Module.phi r₁.2.1 r₁.2.2 r₂.2.1 r₂.2.2)
        finish site v r₁.1.type (r₁.1.contract.merge r₂.1.contract) true) g' := by
  have hdel₁ := h.both.delivered₁
  have hdel₂ := h.both.delivered₂
  rw [hd] at hdel₁ hdel₂
  obtain ⟨-, ⟨ra, hloa, hhia, hvaluea, hcodea⟩, -⟩ := hdel₁
  obtain ⟨-, ⟨rb, hlob, hhib, hvalueb, hcodeb⟩, -⟩ := hdel₂
  have hlea := hcodea.le
  have hleb := hcodeb.le
  let met := mE.goOn (.branch (g₁.module.blocks.size + 2 : Nat)) (g₁.module.blocks.size + 2)
  let x := merged Re w ra mT.cur rb mE.cur
  have hcount : met.registers = wrap Re := hcodeb.count
  obtain ⟨k, hk, hphi⟩ := Module.phi_eq hcount hw ra mT.cur rb mE.cur
  have hbuild : build (Module.phi r₁.2.1 r₁.2.2 r₂.2.1 r₂.2.2) g'
      = .ok (Value.run Re w) { g' with module := Module.addPhi x k met } := by
    refine build_eq_ok ?_
    rw [h.both.module, h.both.value₁ hd, h.both.value₂ hd, h.both.stop₁, h.both.stop₂, hvaluea,
      hvalueb]
    exact hphi
  refine Yields.bind_ok hbuild ?_
  have hphis := (Forks.of_nothing h.code.opened h.tests (by omega) hcodea hcodeb).of_phi hk x
  -- Each branch comes with its own end, and the phi tells them apart.
  have hfind : x.incoming.find? (·.1 == (mT.cur : Int))
      = some ((mT.cur : Int), Value.run ra w) := by
    simp [x, merged]
  have hfind' : x.incoming.find? (·.1 == (mE.cur : Int))
      = some ((mE.cur : Int), Value.run rb w) := by
    have hne : (mT.cur : Int) ≠ (mE.cur : Int) := by
      have := hphis.origins_ne
      omega
    simp [x, merged, hne]
  have hcode : LeavesRegisters place (.cond a t e) g.module R (Module.addPhi x k met) (Re + w)
      Re := by
    refine chooses h.here.ready h.code h.width hphis
      (Module.joins_merged (by omega) hfind (by omega))
      (Module.joins_merged (by omega) hfind' (by omega)) ?_ ?_
    · intro p f f₁ f' hgives hJ
      exact hgives.phi h.both.width₁ (by omega) hJ
    · intro p f f₁ f' hgives hJ
      exact hgives.phi h.both.width₂ (by omega) hJ
  have hle := h.code.le
  have hfew := h.few
  have hfew' := h.both.few
  have hvolume := h.cond_volume
  exact h.here.finish (h.all_moves.setModule (Module.addPhi x k met)) h.both.room h.cond_width
    h.both.type₁ h.both.plain (by omega) (by omega) (Nat.le_refl _) hcode (h.value_slots hd)

/-- Both branches have left their results at the same place. -/
theorem placed_outcome (hd : site.degree ≠ .value) :
    Outcome W place (.cond a t e) (site.node :: (ns₁ ++ ns₂)) site.degree.inner site.storage g c R
      (finish site .void r₁.1.type (r₁.1.contract.merge r₂.1.contract) false) g' := by
  have hdel₁ := h.both.delivered₁
  have hdel₂ := h.both.delivered₂
  rw [Degree.inner_of_ne hd] at hdel₁ hdel₂
  obtain ⟨-, -, hcodea, newa, hnewa, hsuma⟩ := hdel₁
  obtain ⟨-, -, hcodeb, newb, hnewb, hsumb⟩ := hdel₂
  obtain ⟨new₁, hnew₁, hsum₁⟩ := h.slots
  have hforks := Forks.of_nothing h.code.opened h.tests (by omega) hcodea hcodeb
  have hcode : LeavesSlot place (.cond a t e) g.module R g'.module Re site.storage w := by
    rw [h.both.module]
    refine chooses h.here.ready h.code h.width hforks (Module.joins_nothing _ _ _)
      (Module.joins_nothing _ _ _) ?_ ?_
    · intro p f f₁ f' hgives hJ
      subst hJ
      exact hgives
    · intro p f f₁ f' hgives hJ
      subst hJ
      exact hgives
  have hfew := h.few
  have hfew' := h.both.few
  have hvolume := h.cond_volume
  refine h.here.finishPlaced h.all_moves h.both.room h.cond_width h.both.type₁ h.both.plain
    (by omega) hd hcode ⟨new₁ ++ newa ++ newb, ?_, ?_⟩
  · have hin := (h.here.slot hd).1
    have hgrow := size_of_append hnew₁
    have hgo : mT.slots.toList = (enlarge mC.slots site.storage w).toList ++ newa := hnewa
    have hgo' : mE.slots.toList = (enlarge mT.slots site.storage w).toList ++ newb := hnewb
    have hmodule : g'.module.slots = mE.slots := by
      rw [h.both.module]
      rfl
    rw [hmodule, hgo', enlarge_append hgo (by rw [size_enlarge, h.same]; omega), enlarge_self,
      h.same, enlarge_append hnew₁ hin, List.append_assoc, List.append_assoc, List.append_assoc]
  · rw [List.sum_append, List.sum_append, hvolume]
    omega

/-- The two ends of a choice meet. -/
theorem outcome :
    Outcome W place (.cond a t e) (site.node :: (ns₁ ++ ns₂)) site.degree.inner site.storage g c R
      (do
        let ct := r₁.1.contract.merge r₂.1.contract
        if site.degree ≠ .value then return ← finish site .void r₁.1.type ct false
        if (← sizeOf r₁.1.type) = 0 then return ← finish site .void r₁.1.type ct false
        let v ←
          if r₁.1.type = g.heap.types.scalars.doesNotReturn then pure r₂.2.1
          else if r₂.1.type = g.heap.types.scalars.doesNotReturn then pure r₁.2.1
          else build (Module.phi r₁.2.1 r₁.2.2 r₂.2.1 r₂.2.2)
        finish site v r₁.1.type ct true) g' := by
  dsimp only
  by_cases hd : site.degree = .value
  · rw [if_neg fun hne => hne hd]
    refine Yields.bind_ok (sizeOf_eq h.standard h.both.type₁) ?_
    by_cases hw : w = 0
    · rw [if_pos hw]
      exact h.empty_outcome hd hw
    · rw [if_neg hw, if_neg (h.returns h.both.type₁), if_neg (h.returns h.both.type₂)]
      exact h.phi_outcome hd (Nat.pos_of_ne_zero hw)
  · rw [if_pos hd]
    exact h.placed_outcome hd

end Meeting

/-- The two ends of a choice meet if the branches have the same width. -/
theorem choiceEnd_outcome (h : AtSite W node place g c R site (ns₁ ++ ns₂))
    (ha : a.width = some 1) (hm₁ : Moves g c ns₁ g₁ c₁)
    (hcode : LeavesRegisters place a g.module R g₁.module R₁ r) (hfew : R₁ ≤ R + a.volume)
    (hslots₁ : ∃ new, g₁.module.slots.toList = g.module.slots.toList ++ new ∧ new.sum ≤ a.volume)
    (htests : Emits g₁.module.addFork R₁ mC (R₁ + 2) (Tests g₁.module R₁ r))
    (hslots : mC.slots = g₁.module.slots)
    (hboth : BothBranched W place t e ns₂ site g₁ c₁ mC (R₁ + 2) (forkAt g₁.module R₁)
      r₁ r₂ g' c' w₁ w₂ mT Rt mE Re) :
    Outcome W place (.cond a t e) (site.node :: (ns₁ ++ ns₂)) site.degree.inner site.storage g c R
      (choiceEnd site g.heap.types.scalars.doesNotReturn r₁ r₂) g' := by
  have hm := hm₁.ext.trans hboth.moves.ext
  have hs' : g'.heap.Standard c' := h.ready.standard.extends hm
  unfold choiceEnd
  refine Yields.bind (choiceType_yields hs' hboth.type₁ hboth.type₂ ?_ ?_)
  · intro hw
    subst hw
    exact Meeting.outcome ⟨h, ha, hm₁, hcode, hfew, hslots₁, htests, hslots, hboth⟩
  · intro hne _ _
    refine Expr.width_cond_none ?_
    intro w hw
    rw [hboth.width₁, hboth.width₂] at hw
    exact hne (Option.some.inj (hw.2.2.trans hw.2.1.symm))

end Ending

/-- A choice from its new blocks on. -/
def forked (gen : SubGen) (site : Site) (never : Ty) (cond : Info) : Gen Info := do
  let thenBlock ← build (Module.newBlock "then")
  let elseBlock ← build (Module.newBlock "else")
  let merge ← build (Module.newBlock "merge")
  let tested ← valueOf cond
  let zero ← build (Module.const [0])
  let differs ← build (Module.binary .ne tested zero)
  build (Module.branchIf differs thenBlock elseBlock)
  let depth ← shadowDepth
  let r₁ ← choiceBranch gen site thenBlock merge 1 depth
  let r₂ ← choiceBranch gen site elseBlock merge 2 depth
  build (Module.setInsertPoint merge)
  choiceEnd site never r₁ r₂

/-- The test, with the three new blocks there. -/
theorem forked_eq (gen : SubGen) (site : Site) (never : Ty) {info : Info} {r : Nat}
    (ho : g.module.Open) (hc : g.module.registers = wrap R) (hr : r < R)
    (htemp : info.addressable = false) (hvalue : info.value = Value.run r 1) :
    ∃ m, m.slots = g.module.slots ∧ Emits g.module.addFork R m (R + 2) (Tests g.module R r) ∧
      forked gen site never info g = (do
        let r ← bothBranches gen site g.module.blocks.size g.shadow.length
        choiceEnd site never r.1 r.2) { g with module := m.add (forkAt g.module R) } := by
  obtain ⟨m₁, m₂, hconst, hbinary, hslots, htests⟩ := test_emits (Module.addFork_open ho) hc hr
  have hbinary' : build (Module.binary .ne info.value (Value.run R 1)) { g with module := m₁ }
      = .ok (Value.run (R + 1) 1) { g with module := m₂ } := by
    rw [hvalue]
    exact build_eq_ok hbinary
  refine ⟨m₂, hslots, htests, (fork_eq _ g).trans ?_⟩
  refine (bind_eq_ok (valueOf_temporary htemp _)).trans ((bind_eq_ok (build_eq_ok hconst)).trans
    ((bind_eq_ok hbinary').trans ((bind_eq_ok
      (build_eq_ok (Module.branchIf_eq htests.opened (R + 1) _ _))).trans ?_)))
  simp only [bothBranches, bind_assoc, pure_bind]
  rfl

/-- The branches of a choice, after its condition. -/
theorem forked_yields {gen : SubGen} {n₁ n₂ n₃ : Node} {ns₁ ns₂ ns₃ : List Node} {info : Info}
    {g₁ : Generator} {c₁ : Catalogue} {R₁ : Nat}
    (h : AtSite W node place g c R site (ns₁ ++ (ns₂ ++ ns₃)))
    (hnodup : (ns₁ ++ (ns₂ ++ ns₃)).Nodup)
    (hn : g.heap.arena.Owns site.node [Tag.cond.word, 0, n₁, n₂, n₃])
    (hspell₂ : Expr.Spells g.heap node t n₂ ns₂) (hspell₃ : Expr.Spells g.heap node e n₃ ns₃)
    (hwork₂ : Works W node place gen t n₂ ns₂) (hwork₃ : Works W node place gen e n₃ ns₃)
    (hW₂ : ∀ r ∈ t.types g.heap.types.scalars.integer, r ∈ W)
    (hW₃ : ∀ r ∈ e.types g.heap.types.scalars.integer, r ∈ W)
    (hset : Settled W place a ns₁ .value nowhere g c R info g₁ 1 c₁ R₁) :
    Outcome W place (.cond a t e) (site.node :: (ns₁ ++ (ns₂ ++ ns₃))) site.degree.inner
      site.storage g c R (forked gen site g₁.heap.types.scalars.doesNotReturn info) g₁ := by
  have hm₁ := hset.moves
  obtain ⟨htemp, ⟨r, hlo, hhi, hvalue, hcode⟩, hslots₁⟩ := hset.delivered
  have hready₁ := h.ready.next h.fresh.left hm₁ hset.room hcode
  have hscalars : g₁.heap.types.scalars = g.heap.types.scalars := hm₁.ext.scalars_eq
  obtain ⟨m, hslots, htests, hforked⟩ := forked_eq gen site
    g₁.heap.types.scalars.doesNotReturn hcode.opened hcode.count hhi htemp hvalue
  have hat₁ : site.degree ≠ .value → Writable place g₁ site.storage := by
    intro hd
    have hle := hcode.grows.slots_le
    exact ⟨Nat.lt_of_lt_of_le (h.slot hd).1 hle, (h.slot hd).2⟩
  have hahead : Ahead W node place gen t e n₂ n₃ ns₂ ns₃ site g₁ c₁ R₁ m (R₁ + 2) :=
    ⟨hready₁, h.fresh.after hnodup hm₁, (List.nodup_append.1 hnodup).2.1,
      ⟨n₁, hn.grows hm₁.ext.grows⟩, hspell₂.extends hm₁.ext, hspell₃.extends hm₁.ext, hwork₂,
      hwork₃, by rw [hscalars]; exact hW₂, by rw [hscalars]; exact hW₃, hat₁, ⟨_, htests⟩, hslots⟩
  refine Yields.congr hforked (Yields.bind ((bothBranches_yields hahead _).mono ?_ ?_))
  · intro r g' hbranched
    obtain ⟨c', w₁, w₂, mT, Rt, mE, Re, hbranched⟩ := hbranched
    rw [hscalars]
    exact choiceEnd_outcome h hset.width hm₁ hcode hset.few hslots₁ htests hslots hbranched
  · intro _ _ hwidth
    refine Expr.width_cond_none ?_
    intro w hw
    rcases hwidth with hwidth | hwidth
    · rw [hwidth] at hw
      cases hw.2.1
    · rw [hwidth] at hw
      cases hw.2.2

/-- A choice. -/
theorem choice_outcome {gen : SubGen} {n₁ n₂ n₃ : Node} {ns₁ ns₂ ns₃ : List Node}
    (h : AtSite W node place g c R site (ns₁ ++ ns₂ ++ ns₃)) (hnodup : (ns₁ ++ ns₂ ++ ns₃).Nodup)
    (hn : g.heap.arena.Owns site.node [Tag.cond.word, 0, n₁, n₂, n₃])
    (hspell₁ : Expr.Spells g.heap node a n₁ ns₁) (hspell₂ : Expr.Spells g.heap node t n₂ ns₂)
    (hspell₃ : Expr.Spells g.heap node e n₃ ns₃) (hwork₁ : Works W node place gen a n₁ ns₁)
    (hwork₂ : Works W node place gen t n₂ ns₂) (hwork₃ : Works W node place gen e n₃ ns₃)
    (hW : ∀ r ∈ (Expr.cond a t e).types g.heap.types.scalars.integer, r ∈ W) :
    Outcome W place (.cond a t e) (site.node :: (ns₁ ++ ns₂ ++ ns₃)) site.degree.inner site.storage
      g c R (body gen site .cond) g := by
  have hbody : body gen site .cond g = choice gen site g := rfl
  rw [List.append_assoc] at h hnodup ⊢
  rw [Expr.types] at hW
  have hnone : a.width ≠ some 1 → (Expr.cond a t e).width = none := fun hne =>
    Expr.width_cond_none fun w hw => hne hw.1
  have hchild : child site.node 0 g = .ok n₁ g := child_eq h.ready.standard.sized hn rfl rfl
  refine Yields.congr hbody ?_
  unfold choice
  refine Yields.bind_ok hchild ?_
  by_cases hzero : n₁ = 0
  · rw [if_pos hzero]
    have hnull := hspell₁.eq_null hzero
    exact hnone (by rw [hnull]; simp [Expr.width])
  rw [if_neg hzero]
  refine Yields.bind ((hwork₁ g c R .value nowhere h.ready hspell₁ h.fresh.left
    (fun r hr => hW r (List.mem_append_left _ (List.mem_append_left _ hr)))
    fun hd => by cases hd).mono ?_ fun _ _ hwidth => hnone (by rw [hwidth]; simp))
  intro info g₁ hset
  obtain ⟨w, c₁, R₁, hset⟩ := hset
  have hs₁ : g₁.heap.Standard c₁ := h.ready.standard.extends hset.moves.ext
  refine Yields.bind_ok (doesNotReturn_eq g₁) ?_
  rw [if_neg (hs₁.integers_returns hset.type)]
  have hfits : look (fun h => h.fits info.type h.types.scalars.integer) g₁
      = .ok (decide (w = 1)) g₁ := look_eq_ok (hs₁.fits_integer hset.type)
  refine Yields.bind_ok hfits ?_
  by_cases hw : w = 1
  · subst hw
    exact forked_yields h hnodup hn hspell₂ hspell₃ hwork₂ hwork₃
      (fun r hr => hW r (List.mem_append_left _ (List.mem_append_right _ hr)))
      (fun r hr => hW r (List.mem_append_right _ hr)) hset
  · rw [decide_eq_false hw]
    exact hnone (by rw [hset.width]; simpa using hw)

end TreeMachine.Compile
