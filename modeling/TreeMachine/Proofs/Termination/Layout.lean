import Mathlib.Data.List.Nodup
import TreeMachine.Code.Module

/-! # Blocks in an order

  A function of the host grants a budget, unit by unit: a block that asks it last goes on to
  its first target if it gets a unit, and to its second target otherwise.  The blocks of a
  module are laid out in an order if none leads back in it, or to itself, unless it gets a
  unit first.  Main statements: what each step of construction does to the order.
-/

namespace TreeMachine.Code

/-! ### Where blocks lead -/

/-- Where an instruction may lead other than to the next one. -/
def Instr.targets : Instr → List Int
  | .branch target => [target]
  | .branchIf _ target alt => [target, alt]
  | _ => []

/-- The block asks the function `ask` last, and goes on to `granted` if the answer is not
    zero and to `denied` otherwise. -/
def Block.Asks (ask : String) (b : Block) (granted denied : Int) : Prop :=
  ∃ before v, b.code.toList = before ++ [.call v ask [], .branchIf v granted denied] ∧
    v.words = 1 ∧ ∀ i ∈ before, i.targets = []

/-- Wherever the block leads without a unit of the budget is as `R` says. -/
def Block.LeadsTo (ask : String) (b : Block) (R : Int → Prop) : Prop :=
  (∀ i ∈ b.code.toList, ∀ t ∈ i.targets, R t) ∨
    ∃ granted denied, b.Asks ask granted denied ∧ R denied

/-- The block leads nowhere yet. -/
def Block.Straight (b : Block) : Prop := ∀ i ∈ b.code.toList, i.targets = []

/-- The order has `i` somewhere before `j`. -/
def Before (order : List Nat) (i j : Nat) : Prop := [i, j].Sublist order

/-- The target of a jump is a block after the block `i`. -/
def Ahead (order : List Nat) (i : Nat) (target : Int) : Prop :=
  ∃ j : Nat, target = j ∧ Before order i j

variable {ask : String} {b b' : Block} {R R' : Int → Prop} {order order' l₁ l₂ : List Nat}
  {i j k : Nat}

theorem Block.LeadsTo.imp (h : b.LeadsTo ask R) (hR : ∀ t, R t → R' t) : b.LeadsTo ask R' := by
  cases h with
  | inl hall => exact Or.inl fun i hi t ht => hR t (hall i hi t ht)
  | inr hasks =>
    obtain ⟨granted, denied, hb, hd⟩ := hasks
    exact Or.inr ⟨granted, denied, hb, hR denied hd⟩

theorem Block.Straight.leadsTo (h : b.Straight) : b.LeadsTo ask R := by
  refine Or.inl fun i hi t ht => ?_
  rw [h i hi] at ht
  cases ht

/-- Only the code of a block counts. -/
theorem Block.LeadsTo.congr (h : b.LeadsTo ask R) (hcode : b'.code = b.code) :
    b'.LeadsTo ask R := by
  unfold LeadsTo Asks at h ⊢
  rw [hcode]
  exact h

theorem Before.mono (h : Before order i j) (hsub : order.Sublist order') : Before order' i j :=
  List.Sublist.trans h hsub

theorem Before.ahead (h : Before order i j) : Ahead order i j := ⟨j, rfl, h⟩

theorem before_append (hi : i ∈ l₁) (hj : j ∈ l₂) : Before (l₁ ++ l₂) i j :=
  (List.singleton_sublist.2 hi).append (List.singleton_sublist.2 hj)

/-! ### Layouts -/

/-- The numbers of the blocks in an order in which no block leads back without a unit of the
    budget.  A block that has not ended leads nowhere yet. -/
structure LaidOut (ask : String) (blocks : Array Block) (order : List Nat) : Prop where
  nodup : order.Nodup
  mem_iff : ∀ i, i ∈ order ↔ i < blocks.size
  leads : ∀ (i : Nat) (b : Block), blocks[i]? = some b →
    b.LeadsTo ask (Ahead order i)
  straight : ∀ (i : Nat) (b : Block), blocks[i]? = some b → b.terminated = false → b.Straight

/-- What happens to a block when instructions that lead nowhere are added to it. -/
def Block.Extends (b b' : Block) : Prop :=
  if b.terminated then b'.code = b.code ∧ b'.terminated = true
  else ∃ added, b'.code.toList = b.code.toList ++ added ∧ ∀ i ∈ added, i.targets = []

namespace Block.Extends

theorem of_eq (hcode : b'.code = b.code) (hterm : b'.terminated = b.terminated) : b.Extends b' := by
  unfold Extends
  split
  · exact ⟨hcode, hterm.trans ‹_›⟩
  · refine ⟨[], ?_, fun _ hi => absurd hi List.not_mem_nil⟩
    rw [hcode, List.append_nil]

theorem refl (b : Block) : b.Extends b := of_eq rfl rfl

theorem trans {b'' : Block} (h : b.Extends b') (h' : b'.Extends b'') : b.Extends b'' := by
  unfold Extends at h h' ⊢
  by_cases ht : b.terminated = true
  · rw [if_pos ht] at h ⊢
    rw [if_pos h.2] at h'
    exact ⟨h'.1.trans h.1, h'.2⟩
  rw [if_neg ht] at h ⊢
  obtain ⟨added, hcode, hadded⟩ := h
  by_cases ht' : b'.terminated = true
  · rw [if_pos ht'] at h'
    exact ⟨added, by rw [h'.1, hcode], hadded⟩
  · rw [if_neg ht'] at h'
    obtain ⟨added', hcode', hadded'⟩ := h'
    refine ⟨added ++ added', by rw [hcode', hcode, List.append_assoc], fun i hi => ?_⟩
    exact (List.mem_append.1 hi).elim (hadded i) (hadded' i)

/-- Such instructions change nothing about where the block leads. -/
theorem leadsTo (h : b.Extends b') (hb : b.LeadsTo ask R) (hs : b.terminated = false → b.Straight) :
    b'.LeadsTo ask R ∧ (b'.terminated = false → b'.Straight) := by
  unfold Extends at h
  by_cases ht : b.terminated = true
  · rw [if_pos ht] at h
    refine ⟨hb.congr h.1, fun hf => ?_⟩
    rw [h.2] at hf
    cases hf
  · rw [if_neg ht] at h
    obtain ⟨added, hcode, hadded⟩ := h
    have hstraight : b'.Straight := by
      intro i hi
      rw [hcode] at hi
      exact (List.mem_append.1 hi).elim (hs (by simpa using ht) i) (hadded i)
    exact ⟨hstraight.leadsTo, fun _ => hstraight⟩

end Block.Extends

namespace LaidOut

variable {blocks blocks' : Array Block}

/-- The entry of a new module. -/
theorem entry (name : String) : LaidOut ask #[Module.emptyBlock name] [0] where
  nodup := List.nodup_singleton 0
  mem_iff i := by simp
  leads i b hb := by
    have hb : Module.emptyBlock name = b := by
      have hi := (Array.getElem?_eq_some_iff.1 hb).1
      simp_all
    subst hb
    exact Or.inl fun _ hi => by simp [Module.emptyBlock] at hi
  straight i b hb _ := by
    have hb : Module.emptyBlock name = b := by
      have hi := (Array.getElem?_eq_some_iff.1 hb).1
      simp_all
    subst hb
    exact fun _ hi => by simp [Module.emptyBlock] at hi

/-- A new block may stand anywhere in the order. -/
theorem push (h : LaidOut ask blocks (l₁ ++ l₂)) (name : String) :
    LaidOut ask (blocks.push (Module.emptyBlock name)) (l₁ ++ blocks.size :: l₂) := by
  have hsub : (l₁ ++ l₂).Sublist (l₁ ++ blocks.size :: l₂) :=
    (List.Sublist.refl l₁).append (List.sublist_cons_self _ l₂)
  have hnew : blocks.size ∉ l₁ ++ l₂ := fun hmem => Nat.lt_irrefl _ ((h.mem_iff _).1 hmem)
  -- Each block is an old one or the new one.
  have hcases : ∀ (i : Nat) (b : Block), (blocks.push (Module.emptyBlock name))[i]? = some b →
      blocks[i]? = some b ∨ b = Module.emptyBlock name := by
    intro i b hb
    rw [Array.getElem?_push] at hb
    split at hb
    · exact Or.inr (Option.some.inj hb).symm
    · exact Or.inl hb
  have hempty : (Module.emptyBlock name).Straight := fun _ hi => by simp [Module.emptyBlock] at hi
  refine ⟨?_, ?_, ?_, ?_⟩
  · rw [List.nodup_middle, List.nodup_cons]
    exact ⟨hnew, h.nodup⟩
  · intro i
    have hold := h.mem_iff i
    rw [List.mem_append] at hold
    rw [List.mem_append, List.mem_cons, Array.size_push, Nat.lt_succ_iff_lt_or_eq, ← hold]
    tauto
  · intro i b hb
    rcases hcases i b hb with hold | rfl
    · refine (h.leads i b hold).imp fun t ht => ?_
      obtain ⟨j, hj, hbefore⟩ := ht
      exact ⟨j, hj, hbefore.mono hsub⟩
    · exact hempty.leadsTo
  · intro i b hb hterm
    rcases hcases i b hb with hold | rfl
    · exact h.straight i b hold hterm
    · exact hempty

/-- Each block may change, if it leads to later ones afterwards. -/
theorem update (h : LaidOut ask blocks order) (hsize : blocks'.size = blocks.size)
    (hblocks : ∀ (i : Nat) (b' : Block), blocks'[i]? = some b' →
      b'.LeadsTo ask (Ahead order i) ∧
        (b'.terminated = false → b'.Straight)) : LaidOut ask blocks' order where
  nodup := h.nodup
  mem_iff i := by rw [hsize]; exact h.mem_iff i
  leads i b' hb' := (hblocks i b' hb').1
  straight i b' hb' := (hblocks i b' hb').2

/-- Blocks may get instructions that lead nowhere. -/
theorem extend (h : LaidOut ask blocks order) (hsize : blocks'.size = blocks.size)
    (hblocks : ∀ (i : Nat) (b' : Block), blocks'[i]? = some b' →
      ∃ b, blocks[i]? = some b ∧ b.Extends b') :
    LaidOut ask blocks' order := by
  refine h.update hsize fun i b' hb' => ?_
  obtain ⟨b, hb, hext⟩ := hblocks i b' hb'
  exact hext.leadsTo (h.leads i b hb) (h.straight i b hb)

/-- One block may change, if it leads to later ones afterwards. -/
theorem modify (h : LaidOut ask blocks order) {f : Block → Block}
    (hf : ∀ b : Block, blocks[k]? = some b → b.terminated = false →
      (f b).LeadsTo ask (Ahead order k) ∧
        ((f b).terminated = false → (f b).Straight))
    (hended : ∀ b : Block, b.terminated = true → f b = b) :
    LaidOut ask (blocks.modify k f) order := by
  refine h.update (by simp) fun i b' hb' => ?_
  rw [Array.getElem?_modify] at hb'
  by_cases hk : k = i
  · subst hk
    rw [if_pos rfl, Option.map_eq_some_iff] at hb'
    obtain ⟨b, hb, rfl⟩ := hb'
    cases hterm : b.terminated with
    | false => exact hf b hb hterm
    | true =>
      rw [hended b hterm]
      exact ⟨h.leads k b hb, h.straight k b hb⟩
  · rw [if_neg hk] at hb'
    exact ⟨h.leads i b' hb', h.straight i b' hb'⟩

end LaidOut

/-! ### Steps of construction -/

theorem pushInstr_ended (i : Instr) (h : b.terminated = true) : Module.pushInstr i b = b := by
  rw [Module.pushInstr, if_pos h]

theorem pushInstr_code (i : Instr) (h : b.terminated = false) :
    (Module.pushInstr i b).code = b.code.push i ∧
      (Module.pushInstr i b).terminated = i.opcode.terminates := by
  rw [Module.pushInstr, if_neg (by simp [h])]
  exact ⟨rfl, rfl⟩

theorem pushInstr_extends {i : Instr} (hi : i.targets = []) : b.Extends (Module.pushInstr i b) := by
  unfold Block.Extends
  split
  · rename_i hterm
    rw [pushInstr_ended i hterm]
    exact ⟨rfl, hterm⟩
  · rename_i hterm
    refine ⟨[i], ?_, by simpa using hi⟩
    rw [(pushInstr_code i (by simpa using hterm)).1, Array.toList_push]

namespace Module

variable {α β : Type} {m m' m'' : Module}

/-- The current block and the others have got instructions that lead nowhere. -/
structure Extends (m m' : Module) : Prop where
  cur : m'.cur = m.cur
  size : m'.blocks.size = m.blocks.size
  blocks : ∀ (i : Nat) (b' : Block), m'.blocks[i]? = some b' →
    ∃ b, m.blocks[i]? = some b ∧ b.Extends b'

namespace Extends

theorem of_eq (hcur : m'.cur = m.cur) (hblocks : m'.blocks = m.blocks) : m.Extends m' where
  cur := hcur
  size := congrArg Array.size hblocks
  blocks _ b' hb' := ⟨b', hblocks ▸ hb', .refl b'⟩

theorem refl (m : Module) : m.Extends m := of_eq rfl rfl

theorem trans (h : m.Extends m') (h' : m'.Extends m'') : m.Extends m'' where
  cur := h'.cur.trans h.cur
  size := h'.size.trans h.size
  blocks i b'' hb'' := by
    obtain ⟨b', hb', hext'⟩ := h'.blocks i b'' hb''
    obtain ⟨b, hb, hext⟩ := h.blocks i b' hb'
    exact ⟨b, hb, hext.trans hext'⟩

theorem modify {f : Block → Block} (hf : ∀ b : Block, b.Extends (f b)) (k : Nat) :
    m.Extends { m with blocks := m.blocks.modify k f } where
  cur := rfl
  size := Array.size_modify
  blocks i b' hb' := by
    rw [Array.getElem?_modify] at hb'
    split at hb'
    · obtain ⟨b, hb, rfl⟩ := Option.map_eq_some_iff.1 hb'
      exact ⟨b, hb, hf b⟩
    · exact ⟨b', hb', .refl b'⟩

end Extends

/-- In every module the step adds instructions that lead nowhere, and no blocks. -/
def Stays (x : Build α) : Prop := ∀ m : Module, m.Extends (x m).2

namespace Stays

theorem pure (a : α) : Stays (Pure.pure a) := fun m => .refl m

theorem bind {x : Build α} {f : α → Build β} (hx : Stays x) (hf : ∀ a, Stays (f a)) :
    Stays (x >>= f) :=
  fun m => (hx m).trans (hf _ _)

theorem ite {p : Prop} [Decidable p] {x y : Build α} (hx : Stays x) (hy : Stays y) :
    Stays (if p then x else y) := by
  split
  · exact hx
  · exact hy

/-- The step may depend on the module. -/
theorem of_get {f : Module → Build α} (hf : ∀ m, Stays (f m)) : Stays (do f (← get)) :=
  fun m => hf m m

end Stays

theorem fail_stays (e : BuildError) : Stays (fail e) := fun _ => .of_eq rfl rfl

theorem fresh_stays (words : Int) : Stays (fresh words) := by
  intro m
  unfold fresh
  split
  · exact .refl m
  · exact .of_eq rfl rfl

theorem emit_stays {i : Instr} (hi : i.targets = []) : Stays (emit i) :=
  .of_get fun _ => .ite (fail_stays _) fun _ => .modify (fun _ => pushInstr_extends hi) _

theorem reserve_stays (slot words : Int) : Stays (reserve slot words) :=
  .of_get fun _ => .ite (fun _ => .of_eq rfl rfl) (fail_stays _)

theorem alloca_stays : Stays alloca := fun _ => .of_eq rfl rfl

theorem const_stays (ws : List UInt64) : Stays (const ws) :=
  (fresh_stays _).bind fun _ =>
    .ite (.bind (emit_stays rfl) fun _ => .pure _) (.pure _)

theorem binary_stays (op : BinaryOp) (a b : Value) : Stays (binary op a b) := by
  have hrest : Stays (do
      let v ← fresh 1
      emit (.binary op v a b)
      return v) :=
    (fresh_stays 1).bind fun _ => .bind (emit_stays rfl) fun _ => .pure _
  unfold binary
  exact .ite (.bind (fail_stays _) fun _ => hrest) hrest

theorem phi_stays (a : Value) (fromA : Int) (b : Value) (fromB : Int) :
    Stays (phi a fromA b fromB) := by
  have hrest : Stays (do
      let v ← fresh a.words
      if !v.isVoid then
        let merged : Phi := ⟨v, [(fromA, a), (fromB, b)]⟩
        modify fun m => { m with
          blocks := m.blocks.modify m.cur fun blk => { blk with phis := blk.phis.push merged } }
      return v) :=
    (fresh_stays _).bind fun v => by
      have hmerge (f : Block → Block) (hf : ∀ b : Block, b.Extends (f b)) :
          Stays (modify fun m => { m with blocks := m.blocks.modify m.cur f }) :=
        fun m => .modify hf m.cur
      exact .ite (.bind (hmerge _ fun _ => .of_eq rfl rfl) fun _ => .pure _) (.pure _)
  unfold phi
  exact .ite (.bind (fail_stays _) fun _ => hrest) hrest

theorem store_stays (slot off : Int) (v : Value) : Stays (store slot off v) := by
  unfold store
  exact .ite (.pure _) (.bind (reserve_stays _ _) fun _ => emit_stays rfl)

theorem load_stays (slot off words : Int) : Stays (load slot off words) :=
  (fresh_stays _).bind fun _ =>
    .ite (.bind (reserve_stays _ _) fun _ => .bind (emit_stays rfl) fun _ => .pure _) (.pure _)

theorem address_stays (slot off : Int) : Stays (address slot off) :=
  (fresh_stays 1).bind fun _ => .bind (emit_stays rfl) fun _ => .pure _

theorem storeIndirect_stays (addr v : Value) : Stays (storeIndirect addr v) := by
  unfold storeIndirect
  exact .ite (emit_stays rfl) (.pure _)

theorem loadIndirect_stays (addr : Value) (words : Int) : Stays (loadIndirect addr words) :=
  (fresh_stays _).bind fun _ => .ite (.bind (emit_stays rfl) fun _ => .pure _) (.pure _)

theorem call_stays (host : String) (args : List Value) (results : Int) :
    Stays (call host args results) :=
  (fresh_stays _).bind fun _ => .bind (emit_stays rfl) fun _ => .pure _

theorem ret_stays (v : Value) : Stays (ret v) := by
  have hrest : Stays (do
      modify fun m => { m with returns := if 0 ≤ v.words then some v.words else none }
      emit (.ret v)) :=
    .bind (fun _ => .of_eq rfl rfl) fun _ => emit_stays rfl
  refine .of_get fun m => ?_
  cases m.returns with
  | none => exact hrest
  | some before => exact .ite (.bind (fail_stays _) fun _ => hrest) hrest

/-! ### Jumps -/

/-- Closing a module ends its blocks with traps, which lead nowhere. -/
theorem endWithTrap_extends (b : Block) : b.Extends (endWithTrap b) := by
  unfold Block.Extends endWithTrap
  split
  · exact ⟨rfl, ‹_›⟩
  · exact ⟨[.trap], by simp, by simp [Instr.targets]⟩

/-- An instruction goes to the current block, unless the module has been closed. -/
theorem emit_blocks (i : Instr) (m : Module) : (emit i m).2.cur = m.cur ∧
    (emit i m).2.closed = m.closed ∧ (emit i m).2.blocks =
      if m.closed then m.blocks else m.blocks.modify m.cur (pushInstr i) := by
  have hemit : emit i m = (if m.closed = true then fail .emitAfterFinalize else
      modify fun m => { m with blocks := m.blocks.modify m.cur (pushInstr i) } : Build Unit)
        m := rfl
  rw [hemit]
  split
  · exact ⟨rfl, rfl, rfl⟩
  · exact ⟨rfl, rfl, rfl⟩

end Module

namespace LaidOut

open TreeMachine.Code.Module

variable {m : Module}

/-- An instruction that leads to later blocks. -/
theorem emit (h : LaidOut ask m.blocks order) {i : Instr}
    (hi : ∀ t ∈ i.targets, Ahead order m.cur t) (hends : i.opcode.terminates = true) :
    (Module.emit i m).2.cur = m.cur ∧ LaidOut ask (Module.emit i m).2.blocks order := by
  obtain ⟨hcur, -, hblocks⟩ := emit_blocks i m
  refine ⟨hcur, ?_⟩
  rw [hblocks]
  split
  · exact h
  · refine h.modify (fun b hb hterm => ?_) fun b hterm => pushInstr_ended i hterm
    obtain ⟨hcode, hended⟩ := pushInstr_code i hterm
    refine ⟨Or.inl fun x hx t ht => ?_, fun hf => ?_⟩
    · rw [hcode, Array.toList_push, List.mem_append, List.mem_singleton] at hx
      rcases hx with hx | rfl
      · rw [h.straight _ b hb hterm x hx] at ht
        cases ht
      · exact hi t ht
    · rw [hended, hends] at hf
      cases hf

/-- A jump to a later block. -/
theorem branch (h : LaidOut ask m.blocks order) (hj : Before order m.cur j) :
    (Module.branch j m).2.cur = m.cur ∧ LaidOut ask (Module.branch j m).2.blocks order :=
  h.emit (by simpa [Instr.targets] using hj.ahead) rfl

/-- A choice between jumps to later blocks. -/
theorem branchIf (h : LaidOut ask m.blocks order) (cond : Value) (hi : Before order m.cur i)
    (hj : Before order m.cur j) : (Module.branchIf cond i j m).2.cur = m.cur ∧
      LaidOut ask (Module.branchIf cond i j m).2.blocks order := by
  have hboth : ∀ t ∈ (Instr.branchIf cond i j).targets, Ahead order m.cur t := by
    simpa [Instr.targets] using ⟨hi.ahead, hj.ahead⟩
  unfold Module.branchIf
  split
  · exact emit (m := (fail _ m).2) h hboth rfl
  · exact h.emit hboth rfl

/-- A jump to any block, which is only taken if the budget has a unit for it. -/
theorem asks (h : LaidOut ask m.blocks order) (i : Nat) (hj : Before order m.cur j) :
    let call := Module.call ask [] 1 m
    (Module.branchIf call.1 i j call.2).2.cur = m.cur ∧
      LaidOut ask (Module.branchIf call.1 i j call.2).2.blocks order := by
  let v : Value := ⟨m.registers, 1⟩
  let m₁ : Module := { m with registers := wrap (m.registers + 1) }
  have hcall : Module.call ask [] 1 m = (v, (Module.emit (.call v ask []) m₁).2) := rfl
  have hbranch (m : Module) : Module.branchIf v i j m = Module.emit (.branchIf v i j) m := by
    unfold Module.branchIf
    rw [if_neg (by simp [v])]
  rw [hcall]
  dsimp only
  rw [hbranch]
  obtain ⟨hcur, hclosed, hblocks⟩ := emit_blocks (.call v ask []) m₁
  obtain ⟨hcur', -, hblocks'⟩ := emit_blocks (.branchIf v i j) (Module.emit (.call v ask []) m₁).2
  refine ⟨hcur'.trans hcur, ?_⟩
  rw [hblocks', hclosed, hcur, hblocks]
  by_cases hm : m₁.closed = true
  · rw [if_pos hm, if_pos hm]
    exact h
  rw [if_neg hm, if_neg hm]
  have htwice : (m₁.blocks.modify m₁.cur (pushInstr (.call v ask []))).modify m₁.cur
      (pushInstr (.branchIf v i j))
      = m.blocks.modify m.cur (pushInstr (.branchIf v i j) ∘ pushInstr (.call v ask [])) := by
    refine Array.ext' ?_
    rw [Array.toList_modify, Array.toList_modify, List.modify_modify_eq, Array.toList_modify]
  rw [htwice]
  refine h.modify (fun b hb hterm => ?_) fun b hterm => ?_
  · -- The question and the jump are the last two instructions of the block.
    obtain ⟨hcode, hended⟩ := pushInstr_code (.call v ask []) hterm
    obtain ⟨hcode', hended'⟩ := pushInstr_code (.branchIf v i j) hended
    refine ⟨Or.inr ⟨i, j, ⟨b.code.toList, v, ?_, rfl, h.straight _ b hb hterm⟩, hj.ahead⟩, ?_⟩
    · rw [Function.comp_apply, hcode', hcode]
      simp
    · intro hf
      rw [Function.comp_apply, hended'] at hf
      cases hf
  · rw [Function.comp_apply, pushInstr_ended _ hterm, pushInstr_ended _ hterm]

/-- Closing a module leads nowhere new. -/
theorem finalize (h : LaidOut ask m.blocks order) {p : Program} {m' : Module}
    (hm : m.finalize = .ok (p, m')) : LaidOut ask p.blocks order := by
  unfold Module.finalize at hm
  split at hm
  · cases hm
  split at hm
  · cases hm
  · cases hm
    refine h.extend (by simp) fun i b' hb' => ?_
    rw [Array.getElem?_map, Option.map_eq_some_iff] at hb'
    obtain ⟨b, hb, rfl⟩ := hb'
    exact ⟨b, hb, endWithTrap_extends b⟩

/-- The order tells how many blocks there are. -/
theorem size_eq {blocks blocks' : Array Block} (h : LaidOut ask blocks order)
    (h' : LaidOut ask blocks' order) : blocks'.size = blocks.size := by
  have hlt (i : Nat) : i < blocks'.size ↔ i < blocks.size := by rw [← h'.mem_iff, h.mem_iff]
  have := hlt blocks.size
  have := hlt blocks'.size
  omega

end LaidOut

end TreeMachine.Code
