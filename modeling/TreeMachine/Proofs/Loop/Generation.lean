import TreeMachine.Proofs.Compile.Root
import TreeMachine.Proofs.Loop.Statements

/-! # Generating a loop

  A loop is a block: its variables, a label, its assignments, a jump back and a copy of the
  result.  Main statement: the code of a loop enters the label with the first values of the
  variables, each pass does the assignments, and past the jump the result is returned.
-/

namespace TreeMachine

open Code (Module Value Program Frame Stands wrap Contains Leads)
open Code.Module (Emits)
open Source (IsNumber)

namespace Compile

variable {X : Type} {W : List Record} {node : X → Node} {place : X → Location} {g : Generator}
  {c : Catalogue} {R : Nat}

/-! ### Jumps back -/

/-- Code alone moves no variable. -/
theorem Slotted.of_grows {g' : Generator} {n : Node} {at_ : Location} (h : Slotted g n at_)
    (hheap : g'.heap = g.heap) (hmemo : g'.memo = g.memo) (hg : g.module.Grows g'.module) :
    Slotted g' n at_ := by
  obtain ⟨size, hsize, hle⟩ := h.room
  obtain ⟨size', hsize', hle'⟩ := hg.slots _ size hsize
  refine ⟨h.real, ?_, size', hsize', Int.le_trans hle hle'⟩
  rw [hheap, hmemo]
  exact h.memo

/-- Generating a jump back without branches of its own. -/
theorem jump_eq {depth : Nat} {site : Site} {l : Node} {t : Nat} (hs : g.heap.Standard c)
    (ho : g.module.Open) (hcount : g.module.registers = wrap R)
    (hj : g.heap.arena.Owns site.node [Tag.goto.word, 0, l, 0, 0]) (hl : l ≠ 0)
    (hlabel : g.labels.get? l = some ⟨t, false⟩) (hdegree : site.degree = .ownSlot)
    (hdepth : site.depth = g.shadow.length) :
    ∃ n, n = wrap (R + 1 : Nat) ∧ jump (generate depth) site g
      = .ok ⟨.void, ⟨0, 0⟩, 0, site.lifetime, false, .unbounded⟩
        { g with
          module := g.module.jumpBack HostName.finiteness.text "again" "exhausted" t R n } := by
  -- The modules of the jump, from step to step.
  let a := g.module.blocks.size
  let m₁ := (g.module.addBlock "again").addBlock "exhausted"
  have ho₁ : m₁.Open := Module.addBlock_open (Module.addBlock_open ho)
  obtain ⟨n, hn, hcall⟩ := @Module.call_eq m₁ R HostName.finiteness.text ho₁ hcount
  let m₂ := m₁.addCall HostName.finiteness.text R n
  let m₃ := m₂.goOn (.branchIf (Value.run R 1) a (a + 1 : Nat)) a
  let m₄ := g.module.jumpBack HostName.finiteness.text "again" "exhausted" t R n
  obtain ⟨-, -, ho₂, -, -, ho₃, -, -⟩ :=
    @Module.jumpBack_stages g.module R HostName.finiteness.text "again" "exhausted" n ho
  have hsize₂ : (m₂.add (.branchIf (Value.run R 1) a (a + 1 : Nat))).blocks.size = a + 2 := by
    rw [Module.size_add]
    show (m₁.add _).blocks.size = _
    rw [Module.size_add, Module.size_addBlock, Module.size_addBlock]
  have hchild : ∀ (m : Module) (i : Nat) (w : UInt64), [l, 0, 0][i]? = some w →
      child site.node i { g with module := m } = .ok w { g with module := m } := fun m i w hi =>
    @child_eq { g with module := m } site.node .goto 0 [l, 0, 0] hs.sized hj rfl i w hi
  have hagain : build (Module.newBlock "again") g
      = .ok a { g with module := g.module.addBlock "again" } := build_eq_ok (Module.newBlock_eq _ _)
  have hexhausted : build (Module.newBlock "exhausted")
      { g with module := g.module.addBlock "again" } = .ok (a + 1) { g with module := m₁ } := by
    refine build_eq_ok ?_
    rw [Module.newBlock_eq]
    exact congrArg (·, m₁) (Module.size_addBlock _ _)
  have hask : build (Module.call HostName.finiteness.text [] 1) { g with module := m₁ }
      = .ok (Value.run R 1) { g with module := m₂ } := build_eq_ok hcall
  have hbranch := @build_eq_ok { g with module := m₂ } _ _ _ _
    (Module.branchIf_eq ho₂ R (a : Int) ((a + 1 : Nat) : Int))
  have hpoint : build (Module.setInsertPoint a)
      { g with module := m₂.add (.branchIf (Value.run R 1) a (a + 1 : Nat)) }
      = .ok () { g with module := m₃ } :=
    build_eq_ok (Module.setInsertPoint_eq (by rw [hsize₂]; omega))
  have hback : build (Module.branch t) { g with module := m₃ }
      = .ok () { g with module := m₃.add (.branch t) } := build_eq_ok (Module.emit_eq ho₃ _)
  have hafter : build (Module.setInsertPoint (a + 1 : Nat)) { g with module := m₃.add (.branch t) }
      = .ok () { g with module := m₄ } := by
    refine build_eq_ok (Module.setInsertPoint_eq ?_)
    rw [Module.size_add, Module.size_goOn, ← Module.size_add, hsize₂]
    omega
  have hclear : clearStack g.shadow.length { g with module := m₃ }
      = .ok () { g with module := m₃ } := by
    rw [clearStack_eq]
    exact congrArg (EStateM.Result.ok ()) (clear_same { g with module := m₃ })
  have hnull : generate depth 0 .storeInto site.storage { g with module := m₄ }
      = .ok .none { g with module := m₄ } := by
    cases depth <;> rfl
  have hfinish := @finish_zero { g with module := m₄ } c site .void 0 .unbounded false hs rfl
  have hkeep : dropped site { g with module := m₄ } = { g with module := m₄ } := by
    rw [dropped, if_pos hdegree, hdepth]
    exact clear_same { g with module := m₄ }
  rw [hkeep] at hfinish
  have hvalue : site.degree ≠ .value := by
    rw [hdegree]
    decide
  have htarget : branchTarget site = (.storeInto, site.storage) := if_neg hvalue
  refine ⟨n, hn, ?_⟩
  unfold jump
  refine (bind_eq_ok (hchild _ 0 l rfl)).trans ?_
  rw [if_neg hl]
  refine get_bind_eq.trans ?_
  rw [hlabel]
  refine (bind_eq_ok hagain).trans ((bind_eq_ok hexhausted).trans ((bind_eq_ok hask).trans
    ((bind_eq_ok hbranch).trans ((bind_eq_ok hpoint).trans ?_))))
  -- There is no branch to be done before the jump, and none after it.
  refine (bind_eq_ok (hchild _ 1 0 rfl)).trans ?_
  rw [if_neg (fun hne => hne rfl), htarget]
  refine (bind_eq_ok hclear).trans ((bind_eq_ok hback).trans ((bind_eq_ok hafter).trans ?_))
  refine (bind_eq_ok (hchild _ 2 0 rfl)).trans ((bind_eq_ok hnull).trans ?_)
  unfold passThrough
  rw [if_neg hvalue]
  exact hfinish

/-- A jump back without branches of its own asks for a unit of the budget. -/
theorem jump_generates {depth : Nat} {j l : Node} {t : Nat} (hready : Ready W node place g c R)
    (hfresh : Fresh g [j]) (hj : g.heap.arena.Owns j [Tag.goto.word, 0, l, 0, 0]) (hl : l ≠ 0)
    (hlabel : g.labels.get? l = some ⟨t, false⟩) :
    ∃ info g' n, generate (depth + 1) j .ownSlot nowhere g = .ok info g' ∧
      Passes W node place [j] 1 g c R g' c (R + 1) ∧
      g'.module = Module.jumpBack HostName.finiteness.text "again" "exhausted" t R n
        { g.module with slots := g.module.slots.push 0 } := by
  have hs := hready.standard
  let g₀ := entered j .ownSlot g
  have hready₀ : Ready W node place g₀ c R := hready.enter j .ownSlot
  have ho := hready₀.opened
  let site : Site := ⟨j, .ownSlot, ⟨g.module.slots.size, 0⟩, g.clock, g.shadow.length⟩
  obtain ⟨n, hn, hbody⟩ :=
    @jump_eq g₀ c R depth site l t hs ho hready₀.count hj hl hlabel rfl rfl
  let m := g₀.module.jumpBack HostName.finiteness.text "again" "exhausted" t R n
  let g₁ : Generator := { g₀ with module := m, active := g.active }
  let info : Info := ⟨.void, ⟨0, 0⟩, 0, g.clock, false, .unbounded⟩
  have hgen : generate (depth + 1) j .ownSlot nowhere g = .ok info g₁ := by
    have herase : (j :: g.active).erase j = g.active := List.erase_cons_head _ _
    rw [generate_eq_ok hs.sized hj (hfresh j List.mem_cons_self).1 hbody]
    exact congrArg (fun l => EStateM.Result.ok info { g₀ with module := m, active := l }) herase
  have hcode := (entered_emits hready j .ownSlot).grows.trans
    (@Module.jumpBack_grows _ R HostName.finiteness.text "again" "exhausted" t n ho)
  have hready₁ : Ready W node place g₁ c (R + 1) :=
    ⟨hs, hready.idle, hready.room, Module.jumpBack_open ho, hn, fun x =>
      (hready.vars x).of_grows rfl rfl hcode⟩
  refine ⟨info, g₁, n, hgen, ⟨hready₁, .refl hs.toInterned, rfl, fun _ _ _ => rfl, fun _ _ => rfl,
    Nat.le_refl _, [0], ?_, by simp⟩, rfl⟩
  show (g.module.slots.push 0).toList = _
  rw [Array.toList_push]

/-! ### Statements one after the other -/

theorem statements_append (gen : SubGen) (ns ns' : List Node) :
    statements gen (ns ++ ns') = (statements gen ns >>= fun _ => statements gen ns') := by
  induction ns with
  | nil => rfl
  | cons n ns ih =>
    rw [List.cons_append, statements, statements, ih, bind_assoc]

section Assignments

variable {k : Nat} {x : Fin k → Node} {at_ : Fin k → Location}
  {as : List (Fin k × WordExpr (Fin k))} {ss ns : List Node}

/-- Assignments stay where they are as the heap grows. -/
theorem assignsAll_extends {h h' : Heap} {c' : Catalogue} (hext : Heap.Extends h c h' c')
    (ha : Loop.AssignsAll h x as ss ns) : Loop.AssignsAll h' x as ss ns := by
  induction as generalizing ss ns with
  | nil => exact ha
  | cons a as ih =>
    obtain ⟨n, ss', ns₁, ns₂, rfl, rfl, ⟨q, e, ns', rfl, hn, hq, hspell⟩, hrest⟩ := ha
    exact ⟨n, ss', _, ns₂, rfl, rfl, ⟨q, e, ns', rfl, hn.grows hext.grows, hq.grows hext.grows,
      hspell.extends hext⟩, ih hrest⟩

/-- The bound on the registers and slots of assignments. -/
def assignsVolume (as : List (Fin k × WordExpr (Fin k))) : Nat :=
  (as.map fun a => 1 + a.2.expr.volume).sum

theorem assignsVolume_le (as : List (Fin k × WordExpr (Fin k))) :
    assignsVolume as ≤ (as.map Loop.assignCost).sum := by
  induction as with
  | nil => exact Nat.le_refl 0
  | cons a as ih =>
    have := a.2.volume_le
    simp only [assignsVolume, List.map_cons, List.sum_cons, Loop.assignCost] at ih ⊢
    omega

/-- A list of assignments does them one after the other. -/
theorem assigns_generate {depth : Nat} (hplace : Function.Injective fun i => (at_ i).slot)
    (hready : Ready W x at_ g c R) (hfresh : Fresh g ns) (hnodup : ns.Nodup)
    (hlen : ns.length ≤ depth) (has : Loop.AssignsAll g.heap x as ss ns)
    (hW : .pointer g.heap.types.scalars.integer ∈ W) :
    ∃ g' c' R', statements (generate (depth + 1)) ss g = .ok () g' ∧
      Passes W x at_ ns (assignsVolume as) g c R g' c' R' ∧
      Emits g.module R g'.module R' fun p f f' => ∀ env, Env at_ p f env →
        Env at_ p f' (as.foldl Loop.assign env) := by
  induction as generalizing g c R ss ns with
  | nil =>
    obtain ⟨rfl, rfl⟩ := has
    refine ⟨g, c, R, rfl, .refl hready, (Emits.refl hready.opened hready.count).imp ?_⟩
    intro p S f f' hcon hf hsame env henv
    subst hsame
    exact henv
  | cons a as ih =>
    obtain ⟨n, ss', ns₁, ns₂, rfl, rfl, ⟨q, e, ns', rfl, hn, hq, hspell⟩, hrest⟩ := has
    obtain ⟨hnodup₁, hnodup₂, -⟩ := List.nodup_append.1 hnodup
    rw [List.length_append] at hlen
    have hshort : (q :: ns').length ≤ depth := by
      simp only [List.length_cons] at hlen ⊢
      omega
    obtain ⟨info, g₁, c₁, R₁, hrun₁, hpass₁, hcode₁⟩ :=
      assign_generates hplace hready hfresh.left hnodup₁ hshort hn hq hspell hW
    have hW₁ : .pointer g₁.heap.types.scalars.integer ∈ W := by
      rw [hpass₁.ext.scalars_eq]
      exact hW
    obtain ⟨g₂, c₂, R₂, hrun₂, hpass₂, hcode₂⟩ := ih hpass₁.ready
      (hpass₁.fresh hready hfresh hnodup) hnodup₂ (by omega)
      (assignsAll_extends hpass₁.ext hrest) hW₁
    refine ⟨g₂, c₂, R₂, ?_, hpass₁.trans hpass₂, (hcode₁.trans hcode₂).imp ?_⟩
    · rw [statements]
      exact (bind_eq_ok hrun₁).trans hrun₂
    · intro p S f f' hcon hf hdone env henv
      obtain ⟨f₁, hf₁, hdone₁, hdone₂⟩ := hdone
      exact hdone₂ _ (hdone₁ env henv)

end Assignments

/-! ### The whole block -/

section Block

variable {k : Nat} {L : Loop k} {root l j y : Node} {x : Fin k → Node} {ss ns : List Node}

/-- The slots of the variables, after the slot of the block. -/
def slotOf (i : Fin k) : Location := ⟨1 + i, 0⟩

theorem slotOf_injective : Function.Injective fun i : Fin k => (slotOf i).slot := by
  intro i i' heq
  simp only [slotOf] at heq
  exact Fin.ext (by omega)

/-- The code of the statements of a loop: `mL` ends at the block `t` of the label, and `mB`
    after the assignments. -/
structure Cycles (L : Loop k) (name : String) (mL : Module) (R t : Nat) (mB : Module) (RB : Nat) :
    Prop where
  enters : Emits (.create name) 0 mL R fun p _ f' => Env slotOf p f' L.init
  target : mL.here = ⟨t, 0⟩
  block : mL.blocks[t]? = some (Module.emptyBlock "label")
  body : Emits mL R mB RB fun p f f' => ∀ env, Env slotOf p f env → Env slotOf p f' (L.pass env)

/-- The module after the jump back. -/
def jumped (t : Nat) (mB : Module) (RB : Nat) (n : Int) : Module :=
  mB.jumpBack HostName.finiteness.text "again" "exhausted" t RB n

/-- The code of a loop, which ends with the result in the register `r` of `mE`. -/
structure Coded (L : Loop k) (name : String) (mL : Module) (R t : Nat) (mB : Module) (RB : Nat)
    (n : Int) (mE : Module) (RE r : Nat) : Prop extends Cycles L name mL R t mB RB where
  leaves : Emits (jumped t mB RB n) (RB + 1) mE RE fun p f f' => ∀ env, Env slotOf p f env →
    f'.regs[r]? = some (env L.result)
  reg : r < RE
  few : RE ≤ L.cost
  slots : mE.slots.toList.sum ≤ L.cost

/-- The variables have been generated, and the label is placed. -/
theorem entry_generates {depth : Nat} {h : Heap} (hlaid : L.Laid h root x l ss ns j y)
    (hready : Ready W (Empty.elim : Empty → Node) Empty.elim g c 0) (hheap : g.heap = h)
    (hfresh : Fresh g (List.ofFn x ++ [l])) (hslots : g.module.slots = #[0])
    (hlabels : g.labels = .empty) :
    ∃ g₁ t, statements (generate (depth + 1)) (List.ofFn x ++ [l]) g = .ok () g₁ ∧
      Ready W x slotOf g₁ c k ∧ Heap.Extends h c g₁.heap c ∧ g₁.active = g.active ∧
      (∀ n, n ∉ List.ofFn x ++ [l] → g₁.memo.get? n = g.memo.get? n) ∧
      (∃ new, g₁.module.slots.toList = 0 :: new ∧ new.sum ≤ k) ∧
      g₁.labels.get? l = some ⟨t, false⟩ ∧ g₁.module.here = ⟨t, 0⟩ ∧
      g₁.module.blocks[t]? = some (Module.emptyBlock "label") ∧
      Emits g.module 0 g₁.module k fun p _ f' => Env slotOf p f' L.init := by
  have hnodup := (List.nodup_cons.1 hlaid.nodup).2
  have hvars := (List.nodup_append.1 hnodup).1
  have hl : l ∉ List.ofFn x := fun hmem =>
    (List.nodup_append.1 hnodup).2.2 l hmem l List.mem_cons_self rfl
  have hentry : (List.ofFn x ++ [l]).Nodup :=
    hvars.append (List.nodup_singleton l) (List.disjoint_singleton.2 hl)
  have hnumbers : List.Forall₂ (IsNumber g.heap) (List.ofFn L.init) (List.ofFn x) := by
    rw [hheap, List.forall₂_iff_get]
    refine ⟨by simp, fun i hi hi' => ?_⟩
    simpa using hlaid.vars ⟨i, by simpa using hi⟩
  obtain ⟨g₁, hrun₁, hm₁, hheap₁, hslot₁, hslots₁, hcode₁⟩ := numbers_generate hready
    hfresh.left hvars hnumbers depth
  have hsize : g.module.slots.size = 1 := by rw [hslots]; rfl
  rw [hsize] at hslot₁ hcode₁
  rw [List.length_ofFn, Nat.zero_add] at hcode₁
  have hready₁ : Ready W x slotOf g₁ c k := by
    have hr := hready.next hfresh.left hm₁
      (by rw [hheap₁]; exact hready.room) hcode₁
    refine ⟨hr.standard, hr.idle, hr.room, hr.opened, hr.count, fun i => ?_⟩
    exact hslot₁ i (x i) (by rw [List.getElem?_ofFn, dif_pos i.2])
  have hfresh₁ : Fresh g₁ [l] := hfresh.after hentry hm₁
  obtain ⟨info, g₂, hrun₂, hpass₂, hlabel₂, hhere₂, hblock₂, hcode₂⟩ :=
    @label_generates _ W x slotOf g₁ c k depth l hready₁ hfresh₁
      (by rw [hheap₁, hheap]; exact hlaid.label) (by rw [hm₁.labels, hlabels]; rfl)
  have hext := hm₁.ext.trans hpass₂.ext
  rw [hheap] at hext
  obtain ⟨new, hnew, hsum⟩ := hpass₂.slots
  refine ⟨g₂, _, ?_, hpass₂.ready, hext, hpass₂.active.trans hm₁.active, ?_, ?_, hlabel₂, hhere₂,
    hblock₂, (hcode₁.trans hcode₂).imp ?_⟩
  · rw [statements_append]
    refine (bind_eq_ok hrun₁).trans ?_
    rw [statements]
    exact bind_eq_ok hrun₂
  · intro n hn
    rw [List.mem_append, not_or] at hn
    refine (hpass₂.memo n hn.2 fun i heq => hn.1 ?_).trans (hm₁.memo n hn.1)
    rw [heq]
    exact List.mem_ofFn.2 ⟨i, rfl⟩
  · refine ⟨List.replicate k 1 ++ new, ?_, ?_⟩
    · rw [hnew, hslots₁, hslots, List.length_ofFn]
      rfl
    · have hones : (List.replicate k (1 : Int)).sum = k := by simp
      rw [List.sum_append, hones]
      omega
  · intro p S f f' hcon hf hdone i
    obtain ⟨f₁, hf₁, ⟨-, hwords⟩, rfl⟩ := hdone
    exact hwords i (L.init i) (by rw [List.getElem?_ofFn, dif_pos i.2])

/-- A copy of the result is generated, and the block takes it into the first slot. -/
theorem result_generates {depth : Nat} {site : Site} (hready : Ready W x slotOf g c R)
    (hfresh : Fresh g [y]) (hy : g.heap.arena.Owns y [Tag.copy.word, 0, x L.result])
    (hroot : g.memo.get? site.node = none) (hne : site.node ≠ y) (hd : site.degree = .ownSlot)
    (hat : site.storage = ⟨0, 0⟩) (hslots : 0 < g.module.slots.size) :
    ∃ last g₁ info g₂ c₂ R₂, generate (depth + 1) y .value nowhere g = .ok last g₁ ∧
      last.type = g₁.heap.types.scalars.integer ∧
      finish site last.value last.type last.contract true g₁ = .ok info g₂ ∧
      g₁.heap.Standard c₂ ∧ g₂.heap = g₁.heap ∧ Heap.Extends g.heap c g₂.heap c₂ ∧
      g₂.heap.arena.Room (c₂.lacking W) ∧ info.type = last.type ∧ info.addressable = true ∧
      info.loc = ⟨0, 0⟩ ∧ R₂ ≤ R + 3 ∧
      LeavesSlot slotOf (.copy L.result) g.module R g₂.module R₂ ⟨0, 0⟩ 1 ∧
      ∃ new, g₂.module.slots.toList = (enlarge g.module.slots ⟨0, 0⟩ 1).toList ++ new ∧
        new.sum ≤ 3 := by
  have hspell : Expr.Spells g.heap x (.copy L.result) y [y] := ⟨rfl, hy⟩
  have hwidth : (Expr.copy L.result).width = some 1 := by rw [Expr.width]
  have hvol : (Expr.copy L.result).volume = 3 := by rw [Expr.volume]
  have htypes : ∀ r ∈ (Expr.copy L.result).types g.heap.types.scalars.integer, r ∈ W := by
    intro r hr
    rw [Expr.types] at hr
    cases hr
  have hwork : Works W x slotOf (generate (depth + 1)) (Expr.copy L.result) y [y] :=
    works (Expr.copy L.result) (Nat.succ_le_succ (Nat.zero_le depth)) (List.nodup_singleton y)
  obtain ⟨last, g₁, hgen, w, c₁, R₁, hset⟩ := ((hwork g c R .value nowhere hready hspell hfresh
    htypes fun hd => by cases hd).mono (fun _ _ h => h) fun _ _ hnone => by
      rw [hwidth] at hnone
      cases hnone).exists_ok
  cases hwidth.symm.trans hset.width
  obtain ⟨-, ⟨r, hlo, hhi, hvalue, hcode⟩, new, hnew, hsum⟩ := hset.delivered
  have hs₁ : g₁.heap.Standard c₁ := hready.standard.extends hset.moves.ext
  have hle := size_of_append hnew
  obtain ⟨m₂, m₃, hreserve, hstore, hslots₃, hslot⟩ := store_leaves hcode hwidth Nat.one_pos
    hhi (show (⟨0, 0⟩ : Location).slot < _ from Nat.lt_of_lt_of_le hslots hle)
  -- Dropping the temporaries of the block forgets results only.
  let g' : Generator := dropped site { g₁ with module := m₃ }
  have hdrop : g' = clear site.depth { g₁ with module := m₃ } := by
    show dropped site _ = _
    rw [dropped, if_pos hd]
  obtain ⟨hheap, hmodule, hmemo⟩ : g'.heap = g₁.heap ∧ g'.module = m₃ ∧
      g'.memo.get? site.node = none := by
    rw [hdrop]
    let above := g₁.shadow.take (g₁.shadow.length - site.depth)
    obtain ⟨hheap, hmodule, -, -⟩ := forget_frame above { g₁ with module := m₃ }
    have hnot : site.node ∉ [y] := fun hmem => hne (List.mem_singleton.1 hmem)
    refine ⟨hheap, hmodule, ?_⟩
    rcases forget_memo above { g₁ with module := m₃ } site.node with heq | ⟨hnone, -⟩
    · exact heq.trans ((hset.moves.memo _ hnot).trans hroot)
    · exact hnone
  let info : Info := ⟨.void, site.storage, last.type, site.lifetime, true, last.contract⟩
  have hfinish := @finish_slot g₁ c₁ site (Value.run r 1) last.type last.contract true 1 m₂ m₃ hs₁
    hset.type Nat.one_pos (by rw [hd]; exact fun h => by cases h) (by rw [hat]; exact hreserve)
    (by rw [hat]; exact hstore) hmemo
  have hfew := hset.few
  rw [hvol] at hfew hsum
  refine ⟨last, g₁, info, { g' with
    memo := g'.memo.set site.node info, shadow := ⟨site.node, true⟩ :: g'.shadow }, c₁, R₁, hgen,
    hset.type, by rw [hvalue]; exact hfinish, hs₁, hheap, ?_, ?_, rfl, rfl, hat, hfew, ?_, new, ?_,
    hsum⟩
  · show Heap.Extends g.heap c g'.heap c₁
    rw [hheap]
    exact hset.moves.ext
  · show g'.heap.arena.Room _
    rw [hheap]
    exact hset.room
  · show LeavesSlot _ _ _ _ g'.module _ _ _
    rw [hmodule]
    exact hslot
  · show g'.module.slots.toList = _
    rw [hmodule, hslots₃]
    exact enlarge_append hnew hslots

/-- A block whose last element is one word. -/
theorem block_eq {gen : SubGen} {site : Site} {elems : List Node} {g₁ g₂ g₃ : Generator}
    {last info : Info} (helems : g.heap.elements site.node = .ok (elems ++ [y]))
    (hbefore : statements gen elems g = .ok () g₁)
    (hlast : gen y .value nowhere g₁ = .ok last g₂) (hs : g₂.heap.Standard c)
    (htype : c.Integers g₂.heap.types.scalars.integer 1 last.type)
    (hfinish : finish site last.value last.type last.contract true g₂ = .ok info g₃) :
    block gen site g = .ok info g₃ := by
  have hlook : look (·.elements site.node) g = .ok (elems ++ [y]) g := look_eq_ok helems
  have hreturns : last.type ≠ g₂.heap.types.scalars.doesNotReturn := hs.integers_returns htype
  unfold block
  refine (bind_eq_ok hlook).trans ?_
  rw [List.getLast?_append, List.getLast?_singleton, List.dropLast_concat]
  refine (bind_eq_ok hbefore).trans ((bind_eq_ok hlast).trans
    ((bind_eq_ok (doesNotReturn_eq g₂)).trans ?_))
  rw [if_pos hreturns]
  refine (bind_eq_ok (sizeOf_eq hs htype)).trans ?_
  rw [if_pos Nat.one_pos]
  exact hfinish

/-- The nodes of assignments are records in the arena. -/
theorem assignsAll_owns {h : Heap} {as : List (Fin k × WordExpr (Fin k))}
    (ha : Loop.AssignsAll h x as ss ns) : ∀ n ∈ ns, ∃ w ws, h.arena.Owns n (w :: ws) := by
  induction as generalizing ss ns with
  | nil =>
    obtain ⟨-, rfl⟩ := ha
    exact fun n hn => by cases hn
  | cons a as ih =>
    obtain ⟨n, ss', ns₁, ns₂, -, rfl, ⟨q, e, ns', rfl, hn, hq, hspell⟩, hrest⟩ := ha
    refine List.forall_mem_append.2 ⟨?_, ih hrest⟩
    exact List.forall_mem_cons.2 ⟨⟨_, _, hn⟩, List.forall_mem_cons.2 ⟨⟨_, _, hq⟩, hspell.owns⟩⟩

/-- The nodes of a loop fit the depth bound. -/
theorem laid_depth {h : Heap} (hlaid : L.Laid h root x l ss ns j y) :
    ∃ depth, h.depthBound = depth + 1 + 1 ∧ ns.length + 2 ≤ depth := by
  have howns : ∀ n ∈ root :: (List.ofFn x ++ l :: (ns ++ [j, y])), ∃ w ws,
      h.arena.Owns n (w :: ws) := by
    obtain ⟨vec, hroot, -⟩ := hlaid.block
    refine List.forall_mem_cons.2 ⟨⟨_, _, hroot⟩, List.forall_mem_append.2 ⟨?_, ?_⟩⟩
    · intro n hn
      obtain ⟨i, rfl⟩ := List.mem_ofFn.1 hn
      obtain ⟨object, hn, -⟩ := hlaid.vars i
      exact ⟨_, _, hn⟩
    · refine List.forall_mem_cons.2 ⟨⟨_, _, hlaid.label⟩, List.forall_mem_append.2
        ⟨assignsAll_owns hlaid.body, ?_⟩⟩
      exact List.forall_mem_cons.2 ⟨⟨_, _, hlaid.jump⟩,
        List.forall_mem_singleton.2 ⟨_, _, hlaid.copy⟩⟩
  have hlen := length_le_depthBound howns hlaid.nodup
  simp only [List.length_cons, List.length_append] at hlen
  exact ⟨h.depthBound - 2, by omega, by omega⟩

/-- The statements of a loop are generated one after the other. -/
theorem statements_generate {depth : Nat} {h : Heap} (name : String) (hs : h.Standard c)
    (hidle : h.arena.collecting = false) (hroom : h.arena.Room (c.lacking W))
    (hW : .pointer h.types.scalars.integer ∈ W) (hlaid : L.Laid h root x l ss ns j y)
    (hlen : ns.length + 2 ≤ depth) :
    ∃ mL t mB RB n g c', statements (generate (depth + 1)) (List.ofFn x ++ [l] ++ (ss ++ [j]))
        (entered root .ownSlot (.start h name)) = .ok () g ∧
      Cycles L name mL k t mB RB ∧ g.module = jumped t mB RB n ∧
      Ready W x slotOf g c' (RB + 1) ∧
      Heap.Extends h c g.heap c' ∧ Fresh g [y] ∧ g.memo.get? root = none ∧ g.active = [root] ∧
      RB ≤ k + assignsVolume L.body ∧
      ∃ new, g.module.slots.toList = 0 :: new ∧ new.sum ≤ k + assignsVolume L.body + 1 := by
  obtain ⟨hnew, hnodup⟩ := List.nodup_cons.1 hlaid.nodup
  obtain ⟨hvars, hafter, hdis⟩ := List.nodup_append.1 hnodup
  obtain ⟨hl, hbody⟩ := List.nodup_cons.1 hafter
  obtain ⟨hns, hjy, -⟩ := List.nodup_append.1 hbody
  simp only [List.mem_append, List.mem_cons, List.not_mem_nil, or_false, not_or] at hnew hl
  obtain ⟨hrootx, hrootl, hrootns, hrootj, hrooty⟩ := hnew
  have hready := start_ready hs hidle hroom name (Empty.elim : Empty → Node) Empty.elim
  let g₀ := entered root .ownSlot (.start h name)
  have hfresh₀ : ∀ ns' : List Node, root ∉ ns' → Fresh g₀ ns' := by
    intro ns' hnot n hn
    refine ⟨?_, rfl⟩
    show n ∉ [root]
    rw [List.mem_singleton]
    exact fun heq => hnot (heq ▸ hn)
  -- The variables and the label.
  obtain ⟨g₁, t, hrun₁, hready₁, hext₁, hactive₁, hmemo₁, ⟨new₁, hslots₁, hsum₁⟩, hlabel₁, hhere₁,
    hblock₁, hcode₁⟩ := @entry_generates W _ c k L root l j y x ss ns depth h hlaid
      (hready.enter root .ownSlot) rfl (hfresh₀ _ (by simp [hrootx, hrootl])) rfl rfl
  have hentry : ∀ n, n ∈ List.ofFn x ++ [l] → n ∉ ns ∧ n ≠ j ∧ n ≠ y := by
    intro n hn
    rcases List.mem_append.1 hn with hn | hn
    · exact ⟨fun hmem => hdis n hn n (by simp [hmem]) rfl, hdis n hn j (by simp),
        hdis n hn y (by simp)⟩
    · rw [List.mem_singleton.1 hn]
      exact hl
  have hfresh₁ : Fresh g₁ (ns ++ [j, y]) := by
    intro n hn
    obtain ⟨hactive, hmemo⟩ := hfresh₀ (ns ++ [j, y]) (by simp [hrootns, hrootj, hrooty]) n hn
    refine ⟨by rw [hactive₁]; exact hactive, (hmemo₁ n fun hmem => ?_).trans hmemo⟩
    obtain ⟨h₁, h₂, h₃⟩ := hentry n hmem
    simp [h₁, h₂, h₃] at hn
  -- The assignments.
  obtain ⟨g₂, c₂, R₂, hrun₂, hpass₂, hcode₂⟩ := assigns_generate slotOf_injective hready₁
    hfresh₁.left hns (Nat.le_trans (Nat.le_add_right _ 2) hlen)
    (assignsAll_extends hext₁ hlaid.body) (by rw [hext₁.scalars_eq]; exact hW)
  have hfresh₂ : Fresh g₂ ([j] ++ [y]) := hpass₂.fresh hready₁ hfresh₁ hbody
  -- The jump.
  obtain ⟨info₃, g₃, n, hrun₃, hpass₃, hmodule₃⟩ :=
    @jump_generates _ W x slotOf g₂ c₂ R₂ depth j l t hpass₂.ready hfresh₂.left
    (hlaid.jump.grows (hext₁.trans hpass₂.ext).grows) (Heap.owns_ne_zero hlaid.label)
    ((hpass₂.labels l hl.1).trans hlabel₁)
  have hall := hpass₂.trans hpass₃
  have hcycle := hcode₂.trans (entered_emits hpass₂.ready j .ownSlot)
  refine ⟨g₁.module, t, { g₂.module with slots := g₂.module.slots.push 0 }, R₂, n, g₃, c₂, ?_,
    ⟨?_, hhere₁, hblock₁, hcycle.imp ?_⟩, hmodule₃, hall.ready, hext₁.trans hall.ext, ?_, ?_,
    hall.active.trans hactive₁, hpass₂.few, ?_⟩
  · rw [statements_append]
    refine (bind_eq_ok hrun₁).trans ?_
    rw [statements_append, statements]
    exact (bind_eq_ok hrun₂).trans (bind_eq_ok hrun₃)
  · refine ((entered_emits hready root .ownSlot).trans hcode₁).imp ?_
    intro p S f f' hcon hf hdone
    obtain ⟨f₁, -, -, hdone⟩ := hdone
    exact hdone
  · intro p S f f' hcon hf hdone env henv
    obtain ⟨f₁, -, hdone, rfl⟩ := hdone
    exact hdone env henv
  · exact hpass₃.fresh hpass₂.ready hfresh₂ hjy
  · rw [hall.memo root (by simp [hrootns, hrootj])
      fun i heq => hrootx (heq ▸ List.mem_ofFn.2 ⟨i, rfl⟩), hmemo₁ root (by simp [hrootx, hrootl])]
    rfl
  · obtain ⟨new, hnew, hsum⟩ := hall.slots
    refine ⟨new₁ ++ new, by rw [hnew, hslots₁]; rfl, ?_⟩
    rw [List.sum_append]
    omega

/-- A loop is generated as the body of a function. -/
theorem generateRoot_coded {h : Heap} (hs : h.Standard c) (hidle : h.arena.collecting = false)
    (hroom : h.arena.Room (c.lacking W)) (hW : .pointer h.types.scalars.integer ∈ W)
    (hlaid : L.Laid h root x l ss ns j y) (name : String) :
    ∃ g c' mL t mB RB n mE RE r, generateRoot root (.start h name)
        = .ok h.types.scalars.integer g ∧ Heap.Extends h c g.heap c' ∧
      g.heap.arena.Room (c'.lacking W) ∧ g.module = mE.returning (Value.run r 1) ∧
      Coded L name mL k t mB RB n mE RE r := by
  obtain ⟨depth, hdepth, hlen⟩ := laid_depth hlaid
  obtain ⟨vec, hroot, capacity, hvec⟩ := hlaid.block
  have helems := Heap.elements_eq hs.sized hroot (Or.inr ⟨capacity, hvec⟩)
  obtain ⟨mL, t, mB, RB, n, g₁, c₁, hrun₁, hcycles, hmodule₁, hready₁, hext₁, hfresh₁, hmemo₁,
    hactive₁, hfew₁, new₁, hslots₁, hsum₁⟩ := statements_generate name hs hidle hroom hW hlaid hlen
  have hrooty : root ≠ y := by
    intro heq
    have := (List.nodup_cons.1 hlaid.nodup).1
    simp [heq] at this
  let site : Site := ⟨root, .ownSlot, ⟨0, 0⟩, 1, 0⟩
  obtain ⟨last, g₂, info, g₃, c₂, R₂, hrun₂, hlast, hfinish, hs₂, hheap₂, hext₂, hroom₂, htype,
    haddr, hloc, hfew₂, hcode₂, new₂, hslots₂, hsum₂⟩ :=
    @result_generates _ g₁ c₁ (RB + 1) k L y x depth site hready₁ hfresh₁
      (hlaid.copy.grows hext₁.grows) hmemo₁ hrooty rfl rfl (by
        rw [← Array.length_toList, hslots₁]
        exact Nat.succ_pos _)
  have hbody : body (generate (depth + 1)) site .block (entered root .ownSlot (.start h name))
      = .ok info g₃ := by
    refine block_eq (y := y) ?_ hrun₁ hrun₂ hs₂ hlast hfinish
    refine (show _ = h.elements root from rfl).trans (helems.trans ?_)
    simp
  have hgen := @generate_eq_ok (.start h name) (depth + 1) root .ownSlot nowhere .block [vec] info
    g₃ hs.sized hroot List.not_mem_nil hbody
  -- The function returns what the slot of the block holds.
  let g₄ : Generator := { g₃ with active := g₃.active.erase root }
  have hs₄ : g₄.heap.Standard c₂ := by
    rw [show g₄.heap = g₂.heap from hheap₂]
    exact hs₂
  have hinteger : info.type = g₄.heap.types.scalars.integer := by
    rw [htype, hlast, show g₄.heap = g₂.heap from hheap₂]
  have hslot : 0 < g₁.module.slots.size := by
    rw [← Array.length_toList, hslots₁]
    exact Nat.succ_pos _
  obtain ⟨size, hsize, hle⟩ := @enlarge_room g₁.module.slots ⟨0, 0⟩ 1 hslot Nat.one_pos
  obtain ⟨mE, hend, hslots₄, hcode₄⟩ := @rootEnd_eq g₄ c₂ R₂ 1 info ⟨0, 0⟩ hs₄ hinteger
    hcode₂.opened hcode₂.count fun _ => ⟨haddr, hloc, size, getElem?_of_append hslots₂ hsize, hle⟩
  have hext : Heap.Extends h c g₄.heap c₂ := hext₁.trans hext₂
  have hvolume := assignsVolume_le L.body
  refine ⟨{ g₄ with module := mE.returning (Value.run R₂ 1) }, c₂, mL, t, mB, RB, n, mE, R₂ + 1, R₂,
    ?_, hext, hroom₂, rfl, hcycles, ?_, Nat.lt_succ_self _, ?_, ?_⟩
  · rw [generateRoot_eq (Heap.owns_ne_zero hroot), ← hext.scalars_eq, ← hinteger]
    refine (bind_eq_ok ?_).trans hend
    show generate h.depthBound root .ownSlot nowhere (.start h name) = _
    rw [hdepth]
    exact hgen
  · rw [← hmodule₁]
    refine (hcode₂.trans hcode₄).imp ?_
    intro p S f f' hcon hf hdone env henv
    obtain ⟨f₁, -, ⟨-, hvalue⟩, hregs⟩ := hdone
    have hword := hregs _ (by rw [Expr.eval]; rfl) (hvalue env henv)
    rw [Expr.eval] at hword
    exact Stands.single.1 hword
  · rw [Loop.cost]
    omega
  · have hfirst : (enlarge g₁.module.slots ⟨0, 0⟩ 1).toList = 1 :: new₁ := by
      rw [enlarge, if_pos Nat.one_pos, Array.toList_modify, hslots₁]
      rfl
    rw [hslots₄, hslots₂, hfirst, List.cons_append, List.sum_cons, List.sum_append, Loop.cost]
    omega

end Block

end Compile

end TreeMachine
