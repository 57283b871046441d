import TreeMachine.Proofs.Termination.Arrangement
import TreeMachine.Proofs.Termination.Ending
import TreeMachine.Proofs.Modules.History

/-! # Engines whose programs are laid out

  Every program that is loaded has been compiled before, so its blocks have an order in which
  none leads back without a unit of the budget.  Apart from the budget itself, nothing that
  code can reach in an engine touches what is left of it, other than to spend it.  Main
  statement: every engine that has started and answered any calls has only such programs.
-/

namespace TreeMachine

open Code (Host LaidOut Program Handle)
open Compile (HostName)
open Snapshot (LoadError SavedFunction Trailer)

/-! ### Machines -/

/-- The blocks of every loaded program have an order in which none leads back without a unit
    of the budget. -/
def Machine.Tidy (m : Machine) : Prop :=
  ∀ x ∈ m.programs, ∃ order, LaidOut HostName.finiteness.text x.2.blocks order

namespace Machine.Tidy

variable {m : Machine}

theorem empty : Machine.empty.Tidy := by
  intro x hx
  cases hx

theorem install (h : m.Tidy) {p : Program} {order : List Nat}
    (hp : LaidOut HostName.finiteness.text p.blocks order) : (m.install p).2.Tidy := by
  intro x hx
  obtain rfl | hx := List.mem_cons.1 hx
  · exact ⟨order, hp⟩
  · exact h x hx

theorem remove (h : m.Tidy) (handle : Handle) : (m.remove handle).Tidy := by
  cases handle with
  | issued entry => exact fun x hx => h x (List.mem_filter.1 hx).1
  | foreign text => exact h

theorem unloadAll (h : m.Tidy) (handles : List Handle) :
    (Image.unloadAll handles m).2.Tidy := by
  induction handles generalizing m with
  | nil => exact h
  | cons handle rest ih => exact ih (h.remove handle)

theorem program (h : m.Tidy) {entry : UInt64} {p : Program} (hp : m.program? entry = some p) :
    ∃ order, LaidOut HostName.finiteness.text p.blocks order := by
  obtain ⟨x, hx, rfl⟩ := Option.map_eq_some_iff.1 hp
  exact h x (List.mem_of_find?_eq_some hx)

end Machine.Tidy

/-! ### Images -/

namespace Image

variable {ε α : Type}

/-- All programs of the image are laid out. -/
def Tidy (image : Image) : Prop := image.machine.Tidy

theorem SameModules.tidy {image image' : Image} (h : image.SameModules image')
    (himage : image.Tidy) : image'.Tidy := by
  unfold Tidy
  rw [h.1]
  exact himage

theorem upholds_onHeap (x : EStateM ε Heap α) : Upholds Tidy (onHeap x) := by
  intro image himage
  exact (onHeap_same x image).mono (fun _ _ h => h.tidy himage) fun _ _ h => h.tidy himage

theorem upholds_onPool (x : EStateM ε Pool α) : Upholds Tidy (onPool x) := by
  rintro ⟨heap, machine, pool, collector⟩ himage
  unfold Yields onPool
  dsimp only
  cases x pool with
  | ok a pool => exact himage
  | error e pool => exact himage

/-- What is compiled is laid out, whether or not the function finds a place in the pool. -/
theorem upholds_build (root : Node) : Upholds Tidy (build root) := by
  intro image himage
  unfold build
  apply Yields.bind
  cases hrun : Compile.compileModule root image.heap with
  | error stop h => exact Yields.of_error (onHeap_error hrun) himage
  | ok r h =>
    obtain ⟨code, returnType⟩ := r
    obtain ⟨order, horder⟩ := Compile.compileModule_laidOut hrun
    refine Yields.of_ok (onHeap_ok hrun) ?_
    dsimp only
    cases hfin : code.finalize with
    | error e => exact himage
    | ok r =>
      obtain ⟨program, code'⟩ := r
      exact Machine.Tidy.install himage (horder.finalize hfin)

theorem upholds_compile (root : Node) : Upholds Tidy (compile root) :=
  .bind (upholds_build root) fun _ => upholds_onPool _

theorem upholds_addRoot (r : Root) : Upholds Tidy (addRoot r) := by
  have hlook : ∀ {β : Type} (f : Image → Except Fault β),
      Upholds Tidy (liftM (inspect f) : EStateM (Stop RootError) Image β) :=
    fun f => .lift_fault (.inspect f)
  have hadd : Upholds Tidy (modifyGet (onCollector (Collector.add r)) :
      EStateM (Stop RootError) Image UInt64) := .modifyGet fun image himage => himage
  unfold addRoot
  refine .bind (hlook _) fun size => ?_
  dsimp only
  split
  · exact .bind (hlook _) fun type => .bind (.throw _) fun _ => hadd
  · exact hadd

theorem upholds_restoreRoots (roots : List Root) : Upholds Tidy (restoreRoots roots) := by
  induction roots with
  | nil => exact .pure ()
  | cons r rest ih => exact .bind (.mapStop (upholds_addRoot r)) fun _ => ih

theorem upholds_holdFunctions (functions : List SavedFunction) :
    Upholds Tidy (holdFunctions functions) := by
  induction functions with
  | nil => exact .pure []
  | cons f rest ih =>
    unfold holdFunctions
    refine .bind .get fun image => ?_
    have hrest : Upholds Tidy (do
        let id ← mapStop LoadError.functionRoot
          (addRoot (Root.ofWords image.heap.types.scalars.ast [f.ast]))
        return id :: (← holdFunctions rest)) :=
      .bind (.mapStop (upholds_addRoot _)) fun id => .bind ih fun _ => .pure _
    dsimp only
    split
    · exact .bind (.throw _) fun _ => hrest
    · exact hrest

theorem upholds_restoreFunctions (functions : List SavedFunction) :
    Upholds Tidy (restoreFunctions functions) := by
  induction functions with
  | nil => exact .pure ()
  | cons f rest ih =>
    unfold restoreFunctions
    refine .bind (.mapStop (upholds_build f.ast)) fun r => ?_
    exact .bind (upholds_onPool _) fun _ => ih

/-- Dropping programs leaves the others as they are. -/
theorem upholds_collect : Upholds Tidy collect := by
  intro image himage
  refine (collect_drops image).mono ?_ fun _ image' h => h.tidy himage
  rintro _ image' ⟨marks, hmachine, -⟩
  unfold Tidy
  rw [hmachine]
  exact Machine.Tidy.unloadAll himage _

theorem upholds_restore (words : Array UInt64) (t : Trailer) :
    Upholds Tidy (restore words t) := by
  have hcollect : Upholds Tidy
      (liftM collect : EStateM (Stop LoadError) Image CollectStats) := .lift_fault upholds_collect
  unfold restore
  refine .bind (.lift_fault (upholds_onHeap _)) fun _ => ?_
  refine .bind (.mapStop (upholds_onHeap _)) fun _ => ?_
  refine .bind (upholds_restoreRoots _) fun _ => ?_
  refine .bind (upholds_holdFunctions _) fun held => .bind hcollect fun _ => ?_
  refine .bind (upholds_restoreFunctions _) fun _ => .bind ?_ fun _ => ?_
  · exact .forIn fun id _ => .bind (.modifyGet fun image himage => himage) fun _ => .pure _
  · exact .bind hcollect fun _ => .pure _

end Image

namespace Engine

variable {ε α : Type} {budget : UInt64} {n : Nat} {e e' : Engine}

/-! ### Operations that leave the budget alone -/

/-- All programs are laid out, and the budget is at `budget`. -/
def Steady (budget : UInt64) (e : Engine) : Prop := e.image.Tidy ∧ e.remaining = budget

theorem upholds_onImage {x : EStateM ε Image α} (hx : Upholds Image.Tidy x) :
    Upholds (Steady budget) (onImage x) := by
  rintro e ⟨hprograms, hleft⟩
  have h := hx e.image hprograms
  cases hrun : x e.image with
  | ok a image => exact Yields.of_ok (onImage_ok hrun) ⟨h.ok hrun, hleft⟩
  | error stop image => exact Yields.of_error (onImage_error hrun) ⟨h.error hrun, hleft⟩

theorem upholds_look (f : Heap → Except Fault α) :
    Upholds (Steady budget) (look f : EStateM (Stop ε) Engine α) := by
  intro e he
  unfold Yields look
  cases f e.image.heap with
  | ok a => exact he
  | error b => exact he

theorem upholds_change (x : HeapM α) :
    Upholds (Steady budget) (change x : EStateM (Stop ε) Engine α) :=
  .lift_fault (upholds_onImage (Image.upholds_onHeap x))

theorem upholds_box (t : Ty) (ws : List UInt64) : Upholds (Steady budget) (box t ws) := by
  have hput : ∀ size, Upholds (Steady budget) (do
      let object ← change (Heap.allocate size)
      change (Heap.setWords object ws)
      return ⟨t, object⟩ : EngineM Boxed) := fun size =>
    .bind (upholds_change _) fun object => .bind (upholds_change _) fun _ => .pure _
  unfold box
  refine .bind (upholds_look _) fun size => ?_
  dsimp only
  split
  · refine .bind (upholds_look _) fun text => .bind (.throw _) fun _ => ?_
    exact .ite (.pure _) (hput size)
  · exact .ite (.pure _) (hput size)

theorem upholds_parse (text : List UInt8) : Upholds (Steady budget) (parse text) :=
  .mapStop (upholds_onImage (Image.upholds_onHeap _))

theorem upholds_compile (root : Node) : Upholds (Steady budget) (compile root) := by
  have hcompile : Upholds (Steady budget)
      (mapStop .compile (onImage (Image.compile root)) : EngineM UInt64) :=
    .mapStop (upholds_onImage (Image.upholds_compile root))
  unfold compile
  refine .bind .get fun e => ?_
  dsimp only
  split
  · exact .bind (upholds_look _) fun _ => hcompile
  · exact hcompile

theorem upholds_draw : Upholds (Steady budget) draw := fun _ he => he

theorem upholds_dynamify (args : List UInt64) : Upholds (Steady budget) (dynamify args) := by
  cases args with
  | nil => exact .throw _
  | cons t ws => exact .bind (.mapStop (upholds_box t ws)) fun d => .pure _

theorem upholds_firstArg (args : List UInt64) : Upholds (Steady budget) (firstArg args) := by
  cases args with
  | nil => exact .throw _
  | cons w ws => exact .pure w

theorem upholds_attempt {ε' : Type} {P : Engine → Prop} {x : EStateM (Stop ε) Engine α}
    (hx : Upholds P x) : Upholds P (attempt x : EStateM (Stop ε') Engine (Option α)) := by
  intro e he
  have h := hx e he
  unfold Yields attempt
  cases hrun : x e with
  | ok a e' => exact h.ok hrun
  | error stop e' =>
    cases stop with
    | error b => exact h.error hrun
    | fault f => exact h.error hrun

theorem upholds_compileAtRunTime (args : List UInt64) :
    Upholds (Steady budget) (compileAtRunTime args) := by
  refine .bind (upholds_firstArg args) fun w => ?_
  exact .bind (upholds_attempt (upholds_compile w)) fun id => .pure _

theorem upholds_checkAddress (addr : UInt64) (count : Int) :
    Upholds (Steady budget) (checkAddress addr count) := by
  unfold checkAddress
  exact .bind .get fun e => .ite (.throw _) (.pure _)

theorem upholds_load (addr : UInt64) (count : Int) :
    Upholds (Steady budget) (arenaMemory.load addr count) :=
  .bind (upholds_checkAddress _ _) fun _ => upholds_look _

theorem upholds_store (addr : UInt64) (ws : List UInt64) :
    Upholds (Steady budget) (arenaMemory.store addr ws) :=
  .bind (upholds_checkAddress _ _) fun _ => upholds_change _

/-! ### Operations that at most spend the budget -/

/-- All programs are laid out, and no more than `n` is left of the budget. -/
def Within (n : Nat) (e : Engine) : Prop := e.image.Tidy ∧ e.remaining.toNat ≤ n

theorem keeps_within {x : EStateM (Stop ε) Engine α}
    (hx : ∀ budget, Upholds (Steady budget) x) : Keeps (Within n) (fun _ => True) x := by
  refine Upholds.keeps fun e he => ?_
  refine (hx e.remaining e ⟨he.1, rfl⟩).mono ?_ ?_ <;>
  · rintro _ e' ⟨hprograms, hleft⟩
    exact ⟨hprograms, hleft ▸ he.2⟩

theorem Within.mono {n' : Nat} (h : e.Within n) (hn : n ≤ n') : e.Within n' :=
  ⟨h.1, Nat.le_trans h.2 hn⟩

/-- A unit of the budget has been spent. -/
theorem Within.charged (h : e.Within (n + 1)) (h0 : e.remaining ≠ 0) : e.charged.Within n := by
  have hpred := Arena.toNat_pred h0
  have hle := h.2
  exact ⟨h.1, show (e.remaining - 1).toNat ≤ n by omega⟩

theorem Within.charged_self (h : e.Within n) (h0 : e.remaining ≠ 0) : e.charged.Within n :=
  (Within.charged (h.mono (Nat.le_succ n)) h0)

theorem upholds_spend : Upholds (Within n) spend := by
  intro e he
  by_cases h0 : e.remaining = 0
  · exact Yields.of_ok (if_pos h0) he
  · exact Yields.of_ok (if_neg h0) (he.charged_self h0)

/-- Whatever code can reach at most spends the budget, if what it runs does. -/
theorem host_keeps_within {run : UInt64 → EngineM Boxed}
    (hrun : ∀ id, Keeps (Within n) (fun _ => True) (run id)) :
    (host run).Keeps (Within n) fun _ => True where
  functions name fn hfn args := by
    unfold host at hfn
    dsimp only at hfn
    split at hfn
    · cases hfn
      exact upholds_spend.keeps
    split at hfn
    · cases hfn
      exact keeps_within fun _ => upholds_draw
    split at hfn
    · cases hfn
      exact keeps_within fun _ => upholds_dynamify args
    split at hfn
    · cases hfn
      exact keeps_within fun _ => upholds_compileAtRunTime args
    split at hfn
    · cases hfn
      refine .bind (keeps_within fun _ => upholds_firstArg args) fun w => ?_
      exact .bind (keeps_attempt (hrun w)) fun d => .pure _
    · cases hfn
  loads memory hmemory addr count := by
    cases hmemory
    exact keeps_within fun _ => upholds_load addr count
  stores memory hmemory addr ws := by
    cases hmemory
    exact keeps_within fun _ => upholds_store addr ws

/-- An invocation at most spends the budget, by induction on how deep invocations nest. -/
theorem runWithin_keeps_within (depth : Nat) (id : UInt64) :
    Keeps (Within n) (fun _ => True) (runWithin depth id) := by
  induction depth generalizing id with
  | zero =>
    intro e he
    cases hf : e.image.pool.get? id with
    | none => exact Yields.of_error (runWithin_unknown hf) ⟨trivial, he⟩
    | some f => exact Yields.of_error (runWithin_exhausted hf (.inr rfl)) ⟨trivial, he⟩
  | succ depth ih =>
    intro e he
    cases hf : e.image.pool.get? id with
    | none => exact Yields.of_error (runWithin_unknown hf) ⟨trivial, he⟩
    | some f =>
      by_cases h0 : e.remaining = 0
      · exact Yields.of_error (runWithin_exhausted hf (.inl h0)) ⟨trivial, he⟩
      · refine Yields.congr (runWithin_succ hf h0) ?_
        have hinvoke : Keeps (Within n) (fun _ => True) (invoke (runWithin depth) f.entry) := by
          refine .bind .get fun e' => ?_
          dsimp only
          cases e'.image.machine.program? f.entry with
          | none => exact .error trivial
          | some program => exact Code.keeps_run (host_keeps_within ih) Code.admits_any program _
        have hrest : Keeps (Within n) (fun _ => True)
            (mapStop (.running id) (invoke (runWithin depth) f.entry) >>= box f.returnType) :=
          .bind (.mapStop hinvoke fun _ _ => trivial) fun ws =>
            keeps_within fun _ => upholds_box f.returnType ws
        exact hrest e.charged (he.charged_self h0)

/-- The host does not grant more than is left of the budget. -/
theorem host_budgets (depth : Nat) : (host (runWithin depth)).Budgets HostName.finiteness.text
    (fun e => e.image.Tidy) fun e => e.remaining.toNat where
  keeps n := host_keeps_within fun id => runWithin_keeps_within depth id
  spends fn hfn e w e' _ hrun hw := by
    have hspend : fn = fun _ => spend := by
      cases hfn
      rfl
    subst hspend
    by_cases h0 : e.remaining = 0
    · cases (show spend e = _ from if_pos h0).symm.trans hrun
      exact absurd rfl hw
    · cases (show spend e = _ from if_neg h0).symm.trans hrun
      have hpred := Arena.toNat_pred h0
      show (e.remaining - 1).toNat < _
      omega

/-! ### Engines after any calls -/

/-- All programs of the engine are laid out. -/
def Tidy (e : Engine) : Prop := e.image.Tidy

theorem keeps_tidy {x : EStateM (Stop ε) Engine α} {E : ε → Prop}
    (hx : ∀ n, Keeps (Within n) E x) : Keeps Tidy E x := by
  intro e he
  refine (hx _ e ⟨he, Nat.le_refl _⟩).mono (fun _ e' h => h.1) fun stop e' h => ?_
  cases stop with
  | error b => exact ⟨h.1, h.2.1⟩
  | fault f =>
    cases f with
    | broken v => trivial
    | outOfBounds => exact h.1
    | endless => exact h.1

theorem upholds_tidy {x : EStateM (Stop ε) Engine α}
    (hx : ∀ budget, Upholds (Steady budget) x) : Keeps Tidy (fun _ => True) x :=
  keeps_tidy fun _ => keeps_within hx

theorem run_keeps_tidy (id : UInt64) : Keeps Tidy (fun _ => True) (run id) := by
  intro e he
  have hkeeps : Keeps Tidy (fun _ => True) (runWithin e.options.finiteness.toNat id) :=
    keeps_tidy fun _ => runWithin_keeps_within _ id
  exact Yields.congr run_eq (hkeeps { e with remaining := e.options.finiteness } he)

theorem eval_keeps_tidy (root : Node) : Keeps Tidy (fun _ => True) (eval root) :=
  .bind (upholds_tidy fun _ => upholds_compile root) run_keeps_tidy

/-- Whatever is asked of an engine, its programs stay laid out. -/
theorem Call.keeps_tidy (c : Call) : Keeps Tidy (fun _ => True) c.perform := by
  have hignore : ∀ {α : Type} {x : EngineM α}, Keeps Tidy (fun _ => True) x →
      Keeps Tidy (fun _ => True)
        (do let _ ← mapStop .engine x : EStateM (Stop CallError) Engine Unit) :=
    fun hx => .bind (.mapStop hx fun _ _ => trivial) fun _ => .pure _
  cases c with
  | compile root => exact hignore (upholds_tidy fun _ => upholds_compile root)
  | run id => exact hignore (run_keeps_tidy id)
  | eval root => exact hignore (eval_keeps_tidy root)
  | evalText text =>
    exact hignore (.bind (upholds_tidy fun _ => upholds_parse text) eval_keeps_tidy)
  | addRoot r =>
    have hadd := upholds_tidy fun _ => upholds_onImage (Image.upholds_addRoot r)
    exact .bind (.mapStop hadd fun _ _ => trivial) fun _ => .pure _
  | removeRoot id => exact .modifyGet fun e he => he
  | collect =>
    have hcollect : Keeps Tidy (fun _ => True)
        (liftM Engine.collect : EStateM (Stop CallError) Engine CollectStats) :=
      upholds_tidy fun _ => .lift_fault (upholds_onImage Image.upholds_collect)
    exact .bind hcollect fun _ => .pure _
  | invoke depth id => exact hignore (Engine.keeps_tidy fun _ => runWithin_keeps_within depth id)
  | edit heap random remaining => exact .modifyGet fun e he => he

theorem Call.Leads.tidy {c : Call} (h : c.Leads e e') (he : e.Tidy) : e'.Tidy := by
  have hkeeps := c.keeps_tidy e he
  obtain hok | ⟨stop, herror, hunbroken⟩ := h
  · exact hkeeps.ok hok
  · have hspares := hkeeps.error herror
    cases stop with
    | error b => exact hspares.2
    | fault f =>
      cases f with
      | broken v => exact absurd rfl (hunbroken v)
      | outOfBounds => exact hspares
      | endless => exact hspares

theorem Started.tidy {hs : List Handle} (h : Started e hs) : e.Tidy := by
  have hnew : ∀ {o : EngineOptions} {e₀ : Engine}, Engine.create o = .ok e₀ → e₀.Tidy := by
    intro o e₀ hcreate
    unfold Tidy Image.Tidy
    rw [(create_image hcreate).1]
    exact .empty
  cases h with
  | create hslots h => exact hnew h
  | load h =>
    obtain ⟨o', e₀, words, t, -, hcreate, hrestore⟩ := load_restores h
    exact (Image.upholds_restore words t e₀.image (hnew hcreate)).ok hrestore

/-- From a new engine or a loaded one, any calls that break no invariant lead to an engine
    whose programs are all laid out. -/
theorem Steps.tidy {hs : List Handle} (h : Steps e hs e') (he : e.Tidy) : e'.Tidy := by
  induction h with
  | refl => exact he
  | call h c hc ih => exact hc.tidy ih

end Engine

end TreeMachine
