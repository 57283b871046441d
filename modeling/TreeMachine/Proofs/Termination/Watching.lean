import TreeMachine.Proofs.Termination.Tidy
import TreeMachine.Proofs.Termination.Simulation

/-! # What an evaluation spends its budget on

  A watched evaluation counts the invocations, nested ones included, and the jumps back that
  the host grants.  It has limits of its own on the number of blocks that a run may enter and
  on how deep invocations may nest, and where it meets one it stops with a fault that is up
  to the observer.  Main statement: in every engine that can be reached, it ends as the
  evaluation itself does, so it never meets a limit, and both counts and what is left of the
  budget add up to the budget.
-/

namespace TreeMachine

open Code (Host LaidOut Memory Program Run Handle)
open Compile (HostName)

namespace Engine

/-! ### Watched evaluations -/

/-- An engine, and what its budget has been spent on. -/
structure Watched where
  engine : Engine
  /-- The number of invocations. -/
  invocations : Nat
  /-- The number of jumps back that the host has granted. -/
  jumpsBack : Nat

/-- The limits of a watched evaluation. -/
structure Limits where
  /-- The number of blocks that a run of a program may enter with a budget. -/
  blocks : Program → UInt64 → Nat
  /-- What the evaluation stops with where it meets a limit. -/
  met : Fault

/-- A run may enter every block once, and once more for each unit of its budget. -/
def Limits.Suffice (limits : Limits) : Prop :=
  ∀ p budget, p.blocks.size * (budget.toNat + 1) < limits.blocks p budget

namespace Watched

/-- Operations of a watched engine. -/
abbrev WatchedM := EStateM (Stop EngineError) Watched

/-- Runs an operation that has nothing to be counted. -/
def watch {ε α : Type} (x : EStateM ε Engine α) : EStateM ε Watched α := fun w =>
  match x w.engine with
  | .ok a engine => .ok a { w with engine }
  | .error e engine => .error e { w with engine }

/-- Asks for a unit of the budget; an answer other than zero lets the code jump back. -/
def grant : Run Watched (List UInt64) := do
  let answer ← watch spend
  if answer ≠ [0] then modify fun w => { w with jumpsBack := w.jumpsBack + 1 }
  return answer

/-- Runs a function for the code that asks for it. -/
def runAtRunTime (run : UInt64 → WatchedM Boxed) (args : List UInt64) :
    Run Watched (List UInt64) := do
  let d ← attempt (run (← watch (firstArg args)))
  return match d with
    | some d => [d.type, d.object]
    | none => [0, 0]

/-- What running code can reach. -/
def host (run : UInt64 → WatchedM Boxed) : Host Watched where
  function? name :=
    if name = HostName.finiteness.text then some fun _ => grant
    else if name = HostName.random.text then some fun _ => watch draw
    else if name = HostName.dynamify.text then some fun args => watch (dynamify args)
    else if name = HostName.compile.text then some fun args => watch (compileAtRunTime args)
    else if name = HostName.run.text then some (runAtRunTime run)
    else none
  memory := some {
    load := fun addr count => watch (arenaMemory.load addr count)
    store := fun addr ws => watch (arenaMemory.store addr ws) }

/-- Runs the program at an entry. -/
def invoke (limits : Limits) (run : UInt64 → WatchedM Boxed) (entry : UInt64) :
    Run Watched (List UInt64) := do
  let w ← get
  match w.engine.image.machine.program? entry with
  | none => Code.stop (.unknownEntry entry)
  | some p => p.runOr limits.met (host run) (limits.blocks p w.engine.remaining)

/-- The engine after one more invocation has been paid for. -/
def charged (w : Watched) : Watched :=
  { w with engine := w.engine.charged, invocations := w.invocations + 1 }

/-- Spends a unit of the budget and invokes a function; no more than `depth` invocations may
    nest. -/
def runWithin (limits : Limits) : Nat → UInt64 → WatchedM Boxed
  | depth, id => do
    match (← get).engine.image.pool.get? id with
    | none => throw (.error (.unknownFunction id))
    | some f =>
      if (← get).engine.remaining = 0 then throw (.error .exhausted)
      match depth with
      | 0 => throw (.fault limits.met)
      | depth + 1 =>
        modify charged
        let ws ← mapStop (.running id) (invoke limits (runWithin limits depth) f.entry)
        watch (box f.returnType ws)

/-- Runs a function with a fresh budget, from where nothing has been counted. -/
def run (limits : Limits) (depth : Nat) (id : UInt64) (e : Engine) :
    EStateM.Result (Stop EngineError) Watched Boxed :=
  runWithin limits depth id ⟨{ e with remaining := e.options.finiteness }, 0, 0⟩

/-! ### Single steps -/

section Steps

variable {w : Watched} {f : Function} {id : UInt64} {depth : Nat} {limits : Limits}

theorem invoke_eq {run : UInt64 → WatchedM Boxed} {entry : UInt64} {p : Program}
    (h : w.engine.image.machine.program? entry = some p) : invoke limits run entry w =
      p.runOr limits.met (host run) (limits.blocks p w.engine.remaining) w := by
  unfold invoke
  simp only [get_bind_eq, h]

theorem invoke_unknown {run : UInt64 → WatchedM Boxed} {entry : UInt64}
    (h : w.engine.image.machine.program? entry = none) :
    invoke limits run entry w = .error (.error (.unknownEntry entry)) w := by
  unfold invoke
  simp only [get_bind_eq, h]
  rfl

theorem runWithin_unknown (h : w.engine.image.pool.get? id = none) :
    runWithin limits depth id w = .error (.error (.unknownFunction id)) w := by
  unfold runWithin
  simp only [get_bind_eq, h]
  rfl

theorem runWithin_exhausted (h : w.engine.image.pool.get? id = some f)
    (h0 : w.engine.remaining = 0) :
    runWithin limits depth id w = .error (.error .exhausted) w := by
  unfold runWithin
  simp only [get_bind_eq, h, h0, if_true]
  rfl

theorem runWithin_succ (h : w.engine.image.pool.get? id = some f) (h0 : w.engine.remaining ≠ 0) :
    runWithin limits (depth + 1) id w =
      (mapStop (.running id) (invoke limits (runWithin limits depth) f.entry) >>=
        fun ws => watch (box f.returnType ws)) w.charged := by
  conv_lhs => unfold runWithin
  simp only [get_bind_eq, h, h0, if_false]
  rfl

end Steps

/-! ### The watched evaluation and the evaluation -/

/-- The engine is the same, no more than `n` is left of the budget, and with what has been
    counted it makes up `total`. -/
structure Agrees (total n : Nat) (w : Watched) (e : Engine) : Prop where
  engine : w.engine = e
  within : e.Within n
  spent : w.invocations + w.jumpsBack + e.remaining.toNat = total

variable {ε α : Type} {total n : Nat} {w : Watched} {e : Engine} {limits : Limits}

theorem Agrees.mono {n' : Nat} (h : Agrees total n w e) (hn : n ≤ n') : Agrees total n' w e :=
  ⟨h.engine, h.within.mono hn, h.spent⟩

/-- One invocation is counted on one side and paid for on the other. -/
theorem Agrees.charged (h : Agrees total (n + 1) w e) (h0 : e.remaining ≠ 0) :
    Agrees total n w.charged e.charged := by
  refine ⟨congrArg Engine.charged h.engine, h.within.charged h0, ?_⟩
  have hpred := Arena.toNat_pred h0
  have hspent := h.spent
  show w.invocations + 1 + w.jumpsBack + (e.remaining - 1).toNat = total
  omega

theorem watch_simulates {x : EStateM ε Engine α} (hx : ∀ budget, Upholds (Steady budget) x) :
    Simulates (Agrees total n) (watch x) x := by
  rintro w e ⟨rfl, hwithin, hspent⟩
  have h := hx w.engine.remaining w.engine ⟨hwithin.1, rfl⟩
  unfold watch
  cases hrun : x w.engine with
  | ok a e' =>
    obtain ⟨hprograms, hleft⟩ := h.ok hrun
    exact ⟨rfl, rfl, ⟨hprograms, hleft ▸ hwithin.2⟩, hleft ▸ hspent⟩
  | error b e' =>
    obtain ⟨hprograms, hleft⟩ := h.error hrun
    exact ⟨rfl, rfl, ⟨hprograms, hleft ▸ hwithin.2⟩, hleft ▸ hspent⟩

/-- A jump back is counted if and only if a unit of the budget is spent. -/
theorem grant_simulates : Simulates (Agrees total n) grant spend := by
  rintro w e ⟨rfl, hwithin, hspent⟩
  by_cases h0 : w.engine.remaining = 0
  · have hspend : spend w.engine = .ok [0] w.engine := if_pos h0
    have hwatch : watch spend w = .ok [0] w := by simp only [watch, hspend]
    have hgrant : grant w = .ok [0] w := (bind_eq_ok hwatch).trans rfl
    rw [hspend, hgrant]
    exact ⟨rfl, rfl, hwithin, hspent⟩
  · have hspend : spend w.engine = .ok [1] w.engine.charged := if_neg h0
    have hwatch : watch spend w = .ok [1] { w with engine := w.engine.charged } := by
      simp only [watch, hspend]
    have hgrant : grant w
        = .ok [1] { w with engine := w.engine.charged, jumpsBack := w.jumpsBack + 1 } :=
      (bind_eq_ok hwatch).trans rfl
    rw [hspend, hgrant]
    have hpred := Arena.toNat_pred h0
    refine ⟨rfl, rfl, hwithin.charged_self h0, ?_⟩
    show w.invocations + (w.jumpsBack + 1) + (w.engine.remaining - 1).toNat = total
    omega

theorem attempt_simulates {ε' : Type} {x : EStateM (Stop ε) Watched α}
    {y : EStateM (Stop ε) Engine α} (hx : Simulates (Agrees total n) x y) :
    Simulates (Agrees total n)
      (attempt x : EStateM (Stop ε') Watched (Option α)) (attempt y) := by
  intro w e h
  unfold attempt
  rcases sameEnd_iff.1 (hx w e h) with ⟨a, w', e', hw, he, h'⟩ | ⟨stop, w', e', hw, he, h'⟩
  · simp only [hw, he]
    exact ⟨rfl, h'⟩
  · simp only [hw, he]
    cases stop with
    | error b => exact ⟨rfl, h'⟩
    | fault f => exact ⟨rfl, h'⟩

/-- What code can reach answers alike, if the invocations that it asks for do. -/
theorem host_simulates {run : UInt64 → WatchedM Boxed} {run' : UInt64 → EngineM Boxed}
    (hrun : ∀ id, Simulates (Agrees total n) (run id) (run' id)) :
    (host run).Simulates (Agrees total n) (Engine.host run') where
  functions name := by
    unfold host Engine.host
    dsimp only
    split
    · exact .some fun _ => grant_simulates
    split
    · exact .some fun _ => watch_simulates fun _ => upholds_draw
    split
    · exact .some fun args => watch_simulates fun _ => upholds_dynamify args
    split
    · exact .some fun args => watch_simulates fun _ => upholds_compileAtRunTime args
    split
    · refine .some fun args => .bind (watch_simulates fun _ => upholds_firstArg args) fun id => ?_
      exact .bind (attempt_simulates (hrun id)) fun d => .pure _
    · exact .none
  memory := .some ⟨fun addr count => watch_simulates fun _ => upholds_load addr count,
    fun addr ws => watch_simulates fun _ => upholds_store addr ws⟩

/-- What the engine gives a run is within such limits. -/
theorem blockBound_suffices (met : Fault) : Limits.Suffice ⟨blockBound, met⟩ :=
  fun _ _ => Nat.mul_lt_mul_of_pos_right (Nat.lt_succ_self _) (Nat.succ_pos _)

/-- Since the programs are laid out, a run of one never comes to the end of its fuel, neither
    of what the engine gives it nor of what the limits allow. -/
theorem invoke_simulates (hlimits : limits.Suffice) {run : UInt64 → WatchedM Boxed} {depth : Nat}
    (hrun : ∀ id, Simulates (Agrees total n) (run id) (Engine.runWithin depth id))
    (entry : UInt64) : Simulates (Agrees total n) (invoke limits run entry)
      (Engine.invoke (Engine.runWithin depth) entry) := by
  intro w e h
  have hwithin := h.within
  obtain rfl := h.engine
  cases hp : w.engine.image.machine.program? entry with
  | none =>
    rw [invoke_unknown hp, Engine.invoke_unknown hp]
    exact ⟨rfl, h⟩
  | some p =>
    obtain ⟨order, horder⟩ := Machine.Tidy.program hwithin.1 hp
    have hfuel : p.run (Engine.host (Engine.runWithin depth)) (blockBound p w.engine.remaining)
          w.engine
        = p.runOr limits.met (Engine.host (Engine.runWithin depth))
          (limits.blocks p w.engine.remaining) w.engine := by
      rw [Program.run_eq_or]
      exact horder.runOr_eq (host_budgets depth) hwithin.1
        (blockBound_suffices limits.met p _) (hlimits p _)
    rw [invoke_eq hp, Engine.invoke_eq hp, hfuel]
    exact Code.runOr_simulates (host_simulates hrun) _ p _ w w.engine h

/-- No function, or no budget. -/
theorem refusal_sameEnd (h : Agrees total n w e) {id : UInt64} {depth depth' : Nat}
    (hid : ∀ f, e.image.pool.get? id = some f → e.remaining = 0) :
    SameEnd (Agrees total n) (runWithin limits depth id w) (Engine.runWithin depth' id e) := by
  obtain rfl := h.engine
  cases hf : w.engine.image.pool.get? id with
  | none =>
    rw [runWithin_unknown hf, Engine.runWithin_unknown hf]
    exact ⟨rfl, h⟩
  | some f =>
    have h0 := hid f hf
    rw [runWithin_exhausted hf h0, Engine.runWithin_exhausted hf (.inl h0)]
    exact ⟨rfl, h⟩

/-- As long as both may nest invocations as deep as the budget goes, the watched evaluation
    ends as the evaluation does, by induction on the budget. -/
theorem runWithin_simulates (hlimits : limits.Suffice) {depth depth' : Nat} (hdepth : n ≤ depth)
    (hdepth' : n ≤ depth') (id : UInt64) : Simulates (Agrees total n)
      (runWithin limits depth id) (Engine.runWithin depth' id) := by
  induction n generalizing depth depth' id with
  | zero =>
    intro w e h
    have h0 : e.remaining = 0 := UInt64.toNat_inj.1 (Nat.le_zero.1 h.within.2)
    exact refusal_sameEnd h fun _ _ => h0
  | succ n ih =>
    intro w e h
    by_cases hid : ∀ f, e.image.pool.get? id = some f → e.remaining = 0
    · exact refusal_sameEnd h hid
    obtain ⟨f, hf, h0⟩ : ∃ f, e.image.pool.get? id = some f ∧ e.remaining ≠ 0 := by
      simpa using hid
    obtain ⟨depth, rfl⟩ : ∃ k, depth = k + 1 := ⟨depth - 1, by omega⟩
    obtain ⟨depth', rfl⟩ : ∃ k, depth' = k + 1 := ⟨depth' - 1, by omega⟩
    have hnested : ∀ id, Simulates (Agrees total n) (runWithin limits depth id)
        (Engine.runWithin depth' id) := fun id => ih (by omega) (by omega) id
    have hrest : Simulates (Agrees total n)
        (mapStop (.running id) (invoke limits (runWithin limits depth) f.entry) >>=
          fun ws => watch (box f.returnType ws))
        (mapStop (.running id) (Engine.invoke (Engine.runWithin depth') f.entry) >>=
          box f.returnType) :=
      .bind (.mapStop _ (invoke_simulates hlimits hnested f.entry)) fun ws =>
        watch_simulates fun _ => upholds_box f.returnType ws
    have hw : w.engine.image.pool.get? id = some f := by rw [h.engine, hf]
    rw [runWithin_succ hw (by rw [h.engine]; exact h0), Engine.runWithin_succ hf h0]
    exact (hrest _ _ (h.charged h0)).mono fun _ _ h' => h'.mono (Nat.le_succ n)

end Watched

/-- Bounded evaluation: in every engine that can be reached, running a function ends without
    meeting a limit on the number of blocks that a run enters or on how deep invocations
    nest, whatever function it is and whatever limits suffice.  However it ends, the
    invocations, the jumps back that the host has granted, and what is left of the budget
    make up the budget. -/
theorem run_sameEnd_watched {e₀ e : Engine} {hs₀ hs : List Handle} (h₀ : Started e₀ hs₀)
    (h : Steps e₀ hs e) {limits : Limits} (hlimits : limits.Suffice) {depth : Nat}
    (hdepth : e.options.finiteness.toNat ≤ depth) (id : UInt64) :
    SameEnd (fun w e' => w.engine = e' ∧
        w.invocations + w.jumpsBack + e'.remaining.toNat = e.options.finiteness.toNat)
      (Watched.run limits depth id e) (run id e) := by
  have hagrees : Watched.Agrees e.options.finiteness.toNat e.options.finiteness.toNat
      ⟨{ e with remaining := e.options.finiteness }, 0, 0⟩
      { e with remaining := e.options.finiteness } :=
    ⟨rfl, ⟨h.tidy h₀.tidy, Nat.le_refl _⟩, by simp⟩
  have hruns := Watched.runWithin_simulates hlimits hdepth (Nat.le_refl _) id _ _ hagrees
  rw [Watched.run, run_eq]
  exact hruns.mono fun w e' h' => ⟨h'.engine, h'.spent⟩

end Engine

end TreeMachine
