import TreeMachine.Proofs.Termination.Ending

/-! # The same run in two hosts

  A program knows nothing of the state of its host but what the functions and the memory of
  the host answer.  Main statement: if the states of two hosts are related, and whatever code
  can reach in them answers alike and leaves the states related, then every program ends
  alike in both.
-/

namespace TreeMachine

variable {ε ε' σ τ α β : Type} {R R' : σ → τ → Prop}

/-! ### Operations on related states -/

/-- The two ends differ in nothing but the states, and these are related. -/
def SameEnd (R : σ → τ → Prop) : EStateM.Result ε σ α → EStateM.Result ε τ α → Prop
  | .ok a s, .ok b t => a = b ∧ R s t
  | .error e s, .error e' t => e = e' ∧ R s t
  | .ok _ _, .error _ _ | .error _ _, .ok _ _ => False

theorem sameEnd_iff {r : EStateM.Result ε σ α} {r' : EStateM.Result ε τ α} : SameEnd R r r' ↔
    (∃ a s t, r = .ok a s ∧ r' = .ok a t ∧ R s t) ∨
      ∃ e s t, r = .error e s ∧ r' = .error e t ∧ R s t := by
  cases r <;> cases r' <;> simp [SameEnd] <;> tauto

theorem SameEnd.mono {r : EStateM.Result ε σ α} {r' : EStateM.Result ε τ α} (h : SameEnd R r r')
    (hR : ∀ s t, R s t → R' s t) : SameEnd R' r r' := by
  rcases sameEnd_iff.1 h with ⟨a, s, t, rfl, rfl, hst⟩ | ⟨e, s, t, rfl, rfl, hst⟩
  · exact ⟨rfl, hR s t hst⟩
  · exact ⟨rfl, hR s t hst⟩

/-- From related states, both operations end alike. -/
def Simulates (R : σ → τ → Prop) (x : EStateM ε σ α) (y : EStateM ε τ α) : Prop :=
  ∀ s t, R s t → SameEnd R (x s) (y t)

namespace Simulates

variable {x : EStateM ε σ α} {y : EStateM ε τ α}

theorem pure (a : α) : Simulates R (Pure.pure a : EStateM ε σ α) (Pure.pure a : EStateM ε τ α) :=
  fun _ _ h => ⟨rfl, h⟩

theorem throw (e : ε) : Simulates R (throw e : EStateM ε σ α) (throw e : EStateM ε τ α) :=
  fun _ _ h => ⟨rfl, h⟩

theorem bind {f : α → EStateM ε σ β} {g : α → EStateM ε τ β} (hx : Simulates R x y)
    (hf : ∀ a, Simulates R (f a) (g a)) : Simulates R (x >>= f) (y >>= g) := by
  intro s t h
  rcases sameEnd_iff.1 (hx s t h) with ⟨a, s', t', hxs, hyt, h'⟩ | ⟨e, s', t', hxs, hyt, h'⟩
  · rw [bind_eq_ok hxs, bind_eq_ok hyt]
    exact hf a s' t' h'
  · rw [bind_eq_error hxs, bind_eq_error hyt]
    exact ⟨rfl, h'⟩

theorem ite {c : Prop} [Decidable c] {x' : EStateM ε σ α} {y' : EStateM ε τ α}
    (hx : Simulates R x y) (hx' : Simulates R x' y') :
    Simulates R (if c then x else x') (if c then y else y') := by
  split
  · exact hx
  · exact hx'

theorem mapStop {x : EStateM (Stop ε) σ α} {y : EStateM (Stop ε) τ α} (g : ε → ε')
    (hx : Simulates R x y) : Simulates R (TreeMachine.mapStop g x) (TreeMachine.mapStop g y) := by
  intro s t h
  rcases sameEnd_iff.1 (hx s t h) with ⟨a, s', t', hxs, hyt, h'⟩ | ⟨e, s', t', hxs, hyt, h'⟩
  · rw [mapStop_eq_ok hxs, mapStop_eq_ok hyt]
    exact ⟨rfl, h'⟩
  · rw [mapStop_eq_error hxs, mapStop_eq_error hyt]
    exact ⟨rfl, h'⟩

/-- A step that does not look at the state. -/
theorem read (r : Except ε α) :
    Simulates R (liftM r : EStateM ε σ α) (liftM r : EStateM ε τ α) := by
  cases r with
  | ok a => exact pure a
  | error e => exact throw e

end Simulates

namespace Code

/-! ### Two hosts -/

/-- Both memories answer alike. -/
def Memory.Simulates (R : σ → τ → Prop) (m : Memory σ) (m' : Memory τ) : Prop :=
  (∀ addr n, TreeMachine.Simulates R (m.load addr n) (m'.load addr n)) ∧
    ∀ addr ws, TreeMachine.Simulates R (m.store addr ws) (m'.store addr ws)

/-- What code can reach in the one host and in the other answers alike. -/
structure Host.Simulates (R : σ → τ → Prop) (host : Host σ) (host' : Host τ) : Prop where
  functions : ∀ name, Option.Rel
    (fun fn fn' => ∀ args, TreeMachine.Simulates R (fn args) (fn' args))
    (host.function? name) (host'.function? name)
  memory : Option.Rel (Memory.Simulates R) host.memory host'.memory

variable {host : Host σ} {host' : Host τ}

open TreeMachine (Simulates)

theorem sound_simulates (r : Except Fault α) :
    Simulates R (sound r : Run σ α) (sound r : Run τ α) := by
  cases r with
  | ok a => exact .pure a
  | error f => exact .throw _

theorem loadAt_simulates (hh : host.Simulates R host') (f : Frame) (addr : UInt64) (words : Int) :
    Simulates R (loadAt host f addr words) (loadAt host' f addr words) := by
  unfold loadAt
  refine .ite (.ite (.throw _) (.ite (.throw _) (.pure _))) ?_
  have hmemory := hh.memory
  revert hmemory
  cases host.memory <;> cases host'.memory <;> intro hmemory <;> cases hmemory
  · exact .throw _
  · rename_i h
    exact h.1 addr words

theorem storeAt_simulates (hh : host.Simulates R host') (f : Frame) (addr : UInt64)
    (ws : List UInt64) : Simulates R (storeAt host f addr ws) (storeAt host' f addr ws) := by
  unfold storeAt
  refine .ite (.ite (.throw _) (.pure _)) ?_
  have hmemory := hh.memory
  revert hmemory
  cases host.memory <;> cases host'.memory <;> intro hmemory <;> cases hmemory
  · exact .throw _
  · rename_i h
    exact .bind (h.2 addr ws) fun _ => .pure f

theorem callHost_simulates (hh : host.Simulates R host') (f : Frame) (dst : Value) (name : String)
    (args : List Value) :
    Simulates R (callHost host f dst name args) (callHost host' f dst name args) := by
  unfold callHost
  have hfunction := hh.functions name
  revert hfunction
  cases host.function? name <;> cases host'.function? name <;> intro hfunction <;> cases hfunction
  · exact .throw _
  · rename_i fn fn' h
    refine .bind (sound_simulates _) fun given => .bind (.mapStop _ (h given)) fun ws => ?_
    dsimp only
    split
    · exact .bind (.throw _) fun _ => sound_simulates _
    · exact sound_simulates _

/-- One instruction. -/
theorem exec_simulates (hh : host.Simulates R host') (p : Program) (f : Frame) (i : Instr) :
    Simulates R (i.exec host p f) (i.exec host' p f) := by
  cases i with
  | const dst ws => exact .bind (sound_simulates _) fun _ => .pure _
  | binary op dst a b =>
    refine .bind (sound_simulates _) fun x => .bind (sound_simulates _) fun y => ?_
    exact .bind (sound_simulates _) fun _ => .pure _
  | load dst slot off =>
    exact .bind (.read _) fun start => .bind (sound_simulates _) fun _ => .pure _
  | store slot off src =>
    exact .bind (.read _) fun start => .bind (sound_simulates _) fun _ => .pure _
  | address dst slot off =>
    exact .bind (sound_simulates _) fun base => .bind (sound_simulates _) fun _ => .pure _
  | loadIndirect dst addr =>
    refine .bind (sound_simulates _) fun a => .bind (loadAt_simulates hh f a _) fun ws => ?_
    exact .bind (sound_simulates _) fun _ => .pure _
  | storeIndirect addr src =>
    refine .bind (sound_simulates _) fun a => .bind (sound_simulates _) fun ws => ?_
    exact .bind (storeAt_simulates hh f a ws) fun _ => .pure _
  | call dst name args => exact .bind (callHost_simulates hh f dst name args) fun _ => .pure _
  | branch target => exact .pure _
  | branchIf cond target alt => exact .bind (sound_simulates _) fun _ => .pure _
  | ret v => exact .bind (sound_simulates _) fun _ => .pure _
  | trap => exact .throw _

theorem execAll_simulates (hh : host.Simulates R host') (p : Program) (is : List Instr)
    (f : Frame) : Simulates R (execAll host p is f) (execAll host' p is f) := by
  induction is generalizing f with
  | nil => exact .throw _
  | cons i rest ih =>
    refine .bind (exec_simulates hh p f i) fun next => ?_
    cases next with
    | onward f' => exact ih f'
    | jump f' target => exact .pure _
    | done ws => exact .pure _

/-- A run from the start of a block, by induction on the fuel. -/
theorem runFromOr_simulates (hh : host.Simulates R host') (out : Fault) (p : Program) (fuel : Nat)
    (cur : Int) (f : Frame) :
    Simulates R (p.runFromOr out host fuel cur f) (p.runFromOr out host' fuel cur f) := by
  induction fuel generalizing cur f with
  | zero => exact .throw _
  | succ fuel ih =>
    unfold Program.runFromOr
    cases p.block? cur with
    | none => exact .throw _
    | some b =>
      refine .bind (.mapStop _ (execAll_simulates hh p _ f)) fun next => ?_
      cases next with
      | done ws => exact .pure ws
      | onward f' => exact .throw _
      | jump f' target =>
        dsimp only
        cases p.block? target with
        | none => exact .throw _
        | some b' =>
          refine .bind (sound_simulates _) fun incoming => ?_
          exact .bind (sound_simulates _) fun f'' => ih target f''

/-- Where everything that code can reach answers alike, every program ends alike. -/
theorem runOr_simulates (hh : host.Simulates R host') (out : Fault) (p : Program) (fuel : Nat) :
    Simulates R (p.runOr out host fuel) (p.runOr out host' fuel) := by
  unfold Program.runOr
  exact .bind (sound_simulates _) fun f => runFromOr_simulates hh out p fuel 0 f

end Code

end TreeMachine
