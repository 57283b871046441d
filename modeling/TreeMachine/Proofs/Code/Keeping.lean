import TreeMachine.Code.Run
import TreeMachine.Proofs.Outcome

/-! # What runs keep

  An operation keeps a property of the state if it has it afterwards whenever it had it
  before.  Only a broken invariant excuses an operation from keeping anything.  Main
  statement: what all functions and the memory of a host keep is kept by every program that
  runs in this host.
-/

namespace TreeMachine

variable {ε ε' σ α β : Type} {P : σ → Prop} {E : ε → Prop} {E' : ε' → Prop}

/-- How a stop leaves the state.  Nothing is said after a broken invariant; any other stop
    leaves `P`, and an error is one of those that `E` admits. -/
def Spares (P : σ → Prop) (E : ε → Prop) : Stop ε → σ → Prop
  | .fault (.broken _), _ => True
  | .fault _, s => P s
  | .error e, s => E e ∧ P s

/-- The operation leads from `P` to `P`, and stops only with errors that `E` admits. -/
def Keeps (P : σ → Prop) (E : ε → Prop) (x : EStateM (Stop ε) σ α) : Prop :=
  ∀ s, P s → Yields x s (fun _ t => P t) (Spares P E)

theorem Spares.of_fault (f : Fault) {s : σ} (hs : P s) : Spares P E (.fault f) s := by
  cases f with
  | broken v => trivial
  | outOfBounds => exact hs
  | endless => exact hs

theorem Spares.map {g : ε → ε'} (hg : ∀ e, E e → E' (g e)) {stop : Stop ε} {s : σ}
    (h : Spares P E stop s) : Spares P E' (stop.map g) s := by
  cases stop with
  | error e => exact ⟨hg e h.1, h.2⟩
  | fault f =>
    cases f with
    | broken v => trivial
    | outOfBounds => exact h
    | endless => exact h

namespace Keeps

theorem pure (a : α) : Keeps P E (Pure.pure a : EStateM (Stop ε) σ α) := fun _ hs => hs

theorem error {e : ε} (he : E e) :
    Keeps P E (throw (Stop.error e) : EStateM (Stop ε) σ α) := fun _ hs => ⟨he, hs⟩

theorem fault (f : Fault) : Keeps P E (throw (Stop.fault f) : EStateM (Stop ε) σ α) :=
  fun _ hs => Spares.of_fault f hs

theorem bind {x : EStateM (Stop ε) σ α} {f : α → EStateM (Stop ε) σ β} (hx : Keeps P E x)
    (hf : ∀ a, Keeps P E (f a)) : Keeps P E (x >>= f) := by
  intro s hs
  apply Yields.bind
  exact (hx s hs).imp fun a t ht => hf a t ht

theorem mapStop {g : ε → ε'} {x : EStateM (Stop ε) σ α} (hx : Keeps P E x)
    (hg : ∀ e, E e → E' (g e)) : Keeps P E' (TreeMachine.mapStop g x) := by
  intro s hs
  have h := hx s hs
  cases hrun : x s with
  | ok a t => exact Yields.of_ok (mapStop_eq_ok hrun) (h.ok hrun)
  | error e t => exact Yields.of_error (mapStop_eq_error hrun) ((h.error hrun).map hg)

theorem ite {c : Prop} [Decidable c] {x y : EStateM (Stop ε) σ α} (hx : Keeps P E x)
    (hy : Keeps P E y) : Keeps P E (if c then x else y) := by
  by_cases hc : c
  · rw [if_pos hc]
    exact hx
  · rw [if_neg hc]
    exact hy

theorem get : Keeps P E (MonadState.get : EStateM (Stop ε) σ σ) := fun _ hs => hs

theorem modifyGet {f : σ → α × σ} (hf : ∀ s, P s → P (f s).2) :
    Keeps P E (modifyGet f : EStateM (Stop ε) σ α) := fun s hs => hf s hs

/-- An operation without errors, among operations with errors. -/
theorem lift_fault {x : EStateM Fault σ α}
    (hx : ∀ s, P s → Yields x s (fun _ t => P t) (fun _ t => P t)) :
    Keeps P E (liftM x : EStateM (Stop ε) σ α) := by
  intro s hs
  have h := hx s hs
  cases hrun : x s with
  | ok a t => exact Yields.of_ok (lift_eq_ok hrun) (h.ok hrun)
  | error f t => exact Yields.of_error (lift_eq_error hrun) (Spares.of_fault f (h.error hrun))

/-- A loop over a list. -/
theorem forIn {l : List α} {b : β} {f : α → β → EStateM (Stop ε) σ (ForInStep β)}
    (hf : ∀ a b, Keeps P E (f a b)) : Keeps P E (ForIn.forIn l b f) := by
  induction l generalizing b with
  | nil => exact pure b
  | cons a rest ih =>
    rw [List.forIn_cons]
    refine bind (hf a b) fun r => ?_
    cases r with
    | done b => exact pure b
    | yield b => exact ih

theorem lift (x : Except (Stop ε) α) (hx : ∀ e, x = .error (.error e) → E e) :
    Keeps P E (liftM x : EStateM (Stop ε) σ α) := by
  cases x with
  | ok a => exact pure a
  | error stop =>
    cases stop with
    | fault f => exact fault f
    | error e => exact error (hx e rfl)

end Keeps

/-! ### However an operation ends -/

/-- The operation leads from `P` to `P`, also where it finds an invariant broken. -/
def Upholds (P : σ → Prop) (x : EStateM ε σ α) : Prop :=
  ∀ s, P s → Yields x s (fun _ t => P t) fun _ t => P t

namespace Upholds

theorem keeps {x : EStateM (Stop ε) σ α} (hx : Upholds P x) : Keeps P (fun _ => True) x := by
  intro s hs
  refine (hx s hs).mono (fun _ _ ht => ht) fun stop t ht => ?_
  cases stop with
  | error e => exact ⟨trivial, ht⟩
  | fault f => exact Spares.of_fault f ht

theorem pure (a : α) : Upholds P (Pure.pure a : EStateM ε σ α) := fun _ hs => hs

theorem throw (e : ε) : Upholds P (throw e : EStateM ε σ α) := fun _ hs => hs

theorem bind {x : EStateM ε σ α} {f : α → EStateM ε σ β} (hx : Upholds P x)
    (hf : ∀ a, Upholds P (f a)) : Upholds P (x >>= f) := by
  intro s hs
  apply Yields.bind
  exact (hx s hs).imp fun a t ht => hf a t ht

theorem mapStop {g : ε → ε'} {x : EStateM (Stop ε) σ α} (hx : Upholds P x) :
    Upholds P (TreeMachine.mapStop g x) := by
  intro s hs
  have h := hx s hs
  cases hrun : x s with
  | ok a t => exact Yields.of_ok (mapStop_eq_ok hrun) (h.ok hrun)
  | error e t => exact Yields.of_error (mapStop_eq_error hrun) (h.error hrun)

theorem lift_fault {x : EStateM Fault σ α} (hx : Upholds P x) :
    Upholds P (liftM x : EStateM (Stop ε) σ α) := by
  intro s hs
  have h := hx s hs
  cases hrun : x s with
  | ok a t => exact Yields.of_ok (lift_eq_ok hrun) (h.ok hrun)
  | error f t => exact Yields.of_error (lift_eq_error hrun) (h.error hrun)

theorem ite {c : Prop} [Decidable c] {x y : EStateM ε σ α} (hx : Upholds P x)
    (hy : Upholds P y) : Upholds P (if c then x else y) := by
  split
  · exact hx
  · exact hy

theorem get : Upholds P (MonadState.get : EStateM ε σ σ) := fun _ hs => hs

theorem modifyGet {f : σ → α × σ} (hf : ∀ s, P s → P (f s).2) :
    Upholds P (modifyGet f : EStateM ε σ α) := fun s hs => hf s hs

/-- A loop over a list. -/
theorem forIn {l : List α} {b : β} {f : α → β → EStateM ε σ (ForInStep β)}
    (hf : ∀ a b, Upholds P (f a b)) : Upholds P (ForIn.forIn l b f) := by
  induction l generalizing b with
  | nil => exact pure b
  | cons a rest ih =>
    rw [List.forIn_cons]
    refine bind (hf a b) fun r => ?_
    cases r with
    | done b => exact pure b
    | yield b => exact ih

theorem inspect (f : σ → Except ε α) : Upholds P (TreeMachine.inspect f) := by
  intro s hs
  exact Yields.inspect (fun _ _ => hs) fun _ _ => hs

end Upholds

namespace Code

variable {E : RunError → Prop}

/-- Errors of running code that do not depend on the host, and the marks of where an error
    happened. -/
structure Admits (E : RunError → Prop) : Prop where
  trap : E .trap
  unknownHost : ∀ name, E (.unknownHost name)
  slotRange : ∀ slot off words frame, E (.slotRange slot off words frame)
  frameAddress : ∀ index, E (.frameAddress index)
  noMemory : ∀ addr, E (.noMemory addr)
  hostResult : ∀ name given wanted, E (.hostResult name given wanted)
  inHost : ∀ name e, E e → E (.inHost name e)
  inBlock : ∀ program block e, E e → E (.inBlock program block e)

/-- Everything that code can reach in the host keeps `P`. -/
structure Host.Keeps (host : Host σ) (P : σ → Prop) (E : RunError → Prop) : Prop where
  functions : ∀ name fn, host.function? name = some fn → ∀ args, TreeMachine.Keeps P E (fn args)
  loads : ∀ m, host.memory = some m → ∀ addr n, TreeMachine.Keeps P E (m.load addr n)
  stores : ∀ m, host.memory = some m → ∀ addr ws, TreeMachine.Keeps P E (m.store addr ws)

open TreeMachine (Keeps)

theorem keeps_sound (x : Except Fault α) : Keeps P E (sound x : Run σ α) := by
  cases x with
  | ok a => exact .pure a
  | error f => exact .fault f

theorem keeps_stop {e : RunError} (he : E e) : Keeps P E (stop e : Run σ α) := .error he

theorem slotStart_error {f : Frame} {p : Program} {slot off words : Int} {e : RunError}
    (h : f.slotStart p slot off words = .error (.error e)) :
    e = .slotRange slot off words f.words.size := by
  unfold Frame.slotStart at h
  cases hbase : Frame.slotOffset p slot with
  | error b =>
    rw [hbase] at h
    cases h
  | ok base =>
    rw [hbase] at h
    by_cases hrange : wrap (base + off) < 0 ∨
        (f.words.size : Int) < wrap (wrap (base + off) + words)
    · simp only [Except.mapError, bind, Except.bind, if_pos hrange] at h
      cases h
      rfl
    · by_cases hwrap : wrap (wrap (base + off) + words) < wrap (base + off)
      · simp only [Except.mapError, bind, Except.bind, if_neg hrange, if_pos hwrap] at h
        cases h
      · simp only [Except.mapError, bind, Except.bind, if_neg hrange, if_neg hwrap] at h
        cases h

theorem keeps_slotStart (hE : Admits E) (f : Frame) (p : Program) (slot off words : Int) :
    Keeps P E (liftM (f.slotStart p slot off words) : Run σ Nat) := by
  apply Keeps.lift
  intro e he
  rw [slotStart_error he]
  exact hE.slotRange slot off words _

variable {host : Host σ}

theorem keeps_loadAt (hh : host.Keeps P E) (hE : Admits E) (f : Frame) (addr : UInt64)
    (words : Int) : Keeps P E (loadAt host f addr words) := by
  unfold loadAt
  apply Keeps.ite
  · exact .ite (keeps_stop (hE.frameAddress _)) (.ite (.fault _) (.pure _))
  · cases hm : host.memory with
    | none => exact keeps_stop (hE.noMemory addr)
    | some memory => exact hh.loads memory hm addr words

theorem keeps_storeAt (hh : host.Keeps P E) (hE : Admits E) (f : Frame) (addr : UInt64)
    (ws : List UInt64) : Keeps P E (storeAt host f addr ws) := by
  unfold storeAt
  apply Keeps.ite
  · exact .ite (keeps_stop (hE.frameAddress _)) (.pure _)
  · cases hm : host.memory with
    | none => exact keeps_stop (hE.noMemory addr)
    | some memory => exact .bind (hh.stores memory hm addr ws) fun _ => .pure f

theorem keeps_callHost (hh : host.Keeps P E) (hE : Admits E) (f : Frame) (dst : Value)
    (name : String) (args : List Value) : Keeps P E (callHost host f dst name args) := by
  unfold callHost
  cases hfn : host.function? name with
  | none => exact keeps_stop (hE.unknownHost name)
  | some fn =>
    refine .bind (keeps_sound _) fun given => ?_
    refine .bind (.mapStop (hh.functions name fn hfn given) (hE.inHost name)) fun ws => ?_
    by_cases hlen : (ws.length : Int) ≠ dst.words
    · rw [if_pos hlen]
      exact .bind (keeps_stop (hE.hostResult _ _ _)) fun _ => keeps_sound _
    · rw [if_neg hlen]
      exact keeps_sound _

/-- One instruction. -/
theorem keeps_exec (hh : host.Keeps P E) (hE : Admits E) (p : Program) (f : Frame) (i : Instr) :
    Keeps P E (i.exec host p f) := by
  cases i with
  | const dst ws => exact .bind (keeps_sound _) fun _ => .pure _
  | binary op dst a b =>
    refine .bind (keeps_sound _) fun x => .bind (keeps_sound _) fun y => ?_
    exact .bind (keeps_sound _) fun _ => .pure _
  | load dst slot off =>
    refine .bind (keeps_slotStart hE f p slot off dst.words) fun start => ?_
    exact .bind (keeps_sound _) fun _ => .pure _
  | store slot off src =>
    refine .bind (keeps_slotStart hE f p slot off src.words) fun start => ?_
    exact .bind (keeps_sound _) fun _ => .pure _
  | address dst slot off =>
    refine .bind (keeps_sound _) fun base => ?_
    exact .bind (keeps_sound _) fun _ => .pure _
  | loadIndirect dst addr =>
    refine .bind (keeps_sound _) fun a => ?_
    refine .bind (keeps_loadAt hh hE f a dst.words) fun ws => ?_
    exact .bind (keeps_sound _) fun _ => .pure _
  | storeIndirect addr src =>
    refine .bind (keeps_sound _) fun a => .bind (keeps_sound _) fun ws => ?_
    exact .bind (keeps_storeAt hh hE f a ws) fun _ => .pure _
  | call dst name args => exact .bind (keeps_callHost hh hE f dst name args) fun _ => .pure _
  | branch target => exact .pure _
  | branchIf cond target alt => exact .bind (keeps_sound _) fun _ => .pure _
  | ret v => exact .bind (keeps_sound _) fun _ => .pure _
  | trap => exact keeps_stop hE.trap

theorem keeps_execAll (hh : host.Keeps P E) (hE : Admits E) (p : Program) (is : List Instr)
    (f : Frame) : Keeps P E (execAll host p is f) := by
  induction is generalizing f with
  | nil => exact keeps_stop hE.trap
  | cons i rest ih =>
    refine .bind (keeps_exec hh hE p f i) fun next => ?_
    cases next with
    | onward f' => exact ih f'
    | jump f' target => exact .pure _
    | done ws => exact .pure _

/-- A run from the start of a block, by induction on the number of blocks it may enter. -/
theorem keeps_runFrom (hh : host.Keeps P E) (hE : Admits E) (p : Program) (fuel : Nat)
    (cur : Int) (f : Frame) : Keeps P E (p.runFrom host fuel cur f) := by
  induction fuel generalizing cur f with
  | zero => exact .fault _
  | succ fuel ih =>
    unfold Program.runFrom
    cases p.block? cur with
    | none => exact .fault _
    | some b =>
      refine .bind (.mapStop (keeps_execAll hh hE p _ f) (hE.inBlock _ _)) fun next => ?_
      cases next with
      | done ws => exact .pure ws
      | onward f' => exact keeps_stop hE.trap
      | jump f' target =>
        dsimp only
        cases p.block? target with
        | none => exact .fault _
        | some b' =>
          refine .bind (keeps_sound _) fun incoming => ?_
          exact .bind (keeps_sound _) fun f'' => ih target f''

/-- What everything in the host keeps, every program keeps. -/
theorem keeps_run (hh : host.Keeps P E) (hE : Admits E) (p : Program) (fuel : Nat) :
    Keeps P E (p.run host fuel) := by
  unfold Program.run
  exact .bind (keeps_sound _) fun f => keeps_runFrom hh hE p fuel 0 f

end Code

end TreeMachine
