import TreeMachine.Engine
import TreeMachine.Proofs.Code.Keeping
import TreeMachine.Proofs.Modules.Loads
import TreeMachine.Proofs.Types.History

/-! # Modules during an evaluation

  Code that runs may compile and run functions, but it drops none.  Main statements: all
  that an evaluation does to modules and functions is load more of them, so the module of
  every function stays loaded, and an invocation never meets an entry without a program.
-/

namespace TreeMachine

open Code (Handle Host Memory Program Run RunError)
open Compile (CompileError)

namespace Code.RunError

/-- The error does not come from an entry without a program. -/
def EntryKnown (e : RunError) : Prop := ∀ entry, e.cause ≠ .unknownEntry entry

theorem admits_entryKnown : Admits EntryKnown where
  trap := by simp [EntryKnown, cause]
  unknownHost := by simp [EntryKnown, cause]
  slotRange := by simp [EntryKnown, cause]
  frameAddress := by simp [EntryKnown, cause]
  noMemory := by simp [EntryKnown, cause]
  hostResult := by simp [EntryKnown, cause]
  inHost _ _ he := he
  inBlock _ _ _ he := he

end Code.RunError

/-- The error does not come from an entry without a program. -/
def EngineError.EntryKnown : EngineError → Prop
  | .running _ e => e.EntryKnown
  | _ => True

namespace Image

variable {ε α : Type} {image image' : Image} {m : Machine} {p : Pool}

/-! ## The image -/

/-- Since the machine was `m` and the pool `p`, modules have been loaded together with their
    functions, and nothing else has become of either. -/
def Loading (m : Machine) (p : Pool) (image : Image) : Prop :=
  ∃ hs, Loads m p hs image.machine image.pool

theorem keeps_onHeap (x : EStateM (Stop ε) Heap α) :
    Keeps (Loading m p) (fun _ => True) (onHeap x) := by
  intro image himage
  cases hrun : x image.heap with
  | ok a h => exact Yields.of_ok (onHeap_ok hrun) himage
  | error stop h =>
    refine Yields.of_error (onHeap_error hrun) ?_
    cases stop with
    | error e => exact ⟨trivial, himage⟩
    | fault f => exact Spares.of_fault f himage

/-- A function has been built, and its module has been loaded. -/
def Built (image : Image) (f : Function) (image' : Image) : Prop :=
  ∃ program, f.handle = some (.issued f.entry) ∧ f.entry = image.machine.last + 1 ∧
    image'.machine = (image.machine.install program).2 ∧ image'.pool = image.pool

/-- A function that has been built has a module of its own; nothing is loaded in vain. -/
theorem build_yields (root : Node) (image : Image) :
    Yields (build root) image (fun r image' => Built image r.1 image')
      (fun _ image' => image'.machine = image.machine ∧ image'.pool = image.pool) := by
  unfold build
  apply Yields.bind
  cases hrun : Compile.compileModule root image.heap with
  | error stop h => exact Yields.of_error (onHeap_error hrun) ⟨rfl, rfl⟩
  | ok r h =>
    obtain ⟨code, returnType⟩ := r
    refine Yields.of_ok (onHeap_ok hrun) ?_
    dsimp only
    cases code.finalize with
    | error e => exact ⟨rfl, rfl⟩
    | ok r => exact ⟨r.1, rfl, rfl, rfl, rfl⟩

/-- Puts the function into a free slot, or finds the invariants of the pool broken. -/
def Stores (x : EStateM Fault Pool α) (f : Function) : Prop :=
  ∀ p : Pool, (∃ k i a hi, p.slots[k]? = some none ∧ x p = .ok a (p.put k f i hi)) ∨
    ∃ v, x p = .error (.broken v) p

theorem stores_allocate (f : Function) : Stores (Pool.allocate f) f := by
  intro p
  cases hfind : p.lowestFree with
  | none => exact Or.inr ⟨_, Pool.allocate_eq_error hfind f⟩
  | some k =>
    exact Or.inl ⟨k, k / 64, _, Pool.taken_of_lowestFree hfind,
      (Pool.lowestFree_eq_some hfind).1, Pool.allocate_eq_ok hfind f⟩

theorem stores_install (id : UInt64) (f : Function) : Stores (Pool.install id f) f := by
  intro p
  unfold Pool.install
  by_cases hrange : p.inRange id = true
  · rw [if_neg (by simp [hrange])]
    by_cases htaken : (p.get? id).isSome = true
    · exact Or.inr ⟨_, if_pos htaken⟩
    · refine Or.inl ⟨id.toNat - 1, p.firstFree, (), p.taken, ?_, if_neg htaken⟩
      simp only [Pool.inRange, Bool.and_eq_true, decide_eq_true_eq] at hrange
      have hpos := Arena.toNat_pos_iff.2 hrange.1
      have hlt : id.toNat - 1 < p.slots.size := by omega
      rw [Option.not_isSome_iff_eq_none, Pool.get?, if_neg hrange.1,
        Array.getElem?_eq_getElem hlt] at htaken
      rw [Array.getElem?_eq_getElem hlt]
      exact congrArg some htaken
  · exact Or.inr ⟨_, if_pos (by simpa using hrange)⟩

/-- Storing what has just been built. -/
theorem Built.store {f : Function} {x : EStateM Fault Pool α} (h : Built image f image')
    (himage : Loading m p image) (hx : Stores x f) :
    Yields (onPool (liftM x) : EStateM (Stop ε) Image α) image' (fun _ t => Loading m p t)
      (Spares (Loading m p) fun _ => True) := by
  obtain ⟨program, hhandle, hentry, hmachine, hpool⟩ := h
  obtain ⟨hs, hloads⟩ := himage
  obtain ⟨heap, machine, pool, collector⟩ := image'
  dsimp only at hmachine hpool
  subst hmachine hpool
  obtain ⟨k, i, a, hi, hfree, heq⟩ | ⟨v, heq⟩ := hx image.pool
  · have hput : (onPool (liftM x) : EStateM (Stop ε) Image α)
        ⟨heap, (image.machine.install program).2, image.pool, collector⟩
        = .ok a ⟨heap, (image.machine.install program).2, image.pool.put k f i hi, collector⟩ := by
      simp only [onPool, lift_eq_ok heq]
    exact Yields.of_ok hput ⟨_, hloads.load hfree hhandle hentry program hi⟩
  · have hput : (onPool (liftM x) : EStateM (Stop ε) Image α)
        ⟨heap, (image.machine.install program).2, image.pool, collector⟩
        = .error (.fault (.broken v))
          ⟨heap, (image.machine.install program).2, image.pool, collector⟩ := by
      simp only [onPool, lift_eq_error heq]
    exact Yields.of_error hput trivial

/-- Building and storing loads one module for one function, or fails and loads none. -/
theorem keeps_build {b : EStateM (Stop ε) Image (Function × Code.Module)}
    (hb : ∀ image, Yields b image (fun r image' => Built image r.1 image')
      (fun _ image' => image'.machine = image.machine ∧ image'.pool = image.pool))
    {x : Function → EStateM Fault Pool α} (hx : ∀ f, Stores (x f) f) :
    Keeps (Loading m p) (fun _ => True) (b >>= fun r => onPool (liftM (x r.1))) := by
  intro image himage
  apply Yields.bind
  refine (hb image).mono (fun r image' h => h.store himage (hx r.1)) ?_
  rintro stop image' ⟨hmachine, hpool⟩
  have hsame : Loading m p image' := by
    rw [Loading, hmachine, hpool]
    exact himage
  cases stop with
  | error e => exact ⟨trivial, hsame⟩
  | fault f => exact Spares.of_fault f hsame

theorem keeps_compile (root : Node) : Keeps (Loading m p) (fun _ => True) (compile root) :=
  keeps_build (build_yields root) stores_allocate

end Image

namespace Engine

variable {ε α : Type} {m : Machine} {p : Pool}

/-! ## The engine -/

/-- Nothing but loading has happened to modules and functions. -/
def Loading (m : Machine) (p : Pool) (e : Engine) : Prop := e.image.Loading m p

theorem onImage_ok {x : EStateM ε Image α} {e : Engine} {a : α} {image : Image}
    (hx : x e.image = .ok a image) : onImage x e = .ok a { e with image } := by
  obtain ⟨options, image, random, remaining⟩ := e
  simp only [onImage] at hx ⊢
  rw [hx]

theorem onImage_error {x : EStateM ε Image α} {e : Engine} {b : ε} {image : Image}
    (hx : x e.image = .error b image) : onImage x e = .error b { e with image } := by
  obtain ⟨options, image, random, remaining⟩ := e
  simp only [onImage] at hx ⊢
  rw [hx]

theorem keeps_onImage {x : EStateM (Stop ε) Image α} {E : ε → Prop}
    (hx : Keeps (Image.Loading m p) E x) : Keeps (Loading m p) E (onImage x) := by
  intro e he
  have h := hx e.image he
  cases hrun : x e.image with
  | ok a image => exact Yields.of_ok (onImage_ok hrun) (h.ok hrun)
  | error stop image =>
    refine Yields.of_error (onImage_error hrun) ?_
    have hs := h.error hrun
    cases stop with
    | error b => exact hs
    | fault f => cases f <;> exact hs

theorem keeps_look {E : ε → Prop} (f : Heap → Except Fault α) :
    Keeps (Loading m p) E (look f : EStateM (Stop ε) Engine α) := by
  intro e he
  unfold Yields look
  cases f e.image.heap with
  | ok a => exact he
  | error b => exact Spares.of_fault b he

theorem keeps_change {E : ε → Prop} (x : HeapM α) :
    Keeps (Loading m p) E (change x : EStateM (Stop ε) Engine α) := by
  apply Keeps.lift_fault
  intro e he
  cases hrun : x e.image.heap with
  | ok a heap => exact Yields.of_ok (onImage_ok (Image.onHeap_ok hrun)) he
  | error f heap => exact Yields.of_error (onImage_error (Image.onHeap_error hrun)) he

/-- An error that is turned into no answer is forgotten. -/
theorem keeps_attempt {ε' : Type} {P : Engine → Prop} {E : ε → Prop} {E' : ε' → Prop}
    {x : EStateM (Stop ε) Engine α} (hx : Keeps P E x) :
    Keeps P E' (attempt x : EStateM (Stop ε') Engine (Option α)) := by
  intro e he
  have h := hx e he
  unfold Yields attempt
  cases hrun : x e with
  | ok a e' =>
    simp only
    exact h.ok hrun
  | error stop e' =>
    have hs := h.error hrun
    cases stop with
    | error b => exact hs.2
    | fault f => cases f <;> exact hs

theorem keeps_box (t : Ty) (ws : List UInt64) :
    Keeps (Loading m p) EngineError.EntryKnown (box t ws) := by
  unfold box
  refine .bind (keeps_look _) fun size => ?_
  by_cases hsize : UInt64.ofNat ws.length ≠ size
  · rw [if_pos hsize]
    refine .bind (keeps_look _) fun text => .bind (.error trivial) fun _ => ?_
    refine .ite (.pure _) ?_
    exact .bind (keeps_change _) fun object => .bind (keeps_change _) fun _ => .pure _
  · rw [if_neg hsize]
    refine .ite (.pure _) ?_
    exact .bind (keeps_change _) fun object => .bind (keeps_change _) fun _ => .pure _

theorem keeps_compile (root : Node) :
    Keeps (Loading m p) EngineError.EntryKnown (compile root) := by
  have hcompile : Keeps (Loading m p) EngineError.EntryKnown
      (mapStop .compile (onImage (Image.compile root))) :=
    .mapStop (keeps_onImage (Image.keeps_compile root)) fun _ _ => trivial
  unfold compile
  refine .bind .get fun e => ?_
  by_cases htrace : e.options.trace = true
  · rw [if_pos htrace]
    exact .bind (keeps_look _) fun _ => hcompile
  · rw [if_neg htrace]
    exact hcompile

/-! ### What running code reaches -/

theorem keeps_firstArg (args : List UInt64) :
    Keeps (Loading m p) RunError.EntryKnown (firstArg args) := by
  cases args with
  | nil => exact .fault _
  | cons w _ => exact .pure w

theorem keeps_dynamify (args : List UInt64) :
    Keeps (Loading m p) RunError.EntryKnown (dynamify args) := by
  cases args with
  | nil => exact Code.keeps_stop (by simp [RunError.EntryKnown, RunError.cause])
  | cons t ws =>
    refine .bind (.mapStop (keeps_box t ws) ?_) fun d => .pure _
    intro e _
    simp [RunError.EntryKnown, RunError.cause]

theorem keeps_checkAddress (addr : UInt64) (count : Int) :
    Keeps (Loading m p) RunError.EntryKnown (checkAddress addr count) := by
  unfold checkAddress
  refine .bind .get fun e => .ite ?_ (.pure _)
  exact Code.keeps_stop (by simp [RunError.EntryKnown, RunError.cause])

/-- The host keeps modules and functions as invoking a function does. -/
theorem host_keeps {run : UInt64 → EngineM Boxed}
    (hrun : ∀ id, Keeps (Loading m p) EngineError.EntryKnown (run id)) :
    (host run).Keeps (Loading m p) RunError.EntryKnown where
  functions name fn hfn args := by
    unfold host at hfn
    dsimp only at hfn
    split at hfn
    · cases hfn
      intro e he
      unfold spend
      by_cases h0 : e.remaining = 0
      · exact Yields.of_ok (if_pos h0) he
      · exact Yields.of_ok (if_neg h0) he
    split at hfn
    · cases hfn
      exact fun e he => he
    split at hfn
    · cases hfn
      exact keeps_dynamify args
    split at hfn
    · cases hfn
      refine .bind (keeps_firstArg args) fun w => ?_
      exact .bind (keeps_attempt (keeps_compile w)) fun id => .pure _
    split at hfn
    · cases hfn
      refine .bind (keeps_firstArg args) fun w => ?_
      exact .bind (keeps_attempt (hrun w)) fun d => .pure _
    · cases hfn
  loads memory hmemory addr n := by
    cases hmemory
    exact .bind (keeps_checkAddress addr n) fun _ => keeps_look _
  stores memory hmemory addr ws := by
    cases hmemory
    exact .bind (keeps_checkAddress addr _) fun _ => keeps_change _

/-! ### Invocations -/

section Invocations

variable {e : Engine} {f : Function} {id : UInt64} {depth : Nat}

/-- The engine after one invocation has been paid for. -/
def charged (e : Engine) : Engine := { e with remaining := e.remaining - 1 }

theorem invoke_eq {run : UInt64 → EngineM Boxed} {entry : UInt64} {program : Program}
    (h : e.image.machine.program? entry = some program) :
    invoke run entry e = program.run (host run) (blockBound program e.remaining) e := by
  unfold invoke
  simp only [get_bind_eq, h]

theorem invoke_unknown {run : UInt64 → EngineM Boxed} {entry : UInt64}
    (h : e.image.machine.program? entry = none) :
    invoke run entry e = .error (.error (.unknownEntry entry)) e := by
  unfold invoke
  simp only [get_bind_eq, h]
  rfl

theorem runWithin_unknown (h : e.image.pool.get? id = none) :
    runWithin depth id e = .error (.error (.unknownFunction id)) e := by
  unfold runWithin
  simp only [get_bind_eq, h]
  rfl

theorem runWithin_exhausted (h : e.image.pool.get? id = some f)
    (hspent : e.remaining = 0 ∨ depth = 0) :
    runWithin depth id e = .error (.error .exhausted) e := by
  unfold runWithin
  simp only [get_bind_eq, h]
  by_cases h0 : e.remaining = 0
  · simp only [h0, if_true]
    rfl
  · obtain rfl := hspent.resolve_left h0
    simp only [h0, if_false]
    rfl

theorem runWithin_succ (h : e.image.pool.get? id = some f) (h0 : e.remaining ≠ 0) :
    runWithin (depth + 1) id e =
      (mapStop (.running id) (invoke (runWithin depth) f.entry) >>= box f.returnType)
        e.charged := by
  conv_lhs => unfold runWithin
  simp only [get_bind_eq, h, h0, if_false]
  rfl

theorem run_eq : run id e =
    runWithin e.options.finiteness.toNat id { e with remaining := e.options.finiteness } := rfl

end Invocations

/-- The module of every function is loaded. -/
def Linked (m : Machine) (p : Pool) : Prop :=
  ∀ id f, p.get? id = some f → ∃ program, m.program? f.entry = some program

/-- Running a function keeps all functions and their modules, by induction on how deep
    invocations nest; its entry always has a program. -/
theorem keeps_runWithin (hlinked : Linked m p) (depth : Nat) (id : UInt64) :
    Keeps (Loading m p) EngineError.EntryKnown (runWithin depth id) := by
  induction depth generalizing id with
  | zero =>
    intro e he
    cases hf : e.image.pool.get? id with
    | none => exact Yields.of_error (runWithin_unknown hf) ⟨trivial, he⟩
    | some f => exact Yields.of_error (runWithin_exhausted hf (.inr rfl)) ⟨trivial, he⟩
  | succ depth ih =>
    intro e he
    cases hf : e.image.pool.get? id with
    | none => exact Yields.of_error (runWithin_unknown hf) ⟨trivial, he⟩
    | some f =>
      by_cases h0 : e.remaining = 0
      · exact Yields.of_error (runWithin_exhausted hf (.inl h0)) ⟨trivial, he⟩
      · refine Yields.congr (runWithin_succ hf h0) (Yields.bind ?_)
        obtain ⟨hs, hloads⟩ := he
        obtain ⟨program, hprogram⟩ := hloads.loaded hlinked hf
        -- The invocation finds the program of the function.
        have hinvoke : Keeps (Loading m p) RunError.EntryKnown (program.run
            (host (runWithin depth)) (blockBound program e.charged.remaining)) :=
          Code.keeps_run (host_keeps ih) RunError.admits_entryKnown program _
        have hmapped : Keeps (Loading m p) EngineError.EntryKnown (mapStop (.running id)
            (program.run (host (runWithin depth))
              (blockBound program e.charged.remaining)) : EngineM (List UInt64)) :=
          .mapStop hinvoke fun _ he => he
        have hsame : (mapStop (.running id) (invoke (runWithin depth) f.entry) :
              EngineM (List UInt64)) e.charged
            = mapStop (.running id) (program.run (host (runWithin depth))
              (blockBound program e.charged.remaining)) e.charged := by
          simp only [mapStop, invoke_eq (e := e.charged) hprogram]
        refine Yields.congr hsame ((hmapped e.charged ⟨hs, hloads⟩).imp ?_)
        exact fun ws e' he' => keeps_box f.returnType ws e' he'

theorem keeps_run (hlinked : Linked m p) (id : UInt64) :
    Keeps (Loading m p) EngineError.EntryKnown (run id) := by
  intro e he
  exact Yields.congr run_eq (keeps_runWithin hlinked _ id _ he)

/-- What is compiled and run in one go is linked as well. -/
theorem keeps_eval (hlinked : Linked m p) (root : Node) :
    Keeps (Loading m p) EngineError.EntryKnown (eval root) :=
  .bind (keeps_compile root) fun id => keeps_run hlinked id

theorem keeps_evalText (hlinked : Linked m p) (text : List UInt8) :
    Keeps (Loading m p) EngineError.EntryKnown (evalText text) := by
  refine .bind (.mapStop (keeps_onImage (Image.keeps_onHeap _)) ?_) fun root =>
    keeps_eval hlinked root
  exact fun e _ => trivial

end Engine

end TreeMachine
