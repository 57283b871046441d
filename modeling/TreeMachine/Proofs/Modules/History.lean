import TreeMachine.Proofs.Modules.Running
import TreeMachine.Snapshot.Restore

/-! # No leaked and no dangling modules

  An engine starts empty or from a snapshot, and then answers calls.  Each call loads
  modules together with functions or drops functions together with modules.  Main statement:
  as long as no handle is issued twice, the loaded modules are those of the functions in the
  pool, no call meets an entry without a program, and a number that is used again never
  leads to the old code.
-/

namespace TreeMachine

open Code (Handle)
open Snapshot (LoadError SavedFunction Trailer)

/-! ## Collections -/

namespace Image

variable {ε α : Type} {image : Image} {m : Machine} {p : Pool}

/-- The modules and the functions of the two images are the same. -/
def SameModules (image image' : Image) : Prop :=
  image'.machine = image.machine ∧ image'.pool = image.pool

theorem onHeap_same (x : EStateM ε Heap α) (image : Image) :
    Yields (onHeap x) image (fun _ image' => image.SameModules image')
      (fun _ image' => image.SameModules image') := by
  cases hrun : x image.heap with
  | ok a h => exact Yields.of_ok (onHeap_ok hrun) ⟨rfl, rfl⟩
  | error e h => exact Yields.of_error (onHeap_error hrun) ⟨rfl, rfl⟩

/-- Some functions have been dropped with their modules. -/
def Drops (image image' : Image) : Prop :=
  ∃ marks, image'.machine =
      (unloadAll ((image.pool.sweep marks).1.filterMap (·.handle)) image.machine).2 ∧
    image'.pool = (image.pool.sweep marks).2

/-- A collection drops functions with their modules, or stops before it drops any. -/
theorem collect_drops (image : Image) :
    Yields collect image (fun _ image' => image.Drops image')
      (fun _ image' => image.SameModules image') := by
  unfold collect collectReporting
  apply Yields.bind
  apply Yields.bind
  refine (onHeap_same _ image).imp ?_
  rintro _ image₁ ⟨hmachine, hpool⟩
  apply Yields.bind
  refine Yields.inspect ?_ fun _ _ => ⟨hmachine, hpool⟩
  intro found _
  apply Yields.bind
  refine (onHeap_same _ image₁).mono ?_ ?_
  · rintro _ image₂ ⟨hmachine₂, hpool₂⟩
    refine ⟨found.marks, ?_, ?_⟩
    · rw [← hmachine, ← hmachine₂, ← hpool, ← hpool₂]
      rfl
    · rw [← hpool, ← hpool₂]
      rfl
  · rintro _ image₂ ⟨hmachine₂, hpool₂⟩
    exact ⟨hmachine₂.trans hmachine, hpool₂.trans hpool⟩

/-! ## Loading a snapshot -/

theorem keeps_addRoot (r : Root) : Keeps (Loading m p) (fun _ => True) (addRoot r) := by
  have hlook : ∀ {β : Type} (f : Image → Except Fault β), Keeps (Loading m p) (fun _ => True)
      (liftM (inspect f) : EStateM (Stop RootError) Image β) := by
    intro β f
    apply Keeps.lift_fault
    intro image himage
    exact Yields.inspect (fun _ _ => himage) fun _ _ => himage
  unfold addRoot
  refine .bind (hlook _) fun size => ?_
  by_cases hsize : UInt64.ofNat r.toWords.length ≠ size
  · rw [if_pos hsize]
    exact .bind (hlook _) fun type => .bind (.error trivial) fun _ =>
      .modifyGet fun image himage => himage
  · rw [if_neg hsize]
    exact .modifyGet fun image himage => himage

theorem keeps_restoreRoots (roots : List Root) :
    Keeps (Loading m p) (fun _ => True) (restoreRoots roots) := by
  induction roots with
  | nil => exact .pure ()
  | cons r rest ih =>
    exact .bind (.mapStop (keeps_addRoot r) fun _ _ => trivial) fun _ => ih

theorem keeps_holdFunctions (functions : List SavedFunction) :
    Keeps (Loading m p) (fun _ => True) (holdFunctions functions) := by
  induction functions with
  | nil => exact .pure []
  | cons f rest ih =>
    have hrest : ∀ image : Image, Keeps (Loading m p) (fun _ => True) (do
        let id ← mapStop LoadError.functionRoot
          (addRoot (Root.ofWords image.heap.types.scalars.ast [f.ast]))
        return id :: (← holdFunctions rest)) := fun image =>
      .bind (.mapStop (keeps_addRoot _) fun _ _ => trivial) fun id => .bind ih fun _ => .pure _
    unfold holdFunctions
    refine .bind .get fun image => ?_
    by_cases hid : f.id = 0 ∨ UInt64.ofNat image.pool.capacity < f.id
    · rw [if_pos hid]
      exact .bind (.error trivial) fun _ => hrest image
    · rw [if_neg hid]
      exact hrest image

theorem keeps_restoreFunctions (functions : List SavedFunction) :
    Keeps (Loading m p) (fun _ => True) (restoreFunctions functions) := by
  induction functions with
  | nil => exact .pure ()
  | cons f rest ih =>
    have hbuild : ∀ image, Yields (mapStop (LoadError.recompile f.id) (build f.ast)) image
        (fun r image' => Built image r.1 image') (fun _ image' => image.SameModules image') := by
      intro image
      have h := build_yields f.ast image
      cases hrun : build f.ast image with
      | ok r image' => exact Yields.of_ok (mapStop_eq_ok hrun) (h.ok hrun)
      | error stop image' => exact Yields.of_error (mapStop_eq_error hrun) (h.error hrun)
    simp only [restoreFunctions]
    rw [← bind_assoc]
    exact .bind (keeps_build hbuild (stores_install f.id)) fun _ => ih

/-- Restoring loads the saved functions between two collections. -/
theorem restore_moves {words : Array UInt64} {t : Trailer} {image' : Image}
    (h : restore words t image = .ok () image') :
    ∃ hs, Moves image.machine image.pool hs image'.machine image'.pool ∧
      hs.length ≤ 2 * image.pool.slots.size := by
  -- Each stage that is no collection keeps on loading from where it started.
  have hstart : ∀ image : Image, Loading image.machine image.pool image :=
    fun image => ⟨[], .refl⟩
  unfold restore at h
  obtain ⟨_, image₁, hrun₁, h⟩ := of_bind_eq_ok h
  obtain ⟨_, image₂, hrun₂, h⟩ := of_bind_eq_ok h
  obtain ⟨_, image₃, hrun₃, h⟩ := of_bind_eq_ok h
  obtain ⟨held, image₄, hrun₄, h⟩ := of_bind_eq_ok h
  obtain ⟨_, image₅, hrun₅, h⟩ := of_bind_eq_ok h
  obtain ⟨_, image₆, hrun₆, h⟩ := of_bind_eq_ok h
  obtain ⟨_, image₇, hrun₇, h⟩ := of_bind_eq_ok h
  obtain ⟨_, image₈, hrun₈, h⟩ := of_bind_eq_ok h
  cases h
  have hwords : Keeps (Loading image.machine image.pool) (fun _ => True)
      (liftM (onArena (Arena.restore words) : ImageM Unit) :
        EStateM (Stop LoadError) Image Unit) := by
    apply Keeps.lift_fault
    intro s hs
    refine (onHeap_same _ s).mono ?_ ?_ <;>
    · rintro _ s' ⟨hmachine, hpool⟩
      rw [Loading, hmachine, hpool]
      exact hs
  have h₁ := (hwords image (hstart image)).ok hrun₁
  have hrebuild : Keeps (Loading image.machine image.pool) (fun _ => True)
      (mapStop LoadError.types (onHeap (Heap.rebuild t.types))) :=
    .mapStop (keeps_onHeap _) fun _ _ => trivial
  have h₂ := (hrebuild image₁ h₁).ok hrun₂
  have h₃ := (keeps_restoreRoots t.roots image₂ h₂).ok hrun₃
  obtain ⟨hs₁, hloads₁⟩ := (keeps_holdFunctions t.functions image₃ h₃).ok hrun₄
  have hcollect : ∀ {s s' : Image} {a : CollectStats},
      (liftM collect : EStateM (Stop LoadError) Image CollectStats) s = .ok a s' →
        s.Drops s' := by
    intro s s' a hrun
    have hy := collect_drops s
    cases hcol : collect s with
    | ok b s'' =>
      cases (lift_eq_ok hcol).symm.trans hrun
      exact hy.ok hcol
    | error f s'' => cases (lift_eq_error hcol).symm.trans hrun
  obtain ⟨marks₅, hmachine₅, hpool₅⟩ := hcollect hrun₅
  have h₆ := (keeps_restoreFunctions t.functions image₅ (hstart image₅)).ok hrun₆
  have hrelease : Keeps (Loading image₅.machine image₅.pool) (fun _ => True)
      (forIn held PUnit.unit fun id _ => do
        let _ ← modifyGet (removeRoot id)
        pure (ForInStep.yield PUnit.unit) : EStateM (Stop LoadError) Image PUnit) :=
    .forIn fun id _ => .bind (.modifyGet fun s hs => hs) fun _ => .pure _
  obtain ⟨hs₂, hloads₂⟩ := (hrelease image₆ h₆).ok hrun₇
  obtain ⟨marks₈, hmachine₈, hpool₈⟩ := hcollect hrun₈
  have hmoves₅ : Moves image.machine image.pool hs₁ image₅.machine image₅.pool := by
    rw [hmachine₅, hpool₅]
    have := Moves.drop (.loads .refl hloads₁) marks₅
    simpa using this
  refine ⟨hs₁ ++ hs₂, ?_, ?_⟩
  · rw [hmachine₈, hpool₈]
    exact .drop (.loads hmoves₅ hloads₂) marks₈
  · have hle₁ := hloads₁.length_le
    have hle₂ := hloads₂.length_le
    rw [hmoves₅.size_eq] at hle₂
    rw [List.length_append]
    omega

end Image

/-! ## Calls -/

/-- Why a call was refused. -/
inductive CallError where
  | engine (e : EngineError)
  | root (e : RootError)

/-- The error does not come from an entry without a program. -/
def CallError.EntryKnown : CallError → Prop
  | .engine e => e.EntryKnown
  | .root _ => True

namespace Engine

/-- What an engine can be asked to do. -/
inductive Call where
  | compile (root : Node)
  | run (id : UInt64)
  | eval (root : Node)
  | evalText (text : List UInt8)
  | addRoot (r : Root)
  | removeRoot (id : UInt64)
  | collect
  /-- An invocation by code that runs, in which `depth` further ones may nest. -/
  | invoke (depth : Nat) (id : UInt64)
  /-- Anything that clients or running code do to nodes, types and other words, to the
      random words and to the budget. -/
  | edit (heap : Heap) (random : Random) (remaining : UInt64)

/-- Carries out a call; its answer does not matter here. -/
def Call.perform : Call → EStateM (Stop CallError) Engine Unit
  | .compile root => do
    let _ ← mapStop .engine (Engine.compile root)
  | .run id => do
    let _ ← mapStop .engine (Engine.run id)
  | .eval root => do
    let _ ← mapStop .engine (Engine.eval root)
  | .evalText text => do
    let _ ← mapStop .engine (Engine.evalText text)
  | .addRoot r => do
    let _ ← mapStop .root (onImage (Image.addRoot r))
  | .removeRoot id => modify fun e => { e with image := (e.image.removeRoot id).2 }
  | .collect => do
    let _ ← Engine.collect
  | .invoke depth id => do
    let _ ← mapStop .engine (runWithin depth id)
  | .edit heap random remaining =>
    modify fun e => { e with image := { e.image with heap }, random, remaining }

/-- The call ends in `e'`, with an answer or an error, without a broken invariant. -/
def Call.Leads (c : Call) (e e' : Engine) : Prop :=
  c.perform e = .ok () e' ∨ ∃ stop, c.perform e = .error stop e' ∧ ∀ v, stop ≠ .fault (.broken v)

/-- An engine to start from, and the handles that its machine has issued.  A pool has fewer
    slots than a signed word can count. -/
inductive Started : Engine → List Handle → Prop where
  | create {o : EngineOptions} {e : Engine} (hslots : o.functions < 2 ^ 63)
    (h : Engine.create o = .ok e) : Started e []
  | load {bytes : ByteArray} {o : EngineOptions} {e : Engine}
    (h : Engine.load bytes o = .ok e) : Started e (Machine.empty.issuedSince e.image.machine)

/-- A sequence of calls, and the handles that the machine has issued meanwhile. -/
inductive Steps (e : Engine) : List Handle → Engine → Prop where
  | refl : Steps e [] e
  | call {hs : List Handle} {e' e'' : Engine} (h : Steps e hs e') (c : Call)
    (hc : c.Leads e' e'') :
    Steps e (hs ++ e'.image.machine.issuedSince e''.image.machine) e''

/-! ### One call -/

variable {e e' : Engine} {hs : List Handle}

/-- Whatever is asked of an engine whose functions have their modules, an error never comes
    from an entry without a program, and only a collection does more than to load modules. -/
theorem Call.keeps {m : Machine} {p : Pool} (hlinked : Linked m p) {c : Call}
    (hc : c ≠ .collect) : Keeps (Loading m p) CallError.EntryKnown c.perform := by
  have hignore : ∀ {α : Type} {x : EngineM α}, Keeps (Loading m p) EngineError.EntryKnown x →
      Keeps (Loading m p) CallError.EntryKnown
        (do let _ ← mapStop .engine x : EStateM (Stop CallError) Engine Unit) :=
    fun hx => .bind (.mapStop hx fun _ he => he) fun _ => .pure _
  cases c with
  | compile root => exact hignore (keeps_compile root)
  | run id => exact hignore (keeps_run hlinked id)
  | eval root => exact hignore (keeps_eval hlinked root)
  | evalText text => exact hignore (keeps_evalText hlinked text)
  | addRoot r =>
    refine .bind (.mapStop (keeps_onImage (Image.keeps_addRoot r)) fun _ _ => trivial) ?_
    exact fun _ => .pure _
  | removeRoot id => exact .modifyGet fun e he => he
  | collect => exact absurd rfl hc
  | invoke depth id => exact hignore (keeps_runWithin hlinked depth id)
  | edit heap random remaining => exact .modifyGet fun e he => he

theorem collect_yields (e : Engine) :
    Yields (Call.collect.perform) e (fun _ e' => e.image.Drops e'.image)
      (fun stop e' => (∃ f, stop = .fault f) ∧ e.image.SameModules e'.image) := by
  have h := Image.collect_drops e.image
  show Yields (liftM collect >>= _) _ _ _
  apply Yields.bind
  cases hrun : Image.collect e.image with
  | ok stats image => exact Yields.of_ok (lift_eq_ok (onImage_ok hrun)) (h.ok hrun)
  | error f image =>
    exact Yields.of_error (lift_eq_error (onImage_error hrun)) ⟨⟨f, rfl⟩, h.error hrun⟩

/-- A call loads modules or drops functions, and the handles are those issued meanwhile. -/
theorem Call.Leads.moves {c : Call} (h : c.Leads e e')
    (hlinked : Linked e.image.machine e.image.pool) (hsize : e.image.pool.slots.size < 2 ^ 64) :
    Moves e.image.machine e.image.pool (e.image.machine.issuedSince e'.image.machine)
      e'.image.machine e'.image.pool := by
  have hmoves : ∃ hs, hs.length < 2 ^ 64 ∧
      Moves e.image.machine e.image.pool hs e'.image.machine e'.image.pool := by
    by_cases hc : c = .collect
    · subst hc
      have hy := collect_yields e
      refine ⟨[], by simp, ?_⟩
      obtain hok | ⟨stop, herror, -⟩ := h
      · obtain ⟨marks, hmachine, hpool⟩ := hy.ok hok
        rw [hmachine, hpool]
        exact .drop .refl marks
      · obtain ⟨-, hmachine, hpool⟩ := hy.error herror
        rw [hmachine, hpool]
        exact .refl
    · have hy := Call.keeps hlinked hc e ⟨[], .refl⟩
      have hloading : Loading e.image.machine e.image.pool e' := by
        obtain hok | ⟨stop, herror, hunbroken⟩ := h
        · exact hy.ok hok
        · have hspares := hy.error herror
          cases stop with
          | error b => exact hspares.2
          | fault f =>
            cases f with
            | broken v => exact absurd rfl (hunbroken v)
            | outOfBounds => exact hspares
            | endless => exact hspares
      obtain ⟨hs, hloads⟩ := hloading
      exact ⟨hs, Nat.lt_of_le_of_lt hloads.length_le hsize, .loads .refl hloads⟩
  obtain ⟨hs, hlen, hm⟩ := hmoves
  rw [← hm.issued hlen]
  exact hm

/-! ### Histories -/

/-- Modules and functions are in step, and `hs` are the handles issued so far. -/
structure Kept (hs : List Handle) (e : Engine) : Prop where
  inStep : InStep e.image.machine e.image.pool
  known : ∀ x ∈ e.image.machine.programs, .issued x.1 ∈ hs
  size_lt : e.image.pool.slots.size < 2 ^ 64

theorem Kept.move (h : e.Kept hs) {hs' : List Handle}
    (hm : Moves e.image.machine e.image.pool hs' e'.image.machine e'.image.pool)
    (hnodup : (hs ++ hs').Nodup) : e'.Kept (hs ++ hs') where
  inStep := hm.inStep h.inStep h.size_lt h.known hnodup
  known := hm.known h.known
  size_lt := by rw [hm.size_eq]; exact h.size_lt

theorem slotCount_le (n : Nat) : Pool.slotCount n ≤ n + 64 := by
  unfold Pool.slotCount
  omega

theorem create_image {o : EngineOptions} (h : Engine.create o = .ok e) :
    e.image.machine = .empty ∧ e.image.pool = .create o.withDefaults.functions := by
  obtain ⟨image, himage, h⟩ := of_except_bind_eq_ok h
  obtain ⟨heap, hheap, himage⟩ := of_except_bind_eq_ok himage
  cases h
  cases himage
  exact ⟨rfl, rfl⟩

/-- A new engine has no modules and no functions. -/
theorem create_kept {o : EngineOptions} (hslots : o.functions < 2 ^ 63)
    (h : Engine.create o = .ok e) : e.Kept [] := by
  obtain ⟨hmachine, hpool⟩ := create_image h
  have hnone : ∀ id, e.image.pool.get? id = none := by
    intro id
    rw [hpool, Pool.get?, Pool.create]
    simp only [Array.getElem?_replicate]
    split
    · rfl
    · split <;> rfl
  have hfunctions : o.withDefaults.functions < 2 ^ 63 := by
    unfold EngineOptions.withDefaults EngineOptions.defaultFunctions
    dsimp only
    split <;> omega
  refine ⟨⟨?_, ?_, ?_, ?_, ?_⟩, ?_, ?_⟩
  · simp [hnone]
  · simp [hnone]
  · simp [hnone]
  · simp [hmachine, Machine.empty]
  · simp [hmachine, Machine.empty]
  · simp [hmachine, Machine.empty]
  · have hle := slotCount_le o.withDefaults.functions
    rw [hpool, Pool.create, Array.size_replicate]
    omega

/-- A snapshot is restored into a new engine. -/
theorem load_restores {bytes : ByteArray} {o : EngineOptions} (h : Engine.load bytes o = .ok e) :
    ∃ (o' : EngineOptions) (e₀ : Engine) (words : Array UInt64) (t : Trailer),
      o'.functions < 2 ^ 32 ∧ Engine.create o' = .ok e₀ ∧
        Image.restore words t e₀.image = .ok () e.image := by
  unfold Engine.load at h
  obtain ⟨contents, -, h⟩ := of_except_bind_eq_ok h
  obtain ⟨e₀, hcreate, h⟩ := of_except_bind_eq_ok h
  set o' : EngineOptions := { o with
    arenaWords := contents.header.arenaWords
    functions := contents.header.functionSlots.toNat
    finiteness := if o.finiteness = 0 then contents.header.finiteness else o.finiteness }
  have hcreate : Engine.create o' = .ok e₀ := by
    cases hnew : Engine.create o' with
    | ok e₁ =>
      rw [hnew] at hcreate
      cases hcreate
      rfl
    | error f =>
      rw [hnew] at hcreate
      cases hcreate
  have hfew : o'.functions < 2 ^ 32 := contents.header.functionSlots.toNat_lt
  refine ⟨o', e₀, contents.words, contents.trailer, hfew, hcreate, ?_⟩
  obtain ⟨options, image, random, remaining⟩ := e₀
  cases hrun : Image.restore contents.words contents.trailer image with
  | error stop image' =>
    simp only [onImage, hrun] at h
    cases h
  | ok a image' =>
    simp only [onImage, hrun] at h
    cases h
    rfl

/-- What has been loaded from a snapshot has come into an empty machine and an empty pool. -/
theorem load_moves {bytes : ByteArray} {o : EngineOptions} (h : Engine.load bytes o = .ok e) :
    ∃ (o' : EngineOptions) (e₀ : Engine), o'.functions < 2 ^ 32 ∧ Engine.create o' = .ok e₀ ∧
      Moves e₀.image.machine e₀.image.pool (Machine.empty.issuedSince e.image.machine)
        e.image.machine e.image.pool := by
  obtain ⟨o', e₀, words, t, hfew, hcreate, hrestore⟩ := load_restores h
  refine ⟨o', e₀, hfew, hcreate, ?_⟩
  obtain ⟨hmachine, hpool⟩ := create_image hcreate
  obtain ⟨hs, hm, hlen⟩ := Image.restore_moves hrestore
  have hslots : e₀.image.pool.slots.size < 2 ^ 33 := by
    have hle := slotCount_le o'.withDefaults.functions
    have hfunctions : o'.withDefaults.functions < 2 ^ 32 := by
      unfold EngineOptions.withDefaults EngineOptions.defaultFunctions
      dsimp only
      split <;> omega
    rw [hpool, Pool.create, Array.size_replicate]
    omega
  rw [← hmachine, ← hm.issued (by omega)]
  exact hm

theorem Started.kept (h : Started e hs) (hnodup : hs.Nodup) : e.Kept hs := by
  cases h with
  | create hslots h => exact create_kept hslots h
  | load h =>
    obtain ⟨o', e₀, hfew, hcreate, hm⟩ := load_moves h
    have hkept := create_kept (by omega) hcreate
    exact hkept.move hm hnodup

/-- A sequence of calls loads modules and drops functions, by induction on the calls. -/
theorem Steps.moves {hs' : List Handle} (h : Steps e hs' e') (hkept : e.Kept hs)
    (hnodup : (hs ++ hs').Nodup) :
    Moves e.image.machine e.image.pool hs' e'.image.machine e'.image.pool := by
  induction h with
  | refl => exact .refl
  | @call hs₁ e₁ e₂ h c hc ih =>
    rw [← List.append_assoc] at hnodup
    have hfirst := ih (List.nodup_append.1 hnodup).1
    have hkept₁ := hkept.move hfirst (List.nodup_append.1 hnodup).1
    exact hfirst.trans (hc.moves hkept₁.inStep.loaded hkept₁.size_lt)

/-- What was dropped does not come back: once a function has left the pool, its entry is
    that of no later function, and no program is loaded there. -/
theorem Moves.gone {e₁ e₂ e₃ : Engine} {hs₂ hs₃ : List Handle} (h₁ : e₁.Kept hs)
    (h₂ : Moves e₁.image.machine e₁.image.pool hs₂ e₂.image.machine e₂.image.pool)
    (h₃ : Moves e₂.image.machine e₂.image.pool hs₃ e₃.image.machine e₃.image.pool)
    (hnodup : (hs ++ (hs₂ ++ hs₃)).Nodup) {id : UInt64} {f : Function}
    (hf : e₁.image.pool.get? id = some f) (hfreed : e₂.image.pool.get? id = none) :
    (∀ id' f', e₃.image.pool.get? id' = some f' → f'.entry ≠ f.entry) ∧
      e₃.image.machine.program? f.entry = none := by
  have hkept₃ := h₁.move (h₂.trans h₃) hnodup
  have hold : Handle.issued f.entry ∈ hs := by
    obtain ⟨program, hprogram⟩ := h₁.inStep.loaded id f hf
    obtain ⟨x, hx, -⟩ := Option.map_eq_some_iff.1 hprogram
    have hentry : x.1 = f.entry := by simpa using List.find?_some hx
    rw [← hentry]
    exact h₁.known x (List.mem_of_find?_eq_some hx)
  have hnone : ∀ id' f', e₃.image.pool.get? id' = some f' → f'.entry ≠ f.entry := by
    intro id' f' hf' heq
    have hnew : Handle.issued f'.entry ∉ hs₂ ++ hs₃ := by
      rw [heq]
      intro hmem
      exact (List.nodup_append.1 hnodup).2.2 _ hold _ hmem rfl
    rw [List.mem_append, not_or] at hnew
    -- So `f'` was in the pool all the time, and it is `f` itself.
    have hf₂ := (h₃.since hf').resolve_right hnew.2
    have hf₁ := (h₂.since hf₂).resolve_right hnew.1
    have hid := h₁.inStep.distinct id' id f' f hf₁ hf heq
    rw [hid, hfreed] at hf₂
    cases hf₂
  refine ⟨hnone, ?_⟩
  by_contra hloaded
  obtain ⟨program, hprogram⟩ := Option.ne_none_iff_exists'.1 hloaded
  obtain ⟨x, hx, -⟩ := Option.map_eq_some_iff.1 hprogram
  obtain ⟨id', f', hf', hentry⟩ := hkept₃.inStep.owned x (List.mem_of_find?_eq_some hx)
  have hsame : x.1 = f.entry := by simpa using List.find?_some hx
  exact hnone id' f' hf' (hentry.trans hsame)

/-- An error of a call never comes from an entry without a program. -/
theorem Kept.entryKnown (h : e.Kept hs) {c : Call} {b : CallError}
    (hrun : c.perform e = .error (.error b) e') : b.EntryKnown := by
  by_cases hc : c = .collect
  · subst hc
    obtain ⟨⟨f, hf⟩, -⟩ := (collect_yields e).error hrun
    cases hf
  · exact ((Call.keeps h.inStep.loaded hc e ⟨[], .refl⟩).error hrun).1

/-- No leaked and no dangling modules: from a new engine or a loaded one, any calls that
    break no invariant lead to an engine whose loaded modules are those of its functions, as
    long as no handle is issued twice.  No call fails for lack of a program; and when a
    number is used again for a new function, the old code is gone. -/
theorem modules_inStep {e₀ e : Engine} {hs₀ hs : List Handle} (h₀ : Started e₀ hs₀)
    (h : Steps e₀ hs e) (hnodup : (hs₀ ++ hs).Nodup) :
    InStep e.image.machine e.image.pool ∧
      (∀ c b e', Call.perform c e = .error (.error b) e' → b.EntryKnown) ∧
      ∀ hs' hs'' e' e'', Steps e hs' e' → Steps e' hs'' e'' →
        (hs₀ ++ hs ++ (hs' ++ hs'')).Nodup → ∀ id f f', e.image.pool.get? id = some f →
          e'.image.pool.get? id = none → e''.image.pool.get? id = some f' →
          f'.entry ≠ f.entry ∧ e''.image.machine.program? f.entry = none := by
  have hkept₀ := h₀.kept (List.nodup_append.1 hnodup).1
  have hkept := hkept₀.move (h.moves hkept₀ hnodup) hnodup
  refine ⟨hkept.inStep, fun c b e' hrun => hkept.entryKnown hrun, ?_⟩
  intro hs' hs'' e' e'' h' h'' hnodup' id f f' hf hfreed hf'
  have hfirst : (hs₀ ++ hs ++ hs').Nodup := by
    rw [← List.append_assoc] at hnodup'
    exact (List.nodup_append.1 hnodup').1
  have hm' := h'.moves hkept hfirst
  have hm'' := h''.moves (hkept.move hm' hfirst) (by rwa [List.append_assoc])
  obtain ⟨hnone, hgone⟩ := Moves.gone hkept hm' hm'' hnodup' hf hfreed
  exact ⟨hnone id f' hf', hgone⟩

/-- A small engine evaluates `[run [compile [quote 7]]]`: the program has a function and a
    module, and so has the number that it compiles while it runs. -/
theorem modules_inStep_nested : ∃ e₀ e, Started e₀ [] ∧
    Steps e₀ [.issued 1, .issued 2] e ∧ InStep e.image.machine e.image.pool ∧
      e.image.pool.occupied = [1, 2] ∧ e.image.machine.loaded = 2 := by
  let text : List UInt8 := "[run [compile [quote 7]]]".toUTF8.toList
  have hruns : (match Engine.create ⟨512, 1, 3, 1, false⟩ with
      | .error _ => false
      | .ok e₀ => match Call.perform (.evalText text) e₀ with
        | .error _ _ => false
        | .ok _ e => e.image.pool.occupied == [1, 2] && e.image.machine.loaded == 2 &&
          e₀.image.machine.issuedSince e.image.machine == [.issued 1, .issued 2]) = true := by
    decide +kernel
  split at hruns
  · cases hruns
  · rename_i e₀ hcreate
    split at hruns
    · cases hruns
    · rename_i _ e hrun
      rw [Bool.and_eq_true, Bool.and_eq_true, beq_iff_eq, beq_iff_eq, beq_iff_eq] at hruns
      obtain ⟨⟨hoccupied, hloaded⟩, hissued⟩ := hruns
      have h₀ : Started e₀ [] := .create (by decide) hcreate
      have h : Steps e₀ [.issued 1, .issued 2] e := by
        have hstep := Steps.call .refl (.evalText text) (Or.inl hrun)
        rwa [hissued] at hstep
      exact ⟨e₀, e, h₀, h, (modules_inStep h₀ h (by decide)).1, hoccupied, hloaded⟩

end Engine

end TreeMachine
