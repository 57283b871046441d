import TreeMachine.Proofs.Compile.Descent
import TreeMachine.Proofs.Modules.Running

/-! # What compiling leaves behind

  The code of a root is built aside and loaded once it is whole, so all that is left of a
  failure are types that were made on the way.  Main statement: if a root is rejected, then
  memory, functions and modules are as before but for the records of new types; if it is not,
  there are one function and one module more.
-/

namespace TreeMachine

variable {c : Catalogue} {root : Node}

namespace Compile

variable {N : Node → Tag → Prop} {A : List Node} {g : Generator} {h : Heap} {info : Info}

/-- The result of a root is returned. -/
theorem rootEnd_halts (hg : Typed N A g c) (hinfo : c.Knows info.type) :
    Halts (rootEnd info) g c fun _ _ _ => True := by
  -- What follows once the value is there.
  have hrest {g₁ : Generator} (h₁ : Typed N A g₁ c) (v : Code.Value) : Halts (do
      build (Code.Module.ret v)
      let _ ← look (·.typeText info.type)
      return info.type) g₁ c fun _ _ _ => True := by
    refine .build h₁ fun _ g₂ h₂ => ?_
    obtain ⟨text, htext⟩ := h₂.interned.typeText_ok hinfo
    exact .read (look_eq_ok htext) (.pure h₂.interned trivial)
  unfold rootEnd
  refine .read (sizeOf_known hg.interned hinfo) ?_
  dsimp only
  split
  · exact .value hg hinfo fun v g₁ h₁ => hrest h₁ v
  · exact hrest hg .void

/-- A root of well-formed nodes is generated or rejected. -/
theorem generateRoot_halts (hs : h.Standard c) (hroot : OrNull (h.WellFormedAs c) root)
    (name : String) :
    Halts (generateRoot root) (.start h name) c fun _ _ _ => True := by
  have hclosed := Heap.closed_wellFormedAs h c
  have hstart := Typed.start hs hclosed name
  by_cases hnull : root = 0
  · unfold generateRoot
    rw [if_pos hnull]
    exact .rejected_bind hs.toInterned rfl
  refine .congr (generateRoot_eq hnull) ?_
  obtain ⟨S, hS⟩ := exists_nodes hclosed
  have hdepth : (S \ List.toFinset []).card ≤ h.depthBound :=
    (Finset.card_le_card Finset.sdiff_subset).trans
      (card_le_depthBound hclosed fun n hn => (hS n).1 hn)
  refine (generate_halts (fun n t ht => (hS n).2 ⟨t, ht⟩) hdepth _ c root .ownSlot nowhere hroot
    hstart).bind ?_
  rintro info g₁ c₁ - ⟨h₁, hinfo⟩
  exact rootEnd_halts h₁ hinfo

/-- All that a module leaves in the heap are types. -/
theorem compileModule_adds (hs : h.Standard c) (hroot : OrNull (h.WellFormedAs c) root) :
    Yields (compileModule root) h (fun _ h' => ∃ c', Heap.Adds h c h' c')
      fun _ h' => ∃ c', Heap.Adds h c h' c' := by
  have hhalts := generateRoot_halts hs hroot s!"fn_{root}"
  unfold Yields compileModule
  cases hrun : generateRoot root (.start h s!"fn_{root}") with
  | ok t g =>
    obtain ⟨c', hgoes, -⟩ := hhalts.ok hrun
    exact ⟨c', hgoes.adds⟩
  | error e g =>
    obtain ⟨-, c', hgoes⟩ := hhalts.error hrun
    exact ⟨c', hgoes.adds⟩

end Compile

namespace Image

variable {image image' : Image}

/-- Building loads one module if it succeeds, and else it makes types at most. -/
theorem build_grown (hs : image.heap.Standard c)
    (hroot : OrNull (image.heap.WellFormedAs c) root) :
    Yields (build root) image
      (fun r image' => ∃ new h' program, Heap.Grown image.heap new h' ∧ r.1.ast = root ∧
        r.1.entry = image.machine.last + 1 ∧ r.1.handle = some (.issued r.1.entry) ∧
        image' = { image with heap := h', machine := (image.machine.install program).2 })
      (fun _ image' => ∃ new h', Heap.Grown image.heap new h' ∧
        image' = { image with heap := h' }) := by
  have hadds := Compile.compileModule_adds hs hroot
  unfold build
  apply Yields.bind
  cases hrun : Compile.compileModule root image.heap with
  | error e h' =>
    obtain ⟨c', ha⟩ := hadds.error hrun
    obtain ⟨new, -, hgrown⟩ := ha.grown hs
    exact Yields.of_error (onHeap_error hrun) ⟨new, h', hgrown, rfl⟩
  | ok r h' =>
    obtain ⟨code, returnType⟩ := r
    obtain ⟨c', ha⟩ := hadds.ok hrun
    obtain ⟨new, -, hgrown⟩ := ha.grown hs
    refine Yields.of_ok (onHeap_ok hrun) ?_
    dsimp only
    cases code.finalize with
    | error e => exact ⟨new, h', hgrown, rfl⟩
    | ok r => exact ⟨new, h', r.1, hgrown, rfl, rfl, rfl, rfl⟩

/-- A compilation that fails leaves no trace.  The functions, the modules, the last entry and
    the roots are as before, and so is the memory but for the records of new types: these take
    words that were free, every other word is as it was, and all types that were there keep
    their handles.  If it succeeds, the same can be said of the memory, and there is one new
    function, in a slot that was free, and one new module, with the next entry. -/
theorem compile_traceless (hs : image.heap.Standard c)
    (hroot : OrNull (image.heap.WellFormedAs c) root) :
    (∀ e image', compile root image = .error (.error e) image' →
      ∃ new h', Heap.Grown image.heap new h' ∧ image' = { image with heap := h' }) ∧
    ∀ id image', compile root image = .ok id image' →
      ∃ new f program k, Heap.Grown image.heap new image'.heap ∧ f.ast = root ∧
        f.entry = image.machine.last + 1 ∧ f.handle = some (.issued f.entry) ∧
        id = UInt64.ofNat (k + 1) ∧ image.pool.slots[k]? = some none ∧
        image'.pool.slots = image.pool.slots.setIfInBounds k (some f) ∧
        image'.machine = ⟨(f.entry, program) :: image.machine.programs, f.entry⟩ ∧
        image'.collector = image.collector := by
  have hbuild := build_grown hs hroot
  cases hrun : build root image with
  | error e image₁ =>
    obtain ⟨new, h', hgrown, rfl⟩ := hbuild.error hrun
    have hfail : compile root image = .error e { image with heap := h' } := bind_eq_error hrun
    rw [hfail]
    refine ⟨fun e' image' heq => ?_, fun id image' heq => by cases heq⟩
    cases heq
    exact ⟨new, h', hgrown, rfl⟩
  | ok r image₁ =>
    obtain ⟨new, h', program, hgrown, hast, hentry, hhandle, rfl⟩ := hbuild.ok hrun
    have hrest : compile root image = onPool (liftM (Pool.allocate r.1))
        { image with heap := h', machine := (image.machine.install program).2 } := bind_eq_ok hrun
    rw [hrest]
    cases hfind : image.pool.lowestFree with
    | none =>
      simp only [onPool, lift_eq_error (Pool.allocate_eq_error hfind r.1)]
      exact ⟨fun e' image' heq => (by cases heq), fun id image' heq => by cases heq⟩
    | some k =>
      simp only [onPool, lift_eq_ok (Pool.allocate_eq_ok hfind r.1)]
      refine ⟨fun e' image' heq => (by cases heq), fun id image' heq => ?_⟩
      cases heq
      refine ⟨new, r.1, program, k, hgrown, hast, hentry, hhandle, rfl,
        (Pool.lowestFree_eq_some hfind).1, rfl, ?_, rfl⟩
      rw [hentry]
      rfl

/-- A pointer to a number, and then the successor of a box. -/
def successorOfBox : List UInt8 :=
  Text.toBytes "\x7b_x 1 [pointer x] [increment [dynamify 1]]\x7d"

/-- The successor of a box is rejected.  By then there is a type of pointers to integers, and
    nothing else has changed. -/
theorem compile_traceless_box : ∃ image root h image' new,
    Image.create 64 1 = .ok image ∧ Source.read successorOfBox image.heap = .ok root h ∧
      compile root { image with heap := h }
        = .error (.error (.rejected .typeMismatch 24 (some 0))) image' ∧
      Heap.Grown h new image'.heap ∧ new.length = 1 ∧ image'.machine = image.machine ∧
      image'.pool = image.pool ∧ image'.collector = image.collector := by
  have heval : ((Image.create 64 1).toOption.any fun image => !image.heap.arena.collecting &&
      (answer? (Source.read successorOfBox image.heap)).any fun p =>
        (error? (compile p.1 { image with heap := p.2 })).any fun q =>
          decide (q.1 = .rejected .typeMismatch 24 (some 0)) &&
            decide (q.2.heap.types.entries.length = p.2.types.entries.length + 1)) = true := by
    decide +kernel
  simp only [Option.any_eq_true, Bool.and_eq_true, Bool.not_eq_true', answer?_eq_some,
    error?_eq_some, toOption_eq_some, decide_eq_true_eq] at heval
  obtain ⟨image, himage, hidle, ⟨root, h⟩, hread, ⟨e, image'⟩, hrun, rfl, hlength⟩ := heval
  obtain ⟨c, hs⟩ := Image.create_standard himage
  obtain ⟨F, hmade, -⟩ := Source.read_made hs hidle hread
  have hroot := Source.read_wellFormed hs hidle hread
  obtain ⟨new, h', hgrown, rfl⟩ :=
    (@compile_traceless c root { image with heap := h } (hmade.1.standard hs) hroot).1 _ _ hrun
  refine ⟨image, root, h, _, new, himage, hread, hrun, hgrown, ?_, rfl, rfl, rfl⟩
  have hentries := congrArg List.length hgrown.entries_eq
  rw [List.length_append, List.length_map] at hentries
  dsimp only at hlength hentries
  omega

end Image

end TreeMachine
