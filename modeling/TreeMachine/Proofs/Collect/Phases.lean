import TreeMachine.Proofs.Collect.Marking
import TreeMachine.Proofs.Types.Scalars

/-! # The phases of a collection

  Values are registered; a collection begins, marks, frees what was not found and sweeps.
  Main statement: a collection has an answer exactly if its marking and its end have one,
  and then it leaves what these two leave and nothing else.
-/

namespace TreeMachine

open Collect (Found)

namespace Image

variable {image image' : Image}

/-! ### Operations of the heap -/

theorem onHeap_ok {ε α : Type} {x : EStateM ε Heap α} {a : α} {h : Heap}
    (hx : x image.heap = .ok a h) : onHeap x image = .ok a { image with heap := h } := by
  obtain ⟨heap, machine, pool, collector⟩ := image
  simp only [onHeap] at hx ⊢
  rw [hx]

theorem onHeap_error {ε α : Type} {x : EStateM ε Heap α} {e : ε} {h : Heap}
    (hx : x image.heap = .error e h) : onHeap x image = .error e { image with heap := h } := by
  obtain ⟨heap, machine, pool, collector⟩ := image
  simp only [onHeap] at hx ⊢
  rw [hx]

/-- An operation of the heap leaves everything else alone. -/
theorem onHeap_frame {α : Type} {x : EStateM Fault Heap α} {Q : α → Heap → Prop}
    {E : Fault → Heap → Prop} (hx : Yields x image.heap Q E) :
    Yields (onHeap x) image (fun a image' => ∃ h, Q a h ∧ image' = { image with heap := h })
      (fun f image' => ∃ h, E f h ∧ image' = { image with heap := h }) := by
  cases hrun : x image.heap with
  | ok a h => exact Yields.of_ok (onHeap_ok hrun) ⟨h, hx.ok hrun, rfl⟩
  | error f h => exact Yields.of_error (onHeap_error hrun) ⟨h, hx.error hrun, rfl⟩

theorem onHeap_yields {α : Type} {x : EStateM Fault Heap α} {Q : α → Heap → Prop}
    {E : Fault → Heap → Prop} (hx : Yields x image.heap Q E) :
    Yields (onHeap x) image (fun a image' => Q a image'.heap)
      (fun f image' => E f image'.heap) := by
  refine (onHeap_frame hx).mono ?_ ?_
  · rintro a image' ⟨h, hq, rfl⟩
    exact hq
  · rintro f image' ⟨h, he, rfl⟩
    exact he

/-- A new image has a standard heap and no roots. -/
theorem create_standard {words : UInt64} {functions : Nat}
    (hc : Image.create words functions = .ok image) : ∃ c, image.heap.Standard c := by
  obtain ⟨h, hh, hc⟩ := of_except_bind_eq_ok hc
  cases hc
  exact Heap.create_standard hh

/-! ### Registering -/

/-- Registers values one after the other. -/
def addRoots : List Root → EStateM (Stop RootError) Image Unit
  | [] => return ()
  | r :: rest => do
    let _ ← addRoot r
    addRoots rest

/-- Registering a value does no more than that. -/
theorem of_addRoot_eq_ok {r : Root} {id : UInt64} (h : addRoot r image = .ok id image') :
    image'.heap = image.heap ∧ image'.machine = image.machine ∧ image'.pool = image.pool ∧
      image'.collector.values = image.collector.values ++ [r] := by
  have hy : Yields (addRoot r) image (fun _ image' => image'.heap = image.heap ∧
      image'.machine = image.machine ∧ image'.pool = image.pool ∧
      image'.collector.values = image.collector.values ++ [r]) (fun _ _ => True) := by
    have hadd : Yields (modifyGet (onCollector (Collector.add r)) :
        EStateM (Stop RootError) Image UInt64) image (fun _ image' =>
        image'.heap = image.heap ∧ image'.machine = image.machine ∧ image'.pool = image.pool ∧
        image'.collector.values = image.collector.values ++ [r]) (fun _ _ => True) :=
      ⟨rfl, rfl, rfl, List.map_append⟩
    refine Yields.bind ?_
    cases hsize : image.heap.size r.type with
    | error f => exact Yields.of_error (lift_eq_error (inspect_eq_error hsize)) trivial
    | ok size =>
      refine Yields.of_ok (lift_eq_ok (inspect_eq_ok hsize)) ?_
      -- A value of another length is refused, and the message may fail as well.
      by_cases hlen : UInt64.ofNat r.toWords.length ≠ size
      · rw [if_pos hlen]
        refine Yields.bind ?_
        cases htext : image.heap.typeText r.type with
        | error f => exact Yields.of_error (lift_eq_error (inspect_eq_error htext)) trivial
        | ok text => exact Yields.of_ok (lift_eq_ok (inspect_eq_ok htext)) trivial
      · rw [if_neg hlen]
        exact hadd
  exact hy.ok h

theorem of_addRoots_eq_ok {rs : List Root} (h : addRoots rs image = .ok () image') :
    image'.heap = image.heap ∧ image'.machine = image.machine ∧ image'.pool = image.pool ∧
      image'.collector.values = image.collector.values ++ rs := by
  induction rs generalizing image with
  | nil =>
    cases h
    exact ⟨rfl, rfl, rfl, (List.append_nil _).symm⟩
  | cons r rest ih =>
    obtain ⟨id, image₁, hfirst, hrest⟩ := of_bind_eq_ok h
    obtain ⟨hheap, hmachine, hpool, hvalues⟩ := of_addRoot_eq_ok hfirst
    obtain ⟨hheap', hmachine', hpool', hvalues'⟩ := ih hrest
    refine ⟨hheap'.trans hheap, hmachine'.trans hmachine, hpool'.trans hpool, ?_⟩
    rw [hvalues', hvalues, List.append_assoc]
    rfl

/-! ### Collecting -/

theorem beginCollection_eq (hc : image.heap.arena.collecting = false) :
    onArena Arena.beginCollection image = .ok () image.begun := by
  obtain ⟨⟨arena, types⟩, machine, pool, collector⟩ := image
  simp only [onArena, onHeap, Heap.onArena, Arena.beginCollection, begun, Heap.begun] at hc ⊢
  rw [hc]
  rfl

theorem beginCollection_running (hc : image.heap.arena.collecting = true) :
    onArena Arena.beginCollection image = .error (.broken .collectionRunning) image := by
  obtain ⟨⟨arena, types⟩, machine, pool, collector⟩ := image
  simp only [onArena, onHeap, Heap.onArena, Arena.beginCollection] at hc ⊢
  rw [if_pos hc]

/-- The image after a collection that has found `found` and has left the arena `a`, with
    what the collection reports. -/
def ended (image : Image) (found : Found) (a : Arena) : CollectStats × Image :=
  let ((swept, _), image') :=
    sweep found.marks { image with heap := ⟨a, image.heap.types⟩ }
  recordCollection found.living swept image'

/-- A collection has an answer exactly if its marking and its end have one. -/
theorem collect_eq_ok_iff {stats : CollectStats} : collect image = .ok stats image' ↔
    image.heap.arena.collecting = false ∧ ∃ found a, image.mark = .ok found ∧
      Arena.endCollection found.living image.heap.begun.arena = .ok () a ∧
      image.ended found a = (stats, image') := by
  -- Beginning, marking and the end may fail in turn; what comes after them cannot.
  cases hc : image.heap.arena.collecting with
  | true =>
    have hstop : collect image = .error (.broken .collectionRunning) image :=
      bind_eq_error (bind_eq_error (beginCollection_running hc))
    simp [hstop]
  | false =>
    have hmark := image.mark_begun
    cases hm : image.mark with
    | error f =>
      have hstop : collect image = .error f image.begun :=
        bind_eq_error ((bind_eq_ok (beginCollection_eq hc)).trans
          (bind_eq_error (inspect_eq_error (hmark.trans hm))))
      simp [hstop]
    | ok found =>
      have hmarks : inspect mark image.begun = .ok found image.begun :=
        inspect_eq_ok (hmark.trans hm)
      cases hend : Arena.endCollection found.living image.heap.begun.arena with
      | error f a =>
        have hended : onArena (Arena.endCollection found.living) image.begun
            = .error f { image with heap := ⟨a, image.heap.types⟩ } :=
          onHeap_error (Heap.onArena_error hend)
        have hstop : collect image = .error f { image with heap := ⟨a, image.heap.types⟩ } :=
          bind_eq_error ((bind_eq_ok (beginCollection_eq hc)).trans
            ((bind_eq_ok hmarks).trans (bind_eq_error hended)))
        simp [hstop, hend]
      | ok _ a =>
        have hended : onArena (Arena.endCollection found.living) image.begun
            = .ok () { image with heap := ⟨a, image.heap.types⟩ } :=
          onHeap_ok (Heap.onArena_ok hend)
        have hrest : collectReporting image = .ok _ _ :=
          (bind_eq_ok (beginCollection_eq hc)).trans
            ((bind_eq_ok hmarks).trans (bind_eq_ok hended))
        have hrun : collect image = .ok (image.ended found a).1 (image.ended found a).2 :=
          bind_eq_ok hrest
        simp [hrun, hend, Prod.ext_iff]

/-! ### Types in order -/

/-- Types whose handles ascend come in this order. -/
theorem all_eq_handles {h : Heap} (hord : h.handles.Pairwise (· ≤ ·)) :
    h.types.all = h.handles :=
  List.mergeSort_of_pairwise (hord.imp fun hle => decide_eq_true hle)

/-- The outcome of a collection of an image whose handles ascend, which needs no sorting. -/
def collectInOrder (image : Image) : Option (CollectStats × Image) := do
  guard (image.heap.handles.Pairwise (· ≤ ·) ∧ image.heap.arena.collecting = false)
  let targets := image.heap.handles.map .type ++
    image.collector.values.map fun r => .value r.toWords r.type
  let found ← (Collect.markTargets image.heap image.pool targets).toOption
  let (_, a) ← answer? (Arena.endCollection found.living image.heap.begun.arena)
  return image.ended found a

theorem collect_of_inOrder {stats : CollectStats}
    (h : image.collectInOrder = some (stats, image')) : collect image = .ok stats image' := by
  simp only [collectInOrder, Option.bind_eq_bind, Option.bind_eq_some_iff, toOption_eq_some,
    answer?_eq_some, Option.pure_def, Option.some.injEq] at h
  obtain ⟨_, hguard, found, hmark, ⟨_, a⟩, hend, hended⟩ := h
  obtain ⟨hord, hidle⟩ : _ ∧ _ := by simpa [guard] using hguard
  refine collect_eq_ok_iff.2 ⟨hidle, found, a, ?_, hend, hended⟩
  rw [mark, rootTargets, all_eq_handles hord]
  exact hmark

end Image

end TreeMachine
