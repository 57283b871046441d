import TreeMachine.Collect.Collect
import TreeMachine.Proofs.Collect.Regions

/-! # Recording what is found

  Marking does not look at the flag of a running collection, so it finds the same before and
  after the collection has begun.  Recording a region finds it, adds it, or stops because it
  was recorded with another size.
-/

namespace TreeMachine

/-! ### The flag of a running collection -/

namespace Heap

/-- The heap with its collection begun. -/
def begun (h : Heap) : Heap := ⟨{ h.arena with collecting := true }, h.types⟩

variable (h : Heap)

theorem sizeWithin_begun (depth : Nat) : h.begun.sizeWithin depth = h.sizeWithin depth := by
  induction depth with
  | zero => rfl
  | succ depth ih =>
    funext t
    rw [sizeWithin, sizeWithin, ih]
    rfl

theorem size_begun (t : Ty) : h.begun.size t = h.size t :=
  congrFun (sizeWithin_begun h h.depthBound) t

theorem typeTextWithin_begun (depth : Nat) :
    h.begun.typeTextWithin depth = h.typeTextWithin depth := by
  induction depth with
  | zero => rfl
  | succ depth ih =>
    funext t
    rw [typeTextWithin, typeTextWithin, ih]
    rfl

theorem elem_begun (t : Ty) : h.begun.elem t = h.elem t := by
  have htext : h.begun.typeText t = h.typeText t :=
    congrFun (typeTextWithin_begun h h.depthBound) t
  rw [elem, elem, htext]
  rfl

end Heap

namespace Collect

section Begun

variable (h : Heap) (mark : Target → MarkM Unit)

theorem markMembers_begun (ts : List Ty) (ws : List UInt64) :
    markMembers h.begun mark ts ws = markMembers h mark ts ws := by
  induction ts generalizing ws with
  | nil => rfl
  | cons t rest ih =>
    rw [markMembers, markMembers, h.size_begun]
    simp only [ih]

theorem markFields_begun (n : Node) (i count : Nat) :
    markFields h.begun mark n i count = markFields h mark n i count := by
  induction count generalizing i with
  | zero => rfl
  | succ count ih =>
    rw [markFields, markFields]
    simp only [ih]
    rfl

/-- Marking does not look at the flag. -/
theorem markWithin_begun (pool : Pool) (depth : Nat) :
    markWithin h.begun pool depth = markWithin h pool depth := by
  induction depth with
  | zero => rfl
  | succ depth ih =>
    funext target
    cases target with
    | value ws t =>
      rw [markWithin, markWithin, ih]
      simp only [markValue, markMembers_begun, h.elem_begun]
      rfl
    | object addr t =>
      rw [markWithin, markWithin, ih]
      simp only [markObject, h.size_begun]
      rfl
    | type t =>
      rw [markWithin, markWithin, ih]
      simp only [markType, h.elem_begun]
      rfl
    | node n =>
      rw [markWithin, markWithin, ih]
      simp only [markNode, markFields_begun]
      rfl
    | function id => rw [markWithin, markWithin, ih]

end Begun

end Collect

/-- The image with its collection begun. -/
def Image.begun (image : Image) : Image := { image with heap := image.heap.begun }

theorem Image.mark_begun (image : Image) : image.begun.mark = image.mark := by
  show Collect.markTargets image.heap.begun _ _ = Collect.markTargets image.heap _ _
  rw [Collect.markTargets, Collect.markTargets, Collect.markWithin_begun]
  rfl

namespace Collect

/-- What recording a region can do to what has been found. -/
theorem foundBefore_yields (addr : Addr) (size : UInt64) (F : Found) :
    Yields (foundBefore addr size) F
      (fun known F' => ⟨addr, size⟩ ∈ F'.living.regions ∧
        ((known = true ∧ F' = F) ∨ (known = false ∧ (∀ x ∈ F.living.regions, x.addr ≠ addr) ∧
          F' = ⟨⟨Living.insertRegion ⟨addr, size⟩ F.living.regions, F.living.words + size⟩,
            F.marks⟩)))
      (fun f _ => ∃ v, f = .broken v) := by
  obtain ⟨living, marks⟩ := F
  rcases Living.found_cases addr size living with
    ⟨hrun, hmem⟩ | ⟨hrun, hnew⟩ | ⟨before, hrun, -⟩
  · have hknown : foundBefore addr size ⟨living, marks⟩ = .ok true ⟨living, marks⟩ := by
      simp only [foundBefore, hrun]
    exact Yields.of_ok hknown ⟨hmem, Or.inl ⟨rfl, rfl⟩⟩
  · have hadded : foundBefore addr size ⟨living, marks⟩ = .ok false
        ⟨⟨Living.insertRegion ⟨addr, size⟩ living.regions, living.words + size⟩, marks⟩ := by
      simp only [foundBefore, hrun]
    refine Yields.of_ok hadded ⟨?_, Or.inr ⟨rfl, hnew, rfl⟩⟩
    exact (Living.insertRegion_perm _ _).mem_iff.2 List.mem_cons_self
  · have hrefused : foundBefore addr size ⟨living, marks⟩
        = .error (.broken (.livingSize addr before size)) ⟨living, marks⟩ := by
      simp only [foundBefore, hrun]
    exact Yields.of_error hrefused ⟨_, rfl⟩

end Collect

end TreeMachine
