import TreeMachine.Node.Store
import TreeMachine.Proofs.Collect.Listing
import TreeMachine.Proofs.Collect.Sweep

/-! # The order of roots

  A collection marks the registered values in the order of their numbers, and what is found
  again is not entered again.  Main statement: if what the words at an address refer to does
  not depend on how they are reached, then two collections that end find the same whatever
  the order of registration.  In orderly images this is so.  An object that is registered
  under two types shows that the condition is needed: in one order a collection frees a node
  that is reached.
-/

namespace TreeMachine

open Collect

/-- Living maps with the same regions are the same. -/
theorem Living.regions_eq {l l' : Living} (hl : l.Ordered) (hl' : l'.Ordered)
    (hmem : ∀ r, r ∈ l.regions ↔ r ∈ l'.regions) : l.regions = l'.regions := by
  have hnodup : ∀ {l : Living}, l.Ordered → l.regions.Nodup := by
    intro l h
    refine List.Pairwise.imp ?_ h
    rintro a b hlt rfl
    exact UInt64.lt_irrefl _ hlt
  have hperm := (List.perm_ext_iff_of_nodup (hnodup hl) (hnodup hl')).2 hmem
  exact hperm.eq_of_pairwise (fun _ _ _ _ h h' => absurd h' (UInt64.lt_asymm h)) hl hl'

namespace Image

variable {image image₁ image₂ image' : Image}

/-- What the words at an address refer to does not depend on the type or the kind that they
    are reached as. -/
def Unambiguous (image : Image) : Prop :=
  ∀ i j r, image.Reached i → image.Reached j → Occupies image.heap i r →
    Occupies image.heap j r → ∀ k, Refers image.heap image.pool i k →
      Refers image.heap image.pool j k

/-- In an orderly image no address is reached in two ways. -/
theorem Orderly.unambiguous (ho : image.Orderly) : image.Unambiguous := by
  intro i j r hi hj hoc hoc' k hik
  rwa [← ho.one_item i j r r hi hj hoc hoc' rfl]

/-! ### Registering -/

/-- The same heap with the same functions and values, in whatever order. -/
structure SameRoots (image image' : Image) : Prop where
  heap_eq : image'.heap = image.heap
  pool_eq : image'.pool = image.pool
  values_perm : image.collector.values.Perm image'.collector.values

theorem SameRoots.symm (h : image.SameRoots image') : image'.SameRoots image :=
  ⟨h.heap_eq.symm, h.pool_eq.symm, h.values_perm.symm⟩

theorem sameRoots_of_perm {rs rs' : List Root} (hperm : rs.Perm rs')
    (h₁ : addRoots rs image = .ok () image₁) (h₂ : addRoots rs' image = .ok () image₂) :
    image₁.SameRoots image₂ := by
  obtain ⟨hheap₁, -, hpool₁, hvalues₁⟩ := of_addRoots_eq_ok h₁
  obtain ⟨hheap₂, -, hpool₂, hvalues₂⟩ := of_addRoots_eq_ok h₂
  refine ⟨hheap₂.trans hheap₁.symm, hpool₂.trans hpool₁.symm, ?_⟩
  rw [hvalues₁, hvalues₂]
  exact hperm.append_left _

/-- What is reached does not depend on the order of the roots. -/
theorem SameRoots.reached (h : image.SameRoots image') {i : Item} (hr : image.Reached i) :
    image'.Reached i := by
  induction hr with
  | type ht => exact .type (by rw [h.heap_eq]; exact ht)
  | root hr hv => exact .root (h.values_perm.mem_iff.1 hr) (by rw [h.heap_eq]; exact hv)
  | step _ hij ih => exact .step ih (by rw [h.heap_eq, h.pool_eq]; exact hij)

theorem SameRoots.unambiguous (h : image.SameRoots image') (ha : image.Unambiguous) :
    image'.Unambiguous := by
  intro i j r hi hj
  rw [h.heap_eq, h.pool_eq]
  exact ha i j r (h.symm.reached hi) (h.symm.reached hj)

/-! ### Marking -/

theorem Unambiguous.finds (ha : image.Unambiguous) {found : Found}
    (hmark : image.mark = .ok found) : image.Finds found :=
  (searched_of_mark hmark).finds fun i j r hi hj => ha i j r hi.1 hj.1

/-- Both orders find the same. -/
theorem Finds.same {found found' : Found} (h : image.SameRoots image')
    (hf : image.Finds found) (hf' : image'.Finds found') :
    found'.living = found.living ∧ ∀ id, (image.pool.get? id).isSome = true →
      (found'.marks.visited[id.toNat - 1]? = some true ↔
        found.marks.visited[id.toNat - 1]? = some true) := by
  have hmet : ∀ i, image'.Met i ↔ image.Met i := fun i =>
    and_congr_left fun _ => ⟨h.symm.reached, h.reached⟩
  have hregions : found'.living.regions = found.living.regions := by
    refine Living.regions_eq hf'.good.ordered hf.good.ordered fun r => ?_
    rw [hf'.regions_iff, hf.regions_iff, h.heap_eq]
    exact exists_congr fun i => and_congr_left fun _ => hmet i
  constructor
  · have hwords := hf'.good.counted
    rw [hregions, ← hf.good.counted] at hwords
    cases hl : found.living
    cases hl' : found'.living
    rw [hl, hl'] at hregions hwords
    cases hregions
    cases hwords
    rfl
  · intro id hid
    rw [hf'.marks_iff id (by rw [h.pool_eq]; exact hid), hf.marks_iff id hid, hmet]

/-! ### Collecting -/

/-- Collections do not depend on the order of the roots: if values are registered in two
    orders, and what the words at an address refer to does not depend on how they are
    reached, then two collections that end leave the same living map, the same free list and
    the same functions. -/
theorem collect_perm {rs rs' : List Root} {image₁' image₂' : Image}
    {stats₁ stats₂ : CollectStats} (hperm : rs.Perm rs')
    (h₁ : addRoots rs image = .ok () image₁) (h₂ : addRoots rs' image = .ok () image₂)
    (ha : image₁.Unambiguous) (hrun₁ : collect image₁ = .ok stats₁ image₁')
    (hrun₂ : collect image₂ = .ok stats₂ image₂') :
    ∃ living, image₁'.collector.living = some living ∧ image₂'.collector.living = some living ∧
      image₁'.heap.arena.free = image₂'.heap.arena.free ∧
      ∀ id, image₁'.pool.get? id = image₂'.pool.get? id := by
  have hsame := sameRoots_of_perm hperm h₁ h₂
  obtain ⟨-, found₁, a₁, hmark₁, hend₁, hended₁⟩ := collect_eq_ok_iff.1 hrun₁
  obtain ⟨-, found₂, a₂, hmark₂, hend₂, hended₂⟩ := collect_eq_ok_iff.1 hrun₂
  obtain ⟨hliving, hmarks⟩ := (ha.finds hmark₁).same hsame
    ((hsame.unambiguous ha).finds hmark₂)
  rw [hliving, hsame.heap_eq, hend₁] at hend₂
  cases hend₂
  cases hended₁
  cases hended₂
  refine ⟨found₁.living, rfl, congrArg some hliving, rfl, fun id => Option.ext fun f => ?_⟩
  refine Pool.get?_sweep.trans (Iff.trans ?_ Pool.get?_sweep.symm)
  rw [hsame.pool_eq]
  exact and_congr_right fun hf => (hmarks id (by rw [hf]; rfl)).symm

/-! ### Shared words -/

/-- A node, and an object whose word is the address of the node. -/
def shareNode : EStateM (Stop NodeError) Image (Node × Addr) := do
  let n ← onHeap (Heap.newNode .zero 0 [])
  let object ← onHeap (liftM (Heap.allocate 1))
  onHeap (liftM (Heap.setWord object n))
  return (n, object)

/-- A node that is registered in two ways is found in both orders: by itself, and as the word
    of a boxed value. -/
theorem collect_perm_twice :
    ∃ image₀ n object image, Image.create 16 1 = .ok image₀ ∧
      shareNode image₀ = .ok (n, object) image ∧
      let r := Root.ofWords image.heap.types.scalars.ast [n]
      let r' := Root.ofWords image.heap.types.scalars.dynamic
        [image.heap.types.scalars.ast, object]
      ∃ image₁ image₂ stats₁ stats₂ image₁' image₂' living, [r, r'].Perm [r', r] ∧
        addRoots [r, r'] image = .ok () image₁ ∧ addRoots [r', r] image = .ok () image₂ ∧
        image₁.Unambiguous ∧ collect image₁ = .ok stats₁ image₁' ∧
        collect image₂ = .ok stats₂ image₂' ∧ living.contains n = true ∧
        image₁'.collector.living = some living ∧ image₂'.collector.living = some living ∧
        image₁'.heap.arena.free = image₂'.heap.arena.free ∧
        ∀ id, image₁'.pool.get? id = image₂'.pool.get? id := by
  let items : List Item :=
    [.type 1, .type 2, .type 3, .type 4, .type 5, .type 6, .node 7, .object 9 4]
  have hruns : ((Image.create 16 1).toOption.any fun image₀ =>
      (answer? (shareNode image₀)).any fun ((n, object), image) =>
        let r := Root.ofWords image.heap.types.scalars.ast [n]
        let r' := Root.ofWords image.heap.types.scalars.dynamic
          [image.heap.types.scalars.ast, object]
        (answer? (addRoots [r, r'] image)).any fun (_, image₁) =>
        (answer? (addRoots [r', r] image)).any fun (_, image₂) =>
        image₁.collectInOrder.any fun (_, image₁') =>
          image₂.collectInOrder.isSome && image₁.lists items 1 && image₁.orderlyOn items &&
            image₁'.collector.living.any (·.contains n)) = true := by
    decide +kernel
  simp only [Option.any_eq_true, Bool.and_eq_true, toOption_eq_some, answer?_eq_some,
    Prod.exists, Option.isSome_iff_exists] at hruns
  obtain ⟨image₀, hcreate, n, object, image, hshare, _, image₁, h₁, _, image₂, h₂, stats₁, image₁',
    hrun₁, ⟨⟨⟨stats₂, image₂', hrun₂⟩, hlists⟩, horderly⟩, living, hliving₁, hcontains⟩ := hruns
  have hrun₁ := collect_of_inOrder hrun₁
  have hrun₂ := collect_of_inOrder hrun₂
  have ha := (orderly_of_lists hlists horderly).unambiguous
  obtain ⟨living', hliving, hsame⟩ := collect_perm (List.Perm.swap _ _ _) h₁ h₂ ha hrun₁ hrun₂
  cases hliving₁.symm.trans hliving
  exact ⟨image₀, n, object, image, hcreate, hshare, image₁, image₂, stats₁, stats₂, image₁',
    image₂', living, List.Perm.swap _ _ _, h₁, h₂, ha, hrun₁, hrun₂, hcontains, hliving, hsame⟩

/-- The order matters for an object that is registered under two types: as an integer its
    word leads nowhere, as an address it leads to a node.  The same two values are registered
    in both orders, and both collections end.  The node is reached in both images, and one of
    the collections frees it. -/
theorem collect_perm_shared :
    ∃ image₀ n object image, Image.create 16 1 = .ok image₀ ∧
      shareNode image₀ = .ok (n, object) image ∧
      let r := Root.ofWords image.heap.types.scalars.dynamic
        [image.heap.types.scalars.integer, object]
      let r' := Root.ofWords image.heap.types.scalars.dynamic
        [image.heap.types.scalars.ast, object]
      ∃ image₁ image₂ stats₁ stats₂ image₁' image₂', [r, r'].Perm [r', r] ∧
        addRoots [r, r'] image = .ok () image₁ ∧ addRoots [r', r] image = .ok () image₂ ∧
        image₁.Reached (.node n) ∧ image₂.Reached (.node n) ∧
        collect image₁ = .ok stats₁ image₁' ∧ collect image₂ = .ok stats₂ image₂' ∧
        image₁'.heap.arena.Free n.toNat ∧ ¬ image₂'.heap.arena.Free n.toNat ∧
        image₁'.collector.living ≠ image₂'.collector.living := by
  have hruns : ((Image.create 16 1).toOption.any fun image₀ =>
      (answer? (shareNode image₀)).any fun ((n, object), image) =>
        let r := Root.ofWords image.heap.types.scalars.dynamic
          [image.heap.types.scalars.integer, object]
        let r' := Root.ofWords image.heap.types.scalars.dynamic
          [image.heap.types.scalars.ast, object]
        (answer? (addRoots [r, r'] image)).any fun (_, image₁) =>
        (answer? (addRoots [r', r] image)).any fun (_, image₂) =>
        image₁.collectInOrder.any fun (_, image₁') =>
        image₂.collectInOrder.any fun (_, image₂') =>
          decide (image.heap.kind image.heap.types.scalars.dynamic = .ok (some .dynamic)) &&
          decide (image.heap.kind image.heap.types.scalars.ast = .ok (some .ast)) &&
          decide (image.heap.size image.heap.types.scalars.ast = .ok 1) &&
          decide (image.heap.slice object 1 = .ok [n]) &&
          decide (image.heap.types.scalars.ast ≠ 0) && decide (n = 7) && decide (object = 9) &&
          decide (image₁'.heap.arena.free = [⟨7, 2⟩, ⟨10, 7⟩]) &&
          decide (image₂'.heap.arena.free = [⟨10, 7⟩]) &&
          decide (image₁'.collector.living ≠ image₂'.collector.living)) = true := by
    decide +kernel
  simp only [Option.any_eq_true, Bool.and_eq_true, toOption_eq_some, answer?_eq_some,
    Prod.exists, decide_eq_true_eq] at hruns
  obtain ⟨image₀, hcreate, n, object, image, hshare, _, image₁, h₁, _, image₂, h₂, stats₁, image₁',
    hrun₁, stats₂, image₂', hrun₂, hruns⟩ := hruns
  obtain ⟨⟨⟨⟨⟨⟨⟨⟨⟨hdynamic, hast⟩, hsize⟩, hword⟩, h0⟩, rfl⟩, rfl⟩, hfree₁⟩, hfree₂⟩, hne⟩ := hruns
  -- As an address the word of the object leads to the node, whatever else is registered.
  have hreached : ∀ {rs : List Root} {image' : Image}, addRoots rs image = .ok () image' →
      Root.ofWords image.heap.types.scalars.dynamic [image.heap.types.scalars.ast, 9] ∈ rs →
      image'.Reached (.node 7) := by
    intro rs image' hrun hmem
    obtain ⟨hheap, -, -, hvalues⟩ := of_addRoots_eq_ok hrun
    rw [← hheap] at hdynamic hast hsize hword h0 hmem
    have hobject : image'.Reached (.object 9 image'.heap.types.scalars.ast) := by
      refine .root (hvalues ▸ List.mem_append_right _ hmem) ?_
      exact .dynamicObject hdynamic rfl h0 rfl (by decide)
    exact hobject.step (.object hsize (by decide) hword (.ast hast rfl (by decide)))
  refine ⟨image₀, 7, 9, image, hcreate, hshare, image₁, image₂, stats₁, stats₂, image₁', image₂',
    List.Perm.swap _ _ _, h₁, h₂, hreached h₁ (by simp), hreached h₂ (by simp),
    collect_of_inOrder hrun₁, collect_of_inOrder hrun₂, ?_, ?_, hne⟩
  · rw [Arena.Free, hfree₁]
    simp [Region.Has]
  · rw [Arena.Free, hfree₂]
    simp [Region.Has]

end Image

end TreeMachine
