import TreeMachine.Proofs.Collect.Depth
import TreeMachine.Proofs.Collect.Finding
import TreeMachine.Proofs.Collect.Phases

/-! # Orderly images

  In an orderly image the words of everything that is reached lie in the arena, and no
  address is reached as two different items.  Main statement: marking an orderly image finds
  exactly what is reached, or it stops at a broken invariant.  An image without roots is
  always orderly.
-/

namespace TreeMachine

open Collect

namespace Collect.Item

/-- The type that an item names. -/
def type? : Item → Option Ty
  | .object _ t => some t
  | .type t => some t
  | _ => none

/-- The address of an item whose size is read off the words at the address. -/
def record? : Item → Option Addr
  | .node n => some n
  | .vector vec => some vec
  | _ => none

end Collect.Item

namespace Image

variable {image : Image} {c : Catalogue}

/-- What a collection relies on: registered values have the words of their types, every type
    that is reached is in the index, the words of every item that is reached lie in the
    arena, and no address is reached as two different items. -/
structure Orderly (image : Image) : Prop where
  roots : ∀ r ∈ image.collector.values, (r.type = 0 ∨ r.type ∈ image.heap.handles) ∧
    r.toWords.length = image.heap.width r.type
  types : ∀ i t, image.Reached i → i.type? = some t → t = 0 ∨ t ∈ image.heap.handles
  starts : ∀ i addr, image.Reached i → i.record? = some addr →
    addr.toNat < image.heap.arena.words.size
  inside : ∀ i r, image.Reached i → Occupies image.heap i r →
    0 < r.addr.toNat ∧ r.addr.toNat + r.size.toNat ≤ image.heap.arena.words.size
  elements : ∀ vec length, image.Reached (.vector vec) → image.heap.word vec = .ok length →
    vec.toNat + 2 + length.toNat ≤ image.heap.arena.words.size
  one_item : ∀ i j r s, image.Reached i → image.Reached j → Occupies image.heap i r →
    Occupies image.heap j s → r.addr = s.addr → i = j

/-- What is reached in an orderly image can be searched. -/
theorem Orderly.explorable (ho : image.Orderly) (hi : image.heap.Interned c) :
    Explorable image.heap c image.pool image.Met where
  interned := hi
  closed := met_closed
  type_mem {t} ht := by
    have := (ho.types _ t ht.1 rfl).resolve_left ht.2
    rwa [hi.handles_eq] at this
  object_mem {addr t} hobj := by
    have := ho.types _ t hobj.1 rfl
    rwa [hi.handles_eq] at this
  inside hr hoc := ho.inside _ _ hr.1 hoc
  node_lt hr := ⟨hr.2, ho.starts _ _ hr.1 rfl⟩
  vector_lt hr := ⟨hr.2, ho.starts _ _ hr.1 rfl⟩
  elements_le hr hl := ho.elements _ _ hr.1 hl
  unique hr hr' hoc hoc' heq := ho.one_item _ _ _ _ hr.1 hr'.1 hoc hoc' heq

/-- The depth of a collection suffices for all that there is to find. -/
theorem depthFor_le {h : Heap} {pool : Pool} (target : Target) :
    depthFor h (Found.left ⟨.empty, pool.newMarks⟩ h) target ≤ Collect.depthBound h pool := by
  have hleft : Found.left ⟨.empty, pool.newMarks⟩ h ≤ h.arena.words.size + pool.capacity := by
    have hcount := List.count_le_length (a := false) (l := pool.newMarks.visited.toList)
    simp only [Pool.newMarks, Array.length_toList, Array.size_replicate] at hcount
    exact Nat.add_le_add (Nat.sub_le _ _) hcount
  have hbound : 3 * (h.arena.words.size + pool.capacity) + 3 ≤ Collect.depthBound h pool := by
    unfold Collect.depthBound Heap.depthBound
    have := Nat.mul_le_mul_left (2 * (h.arena.words.size + 1 + pool.capacity + 2))
      (show 3 ≤ h.arena.words.size + 1 + 2 by omega)
    omega
  cases target with
  | value ws t =>
    simp only [depthFor]
    split <;> omega
  | _ =>
    simp only [depthFor]
    omega

/-- Marking an orderly image finds what is reached, or stops at a broken invariant. -/
theorem Orderly.mark_cases (ho : image.Orderly) (hi : image.heap.Interned c) :
    (∃ found, image.mark = .ok found ∧ image.Finds found) ∨
      ∃ v, image.mark = .error (.broken v) := by
  have hx := ho.explorable hi
  have hallowed : ∀ target ∈ image.rootTargets, Allowed image.heap c image.Met target := by
    intro target htarget
    rcases List.mem_append.1 htarget with htarget | htarget
    · obtain ⟨t, ht, rfl⟩ := List.mem_map.1 htarget
      exact met_of_type ht
    · obtain ⟨r, hr, rfl⟩ := List.mem_map.1 htarget
      obtain ⟨htype, hlen⟩ := ho.roots r hr
      rw [hi.handles_eq] at htype
      exact ⟨htype, hlen, fun i hv => ⟨.root hr hv, hv.notNull⟩⟩
  cases hmark : image.mark with
  | ok found => exact Or.inl ⟨found, rfl, (searched_of_mark hmark).finds hx.agreeing⟩
  | error f =>
    have hends := markAll_ends (markWithin_marks hx (Collect.depthBound image.heap image.pool))
      image.rootTargets good_start hallowed fun target _ => depthFor_le target
    unfold mark markTargets at hmark
    split at hmark
    · cases hmark
    · rename_i hrun
      cases hmark
      obtain ⟨v, rfl⟩ := hends.error hrun
      exact Or.inr ⟨v, rfl⟩

/-- The vectors of an orderly image lie in the arena. -/
theorem Orderly.vectorsFit (ho : image.Orderly) (hs : image.heap.arena.Sized) :
    image.VectorsFit := by
  intro vec n hr hn
  have hin := (ho.inside _ _ hr (.vector hn)).2
  have hlt := hs.lt
  dsimp only at hin
  omega

/-! ### Images without roots -/

/-- Without roots only types are reached. -/
theorem Reached.of_no_roots (hi : image.heap.Interned c) (hroots : image.collector.roots = [])
    {i : Item} (hr : image.Reached i) : ∃ t r, (t, r) ∈ c ∧ i = .type t := by
  induction hr with
  | type ht =>
    rw [hi.handles_eq] at ht
    obtain ⟨r, hmem⟩ := Catalogue.exists_record ht
    exact ⟨_, r, hmem, rfl⟩
  | root hr _ =>
    rw [Collector.values, hroots] at hr
    cases hr
  | step _ hij ih =>
    obtain ⟨t, r, hmem, rfl⟩ := ih
    have hpart : ∀ p ∈ r.parts, ∃ t r, (t, r) ∈ c ∧ Item.type p = .type t := by
      intro p hp
      obtain ⟨rp, hrp⟩ := Catalogue.exists_record ((hi.valid.admits hmem).parts p hp)
      exact ⟨p, rp, hrp, rfl⟩
    cases hij with
    | elem hk he _ =>
      rw [hi.kind_eq hmem] at hk
      cases r with
      | scalar k =>
        cases hk
        exact absurd (hi.valid.admits hmem) (by simp [Catalogue.Admits, Kind.isScalar])
      | pointer elem =>
        cases (hi.elem_eq hmem).symm.trans he
        exact hpart _ (List.mem_singleton_self _)
      | concat ms => cases hk
    | member hk hms hm _ =>
      rw [hi.kind_eq hmem] at hk
      cases r with
      | concat ms =>
        cases (hi.members_eq hmem).symm.trans hms
        exact hpart _ hm
      | scalar k => exact absurd hk (hi.kind_ne_concat hmem fun ms h => by cases h)
      | pointer elem => cases hk

/-- An image without roots is orderly. -/
theorem orderly_of_no_roots (hi : image.heap.Interned c)
    (hroots : image.collector.roots = []) : image.Orderly := by
  have htypes : ∀ i, image.Reached i → ∃ t r, (t, r) ∈ c ∧ i = .type t := fun i hr =>
    hr.of_no_roots hi hroots
  refine ⟨?_, ?_, ?_, ?_, ?_, ?_⟩
  · intro r hr
    rw [Collector.values, hroots] at hr
    cases hr
  · intro i t hr ht
    obtain ⟨t', r, hmem, rfl⟩ := htypes i hr
    cases ht
    rw [hi.handles_eq]
    exact Or.inr (Catalogue.mem_handles hmem)
  · intro i addr hr ha
    obtain ⟨t, r, -, rfl⟩ := htypes i hr
    cases ha
  · intro i s hr ho
    obtain ⟨t, r, hmem, rfl⟩ := htypes i hr
    have howns := hi.owns _ hmem
    have hlen := hi.length_words hmem
    cases ho with
    | type hn =>
      cases (hi.recordWords_eq hmem).symm.trans hn
      refine ⟨howns.pos, ?_⟩
      have := howns.inside
      dsimp only at this ⊢
      omega
  · intro vec length hr _
    obtain ⟨t, r, -, heq⟩ := htypes _ hr
    cases heq
  · intro i j r s hi' hj ho ho' heq
    obtain ⟨t, rt, -, rfl⟩ := htypes i hi'
    obtain ⟨t', rt', -, rfl⟩ := htypes j hj
    cases ho
    cases ho'
    exact congrArg Item.type heq

/-- Without roots no vector is reached. -/
theorem vectorsFit_of_no_roots (hi : image.heap.Interned c)
    (hroots : image.collector.roots = []) : image.VectorsFit :=
  (orderly_of_no_roots hi hroots).vectorsFit hi.sized

end Image

end TreeMachine
