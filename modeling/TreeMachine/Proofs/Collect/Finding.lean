import TreeMachine.Proofs.Collect.Traversal

/-! # What a collection finds

  Whatever the words of the heap are, marking that comes to its end has found nothing but
  what is reached.  Objects, records of types and nodes have been read, so their words lie in
  the arena; only the size of a vector is taken from a word that nothing else has to agree
  with.  Main statements: where items with the same words agree on what they refer to, all
  that is reached has been found; and unless a vector that is reached claims it, no region
  found reaches around the address space.
-/

namespace TreeMachine

open Collect

namespace Collect

variable {h : Heap} {pool : Pool} {i j : Item}

/-- A reference is not null. -/
def Item.NotNull : Item → Prop
  | .type t => t ≠ 0
  | .node n => n ≠ 0
  | .vector vec => vec ≠ 0
  | _ => True

theorem ValueRefers.notNull {ws : List UInt64} {t : Ty} (hv : ValueRefers h ws t i) :
    i.NotNull := by
  induction hv with
  | member _ _ _ ih => exact ih
  | pointer => trivial
  | dynamicType _ _ h0 => exact h0
  | dynamicObject => trivial
  | ast _ _ h0 => exact h0
  | type _ _ h0 => exact h0
  | function => trivial

theorem Refers.notNull (hij : Refers h pool i j) : j.NotNull := by
  cases hij with
  | object _ _ _ hv => exact hv.notNull
  | literalObject => trivial
  | elem _ _ h0 => exact h0
  | member _ _ _ h0 => exact h0
  | preceding _ _ h0 => exact h0
  | literalType _ _ h0 => exact h0
  | vector _ _ h0 => exact h0
  | element _ _ _ _ h0 => exact h0
  | field _ _ _ _ _ h0 => exact h0
  | ast _ h0 => exact h0
  | returnType _ h0 => exact h0
  | paramType _ h0 => exact h0

/-- The empty type refers to nothing. -/
theorem Refers.of_empty (j : Item) : ¬ Refers h pool (.type 0) j := by
  intro hij
  cases hij with
  | elem hk _ _ => cases (Heap.kind_zero h).symm.trans hk
  | member hk _ _ _ => cases (Heap.kind_zero h).symm.trans hk

/-! ### Regions inside the address space -/

/-- The record of a type whose members can be read lies in the arena. -/
theorem recordWords_bounded (hs : h.arena.Sized) {t : Ty} {n : UInt64}
    (hn : h.recordWords t = .ok n)
    (hread : h.kind t = .ok (some .concatenation) → ∃ ms, h.members t = .ok ms) :
    t.toNat + n.toNat < 2 ^ 64 := by
  have hlt := hs.lt
  by_cases h0 : t = 0
  · subst h0
    rw [Heap.recordWords, except_bind_ok (Heap.kind_zero h)] at hn
    cases hn
    decide
  obtain ⟨kind, hk, hn⟩ := of_except_bind_eq_ok hn
  have hstart := lt_of_kind h0 hk
  by_cases hconcat : kind = some .concatenation
  · -- The members have been read, so the length of the record is not just a word.
    subst hconcat
    obtain ⟨ms, hms⟩ := hread hk
    rw [Heap.members, except_bind_ok hk] at hms
    obtain ⟨length, hlength, hslice⟩ := of_except_bind_eq_ok hms
    obtain ⟨length', hlength', hn⟩ := of_except_bind_eq_ok hn
    cases hlength.symm.trans hlength'
    cases hn
    obtain ⟨hholds, hlen⟩ := (Arena.slice_eq_ok_iff hs).1 hslice
    have hin := hholds.inside
    have hsum : (2 + length).toNat ≤ 2 + length.toNat := by
      rw [UInt64.toNat_add]
      exact Nat.mod_le _ _
    omega
  · have hsmall : n.toNat ≤ 2 := by
      split at hn
      · cases hn
        decide
      · exact absurd rfl hconcat
      · cases hn
        decide
    omega

theorem nodeWords_bounded (hs : h.arena.Sized) {node : Node} {n : UInt64}
    (hn : h.nodeWords node = .ok n) : node.toNat + n.toNat < 2 ^ 64 := by
  have hlt := hs.lt
  obtain ⟨tag, ht, hn⟩ := of_except_bind_eq_ok hn
  have hstart := lt_of_tag ht
  have hsmall : n.toNat ≤ 8 := by
    cases hn
    cases tag <;> decide
  omega

/-- What has been read does not reach around the address space. -/
theorem Occupies.bounded (hs : h.arena.Sized) {r : Region} (ho : Occupies h i r)
    (hread : i.Readable h)
    (hvec : ∀ vec, i = .vector vec → r.addr.toNat + r.size.toNat < 2 ^ 64) :
    r.addr.toNat + r.size.toNat < 2 ^ 64 := by
  cases ho with
  | object hn _ =>
    obtain ⟨n', ws, hn', hws⟩ := hread
    cases hn.symm.trans hn'
    obtain ⟨hholds, hlen⟩ := (Arena.slice_eq_ok_iff hs).1 hws
    have hin := hholds.inside
    have hlt := hs.lt
    dsimp only
    omega
  | type hn => exact recordWords_bounded hs hn hread
  | node hn => exact nodeWords_bounded hs hn
  | vector => exact hvec _ rfl

end Collect

namespace Image

variable {image : Image} {c : Catalogue} {found : Found} {i : Item}

/-! ### What is met -/

/-- The item is reached by a reference, not as the empty type. -/
def Met (image : Image) (i : Item) : Prop := image.Reached i ∧ i.NotNull

theorem Reached.eq_of_null (hr : image.Reached i) (hnull : ¬ i.NotNull) : i = .type 0 := by
  cases hr with
  | type => exact congrArg Item.type (not_not.1 hnull)
  | root _ hv => exact absurd hv.notNull hnull
  | step _ hij => exact absurd hij.notNull hnull

/-- The index of a heap in order does not hold the empty type. -/
theorem met_iff (hi : image.heap.Interned c) : image.Met i ↔ image.Reached i := by
  refine ⟨fun hm => hm.1, fun hr => ⟨hr, ?_⟩⟩
  cases hr with
  | type ht =>
    rintro rfl
    rw [hi.handles_eq] at ht
    exact hi.zero_not_mem ht
  | root _ hv => exact hv.notNull
  | step _ hij => exact hij.notNull

theorem met_closed : Closed image.heap image.pool image.Met :=
  fun hi hij => ⟨.step hi.1 hij, hij.notNull⟩

theorem met_of_type {t : Ty} (ht : t ∈ image.heap.types.all) (h0 : t ≠ 0) :
    image.Met (.type t) := by
  rw [TypeTable.all, List.mem_mergeSort] at ht
  exact ⟨.type ht, h0⟩

/-! ### The search from the roots -/

/-- A search from the roots has come to its end. -/
structure Searched (image : Image) (found : Found) : Prop where
  search : Search image.heap image.pool image.Met ⟨.empty, image.pool.newMarks⟩ found
  done : ∀ target ∈ image.rootTargets, Done image.heap image.pool found target

/-- Nothing has been found at the start. -/
theorem good_start : Found.Good ⟨.empty, image.pool.newMarks⟩ image.heap image.pool :=
  ⟨Living.ordered_empty, fun _ hr => (nomatch hr), rfl, by simp [Pool.newMarks]⟩

/-- Marking that ends is a search, whatever the words of the heap are. -/
theorem searched_of_mark (hmark : image.mark = .ok found) : image.Searched found := by
  have hpermitted : ∀ target ∈ image.rootTargets, Permitted image.heap image.Met target := by
    intro target htarget
    rcases List.mem_append.1 htarget with htarget | htarget
    · obtain ⟨t, ht, rfl⟩ := List.mem_map.1 htarget
      exact met_of_type ht
    · obtain ⟨r, hr, rfl⟩ := List.mem_map.1 htarget
      exact fun i hv => ⟨.root hr hv, hv.notNull⟩
  -- Marking starts with nothing found and goes through the targets one after the other.
  unfold mark markTargets at hmark
  split at hmark
  · rename_i found' hrun
    cases hmark
    obtain ⟨hs, hdone⟩ := (markAll_walks (markWithin_walks met_closed _) image.rootTargets
      good_start hpermitted).ok hrun
    exact ⟨hs, hdone⟩
  · cases hmark

/-- A region found belongs to something that is reached and has been read. -/
theorem Searched.sound (hs : image.Searched found) {r : Region}
    (hr : r ∈ found.living.regions) :
    ∃ i, image.Met i ∧ Occupies image.heap i r ∧ i.Readable image.heap :=
  (hs.search.sound r hr).resolve_left fun hmem => by cases hmem

/-- What a collection has to find. -/
structure Finds (image : Image) (found : Found) : Prop where
  good : found.Good image.heap image.pool
  regions_iff : ∀ r, r ∈ found.living.regions ↔ ∃ i, image.Met i ∧ Occupies image.heap i r
  marks_iff : ∀ id, (image.pool.get? id).isSome = true →
    (found.marks.visited[id.toNat - 1]? = some true ↔ image.Met (.function id))

/-- A search from the roots that has come to its end has found what is reached, if items with
    the same words agree on what they refer to. -/
theorem Searched.finds (hs : image.Searched found)
    (hagree : Agreeing image.heap image.pool image.Met) : image.Finds found := by
  have hnone : ∀ k : Nat, image.pool.newMarks.visited[k]? ≠ some true := by
    intro k
    simp [Pool.newMarks, Array.getElem?_replicate]
  -- At the start nothing has been entered, so what has been found is closed.
  have hclosed : ∀ i, image.Met i → Entered image.heap image.pool found i →
      ∀ j, Refers image.heap image.pool i j → Seen image.heap image.pool found j := by
    intro i hi he
    refine (hs.search.closed hagree i hi he).resolve_left fun he => ?_
    cases i with
    | function id => exact hnone _ he.2
    | _ =>
      obtain ⟨r, -, hmem⟩ := he
      cases hmem
  -- Induction on the chain of references; the empty type ends a chain.
  have hall : ∀ i, image.Reached i → i.NotNull → Seen image.heap image.pool found i := by
    intro i hr
    induction hr with
    | @type t ht =>
      refine hs.done (.type t) (List.mem_append_left _ (List.mem_map_of_mem ?_))
      rw [TypeTable.all, List.mem_mergeSort]
      exact ht
    | root hr hv =>
      exact fun _ => hs.done _ (List.mem_append_right _ (List.mem_map_of_mem hr)) _ hv
    | @step i j hi hij ih =>
      intro _
      by_cases hnull : i.NotNull
      · exact hclosed _ ⟨hi, hnull⟩ (hij.entered (ih hnull)) _ hij
      · rw [hi.eq_of_null hnull] at hij
        exact absurd hij (Refers.of_empty j)
  refine ⟨hs.search.good, fun r => ⟨fun hmem => ?_, ?_⟩, fun id hf => ⟨fun hm => ?_, fun hi => ?_⟩⟩
  · obtain ⟨i, hi, ho, -⟩ := hs.sound hmem
    exact ⟨i, hi, ho⟩
  · rintro ⟨i, hi, ho⟩
    have hseen := hall i hi.1 hi.2
    cases i with
    | function id => cases ho
    | _ => exact hseen r ho
  · exact (hs.search.sound_marks id hf hm).resolve_left (hnone _)
  · exact hall _ hi.1 hi.2 hf

/-! ### Vectors -/

/-- No vector that is reached claims words around the end of the address space. -/
def VectorsFit (image : Image) : Prop :=
  ∀ vec n, image.Reached (.vector vec) → image.heap.vectorWords vec = .ok n →
    vec.toNat + n.toNat < 2 ^ 64

/-- Then no region that a collection finds reaches around the address space, whatever the
    registered values are. -/
theorem VectorsFit.bounded (hfit : image.VectorsFit) (hs : image.heap.arena.Sized)
    (hmark : image.mark = .ok found) {r : Region} (hr : r ∈ found.living.regions) :
    r.addr.toNat + r.size.toNat < 2 ^ 64 := by
  obtain ⟨i, hi, ho, hread⟩ := (searched_of_mark hmark).sound hr
  refine ho.bounded hs hread ?_
  rintro vec rfl
  cases ho with
  | vector hn => exact hfit vec _ hi.1 hn

end Image

end TreeMachine
