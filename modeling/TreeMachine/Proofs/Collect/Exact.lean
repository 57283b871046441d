import TreeMachine.Proofs.Collect.Listing
import TreeMachine.Proofs.Collect.Sweep
import TreeMachine.Proofs.Source.Roundtrip

/-! # Collections are exact

  In an orderly image a collection ends, also if nodes refer to each other in a circle.  It
  keeps exactly the regions and the functions that are reached, frees all other words and
  changes none.
-/

namespace TreeMachine

open Collect

namespace Image

variable {image image' : Image} {c : Catalogue}

/-! ### The whole collection -/

/-- What an exact collection has made of an image. -/
structure Collected (image : Image) (living : Living) (image' : Image) : Prop where
  /-- The living map holds exactly the regions that are reached, each address once. -/
  living_eq : image'.collector.living = some living
  ordered : living.Ordered
  regions_iff : ∀ r, r ∈ living.regions ↔ ∃ i, image.Reached i ∧ Occupies image.heap i r
  /-- The free list is the complement of the living regions. -/
  sound : image'.heap.arena.Sound
  free_iff : ∀ p, image'.heap.arena.Free p ↔
    1 ≤ p ∧ p ≤ image.heap.arena.capacity.toNat ∧ ∀ r ∈ living.regions, ¬ r.Has p
  freeWords_eq : image'.heap.arena.freeWords.toNat + living.words.toNat
    = image.heap.arena.capacity.toNat
  /-- No word and no type has changed, and allocation is possible again. -/
  words_eq : image'.heap.arena.words = image.heap.arena.words
  types_eq : image'.heap.types = image.heap.types
  not_collecting : image'.heap.arena.collecting = false
  /-- A slot keeps its function exactly if the function is reached. -/
  pool_iff : ∀ id f, image'.pool.get? id = some f ↔
    image.pool.get? id = some f ∧ image.Reached (.function id)
  /-- The modules of the other functions are unloaded, and no others. -/
  unloaded : ∀ id f handle, image.pool.get? id = some f → ¬ image.Reached (.function id) →
    f.handle = some handle → image'.machine.knows handle = false
  loaded : image.pool.slots.size < 2 ^ 64 → ∀ entry,
    (∀ id f, image.pool.get? id = some f → f.handle = some (.issued entry) →
      image.Reached (.function id)) →
    image'.machine.program? entry = image.machine.program? entry

/-- What sweeping makes of the pool and the machine. -/
theorem Finds.sweep_spec {found : Found} (hf : image.Finds found) (hi : image.heap.Interned c) :
    (∀ id f, (image.sweep found.marks).2.pool.get? id = some f ↔
      image.pool.get? id = some f ∧ image.Reached (.function id)) ∧
    (∀ id f handle, image.pool.get? id = some f → ¬ image.Reached (.function id) →
      f.handle = some handle → (image.sweep found.marks).2.machine.knows handle = false) ∧
    (image.pool.slots.size < 2 ^ 64 → ∀ entry,
      (∀ id f, image.pool.get? id = some f → f.handle = some (.issued entry) →
        image.Reached (.function id)) →
      (image.sweep found.marks).2.machine.program? entry = image.machine.program? entry) := by
  have hmarked : ∀ {id f}, image.pool.get? id = some f →
      (found.marks.visited[id.toNat - 1]? = some true ↔ image.Reached (.function id)) :=
    fun hget => (hf.marks_iff _ (by rw [hget]; rfl)).trans (met_iff hi)
  refine ⟨fun id f => ?_, fun id f handle hget hnot hhandle => ?_, fun hsize entry hkept => ?_⟩
  · exact Pool.get?_sweep.trans (and_congr_right hmarked)
  · refine Machine.knows_unloadAll ?_
    refine List.mem_filterMap.2 ⟨f, Pool.mem_sweep.2 ⟨_, Pool.slot_of_get? hget, ?_⟩, hhandle⟩
    rw [Ne, hmarked hget]
    exact hnot
  · refine Machine.program?_unloadAll fun hmem => ?_
    obtain ⟨f, hdropped, hhandle⟩ := List.mem_filterMap.1 hmem
    obtain ⟨k, hslot, hmark⟩ := Pool.mem_sweep.1 hdropped
    obtain ⟨id, rfl, hget⟩ := Pool.get?_of_slot hslot hsize
    exact hmark ((hmarked hget).2 (hkept id f hget hhandle))

/-- The numbers of words that a complete collection reports. -/
theorem counted_of_swept {a a' : Arena} {found : Found} {h : Heap} {pool : Pool}
    (hs : a.Sized) (hg : found.Good h pool) (hw : a.Swept found.living.regions a') :
    a.capacity.toNat + 1 = a.words.size ∧
      a'.freeWords.toNat + found.living.words.toNat = a.capacity.toNat := by
  have hcount := hw.counted
  have hlt := hs.lt
  have hone : (1 : UInt64).toNat = 1 := rfl
  have hcap : a.capacity.toNat = a.words.size - 1 := by
    have hlimit := Arena.limit_toNat hs
    rw [Arena.capacity, UInt64.toNat_sub_of_le _ _ (by rw [UInt64.le_iff_toNat_le]; omega)]
    omega
  have hwords : found.living.words.toNat = (found.living.regions.map (·.size.toNat)).sum := by
    rw [hg.counted, UInt64.toNat_ofNat']
    omega
  omega

/-- The image that a complete collection leaves. -/
theorem Finds.collected {found : Found} (hf : image.Finds found) (hi : image.heap.Interned c)
    {a : Arena} (hw : image.begun.heap.arena.Swept found.living.regions a) :
    image.Collected found.living (image.ended found a).2 := by
  obtain ⟨hpool, hunloaded, hloaded⟩ := hf.sweep_spec hi
  have hregions : ∀ r, r ∈ found.living.regions ↔
      ∃ i, image.Reached i ∧ Occupies image.heap i r := fun r =>
    (hf.regions_iff r).trans (exists_congr fun i => and_congr_left fun _ => met_iff hi)
  obtain ⟨hcap, hcount⟩ := counted_of_swept hi.sized hf.good
    ⟨hw.sound, hw.words_eq, hw.not_collecting, hw.inside, hw.apart, hw.free_iff, hw.counted⟩
  refine ⟨rfl, hf.good.ordered, hregions, hw.sound, fun p => ?_, hcount, hw.words_eq,
    rfl, hw.not_collecting, hpool, hunloaded, hloaded⟩
  refine (hw.free_iff p).trans ?_
  show 0 < p ∧ p < image.heap.arena.words.size ∧ _ ↔ _
  rw [← hcap, Nat.lt_succ_iff]
  rfl

/-- A collection of an orderly image is exact, or it stops at a broken invariant. -/
theorem Orderly.collect_yields (ho : image.Orderly) (hi : image.heap.Interned c) :
    Yields collect image (fun _ image' => ∃ living, image.Collected living image')
      (fun f _ => ∃ v, f = .broken v) := by
  refine Yields.bind (Yields.bind ?_)
  cases hc : image.heap.arena.collecting with
  | true => exact Yields.of_error (beginCollection_running hc) ⟨_, rfl⟩
  | false =>
    refine Yields.of_ok (beginCollection_eq hc) (Yields.bind ?_)
    have hmark := image.mark_begun
    rcases ho.mark_cases hi with ⟨found, hm, hfinds⟩ | ⟨v, hm⟩
    · refine Yields.of_ok (inspect_eq_ok (hmark.trans hm)) (Yields.bind ?_)
      have hsized : image.begun.heap.arena.Sized := hi.sized
      have hbounded : image.begun.heap.arena.Bounded found.living.regions := by
        intro r hr
        refine ⟨Nat.le_of_lt (hfinds.good.starts r hr), ?_⟩
        exact (ho.vectorsFit hi.sized).bounded hi.sized hm hr
      have hend := Arena.endCollection_yields hsized rfl hfinds.good.ordered hbounded
      refine (onHeap_frame (Heap.onArena_yields hend)).mono ?_ ?_
      · rintro _ _ ⟨⟨a, types⟩, ⟨hswept, rfl⟩, rfl⟩
        exact ⟨found.living, hfinds.collected hi hswept⟩
      · rintro f _ ⟨h, ⟨⟨hv, -⟩, -⟩, -⟩
        exact hv
    · exact Yields.of_error (inspect_eq_error (hmark.trans hm)) ⟨v, rfl⟩

end Image

end TreeMachine
