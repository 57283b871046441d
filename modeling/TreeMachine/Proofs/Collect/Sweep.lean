import TreeMachine.Proofs.Collect.Search

/-! # Sweeping

  Functions without a mark leave the pool, and their modules leave the machine.  All other
  slots and programs stay as they are.
-/

namespace TreeMachine

variable {pool : Pool} {marks : Marks} {m : Machine}

namespace Pool

/-- A slot keeps its function exactly if the function has a mark. -/
theorem get?_sweep {id : UInt64} {f : Function} :
    (pool.sweep marks).2.get? id = some f ↔
      pool.get? id = some f ∧ marks.visited[id.toNat - 1]? = some true := by
  by_cases h0 : id = 0
  · simp [get?, h0]
  · simp only [get?, h0, if_false, sweep, Array.getElem?_mapIdx]
    cases hslot : pool.slots[id.toNat - 1]? with
    | none => simp
    | some slot =>
      cases slot with
      | none => simp
      | some g =>
        by_cases hm : marks.visited[id.toNat - 1]? = some true
        · simp [hm]
        · simp [hm]

/-- The functions that are dropped are those without a mark. -/
theorem mem_sweep {f : Function} :
    f ∈ (pool.sweep marks).1 ↔
      ∃ k : Nat, pool.slots[k]? = some (some f) ∧ marks.visited[k]? ≠ some true := by
  simp only [sweep, List.mem_filterMap, Prod.exists, List.mem_zipIdx_iff_getElem?,
    Array.getElem?_toList]
  constructor
  · rintro ⟨slot, k, hslot, hdead⟩
    split at hdead
    · rename_i hcond
      subst hdead
      rw [Bool.and_eq_true, bne_iff_ne] at hcond
      exact ⟨k, hslot, hcond.2⟩
    · cases hdead
  · rintro ⟨k, hslot, hmark⟩
    refine ⟨some f, k, hslot, if_pos ?_⟩
    rw [Bool.and_eq_true, bne_iff_ne]
    exact ⟨rfl, hmark⟩

/-- A function of the pool is in the slot of its number. -/
theorem slot_of_get? {id : UInt64} {f : Function} (hf : pool.get? id = some f) :
    pool.slots[id.toNat - 1]? = some (some f) := by
  unfold get? at hf
  split at hf
  · cases hf
  · exact Option.join_eq_some_iff.1 hf

/-- The function of a slot is found under the number of the slot. -/
theorem get?_of_slot {k : Nat} {f : Function} (hk : pool.slots[k]? = some (some f))
    (hsize : pool.slots.size < 2 ^ 64) :
    ∃ id : UInt64, id.toNat - 1 = k ∧ pool.get? id = some f := by
  obtain ⟨hlt, -⟩ := Array.getElem?_eq_some_iff.1 hk
  have hid : (UInt64.ofNat (k + 1)).toNat = k + 1 := by
    rw [UInt64.toNat_ofNat']
    omega
  have h0 : UInt64.ofNat (k + 1) ≠ 0 := Arena.toNat_pos_iff.1 (by omega)
  refine ⟨UInt64.ofNat (k + 1), by omega, ?_⟩
  rw [get?, if_neg h0, hid, Nat.add_sub_cancel, hk]
  rfl

end Pool

namespace Machine

/-- Unloading keeps the programs that are not named. -/
theorem programs_unloadAll (hs : List Code.Handle) (m : Machine) :
    (Image.unloadAll hs m).2.programs = m.programs.filter fun p => .issued p.1 ∉ hs := by
  induction hs generalizing m with
  | nil => simp [Image.unloadAll]
  | cons handle rest ih =>
    rw [Image.unloadAll]
    dsimp only
    rw [ih]
    cases handle with
    | issued entry =>
      simp only [remove, List.filter_filter]
      refine List.filter_congr fun p _ => ?_
      rw [Bool.eq_iff_iff]
      simp only [Bool.and_eq_true, decide_eq_true_eq, bne_iff_ne, List.mem_cons, not_or,
        Code.Handle.issued.injEq, ne_eq]
      exact and_comm
    | foreign text => simp [remove]

/-- A module that was unloaded is not known any more. -/
theorem knows_unloadAll {hs : List Code.Handle} {handle : Code.Handle} (hmem : handle ∈ hs) :
    (Image.unloadAll hs m).2.knows handle = false := by
  cases handle with
  | foreign text => rfl
  | issued entry =>
    simp only [knows, program?, programs_unloadAll, Option.isSome_map]
    rw [Option.isSome_eq_false_iff, Option.isNone_iff_eq_none, List.find?_eq_none]
    intro p hp
    rw [List.mem_filter, decide_eq_true_eq] at hp
    simp only [beq_iff_eq]
    rintro rfl
    exact hp.2 hmem

/-- Other programs stay. -/
theorem program?_unloadAll {hs : List Code.Handle} {entry : UInt64}
    (hnot : .issued entry ∉ hs) :
    (Image.unloadAll hs m).2.program? entry = m.program? entry := by
  simp only [program?, programs_unloadAll, List.find?_filter]
  congr 2
  funext p
  rw [Bool.eq_iff_iff]
  simp only [decide_eq_true_eq, beq_iff_eq]
  constructor
  · exact fun hp => hp.2
  · intro hp
    subst hp
    exact ⟨hnot, rfl⟩

end Machine

end TreeMachine
