import TreeMachine.Proofs.Collect.Sweep

/-! # Loaded modules and functions

  A module is loaded together with the record of a function in a free slot of the pool, and
  unloaded when a collection drops the record.  Main statements: as long as no handle is
  issued twice, modules and records stay in one-to-one correspondence; and what a slot holds
  later was there before or has a new handle.
-/

namespace TreeMachine

open Code (Handle Program)

/-- The handles that the machine has issued since it was `m`, the oldest first. -/
def Machine.issuedSince (m m' : Machine) : List Handle :=
  (List.range (m'.last - m.last).toNat).map fun i => .issued (m.last + UInt64.ofNat (i + 1))

/-- The loaded modules are those of the functions in the pool. -/
structure InStep (m : Machine) (p : Pool) : Prop where
  /-- A function has the handle that was issued with its entry, -/
  handle : ∀ id f, p.get? id = some f → f.handle = some (.issued f.entry)
  /-- the module is loaded, -/
  loaded : ∀ id f, p.get? id = some f → ∃ program, m.program? f.entry = some program
  /-- and it belongs to no other function. -/
  distinct : ∀ id id' f f', p.get? id = some f → p.get? id' = some f' → f.entry = f'.entry →
    id = id'
  /-- No other module is loaded, -/
  owned : ∀ e ∈ m.programs, ∃ id f, p.get? id = some f ∧ f.entry = e.1
  /-- and none twice. -/
  once : (m.programs.map (·.1)).Nodup

variable {m m' : Machine} {p p' : Pool} {f : Function} {hs hs' : List Handle} {k i : Nat}
  {hi : ∀ j : Nat, j < 64 * i → p.slots[j]? ≠ some none}

/-! ## One slot -/

theorem Pool.get?_put (hk : k < p.slots.size) {id : UInt64} :
    (p.put k f i hi).get? id = if id.toNat = k + 1 then some f else p.get? id := by
  unfold put get?
  by_cases h0 : id = 0
  · simp [h0]
  · have hpos := Arena.toNat_pos_iff.2 h0
    simp only [h0, if_false, Array.getElem?_setIfInBounds]
    by_cases hid : id.toNat = k + 1
    · rw [if_pos hid, if_pos (by omega), if_pos (by omega)]
      rfl
    · rw [if_neg hid, if_neg (by omega)]

theorem Pool.size_put : (p.put k f i hi).slots.size = p.slots.size := by simp [put]

/-- The programs that are loaded after one more. -/
theorem Machine.program?_install (program : Program) (entry : UInt64) :
    (m.install program).2.program? entry =
      if m.last + 1 = entry then some program else m.program? entry := by
  by_cases heq : m.last + 1 = entry
  · simp [install, program?, heq]
  · simp [install, program?, heq]

/-- A free slot takes a function whose entry is new. -/
theorem InStep.put (h : InStep m p) (hsize : p.slots.size < 2 ^ 64)
    (hfree : p.slots[k]? = some none) (hhandle : f.handle = some (.issued f.entry))
    (hentry : f.entry = m.last + 1) (hnew : f.entry ∉ m.programs.map (·.1)) (program : Program) :
    InStep (m.install program).2 (p.put k f i hi) := by
  have hk : k < p.slots.size := (Array.getElem?_eq_some_iff.1 hfree).1
  -- The other functions have older entries.
  have hother : ∀ id g, p.get? id = some g → g.entry ≠ f.entry := by
    intro id g hg heq
    obtain ⟨program, hprogram⟩ := h.loaded id g hg
    obtain ⟨e, he, -⟩ := Option.map_eq_some_iff.1 hprogram
    have hfound : e.1 = g.entry := by simpa using List.find?_some he
    exact hnew (heq ▸ hfound ▸ List.mem_map_of_mem (List.mem_of_find?_eq_some he))
  have hcases : ∀ id g, (p.put k f i hi).get? id = some g →
      (id.toNat = k + 1 ∧ g = f) ∨ p.get? id = some g := by
    intro id g hg
    rw [Pool.get?_put hk] at hg
    split at hg
    · rename_i hid
      cases hg
      exact Or.inl ⟨hid, rfl⟩
    · exact Or.inr hg
  refine ⟨?_, ?_, ?_, ?_, ?_⟩
  · intro id g hg
    obtain ⟨-, rfl⟩ | hg := hcases id g hg
    · exact hhandle
    · exact h.handle id g hg
  · intro id g hg
    rw [Machine.program?_install]
    obtain ⟨-, rfl⟩ | hg := hcases id g hg
    · exact ⟨program, if_pos hentry.symm⟩
    · have hne := hother id g hg
      rw [hentry] at hne
      rw [if_neg hne.symm]
      exact h.loaded id g hg
  · intro id id' g g' hg hg' heq
    obtain ⟨hid, rfl⟩ | hold := hcases id g hg
    · obtain ⟨hid', rfl⟩ | hold' := hcases id' g' hg'
      · rw [← UInt64.toNat_inj, hid, hid']
      · exact absurd heq.symm (hother id' g' hold')
    · obtain ⟨hid', rfl⟩ | hold' := hcases id' g' hg'
      · exact absurd heq (hother id g hold)
      · exact h.distinct id id' g g' hold hold' heq
  · intro e he
    obtain rfl | he := List.mem_cons.1 he
    · have hid : (UInt64.ofNat (k + 1)).toNat = k + 1 := by
        rw [UInt64.toNat_ofNat']
        omega
      exact ⟨UInt64.ofNat (k + 1), f, by rw [Pool.get?_put hk, if_pos hid], hentry⟩
    · obtain ⟨id, g, hg, heq⟩ := h.owned e he
      refine ⟨id, g, ?_, heq⟩
      rw [Pool.get?_put hk, if_neg, hg]
      -- Slot `k` was free, so `g` is not in it.
      intro hid
      have hslot := Pool.slot_of_get? hg
      rw [show id.toNat - 1 = k by omega, hfree] at hslot
      cases hslot
  · rw [hentry] at hnew
    exact List.nodup_cons.2 ⟨hnew, h.once⟩

/-! ## Loading -/

/-- Modules have been loaded one after the other, each with the record of a function that
    went into a free slot; `hs` are their handles. -/
inductive Loads (m : Machine) (p : Pool) : List Handle → Machine → Pool → Prop where
  | refl : Loads m p [] m p
  | load {hs : List Handle} {m' : Machine} {p' : Pool} {f : Function} {k i : Nat}
    (h : Loads m p hs m' p') (hfree : p'.slots[k]? = some none)
    (hhandle : f.handle = some (.issued f.entry)) (hentry : f.entry = m'.last + 1)
    (program : Program)
    (hi : ∀ j : Nat, j < 64 * i → p'.slots[j]? ≠ some none) :
    Loads m p (hs ++ [.issued f.entry]) (m'.install program).2 (p'.put k f i hi)

namespace Loads

theorem trans {m'' : Machine} {p'' : Pool} (h : Loads m p hs m' p')
    (h' : Loads m' p' hs' m'' p'') : Loads m p (hs ++ hs') m'' p'' := by
  induction h' with
  | refl =>
    rw [List.append_nil]
    exact h
  | load _ hfree hhandle hentry program hi ih =>
    rw [← List.append_assoc]
    exact .load ih hfree hhandle hentry program hi

theorem size_eq (h : Loads m p hs m' p') : p'.slots.size = p.slots.size := by
  induction h with
  | refl => rfl
  | load _ _ _ _ _ _ ih => rw [Pool.size_put, ih]

/-- Each module takes one of the slots that were free. -/
theorem length_add_free (h : Loads m p hs m' p') :
    hs.length + p'.slots.countP (·.isNone) = p.slots.countP (·.isNone) := by
  induction h with
  | refl => simp
  | @load hs m' p' f k i h hfree hhandle hentry program hi ih =>
    obtain ⟨hk, hnone⟩ := Array.getElem?_eq_some_iff.1 hfree
    have hpos : 0 < p'.slots.countP (·.isNone) :=
      Array.countP_pos_iff.2 ⟨none, hnone ▸ Array.getElem_mem hk, rfl⟩
    have hput : (p'.put k f i hi).slots.countP (·.isNone) = p'.slots.countP (·.isNone) - 1 := by
      show (p'.slots.setIfInBounds k (some f)).countP (·.isNone) = _
      rw [Array.setIfInBounds, dif_pos hk, Array.countP_set, hnone]
      rfl
    rw [hput, List.length_append, List.length_singleton]
    omega

/-- The handles are numbered one after the other. -/
theorem numbers (h : Loads m p hs m' p') : m'.last = m.last + UInt64.ofNat hs.length ∧
    hs = (List.range hs.length).map fun i => .issued (m.last + UInt64.ofNat (i + 1)) := by
  induction h with
  | refl => simp
  | @load hs m' p' f k i h hfree hhandle hentry program hi ih =>
    obtain ⟨hlast, heq⟩ := ih
    have hnext : m'.last + 1 = m.last + UInt64.ofNat (hs.length + 1) := by
      rw [hlast, UInt64.ofNat_add, UInt64.add_assoc]
      rfl
    rw [List.length_append, List.length_singleton, List.range_succ, List.map_append, ← heq]
    refine ⟨hnext, ?_⟩
    rw [hentry, hnext]
    rfl

/-- There are no more of them than slots. -/
theorem length_le (h : Loads m p hs m' p') : hs.length ≤ p.slots.size := by
  have hcount := h.length_add_free
  have hle := p.slots.countP_le_size (p := (·.isNone))
  omega

/-- The handles of all loaded modules are among those that were issued. -/
theorem known (h : Loads m p hs m' p') {older : List Handle}
    (hknown : ∀ e ∈ m.programs, .issued e.1 ∈ older) :
    ∀ e ∈ m'.programs, .issued e.1 ∈ older ++ hs := by
  induction h with
  | refl => simpa using hknown
  | load _ _ _ hentry _ _ ih =>
    intro e he
    obtain rfl | he := List.mem_cons.1 he
    · simp [hentry]
    · have := ih e he
      simp only [List.mem_append] at this ⊢
      exact this.elim Or.inl fun h => Or.inr (Or.inl h)

/-- Loading keeps modules and functions in step if no handle is issued twice. -/
theorem inStep (h : Loads m p hs m' p') (hin : InStep m p) (hsize : p.slots.size < 2 ^ 64)
    {older : List Handle} (hknown : ∀ e ∈ m.programs, .issued e.1 ∈ older)
    (hnodup : (older ++ hs).Nodup) : InStep m' p' := by
  induction h with
  | refl => exact hin
  | @load hs m' p' f k i h hfree hhandle hentry program hi ih =>
    rw [← List.append_assoc] at hnodup
    have hin' := ih (List.nodup_append.1 hnodup).1
    refine hin'.put (by rw [h.size_eq]; exact hsize) hfree hhandle hentry ?_ program
    intro hmem
    obtain ⟨e, he, heq⟩ := List.mem_map.1 hmem
    have hold := h.known hknown e he
    rw [heq] at hold
    exact (List.nodup_append.1 hnodup).2.2 _ hold _ (List.mem_singleton_self _) rfl

/-- A slot that was taken keeps its function; any other function has a new handle. -/
theorem since (h : Loads m p hs m' p') {id : UInt64} {g : Function} (hg : p'.get? id = some g) :
    p.get? id = some g ∨ .issued g.entry ∈ hs := by
  induction h with
  | refl => exact Or.inl hg
  | @load hs m' p' f k i h hfree hhandle hentry program hi ih =>
    rw [Pool.get?_put (Array.getElem?_eq_some_iff.1 hfree).1] at hg
    split at hg
    · cases hg
      exact Or.inr (List.mem_append_right _ (List.mem_singleton_self _))
    · exact (ih hg).imp_right fun h => List.mem_append_left _ h

/-- The module of every function stays loaded, whatever handles are issued. -/
theorem loaded (h : Loads m p hs m' p')
    (hin : ∀ id f, p.get? id = some f → ∃ program, m.program? f.entry = some program)
    {id : UInt64} {g : Function} (hg : p'.get? id = some g) :
    ∃ program, m'.program? g.entry = some program := by
  induction h with
  | refl => exact hin id g hg
  | @load hs m' p' f k i h hfree hhandle hentry program hi ih =>
    rw [Machine.program?_install]
    split
    · exact ⟨program, rfl⟩
    · rename_i hne
      rw [Pool.get?_put (Array.getElem?_eq_some_iff.1 hfree).1] at hg
      split at hg
      · cases hg
        exact absurd hentry.symm hne
      · exact ih hg

end Loads

/-! ## Sweeping -/

theorem Pool.size_sweep (marks : Marks) : (p.sweep marks).2.slots.size = p.slots.size := by
  simp [sweep]

/-- Dropping functions with their modules keeps the others in step. -/
theorem InStep.sweep (h : InStep m p) (hsize : p.slots.size < 2 ^ 64) (marks : Marks) :
    InStep (Image.unloadAll ((p.sweep marks).1.filterMap (·.handle)) m).2 (p.sweep marks).2 := by
  set dropped := (p.sweep marks).1.filterMap (·.handle) with hdropped
  -- A function that keeps its slot keeps its module.
  have hkept : ∀ id g, (p.sweep marks).2.get? id = some g → .issued g.entry ∉ dropped := by
    intro id g hg hmem
    obtain ⟨hg, hmark⟩ := Pool.get?_sweep.1 hg
    obtain ⟨g', hg', hhandle⟩ := List.mem_filterMap.1 hmem
    obtain ⟨j, hslot, hunmarked⟩ := Pool.mem_sweep.1 hg'
    obtain ⟨id', hid', hget⟩ := Pool.get?_of_slot hslot hsize
    rw [h.handle id' g' hget] at hhandle
    have heq : g'.entry = g.entry := by simpa using hhandle
    have hsame := h.distinct id' id g' g hget hg heq
    subst hsame
    rw [hid'] at hmark
    exact hunmarked hmark
  refine ⟨?_, ?_, ?_, ?_, ?_⟩
  · intro id g hg
    exact h.handle id g (Pool.get?_sweep.1 hg).1
  · intro id g hg
    rw [Machine.program?_unloadAll (hkept id g hg)]
    exact h.loaded id g (Pool.get?_sweep.1 hg).1
  · intro id id' g g' hg hg' heq
    exact h.distinct id id' g g' (Pool.get?_sweep.1 hg).1 (Pool.get?_sweep.1 hg').1 heq
  · intro e he
    rw [Machine.programs_unloadAll, List.mem_filter, decide_eq_true_eq] at he
    obtain ⟨id, g, hg, heq⟩ := h.owned e he.1
    refine ⟨id, g, Pool.get?_sweep.2 ⟨hg, ?_⟩, heq⟩
    -- Without a mark its module would have been unloaded.
    by_contra hmark
    have hmem : g ∈ (p.sweep marks).1 := Pool.mem_sweep.2 ⟨_, Pool.slot_of_get? hg, hmark⟩
    apply he.2
    rw [hdropped, List.mem_filterMap, ← heq]
    exact ⟨g, hmem, h.handle id g hg⟩
  · rw [Machine.programs_unloadAll]
    exact h.once.sublist (List.filter_sublist.map _)

/-! ## Histories -/

/-- Modules have been loaded, and functions have been dropped with their modules, in any
    order; `hs` are the handles that were issued. -/
inductive Moves (m : Machine) (p : Pool) : List Handle → Machine → Pool → Prop where
  | refl : Moves m p [] m p
  | loads {hs hs' : List Handle} {m' m'' : Machine} {p' p'' : Pool} (h : Moves m p hs m' p')
    (h' : Loads m' p' hs' m'' p'') : Moves m p (hs ++ hs') m'' p''
  | drop {hs : List Handle} {m' : Machine} {p' : Pool} (h : Moves m p hs m' p')
    (marks : Marks) :
    Moves m p hs (Image.unloadAll ((p'.sweep marks).1.filterMap (·.handle)) m').2
      (p'.sweep marks).2

theorem Machine.last_unloadAll (handles : List Handle) (m : Machine) :
    (Image.unloadAll handles m).2.last = m.last := by
  induction handles generalizing m with
  | nil => rfl
  | cons handle rest ih =>
    rw [Image.unloadAll]
    dsimp only
    rw [ih]
    cases handle <;> rfl

namespace Moves

theorem trans {m'' : Machine} {p'' : Pool} (h : Moves m p hs m' p')
    (h' : Moves m' p' hs' m'' p'') : Moves m p (hs ++ hs') m'' p'' := by
  induction h' with
  | refl =>
    rw [List.append_nil]
    exact h
  | loads _ hloads ih =>
    rw [← List.append_assoc]
    exact .loads ih hloads
  | drop _ marks ih => exact .drop ih marks

theorem size_eq (h : Moves m p hs m' p') : p'.slots.size = p.slots.size := by
  induction h with
  | refl => rfl
  | loads _ hloads ih => rw [hloads.size_eq, ih]
  | drop _ marks ih => rw [Pool.size_sweep, ih]

/-- The handles are numbered one after the other, also across collections. -/
theorem numbers (h : Moves m p hs m' p') : m'.last = m.last + UInt64.ofNat hs.length ∧
    hs = (List.range hs.length).map fun i => .issued (m.last + UInt64.ofNat (i + 1)) := by
  induction h with
  | refl => simp
  | @loads hs hs' m' m'' p' p'' h hloads ih =>
    obtain ⟨hlast, heq⟩ := ih
    obtain ⟨hlast', heq'⟩ := hloads.numbers
    refine ⟨?_, ?_⟩
    · rw [hlast', hlast, List.length_append, UInt64.ofNat_add, UInt64.add_assoc]
    · rw [List.length_append, List.range_add, List.map_append, List.map_map, ← heq]
      congr 1
      refine heq'.trans (List.map_congr_left ?_)
      intro i _
      simp only [Function.comp, hlast]
      rw [Nat.add_assoc, UInt64.ofNat_add hs.length, UInt64.add_assoc]
  | drop _ marks ih =>
    rw [Machine.last_unloadAll]
    exact ih

/-- The handles are those that the machine has issued in the meantime. -/
theorem issued (h : Moves m p hs m' p') (hlen : hs.length < 2 ^ 64) :
    hs = m.issuedSince m' := by
  obtain ⟨hlast, heq⟩ := h.numbers
  have hdiff : (m'.last - m.last).toNat = hs.length := by
    rw [hlast, UInt64.add_comm, UInt64.add_sub_cancel, UInt64.toNat_ofNat']
    omega
  rw [Machine.issuedSince, hdiff]
  exact heq

/-- The handles of all loaded modules are among those that were issued. -/
theorem known (h : Moves m p hs m' p') {older : List Handle}
    (hknown : ∀ e ∈ m.programs, .issued e.1 ∈ older) :
    ∀ e ∈ m'.programs, .issued e.1 ∈ older ++ hs := by
  induction h with
  | refl => simpa using hknown
  | loads _ hloads ih =>
    rw [← List.append_assoc]
    exact hloads.known ih
  | drop _ marks ih =>
    intro e he
    rw [Machine.programs_unloadAll] at he
    exact ih e (List.mem_of_mem_filter he)

/-- Modules and functions stay in step if no handle is issued twice. -/
theorem inStep (h : Moves m p hs m' p') (hin : InStep m p) (hsize : p.slots.size < 2 ^ 64)
    {older : List Handle} (hknown : ∀ e ∈ m.programs, .issued e.1 ∈ older)
    (hnodup : (older ++ hs).Nodup) : InStep m' p' := by
  induction h with
  | refl => exact hin
  | loads h hloads ih =>
    rw [← List.append_assoc] at hnodup
    have hin' := ih (List.nodup_append.1 hnodup).1
    exact hloads.inStep hin' (by rw [h.size_eq]; exact hsize) (h.known hknown) hnodup
  | drop h marks ih => exact (ih hnodup).sweep (by rw [h.size_eq]; exact hsize) marks

/-- A function that is in the pool was there before or has a new handle. -/
theorem since (h : Moves m p hs m' p') {id : UInt64} {g : Function} (hg : p'.get? id = some g) :
    p.get? id = some g ∨ .issued g.entry ∈ hs := by
  induction h with
  | refl => exact Or.inl hg
  | loads _ hloads ih =>
    rw [List.mem_append]
    rcases hloads.since hg with hold | hnew
    · exact (ih hold).imp_right Or.inl
    · exact Or.inr (Or.inr hnew)
  | drop _ marks ih => exact ih (Pool.get?_sweep.1 hg).1

end Moves

end TreeMachine
