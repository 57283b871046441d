import TreeMachine.Proofs.Modules.Loads
import TreeMachine.Proofs.Pool.Slots

/-! # The pool as a directory

  To its clients the pool is a partial map from the numbers 1 to its capacity to functions;
  words of slots, the remembered word and bitmaps do not show.  Main statement: whatever is
  asked of a new pool, also in vain, the answers are those of the map.  New functions get
  the lowest vacant number, a full pool, a number outside and a taken number are refused,
  and a sweep drops the functions without a mark and unloads their modules in the order of
  their numbers.
-/

namespace TreeMachine

open Code (Handle)

/-! ## The map -/

/-- Functions by their numbers, the numbers that are marked in each bitmap, and the machine
    that the modules of the functions are unloaded from. -/
structure Directory where
  capacity : Nat
  entry : UInt64 → Option Function
  marked : Nat → UInt64 → Prop
  machine : Machine

namespace Directory

variable {d : Directory} {id : UInt64}

/-- The number is one of the directory's. -/
def Has (d : Directory) (id : UInt64) : Prop := 1 ≤ id.toNat ∧ id.toNat ≤ d.capacity

/-- The number is one of the directory's, and no function has it. -/
def Vacant (d : Directory) (id : UInt64) : Prop := d.Has id ∧ d.entry id = none

/-- The directory with a function under a number. -/
def put (d : Directory) (id : UInt64) (f : Function) : Directory :=
  { d with entry := Function.update d.entry id (some f) }

/-- The modules of the functions with the given numbers, in the same order; a function
    without a module adds nothing. -/
def handles (d : Directory) (ids : List UInt64) : List Handle :=
  ids.filterMap fun id => (d.entry id).bind (·.handle)

/-- The directory without the functions of the given numbers, their modules unloaded in that
    order. -/
def drop (d : Directory) (ids : List UInt64) : Directory :=
  { d with
    entry := fun id => if id ∈ ids then none else d.entry id
    machine := (Image.unloadAll (d.handles ids) d.machine).2 }

end Directory

namespace Pool

/-- What a pool can be asked to do; bitmaps of visited functions go by numbers of their own. -/
inductive Call where
  | allocate (f : Function)
  | install (id : UInt64) (f : Function)
  | newMarks (j : Nat)
  | visit (j : Nat) (id : UInt64)
  | sweep (j : Nat)
  | reset

/-- What a pool answers. -/
inductive Answer where
  | number (id : UInt64)
  | done
  /-- Whether the function has to be entered. -/
  | enter (b : Bool)
  /-- The number of functions that were dropped, and for each module that was unloaded
      whether the machine knew it. -/
  | swept (n : Nat) (known : List Bool)
  | failed (f : Fault)
deriving DecidableEq

end Pool

open Pool (Call Answer)

/-- What the directory `d` answers to a call, and what becomes of it. -/
inductive Directory.Answers (d : Directory) : Call → Answer → Directory → Prop where
  | allocated {f : Function} {id : UInt64} (h : d.Vacant id)
    (hleast : ∀ id', d.Vacant id' → id ≤ id') :
    d.Answers (.allocate f) (.number id) (d.put id f)
  | full {f : Function} (h : ∀ id, ¬ d.Vacant id) :
    d.Answers (.allocate f) (.failed (.broken (.poolExhausted d.capacity))) d
  | installed {id : UInt64} {f : Function} (h : d.Vacant id) :
    d.Answers (.install id f) .done (d.put id f)
  | outside {id : UInt64} {f : Function} (h : ¬ d.Has id) :
    d.Answers (.install id f) (.failed (.broken (.outsidePool id d.capacity))) d
  | taken {id : UInt64} {f : Function} (h : d.entry id ≠ none) :
    d.Answers (.install id f) (.failed (.broken (.alreadyInstalled id))) d
  | newMarks {j : Nat} :
    d.Answers (.newMarks j) .done { d with marked := Function.update d.marked j fun _ => False }
  | entered {j : Nat} {id : UInt64} (h : d.entry id ≠ none) (hnew : ¬ d.marked j id) :
    d.Answers (.visit j id) (.enter true)
      { d with marked := Function.update d.marked j fun id' => id' = id ∨ d.marked j id' }
  | passed {j : Nat} {id : UInt64} (h : d.entry id = none ∨ d.marked j id) :
    d.Answers (.visit j id) (.enter false) d
  | swept {j : Nat} {ids : List UInt64} (hascending : ids.Pairwise (· < ·))
    (hids : ∀ id, id ∈ ids ↔ d.entry id ≠ none ∧ ¬ d.marked j id) :
    d.Answers (.sweep j)
      (.swept ids.length (Image.unloadAll (d.handles ids) d.machine).1) (d.drop ids)
  | reset : d.Answers .reset .done { d with entry := fun _ => none }

/-- What the directory answers to one call after the other. -/
inductive Directory.Runs : Directory → List Call → List Answer → Directory → Prop where
  | nil {d : Directory} : Runs d [] [] d
  | cons {d d' d'' : Directory} {c : Call} {a : Answer} {cs : List Call} {as : List Answer}
    (h : d.Answers c a d') (hrest : Runs d' cs as d'') : Runs d (c :: cs) (a :: as) d''

/-! ## The pool -/

namespace Pool

/-- A pool in its image, and the bitmaps of visited functions. -/
structure Session where
  image : Image
  marks : Nat → Marks

namespace Session

/-- A new pool in an image. -/
def opened (capacity : Nat) (image : Image) : Session where
  image := { image with pool := Pool.create capacity }
  marks _ := (Pool.create capacity).newMarks

/-- Carries out a call. -/
def step (s : Session) : Call → Answer × Session
  | .allocate f =>
    match Image.onPool (Pool.allocate f) s.image with
    | .ok id image => (.number id, { s with image })
    | .error e image => (.failed e, { s with image })
  | .install id f =>
    match Image.onPool (Pool.install id f) s.image with
    | .ok _ image => (.done, { s with image })
    | .error e image => (.failed e, { s with image })
  | .newMarks j => (.done, { s with marks := Function.update s.marks j s.image.pool.newMarks })
  | .visit j id =>
    let r := s.image.pool.visit id (s.marks j)
    (.enter r.1, { s with marks := Function.update s.marks j r.2 })
  | .sweep j =>
    let ((n, known), image) := s.image.sweep (s.marks j)
    (.swept n known, { s with image })
  | .reset => (.done, { s with image := { s.image with pool := s.image.pool.reset } })

/-- Carries out one call after the other. -/
def run (s : Session) : List Call → List Answer × Session
  | [] => ([], s)
  | c :: rest =>
    let (a, s) := s.step c
    let (as, s) := s.run rest
    (a :: as, s)

/-- Whatever is read of the pool is what the directory holds. -/
structure Shows (s : Session) (d : Directory) : Prop where
  capacity_eq : s.image.pool.capacity = d.capacity
  get?_eq : ∀ id, s.image.pool.get? id = d.entry id
  /-- Functions have the numbers 1 to the capacity, -/
  has : ∀ id, d.entry id ≠ none → d.Has id
  /-- and their numbers are listed in order. -/
  ascending : s.image.pool.occupied.Pairwise (· < ·)
  mem_occupied : ∀ id, id ∈ s.image.pool.occupied ↔ d.entry id ≠ none
  size_eq : s.image.pool.size = s.image.pool.occupied.length
  machine_eq : s.image.machine = d.machine

/-- The pool holds what the directory holds, and so do the bitmaps. -/
structure Agrees (s : Session) (d : Directory) : Prop where
  size_lt : s.image.pool.slots.size < 2 ^ 64
  capacity_eq : s.image.pool.slots.size = d.capacity
  get?_eq : ∀ id, s.image.pool.get? id = d.entry id
  marks_size : ∀ j, (s.marks j).visited.size = d.capacity
  marks_iff : ∀ j id, d.Has id → ((s.marks j).visited[id.toNat - 1]? = some true ↔ d.marked j id)
  machine_eq : s.image.machine = d.machine

namespace Agrees

variable {s s' : Session} {d : Directory} {id : UInt64} {f : Function} {j k : Nat}

/-- A number of the directory has a slot. -/
theorem slot (h : s.Agrees d) (hid : d.Has id) :
    s.image.pool.slots[id.toNat - 1]? = some (d.entry id) := by
  have hlt : id.toNat - 1 < s.image.pool.slots.size := by
    rw [h.capacity_eq]
    have := hid.1
    have := hid.2
    omega
  have h0 : id ≠ 0 := Arena.toNat_pos_iff.1 hid.1
  rw [← h.get?_eq, Pool.get?, if_neg h0, Array.getElem?_eq_getElem hlt]
  rfl

theorem has (h : s.Agrees d) (hid : d.entry id ≠ none) : d.Has id := by
  rw [← h.get?_eq, ← Option.isSome_iff_ne_none] at hid
  obtain ⟨h0, hlt⟩ := Collect.slot_lt hid
  have hpos := Arena.toNat_pos_iff.2 h0
  rw [h.capacity_eq] at hlt
  exact ⟨hpos, by omega⟩

theorem shows (h : s.Agrees d) : s.Shows d where
  capacity_eq := h.capacity_eq
  get?_eq := h.get?_eq
  has _ := h.has
  ascending := by
    rw [Pool.occupied_eq]
    exact Pool.numbersOf_ascending h.size_lt
  mem_occupied id := by
    rw [Pool.mem_occupied h.size_lt, h.get?_eq, Option.isSome_iff_ne_none]
  size_eq := Pool.size_eq
  machine_eq := h.machine_eq

/-- A vacant number is that of a free slot. -/
theorem vacant_iff (h : s.Agrees d) :
    d.Vacant id ↔ d.Has id ∧ s.image.pool.slots[id.toNat - 1]? = some none := by
  refine and_congr_right fun hid => ?_
  rw [h.slot hid, Option.some.injEq]

/-- A free slot has a vacant number. -/
theorem vacant_number (h : s.Agrees d) (hk : s.image.pool.slots[k]? = some none) :
    (UInt64.ofNat (k + 1)).toNat = k + 1 ∧ d.Vacant (UInt64.ofNat (k + 1)) := by
  have hlt := (Array.getElem?_eq_some_iff.1 hk).1
  have hid := Pool.toNat_number h.size_lt hlt
  refine ⟨hid, h.vacant_iff.2 ⟨⟨by omega, ?_⟩, ?_⟩⟩
  · rw [hid, ← h.capacity_eq]
    exact hlt
  · rw [hid, Nat.add_sub_cancel]
    exact hk

/-- A function in a slot is one under the number of the slot. -/
theorem put (h : s.Agrees d) (hk : k < s.image.pool.slots.size) (hid : id.toNat = k + 1) {i : Nat}
    (hi : ∀ j : Nat, j < 64 * i → s.image.pool.slots[j]? ≠ some none) :
    Agrees { s with image := { s.image with pool := s.image.pool.put k f i hi } } (d.put id f) where
  size_lt := by
    show (s.image.pool.put k f i hi).slots.size < _
    rw [Pool.size_put]
    exact h.size_lt
  capacity_eq := by
    show (s.image.pool.put k f i hi).slots.size = _
    rw [Pool.size_put]
    exact h.capacity_eq
  get?_eq id' := by
    show (s.image.pool.put k f i hi).get? id' = Function.update d.entry id (some f) id'
    rw [Pool.get?_put hk, Function.update_apply, h.get?_eq]
    simp only [← hid, UInt64.toNat_inj]
  marks_size := h.marks_size
  marks_iff := h.marks_iff
  machine_eq := h.machine_eq

/-- One bitmap is replaced. -/
theorem mark (h : s.Agrees d) {marks : Marks} {marked : UInt64 → Prop}
    (hsize : marks.visited.size = d.capacity)
    (hiff : ∀ id, d.Has id → (marks.visited[id.toNat - 1]? = some true ↔ marked id)) :
    Agrees { s with marks := Function.update s.marks j marks }
      { d with marked := Function.update d.marked j marked } where
  size_lt := h.size_lt
  capacity_eq := h.capacity_eq
  get?_eq := h.get?_eq
  marks_size j' := by
    by_cases hj : j' = j
    · simp only [hj, Function.update_self]
      exact hsize
    · simp only [Function.update_of_ne hj]
      exact h.marks_size j'
  marks_iff j' id hid := by
    by_cases hj : j' = j
    · simp only [hj, Function.update_self]
      exact hiff id hid
    · simp only [Function.update_of_ne hj]
      exact h.marks_iff j' id hid
  machine_eq := h.machine_eq

/-! ### One call -/

theorem step_allocate (h : s.Agrees d) (f : Function) :
    ∃ d', d.Answers (.allocate f) (s.step (.allocate f)).1 d' ∧
      (s.step (.allocate f)).2.Agrees d' := by
  obtain ⟨⟨heap, machine, pool, collector⟩, marks⟩ := s
  cases hfind : pool.lowestFree with
  | some k =>
    simp only [step, Image.onPool, Pool.allocate_eq_ok hfind]
    obtain ⟨hfree, hbefore⟩ := Pool.lowestFree_eq_some hfind
    obtain ⟨hid, hvacant⟩ := h.vacant_number hfree
    refine ⟨_, .allocated hvacant fun id' hid' => ?_, ?_⟩
    · -- A lower number would be that of a free slot before `k`.
      obtain ⟨⟨hpos, -⟩, hslot⟩ := h.vacant_iff.1 hid'
      have hle := mt (hbefore (id'.toNat - 1)) (not_not_intro hslot)
      rw [UInt64.le_iff_toNat_le, hid]
      omega
    · exact h.put (Array.getElem?_eq_some_iff.1 hfree).1 hid _
  | none =>
    have hsize : pool.slots.size = d.capacity := h.capacity_eq
    simp only [step, Image.onPool, Pool.allocate_eq_error hfind, hsize]
    refine ⟨d, .full fun id hid => ?_, h⟩
    exact Pool.lowestFree_eq_none hfind _ (h.vacant_iff.1 hid).2

theorem step_install (h : s.Agrees d) (id : UInt64) (f : Function) :
    ∃ d', d.Answers (.install id f) (s.step (.install id f)).1 d' ∧
      (s.step (.install id f)).2.Agrees d' := by
  obtain ⟨⟨heap, machine, pool, collector⟩, marks⟩ := s
  have hsize : pool.slots.size = d.capacity := h.capacity_eq
  have hget : pool.get? id = d.entry id := h.get?_eq id
  have hrange : pool.inRange id = true ↔ d.Has id := by
    simp only [Pool.inRange, Bool.and_eq_true, decide_eq_true_eq, hsize, Directory.Has,
      ← Arena.toNat_pos_iff]
    rfl
  simp only [step, Image.onPool, Pool.install]
  by_cases hid : d.Has id
  · rw [if_neg (by simpa using hrange.2 hid)]
    cases hentry : d.entry id with
    | some g =>
      rw [if_pos (by rw [hget, hentry]; rfl)]
      exact ⟨d, .taken (by rw [hentry]; exact Option.some_ne_none g), h⟩
    | none =>
      rw [if_neg (by rw [hget, hentry]; exact Bool.false_ne_true)]
      have hpos := hid.1
      have hle := hid.2
      have hslot : id.toNat - 1 < pool.slots.size := by omega
      have hnumber : id.toNat = id.toNat - 1 + 1 := by omega
      exact ⟨_, .installed ⟨hid, hentry⟩, h.put hslot hnumber _⟩
  · rw [if_pos (by simpa using mt hrange.1 hid), hsize]
    exact ⟨d, .outside hid, h⟩

theorem step_newMarks (h : s.Agrees d) (j : Nat) :
    ∃ d', d.Answers (.newMarks j) (s.step (.newMarks j)).1 d' ∧
      (s.step (.newMarks j)).2.Agrees d' := by
  refine ⟨_, .newMarks, h.mark ?_ fun id _ => ?_⟩
  · rw [Pool.newMarks, Array.size_replicate]
    exact h.capacity_eq
  · simp [Pool.newMarks, Array.getElem?_replicate]

theorem step_visit (h : s.Agrees d) (j : Nat) (id : UInt64) :
    ∃ d', d.Answers (.visit j id) (s.step (.visit j id)).1 d' ∧
      (s.step (.visit j id)).2.Agrees d' := by
  by_cases hv : d.entry id ≠ none ∧ ¬ d.marked j id
  · obtain ⟨hentry, hmark⟩ := hv
    have hid := h.has hentry
    have hpos := hid.1
    have hle := hid.2
    have hlt : id.toNat - 1 < (s.marks j).visited.size := by
      rw [h.marks_size]
      omega
    have hnew : (s.marks j).visited[id.toNat - 1]? = some false := by
      rw [← h.marks_iff j id hid] at hmark
      rw [Array.getElem?_eq_getElem hlt] at hmark ⊢
      simpa using hmark
    have hrun : s.image.pool.visit id (s.marks j)
        = (true, ⟨(s.marks j).visited.setIfInBounds (id.toNat - 1) true⟩) := by
      simp [Pool.visit, hnew, h.get?_eq, Option.isSome_iff_ne_none, hentry]
    simp only [step, hrun]
    refine ⟨_, .entered hentry hmark, h.mark ?_ fun id' hid' => ?_⟩
    · rw [Array.size_setIfInBounds]
      exact h.marks_size j
    · have hpos' := hid'.1
      rw [Array.getElem?_setIfInBounds]
      by_cases heq : id' = id
      · simp [heq, hlt]
      · have hne : id.toNat - 1 ≠ id'.toNat - 1 := by
          have : id'.toNat ≠ id.toNat := fun hval => heq (UInt64.toNat.inj hval)
          omega
        rw [if_neg hne, h.marks_iff j id' hid']
        simp [heq]
  · rw [not_and, not_not] at hv
    have hrun : s.image.pool.visit id (s.marks j) = (false, s.marks j) := by
      have hcond : ¬ (d.entry id ≠ none ∧ (s.marks j).visited[id.toNat - 1]? = some false) := by
        rintro ⟨hentry, hnew⟩
        rw [(h.marks_iff j id (h.has hentry)).2 (hv hentry)] at hnew
        cases hnew
      rw [Pool.visit, h.get?_eq, if_neg]
      rwa [Bool.and_eq_true, beq_iff_eq, Option.isSome_iff_ne_none]
    have hsame : Function.update s.marks j (s.marks j) = s.marks :=
      Function.update_eq_self j s.marks
    simp only [step, hrun, hsame]
    exact ⟨d, .passed (or_iff_not_imp_left.2 hv), h⟩

theorem step_sweep (h : s.Agrees d) (j : Nat) :
    ∃ d', d.Answers (.sweep j) (s.step (.sweep j)).1 d' ∧ (s.step (.sweep j)).2.Agrees d' := by
  set ids := s.image.pool.unmarked (s.marks j) with hidsdef
  have hids : ∀ id, id ∈ ids ↔ d.entry id ≠ none ∧ ¬ d.marked j id := by
    intro id
    rw [hidsdef, Pool.mem_unmarked h.size_lt, h.get?_eq, Option.isSome_iff_ne_none]
    exact and_congr_right fun hentry => not_congr (h.marks_iff j id (h.has hentry))
  have hhandles : (s.image.pool.sweep (s.marks j)).1.filterMap (·.handle) = d.handles ids := by
    rw [Pool.sweep_dropped h.size_lt, List.filterMap_filterMap, Directory.handles]
    exact List.filterMap_congr fun id _ => by rw [h.get?_eq]
  have hlength : (s.image.pool.sweep (s.marks j)).1.length = ids.length :=
    Pool.length_dropped h.size_lt
  have hascending : ids.Pairwise (· < ·) := Pool.numbersOf_ascending h.size_lt
  have hanswers := Directory.Answers.swept hascending hids
  rw [← hlength, ← hhandles, ← h.machine_eq] at hanswers
  refine ⟨_, hanswers, ?_⟩
  exact {
    size_lt := by
      show (s.image.pool.sweep (s.marks j)).2.slots.size < _
      rw [Pool.size_sweep]
      exact h.size_lt
    capacity_eq := by
      show (s.image.pool.sweep (s.marks j)).2.slots.size = _
      rw [Pool.size_sweep]
      exact h.capacity_eq
    get?_eq := by
      intro id
      show (s.image.pool.sweep (s.marks j)).2.get? id = if id ∈ ids then none else d.entry id
      refine Option.ext fun f => ?_
      rw [Pool.get?_sweep, h.get?_eq]
      by_cases hentry : d.entry id = none
      · simp [hentry]
      · rw [h.marks_iff j id (h.has hentry)]
        by_cases hmark : d.marked j id
        · simp [hids, hmark]
        · simp [hids, hmark, hentry]
    marks_size := h.marks_size
    marks_iff := h.marks_iff
    machine_eq := by
      show (Image.unloadAll ((s.image.pool.sweep (s.marks j)).1.filterMap (·.handle))
        s.image.machine).2 = (Image.unloadAll (d.handles ids) d.machine).2
      rw [hhandles, h.machine_eq] }

theorem step_reset (h : s.Agrees d) :
    ∃ d', d.Answers .reset (s.step .reset).1 d' ∧ (s.step .reset).2.Agrees d' := by
  have hsize : s.image.pool.reset.slots.size = s.image.pool.slots.size := Array.size_replicate
  refine ⟨_, .reset, ?_⟩
  exact {
    size_lt := by
      show s.image.pool.reset.slots.size < _
      rw [hsize]
      exact h.size_lt
    capacity_eq := hsize.trans h.capacity_eq
    get?_eq := by
      intro id
      show s.image.pool.reset.get? id = none
      simp only [Pool.get?, Pool.reset, Array.getElem?_replicate]
      split
      · rfl
      · split <;> rfl
    marks_size := h.marks_size
    marks_iff := h.marks_iff
    machine_eq := h.machine_eq }

/-- The pool answers a call as the directory does. -/
theorem step (h : s.Agrees d) (c : Call) :
    ∃ d', d.Answers c (s.step c).1 d' ∧ (s.step c).2.Agrees d' := by
  cases c with
  | allocate f => exact h.step_allocate f
  | install id f => exact h.step_install id f
  | newMarks j => exact h.step_newMarks j
  | visit j id => exact h.step_visit j id
  | sweep j => exact h.step_sweep j
  | reset => exact h.step_reset

/-- Any number of calls. -/
theorem run (h : s.Agrees d) (calls : List Call) :
    ∃ d', d.Runs calls (s.run calls).1 d' ∧ (s.run calls).2.Agrees d' := by
  induction calls generalizing s d with
  | nil => exact ⟨d, .nil, h⟩
  | cons c rest ih =>
    obtain ⟨d₁, hanswers, h₁⟩ := h.step c
    obtain ⟨d₂, hruns, h₂⟩ := ih h₁
    exact ⟨d₂, .cons hanswers hruns, h₂⟩

/-- A new pool holds nothing. -/
theorem opened {capacity : Nat} (hcapacity : capacity < 2 ^ 63) (image : Image) :
    (Session.opened capacity image).Agrees
      ⟨Pool.slotCount capacity, fun _ => none, fun _ _ => False, image.machine⟩ := by
  have hsize : (Pool.create capacity).slots.size = Pool.slotCount capacity := Array.size_replicate
  exact {
    size_lt := by
      show (Pool.create capacity).slots.size < _
      rw [hsize, Pool.slotCount]
      omega
    capacity_eq := hsize
    get?_eq := by
      intro id
      show (Pool.create capacity).get? id = none
      simp only [Pool.get?, Pool.create, Array.getElem?_replicate]
      split
      · rfl
      · split <;> rfl
    marks_size := fun _ => Array.size_replicate.trans hsize
    marks_iff := by
      intro j id _
      simp only [Session.opened, Pool.newMarks, Array.getElem?_replicate]
      split <;> simp
    machine_eq := rfl }

end Agrees

end Session

/-- The pool is a finite map with lowest-free allocation: whatever is asked of a new pool,
    it answers as an empty directory of its capacity does, and shows what the directory
    then holds. -/
theorem run_directory {capacity : Nat} (hcapacity : capacity < 2 ^ 63) (image : Image)
    (calls : List Call) :
    ∃ d, Directory.Runs
        ⟨Pool.slotCount capacity, fun _ => none, fun _ _ => False, image.machine⟩ calls
        ((Session.opened capacity image).run calls).1 d ∧
      ((Session.opened capacity image).run calls).2.Shows d := by
  obtain ⟨d, hruns, h⟩ := (Session.Agrees.opened hcapacity image).run calls
  exact ⟨d, hruns, h.shows⟩

/-- A pool of two words.  The low numbers go to functions of the first word, with 2 passed
    over because it is taken; a sweep that finds functions 1 and 2 visited drops the one with
    number 3 and unloads its module, and the number is given out again. -/
theorem run_directory_words :
    let f : Function := ⟨1, 2, 3, 4, none⟩
    let g : Function := { f with handle := some (.issued 1) }
    let image : Image := ⟨default, ⟨[(1, default)], 1⟩, default, .empty⟩
    let calls : List Call :=
      [.install 2 f, .allocate f, .allocate g, .install 2 g, .install 129 g, .visit 0 1,
        .visit 0 2, .visit 0 2, .visit 0 4, .sweep 0, .allocate f]
    let s := (Session.opened 100 image).run calls
    (s.1 = [.done, .number 1, .number 3, .failed (.broken (.alreadyInstalled 2)),
        .failed (.broken (.outsidePool 129 128)), .enter true, .enter true, .enter false,
        .enter false, .swept 1 [true], .number 3] ∧
      s.2.image.pool.occupied = [1, 2, 3] ∧ s.2.image.machine.loaded = 0) ∧
      ∃ d, Directory.Runs ⟨128, fun _ => none, fun _ _ => False, image.machine⟩ calls s.1 d ∧
        s.2.Shows d := by
  intro f g image calls s
  exact ⟨by decide +kernel, @run_directory 100 (by decide) image calls⟩

end Pool

end TreeMachine
