import TreeMachine.Proofs.Collect.Reach

/-! # The state of a search

  A partly finished search has found some regions and marked some functions.  `Search` says
  what a stretch of the search adds: only items that may be met, and with each item all that
  it refers to, as long as items with the same words agree on what they refer to.  A stretch
  that starts with nothing and ends is then closed under references.
-/

namespace TreeMachine.Collect

/-- The items that satisfy `P` can be searched: references stay among them, their types are
    known, their words lie in the arena, and no address has two of them. -/
structure Explorable (h : Heap) (c : Catalogue) (pool : Pool) (P : Item → Prop) : Prop where
  interned : h.Interned c
  closed : ∀ {i j}, P i → Refers h pool i j → P j
  type_mem : ∀ {t}, P (.type t) → t ∈ c.handles
  object_mem : ∀ {addr t}, P (.object addr t) → t = 0 ∨ t ∈ c.handles
  inside : ∀ {i r}, P i → Occupies h i r →
    0 < r.addr.toNat ∧ r.addr.toNat + r.size.toNat ≤ h.arena.words.size
  node_lt : ∀ {n}, P (.node n) → n ≠ 0 ∧ n.toNat < h.arena.words.size
  vector_lt : ∀ {vec}, P (.vector vec) → vec ≠ 0 ∧ vec.toNat < h.arena.words.size
  elements_le : ∀ {vec length}, P (.vector vec) → h.word vec = .ok length →
    vec.toNat + 2 + length.toNat ≤ h.arena.words.size
  unique : ∀ {i j r s}, P i → P j → Occupies h i r → Occupies h j s → r.addr = s.addr → i = j

variable {h : Heap} {c : Catalogue} {pool : Pool} {P : Item → Prop} {F F' F'' : Found}
  {i j : Item}

/-- The function has been marked. -/
def Found.Marked (F : Found) (pool : Pool) (id : UInt64) : Prop :=
  (pool.get? id).isSome = true → F.marks.visited[id.toNat - 1]? = some true

/-- The item needs no further visit. -/
def Seen (h : Heap) (pool : Pool) (F : Found) : Item → Prop
  | .function id => F.Marked pool id
  | i => ∀ r, Occupies h i r → r ∈ F.living.regions

/-- The item has been entered. -/
def Entered (h : Heap) (pool : Pool) (F : Found) : Item → Prop
  | .function id => (pool.get? id).isSome = true ∧ F.marks.visited[id.toNat - 1]? = some true
  | i => ∃ r, Occupies h i r ∧ r ∈ F.living.regions

theorem Occupies.unique {r s : Region} (hr : Occupies h i r) (hs : Occupies h i s) : r = s := by
  cases hr with
  | object hn _ => cases hs with | object hn' _ => rw [hn] at hn'; cases hn'; rfl
  | type hn => cases hs with | type hn' => rw [hn] at hn'; cases hn'; rfl
  | node hn => cases hs with | node hn' => rw [hn] at hn'; cases hn'; rfl
  | vector hn => cases hs with | vector hn' => rw [hn] at hn'; cases hn'; rfl

/-- An item with words is seen once its region has been found. -/
theorem Occupies.seen {r : Region} (ho : Occupies h i r) (hr : r ∈ F.living.regions) :
    Seen h pool F i := by
  cases ho with
  | object hn h0 => exact fun s hs => (Occupies.object hn h0).unique hs ▸ hr
  | type hn => exact fun s hs => (Occupies.type hn).unique hs ▸ hr
  | node hn => exact fun s hs => (Occupies.node hn).unique hs ▸ hr
  | vector hn => exact fun s hs => (Occupies.vector hn).unique hs ▸ hr

theorem recordWords_ok_of_members {t : Ty} {ms : List Ty}
    (hk : h.kind t = .ok (some .concatenation)) (hms : h.members t = .ok ms) :
    ∃ n, h.recordWords t = .ok n := by
  rw [Heap.members, except_bind_ok hk] at hms
  obtain ⟨w, hw, -⟩ := of_except_bind_eq_ok hms
  refine ⟨2 + w, ?_⟩
  rw [Heap.recordWords, except_bind_ok hk]
  show (do return 2 + (← h.word (t + 1)) : Except Fault UInt64) = _
  rw [except_bind_ok hw]
  rfl

/-- What refers to something is a function or has words. -/
theorem Refers.entered (hij : Refers h pool i j) (hs : Seen h pool F i) :
    Entered h pool F i := by
  have htag : ∀ {n : Node} {tag : Tag}, h.tag n = .ok tag →
      ∃ k, Occupies h (.node n) ⟨n, k⟩ := fun ht =>
    ⟨_, .node (by rw [Heap.nodeWords, except_bind_ok ht]; rfl)⟩
  cases hij with
  | object hn h0 _ _ => exact ⟨_, .object hn h0, hs _ (.object hn h0)⟩
  | @elem t _ hk _ _ =>
    have hn : h.recordWords t = .ok 2 := by
      rw [Heap.recordWords, except_bind_ok hk]
      rfl
    exact ⟨_, .type hn, hs _ (.type hn)⟩
  | member hk hms _ _ =>
    obtain ⟨n, hn⟩ := recordWords_ok_of_members hk hms
    exact ⟨_, .type hn, hs _ (.type hn)⟩
  | preceding ht _ _ => obtain ⟨k, ho⟩ := htag ht; exact ⟨_, ho, hs _ ho⟩
  | literalType ht _ _ => obtain ⟨k, ho⟩ := htag ht; exact ⟨_, ho, hs _ ho⟩
  | literalObject ht _ _ => obtain ⟨k, ho⟩ := htag ht; exact ⟨_, ho, hs _ ho⟩
  | vector ht _ _ => obtain ⟨k, ho⟩ := htag ht; exact ⟨_, ho, hs _ ho⟩
  | element hn _ _ _ _ => exact ⟨_, .vector hn, hs _ (.vector hn)⟩
  | field ht _ _ _ _ _ => obtain ⟨k, ho⟩ := htag ht; exact ⟨_, ho, hs _ ho⟩
  | ast hf _ => exact ⟨by rw [hf]; rfl, hs (by rw [hf]; rfl)⟩
  | returnType hf _ => exact ⟨by rw [hf]; rfl, hs (by rw [hf]; rfl)⟩
  | paramType hf _ => exact ⟨by rw [hf]; rfl, hs (by rw [hf]; rfl)⟩

/-! ### Stretches of a search -/

/-- The regions found are in order, start in the arena and are counted; there is a mark for
    each slot. -/
structure Found.Good (F : Found) (h : Heap) (pool : Pool) : Prop where
  ordered : F.living.Ordered
  starts : ∀ r ∈ F.living.regions, r.addr.toNat < h.arena.words.size
  counted : F.living.words = UInt64.ofNat (F.living.regions.map (·.size.toNat)).sum
  slots : F.marks.visited.size = pool.slots.size

/-- How much there is left to find at most. -/
def Found.left (F : Found) (h : Heap) : Nat :=
  (h.arena.words.size - F.living.regions.length) + F.marks.visited.toList.count false

/-- Items that satisfy `P` and have the same words have the same references. -/
def Agreeing (h : Heap) (pool : Pool) (P : Item → Prop) : Prop :=
  ∀ i j r, P i → P j → Occupies h i r → Occupies h j r →
    ∀ k, Refers h pool i k → Refers h pool j k

/-- Where no address has two items, there is nothing to disagree on. -/
theorem Explorable.agreeing (hx : Explorable h c pool P) : Agreeing h pool P := by
  intro i j r hi hj ho ho' k hik
  rwa [← hx.unique hi hj ho ho' rfl]

/-- What a search reads of an object or of the record of a type before it follows the
    references can be read. -/
def Item.Readable (h : Heap) : Item → Prop
  | .object addr t => ∃ n ws, h.size t = .ok n ∧ h.slice addr n = .ok ws
  | .type t => h.kind t = .ok (some .concatenation) → ∃ ms, h.members t = .ok ms
  | _ => True

/-- A stretch of a search from `F` to `F'`. -/
structure Search (h : Heap) (pool : Pool) (P : Item → Prop) (F F' : Found) : Prop where
  good : F'.Good h pool
  left_le : F'.left h ≤ F.left h
  kept : ∀ r ∈ F.living.regions, r ∈ F'.living.regions
  marked : ∀ k : Nat, F.marks.visited[k]? = some true → F'.marks.visited[k]? = some true
  sound : ∀ r ∈ F'.living.regions, r ∈ F.living.regions ∨
    ∃ i, P i ∧ Occupies h i r ∧ i.Readable h
  sound_marks : ∀ id, (pool.get? id).isSome = true →
    F'.marks.visited[id.toNat - 1]? = some true →
    F.marks.visited[id.toNat - 1]? = some true ∨ P (.function id)
  closed : Agreeing h pool P → ∀ i, P i → Entered h pool F' i →
    Entered h pool F i ∨ ∀ j, Refers h pool i j → Seen h pool F' j

theorem Search.refl (hF : F.Good h pool) : Search h pool P F F :=
  ⟨hF, Nat.le_refl _, fun _ hr => hr, fun _ hk => hk, fun _ hr => Or.inl hr,
    fun _ _ hm => Or.inl hm, fun _ _ _ he => Or.inl he⟩

/-- What has been seen stays seen. -/
theorem Search.seen (hs : Search h pool P F F') (hi : Seen h pool F i) : Seen h pool F' i := by
  cases i with
  | function id => exact fun hf => hs.marked _ (hi hf)
  | _ => exact fun r ho => hs.kept r (hi r ho)

theorem Search.trans (hab : Search h pool P F F') (hbc : Search h pool P F' F'') :
    Search h pool P F F'' where
  good := hbc.good
  left_le := Nat.le_trans hbc.left_le hab.left_le
  kept r hr := hbc.kept r (hab.kept r hr)
  marked k hk := hbc.marked k (hab.marked k hk)
  sound r hr := (hbc.sound r hr).elim (hab.sound r) Or.inr
  sound_marks id hf hm := (hbc.sound_marks id hf hm).elim (hab.sound_marks id hf) Or.inr
  closed hag i hi he := by
    rcases hbc.closed hag i hi he with he | hall
    · rcases hab.closed hag i hi he with he | hall
      · exact Or.inl he
      · exact Or.inr fun j hij => hbc.seen (hall j hij)
    · exact Or.inr hall

/-! ### Entering an item -/

/-- One more region. -/
def Found.add (F : Found) (r : Region) : Found :=
  ⟨⟨Living.insertRegion r F.living.regions, F.living.words + r.size⟩, F.marks⟩

theorem Found.mem_add {r s : Region} :
    s ∈ (F.add r).living.regions ↔ s = r ∨ s ∈ F.living.regions := by
  rw [Found.add, (Living.insertRegion_perm r _).mem_iff, List.mem_cons]

/-- There are fewer regions than words. -/
theorem Found.Good.length_le (hF : F.Good h pool) :
    F.living.regions.length ≤ h.arena.words.size := by
  have hnodup : (F.living.regions.map (·.addr.toNat)).Nodup := by
    refine List.Pairwise.map _ ?_ hF.ordered
    intro x y hlt
    rw [UInt64.lt_iff_toNat_lt] at hlt
    omega
  have hsub : (F.living.regions.map (·.addr.toNat)).Subperm
      (List.range h.arena.words.size) := by
    refine List.subperm_of_subset hnodup ?_
    intro k hk
    obtain ⟨r, hr, rfl⟩ := List.mem_map.1 hk
    exact List.mem_range.2 (hF.starts r hr)
  simpa using hsub.length_le

theorem Found.Good.add (hF : F.Good h pool) {r : Region}
    (hnew : ∀ x ∈ F.living.regions, x.addr ≠ r.addr)
    (hstart : r.addr.toNat < h.arena.words.size) :
    (F.add r).Good h pool ∧ (F.add r).left h + 1 ≤ F.left h := by
  have hperm := Living.insertRegion_perm r F.living.regions
  have hgood : (F.add r).Good h pool := by
    refine ⟨Living.insertRegion_ordered hF.ordered hnew, ?_, ?_, hF.slots⟩
    · intro s hs
      rcases Found.mem_add.1 hs with rfl | hs
      · exact hstart
      · exact hF.starts s hs
    · show F.living.words + r.size
        = UInt64.ofNat ((Living.insertRegion r F.living.regions).map (·.size.toNat)).sum
      rw [(hperm.map (·.size.toNat)).sum_nat, List.map_cons, List.sum_cons, UInt64.ofNat_add,
        UInt64.ofNat_toNat, UInt64.add_comm, hF.counted]
  refine ⟨hgood, ?_⟩
  have hle := hgood.length_le
  have hlen : (F.add r).living.regions.length = F.living.regions.length + 1 := by
    rw [Found.add, hperm.length_eq, List.length_cons]
  unfold Found.left
  rw [hlen] at hle ⊢
  show _ + F.marks.visited.toList.count false + 1 ≤ _
  omega

/-- An item has been entered and everything it refers to has been seen. -/
theorem Search.enter (hF : F.Good h pool) {r : Region} (hi : P i) (ho : Occupies h i r)
    (hread : i.Readable h) (hnew : ∀ x ∈ F.living.regions, x.addr ≠ r.addr)
    (hstart : r.addr.toNat < h.arena.words.size) (hs : Search h pool P (F.add r) F')
    (hall : ∀ j, Refers h pool i j → Seen h pool F' j) : Search h pool P F F' where
  good := hs.good
  left_le := by
    have := hs.left_le
    have := (hF.add hnew hstart).2
    omega
  kept x hx := hs.kept x (Found.mem_add.2 (Or.inr hx))
  marked := hs.marked
  sound x hmem := by
    rcases hs.sound x hmem with hmem | hsound
    · rcases Found.mem_add.1 hmem with rfl | hmem
      · exact Or.inr ⟨i, hi, ho, hread⟩
      · exact Or.inl hmem
    · exact Or.inr hsound
  sound_marks := hs.sound_marks
  closed hag k hk he := by
    rcases hs.closed hag k hk he with he | hclosed
    · -- Either `k` was entered before, or it has the new words and leads where `i` leads.
      cases k with
      | function id => exact Or.inl he
      | _ =>
        obtain ⟨x, hox, hmem⟩ := he
        rcases Found.mem_add.1 hmem with rfl | hmem
        · exact Or.inr fun j hij => hall j (hag _ _ _ hk hi hox ho j hij)
        · exact Or.inl ⟨x, hox, hmem⟩
    · exact Or.inr hclosed

/-! ### Entering a function -/

/-- One more mark. -/
def Found.mark (F : Found) (id : UInt64) : Found :=
  ⟨F.living, ⟨F.marks.visited.setIfInBounds (id.toNat - 1) true⟩⟩

/-- A function of the pool has a slot. -/
theorem slot_lt {id : UInt64} (hf : (pool.get? id).isSome = true) :
    id ≠ 0 ∧ id.toNat - 1 < pool.slots.size := by
  unfold Pool.get? at hf
  split at hf
  · cases hf
  · rename_i h0
    refine ⟨h0, ?_⟩
    by_contra hge
    rw [Array.getElem?_eq_none (by omega)] at hf
    cases hf

theorem Found.getElem?_mark {id : UInt64} (hlt : id.toNat - 1 < F.marks.visited.size) (k : Nat) :
    (F.mark id).marks.visited[k]?
      = if k = id.toNat - 1 then some true else F.marks.visited[k]? := by
  simp only [Found.mark, Array.getElem?_setIfInBounds]
  by_cases hk : k = id.toNat - 1
  · rw [if_pos hk.symm, if_pos hlt, if_pos hk]
  · rw [if_neg (fun heq => hk heq.symm), if_neg hk]

theorem Found.Good.mark (hF : F.Good h pool) {id : UInt64} (hf : (pool.get? id).isSome = true)
    (hnew : F.marks.visited[id.toNat - 1]? = some false) :
    (F.mark id).Good h pool ∧ (F.mark id).left h + 1 ≤ F.left h := by
  have hlt := (slot_lt hf).2
  refine ⟨⟨hF.ordered, hF.starts, hF.counted, ?_⟩, ?_⟩
  · rw [Found.mark, Array.size_setIfInBounds]
    exact hF.slots
  · have hmem : false ∈ F.marks.visited.toList :=
      Array.mem_toList_iff.2 (Array.mem_of_getElem? hnew)
    have hpos := List.count_pos_iff.2 hmem
    have hget : F.marks.visited.toList[id.toNat - 1]? = some false := by
      rw [Array.getElem?_toList]
      exact hnew
    have hcount : (F.mark id).marks.visited.toList.count false + 1
        = F.marks.visited.toList.count false := by
      simp only [Found.mark, Array.toList_setIfInBounds]
      obtain ⟨hlt', hval⟩ := List.getElem?_eq_some_iff.1 hget
      rw [List.count_set hlt', hval, if_pos (by decide), if_neg (by decide)]
      omega
    unfold Found.left
    rw [← hcount]
    show h.arena.words.size - F.living.regions.length + _ + 1 ≤ _
    omega

/-- Two functions of the pool with one slot are the same. -/
theorem slot_inj {id id' : UInt64} (hf : (pool.get? id).isSome = true)
    (hf' : (pool.get? id').isSome = true) (heq : id.toNat - 1 = id'.toNat - 1) : id = id' := by
  have hpos := Arena.toNat_pos_iff.2 (slot_lt hf).1
  have hpos' := Arena.toNat_pos_iff.2 (slot_lt hf').1
  apply UInt64.toNat.inj
  omega

/-- A function has been entered and everything it refers to has been seen. -/
theorem Search.enterFunction (hF : F.Good h pool) {id : UInt64} (hi : P (.function id))
    (hf : (pool.get? id).isSome = true) (hnew : F.marks.visited[id.toNat - 1]? = some false)
    (hs : Search h pool P (F.mark id) F')
    (hall : ∀ j, Refers h pool (.function id) j → Seen h pool F' j) : Search h pool P F F' := by
  have hlt : id.toNat - 1 < F.marks.visited.size := by
    rw [hF.slots]
    exact (slot_lt hf).2
  refine ⟨hs.good, ?_, hs.kept, ?_, hs.sound, ?_, ?_⟩
  · have := hs.left_le
    have := (hF.mark hf hnew).2
    omega
  · intro k hk
    refine hs.marked k ?_
    rw [Found.getElem?_mark hlt]
    split
    · rfl
    · exact hk
  · intro id' hf' hm
    rcases hs.sound_marks id' hf' hm with hm | hp
    · rw [Found.getElem?_mark hlt] at hm
      split at hm
      · rename_i heq
        exact Or.inr (slot_inj hf' hf heq ▸ hi)
      · exact Or.inl hm
    · exact Or.inr hp
  · intro hag k hk he
    rcases hs.closed hag k hk he with he | hclosed
    · -- Either `k` was entered before, or it is the function itself.
      cases k with
      | function id' =>
        obtain ⟨hf', hm⟩ := he
        rw [Found.getElem?_mark hlt] at hm
        split at hm
        · rename_i heq
          cases slot_inj hf' hf heq
          exact Or.inr hall
        · exact Or.inl ⟨hf', hm⟩
      | _ => exact Or.inl he
    · exact Or.inr hclosed

/-- Visiting a function marks it, unless there is none or it has a mark. -/
theorem visitFunction_yields (hF : F.Good h pool) (id : UInt64) :
    Yields (visitFunction pool id) F
      (fun enter F' => (enter = false ∧ F' = F ∧ F.Marked pool id) ∨
        (enter = true ∧ F' = F.mark id ∧ (pool.get? id).isSome = true ∧
          F.marks.visited[id.toNat - 1]? = some false))
      (fun _ _ => False) := by
  by_cases hv : (pool.get? id).isSome = true ∧ F.marks.visited[id.toNat - 1]? = some false
  · have hrun : visitFunction pool id F = .ok true (F.mark id) := by
      simp [visitFunction, Pool.visit, hv.1, hv.2, Found.mark]
    exact Yields.of_ok hrun (Or.inr ⟨rfl, rfl, hv⟩)
  · have hrun : visitFunction pool id F = .ok false F := by
      have hcond : ((pool.get? id).isSome && F.marks.visited[id.toNat - 1]? == some false)
          = false := by
        rw [Bool.eq_false_iff]
        intro htrue
        rw [Bool.and_eq_true, beq_iff_eq] at htrue
        exact hv htrue
      simp [visitFunction, Pool.visit, hcond]
    refine Yields.of_ok hrun (Or.inl ⟨rfl, rfl, fun hf => ?_⟩)
    have hlt : id.toNat - 1 < F.marks.visited.size := by
      rw [hF.slots]
      exact (slot_lt hf).2
    have hne : F.marks.visited[id.toNat - 1]? ≠ some false := fun hm => hv ⟨hf, hm⟩
    rw [Array.getElem?_eq_getElem hlt] at hne ⊢
    cases hb : F.marks.visited[id.toNat - 1] with
    | true => rfl
    | false => exact absurd (congrArg some hb) hne

end TreeMachine.Collect
