import TreeMachine.Proofs.Code.Bounds
import TreeMachine.Proofs.Code.Jumps
import TreeMachine.Proofs.Code.Programs

/-! # Modules on their way to well-formed code

  While a module is under construction its code is in bounds and some blocks wait for their
  ends.  Each step of construction keeps this, adds bounds and never takes any away.  Main
  statements: what each step does to a module on its way, and that the program of a module
  in which no block waits is well formed.
-/

namespace TreeMachine.Code

/-! ### Registers in demand -/

/-- The number of registers that a block sets. -/
def Block.demand (b : Block) : Nat :=
  (b.code.toList.map (·.dst.words.toNat)).sum + (b.phis.toList.map (·.dst.words.toNat)).sum

theorem sum_map_modify {α : Type} (g : α → Nat) (f : α → α) {l : List α} {i : Nat} {x : α}
    (hx : l[i]? = some x) : ((l.modify i f).map g).sum + g x = (l.map g).sum + g (f x) := by
  induction l generalizing i with
  | nil => cases hx
  | cons y rest ih =>
    cases i with
    | zero =>
      cases hx
      simp only [List.modify_zero_cons, List.map_cons, List.sum_cons]
      omega
    | succ i =>
      have := ih hx
      simp only [List.modify_succ_cons, List.map_cons, List.sum_cons]
      omega

namespace Module

/-- The number of registers that the code of a module sets.  The module counts them modulo
    the word size. -/
def demand (m : Module) : Nat := (m.blocks.toList.map Block.demand).sum

theorem demand_modify {m m' : Module} {i : Nat} {f : Block → Block} {b : Block}
    (hb : m.blocks[i]? = some b) (hm' : m'.blocks = m.blocks.modify i f) :
    m'.demand + b.demand = m.demand + (f b).demand := by
  rw [demand, demand, hm', Array.toList_modify]
  exact sum_map_modify _ _ (by rw [Array.getElem?_toList]; exact hb)

/-- What there is in a module, for a host with the functions of `H`. -/
def bounds (m : Module) (H : Services) : Bounds where
  value v n := ∃ r, v = Value.run r n ∧ r + n ≤ m.demand
  slot k off n := ∃ (j o : Nat) (size : Int), k = j ∧ off = o ∧ m.slots[j]? = some size ∧
    (o + n : Nat) ≤ size
  block i := ∃ j : Nat, i = j ∧ j < m.blocks.size
  result n := m.returns = some (n : Int)
  service := H

variable {H : Services}

/-! ### Growing modules -/

/-- Everything there is in `m` is still there in `m'`, and blocks that have ended are the
    same. -/
structure Later (m m' : Module) : Prop where
  blocks : ∀ (i : Nat) (b : Block), m.blocks[i]? = some b →
    ∃ b', m'.blocks[i]? = some b' ∧ (b.terminated = true → b' = b)
  slots : ∀ (k : Nat) (size : Int), m.slots[k]? = some size →
    ∃ size', m'.slots[k]? = some size' ∧ size ≤ size'
  demand : m.demand ≤ m'.demand
  returns : ∀ n, m.returns = some n → m'.returns = some n

namespace Later

variable {m m' m'' : Module}

theorem refl (m : Module) : Later m m :=
  ⟨fun _ b hb => ⟨b, hb, fun _ => rfl⟩, fun _ size hk => ⟨size, hk, Int.le_refl _⟩,
    Nat.le_refl _, fun _ h => h⟩

theorem trans (h : Later m m') (h' : Later m' m'') : Later m m'' where
  blocks i b hb := by
    obtain ⟨b₁, hb₁, heq⟩ := h.blocks i b hb
    obtain ⟨b₂, hb₂, heq'⟩ := h'.blocks i b₁ hb₁
    refine ⟨b₂, hb₂, fun ht => ?_⟩
    have := heq ht
    subst this
    exact heq' ht
  slots := SlotsLe.trans h.slots h'.slots
  demand := Nat.le_trans h.demand h'.demand
  returns n hn := h'.returns n (h.returns n hn)

theorem size_le (h : Later m m') : m.blocks.size ≤ m'.blocks.size := by
  by_contra hlt
  obtain ⟨b', hb', -⟩ := h.blocks m'.blocks.size _ (Array.getElem?_eq_getElem (by omega))
  rw [Array.getElem?_eq_none (Nat.le_refl _)] at hb'
  cases hb'

theorem bounds (h : Later m m') : (m.bounds H).Le (m'.bounds H) where
  value := by
    rintro v n ⟨r, hv, hr⟩
    exact ⟨r, hv, Nat.le_trans hr h.demand⟩
  slot := by
    rintro k off n ⟨j, o, size, hk, hoff, hsize, hle⟩
    obtain ⟨size', hsize', hle'⟩ := h.slots j size hsize
    exact ⟨j, o, size', hk, hoff, hsize', Int.le_trans hle hle'⟩
  block := by
    rintro i ⟨j, hi, hj⟩
    exact ⟨j, hi, Nat.lt_of_lt_of_le hj h.size_le⟩
  result := fun hn => h.returns _ hn
  service := id

end Later

/-! ### The invariant -/

/-- The code of the module is in bounds, and a block ends at most once. -/
structure Lawful (m : Module) (H : Services) : Prop where
  closed : m.closed = false
  error : m.error = none
  returns : m.returns = none
  count : m.registers = wrap m.demand
  sizes : ∀ (k : Nat) (size : Int), m.slots[k]? = some size → 0 ≤ size
  instrs : ∀ (i : Nat) (b : Block), m.blocks[i]? = some b →
    ∀ x ∈ b.code.toList, x.Within (m.bounds H)
  phis : ∀ (i : Nat) (b : Block), m.blocks[i]? = some b →
    ∀ φ ∈ b.phis.toList, φ.Merges (m.bounds H) m.blocks i
  ends : ∀ (i : Nat) (b : Block), m.blocks[i]? = some b → b.terminated = true → b.EndsOnce
  onward : ∀ (i : Nat) (b : Block), m.blocks[i]? = some b → b.terminated = false →
    ∀ x ∈ b.code.toList, x.opcode.terminates = false

/-- The module is on its way, and exactly the blocks of `U` wait for their ends. -/
structure Underway (m : Module) (H : Services) (U : List Nat) : Prop extends Lawful m H where
  nodup : U.Nodup
  waiting : ∀ i, i ∈ U ↔ ∃ b, m.blocks[i]? = some b ∧ b.terminated = false

variable {m m' : Module} {U P : List Nat}

theorem Underway.perm (h : m.Underway H U) {U' : List Nat} (hU : U.Perm U') : m.Underway H U' where
  toLawful := h.toLawful
  nodup := hU.nodup_iff.1 h.nodup
  waiting i := by rw [← hU.mem_iff]; exact h.waiting i

theorem Underway.opened (h : m.Underway H U) (hcur : m.cur ∈ U) : m.Open :=
  ⟨(h.waiting _).1 hcur, h.closed, h.error, h.returns, h.sizes⟩

/-- A block that ends with a jump still does. -/
theorem Lawful.jumpsTo (h : m.Lawful H) (hl : Later m m') {a : Int} {i : Nat}
    (hj : JumpsTo m.blocks a i) : JumpsTo m'.blocks a i := by
  obtain ⟨j, b, ha, hb, hlast⟩ := hj
  obtain ⟨b', hb', heq⟩ := hl.blocks j b hb
  refine ⟨j, b', ha, hb', ?_⟩
  rw [heq, hlast]
  -- A block that goes on holds no jump.
  by_contra hgo
  have hmem : (.branch i : Instr) ∈ b.code.toList := by
    rw [Array.back?_eq_getElem?, ← Array.getElem?_toList] at hlast
    exact List.mem_of_getElem? hlast
  have := h.onward j b hb (by simpa using hgo) _ hmem
  cases this

theorem Lawful.merges (h : m.Lawful H) (hl : Later m m') {i : Nat} {φ : Phi}
    (hφ : φ.Merges (m.bounds H) m.blocks i) : φ.Merges (m'.bounds H) m'.blocks i := by
  obtain ⟨n, a, b, v, v', heq, hdst, hv, hv', ha, hb⟩ := hφ
  exact ⟨n, a, b, v, v', heq, hl.bounds.value hdst, hl.bounds.value hv, hl.bounds.value hv',
    h.jumpsTo hl ha, h.jumpsTo hl hb⟩

/-- A block that waits for its end has been replaced by `b'`, which holds the same and what
    is in bounds. -/
structure Replaces (m m' : Module) (b b' : Block) : Prop where
  here : m.blocks[m.cur]? = some b
  waits : b.terminated = false
  here' : m'.blocks[m.cur]? = some b'
  other : ∀ i, i ≠ m.cur → m'.blocks[i]? = m.blocks[i]?
  slots : ∀ (k : Nat) (size : Int), m.slots[k]? = some size →
    ∃ size', m'.slots[k]? = some size' ∧ size ≤ size'
  demand : m.demand ≤ m'.demand
  returns : m'.returns = m.returns

namespace Replaces

variable {b b' : Block}

theorem later (h : Replaces m m' b b') : Later m m' where
  blocks i b₁ hb₁ := by
    by_cases hi : i = m.cur
    · subst hi
      cases h.here.symm.trans hb₁
      exact ⟨b', h.here', fun ht => by rw [h.waits] at ht; cases ht⟩
    · exact ⟨b₁, (h.other i hi).trans hb₁, fun _ => rfl⟩
  slots := h.slots
  demand := h.demand
  returns n hn := by rw [h.returns, hn]

theorem lawful (h : Replaces m m' b b') (hm : m.Lawful H) (hclosed : m'.closed = m.closed)
    (herror : m'.error = m.error) (hcount : m'.registers = wrap m'.demand)
    (hsizes : ∀ (k : Nat) (size : Int), m'.slots[k]? = some size → 0 ≤ size)
    (hinstrs : ∀ x ∈ b'.code.toList, x ∈ b.code.toList ∨ x.Within (m'.bounds H))
    (hphis : ∀ φ ∈ b'.phis.toList, φ ∈ b.phis.toList ∨ φ.Merges (m'.bounds H) m'.blocks m.cur)
    (hends : b'.terminated = true → b'.EndsOnce)
    (honward : b'.terminated = false → ∀ x ∈ b'.code.toList, x.opcode.terminates = false) :
    m'.Lawful H where
  closed := hclosed.trans hm.closed
  error := herror.trans hm.error
  returns := h.returns.trans hm.returns
  count := hcount
  sizes := hsizes
  instrs i b₁ hb₁ x hx := by
    by_cases hi : i = m.cur
    · subst hi
      cases h.here'.symm.trans hb₁
      rcases hinstrs x hx with hold | hnew
      · exact (hm.instrs _ b h.here x hold).mono h.later.bounds
      · exact hnew
    · rw [h.other i hi] at hb₁
      exact (hm.instrs i b₁ hb₁ x hx).mono h.later.bounds
  phis i b₁ hb₁ φ hφ := by
    by_cases hi : i = m.cur
    · subst hi
      cases h.here'.symm.trans hb₁
      rcases hphis φ hφ with hold | hnew
      · exact hm.merges h.later (hm.phis _ b h.here φ hold)
      · exact hnew
    · rw [h.other i hi] at hb₁
      exact hm.merges h.later (hm.phis i b₁ hb₁ φ hφ)
  ends i b₁ hb₁ ht := by
    by_cases hi : i = m.cur
    · subst hi
      cases h.here'.symm.trans hb₁
      exact hends ht
    · rw [h.other i hi] at hb₁
      exact hm.ends i b₁ hb₁ ht
  onward i b₁ hb₁ ht := by
    by_cases hi : i = m.cur
    · subst hi
      cases h.here'.symm.trans hb₁
      exact honward ht
    · rw [h.other i hi] at hb₁
      exact hm.onward i b₁ hb₁ ht

/-- The block still waits. -/
theorem still (h : Replaces m m' b b') (hm : m.Underway H U) (hm' : m'.Lawful H)
    (ht : b'.terminated = false) : m'.Underway H U where
  toLawful := hm'
  nodup := hm.nodup
  waiting i := by
    rw [hm.waiting i]
    by_cases hi : i = m.cur
    · subst hi
      exact ⟨fun _ => ⟨b', h.here', ht⟩, fun _ => ⟨b, h.here, h.waits⟩⟩
    · rw [h.other i hi]

/-- The block has ended. -/
theorem ended (h : Replaces m m' b b') (hm : m.Underway H (m.cur :: P)) (hm' : m'.Lawful H)
    (ht : b'.terminated = true) : m'.Underway H P where
  toLawful := hm'
  nodup := (List.nodup_cons.1 hm.nodup).2
  waiting i := by
    by_cases hi : i = m.cur
    · subst hi
      refine ⟨fun hmem => absurd hmem (List.nodup_cons.1 hm.nodup).1, ?_⟩
      rintro ⟨b₁, hb₁, ht₁⟩
      cases h.here'.symm.trans hb₁
      rw [ht] at ht₁
      cases ht₁
    · rw [h.other i hi, ← hm.waiting i, List.mem_cons]
      exact ⟨Or.inr, fun hmem => hmem.resolve_left hi⟩

end Replaces

/-- Construction goes on from `m` to `m'`; the current block waits for its end and so do
    those of `P`. -/
structure Builds (H : Services) (m m' : Module) (P : List Nat) : Prop where
  underway : m'.Underway H (m'.cur :: P)
  later : Later m m'
  cur : m'.cur = m.cur

theorem Builds.refl (h : m.Underway H (m.cur :: P)) : Builds H m m P := ⟨h, .refl m, rfl⟩

/-! ### Adding instructions -/

theorem demand_add {i : Instr} {b : Block} (hb : m.blocks[m.cur]? = some b)
    (ht : b.terminated = false) : (m.add i).demand = m.demand + i.dst.words.toNat := by
  have h := @demand_modify m (m.add i) m.cur (pushInstr i) b hb rfl
  simp only [Block.demand, pushInstr, ht, Bool.false_eq_true, if_false, Array.toList_push,
    List.map_append, List.map_singleton, List.sum_append, List.sum_singleton] at h
  omega

/-- An instruction has been added, and registers may have been handed out and slots
    enlarged. -/
theorem Underway.replaces (h : m.Underway H (m.cur :: P)) {i : Instr} {registers : Int}
    {slots : Array Int}
    (hslots : ∀ (k : Nat) (size : Int), m.slots[k]? = some size →
      ∃ size', slots[k]? = some size' ∧ size ≤ size') :
    ∃ b, Replaces m { m.add i with registers, slots } b
      { b with code := b.code.push i, terminated := i.opcode.terminates } ∧
      ({ m.add i with registers, slots } : Module).demand = m.demand + i.dst.words.toNat := by
  obtain ⟨b, hb, ht⟩ := (h.waiting _).1 List.mem_cons_self
  have hd : ({ m.add i with registers, slots } : Module).demand = m.demand + i.dst.words.toNat :=
    demand_add hb ht
  exact ⟨b, ⟨hb, ht, add_here hb ht, fun _ hj => add_other hj, hslots,
    by rw [hd]; exact Nat.le_add_right _ _, rfl⟩, hd⟩

/-- Adding an instruction that leads on to the next one. -/
theorem Underway.add (h : m.Underway H (m.cur :: P)) {i : Instr} (hi : i.opcode.terminates = false)
    {registers : Int} {slots : Array Int}
    (hc : registers = wrap ((m.demand + i.dst.words.toNat : Nat) : Int))
    (hslots : ∀ (k : Nat) (size : Int), m.slots[k]? = some size →
      ∃ size', slots[k]? = some size' ∧ size ≤ size')
    (hsizes : ∀ (k : Nat) (size : Int), slots[k]? = some size → 0 ≤ size)
    (hwithin : Later m { m.add i with registers, slots } →
      i.Within (({ m.add i with registers, slots } : Module).bounds H)) :
    Builds H m { m.add i with registers, slots } P := by
  obtain ⟨b, hr, hd⟩ := @Underway.replaces H m P h i registers slots hslots
  have honward := h.onward _ b hr.here hr.waits
  refine ⟨hr.still h ?_ hi, hr.later, rfl⟩
  refine hr.lawful h.toLawful rfl rfl (by rw [hd]; exact hc) hsizes ?_ ?_ ?_ ?_
  · intro x hx
    rw [Array.toList_push, List.mem_append, List.mem_singleton] at hx
    rcases hx with hx | rfl
    · exact Or.inl hx
    · exact Or.inr (hwithin hr.later)
  · exact fun φ hφ => Or.inl hφ
  · intro ht
    rw [hi] at ht
    cases ht
  · intro _ x hx
    rw [Array.toList_push, List.mem_append, List.mem_singleton] at hx
    rcases hx with hx | rfl
    · exact honward x hx
    · exact hi

/-- Adding an instruction that ends the current block. -/
theorem Underway.finish (h : m.Underway H (m.cur :: P)) {i : Instr}
    (hi : i.opcode.terminates = true)
    (hdst : i.dst.words = 0) (hwithin : i.Within (m.bounds H)) :
    (m.add i).Underway H P ∧ Later m (m.add i) ∧
      ∃ b, (m.add i).blocks[m.cur]? = some b ∧ b.code.back? = some i := by
  obtain ⟨b, hr, hd⟩ := @Underway.replaces H m P h i m.registers m.slots
    fun k size hk => ⟨size, hk, Int.le_refl _⟩
  have hr : Replaces m (m.add i) b
    { b with code := b.code.push i, terminated := i.opcode.terminates } := hr
  have hd : (m.add i).demand = m.demand := by
    refine (hd : (m.add i).demand = _).trans ?_
    rw [hdst]
    rfl
  have honward := h.onward _ b hr.here hr.waits
  refine ⟨hr.ended h ?_ hi, hr.later, _, hr.here', by simp⟩
  refine hr.lawful h.toLawful rfl rfl (by rw [hd]; exact h.count) h.sizes ?_ ?_ ?_ ?_
  · intro x hx
    rw [Array.toList_push, List.mem_append, List.mem_singleton] at hx
    rcases hx with hx | rfl
    · exact Or.inl hx
    · exact Or.inr (hwithin.mono hr.later.bounds)
  · exact fun φ hφ => Or.inl hφ
  · intro _
    exact ⟨b.code.toList, i, by simp, hi, honward⟩
  · intro ht
    rw [hi] at ht
    cases ht

/-! ### Steps that add an instruction -/

section Steps

variable {v v' : Value} {w n : Nat}

theorem Underway.isOpen (h : m.Underway H (m.cur :: P)) : m.Open := h.opened List.mem_cons_self

/-- Handing out `w` registers for what an instruction sets. -/
theorem Underway.addFresh (h : m.Underway H (m.cur :: P)) {i : Instr}
    (hi : i.opcode.terminates = false) (hdst : i.dst = Value.run m.demand w) {registers : Int}
    (hc : registers = wrap ((m.demand + w : Nat) : Int))
    (hwithin : ∀ m', Later m m' → (m'.bounds H).value (Value.run m.demand w) w →
      i.Within (m'.bounds H)) :
    Builds H m { m.add i with registers } P ∧
      (({ m.add i with registers } : Module).bounds H).value (Value.run m.demand w) w := by
  have hwords : i.dst.words.toNat = w := by
    rw [hdst, Value.words_run]
    rfl
  obtain ⟨b, hr, hd⟩ := @Underway.replaces H m P h i registers m.slots
    fun k size hk => ⟨size, hk, Int.le_refl _⟩
  have hvalue :
      (({ m.add i with registers } : Module).bounds H).value (Value.run m.demand w) w := by
    refine ⟨m.demand, rfl, ?_⟩
    rw [← hwords]
    exact Nat.le_of_eq hd.symm
  refine ⟨h.add hi (by rw [hwords]; exact hc) (fun k size hk => ⟨size, hk, Int.le_refl _⟩)
    h.sizes ?_, hvalue⟩
  exact fun hl => hwithin _ hl hvalue

theorem void_within (m : Module) : (m.bounds H).value .void 0 :=
  ⟨0, rfl, Nat.zero_le _⟩

/-- A value of `n` words has that many registers. -/
theorem words_within (hv : (m.bounds H).value v n) : v.words = n := by
  obtain ⟨r, rfl, -⟩ := hv
  exact Value.words_run r n

/-- Handing out registers, and then an instruction that sets them, unless there are none. -/
def setFresh (w : Int) (i : Value → Instr) : Build Value := do
  let v ← fresh w
  if !v.isVoid then emit (i v)
  return v

theorem Underway.setFresh (h : m.Underway H (m.cur :: P)) (w : Nat) (i : Value → Instr)
    (hi : ∀ v, (i v).opcode.terminates = false) (hdst : ∀ v, (i v).dst = v)
    (hwithin : ∀ m' v, Later m m' → (m'.bounds H).value v w → (i v).Within (m'.bounds H)) :
    ∃ v m', Module.setFresh w i m = (v, m') ∧ Builds H m m' P ∧ (m'.bounds H).value v w := by
  obtain ⟨n, hn, hfresh⟩ := fresh_eq h.count w
  by_cases hw : w = 0
  · subst hw
    exact ⟨.void, m, rfl, .refl h, m.void_within⟩
  · refine ⟨Value.run m.demand w, { m.add (i (Value.run m.demand w)) with registers := n }, ?_, ?_⟩
    · unfold Module.setFresh
      rw [bind_eq hfresh]
      dsimp only
      rw [if_pos (not_isVoid_run (by omega)), bind_eq (emit_eq (h.isOpen.setRegisters n) _)]
      rfl
    · exact h.addFresh (hi _) (hdst _) hn fun m' => hwithin m' _

theorem Underway.const (h : m.Underway H (m.cur :: P)) (ws : List UInt64) :
    ∃ v m', Module.const ws m = (v, m') ∧ Builds H m m' P ∧ (m'.bounds H).value v ws.length :=
  h.setFresh ws.length (.const · ws) (fun _ => rfl) (fun _ => rfl) fun _ _ _ hv => hv

theorem Underway.loadIndirect (h : m.Underway H (m.cur :: P)) {addr : Value}
    (haddr : (m.bounds H).value addr 1) (w : Nat) :
    ∃ v m', Module.loadIndirect addr w m = (v, m') ∧ Builds H m m' P ∧ (m'.bounds H).value v w :=
  h.setFresh w (.loadIndirect · addr) (fun _ => rfl) (fun _ => rfl)
    fun _ _ hl hv => ⟨⟨w, hv⟩, hl.bounds.value haddr⟩

theorem Underway.binary (h : m.Underway H (m.cur :: P)) (op : BinaryOp)
    (hv : (m.bounds H).value v 1) (hv' : (m.bounds H).value v' 1) :
    ∃ u m', Module.binary op v v' m = (u, m') ∧ Builds H m m' P ∧ (m'.bounds H).value u 1 := by
  obtain ⟨n, hn, hfresh⟩ := fresh_one h.count
  have hwidth : ¬ (v.words ≠ 1 ∨ v'.words ≠ 1) := by
    simp [words_within hv, words_within hv']
  refine ⟨Value.run m.demand 1, { m.add (.binary op (Value.run m.demand 1) v v') with
    registers := n }, ?_, ?_⟩
  · unfold Module.binary
    rw [if_neg hwidth]
    dsimp only
    rw [bind_eq hfresh, bind_eq (emit_eq (h.isOpen.setRegisters n) _)]
    rfl
  · exact h.addFresh rfl rfl hn fun m' hl hu => ⟨hu, hl.bounds.value hv, hl.bounds.value hv'⟩

theorem Underway.address (h : m.Underway H (m.cur :: P)) {k off : Int}
    (hk : (m.bounds H).slot k off 0) :
    ∃ u m', Module.address k off m = (u, m') ∧ Builds H m m' P ∧ (m'.bounds H).value u 1 := by
  obtain ⟨n, hn, hfresh⟩ := fresh_one h.count
  refine ⟨Value.run m.demand 1, { m.add (.address (Value.run m.demand 1) k off) with
    registers := n }, ?_, ?_⟩
  · unfold Module.address
    rw [bind_eq hfresh, bind_eq (emit_eq (h.isOpen.setRegisters n) _)]
    rfl
  · exact h.addFresh rfl rfl hn fun m' hl hu => ⟨hu, hl.bounds.slot hk⟩

theorem Underway.call (h : m.Underway H (m.cur :: P)) {host : String} {args : List Value}
    {ns : List Nat} (hargs : List.Forall₂ (m.bounds H).value args ns) (hhost : H host ns.sum w) :
    ∃ u m', Module.call host args w m = (u, m') ∧ Builds H m m' P ∧ (m'.bounds H).value u w := by
  obtain ⟨n, hn, hfresh⟩ := fresh_eq h.count w
  refine ⟨Value.run m.demand w, { m.add (.call (Value.run m.demand w) host args) with
    registers := n }, ?_, ?_⟩
  · unfold Module.call
    rw [bind_eq hfresh, bind_eq (emit_eq (h.isOpen.setRegisters n) _)]
    rfl
  · exact h.addFresh rfl rfl hn fun m' hl hu =>
      ⟨ns, w, hargs.imp fun _ _ => hl.bounds.value, hu, hhost⟩

/-- Adding an instruction that sets nothing. -/
theorem Underway.emit (h : m.Underway H (m.cur :: P)) {i : Instr} (hi : i.opcode.terminates = false)
    (hdst : i.dst.words = 0) (hwithin : i.Within (m.bounds H)) :
    ∃ m', Module.emit i m = ((), m') ∧ Builds H m m' P := by
  refine ⟨m.add i, emit_eq h.isOpen i, ?_⟩
  refine h.add hi ?_ (fun k size hk => ⟨size, hk, Int.le_refl _⟩) h.sizes fun hl =>
    hwithin.mono hl.bounds
  rw [hdst]
  exact h.count

theorem Underway.storeIndirect (h : m.Underway H (m.cur :: P)) {addr : Value}
    (haddr : (m.bounds H).value addr 1) (hv : (m.bounds H).value v n) :
    ∃ m', Module.storeIndirect addr v m = ((), m') ∧ Builds H m m' P := by
  unfold Module.storeIndirect
  split
  · exact h.emit rfl rfl ⟨haddr, n, hv⟩
  · exact ⟨m, rfl, .refl h⟩

/-! ### Slots -/

/-- Changing the slots, which only grow. -/
theorem Underway.setSlots (h : m.Underway H (m.cur :: P)) {slots : Array Int}
    (hslots : ∀ (k : Nat) (size : Int), m.slots[k]? = some size →
      ∃ size', slots[k]? = some size' ∧ size ≤ size')
    (hsizes : ∀ (k : Nat) (size : Int), slots[k]? = some size → 0 ≤ size) :
    Builds H m { m with slots } P := by
  have hl : Later m { m with slots } :=
    ⟨fun _ b hb => ⟨b, hb, fun _ => rfl⟩, hslots, Nat.le_refl _, fun _ hn => hn⟩
  refine ⟨⟨⟨h.closed, h.error, h.returns, h.count, hsizes, ?_, ?_, h.ends, h.onward⟩, h.nodup,
    h.waiting⟩, hl, rfl⟩
  · exact fun i b hb x hx => (h.instrs i b hb x hx).mono hl.bounds
  · exact fun i b hb φ hφ => h.merges hl (h.phis i b hb φ hφ)

theorem Underway.alloca (h : m.Underway H (m.cur :: P)) :
    ∃ (k : Nat) (m' : Module), Module.alloca m = (k, m') ∧ Builds H m m' P ∧
      (m'.bounds H).slot k 0 0 := by
  refine ⟨m.slots.size, { m with slots := m.slots.push 0 }, rfl, ?_, ?_⟩
  · have hem := alloca_emits h.isOpen h.count
    exact h.setSlots hem.grows.slots hem.opened.sizes
  · exact ⟨m.slots.size, 0, 0, rfl, rfl, Array.getElem?_push_size, Int.le_refl _⟩

theorem Underway.reserve (h : m.Underway H (m.cur :: P)) {k off : Nat}
    (hk : ∃ off' n', (m.bounds H).slot k off' n') (n : Nat) :
    ∃ m', Module.reserve k ((off : Int) + n) m = ((), m') ∧ Builds H m m' P ∧
      (m'.bounds H).slot k off n := by
  obtain ⟨off', n', j, o, size, hj, -, hsize, -⟩ := hk
  cases Int.ofNat.inj hj
  have hlt := (Array.getElem?_eq_some_iff.1 hsize).1
  have hem := reserve_emits h.isOpen h.count k ((off : Int) + n)
  refine ⟨_, reserve_eq hlt _, h.setSlots hem.grows.slots hem.opened.sizes, ?_⟩
  refine ⟨k, off, max size ((off : Int) + n), rfl, rfl, ?_, ?_⟩
  · rw [Array.getElem?_modify, if_pos rfl, hsize]
    rfl
  · rw [Int.natCast_add]
    exact Int.le_max_right _ _

/-- What is in bounds has been reserved. -/
theorem reserve_within {k off : Int} (hk : (m.bounds H).slot k off n) :
    Module.reserve k (wrap (off + n)) m = ((), m) := by
  obtain ⟨j, o, size, rfl, rfl, hsize, hle⟩ := hk
  refine reserve_of_le hsize (Int.le_trans ?_ hle)
  rw [← Int.natCast_add]
  exact wrap_le _

theorem Underway.load (h : m.Underway H (m.cur :: P)) {k off : Int}
    (hk : (m.bounds H).slot k off w) :
    ∃ u m', Module.load k off w m = (u, m') ∧ Builds H m m' P ∧ (m'.bounds H).value u w := by
  have heq : Module.load k off w m = Module.setFresh w (.load · k off) m := by
    obtain ⟨n, hn, hfresh⟩ := fresh_eq h.count w
    have hreserve : Module.reserve k (wrap (off + w)) { m with registers := n }
      = ((), { m with registers := n }) := reserve_within hk
    unfold Module.load Module.setFresh
    rw [bind_eq hfresh, bind_eq hfresh]
    split
    · rw [bind_eq hreserve]
    · rfl
  rw [heq]
  exact h.setFresh w (.load · k off) (fun _ => rfl) (fun _ => rfl)
    fun _ _ hl hv => ⟨w, hv, hl.bounds.slot hk⟩

theorem Underway.store (h : m.Underway H (m.cur :: P)) {k off : Int}
    (hk : (m.bounds H).slot k off w) (hv : (m.bounds H).value v w) :
    ∃ m', Module.store k off v m = ((), m') ∧ Builds H m m' P := by
  unfold Module.store
  split
  · exact ⟨m, rfl, .refl h⟩
  · rw [words_within hv, bind_eq (reserve_within hk)]
    exact h.emit rfl rfl ⟨w, hv, hk⟩

end Steps

/-! ### Blocks -/

/-- A new block waits for its end. -/
theorem Underway.newBlock (h : m.Underway H U) (name : String) :
    ∃ (i : Nat) (m' : Module), Module.newBlock name m = (i, m') ∧ m'.Underway H (i :: U) ∧
      Later m m' ∧ m'.cur = m.cur ∧ (m'.bounds H).block i := by
  have hl : Later m { m with blocks := m.blocks.push (emptyBlock name) } := by
    refine ⟨fun i b hb => ⟨b, ?_, fun _ => rfl⟩, fun k size hk => ⟨size, hk, Int.le_refl _⟩, ?_,
      fun _ hn => hn⟩
    · have hlt := (Array.getElem?_eq_some_iff.1 hb).1
      rw [Array.getElem?_push, if_neg (by omega), hb]
    · simp [Module.demand]
  have hcases : ∀ (i : Nat) (b : Block), (m.blocks.push (emptyBlock name))[i]? = some b →
      (i = m.blocks.size ∧ b = emptyBlock name) ∨ m.blocks[i]? = some b := by
    intro i b hb
    rw [Array.getElem?_push] at hb
    split at hb
    · exact Or.inl ⟨by assumption, (Option.some.inj hb).symm⟩
    · exact Or.inr hb
  have hlt : ∀ j ∈ U, j < m.blocks.size := by
    intro j hj
    obtain ⟨b, hb, -⟩ := (h.waiting j).1 hj
    exact (Array.getElem?_eq_some_iff.1 hb).1
  have hlawful : ({ m with blocks := m.blocks.push (emptyBlock name) } : Module).Lawful H := by
    refine ⟨h.closed, h.error, h.returns, ?_, h.sizes, ?_, ?_, ?_, ?_⟩
    · show m.registers
        = wrap ((List.map Block.demand (m.blocks.push (emptyBlock name)).toList).sum : Nat)
      rw [Array.toList_push, List.map_append, List.sum_append]
      exact h.count
    · intro i b hb x hx
      rcases hcases i b hb with ⟨-, rfl⟩ | hb
      · cases hx
      · exact (h.instrs i b hb x hx).mono hl.bounds
    · intro i b hb φ hφ
      rcases hcases i b hb with ⟨-, rfl⟩ | hb
      · cases hφ
      · exact h.merges hl (h.phis i b hb φ hφ)
    · intro i b hb ht
      rcases hcases i b hb with ⟨-, rfl⟩ | hb
      · cases ht
      · exact h.ends i b hb ht
    · intro i b hb ht
      rcases hcases i b hb with ⟨-, rfl⟩ | hb
      · exact fun x hx => nomatch hx
      · exact h.onward i b hb ht
  refine ⟨m.blocks.size, _, rfl, ⟨hlawful, ?_, fun j => ?_⟩, hl, rfl, m.blocks.size, rfl, by simp⟩
  · exact List.nodup_cons.2 ⟨fun hmem => absurd (hlt _ hmem) (Nat.lt_irrefl _), h.nodup⟩
  rw [List.mem_cons]
  constructor
  · rintro (rfl | hj)
    · exact ⟨emptyBlock name, Array.getElem?_push_size, rfl⟩
    · obtain ⟨b, hb, ht⟩ := (h.waiting j).1 hj
      have hne : j ≠ m.blocks.size := Nat.ne_of_lt (hlt j hj)
      exact ⟨b, by rw [Array.getElem?_push, if_neg hne, hb], ht⟩
  · rintro ⟨b, hb, ht⟩
    rcases hcases j b hb with ⟨rfl, -⟩ | hb
    · exact Or.inl rfl
    · exact Or.inr ((h.waiting j).2 ⟨b, hb, ht⟩)

/-- A new block waits for its end, and so does the current one. -/
theorem Underway.newBlock_builds (h : m.Underway H (m.cur :: P)) (name : String) :
    ∃ (i : Nat) (m' : Module), Module.newBlock name m = (i, m') ∧ Builds H m m' (i :: P) ∧
      (m'.bounds H).block i := by
  obtain ⟨i, m', heq, hu, hl, hcur, hi⟩ := h.newBlock name
  refine ⟨i, m', heq, ⟨?_, hl, hcur⟩, hi⟩
  rw [hcur]
  exact hu.perm (List.Perm.swap _ _ _)

theorem Underway.setInsertPoint (h : m.Underway H U) {i : Nat} (hi : i ∈ U) :
    ∃ m', Module.setInsertPoint i m = ((), m') ∧ m'.Underway H U ∧ Later m m' ∧ m'.cur = i := by
  obtain ⟨b, hb, -⟩ := (h.waiting i).1 hi
  refine ⟨{ m with cur := i }, setInsertPoint_eq (Array.getElem?_eq_some_iff.1 hb).1, ?_, ?_, rfl⟩
  · exact ⟨⟨h.closed, h.error, h.returns, h.count, h.sizes, h.instrs, h.phis, h.ends, h.onward⟩,
      h.nodup, h.waiting⟩
  · exact ⟨fun _ b hb => ⟨b, hb, fun _ => rfl⟩, fun _ size hk => ⟨size, hk, Int.le_refl _⟩,
      Nat.le_refl _, fun _ hn => hn⟩

/-- A jump ends the current block. -/
theorem Underway.branch (h : m.Underway H (m.cur :: P)) {i : Nat} (hi : (m.bounds H).block i) :
    ∃ m', Module.branch i m = ((), m') ∧ m'.Underway H P ∧ Later m m' ∧ m'.cur = m.cur ∧
      JumpsTo m'.blocks m.cur i := by
  obtain ⟨hu, hl, b, hb, hlast⟩ := h.finish (i := .branch i) rfl rfl hi
  exact ⟨_, emit_eq h.isOpen _, hu, hl, rfl, m.cur, b, rfl, hb, hlast⟩

/-- A choice between two jumps ends the current block. -/
theorem Underway.branchIf (h : m.Underway H (m.cur :: P)) {cond : Value} {i j : Nat}
    (hcond : (m.bounds H).value cond 1) (hi : (m.bounds H).block i) (hj : (m.bounds H).block j) :
    ∃ m', Module.branchIf cond i j m = ((), m') ∧ m'.Underway H P ∧ Later m m' ∧
      m'.cur = m.cur := by
  have hwidth : ¬ cond.words ≠ 1 := fun hne => hne (words_within hcond)
  obtain ⟨hu, hl, -⟩ := h.finish (i := .branchIf cond i j) rfl rfl ⟨hcond, hi, hj⟩
  refine ⟨_, ?_, hu, hl, rfl⟩
  unfold Module.branchIf
  rw [if_neg hwidth]
  exact emit_eq h.isOpen _

/-- Merging two values of the same width, from blocks that lead to the current one. -/
theorem Underway.phi (h : m.Underway H (m.cur :: P)) {v v' : Value} {n a b : Nat}
    (hv : (m.bounds H).value v n) (hv' : (m.bounds H).value v' n) (ha : JumpsTo m.blocks a m.cur)
    (hb : JumpsTo m.blocks b m.cur) :
    ∃ u m', Module.phi v a v' b m = (u, m') ∧ Builds H m m' P ∧ (m'.bounds H).value u n := by
  obtain ⟨k, hk, hfresh⟩ := fresh_eq h.count n
  by_cases hn : n = 0
  · subst hn
    refine ⟨.void, m, ?_, .refl h, m.void_within⟩
    unfold Module.phi
    rw [words_within hv, words_within hv']
    rfl
  -- The block holds the new phi, and there are `n` registers more.
  obtain ⟨blk, hblk, ht⟩ := (h.waiting _).1 List.mem_cons_self
  let φ : Phi := ⟨Value.run m.demand n, [((a : Int), v), ((b : Int), v')]⟩
  let f : Block → Block := fun blk => { blk with phis := blk.phis.push φ }
  let m' : Module := { m with registers := k, blocks := m.blocks.modify m.cur f }
  have hd : m'.demand = m.demand + n := by
    have h := @demand_modify m m' m.cur f blk hblk rfl
    simp only [Block.demand, f, φ, Array.toList_push, List.map_append, List.map_singleton,
      List.sum_append, List.sum_singleton, Value.words_run, Int.toNat_natCast] at h
    omega
  have hr : Replaces m m' blk (f blk) := by
    refine ⟨hblk, ht, ?_, fun i hi => ?_, fun j size hj => ⟨size, hj, Int.le_refl _⟩,
      by omega, rfl⟩
    · show (m.blocks.modify m.cur f)[m.cur]? = _
      rw [Array.getElem?_modify, if_pos rfl, hblk]
      rfl
    · show (m.blocks.modify m.cur f)[i]? = _
      rw [Array.getElem?_modify, if_neg fun h => hi h.symm]
  have hvalue : (m'.bounds H).value (Value.run m.demand n) n :=
    ⟨m.demand, rfl, Nat.le_of_eq hd.symm⟩
  have hlawful : m'.Lawful H := by
    refine hr.lawful h.toLawful rfl rfl (by rw [hd]; exact hk) h.sizes (fun x hx => Or.inl hx) ?_
      (fun hend => h.ends _ blk hblk hend) (fun _ => h.onward _ blk hblk ht)
    intro ψ hψ
    rw [Array.toList_push, List.mem_append, List.mem_singleton] at hψ
    rcases hψ with hψ | rfl
    · exact Or.inl hψ
    · exact Or.inr ⟨n, a, b, v, v', rfl, hvalue, hr.later.bounds.value hv,
        hr.later.bounds.value hv', h.jumpsTo hr.later ha, h.jumpsTo hr.later hb⟩
  refine ⟨Value.run m.demand n, m', ?_, ⟨hr.still h hlawful ht, hr.later, rfl⟩, hvalue⟩
  unfold Module.phi
  rw [words_within hv, words_within hv', if_neg fun hne => hne rfl]
  dsimp only
  rw [bind_eq hfresh, if_pos (not_isVoid_run (by omega))]
  rfl

/-! ### The end -/

/-- The module returns `n` words, and all of it is well formed. -/
structure Complete (m : Module) (H : Services) (n : Nat) : Prop where
  closed : m.closed = false
  error : m.error = none
  returns : m.returns = some (n : Int)
  count : m.registers = wrap m.demand
  sizes : ∀ size ∈ m.slots.toList, 0 ≤ size
  ended : ∀ b ∈ m.blocks.toList, b.terminated = true
  formed : WellFormed (m.bounds H) m.blocks

/-- A return ends the last block that waits. -/
theorem Underway.ret (h : m.Underway H [m.cur]) {v : Value} {n : Nat}
    (hv : (m.bounds H).value v n) :
    ∃ m', Module.ret v m = ((), m') ∧ m'.Complete H n := by
  obtain ⟨b, hr, hd⟩ := @Underway.replaces H m [] h (.ret v) m.registers m.slots
    fun k size hk => ⟨size, hk, Int.le_refl _⟩
  obtain ⟨r, rfl, hle⟩ := hv
  have hd : (m.returning (Value.run r n)).demand = m.demand := hd
  -- Nothing has returned before, so it does not matter that the width of results is set.
  have hl : Later m (m.returning (Value.run r n)) :=
    ⟨hr.later.blocks, hr.later.slots, Nat.le_of_eq hd.symm,
      fun k hk => by rw [h.returns] at hk; cases hk⟩
  have hreturns : (m.returning (Value.run r n)).returns = some (n : Int) :=
    congrArg some (Value.words_run r n)
  have hcases : ∀ (i : Nat) (b₁ : Block), (m.returning (Value.run r n)).blocks[i]? = some b₁ →
      (i = m.cur ∧ b₁ = { b with code := b.code.push (.ret (Value.run r n)), terminated := true }) ∨
        (m.blocks[i]? = some b₁ ∧ b₁.terminated = true) := by
    intro i b₁ hb₁
    by_cases hi : i = m.cur
    · subst hi
      exact Or.inl ⟨rfl, (Option.some.inj (hr.here'.symm.trans hb₁)).symm⟩
    · have hb₁ : m.blocks[i]? = some b₁ := (hr.other i hi).symm.trans hb₁
      refine Or.inr ⟨hb₁, ?_⟩
      by_contra ht
      exact hi (List.mem_singleton.1 ((h.waiting i).2 ⟨b₁, hb₁, by simpa using ht⟩))
  refine ⟨_, ret_eq h.isOpen, h.closed, h.error, hreturns, by rw [hd]; exact h.count, ?_, ?_, ?_⟩
  · intro size hsize
    obtain ⟨k, hk⟩ := List.mem_iff_getElem?.1 hsize
    exact h.sizes k size (by rw [← Array.getElem?_toList]; exact hk)
  · intro b₁ hb₁
    obtain ⟨i, hi⟩ := List.mem_iff_getElem?.1 hb₁
    rcases hcases i b₁ (by rw [← Array.getElem?_toList]; exact hi) with ⟨-, rfl⟩ | ⟨-, ht⟩
    · rfl
    · exact ht
  refine ⟨?_, ?_, ?_, ?_⟩
  · have hlt := (Array.getElem?_eq_some_iff.1 hr.here').1
    exact ⟨0, rfl, Nat.zero_lt_of_lt hlt⟩
  · intro i b₁ hb₁ x hx
    rcases hcases i b₁ hb₁ with ⟨rfl, rfl⟩ | ⟨hold, -⟩
    · rw [Array.toList_push, List.mem_append, List.mem_singleton] at hx
      rcases hx with hx | rfl
      · exact (h.instrs _ b hr.here x hx).mono hl.bounds
      · exact ⟨n, hl.bounds.value ⟨r, rfl, hle⟩, hreturns⟩
    · exact (h.instrs i b₁ hold x hx).mono hl.bounds
  · intro i b₁ hb₁ φ hφ
    rcases hcases i b₁ hb₁ with ⟨rfl, rfl⟩ | ⟨hold, -⟩
    · exact h.merges hl (h.phis _ b hr.here φ hφ)
    · exact h.merges hl (h.phis i b₁ hold φ hφ)
  · intro i b₁ hb₁
    rcases hcases i b₁ hb₁ with ⟨rfl, rfl⟩ | ⟨hold, ht⟩
    · exact ⟨b.code.toList, .ret (Value.run r n), by simp, rfl, h.onward _ b hr.here hr.waits⟩
    · exact h.ends i b₁ hold ht

namespace Complete

variable {n : Nat}

end Complete

end Module

end TreeMachine.Code
