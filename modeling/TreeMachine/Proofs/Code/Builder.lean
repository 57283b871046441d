import TreeMachine.Proofs.Code.Construction

/-! # The steps of construction

  Each step of construction adds an instruction, a block or a slot to an open module.  Main
  statements: the module after each step, and what the instruction it added does when it
  runs.
-/

namespace TreeMachine.Code.Module

open Arena (writeFrom size_writeFrom)

variable {m : Module} {R : Nat}

theorem bind_eq {α β : Type} {x : Build α} {f : α → Build β} {a : α} {m m' : Module}
    (h : x m = (a, m')) : (x >>= f) m = f a m' := by
  show (let (a, m') := x m; f a m') = _
  rw [h]

/-! ### Adding to the current block -/

/-- The module with one more instruction in its current block. -/
def add (i : Instr) (m : Module) : Module :=
  { m with blocks := m.blocks.modify m.cur (pushInstr i) }

theorem emit_eq (ho : m.Open) (i : Instr) : emit i m = ((), m.add i) := by
  show (if m.closed = true then fail .emitAfterFinalize else
    modify fun m => { m with blocks := m.blocks.modify m.cur (pushInstr i) } : Build Unit) m = _
  rw [ho.closed]
  rfl

@[simp] theorem size_add (i : Instr) (m : Module) : (m.add i).blocks.size = m.blocks.size := by
  simp [add]

theorem add_other {i : Instr} {j : Nat} (hj : j ≠ m.cur) :
    (m.add i).blocks[j]? = m.blocks[j]? := by
  rw [add, Array.getElem?_modify, if_neg fun h => hj h.symm]

theorem add_here {i : Instr} {b : Block} (hb : m.blocks[m.cur]? = some b)
    (ht : b.terminated = false) :
    (m.add i).blocks[m.cur]?
      = some { b with code := b.code.push i, terminated := i.opcode.terminates } := by
  rw [add, Array.getElem?_modify, if_pos rfl, hb]
  simp [pushInstr, ht]

/-- Changing registers and slots leaves the code alone. -/
theorem add_grows {i : Instr} (ho : m.Open) {registers : Int} {slots : Array Int}
    (hslots : ∀ (k : Nat) (size : Int), m.slots[k]? = some size →
      ∃ size', slots[k]? = some size' ∧ size ≤ size') :
    m.Grows { m.add i with registers, slots } where
  size_le := by simp
  other j _ hj := add_other hj
  here b hb := by
    obtain ⟨b', hb', ht⟩ := ho.here
    cases hb.symm.trans hb'
    exact ⟨_, add_here hb ht, ⟨by simp, rfl⟩⟩
  moved := Or.inl rfl
  slots := hslots

theorem add_open {i : Instr} (ho : m.Open) (hi : i.opcode.terminates = false) {registers : Int}
    {slots : Array Int} (hsizes : ∀ (k : Nat) (size : Int), slots[k]? = some size → 0 ≤ size) :
    Open { m.add i with registers, slots } where
  here := by
    obtain ⟨b, hb, ht⟩ := ho.here
    exact ⟨_, add_here hb ht, hi⟩
  closed := ho.closed
  error := ho.error
  returns := ho.returns
  sizes := hsizes

/-- One more instruction that leads on to the next one, given what the code before it does. -/
theorem Emits.andThen {m₀ : Module} {R₀ R' : Nat} {i : Instr} {registers : Int} {slots : Array Int}
    {P Q : Program → Frame → Frame → Prop} (h : Emits m₀ R₀ m R P)
    (hi : i.opcode.terminates = false) (hR : R ≤ R') (hc : registers = wrap R')
    (hslots : ∀ (k : Nat) (size : Int), m.slots[k]? = some size →
      ∃ size', slots[k]? = some size' ∧ size ≤ size')
    (hsizes : ∀ (k : Nat) (size : Int), slots[k]? = some size → 0 ≤ size)
    (hexec : ∀ {σ : Type} (host : Host σ) (p : Program) (S : List Nat),
      Contains p S { m.add i with registers, slots } R' → ∀ (f₀ f : Frame) (s : σ), f.Fits p →
        P p f₀ f → ∃ f', i.exec host p f s = .ok (.onward f') s ∧ f'.Fits p ∧ Q p f₀ f') :
    Emits m₀ R₀ { m.add i with registers, slots } R' Q where
  grows := h.grows.trans (add_grows h.opened hslots)
  opened := add_open h.opened hi hsizes
  count := hc
  le := Nat.le_trans h.le hR
  does host p S hw hcon f s hf := by
    have hgrows : m.Grows { m.add i with registers, slots } := add_grows h.opened hslots
    obtain ⟨f₁, hf₁, hlead, hP⟩ := h.does host p S hw (hcon.below (hgrows.below S) hR) f s hf
    obtain ⟨f', hexec', hf', hQ⟩ := hexec host p S hcon f f₁ s hf₁ hP
    obtain ⟨b, hb, ht⟩ := h.opened.here
    have hb' := @add_here m i b hb ht
    have hi' : p.instr? m.here = some i := by
      rw [here_eq hb]
      exact hcon.instr (hw.grows h.grows).cur hb' (by simp)
    have hend : here { m.add i with registers, slots } = m.here.next := by
      rw [here_eq hb]
      exact (@here_eq { m.add i with registers, slots } _ hb').trans (by simp [Point.next, add])
    refine ⟨f', hf', ?_, hQ⟩
    rw [hend, show ({ m.add i with registers, slots } : Module).blocks.size = m.blocks.size from
      size_add i m]
    exact hlead.trans (Leads.onward hi' hexec')

/-- An instruction that leads on to the next one. -/
theorem Emits.instr {i : Instr} {R' : Nat} {registers : Int} {slots : Array Int}
    {P : Program → Frame → Frame → Prop} (ho : m.Open) (hc : m.registers = wrap R)
    (hi : i.opcode.terminates = false) (hR : R ≤ R') (hc' : registers = wrap R')
    (hslots : ∀ (k : Nat) (size : Int), m.slots[k]? = some size →
      ∃ size', slots[k]? = some size' ∧ size ≤ size')
    (hsizes : ∀ (k : Nat) (size : Int), slots[k]? = some size → 0 ≤ size)
    (hexec : ∀ {σ : Type} (host : Host σ) (p : Program) (S : List Nat),
      Contains p S { m.add i with registers, slots } R' → ∀ (f : Frame) (s : σ), f.Fits p →
        ∃ f', i.exec host p f s = .ok (.onward f') s ∧ f'.Fits p ∧ P p f f') :
    Emits m R { m.add i with registers, slots } R' P := by
  refine (Emits.refl ho hc).andThen hi hR hc' hslots hsizes ?_
  intro σ host p S hcon f₀ f s hf hsame
  subst hsame
  exact hexec host p S hcon f s hf

/-! ### Registers -/

theorem fresh_eq (hc : m.registers = wrap R) (w : Nat) :
    ∃ n, n = wrap ((R + w : Nat) : Int) ∧
      fresh w m = (Value.run R w, { m with registers := n }) := by
  refine ⟨_, rfl, ?_⟩
  unfold fresh Value.run
  by_cases hw : w = 0
  · subst hw
    rw [Nat.add_zero, ← hc]
    rfl
  · rw [if_neg (by omega), if_neg hw, hc, wrap_add]

theorem fresh_one (hc : m.registers = wrap R) :
    ∃ n, n = wrap ((R + 1 : Nat) : Int) ∧
      fresh 1 m = (Value.run R 1, { m with registers := n }) :=
  fresh_eq hc 1

theorem Open.setRegisters (ho : m.Open) (registers : Int) : Open { m with registers } :=
  ⟨ho.here, ho.closed, ho.error, ho.returns, ho.sizes⟩

theorem Open.keepsSlots (_ : m.Open) (k : Nat) (size : Int) (hk : m.slots[k]? = some size) :
    ∃ size', m.slots[k]? = some size' ∧ size ≤ size' :=
  ⟨size, hk, Int.le_refl _⟩

theorem not_isVoid_run {w : Nat} (hw : 0 < w) : (!(Value.run R w).isVoid) = true := by
  rw [Value.isVoid_run, decide_eq_false (by omega)]
  rfl

theorem const_emits (ho : m.Open) (hc : m.registers = wrap R) {ws : List UInt64}
    (hpos : 0 < ws.length) :
    ∃ m', const ws m = (Value.run R ws.length, m') ∧ m'.slots = m.slots ∧
      Emits m R m' (R + ws.length) fun _ f f' => f.Sets f' R ws := by
  obtain ⟨n, hn, hfresh⟩ := fresh_eq hc ws.length
  refine ⟨{ m.add (.const (Value.run R ws.length) ws) with registers := n }, ?_, rfl, ?_⟩
  · unfold const
    rw [bind_eq hfresh]
    dsimp only
    rw [if_pos (not_isVoid_run hpos), bind_eq (emit_eq (ho.setRegisters n) _)]
    rfl
  · refine Emits.instr ho hc rfl (Nat.le_add_right _ _) hn ho.keepsSlots ho.sizes ?_
    intro σ host p S hcon f s hf
    have hregs := hcon.regs_le hf
    exact ⟨_, exec_const hf hregs hpos, hf.setRegs _ _, Frame.sets_writeFrom hregs⟩

theorem binary_emits (ho : m.Open) (hc : m.registers = wrap R) (op : BinaryOp) {a b : Nat}
    (ha : a < R) (hb : b < R) :
    ∃ m', binary op (Value.run a 1) (Value.run b 1) m = (Value.run R 1, m') ∧
      m'.slots = m.slots ∧
      Emits m R m' (R + 1) fun _ f f' => ∃ x y, f.regs[a]? = some x ∧ f.regs[b]? = some y ∧
        f.Sets f' R [op.eval x y] := by
  obtain ⟨n, hn, hfresh⟩ := fresh_one hc
  have hwidth : ¬ ((Value.run a 1).words ≠ 1 ∨ (Value.run b 1).words ≠ 1) := by simp
  refine ⟨{ m.add (.binary op (Value.run R 1) (Value.run a 1) (Value.run b 1)) with
    registers := n }, ?_, rfl, ?_⟩
  · unfold binary
    rw [if_neg hwidth]
    dsimp only
    rw [bind_eq hfresh, bind_eq (emit_eq (ho.setRegisters n) _)]
    rfl
  · refine Emits.instr ho hc rfl (Nat.le_add_right _ _) hn ho.keepsSlots ho.sizes ?_
    intro σ host p S hcon f s hf
    have hregs := hcon.regs_le hf
    have hx : f.regs[a]? = some f.regs[a] := Array.getElem?_eq_getElem (by omega)
    have hy : f.regs[b]? = some f.regs[b] := Array.getElem?_eq_getElem (by omega)
    exact ⟨_, exec_binary hf hx hy (by omega), hf.setRegs _ _, _, _, hx, hy,
      Frame.sets_writeFrom hregs⟩

/-! ### Slots -/

/-- Enlarging a slot that is large enough changes nothing. -/
theorem modify_max_of_le {xs : Array Int} {k : Nat} {size b : Int} (hk : xs[k]? = some size)
    (hb : b ≤ size) : xs.modify k (max · b) = xs := by
  apply Array.ext_getElem?
  intro j
  rw [Array.getElem?_modify]
  by_cases hj : k = j
  · subst hj
    rw [if_pos rfl, hk, Option.map_some, Int.max_eq_left hb]
  · rw [if_neg hj]

theorem reserve_eq {k : Nat} (hk : k < m.slots.size) (words : Int) :
    reserve k words m = ((), { m with slots := m.slots.modify k (max · words) }) := by
  show (if (0 : Int) ≤ k ∧ (k : Int) < m.slots.size then
    modify fun m => { m with slots := m.slots.modify (k : Int).toNat (max · words) }
    else fail (.slotOutOfRange k) : Build Unit) m = _
  rw [if_pos (by omega), Int.toNat_natCast]
  rfl

/-- A slot that is large enough already. -/
theorem reserve_of_le {k : Nat} {size words : Int} (hk : m.slots[k]? = some size)
    (hle : words ≤ size) : reserve k words m = ((), m) := by
  have hlt := (Array.getElem?_eq_some_iff.1 hk).1
  rw [reserve_eq hlt, modify_max_of_le hk hle]

/-- Changing the slots is no code. -/
theorem Emits.slots (ho : m.Open) (hc : m.registers = wrap R) {slots : Array Int}
    (hslots : ∀ (k : Nat) (size : Int), m.slots[k]? = some size →
      ∃ size', slots[k]? = some size' ∧ size ≤ size')
    (hsizes : ∀ (k : Nat) (size : Int), slots[k]? = some size → 0 ≤ size) :
    Emits m R { m with slots } R fun _ f f' => f' = f where
  grows := ⟨Nat.le_refl _, fun _ _ _ => rfl, fun b hb => ⟨b, hb, .refl b⟩, Or.inl rfl, hslots⟩
  opened := ⟨ho.here, ho.closed, ho.error, ho.returns, hsizes⟩
  count := hc
  le := Nat.le_refl R
  does _ _ _ _ _ f _ hf := ⟨f, hf, (Leads.refl _).mono (Nat.zero_le _), rfl⟩

/-- Enlarging a slot. -/
theorem reserve_emits (ho : m.Open) (hc : m.registers = wrap R) (k : Nat) (words : Int) :
    Emits m R { m with slots := m.slots.modify k (max · words) } R fun _ f f' => f' = f := by
  refine Emits.slots ho hc ?_ ?_
  · intro j size hj
    rw [Array.getElem?_modify, hj]
    split
    · exact ⟨_, rfl, Int.le_max_left _ _⟩
    · exact ⟨_, rfl, Int.le_refl _⟩
  · intro j size hj
    rw [Array.getElem?_modify] at hj
    split at hj
    · obtain ⟨old, hold, rfl⟩ := Option.map_eq_some_iff.1 hj
      exact Int.le_trans (ho.sizes j old hold) (Int.le_max_left _ _)
    · exact ho.sizes j size hj

/-- A new slot. -/
theorem alloca_emits (ho : m.Open) (hc : m.registers = wrap R) :
    Emits m R { m with slots := m.slots.push 0 } R fun _ f f' => f' = f := by
  refine Emits.slots ho hc ?_ ?_
  · intro j size hj
    have hlt := (Array.getElem?_eq_some_iff.1 hj).1
    exact ⟨size, by rw [Array.getElem?_push, if_neg (by omega), hj], Int.le_refl _⟩
  · intro j size hj
    rw [Array.getElem?_push] at hj
    split at hj
    · cases hj
      exact Int.le_refl 0
    · exact ho.sizes j size hj

theorem load_emits (ho : m.Open) (hc : m.registers = wrap R) {k off w : Nat} {size : Int}
    (hk : m.slots[k]? = some size) (hsize : (off + w : Nat) ≤ size) (hw : 0 < w) :
    ∃ m', load k off w m = (Value.run R w, m') ∧ m'.slots = m.slots ∧
      Emits m R m' (R + w) fun p f f' => ∃ ws, ws.length = w ∧
        Stands f.words (p.start k + off) ws ∧ f.Sets f' R ws := by
  obtain ⟨n, hn, hfresh⟩ := fresh_eq hc w
  refine ⟨{ m.add (.load (Value.run R w) k off) with registers := n }, ?_, rfl, ?_⟩
  · have hle : wrap ((off : Int) + w) ≤ size := by
      have := wrap_le (off + w)
      rw [Int.natCast_add] at this hsize
      exact Int.le_trans this hsize
    unfold load
    rw [bind_eq hfresh]
    dsimp only
    have hk' : ({ m with registers := n } : Module).slots[k]? = some size := hk
    rw [if_pos (not_isVoid_run hw), bind_eq (reserve_of_le hk' hle),
      bind_eq (emit_eq (ho.setRegisters n) _)]
    rfl
  · refine Emits.instr ho hc rfl (Nat.le_add_right _ _) hn ho.keepsSlots ho.sizes ?_
    intro σ host p S hcon f s hf
    have hregs := hcon.regs_le hf
    have hroom := hcon.slot_room hk hsize
    have htop := hcon.top (k + 1)
    have hwords := hf.words
    -- The words of the slot, whatever they are.
    obtain ⟨ws, rfl, hat⟩ := Stands.exists_of_le (show p.start k + off + w ≤ f.words.size by omega)
    exact ⟨_, exec_load hf hregs hw (hcon.slots k size hk).1 hat, hf.setRegs _ _, ws, rfl, hat,
      Frame.sets_writeFrom hregs⟩

theorem store_emits (ho : m.Open) (hc : m.registers = wrap R) {k off w r : Nat} {size : Int}
    (hk : m.slots[k]? = some size) (hsize : (off + w : Nat) ≤ size) (hw : 0 < w)
    (hr : r + w ≤ R) :
    ∃ m', store k off (Value.run r w) m = ((), m') ∧ m'.slots = m.slots ∧
      Emits m R m' R fun p f f' => ∃ ws, ws.length = w ∧ Stands f.regs r ws ∧
        f.Stores f' (p.start k + off) ws := by
  refine ⟨m.add (.store k off (Value.run r w)), ?_, rfl, ?_⟩
  · have hle : wrap ((off : Int) + (Value.run r w).words) ≤ size := by
      have := wrap_le (off + w)
      rw [Int.natCast_add] at this hsize
      rw [Value.words_run]
      exact Int.le_trans this hsize
    have hvoid : ¬ (Value.run r w).isVoid = true := by
      rw [Value.isVoid_run]
      simp only [decide_eq_true_eq]
      omega
    unfold store
    rw [if_neg hvoid, bind_eq (reserve_of_le hk hle), emit_eq ho]
  · refine Emits.instr ho hc rfl (Nat.le_refl _) hc ho.keepsSlots ho.sizes ?_
    intro σ host p S hcon f s hf
    have hregs := hcon.regs_le hf
    have hroom := hcon.slot_room hk hsize
    have htop := hcon.top (k + 1)
    have hwords := hf.words
    obtain ⟨ws, rfl, hat⟩ := Stands.exists_of_le (show r + w ≤ f.regs.size by omega)
    have hin : p.start k + off + ws.length ≤ f.words.size := by omega
    exact ⟨_, exec_store hf hat (hcon.slots k size hk).1 hin, hf.setWords _ _, ws, rfl, hat,
      Frame.stores_writeFrom hin⟩

end TreeMachine.Code.Module
