import TreeMachine.Proofs.Code.Builder

/-! # Addresses into the frame

  The address of a word of the frame is its index with the frame bit set.  Main statements:
  reads and writes through such an address reach that word, given code before them that
  leaves the address in a register.
-/

namespace TreeMachine.Code

open Arena (writeFrom size_writeFrom)

/-- The address of a word of the frame. -/
def frameAddress (i : Nat) : UInt64 := frameBit ||| UInt64.ofNat i

/-! ### The mark of an address -/

section Bits

variable {i : Nat}

theorem testBit_frameBit (j : Nat) : frameBit.toNat.testBit j = decide (j = 63) := by
  have hbit : frameBit.toNat = 2 ^ 63 := by decide
  rw [hbit, Nat.testBit_two_pow]
  exact decide_eq_decide.2 eq_comm

theorem testBit_frameAddress (hi : i < 2 ^ 63) (j : Nat) :
    (frameAddress i).toNat.testBit j = (decide (j = 63) || i.testBit j) := by
  rw [frameAddress, UInt64.toNat_or, Nat.testBit_or, testBit_frameBit, UInt64.toNat_ofNat',
    Nat.mod_eq_of_lt (by omega)]

/-- An address of the frame is marked as one. -/
theorem frameAddress_marked (hi : i < 2 ^ 63) : frameAddress i &&& frameBit ≠ 0 := by
  intro hzero
  have hbit : (frameAddress i &&& frameBit).toNat.testBit 63 = false := by
    rw [hzero]
    decide
  rw [UInt64.toNat_and, Nat.testBit_and, testBit_frameBit, testBit_frameAddress hi] at hbit
  simp at hbit

/-- Without the mark it is the index. -/
theorem frameAddress_index (hi : i < 2 ^ 63) : frameAddress i ^^^ frameBit = UInt64.ofNat i := by
  rw [← UInt64.toNat_inj, UInt64.toNat_ofNat', Nat.mod_eq_of_lt (by omega)]
  apply Nat.eq_of_testBit_eq
  intro j
  rw [UInt64.toNat_xor, Nat.testBit_xor, testBit_frameBit, testBit_frameAddress hi]
  by_cases hj : j = 63
  · subst hj
    rw [Nat.testBit_lt_two_pow hi]
    decide
  · simp [hj]

end Bits

/-! ### Instructions -/

theorem ofInt_natCast (n : Nat) : UInt64.ofInt n = UInt64.ofNat n := by
  rw [← UInt64.toNat_inj, UInt64.toNat_ofNat']
  show ((n : Int) % (2 ^ 64 : Nat)).toNat % 2 ^ 64 = n % 2 ^ 64
  omega

section Exec

variable {σ : Type} {host : Host σ} {p : Program} {f : Frame} {r k off a i : Nat} {x : UInt64}
  {s : σ}

theorem exec_address (hf : f.Fits p) (hr : r < f.regs.size)
    (hk : p.slotOffsets[k]? = some (p.start k : Int)) :
    (Instr.address (Value.run r 1) k off).exec host p f s = .ok (.onward
      { f with regs := writeFrom f.regs r [frameAddress (p.start k + off)] }) s := by
  have hoff : Frame.slotOffset p k = .ok (p.start k : Int) := by
    rw [Frame.slotOffset, if_neg (by omega), Int.toNat_natCast, hk]
  have hsum : frameBit ||| UInt64.ofInt ((p.start k : Int) + off)
      = frameAddress (p.start k + off) := by
    rw [← Int.natCast_add, ofInt_natCast]
    rfl
  rw [Instr.exec, bind_eq_ok (sound_eq_ok hoff), hsum,
    bind_eq_ok (sound_eq_ok (Frame.set_word hr hf.fewRegs))]
  rfl

/-- A place in the frame is small enough for the mark. -/
theorem Frame.Fits.index_lt (hf : f.Fits p) (hi : i ≤ f.words.size) :
    i < 2 ^ 63 ∧ (UInt64.ofNat i).toNat = i := by
  have hmax := Arena.maxWords_toNat
  have hfew := hf.fewWords
  refine ⟨by omega, ?_⟩
  rw [UInt64.toNat_ofNat', Nat.mod_eq_of_lt (by omega)]

/-- A read through an address that the first word of `addr` is. -/
theorem exec_loadIndirect {addr : Value} {ws : List UInt64} (hf : f.Fits p)
    (hr : r + ws.length ≤ f.regs.size) (hpos : 0 < ws.length)
    (ha : f.word addr = .ok (frameAddress i)) (hi : Stands f.words i ws) :
    (Instr.loadIndirect (Value.run r ws.length) addr).exec host p f s
      = .ok (.onward { f with regs := writeFrom f.regs r ws }) s := by
  have hle := hi.bound hpos
  obtain ⟨hsmall, hfirst⟩ := hf.index_lt (show i ≤ f.words.size by omega)
  obtain ⟨-, hlast⟩ := hf.index_lt hle
  obtain ⟨-, hsize⟩ := hf.index_lt (Nat.le_refl _)
  have hsum : UInt64.ofNat i + UInt64.ofInt ws.length = UInt64.ofNat (i + ws.length) := by
    rw [ofInt_natCast, UInt64.ofNat_add]
  have hload : loadAt host f (frameAddress i) (Value.run r ws.length).words = pure ws := by
    unfold loadAt
    rw [Value.words_run, if_pos (frameAddress_marked hsmall), frameAddress_index hsmall]
    dsimp only
    rw [hsum, if_neg (by rw [UInt64.lt_iff_toNat_lt, hsize, hlast]; omega),
      if_neg (by rw [UInt64.lt_iff_toNat_lt, hfirst, hlast]; omega), hfirst, hlast]
    exact congrArg pure (hi.extract hle)
  rw [Instr.exec, bind_eq_ok (sound_eq_ok ha), hload, pure_bind,
    bind_eq_ok (sound_eq_ok (Frame.set_run hr hpos hf.fewRegs))]
  rfl

/-- A write through an address that the first word of `addr` is. -/
theorem exec_storeIndirect {addr src : Value} {ws : List UInt64} (hf : f.Fits p)
    (ha : f.word addr = .ok (frameAddress i)) (hws : f.get src = .ok ws)
    (hi : i + ws.length ≤ f.words.size) :
    (Instr.storeIndirect addr src).exec host p f s
      = .ok (.onward { f with words := writeFrom f.words i ws }) s := by
  obtain ⟨hsmall, hfirst⟩ := hf.index_lt (show i ≤ f.words.size by omega)
  obtain ⟨-, hlast⟩ := hf.index_lt hi
  obtain ⟨-, hsize⟩ := hf.index_lt (Nat.le_refl _)
  have hsum : UInt64.ofNat i + UInt64.ofNat ws.length = UInt64.ofNat (i + ws.length) := by
    rw [← UInt64.ofNat_add]
  have hstore : storeAt host f (frameAddress i) ws
      = pure { f with words := writeFrom f.words i ws } := by
    unfold storeAt
    rw [if_pos (frameAddress_marked hsmall), frameAddress_index hsmall]
    dsimp only
    rw [hsum, if_neg (by rw [UInt64.lt_iff_toNat_lt, hsize, hlast]; omega), hfirst]
  rw [Instr.exec, bind_eq_ok (sound_eq_ok ha), bind_eq_ok (sound_eq_ok hws), hstore, pure_bind]
  rfl

end Exec

namespace Module

variable {m m₀ : Module} {R R₀ : Nat} {P : Program → Frame → Frame → Prop}

/-- The address of a word of a slot. -/
theorem address_emits (ho : m.Open) (hc : m.registers = wrap R) {k : Nat} {size : Int}
    (hk : m.slots[k]? = some size) (off : Nat) :
    ∃ m', address k off m = (Value.run R 1, m') ∧ m'.slots = m.slots ∧
      Emits m R m' (R + 1) fun p f f' => f.Sets f' R [frameAddress (p.start k + off)] := by
  obtain ⟨n, hn, hfresh⟩ := fresh_one hc
  refine ⟨{ m.add (.address (Value.run R 1) k off) with registers := n }, ?_, rfl, ?_⟩
  · unfold address
    rw [bind_eq hfresh, bind_eq (emit_eq (ho.setRegisters n) _)]
    rfl
  · refine Emits.instr ho hc rfl (Nat.le_add_right _ _) hn ho.keepsSlots ho.sizes ?_
    intro σ host p S hcon f s hf
    have hregs := hcon.regs_le hf
    exact ⟨_, exec_address hf (by omega) (hcon.slots k size hk).1, hf.setRegs _ _,
      Frame.sets_writeFrom hregs⟩

/-- A read through an address that the code before it leaves in a register. -/
theorem loadIndirect_emits (h : Emits m₀ R₀ m R P) {a : Nat} {i : Program → Nat}
    (ha : ∀ p S f f', Contains p S m R → f'.Fits p → P p f f' →
      f'.regs[a]? = some (frameAddress (i p)) ∧ i p < f'.words.size) :
    ∃ m', loadIndirect (Value.run a 1) 1 m = (Value.run R 1, m') ∧ m'.slots = m.slots ∧
      Emits m₀ R₀ m' (R + 1) fun p f f' => ∃ f₁ x, P p f f₁ ∧ f₁.words[i p]? = some x ∧
        f₁.Sets f' R [x] := by
  have ho := h.opened
  obtain ⟨n, hn, hfresh⟩ := fresh_one h.count
  refine ⟨{ m.add (.loadIndirect (Value.run R 1) (Value.run a 1)) with registers := n }, ?_, rfl,
    ?_⟩
  · unfold loadIndirect
    rw [bind_eq hfresh]
    dsimp only
    rw [if_pos (not_isVoid_run Nat.one_pos), bind_eq (emit_eq (ho.setRegisters n) _)]
    rfl
  · refine h.andThen rfl (Nat.le_add_right _ _) hn ho.keepsSlots ho.sizes ?_
    intro σ host p S hcon f₀ f s hf hP
    have hregs := hcon.regs_le hf
    have hgrows := @add_grows m (.loadIndirect (Value.run R 1) (Value.run a 1)) ho n m.slots
      ho.keepsSlots
    obtain ⟨haddr, hlt⟩ := ha p S f₀ f (hcon.below (hgrows.below S) (Nat.le_add_right _ _)) hf hP
    have hx : f.words[i p]? = some f.words[i p] := Array.getElem?_eq_getElem hlt
    have hexec := @exec_loadIndirect σ host p f R (i p) s (Value.run a 1) [f.words[i p]] hf hregs
      (by simp) (Frame.word_run haddr hf.fewRegs) (Stands.single.2 hx)
    exact ⟨_, hexec, hf.setRegs _ _, f, _, hP, hx, Frame.sets_writeFrom hregs⟩

/-- A write through an address that the code before it leaves in a register. -/
theorem storeIndirect_emits (h : Emits m₀ R₀ m R P) {a r : Nat} {i : Program → Nat} (hr : r < R)
    (ha : ∀ p S f f', Contains p S m R → f'.Fits p → P p f f' →
      f'.regs[a]? = some (frameAddress (i p)) ∧ i p < f'.words.size) :
    ∃ m', storeIndirect (Value.run a 1) (Value.run r 1) m = ((), m') ∧ m'.slots = m.slots ∧
      Emits m₀ R₀ m' R fun p f f' => ∃ f₁ x, P p f f₁ ∧ f₁.regs[r]? = some x ∧
        f₁.Stores f' (i p) [x] := by
  have ho := h.opened
  refine ⟨m.add (.storeIndirect (Value.run a 1) (Value.run r 1)), ?_, rfl, ?_⟩
  · unfold storeIndirect
    rw [if_pos (not_isVoid_run Nat.one_pos), emit_eq ho]
  · refine h.andThen rfl (Nat.le_refl _) h.count ho.keepsSlots ho.sizes ?_
    intro σ host p S hcon f₀ f s hf hP
    have hregs := hcon.regs_le hf
    have hgrows := @add_grows m (.storeIndirect (Value.run a 1) (Value.run r 1)) ho m.registers
      m.slots ho.keepsSlots
    obtain ⟨haddr, hlt⟩ := ha p S f₀ f (hcon.below (hgrows.below S) (Nat.le_refl _)) hf hP
    have hx : f.regs[r]? = some f.regs[r] := Array.getElem?_eq_getElem (by omega)
    have hget : f.get (Value.run r 1) = .ok [f.regs[r]] :=
      @Frame.get_run f r [f.regs[r]] (Stands.single.2 hx) hf.fewRegs
    exact ⟨_, exec_storeIndirect hf (Frame.word_run haddr hf.fewRegs) hget hlt, hf.setWords _ _, f,
      _, hP, hx, Frame.stores_writeFrom (by simp only [List.length_singleton]; omega)⟩

end Module

end TreeMachine.Code
