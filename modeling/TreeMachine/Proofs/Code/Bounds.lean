import Mathlib.Data.List.Forall2
import TreeMachine.Proofs.Code.Addresses

/-! # Code in bounds

  Instructions refer to registers, to words of slots and to blocks.  Bounds say which of
  them there are, and code is in bounds if all it refers to is there, with the width that
  its instructions need, and every block ends once.  Main statement: a program in bounds
  that has a frame yields words, or it stops at an indirect access or in a host function.
-/

namespace TreeMachine.Code

open Arena (size_writeFrom)

/-! ### Bounds -/

/-- Functions of a host: a name, how many words it is given, and how many it answers. -/
abbrev Services := String → Nat → Nat → Prop

/-- What instructions may refer to. -/
structure Bounds where
  /-- The registers of a value are there, and it has the given width. -/
  value : Value → Nat → Prop
  /-- The slot has so many words at the offset. -/
  slot : Int → Int → Nat → Prop
  /-- The block is there. -/
  block : Int → Prop
  /-- Results have this width. -/
  result : Nat → Prop
  /-- The host has the function. -/
  service : Services

/-- The second bounds allow whatever the first ones allow. -/
structure Bounds.Le (B B' : Bounds) : Prop where
  value : ∀ {v n}, B.value v n → B'.value v n
  slot : ∀ {k off n}, B.slot k off n → B'.slot k off n
  block : ∀ {i}, B.block i → B'.block i
  result : ∀ {n}, B.result n → B'.result n
  service : ∀ {name given wanted}, B.service name given wanted → B'.service name given wanted

/-- The instruction refers to what is there. -/
def Instr.Within (B : Bounds) : Instr → Prop
  | .const dst ws => B.value dst ws.length
  | .binary _ dst a b => B.value dst 1 ∧ B.value a 1 ∧ B.value b 1
  | .load dst k off => ∃ n, B.value dst n ∧ B.slot k off n
  | .store k off src => ∃ n, B.value src n ∧ B.slot k off n
  | .address dst k off => B.value dst 1 ∧ B.slot k off 0
  | .loadIndirect dst addr => (∃ n, B.value dst n) ∧ B.value addr 1
  | .storeIndirect addr src => B.value addr 1 ∧ ∃ n, B.value src n
  | .branch target => B.block target
  | .branchIf cond target alt => B.value cond 1 ∧ B.block target ∧ B.block alt
  | .ret v => ∃ n, B.value v n ∧ B.result n
  | .trap => False
  | .call dst name args => ∃ ns n, List.Forall₂ B.value args ns ∧ B.value dst n ∧
    B.service name ns.sum n

theorem Instr.Within.mono {B B' : Bounds} (hB : B.Le B') {x : Instr} (h : x.Within B) :
    x.Within B' := by
  cases x with
  | const dst ws => exact hB.value h
  | binary op dst a b => exact ⟨hB.value h.1, hB.value h.2.1, hB.value h.2.2⟩
  | load dst k off =>
    obtain ⟨n, hdst, hslot⟩ := h
    exact ⟨n, hB.value hdst, hB.slot hslot⟩
  | store k off src =>
    obtain ⟨n, hsrc, hslot⟩ := h
    exact ⟨n, hB.value hsrc, hB.slot hslot⟩
  | address dst k off => exact ⟨hB.value h.1, hB.slot h.2⟩
  | loadIndirect dst addr =>
    obtain ⟨⟨n, hdst⟩, haddr⟩ := h
    exact ⟨⟨n, hB.value hdst⟩, hB.value haddr⟩
  | storeIndirect addr src =>
    obtain ⟨haddr, n, hsrc⟩ := h
    exact ⟨hB.value haddr, n, hB.value hsrc⟩
  | branch target => exact hB.block h
  | branchIf cond target alt => exact ⟨hB.value h.1, hB.block h.2.1, hB.block h.2.2⟩
  | ret v =>
    obtain ⟨n, hv, hn⟩ := h
    exact ⟨n, hB.value hv, hB.result hn⟩
  | trap => exact h
  | call dst name args =>
    obtain ⟨ns, n, hargs, hdst, hservice⟩ := h
    exact ⟨ns, n, hargs.imp fun _ _ => hB.value, hB.value hdst, hB.service hservice⟩

/-- The block `a` ends with a jump to the block `i`. -/
def JumpsTo (blocks : Array Block) (a : Int) (i : Nat) : Prop :=
  ∃ (j : Nat) (b : Block), a = j ∧ blocks[j]? = some b ∧ b.code.back? = some (.branch i)

/-- A phi of the block `i` merges two values of its own width, from blocks that lead to it. -/
def Phi.Merges (B : Bounds) (blocks : Array Block) (i : Nat) (φ : Phi) : Prop :=
  ∃ (n : Nat) (a b : Int) (v v' : Value), φ.incoming = [(a, v), (b, v')] ∧
    B.value φ.dst n ∧ B.value v n ∧ B.value v' n ∧ JumpsTo blocks a i ∧ JumpsTo blocks b i

/-- The last instruction of the block, and no other, ends it. -/
def Block.EndsOnce (b : Block) : Prop :=
  ∃ body last, b.code.toList = body ++ [last] ∧ last.opcode.terminates = true ∧
    ∀ x ∈ body, x.opcode.terminates = false

/-- The blocks of a function refer to what is there and end once. -/
structure WellFormed (B : Bounds) (blocks : Array Block) : Prop where
  entry : B.block 0
  instrs : ∀ (i : Nat) (b : Block), blocks[i]? = some b → ∀ x ∈ b.code.toList, x.Within B
  phis : ∀ (i : Nat) (b : Block), blocks[i]? = some b → ∀ φ ∈ b.phis.toList, φ.Merges B blocks i
  ends : ∀ (i : Nat) (b : Block), blocks[i]? = some b → b.EndsOnce

theorem Phi.Merges.mono {B B' : Bounds} (hB : B.Le B') {blocks : Array Block} {i : Nat} {φ : Phi}
    (h : φ.Merges B blocks i) : φ.Merges B' blocks i := by
  obtain ⟨n, a, b, v, v', heq, hdst, hv, hv', ha, hb⟩ := h
  exact ⟨n, a, b, v, v', heq, hB.value hdst, hB.value hv, hB.value hv', ha, hb⟩

theorem WellFormed.mono {B B' : Bounds} (hB : B.Le B') {blocks : Array Block}
    (h : WellFormed B blocks) : WellFormed B' blocks where
  entry := hB.block h.entry
  instrs i b hb x hx := (h.instrs i b hb x hx).mono hB
  phis i b hb φ hφ := (h.phis i b hb φ hφ).mono hB
  ends := h.ends

/-- What there is in a running program with results of `w` words, in a host with the
    functions of `H`. -/
def Program.bounds (p : Program) (H : Services) (w : Nat) : Bounds where
  value v n := v.words = n ∧ 0 ≤ v.reg ∧ v.reg + n ≤ p.registers
  slot k off n := ∃ base, Frame.slotOffset p k = .ok base ∧ 0 ≤ base + off ∧
    base + off + n ≤ p.frameWords
  block i := ∃ b, p.block? i = some b
  result n := n = w
  service := H

/-! ### Frames -/

section Frames

variable {H : Services} {p : Program} {f : Frame} {v : Value} {w n : Nat}

theorem Frame.Fits.holds (hf : f.Fits p) (hv : (p.bounds H w).value v n) : f.holds v = true := by
  obtain ⟨hwords, hreg, hle⟩ := hv
  have hsize := hf.regs
  simp only [Frame.holds, hwords, Bool.and_eq_true, decide_eq_true_eq]
  omega

theorem Frame.Fits.get (hf : f.Fits p) (hv : (p.bounds H w).value v n) :
    ∃ ws, f.get v = .ok ws ∧ ws.length = n := by
  refine ⟨_, if_pos (hf.holds hv), ?_⟩
  obtain ⟨hwords, hreg, hle⟩ := hv
  have hsize := hf.regs
  rw [Array.length_toList, Array.size_extract, hwords]
  omega

theorem Frame.Fits.word (hf : f.Fits p) (hv : (p.bounds H w).value v 1) :
    ∃ x, f.word v = .ok x := by
  obtain ⟨hwords, hreg, hle⟩ := hv
  have hsize := hf.regs
  have hlt : v.reg.toNat < f.regs.size := by omega
  refine ⟨f.regs[v.reg.toNat], ?_⟩
  rw [Frame.word, if_neg (by omega), Array.getElem?_eq_getElem hlt]

theorem Frame.Fits.set (hf : f.Fits p) (hv : (p.bounds H w).value v n) (ws : List UInt64) :
    ∃ f', f.set v ws = .ok f' ∧ f'.Fits p :=
  ⟨_, if_pos (hf.holds hv), hf.setRegs _ _⟩

theorem Frame.Fits.slotStart (hf : f.Fits p) {k off : Int} (hk : (p.bounds H w).slot k off n) :
    ∃ start, f.slotStart p k off n = .ok start := by
  obtain ⟨base, hbase, hlo, hhi⟩ := hk
  have hmax := Arena.maxWords_toNat
  have hfew := hf.fewWords
  have hsize := hf.words
  obtain ⟨start, hstart⟩ := Int.eq_ofNat_of_zero_le hlo
  have hfirst : wrap (base + off) = start := by
    rw [hstart]
    exact wrap_of_lt (by omega)
  have hlast : wrap ((start : Int) + n) = (start + n : Nat) := by
    rw [← Int.natCast_add]
    exact wrap_of_lt (by omega)
  refine ⟨start, ?_⟩
  simp only [Frame.slotStart, hbase, Except.mapError, bind, Except.bind, hfirst, hlast]
  rw [if_neg (by omega), if_neg (by omega), Int.toNat_natCast]
  rfl

end Frames

/-! ### Stops -/

section Stops

variable {σ : Type}

/-- An address that is neither in the frame nor in the memory of the host. -/
inductive BadAddress (host : Host σ) : Stop RunError → Prop where
  | frame (index : UInt64) : BadAddress host (.error (.frameAddress index))
  | noMemory (hm : host.memory = none) (addr : UInt64) :
    BadAddress host (.error (.noMemory addr))
  | load {memory : Memory σ} (hm : host.memory = some memory) {addr : UInt64} {n : Int} {s s' : σ}
    {e : Stop RunError} (hrun : memory.load addr n s = .error e s') : BadAddress host e
  | store {memory : Memory σ} (hm : host.memory = some memory) {addr : UInt64} {ws : List UInt64}
    {s s' : σ} {e : Stop RunError} (hrun : memory.store addr ws s = .error e s') :
    BadAddress host e

end Stops

/-! ### Instructions -/

/-- An index into the frame has no frame bit. -/
theorem unmarked_lt {addr : UInt64} (h : addr &&& frameBit ≠ 0) :
    (addr ^^^ frameBit).toNat < 2 ^ 63 := by
  have hbit : addr.toNat.testBit 63 = true := by
    by_contra hnot
    refine h (UInt64.toNat.inj (Nat.eq_of_testBit_eq fun j => ?_))
    rw [UInt64.toNat_and, Nat.testBit_and, testBit_frameBit]
    by_cases hj : j = 63
    · subst hj
      simpa using hnot
    · simp [hj]
  refine Nat.lt_pow_two_of_testBit _ fun j hj => ?_
  rw [UInt64.toNat_xor, Nat.testBit_xor, testBit_frameBit]
  by_cases hj' : j = 63
  · subst hj'
    rw [hbit]
    rfl
  · have hlt : addr.toNat < 2 ^ j :=
      Nat.lt_of_lt_of_le addr.toNat_lt (Nat.pow_le_pow_right (by omega) (by omega))
    rw [Nat.testBit_lt_two_pow hlt, decide_eq_false hj']
    rfl

section Exec

variable {σ : Type} {host : Host σ} {H : Services} {p : Program} {f : Frame} {s : σ} {w n : Nat}

/-- Where an instruction of a program in bounds leads: onward only if it does not end its
    block, and to a block or to a result of `w` words otherwise. -/
def Next.Fits (p : Program) (w : Nat) (x : Instr) : Next → Prop
  | .onward f => f.Fits p ∧ x.opcode.terminates = false
  | .jump f target => f.Fits p ∧ ∃ b, p.block? target = some b
  | .done ws => ws.length = w

theorem sound_yields {α : Type} {x : Except Fault α} {a : α} {Q : α → σ → Prop}
    {E : Stop RunError → σ → Prop} (hx : x = .ok a) (hq : Q a s) :
    Yields (sound x : Run σ α) s Q E :=
  Yields.of_ok (sound_eq_ok hx) hq

theorem loadAt_yields (hf : f.Fits p) (addr : UInt64) {v : Value}
    (hv : (p.bounds H w).value v n) :
    Yields (loadAt host f addr v.words) s (fun _ _ => True) (fun e _ => BadAddress host e) := by
  have hmax := Arena.maxWords_toNat
  have hregs := hf.regs
  have hfew := hf.fewRegs
  obtain ⟨hwords, hreg, hle⟩ := hv
  unfold loadAt
  split
  · rename_i hbit
    dsimp only
    split
    · exact .frame _
    · -- Adding a width to an index does not wrap around.
      have hfirst := unmarked_lt hbit
      have hwidth : (UInt64.ofInt v.words).toNat = n := by
        rw [hwords, ofInt_natCast, UInt64.toNat_ofNat']
        omega
      have hnot : ¬ (addr ^^^ frameBit) + UInt64.ofInt v.words < addr ^^^ frameBit := by
        rw [UInt64.lt_iff_toNat_lt, UInt64.toNat_add, hwidth]
        omega
      rw [if_neg hnot]
      trivial
  · cases hm : host.memory with
    | none => exact .noMemory hm addr
    | some memory =>
      dsimp only
      cases hrun : memory.load addr v.words s with
      | ok ws s' => exact Yields.of_ok hrun trivial
      | error e s' => exact Yields.of_error hrun (.load hm hrun)

theorem storeAt_yields (hf : f.Fits p) (addr : UInt64) (ws : List UInt64) :
    Yields (storeAt host f addr ws) s (fun f' _ => f'.Fits p) (fun e _ => BadAddress host e) := by
  unfold storeAt
  split
  · dsimp only
    split
    · exact .frame _
    · exact hf.setWords _ _
  · cases hm : host.memory with
    | none => exact .noMemory hm addr
    | some memory =>
      refine Yields.bind ?_
      cases hrun : memory.store addr ws s with
      | ok u s' => exact Yields.of_ok hrun hf
      | error e s' => exact Yields.of_error hrun (.store hm hrun)

theorem Program.block?_eq_some {i : Int} {b : Block} (h : p.block? i = some b) :
    ∃ j : Nat, i = j ∧ p.blocks[j]? = some b := by
  unfold Program.block? at h
  split at h
  · cases h
  · exact ⟨i.toNat, by omega, h⟩

end Exec

end TreeMachine.Code
