import TreeMachine.Code.Run
import TreeMachine.Proofs.Arena.Words
import TreeMachine.Proofs.Outcome

/-! # Frames of running code

  The registers and the slots of a frame are arrays of words, and a value is a run of words
  in one of them.  Numbers of registers, widths and offsets wrap around, but a frame that
  exists is far too small for that.  Main statements: what each instruction does to a frame
  whose registers and slots are in place.
-/

namespace TreeMachine.Code

open Arena (writeFrom size_writeFrom getElem?_writeFrom)

/-! ### Runs of words -/

/-- The words `ws` stand in the array from index `i` on. -/
def Stands (xs : Array UInt64) (i : Nat) (ws : List UInt64) : Prop :=
  ∀ k, k < ws.length → xs[i + k]? = ws[k]?

namespace Stands

variable {xs ys : Array UInt64} {i j : Nat} {u ws : List UInt64}

theorem nil (xs : Array UInt64) (i : Nat) : Stands xs i [] := by
  intro k hk
  simp at hk

theorem bound (h : Stands xs i ws) (hpos : 0 < ws.length) : i + ws.length ≤ xs.size := by
  have hlast := h (ws.length - 1) (by omega)
  rw [List.getElem?_eq_getElem (by omega)] at hlast
  obtain ⟨hlt, -⟩ := Array.getElem?_eq_some_iff.1 hlast
  omega

/-- The words at a place are determined by their number. -/
theorem eq (h : Stands xs i u) (h' : Stands xs i ws) (hlen : u.length = ws.length) : u = ws := by
  apply List.ext_getElem?
  intro k
  by_cases hk : k < u.length
  · rw [← h k hk, ← h' k (by omega)]
  · rw [List.getElem?_eq_none (by omega), List.getElem?_eq_none (by omega)]

/-- Words that stand in place can be cut out. -/
theorem extract (h : Stands xs i ws) (hi : i + ws.length ≤ xs.size) :
    (xs.extract i (i + ws.length)).toList = ws := by
  apply List.ext_getElem?
  intro k
  rw [Array.getElem?_toList, Array.getElem?_extract]
  by_cases hk : k < ws.length
  · rw [if_pos (by omega), h k hk]
  · rw [if_neg (by omega), List.getElem?_eq_none (by omega)]

/-- Some words stand wherever there is room for them. -/
theorem exists_of_le {n : Nat} (hi : i + n ≤ xs.size) :
    ∃ ws, ws.length = n ∧ Stands xs i ws := by
  refine ⟨(xs.extract i (i + n)).toList, ?_, ?_⟩
  · simp only [Array.length_toList, Array.size_extract]
    omega
  · intro k hk
    simp only [Array.length_toList, Array.size_extract] at hk
    rw [Array.getElem?_toList, Array.getElem?_extract, if_pos (by omega)]

/-- Words are in place wherever the array has not changed. -/
theorem congr (h : Stands xs i ws)
    (hsame : ∀ k, i ≤ k → k < i + ws.length → ys[k]? = xs[k]?) : Stands ys i ws := by
  intro k hk
  rw [hsame _ (by omega) (by omega), h k hk]

theorem append (h : Stands xs i u) (h' : Stands xs (i + u.length) ws) :
    Stands xs i (u ++ ws) := by
  intro k hk
  rw [List.length_append] at hk
  by_cases hku : k < u.length
  · rw [h k hku, List.getElem?_append_left hku]
  · have hrest := h' (k - u.length) (by omega)
    rw [List.getElem?_append_right (by omega), ← hrest]
    congr 1
    omega

theorem single {w : UInt64} : Stands xs i [w] ↔ xs[i]? = some w := by
  constructor
  · intro h
    simpa using h 0 (by simp)
  · intro h k hk
    have hk0 : k = 0 := by simpa using hk
    subst hk0
    simpa using h

/-- What has been written stands in place. -/
theorem write (hi : i + ws.length ≤ xs.size) : Stands (writeFrom xs i ws) i ws := by
  intro k hk
  rw [getElem?_writeFrom _ _ _ _ hi, if_pos (by omega), Nat.add_sub_cancel_left]

end Stands

/-- A write leaves everything outside its range alone. -/
theorem getElem?_writeFrom_of_not {xs : Array UInt64} {i j : Nat} {ws : List UInt64}
    (hi : i + ws.length ≤ xs.size) (hj : ¬ (i ≤ j ∧ j < i + ws.length)) :
    (writeFrom xs i ws)[j]? = xs[j]? := by
  rw [getElem?_writeFrom _ _ _ _ hi, if_neg hj]

/-! ### Numbers that do not wrap -/

theorem wrap_of_lt {n : Nat} (h : n < 2 ^ 63) : wrap n = n := by
  rw [wrap, Int.bmod_eq_of_le]
  · simp only [UInt64.size]
    omega
  · simp only [UInt64.size]
    omega

theorem wrap_le (n : Nat) : wrap n ≤ n := by
  simp only [wrap, Int.bmod_def, UInt64.size]
  split <;> omega

theorem wrap_add (n k : Nat) : wrap (wrap n + k) = wrap ((n + k : Nat) : Int) := by
  simp only [wrap, Int.bmod_add_bmod, Int.natCast_add]

/-- The value of `w` words that starts at register `r`. -/
def Value.run (r w : Nat) : Value := if w = 0 then .void else ⟨wrap r, w⟩

@[simp] theorem Value.words_run (r w : Nat) : (Value.run r w).words = w := by
  unfold Value.run
  split
  · subst w
    rfl
  · rfl

theorem Value.reg_run {r w : Nat} (hw : 0 < w) : (Value.run r w).reg = wrap r := by
  rw [Value.run, if_neg (by omega)]

@[simp] theorem Value.isVoid_run (r w : Nat) : (Value.run r w).isVoid = decide (w = 0) := by
  rw [Value.isVoid, Value.words_run]
  by_cases hw : w = 0
  · subst hw
    rfl
  · simp [hw]

/-! ### Frames of a program -/

/-- The frame has the registers and the words that the program asks for. -/
structure Frame.Fits (f : Frame) (p : Program) : Prop where
  regs : f.regs.size = p.registers.toNat
  words : f.words.size = p.frameWords.toNat
  fewRegs : f.regs.size ≤ Arena.maxWords.toNat
  fewWords : f.words.size ≤ Arena.maxWords.toNat

/-- The place in the frame where a slot starts. -/
def Program.start (p : Program) (k : Nat) : Nat := (p.slotOffsets[k]?.getD p.frameWords).toNat

namespace Frame

variable {f : Frame} {p : Program} {r w : Nat} {ws : List UInt64}

theorem zeros_eq_ok {n : Nat} (hn : n ≤ Arena.maxWords.toNat) :
    zeros n = .ok (Array.replicate n 0) := by
  rw [zeros, if_pos (by omega), Int.toNat_natCast]

theorem holds_run (hr : r + w ≤ f.regs.size) (hf : f.regs.size ≤ Arena.maxWords.toNat) :
    f.holds (Value.run r w) = true := by
  have hmax := Arena.maxWords_toNat
  unfold Value.run
  split
  · simp [holds, Value.void]
  · have hwrap : wrap r = r := wrap_of_lt (by omega)
    simp only [holds, hwrap, Bool.and_eq_true, decide_eq_true_eq]
    omega

theorem get_run (h : Stands f.regs r ws) (hf : f.regs.size ≤ Arena.maxWords.toNat) :
    f.get (Value.run r ws.length) = .ok ws := by
  have hmax := Arena.maxWords_toNat
  by_cases hw : ws.length = 0
  · rw [List.eq_nil_of_length_eq_zero hw]
    simp [get, Value.run, Value.void, holds]
  · have hle := h.bound (by omega)
    have hwrap : wrap r = r := wrap_of_lt (by omega)
    rw [get, if_pos (holds_run hle hf), Value.words_run, Value.reg_run (by omega), hwrap]
    rw [Int.toNat_natCast, ← Int.natCast_add, Int.toNat_natCast, h.extract hle]

theorem word_run {x : UInt64} (h : f.regs[r]? = some x)
    (hf : f.regs.size ≤ Arena.maxWords.toNat) : f.word (Value.run r 1) = .ok x := by
  have hmax := Arena.maxWords_toNat
  obtain ⟨hlt, -⟩ := Array.getElem?_eq_some_iff.1 h
  have hwrap : wrap r = r := wrap_of_lt (by omega)
  rw [word, Value.reg_run Nat.one_pos, hwrap, if_neg (by omega), Int.toNat_natCast, h]

theorem set_run (hr : r + ws.length ≤ f.regs.size) (hpos : 0 < ws.length)
    (hf : f.regs.size ≤ Arena.maxWords.toNat) :
    f.set (Value.run r ws.length) ws = .ok { f with regs := writeFrom f.regs r ws } := by
  have hmax := Arena.maxWords_toNat
  have hwrap : wrap r = r := wrap_of_lt (by omega)
  rw [set, if_pos (holds_run hr hf), Value.words_run, Value.reg_run hpos, hwrap,
    Int.toNat_natCast, Int.toNat_natCast, List.take_length]

theorem set_word {x : UInt64} (hr : r < f.regs.size) (hf : f.regs.size ≤ Arena.maxWords.toNat) :
    f.set ⟨(Value.run r 1).reg, 1⟩ [x] = .ok { f with regs := writeFrom f.regs r [x] } := by
  have hone : (⟨(Value.run r 1).reg, 1⟩ : Value) = Value.run r 1 := by
    rw [Value.reg_run Nat.one_pos, Value.run, if_neg (by omega)]
    rfl
  have hset := @set_run f r [x] (by simp only [List.length_singleton]; omega) (by simp) hf
  rw [hone]
  exact hset

/-- Access to words of a slot that are in the frame. -/
theorem slotStart_eq_ok {k off : Nat} (hf : f.words.size ≤ Arena.maxWords.toNat)
    (hk : p.slotOffsets[k]? = some (p.start k : Int))
    (hin : p.start k + off + w ≤ f.words.size) :
    f.slotStart p k off w = .ok (p.start k + off) := by
  have hmax := Arena.maxWords_toNat
  have hoff : slotOffset p k = .ok (p.start k : Int) := by
    rw [slotOffset, if_neg (by omega), Int.toNat_natCast, hk]
  have hfirst : wrap ((p.start k : Int) + off) = (p.start k + off : Nat) := by
    rw [← Int.natCast_add, wrap_of_lt (by omega)]
  have hlast : wrap (((p.start k + off : Nat) : Int) + w) = (p.start k + off + w : Nat) := by
    rw [← Int.natCast_add, wrap_of_lt (by omega)]
  simp only [slotStart, hoff, Except.mapError, bind, Except.bind, hfirst, hlast]
  rw [if_neg (by omega), if_neg (by omega), Int.toNat_natCast]
  rfl

end Frame

end TreeMachine.Code
