import TreeMachine.Proofs.Arena.Words
import TreeMachine.Proofs.Outcome

/-! # Checked access

  Every access to the arena is first checked against the address after its range.  The sum
  that gives this address wraps around, so a range that reaches around the end of the address
  space can pass the check.  Main statements: how an access ends depends on its range alone.
  If the range is in the arena, the access succeeds, and it touches no word outside the range.
  If not, it stops before it has touched anything: with the broken invariant of the check, or,
  where the range reaches around back into the arena, only at the bounds of the array.
-/

namespace TreeMachine.Arena

variable {a a' b : Arena} {addr : Addr} {n w : UInt64} {ws : List UInt64}

/-! ### Ranges -/

/-- The words of the range are words of the arena, and word zero is not among them. -/
def InRange (a : Arena) (addr : Addr) (n : UInt64) : Prop :=
  0 < addr.toNat ∧ addr.toNat + n.toNat ≤ a.words.size

instance (a : Arena) (addr : Addr) (n : UInt64) : Decidable (a.InRange addr n) :=
  inferInstanceAs (Decidable (_ ∧ _))

/-- The range reaches around the end of the address space, and the address after it is one
    of the arena again. -/
def Around (a : Arena) (addr : Addr) (n : UInt64) : Prop :=
  2 ^ 64 ≤ addr.toNat + n.toNat ∧ addr.toNat + n.toNat ≤ 2 ^ 64 + a.words.size

instance (a : Arena) (addr : Addr) (n : UInt64) : Decidable (a.Around addr n) :=
  inferInstanceAs (Decidable (_ ∧ _))

theorem not_around_of_lt (h : addr.toNat + n.toNat < 2 ^ 64) : ¬ a.Around addr n := by
  intro haround
  have := haround.1
  omega

/-- No range is in the arena and reaches around. -/
theorem Around.not_inRange (hs : a.Sized) (h : a.Around addr n) : ¬ a.InRange addr n := by
  intro hin
  have := hs.lt
  have := h.1
  have := hin.2
  omega

/-- A range that reaches around seems to stop in front of where it starts. -/
theorem Around.not_le (hs : a.Sized) (h : a.Around addr n) : ¬ addr ≤ addr + n := by
  have hlt := hs.lt
  have haddr := addr.toNat_lt
  have hn := n.toNat_lt
  have := h.1
  have := h.2
  rw [UInt64.le_iff_toNat_le, UInt64.toNat_add]
  omega

/-- Among single words only the last one of the address space reaches around. -/
theorem around_one_iff : a.Around addr 1 ↔ addr.toNat = 2 ^ 64 - 1 := by
  have hlt := addr.toNat_lt
  unfold Around
  rw [UInt64.toNat_one]
  omega

/-- The check lets through what is in the arena and what reaches around, and nothing else. -/
theorem check_eq_ok_iff (hs : a.Sized) :
    a.check addr n = .ok () ↔ a.InRange addr n ∨ a.Around addr n := by
  have hlt := hs.lt
  have haddr := addr.toNat_lt
  have hn := n.toNat_lt
  have hpass : a.check addr n = .ok () ↔ addr ≠ 0 ∧ ¬ a.limit < addr + n := by
    unfold check
    split
    · rename_i h
      simp only [violate, reduceCtorEq, false_iff, not_and, not_not]
      exact h.resolve_left
    · rename_i h
      simpa only [true_iff] using not_or.1 h
  rw [hpass, ← toNat_pos_iff, UInt64.lt_iff_toNat_lt, limit_toNat hs, UInt64.toNat_add, InRange,
    Around]
  omega

theorem check_eq_error (hs : a.Sized) (hin : ¬ a.InRange addr n) (haround : ¬ a.Around addr n) :
    a.check addr n = .error (.broken (.outOfRange addr (addr + n) a.limit)) := by
  have hnot : a.check addr n ≠ .ok () := by
    rw [ne_eq, check_eq_ok_iff hs]
    exact not_or.2 ⟨hin, haround⟩
  unfold check at hnot ⊢
  split
  · rfl
  · rename_i h
    exact absurd (if_neg h) hnot

/-! ### Accesses -/

/-- What stops an access to a range that is not in the arena. -/
def rangeFault (a : Arena) (addr : Addr) (n : UInt64) : Fault :=
  if a.Around addr n then .outOfBounds else .broken (.outOfRange addr (addr + n) a.limit)

/-- The operation accesses the range: it succeeds exactly if the range is in the arena, and
    ends as `Q` says; otherwise it stops with the fault of the range and has done nothing. -/
def Accesses {α : Type} (x : EStateM Fault Arena α) (a : Arena) (addr : Addr) (n : UInt64)
    (Q : α → Arena → Prop) : Prop :=
  Yields x a (fun v a' => a.InRange addr n ∧ Q v a')
    (fun f a' => ¬ a.InRange addr n ∧ f = a.rangeFault addr n ∧ a' = a)

namespace Accesses

variable {α : Type} {x : EStateM Fault Arena α} {Q : α → Arena → Prop}

/-- An operation that checks its range before it does anything else. -/
theorem of_check (hs : a.Sized)
    (hcheck : ∀ f, a.check addr n = .error f → x a = .error f a)
    (haround : a.check addr n = .ok () → a.Around addr n → x a = .error .outOfBounds a)
    (hin : a.check addr n = .ok () → a.InRange addr n → ∃ v a', x a = .ok v a' ∧ Q v a') :
    Accesses x a addr n Q := by
  by_cases hrange : a.InRange addr n
  · obtain ⟨v, a', hx, hq⟩ := hin ((check_eq_ok_iff hs).2 (Or.inl hrange)) hrange
    exact Yields.of_ok hx ⟨hrange, hq⟩
  · by_cases hwrap : a.Around addr n
    · have hx := haround ((check_eq_ok_iff hs).2 (Or.inr hwrap)) hwrap
      exact Yields.of_error hx ⟨hrange, by rw [rangeFault, if_pos hwrap], rfl⟩
    · have hx := hcheck _ (check_eq_error hs hrange hwrap)
      exact Yields.of_error hx ⟨hrange, by rw [rangeFault, if_neg hwrap], rfl⟩

theorem exists_ok (h : Accesses x a addr n Q) (hin : a.InRange addr n) :
    ∃ v a', x a = .ok v a' ∧ Q v a' := by
  cases hx : x a with
  | ok v a' => exact ⟨v, a', rfl, (Yields.ok h hx).2⟩
  | error f a' => exact absurd hin (Yields.error h hx).1

theorem eq_error (h : Accesses x a addr n Q) (hout : ¬ a.InRange addr n) :
    x a = .error (a.rangeFault addr n) a := by
  cases hx : x a with
  | ok v a' => exact absurd (Yields.ok h hx).1 hout
  | error f a' =>
    obtain ⟨-, hf, ha⟩ := Yields.error h hx
    rw [hf, ha]

/-- An access whose range reaches around gets past the check. -/
theorem eq_outOfBounds (h : Accesses x a addr n Q) (hs : a.Sized) (hwrap : a.Around addr n) :
    x a = .error .outOfBounds a := by
  rw [h.eq_error (hwrap.not_inRange hs), rangeFault, if_pos hwrap]

end Accesses

/-! ### Reading -/

/-- Reading several words is an access to them. -/
theorem slice_accesses (hs : a.Sized) (addr : Addr) (n : UInt64) :
    Accesses (inspect (·.slice addr n)) a addr n
      (fun ws a' => a.Holds addr ws ∧ ws.length = n.toNat ∧ a' = a) := by
  apply Accesses.of_check hs
  · intro f hf
    apply inspect_eq_error
    rw [slice, hf]
    rfl
  · intro hcheck hwrap
    apply inspect_eq_error
    rw [slice, except_bind_ok hcheck, if_neg (hwrap.not_le hs)]
  · intro _ hin
    obtain ⟨ws, hws⟩ := exists_slice hs hin.1 hin.2
    obtain ⟨hholds, hlen⟩ := (slice_eq_ok_iff hs).1 hws
    exact ⟨ws, a, inspect_eq_ok hws, hholds, hlen, rfl⟩

/-- Reading a word is an access to it. -/
theorem word_accesses (hs : a.Sized) (addr : Addr) :
    Accesses (inspect (·.word addr)) a addr 1 (fun w a' => a.Holds addr [w] ∧ a' = a) := by
  have hlt := hs.lt
  apply Accesses.of_check hs
  · intro f hf
    apply inspect_eq_error
    rw [word, hf]
    rfl
  · intro hcheck hwrap
    have hlast := around_one_iff.1 hwrap
    have hnone : a.words[addr.toNat]? = none := Array.getElem?_eq_none (by omega)
    apply inspect_eq_error
    rw [word, except_bind_ok hcheck, hnone]
  · intro _ hin
    obtain ⟨w, hw⟩ := exists_word hs hin.1 hin.2
    exact ⟨w, a, inspect_eq_ok hw, holds_of_word hs hw, rfl⟩

/-- The answer to a read depends on the words of its range and on the size of the arena, and
    on nothing else. -/
theorem slice_local (hsize : b.words.size = a.words.size)
    (hsame : ∀ i, addr.toNat ≤ i → i < addr.toNat + n.toNat → b.words[i]? = a.words[i]?) :
    b.slice addr n = a.slice addr n := by
  have hlimit : b.limit = a.limit := by rw [limit, hsize, limit]
  have hcut : (b.words.extract addr.toNat (addr.toNat + n.toNat)).toList
      = (a.words.extract addr.toNat (addr.toNat + n.toNat)).toList := by
    apply List.ext_getElem?
    intro i
    rw [Array.getElem?_toList, Array.getElem?_toList, Array.getElem?_extract,
      Array.getElem?_extract, hsize]
    split
    · apply hsame <;> omega
    · rfl
  rw [slice, slice, check, check, hlimit, hcut]

theorem word_local (hsize : b.words.size = a.words.size)
    (hsame : b.words[addr.toNat]? = a.words[addr.toNat]?) : b.word addr = a.word addr := by
  have hlimit : b.limit = a.limit := by rw [limit, hsize, limit]
  rw [word, word, check, check, hlimit, hsame]

/-! ### Writing -/

/-- In `a'` the words `ws` stand at `addr`, and all else is as in `a`. -/
structure Rewritten (a : Arena) (addr : Addr) (ws : List UInt64) (a' : Arena) : Prop where
  holds : a'.Holds addr ws
  outside : ∀ i, ¬ (addr.toNat ≤ i ∧ i < addr.toNat + ws.length) → a'.words[i]? = a.words[i]?
  rest : a' = { a with words := a'.words }

theorem rewritten_writeFrom (h0 : 0 < addr.toNat) (h : addr.toNat + ws.length ≤ a.words.size) :
    a.Rewritten addr ws { a with words := writeFrom a.words addr.toNat ws } where
  holds := holds_writeFrom h0 h
  outside i hi := by rw [getElem?_writeFrom _ _ _ _ h, if_neg hi]
  rest := rfl

/-- Writing several words is an access to them. -/
theorem setWords_accesses (hs : a.Sized) (addr : Addr) (hlen : ws.length < 2 ^ 64) :
    Accesses (setWords addr ws) a addr (UInt64.ofNat ws.length)
      (fun _ a' => a.Rewritten addr ws a') := by
  have hcount : (UInt64.ofNat ws.length).toNat = ws.length := by
    rw [UInt64.toNat_ofNat', Nat.mod_eq_of_lt hlen]
  apply Accesses.of_check hs
  · intro f hf
    simp only [setWords, hf]
  · intro hcheck hwrap
    simp only [setWords, hcheck, if_neg (hwrap.not_le hs)]
  · intro _ hin
    obtain ⟨hpos, hle⟩ := hin
    rw [hcount] at hle
    exact ⟨(), _, setWords_eq_ok hs hpos hle, rewritten_writeFrom hpos hle⟩

/-- Writing a word is an access to it. -/
theorem setWord_accesses (hs : a.Sized) (addr : Addr) (w : UInt64) :
    Accesses (setWord addr w) a addr 1 (fun _ a' => a.Rewritten addr [w] a') := by
  have hlt := hs.lt
  apply Accesses.of_check hs
  · intro f hf
    simp only [setWord, hf]
  · intro hcheck hwrap
    have hlast := around_one_iff.1 hwrap
    simp only [setWord, hcheck]
    exact if_neg (by omega)
  · intro _ hin
    obtain ⟨hpos, hle⟩ := hin
    exact ⟨(), _, setWord_eq_ok hs hpos hle, rewritten_writeFrom hpos hle⟩

/-! ### Ranges that reach around -/

/-- In every arena the last word of the address space passes the check, and only the bounds of
    the array stop a read of it. -/
theorem word_last (hs : a.Sized) (hlast : addr.toNat = 2 ^ 64 - 1) :
    a.check addr 1 = .ok () ∧ a.word addr = .error .outOfBounds := by
  have hwrap : a.Around addr 1 := around_one_iff.2 hlast
  have hread := (word_accesses hs addr).eq_outOfBounds hs hwrap
  exact ⟨(check_eq_ok_iff hs).2 (Or.inr hwrap), (inspect_eq_error_iff.1 hread).1⟩

/-- Sixteen words: a range of nearly all words of the address space starts at word five and
    seems to stop at word two. -/
example :
    let a : Arena := ⟨Array.replicate 17 0, [⟨1, 16⟩], 16, false⟩
    a.word 0xFFFFFFFFFFFFFFFF = .error .outOfBounds ∧
      a.slice 5 0xFFFFFFFFFFFFFFFD = .error .outOfBounds ∧
      a.slice 5 13 = .error (.broken (.outOfRange 5 18 17)) := by
  decide +kernel

end TreeMachine.Arena
