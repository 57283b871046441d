import Mathlib.Algebra.Order.Ring.Int
import Mathlib.Tactic.Common
import TreeMachine.Arena.Basic

/-! # The words of the arena

  Access to the arena is checked with sums that wrap around.  An arena is far smaller than
  the address space, so inside it no sum wraps, and what reads and writes do can be said
  about plain positions.  Main statements: a read succeeds exactly on words that stand in
  the arena, and a write changes exactly the words of its range.
-/

namespace TreeMachine.Arena

/-! ### Size -/

/-- The arena fits the address space of the host. -/
def Sized (a : Arena) : Prop := a.words.size ≤ maxWords.toNat

theorem maxWords_toNat : maxWords.toNat = 2 ^ 45 := rfl

/-- A position of the arena is far below the point where sums wrap. -/
theorem Sized.lt {a : Arena} (hs : a.Sized) : a.words.size < 2 ^ 46 := by
  have := hs
  rw [Sized, maxWords_toNat] at this
  omega

theorem limit_toNat {a : Arena} (hs : a.Sized) : a.limit.toNat = a.words.size := by
  have := hs.lt
  rw [limit, UInt64.toNat_ofNat']
  omega

theorem capacity_toNat {a : Arena} (hs : a.Sized) (h : 0 < a.words.size) :
    a.capacity.toNat = a.words.size - 1 := by
  have hlim := limit_toNat hs
  rw [capacity, UInt64.toNat_sub_of_le _ _ (by rw [UInt64.le_iff_toNat_le, hlim]; exact h), hlim]
  rfl

theorem toNat_pos_iff {x : UInt64} : 0 < x.toNat ↔ x ≠ 0 := by
  rw [Nat.pos_iff_ne_zero, ne_eq, ne_eq, ← UInt64.toNat_inj, UInt64.toNat_zero]

/-- A word that is not zero has one before it. -/
theorem toNat_pred {x : UInt64} (h : x ≠ 0) : (x - 1).toNat + 1 = x.toNat := by
  have hpos := toNat_pos_iff.2 h
  have hle : (1 : UInt64) ≤ x := by
    rw [UInt64.le_iff_toNat_le, UInt64.toNat_one]
    exact hpos
  rw [UInt64.toNat_sub_of_le _ _ hle, UInt64.toNat_one]
  omega

/-- Sums of addresses inside the arena do not wrap. -/
theorem toNat_add_of_le {a : Arena} (hs : a.Sized) {x y : UInt64}
    (h : x.toNat + y.toNat ≤ a.words.size) : (x + y).toNat = x.toNat + y.toNat := by
  have := hs.lt
  rw [UInt64.toNat_add]
  omega

/-! ### Words in place -/

/-- The words `ws` stand in the arena from `addr` on. -/
structure Holds (a : Arena) (addr : Addr) (ws : List UInt64) : Prop where
  pos : 0 < addr.toNat
  inside : addr.toNat + ws.length ≤ a.words.size
  same : ∀ i, i < ws.length → a.words[addr.toNat + i]? = ws[i]?

/-- A part of words in place is in place. -/
theorem Holds.drop {a : Arena} (hs : a.Sized) {addr : Addr} {ws : List UInt64}
    (h : a.Holds addr ws) {k : UInt64} (hk : k.toNat ≤ ws.length) :
    a.Holds (addr + k) (ws.drop k.toNat) := by
  have hin := h.inside
  have hsum : (addr + k).toNat = addr.toNat + k.toNat := toNat_add_of_le hs (by omega)
  refine ⟨by have := h.pos; omega, by simp only [List.length_drop]; omega, ?_⟩
  intro i hi
  rw [List.length_drop] at hi
  rw [hsum, List.getElem?_drop, ← h.same (k.toNat + i) (by omega), Nat.add_assoc]

theorem Holds.take {a : Arena} {addr : Addr} {ws : List UInt64} (h : a.Holds addr ws)
    (k : Nat) : a.Holds addr (ws.take k) := by
  have hin := h.inside
  refine ⟨h.pos, by simp only [List.length_take]; omega, ?_⟩
  intro i hi
  rw [List.length_take] at hi
  rw [h.same i (by omega), List.getElem?_take_of_lt (by omega)]

/-- Words in place one after the other are in place together. -/
theorem Holds.append {a : Arena} (hs : a.Sized) {addr n : Addr} {ws ws' : List UInt64}
    (h : a.Holds addr ws) (hn : n.toNat = ws.length) (h' : a.Holds (addr + n) ws') :
    a.Holds addr (ws ++ ws') := by
  have hin := h.inside
  have hin' := h'.inside
  have hsum : (addr + n).toNat = addr.toNat + n.toNat := toNat_add_of_le hs (by omega)
  refine ⟨h.pos, by rw [List.length_append]; omega, ?_⟩
  intro i hi
  rw [List.length_append] at hi
  by_cases hlt : i < ws.length
  · rw [List.getElem?_append_left hlt, h.same i hlt]
  · rw [List.getElem?_append_right (by omega), ← h'.same (i - ws.length) (by omega)]
    congr 1
    omega

/-! ### Reading -/

theorem check_eq_ok {a : Arena} (hs : a.Sized) {addr : Addr} {n : UInt64} (h0 : 0 < addr.toNat)
    (h : addr.toNat + n.toNat ≤ a.words.size) : a.check addr n = .ok () := by
  have hlim := limit_toNat hs
  have hsum := toNat_add_of_le hs h
  have hle : ¬ a.limit < addr + n := by
    rw [UInt64.lt_iff_toNat_lt]
    omega
  simp [check, toNat_pos_iff.1 h0, hle]

theorem of_check_eq_ok {a : Arena} (hs : a.Sized) {addr : Addr} {n : UInt64}
    (h : a.check addr n = .ok ()) : 0 < addr.toNat ∧ (addr + n).toNat ≤ a.words.size := by
  have hlim := limit_toNat hs
  unfold check at h
  split at h
  · cases h
  · rename_i hn
    rw [not_or, UInt64.lt_iff_toNat_lt, hlim] at hn
    exact ⟨toNat_pos_iff.2 hn.1, by omega⟩

theorem word_eq_ok_iff {a : Arena} (hs : a.Sized) {addr : Addr} {w : UInt64} :
    a.word addr = .ok w ↔ 0 < addr.toNat ∧ a.words[addr.toNat]? = some w := by
  constructor
  · intro h
    unfold word at h
    cases hc : a.check addr 1 with
    | error f => rw [hc] at h; cases h
    | ok u =>
      have hpos := (of_check_eq_ok hs hc).1
      rw [hc] at h
      simp only [bind, Except.bind] at h
      split at h
      · rename_i v hv
        cases h
        exact ⟨hpos, hv⟩
      · cases h
  · rintro ⟨hpos, hw⟩
    obtain ⟨hlt, -⟩ := Array.getElem?_eq_some_iff.1 hw
    have hc : a.check addr 1 = .ok () := check_eq_ok hs hpos hlt
    simp [word, hc, hw, bind, Except.bind]

/-- A word that can be read is in place. -/
theorem holds_of_word {a : Arena} (hs : a.Sized) {addr : Addr} {w : UInt64}
    (h : a.word addr = .ok w) : a.Holds addr [w] := by
  obtain ⟨hpos, hw⟩ := (word_eq_ok_iff hs).1 h
  obtain ⟨hlt, -⟩ := Array.getElem?_eq_some_iff.1 hw
  refine ⟨hpos, hlt, ?_⟩
  intro i hi
  obtain rfl : i = 0 := by simpa using hi
  exact hw

theorem slice_eq_ok_iff {a : Arena} (hs : a.Sized) {addr : Addr} {n : UInt64}
    {ws : List UInt64} :
    a.slice addr n = .ok ws ↔ a.Holds addr ws ∧ ws.length = n.toNat := by
  have hlt := hs.lt
  have hn := n.toNat_lt
  have haddr := addr.toNat_lt
  constructor
  · intro h
    unfold slice at h
    cases hc : a.check addr n with
    | error f => rw [hc] at h; cases h
    | ok u =>
      have ⟨hpos, hle⟩ := of_check_eq_ok hs hc
      rw [hc] at h
      simp only [bind, Except.bind] at h
      split at h
      · rename_i hord
        cases h
        rw [UInt64.le_iff_toNat_le] at hord
        rw [UInt64.toNat_add] at hle hord
        have hin : addr.toNat + n.toNat ≤ a.words.size := by omega
        have hlen : (a.words.extract addr.toNat (addr.toNat + n.toNat)).toList.length
            = n.toNat := by
          simp only [Array.length_toList, Array.size_extract]
          omega
        refine ⟨⟨hpos, by omega, ?_⟩, hlen⟩
        intro i hi
        rw [Array.getElem?_toList, Array.getElem?_extract]
        simp only [Array.length_toList, Array.size_extract] at hi
        rw [if_pos (by omega)]
      · cases h
  · rintro ⟨hh, hlen⟩
    have hin := hh.inside
    have hc : a.check addr n = .ok () := check_eq_ok hs hh.pos (by omega)
    have hord : addr ≤ addr + n := by
      rw [UInt64.le_iff_toNat_le, toNat_add_of_le hs (by omega)]
      omega
    have heq : (a.words.extract addr.toNat (addr.toNat + n.toNat)).toList = ws := by
      apply List.ext_getElem?
      intro i
      rw [Array.getElem?_toList, Array.getElem?_extract]
      by_cases hi : i < ws.length
      · rw [if_pos (by omega), hh.same i hi]
      · rw [if_neg (by omega), List.getElem?_eq_none (by omega)]
    simp only [slice, hc, bind, Except.bind, if_pos hord, heq]

/-- Reading several words may fault, but it ends. -/
theorem slice_ne_endless (a : Arena) (addr : Addr) (n : UInt64) :
    a.slice addr n ≠ .error .endless := by
  unfold slice check
  split
  · exact fun h => by cases h
  · show (if addr ≤ addr + n then _ else _ : Except Fault (List UInt64)) ≠ _
    split <;> exact fun h => by cases h

/-- A word in place can be read. -/
theorem Holds.word {a : Arena} (hs : a.Sized) {addr p : Addr} {ws : List UInt64}
    (h : a.Holds addr ws) {i : Nat} {w : UInt64} (hw : ws[i]? = some w)
    (hp : p.toNat = addr.toNat + i) : a.word p = .ok w := by
  obtain ⟨hi, -⟩ := List.getElem?_eq_some_iff.1 hw
  rw [word_eq_ok_iff hs]
  have hpos := h.pos
  exact ⟨by omega, by rw [hp, h.same i hi, hw]⟩

/-- The first word in place can be read. -/
theorem Holds.head {a : Arena} (hs : a.Sized) {addr : Addr} {w : UInt64} {ws : List UInt64}
    (h : a.Holds addr (w :: ws)) : a.word addr = .ok w :=
  h.word hs (List.getElem?_cons_zero ..) rfl

/-- A word some places further on can be read. -/
theorem Holds.word_add {a : Arena} (hs : a.Sized) {addr k : Addr} {ws : List UInt64}
    (h : a.Holds addr ws) {w : UInt64} (hw : ws[k.toNat]? = some w) :
    a.word (addr + k) = .ok w := by
  obtain ⟨hi, -⟩ := List.getElem?_eq_some_iff.1 hw
  have hin := h.inside
  exact h.word hs hw (toNat_add_of_le hs (by omega))

theorem Holds.slice {a : Arena} (hs : a.Sized) {addr : Addr} {n : UInt64} {ws : List UInt64}
    (h : a.Holds addr ws) (hlen : ws.length = n.toNat) : a.slice addr n = .ok ws :=
  (slice_eq_ok_iff hs).2 ⟨h, hlen⟩

/-- Every word inside the arena can be read. -/
theorem exists_word {a : Arena} (hs : a.Sized) {addr : Addr} (h0 : 0 < addr.toNat)
    (h : addr.toNat < a.words.size) : ∃ w, a.word addr = .ok w :=
  ⟨a.words[addr.toNat], (word_eq_ok_iff hs).2 ⟨h0, Array.getElem?_eq_getElem h⟩⟩

/-- Every run of words inside the arena can be read. -/
theorem exists_slice {a : Arena} (hs : a.Sized) {addr : Addr} {n : UInt64}
    (h0 : 0 < addr.toNat) (h : addr.toNat + n.toNat ≤ a.words.size) :
    ∃ ws, a.slice addr n = .ok ws := by
  have hle : addr ≤ addr + n := by
    rw [UInt64.le_iff_toNat_le, toNat_add_of_le hs h]
    omega
  rw [slice, check_eq_ok hs h0 h]
  exact ⟨_, if_pos hle⟩

/-! ### Writing -/

@[simp] theorem size_writeFrom (words : Array UInt64) (i : Nat) (ws : List UInt64) :
    (writeFrom words i ws).size = words.size := by
  induction ws generalizing words i with
  | nil => rfl
  | cons w rest ih => simp [writeFrom, ih]

/-- A write changes the words of its range and no others. -/
theorem getElem?_writeFrom (words : Array UInt64) (i : Nat) (ws : List UInt64) (j : Nat)
    (h : i + ws.length ≤ words.size) :
    (writeFrom words i ws)[j]? =
      if i ≤ j ∧ j < i + ws.length then ws[j - i]? else words[j]? := by
  induction ws generalizing words i with
  | nil =>
    rw [if_neg (by simp only [List.length_nil]; omega)]
    rfl
  | cons w rest ih =>
    simp only [List.length_cons] at h ⊢
    rw [writeFrom, ih _ _ (by simp only [Array.size_setIfInBounds]; omega)]
    rw [Array.getElem?_setIfInBounds]
    by_cases hij : i = j
    · subst hij
      rw [if_neg (by omega), if_pos (by omega), if_pos (by omega), if_pos (by omega)]
      simp
    · rw [if_neg hij]
      by_cases hj : i + 1 ≤ j ∧ j < i + 1 + rest.length
      · rw [if_pos hj, if_pos (by omega)]
        rw [show j - i = (j - (i + 1)) + 1 by omega, List.getElem?_cons_succ]
      · rw [if_neg hj, if_neg (by omega)]

@[simp] theorem size_clearFrom (words : Array UInt64) (i n : Nat) :
    (clearFrom words i n).size = words.size := by
  induction n generalizing words i with
  | zero => rfl
  | succ n ih => simp [clearFrom, ih]

/-- Clearing sets the words of its range to zero and changes no others. -/
theorem getElem?_clearFrom (words : Array UInt64) (i n j : Nat) (h : i + n ≤ words.size) :
    (clearFrom words i n)[j]? = if i ≤ j ∧ j < i + n then some 0 else words[j]? := by
  induction n generalizing words i with
  | zero =>
    rw [if_neg (by omega)]
    rfl
  | succ n ih =>
    rw [clearFrom, ih _ _ (by simp only [Array.size_setIfInBounds]; omega)]
    rw [Array.getElem?_setIfInBounds]
    by_cases hij : i = j
    · subst hij
      rw [if_neg (by omega), if_pos (by omega), if_pos (by omega), if_pos (by omega)]
    · rw [if_neg hij]
      by_cases hj : i + 1 ≤ j ∧ j < i + 1 + n
      · rw [if_pos hj, if_pos (by omega)]
      · rw [if_neg hj, if_neg (by omega)]

/-- Words written inside the arena. -/
theorem setWords_eq_ok {a : Arena} (hs : a.Sized) {addr : Addr} {ws : List UInt64}
    (h0 : 0 < addr.toNat) (h : addr.toNat + ws.length ≤ a.words.size) :
    setWords addr ws a = .ok () { a with words := writeFrom a.words addr.toNat ws } := by
  have hlt := hs.lt
  have hlen : (UInt64.ofNat ws.length).toNat = ws.length := by
    rw [UInt64.toNat_ofNat']
    omega
  have hc : a.check addr (UInt64.ofNat ws.length) = .ok () := check_eq_ok hs h0 (by omega)
  have hord : addr ≤ addr + UInt64.ofNat ws.length := by
    rw [UInt64.le_iff_toNat_le, toNat_add_of_le hs (by omega)]
    omega
  simp [setWords, hc, hord]

/-- A single word written inside the arena. -/
theorem setWord_eq_ok {a : Arena} (hs : a.Sized) {addr : Addr} {w : UInt64}
    (h0 : 0 < addr.toNat) (h : addr.toNat < a.words.size) :
    setWord addr w a = .ok () { a with words := writeFrom a.words addr.toNat [w] } := by
  have hc : a.check addr 1 = .ok () := check_eq_ok hs h0 h
  simp [setWord, hc, h, writeFrom]

/-- What has been written stands in place. -/
theorem holds_writeFrom {a : Arena} {addr : Addr} {ws : List UInt64} (h0 : 0 < addr.toNat)
    (h : addr.toNat + ws.length ≤ a.words.size) :
    ({ a with words := writeFrom a.words addr.toNat ws } : Arena).Holds addr ws := by
  refine ⟨h0, by simpa using h, ?_⟩
  intro i hi
  rw [getElem?_writeFrom _ _ _ _ h, if_pos (by omega), Nat.add_sub_cancel_left]

end TreeMachine.Arena
