import TreeMachine.Proofs.Source.Positions

/-! # Characters and bytes

  The cursor goes from character to character, while what it passes is bytes.  Main
  statements: a character is ASCII exactly if it is one byte, and then it is that byte; no
  byte of another character is ASCII, well formed or not.
-/

namespace TreeMachine

/-! ### Decoding -/

namespace Text

/-- The number of a character that there is. -/
theorem toNat_ofNat_of_valid {n : Nat} (hn : n.isValidChar) : (Char.ofNat n).toNat = n := by
  have hchar : Char.ofNat n = Char.ofNatAux n hn := dif_pos hn
  rw [hchar]
  rfl

theorem byteIn_iff {lo hi b : UInt8} :
    byteIn lo hi b = true ↔ lo.toNat ≤ b.toNat ∧ b.toNat ≤ hi.toNat := by
  simp [byteIn, UInt8.le_iff_toNat_le]

theorem isTrail_iff {b : UInt8} : isTrail b = true ↔ 128 ≤ b.toNat ∧ b.toNat ≤ 191 :=
  byteIn_iff

/-- The second byte keeps out characters that have a shorter form, and surrogates. -/
theorem secondOfThree_bounds {b second : UInt8} (h : secondOfThree b second = true) :
    128 ≤ second.toNat ∧ second.toNat ≤ 191 ∧ (b.toNat = 224 → 160 ≤ second.toNat) ∧
      (b.toNat = 237 → second.toNat ≤ 159) := by
  unfold secondOfThree at h
  simp only [← UInt8.toNat_inj, UInt8.reduceToNat] at h
  split at h
  · simp only [byteIn_iff, UInt8.reduceToNat] at h
    omega
  · split at h
    · simp only [byteIn_iff, UInt8.reduceToNat] at h
      omega
    · rw [isTrail_iff] at h
      omega

/-- The second byte keeps out characters that have a shorter form, and numbers past the last
    character. -/
theorem secondOfFour_bounds {b second : UInt8} (h : secondOfFour b second = true) :
    128 ≤ second.toNat ∧ second.toNat ≤ 191 ∧ (b.toNat = 240 → 144 ≤ second.toNat) ∧
      (b.toNat = 244 → second.toNat ≤ 143) := by
  unfold secondOfFour at h
  simp only [← UInt8.toNat_inj, UInt8.reduceToNat] at h
  split at h
  · simp only [byteIn_iff, UInt8.reduceToNat] at h
    omega
  · split at h
    · simp only [byteIn_iff, UInt8.reduceToNat] at h
      omega
    · rw [isTrail_iff] at h
      omega

/-- A character of one byte. -/
theorem decodeFirst_of_lt {b : UInt8} (hb : b.toNat < 128) (rest : List UInt8) :
    decodeFirst b rest = (Char.ofNat b.toNat, 1) := if_pos (UInt8.lt_iff_toNat_lt.2 hb)

/-- Neither the decoded character nor a byte of it after the first is ASCII. -/
def Wide (decoded : Char × Nat) (rest : List UInt8) : Prop :=
  128 ≤ decoded.1.toNat ∧ ∀ x ∈ rest.take (decoded.2 - 1), 128 ≤ x.toNat

theorem wide_replacement (rest : List UInt8) : Wide (replacement, 1) rest := by
  constructor
  · decide
  · simp

theorem wide_ofNat {n : Nat} (trail : List UInt8) (hn : 128 ≤ n ∧ n.isValidChar)
    (htrail : ∀ x ∈ trail, 128 ≤ x.toNat) (rest : List UInt8) :
    Wide (Char.ofNat n, trail.length + 1) (trail ++ rest) := by
  constructor
  · rw [toNat_ofNat_of_valid hn.2]
    exact hn.1
  · simpa using htrail

/-- Any other byte starts a character beyond ASCII, or none. -/
theorem decodeFirst_wide {b : UInt8} (hb : 128 ≤ b.toNat) (rest : List UInt8) :
    Wide (decodeFirst b rest) rest := by
  have hmal := wide_replacement rest
  have hhigh : ¬ b < 0x80 := fun hlt => Nat.not_lt.2 hb (UInt8.lt_iff_toNat_lt.1 hlt)
  unfold decodeFirst
  rw [if_neg hhigh]
  -- By the number of bytes that the first one announces.  If the others do not fit, the first
  -- one alone is replaced.
  by_cases htwo : byteIn 0xC2 0xDF b = true
  · rw [if_pos htwo]
    rw [byteIn_iff] at htwo
    simp only [UInt8.reduceToNat] at htwo
    match rest with
    | [] => exact hmal
    | b1 :: rest =>
      dsimp only
      split
      · rename_i h1
        rw [isTrail_iff] at h1
        apply wide_ofNat [b1]
        · unfold trailBits Nat.isValidChar
          omega
        · simpa using h1.1
      · exact hmal
  rw [if_neg htwo]
  by_cases hthree : byteIn 0xE0 0xEF b = true
  · rw [if_pos hthree]
    rw [byteIn_iff] at hthree
    simp only [UInt8.reduceToNat] at hthree
    match rest with
    | [] | [_] => exact hmal
    | b1 :: b2 :: rest =>
      dsimp only
      split
      · rename_i h12
        rw [Bool.and_eq_true, isTrail_iff] at h12
        have h1 := secondOfThree_bounds h12.1
        apply wide_ofNat [b1, b2]
        · unfold trailBits Nat.isValidChar
          omega
        · simpa using ⟨h1.1, h12.2.1⟩
      · exact hmal
  rw [if_neg hthree]
  by_cases hfour : byteIn 0xF0 0xF4 b = true
  · rw [if_pos hfour]
    rw [byteIn_iff] at hfour
    simp only [UInt8.reduceToNat] at hfour
    match rest with
    | [] | [_] | [_, _] => exact hmal
    | b1 :: b2 :: b3 :: rest =>
      dsimp only
      split
      · rename_i h123
        rw [Bool.and_eq_true, Bool.and_eq_true, isTrail_iff, isTrail_iff] at h123
        have h1 := secondOfFour_bounds h123.1.1
        apply wide_ofNat [b1, b2, b3]
        · unfold trailBits Nat.isValidChar
          omega
        · simpa using ⟨h1.1, h123.1.2.1, h123.2.1⟩
      · exact hmal
  · rw [if_neg hfour]
    exact hmal

end Text

namespace Source.Cursor

variable {c c' c'' : Cursor} {bs bs' : List UInt8}

/-! ### Bytes between two cursors -/

/-- The bytes `bs` lead from the cursor `c` to the cursor `c'`. -/
structure Passes (c : Cursor) (bs : List UInt8) (c' : Cursor) : Prop where
  rest_eq : c.rest = bs ++ c'.rest
  offset_eq : c'.offset = c.offset + bs.length

namespace Passes

theorem refl (c : Cursor) : c.Passes [] c := ⟨rfl, rfl⟩

theorem trans (h : c.Passes bs c') (h' : c'.Passes bs' c'') : c.Passes (bs ++ bs') c'' where
  rest_eq := by rw [h.rest_eq, h'.rest_eq, List.append_assoc]
  offset_eq := by rw [h'.offset_eq, h.offset_eq, List.length_append, Nat.add_assoc]

end Passes

/-- The bytes of the character at the cursor. -/
theorem passes_advance {b : UInt8} (h : c.rest = b :: bs) :
    c.Passes (b :: bs.take ((Text.decodeFirst b bs).2 - 1)) c.advance := by
  obtain ⟨hpos, hle⟩ := Text.decodeFirst_width b bs
  have hrest : c.advance.rest = bs.drop ((Text.decodeFirst b bs).2 - 1) := by
    unfold advance
    rw [h]
    dsimp only
    split
    · rename_i hempty
      exact (List.isEmpty_iff.1 hempty).symm
    · split <;> rfl
  have hoffset : c.advance.offset = c.offset + (Text.decodeFirst b bs).2 := by
    unfold advance
    rw [h]
    dsimp only
    split
    · rfl
    · split <;> rfl
  constructor
  · rw [h, hrest, List.cons_append, List.take_append_drop]
  · rw [hoffset, List.length_cons, List.length_take]
    omega

theorem char_eq {b : UInt8} (h : c.rest = b :: bs) : c.char = (Text.decodeFirst b bs).1 := by
  rw [char, h]

/-- Nothing is read at the end of a text but NUL. -/
theorem char_of_nil (h : c.rest = []) : c.char = '\x00' := by
  rw [char, h]

/-- An ASCII byte is read as itself. -/
theorem char_of_lt {b : UInt8} (h : c.rest = b :: bs) (hb : b.toNat < 128) :
    c.char = Char.ofNat b.toNat := by
  rw [char_eq h, Text.decodeFirst_of_lt hb]

/-- What is read of a byte is ASCII only if the byte is. -/
theorem byte_of_char {b : UInt8} (h : c.rest = b :: bs) (hc : c.char.toNat < 128) :
    b.toNat = c.char.toNat := by
  by_cases hb : b.toNat < 128
  · rw [char_of_lt h hb, Text.toNat_ofNat_of_valid (Or.inl (by omega))]
  · have hwide := (Text.decodeFirst_wide (Nat.le_of_not_lt hb) bs).1
    rw [← char_eq h] at hwide
    omega

/-- An ASCII character is one byte. -/
theorem passes_ascii (h : c.rest ≠ []) (hc : c.char.toNat < 128) :
    c.Passes [UInt8.ofNat c.char.toNat] c.advance := by
  obtain ⟨b, bs, hrest⟩ := List.exists_cons_of_ne_nil h
  have hbyte := byte_of_char hrest hc
  have hpass := passes_advance hrest
  rw [Text.decodeFirst_of_lt (by omega)] at hpass
  simpa [← hbyte] using hpass

/-- No byte of another character is ASCII. -/
theorem passes_wide (h : c.rest ≠ []) (hc : 128 ≤ c.char.toNat) :
    ∃ bs, bs ≠ [] ∧ (∀ x ∈ bs, 128 ≤ x.toNat) ∧ c.Passes bs c.advance := by
  obtain ⟨b, bs, hrest⟩ := List.exists_cons_of_ne_nil h
  have hb : 128 ≤ b.toNat := by
    by_contra hlt
    rw [char_of_lt hrest (by omega), Text.toNat_ofNat_of_valid (Or.inl (by omega))] at hc
    omega
  refine ⟨_, List.cons_ne_nil _ _, ?_, passes_advance hrest⟩
  rw [List.forall_mem_cons]
  exact ⟨hb, (Text.decodeFirst_wide hb bs).2⟩

end Source.Cursor

end TreeMachine
