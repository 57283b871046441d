import TreeMachine.Proofs.Source.Lexemes

/-! # Positions of tokens

  The cursor moves on by as many bytes as it passes, whatever the bytes are.  Main
  statements: every token of a text begins inside the text or at its end, and there are at
  most as many tokens as bytes, apart from the end.
-/

namespace TreeMachine

/-- A character is one of the bytes at the start of a text or several. -/
theorem Text.decodeFirst_width (b : UInt8) (rest : List UInt8) :
    0 < (decodeFirst b rest).2 ∧ (decodeFirst b rest).2 ≤ rest.length + 1 := by
  unfold decodeFirst
  by_cases hone : b < 0x80
  · simp [hone]
  · by_cases htwo : byteIn 0xC2 0xDF b = true
    · cases rest with
      | nil => simp [hone, htwo]
      | cons b1 rest =>
        simp only [hone, htwo, if_true, if_false]
        split <;> simp
    · by_cases hthree : byteIn 0xE0 0xEF b = true
      · match rest with
        | [] | [_] => simp [hone, htwo, hthree]
        | b1 :: b2 :: rest =>
          simp only [hone, htwo, hthree, if_true, if_false, Bool.false_eq_true]
          split <;> simp
      · by_cases hfour : byteIn 0xF0 0xF4 b = true
        · match rest with
          | [] | [_] | [_, _] => simp [hone, htwo, hthree, hfour]
          | b1 :: b2 :: b3 :: rest =>
            simp only [hone, htwo, hthree, hfour, if_true, if_false, Bool.false_eq_true]
            split <;> simp
        · simp [hone, htwo, hthree, hfour]

namespace Source.Cursor

/-- What the cursor has passed and what follows it are a text of `len` bytes. -/
def In (len : Nat) (c : Cursor) : Prop := c.offset + c.rest.length = len

variable {len : Nat} {c : Cursor}

theorem start_in (text : List UInt8) : (start text).In text.length := Nat.zero_add _

theorem In.le (hc : c.In len) : c.offset ≤ len := by
  unfold In at hc
  omega

theorem In.advance (hc : c.In len) : c.advance.In len := by
  obtain ⟨bytes, offset, line, lineStart⟩ := c
  cases bytes with
  | nil => exact hc
  | cons b bs =>
    obtain ⟨hpos, hle⟩ := Text.decodeFirst_width b bs
    simp only [In, List.length_cons] at hc
    have hrest : (bs.drop ((Text.decodeFirst b bs).2 - 1)).length
        = bs.length - ((Text.decodeFirst b bs).2 - 1) := List.length_drop
    simp only [Cursor.advance, In]
    split
    · -- Nothing is left, so the character took all the bytes.
      rename_i hempty
      rw [List.isEmpty_iff] at hempty
      rw [hempty, List.length_nil] at hrest
      simp only [List.length_nil]
      omega
    · split
      · simp only
        omega
      · simp only
        omega

/-- What every step keeps holds behind separators and comments. -/
theorem skip_keeps {P : Cursor → Prop} (hP : ∀ c, P c → P c.advance) (b : Bool) (hc : P c) :
    P (c.skip b) := by
  fun_induction Cursor.skip b c with
  | case1 => exact hc
  | case2 => exact hc
  | case3 _ _ _ ih => exact ih (hP _ hc)
  | case4 _ _ _ _ _ ih => exact ih (hP _ hc)
  | case5 _ _ _ _ _ _ ih => exact ih (hP _ hc)
  | case6 => exact hc

theorem word_keeps {P : Cursor → Prop} (hP : ∀ c, P c → P c.advance) (hc : P c) :
    P c.word.2 := by
  fun_induction Cursor.word c with
  | case1 => exact hc
  | case2 _ _ _ _ ih => exact ih (hP _ hc)
  | case3 => exact hc

/-- A token begins where the cursor stands. -/
theorem token_pos (c : Cursor) : c.token.1.pos = c.position := by
  unfold token
  dsimp only
  repeat' split
  all_goals rfl

/-- What every step keeps holds behind a token. -/
theorem token_keeps {P : Cursor → Prop} (hP : ∀ c, P c → P c.advance) (hc : P c) :
    P c.token.2 := by
  have hnext := hP c hc
  have hword := word_keeps hP hc
  unfold Cursor.token
  dsimp only
  split; · exact hc
  split; · exact hnext
  split; · exact hnext
  split; · exact hnext
  split; · exact hnext
  split; · exact hword
  split
  · split
    · exact word_keeps hP hnext
    · exact hnext
  split
  · exact hword
  · exact hnext

theorem next_keeps {P : Cursor → Prop} (hP : ∀ c, P c → P c.advance) (hc : P c) :
    P c.next.2 :=
  token_keeps hP (skip_keeps hP false hc)

theorem In.skip (hc : c.In len) (b : Bool) : (c.skip b).In len :=
  skip_keeps (P := In len) (fun _ h => h.advance) b hc

theorem In.token (hc : c.In len) : c.token.2.In len :=
  token_keeps (P := In len) (fun _ h => h.advance) hc

theorem In.scan (hc : c.In len) : ∀ tok ∈ c.scan.1, tok.pos.offset ≤ len := by
  fun_induction Cursor.scan c with
  | case1 c begin found hend =>
    intro tok htok
    rw [List.mem_singleton] at htok
    rw [htok, token_pos]
    exact (hc.skip false).le
  | case2 c begin found hmore tail ih =>
    intro tok htok
    cases List.mem_cons.1 htok with
    | inl htok =>
      rw [htok, token_pos]
      exact (hc.skip false).le
    | inr htok => exact ih (hc.skip false).token tok htok

/-- Every token but the end of the text takes a byte. -/
theorem length_scan_le (c : Cursor) : c.scan.1.length ≤ c.rest.length + 1 := by
  fun_induction Cursor.scan c with
  | case1 => simp
  | case2 c begin found hmore tail ih =>
    have hskip : begin.rest.length ≤ c.rest.length := length_skip_le false c
    have htoken : found.2.rest.length < begin.rest.length := length_token_lt begin hmore
    have htail : tail.1.length ≤ found.2.rest.length + 1 := ih
    simp only [List.length_cons]
    omega

end Source.Cursor

namespace Source

theorem tokens_within (text : List UInt8) : ∀ tok ∈ tokens text, tok.pos.offset ≤ text.length :=
  (Cursor.start_in text).scan

theorem length_tokens_le (text : List UInt8) : (tokens text).length ≤ text.length + 1 :=
  Cursor.length_scan_le _

end Source

end TreeMachine
