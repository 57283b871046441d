import TreeMachine.Proofs.Source.Coverage

/-! # Lines and columns of tokens

  The line count moves on when the cursor steps from a newline onto a further character, so
  at every character line and column are those of its offset.  The end of a text whose last
  byte is a newline is never counted as a line of its own.  Main statement: all positions of
  tokens are true positions exactly if the text does not end like that.
-/

namespace TreeMachine.Source

/-! ### The position of an offset -/

/-- How many bytes come after the last newline. -/
def sinceNewline (bytes : List UInt8) : Nat := (bytes.reverse.takeWhile (· != 0x0A)).length

/-- The place in a text with `offset` bytes before it: the newlines among them count its line,
    and the bytes after the last of them its column. -/
def positionAt (text : List UInt8) (offset : Nat) : Position :=
  let before := text.take offset
  ⟨offset, before.count 0x0A + 1, sinceNewline before + 1⟩

/-- The end of the text, as it is counted from its last byte. -/
def positionBehind (text : List UInt8) : Position :=
  let last := positionAt text (text.length - 1)
  ⟨text.length, last.line, last.column + 1⟩

/-- The bytes lead to a line, given by its number and by the offset that it starts at. -/
structure OnLine (bytes : List UInt8) (line lineStart : Nat) : Prop where
  line_eq : line = bytes.count 0x0A + 1
  start_eq : lineStart + sinceNewline bytes = bytes.length

section

variable {bytes bs : List UInt8} {line lineStart : Nat}

theorem OnLine.nil : OnLine [] 1 0 := ⟨rfl, rfl⟩

/-- Other bytes than a newline stay on the line. -/
theorem OnLine.append (h : OnLine bytes line lineStart) (hbs : ∀ b ∈ bs, b ≠ 0x0A) :
    OnLine (bytes ++ bs) line lineStart where
  line_eq := by
    have hnone : bs.count 0x0A = 0 := List.count_eq_zero.2 fun hmem => hbs _ hmem rfl
    rw [List.count_append, hnone]
    exact h.line_eq
  start_eq := by
    have hall : ∀ b ∈ bs.reverse, (b != 0x0A) = true := by
      intro b hb
      simpa using hbs b (List.mem_reverse.1 hb)
    -- The last newline of all is the last one before these bytes.
    have hsince : sinceNewline (bytes ++ bs) = bs.length + sinceNewline bytes := by
      simp only [sinceNewline]
      rw [List.reverse_append, List.takeWhile_append_of_pos hall, List.length_append,
        List.length_reverse]
    have hstart := h.start_eq
    rw [hsince, List.length_append]
    omega

/-- A newline starts the next line. -/
theorem OnLine.newline (h : OnLine bytes line lineStart) :
    OnLine (bytes ++ [0x0A]) (line + 1) (bytes.length + 1) where
  line_eq := by simp [h.line_eq]
  start_eq := by simp [sinceNewline]

end

/-! ### The cursor's line -/

namespace Cursor

/-- The cursor counts lines as the bytes before it say; at the end of the text, as those
    before the last byte say. -/
def Placed (text : List UInt8) (c : Cursor) : Prop :=
  ∃ pre, text = pre ++ c.rest ∧ c.offset = pre.length ∧
    OnLine (if c.rest = [] then pre.dropLast else pre) c.line c.lineStart

variable {text : List UInt8} {c : Cursor}

theorem placed_start (text : List UInt8) : (start text).Placed text := by
  refine ⟨[], rfl, rfl, ?_⟩
  simpa [start] using OnLine.nil

/-- What one step does to the line. -/
theorem advance_line (h : c.rest ≠ []) : (c.advance.line, c.advance.lineStart) =
    if c.advance.rest ≠ [] ∧ c.char = '\n' then (c.line + 1, c.advance.offset)
    else (c.line, c.lineStart) := by
  obtain ⟨b, bs, hrest⟩ := List.exists_cons_of_ne_nil h
  rw [char_eq hrest]
  unfold advance
  rw [hrest]
  dsimp only
  split
  · simp
  · rename_i hmore
    rw [List.isEmpty_iff] at hmore
    split
    · simp [*]
    · simp [*]

/-- No byte of another character is a newline. -/
theorem passes_line (h : c.rest ≠ []) (hchar : c.char ≠ '\n') :
    ∃ bs, (∀ b ∈ bs, b ≠ 0x0A) ∧ c.Passes bs c.advance := by
  by_cases hascii : c.char.toNat < 128
  · refine ⟨_, ?_, passes_ascii h hascii⟩
    rw [List.forall_mem_singleton]
    intro hbyte
    apply hchar
    rw [← ofNat_ofNat hascii, hbyte]
    rfl
  · obtain ⟨bs, -, hwide, hpass⟩ := passes_wide h (Nat.le_of_not_lt hascii)
    refine ⟨bs, ?_, hpass⟩
    intro b hb hnewline
    exact absurd (hwide b hb) (by rw [hnewline]; decide)

/-- Behind a newline the next line begins, unless it is the last byte. -/
theorem Placed.advance_newline (h : c.Placed text) (hrest : c.rest ≠ [])
    (hnewline : c.char = '\n') : c.advance.Placed text := by
  obtain ⟨pre, htext, hoffset, hline⟩ := h
  rw [if_neg hrest] at hline
  have hmoves := advance_line hrest
  have hpass := passes_ascii hrest (by rw [hnewline]; decide)
  rw [hnewline] at hpass
  refine ⟨pre ++ [0x0A], ?_, ?_, ?_⟩
  · rw [htext, hpass.rest_eq, List.append_assoc]
    rfl
  · rw [hpass.offset_eq, hoffset, List.length_append]
    rfl
  · by_cases hlast : c.advance.rest = []
    · -- Behind the last byte the line has not moved on.
      rw [if_neg (by simp [hlast]), Prod.mk.injEq] at hmoves
      rw [hmoves.1, hmoves.2, if_pos hlast, List.dropLast_concat]
      exact hline
    · rw [if_pos ⟨hlast, hnewline⟩, Prod.mk.injEq] at hmoves
      rw [hmoves.1, hmoves.2, if_neg hlast, hpass.offset_eq, hoffset]
      exact hline.newline

/-- Any other character stays on the line. -/
theorem Placed.advance_other (h : c.Placed text) (hrest : c.rest ≠ [])
    (hchar : c.char ≠ '\n') : c.advance.Placed text := by
  obtain ⟨pre, htext, hoffset, hline⟩ := h
  rw [if_neg hrest] at hline
  have hmoves := advance_line hrest
  obtain ⟨bs, hbs, hpass⟩ := passes_line hrest hchar
  rw [if_neg (by simp [hchar]), Prod.mk.injEq] at hmoves
  rw [Placed, hmoves.1, hmoves.2]
  refine ⟨pre ++ bs, ?_, ?_, ?_⟩
  · rw [htext, hpass.rest_eq, List.append_assoc]
  · rw [hpass.offset_eq, hoffset, List.length_append]
  · split
    · -- The last byte of the text is one of these, and the others are no newlines either.
      have hne : bs ≠ [] := by
        intro hnil
        apply hrest
        rw [hpass.rest_eq, hnil, List.nil_append]
        assumption
      rw [List.dropLast_append_of_ne_nil hne]
      exact hline.append fun b hb => hbs b (List.mem_of_mem_dropLast hb)
    · exact hline.append hbs

theorem Placed.advance (h : c.Placed text) : c.advance.Placed text := by
  by_cases hrest : c.rest = []
  · have hstay : c.advance = c := by rw [Cursor.advance, hrest]
    rw [hstay]
    exact h
  · by_cases hnewline : c.char = '\n'
    · exact h.advance_newline hrest hnewline
    · exact h.advance_other hrest hnewline

/-- Where the line is that of the bytes before the cursor, so is the position. -/
theorem position_of_onLine (hoffset : c.offset ≤ text.length)
    (h : OnLine (text.take c.offset) c.line c.lineStart) :
    c.position = positionAt text c.offset := by
  have hstart := h.start_eq
  rw [List.length_take, Nat.min_eq_left hoffset] at hstart
  rw [position, positionAt, h.line_eq]
  congr 2
  omega

/-- Where a newline was not the last byte, the position is that of the offset. -/
theorem Placed.position_eq (h : c.Placed text)
    (hend : ¬ (c.offset = text.length ∧ text.getLast? = some 0x0A)) :
    c.position = positionAt text c.offset := by
  obtain ⟨pre, htext, hoffset, hline⟩ := h
  apply position_of_onLine
  · rw [hoffset, htext, List.length_append]
    omega
  · have htake : text.take c.offset = pre := by
      rw [hoffset, htext, List.take_left]
    rw [htake]
    -- At the end, the line is that of the last byte, which is none that starts another.
    split at hline
    · rename_i hrest
      rw [hrest, List.append_nil] at htext
      subst htext
      rcases List.eq_nil_or_concat' text with rfl | ⟨bytes, last, rfl⟩
      · exact hline
      · rw [List.dropLast_concat] at hline
        apply hline.append
        simpa [hoffset] using hend
    · exact hline

/-- After a newline that is the last byte, the position is counted on from the newline. -/
theorem Placed.position_behind (h : c.Placed text) (hoffset : c.offset = text.length)
    (hlast : text.getLast? = some 0x0A) : c.position = positionBehind text := by
  obtain ⟨pre, htext, hlength, hline⟩ := h
  have hrest : c.rest = [] := by
    have hsum := congrArg List.length htext
    rw [List.length_append] at hsum
    exact List.length_eq_zero_iff.1 (by omega)
  rw [hrest, List.append_nil] at htext
  rw [if_pos hrest, ← htext] at hline
  obtain ⟨bytes, rfl⟩ := List.getLast?_eq_some_iff.1 hlast
  have hstart := hline.start_eq
  rw [position, positionBehind, positionAt, hoffset, hline.line_eq]
  simp only [List.dropLast_concat, List.length_append, List.length_singleton, Nat.add_sub_cancel,
    List.take_left, Position.mk.injEq, true_and] at hstart ⊢
  omega

/-- The line is kept in step from token to token. -/
theorem placed_cursorAt (text : List UInt8) (n : Nat) : (cursorAt text n).Placed text := by
  induction n with
  | zero => exact placed_start text
  | succ n ih =>
    rw [cursorAt_succ]
    exact next_keeps (P := Placed text) (fun _ h => h.advance) ih

end Cursor

/-! ### All tokens of a text -/

/-- Where each token stands. -/
theorem nthToken_pos (text : List UInt8) (n : Nat) : (nthToken text n).pos =
    if tokenStart text n = text.length ∧ text.getLast? = some 0x0A then positionBehind text
    else positionAt text (tokenStart text n) := by
  have hplaced : ((cursorAt text n).skip false).Placed text :=
    Cursor.skip_keeps (P := Cursor.Placed text) (fun _ h => h.advance) false
      (Cursor.placed_cursorAt text n)
  have hpos : (nthToken text n).pos = ((cursorAt text n).skip false).position :=
    Cursor.token_pos _
  rw [hpos, tokenStart_eq]
  split
  · rename_i hend
    exact hplaced.position_behind hend.1 hend.2
  · rename_i hend
    exact hplaced.position_eq hend

/-- The end of a text is not where it is counted from its last byte, if that is a newline. -/
theorem positionBehind_ne {text : List UInt8} (hlast : text.getLast? = some 0x0A) :
    positionBehind text ≠ positionAt text text.length := by
  obtain ⟨bytes, rfl⟩ := List.getLast?_eq_some_iff.1 hlast
  intro heq
  have hline := congrArg Position.line heq
  simp only [positionBehind, positionAt, List.length_append, List.length_singleton,
    Nat.add_sub_cancel, List.take_left, Nat.add_right_cancel_iff] at hline
  rw [List.take_of_length_le (by simp)] at hline
  simp at hline

/-- All tokens have true positions, unless the text is read up to its end and ends with a
    newline. -/
theorem nthToken_pos_iff (text : List UInt8) :
    (∀ n, (nthToken text n).pos = positionAt text (tokenStart text n)) ↔
      ¬ (text.getLast? = some 0x0A ∧ 0 ∉ text) := by
  constructor
  · intro hall ⟨hlast, hzero⟩
    -- Without a NUL byte the last token is at the very end, where the count is off.
    obtain ⟨k, hcovers⟩ := exists_covers text
    have hend : tokenStart text k = text.length := by
      rw [hcovers.end_eq, List.findIdx_eq_length]
      intro b hb
      rw [beq_eq_false_iff_ne]
      intro hb0
      rw [hb0] at hb
      exact hzero hb
    have hpos := nthToken_pos text k
    rw [if_pos ⟨hend, hlast⟩, hall k, hend] at hpos
    exact positionBehind_ne hlast hpos.symm
  · intro hnot n
    rw [nthToken_pos, if_neg]
    intro ⟨hend, hlast⟩
    apply hnot
    refine ⟨hlast, ?_⟩
    -- A NUL byte would end the text before its length.
    intro hzero
    obtain ⟨k, hcovers⟩ := exists_covers text
    have hlt : text.findIdx (· == 0) < text.length :=
      List.findIdx_lt_length_of_exists ⟨0, hzero, rfl⟩
    have hle : tokenStart text n ≤ tokenStart text k := by
      rcases Nat.lt_or_ge n k with hnk | hkn
      · exact Nat.le_trans (Nat.le_of_lt (hcovers.inside n hnk).1) (hcovers.inside n hnk).2
      · rw [tokenStart, tokenStart, hcovers.again n hkn]
    rw [hcovers.end_eq] at hle
    omega

/-- The end of a text of one line, with the newline and without it. -/
example : ((tokens (Text.toBytes "1\n")).map (·.pos), (tokens (Text.toBytes "1")).map (·.pos)) =
    ([⟨0, 1, 1⟩, ⟨2, 1, 3⟩], [⟨0, 1, 1⟩, ⟨1, 1, 2⟩]) := by
  decide +kernel

end TreeMachine.Source
