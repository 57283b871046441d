import TreeMachine.Source.Token

/-! # From bytes to tokens

  A cursor walks over the bytes of a text.  The line count moves on when the cursor steps
  from a newline onto a further character, so the end of the text that follows a newline
  still counts as part of the old line.  A NUL character ends the text wherever it stands.
-/

namespace TreeMachine.Source

open Text (decodeFirst)

/-- A place in a text and the bytes that follow it. -/
structure Cursor where
  /-- The bytes from the current character on. -/
  rest : List UInt8
  /-- Bytes before the current character. -/
  offset : Nat
  /-- The current line, counted from one. -/
  line : Nat
  /-- The offset at which the current line starts. -/
  lineStart : Nat
deriving DecidableEq, Repr, Inhabited

namespace Cursor

/-- The start of a text. -/
def start (text : List UInt8) : Cursor := ⟨text, 0, 1, 0⟩

/-- The character at the cursor; the end of the text reads as NUL. -/
def char (c : Cursor) : Char :=
  match c.rest with
  | [] => '\x00'
  | b :: bs => (decodeFirst b bs).1

/-- The position of the current character. -/
def position (c : Cursor) : Position := ⟨c.offset, c.line, c.offset - c.lineStart + 1⟩

/-- One character further. -/
def advance (c : Cursor) : Cursor :=
  match c.rest with
  | [] => c
  | b :: bs =>
    let decoded := decodeFirst b bs
    let rest := bs.drop (decoded.2 - 1)
    let next := c.offset + decoded.2
    if rest.isEmpty then ⟨[], next, c.line, c.lineStart⟩
    else if decoded.1 = '\n' then ⟨rest, next, c.line + 1, next⟩
    else ⟨rest, next, c.line, c.lineStart⟩

/-- A step consumes at least one byte. -/
theorem length_advance_lt (c : Cursor) (h : c.rest ≠ []) :
    c.advance.rest.length < c.rest.length := by
  unfold advance
  split
  · contradiction
  · rename_i b bs heq
    rw [heq]
    simp only [List.length_cons]
    split
    · simp
    · split <;> simp only [List.length_drop] <;> omega

end Cursor

/-! ### Character classes -/

/-- An ASCII letter. -/
def isLetter (c : Char) : Bool := ('a' ≤ c && c ≤ 'z') || ('A' ≤ c && c ≤ 'Z')

/-- An ASCII digit. -/
def isDigit (c : Char) : Bool := '0' ≤ c && c ≤ '9'

/-- A character of a name or a numeral. -/
def isWordChar (c : Char) : Bool := isLetter c || isDigit c || c = '_' || c = '-'

/-- A character that separates tokens. -/
def isSeparator (c : Char) : Bool := c = ' ' || c = '\t' || c = '\n' || c = '\r'

namespace Cursor

/-! ### Tokens -/

/-- Moves past separators and comments; `inComment` tells whether the cursor stands in a
    comment, which ends before a newline or at the end of the text. -/
def skip (inComment : Bool) (c : Cursor) : Cursor :=
  if _ : c.rest = [] then c
  else if inComment then
    if c.char = '\x00' then c else skip (c.char != '\n') c.advance
  else if isSeparator c.char then skip false c.advance
  else if c.char = ';' then skip true c.advance
  else c
termination_by c.rest.length
decreasing_by all_goals exact length_advance_lt c (by assumption)

/-- The run of word characters at the cursor, and the cursor after it. -/
def word (c : Cursor) : List Char × Cursor :=
  if _ : c.rest = [] then ([], c)
  else if isWordChar c.char then
    let tail := word c.advance
    (c.char :: tail.1, tail.2)
  else ([], c)
termination_by c.rest.length
decreasing_by exact length_advance_lt c (by assumption)

/-- The token that starts at the cursor, which stands on no separator, and the cursor
    after it. -/
def token (c : Cursor) : Token × Cursor :=
  let pos := c.position
  let ch := c.char
  let single (kind : TokenKind) : Token × Cursor := (⟨kind, kind.text, pos⟩, c.advance)
  if ch = '\x00' then (⟨.endOfText, "", pos⟩, c)
  else if ch = '[' then single .openBracket
  else if ch = ']' then single .closeBracket
  else if ch = '\x7b' then single .openBrace
  else if ch = '\x7d' then single .closeBrace
  else if isDigit ch then
    let run := c.word
    (⟨.integer, String.ofList run.1, pos⟩, run.2)
  else if ch = '_' then
    let after := c.advance
    if isLetter after.char then
      let run := after.word
      (⟨.define, String.ofList run.1, pos⟩, run.2)
    else (⟨.invalid, "expected a name after _", pos⟩, after)
  else if isLetter ch then
    let run := c.word
    (⟨.name, String.ofList run.1, pos⟩, run.2)
  else (⟨.invalid, "unexpected character: " ++ String.singleton ch, pos⟩, c.advance)

/-- The next token and the cursor after it. -/
def next (c : Cursor) : Token × Cursor := (c.skip false).token

/-! ### Progress -/

theorem length_skip_le (b : Bool) (c : Cursor) : (c.skip b).rest.length ≤ c.rest.length := by
  fun_induction skip b c with
  | case1 => simp
  | case2 => simp
  | case3 c hc _ ih => exact Nat.le_trans ih (Nat.le_of_lt (length_advance_lt c hc))
  | case4 b c hc _ _ ih => exact Nat.le_trans ih (Nat.le_of_lt (length_advance_lt c hc))
  | case5 b c hc _ _ _ ih => exact Nat.le_trans ih (Nat.le_of_lt (length_advance_lt c hc))
  | case6 => simp

theorem length_word_le (c : Cursor) : c.word.2.rest.length ≤ c.rest.length := by
  fun_induction word c with
  | case1 => simp
  | case2 c hc _ tail ih => exact Nat.le_trans ih (Nat.le_of_lt (length_advance_lt c hc))
  | case3 => simp

theorem length_word_lt (c : Cursor) (h : c.rest ≠ []) (hw : isWordChar c.char = true) :
    c.word.2.rest.length < c.rest.length := by
  rw [word]
  simp only [h, dif_neg, not_false_eq_true, hw, if_true]
  exact Nat.lt_of_le_of_lt (length_word_le _) (length_advance_lt c h)

theorem rest_ne_nil_of_char (c : Cursor) (h : c.char ≠ '\x00') : c.rest ≠ [] := by
  intro hn
  exact h (by simp [char, hn])

/-- Every token but the end of the text consumes at least one byte. -/
theorem length_token_lt (c : Cursor) (h : c.char ≠ '\x00') :
    c.token.2.rest.length < c.rest.length := by
  have hr := rest_ne_nil_of_char c h
  have ha := length_advance_lt c hr
  unfold token
  simp only [h, if_false]
  split; · exact ha
  split; · exact ha
  split; · exact ha
  split; · exact ha
  split
  · rename_i hd
    exact length_word_lt c hr (by simp [isWordChar, hd])
  split
  · split
    · exact Nat.lt_of_le_of_lt (length_word_le _) ha
    · exact ha
  split
  · rename_i hl
    exact length_word_lt c hr (by simp [isWordChar, hl])
  · exact ha

/-- The tokens from the cursor on, the end of the text last, and the cursor at that end. -/
def scan (c : Cursor) : List Token × Cursor :=
  let start := c.skip false
  let found := start.token
  if _ : start.char = '\x00' then ([found.1], found.2)
  else
    let tail := scan found.2
    (found.1 :: tail.1, tail.2)
termination_by c.rest.length
decreasing_by exact Nat.lt_of_lt_of_le (length_token_lt _ (by assumption)) (length_skip_le false c)

end Cursor

/-- The tokens of a text, the end of the text last. -/
def tokens (text : List UInt8) : List Token := (Cursor.start text).scan.1

end TreeMachine.Source
