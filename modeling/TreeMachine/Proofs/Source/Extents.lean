import TreeMachine.Proofs.Source.Characters
import TreeMachine.Proofs.Source.Printed

/-! # What tokens are written with

  The bytes of a text are those of its tokens and, between them, separators and comments.
  Main statement: the next token is what its own bytes say, a word as long as it can be, and
  the bytes in front of it are blank.
-/

namespace TreeMachine.Source

/-! ### Blank bytes -/

/-- The bytes are separators and comments, where `follow` comes after them.  The flag tells
    whether the first byte stands in a comment; a comment ends before a newline or NUL, or at
    the end of the text. -/
inductive Blank (follow : List UInt8) : Bool → List UInt8 → Prop where
  | nil : Blank follow false []
  | separator {b : UInt8} {bs : List UInt8} : isSeparator (Char.ofNat b.toNat) = true →
    Blank follow false bs → Blank follow false (b :: bs)
  | opens {bs : List UInt8} : Blank follow true bs → Blank follow false (0x3B :: bs)
  | inside {b : UInt8} {bs : List UInt8} : b ≠ 0x0A → b ≠ 0 → Blank follow true bs →
    Blank follow true (b :: bs)
  | closes {bs : List UInt8} : (∀ b ∈ (bs ++ follow).head?, b = 0x0A ∨ b = 0) →
    Blank follow false bs → Blank follow true bs

/-- The bytes of one character of a comment. -/
theorem Blank.append {follow bs pre : List UInt8} (h : Blank follow true bs)
    (hpre : ∀ b ∈ pre, b ≠ 0x0A ∧ b ≠ 0) : Blank follow true (pre ++ bs) := by
  induction pre with
  | nil => exact h
  | cons b pre ih =>
    obtain ⟨hb, hpre⟩ := List.forall_mem_cons.1 hpre
    exact .inside hb.1 hb.2 (ih hpre)

/-! ### Words -/

/-- A byte of a name or a numeral. -/
def isWordByte (b : UInt8) : Bool := isWordChar (Char.ofNat b.toNat)

/-- The bytes are those of the literal: word bytes, the first of them of the given class, and
    no such byte follows. -/
structure IsWord (first : Char → Bool) (literal : String) (bs follow : List UInt8) : Prop where
  bytes_eq : Text.toBytes literal = bs
  starts : ∃ b ∈ bs.head?, first (Char.ofNat b.toNat) = true
  all : ∀ b ∈ bs, isWordByte b = true
  ends : ∀ b ∈ follow.head?, isWordByte b = false

/-- The bytes that end a line or the text, begin a comment or are brackets or braces. -/
def marks : List UInt8 := [0x0A, 0, 0x3B, 0x5B, 0x5D, 0x7B, 0x7D]

/-- A byte without a meaning of its own. -/
def Unmarked (b : UInt8) : Prop := b ∉ marks

/-- The bytes that a token is written with, where `follow` comes after them. -/
def Token.Written (tok : Token) (bs follow : List UInt8) : Prop :=
  match tok.kind with
  | .endOfText => bs = [] ∧ ∀ b ∈ follow.head?, b = 0
  | .openBracket => bs = [0x5B]
  | .closeBracket => bs = [0x5D]
  | .openBrace => bs = [0x7B]
  | .closeBrace => bs = [0x7D]
  | .integer => IsWord isDigit tok.literal bs follow
  | .name => IsWord isLetter tok.literal bs follow
  | .define => ∃ word, bs = 0x5F :: word ∧ IsWord isLetter tok.literal word follow
  | .invalid => bs ≠ [] ∧ ∀ b ∈ bs, Unmarked b

theorem ofNat_ofNat {x : Char} (hx : x.toNat < 128) :
    Char.ofNat (UInt8.ofNat x.toNat).toNat = x := by
  rw [UInt8.toNat_ofNat', Nat.mod_eq_of_lt (by omega), Char.ofNat_toNat]

theorem isWordByte_lt {b : UInt8} (hb : isWordByte b = true) : b.toNat < 128 := by
  have hlt := (Cursor.isWordChar_cases hb).1
  have hsize := b.toNat_lt
  rwa [Text.toNat_ofNat_of_valid (Or.inl (by omega))] at hlt

theorem isWordByte_encode {cs : List Char} (hcs : ∀ x ∈ cs, isWordChar x = true) :
    ∀ b ∈ encode cs, isWordByte b = true := by
  intro b hb
  obtain ⟨x, hx, rfl⟩ := List.mem_map.1 hb
  rw [isWordByte, ofNat_ofNat (Cursor.isWordChar_cases (hcs x hx)).1]
  exact hcs x hx

/-- A class of bytes without a mark. -/
theorem unmarked_of_class {p : UInt8 → Bool} {b : UInt8} (hb : p b = true)
    (hmarks : marks.any p = false) : Unmarked b := by
  intro hmem
  rw [List.any_eq_false] at hmarks
  exact hmarks b hmem hb

/-- Bytes that are not ASCII have no meaning of their own. -/
theorem unmarked_of_le {b : UInt8} (hb : 128 ≤ b.toNat) : Unmarked b :=
  unmarked_of_class (p := fun b => decide (128 ≤ b.toNat)) (decide_eq_true hb) (by decide)

/-- An ASCII byte is a mark only if its character is. -/
theorem unmarked_ascii {x : Char} (hx : x.toNat < 128)
    (hne : ∀ b ∈ marks, x ≠ Char.ofNat b.toNat) : Unmarked (UInt8.ofNat x.toNat) := by
  intro hmem
  apply hne _ hmem
  rw [ofNat_ofNat hx]

namespace Cursor

variable {c : Cursor}

/-! ### What the cursor passes -/

/-- NUL is read where a NUL byte or the end of the text stands. -/
theorem char_eq_nul_iff : c.char = '\x00' ↔ ∀ b ∈ c.rest.head?, b = 0 := by
  cases hrest : c.rest with
  | nil => simp [char_of_nil hrest]
  | cons b bs =>
    simp only [List.head?_cons, Option.mem_def, Option.some.injEq, forall_eq']
    constructor
    · intro hnul
      have hbyte := byte_of_char hrest (by rw [hnul]; decide)
      rw [hnul] at hbyte
      exact UInt8.toNat_inj.1 hbyte
    · intro hzero
      rw [char_of_lt hrest (by rw [hzero]; decide), hzero]
      rfl

/-- A character is no word character exactly if its first byte is no word byte. -/
theorem isWordChar_char (hc : isWordChar c.char = false) :
    ∀ b ∈ c.rest.head?, isWordByte b = false := by
  intro b hb
  obtain ⟨bs, hrest⟩ := List.head?_eq_some_iff.1 hb
  by_contra hword
  rw [Bool.not_eq_false] at hword
  rw [char_of_lt hrest (isWordByte_lt hword)] at hc
  exact Bool.false_ne_true (hc.symm.trans hword)

/-- Skipping passes blank bytes. -/
theorem skip_passes (inComment : Bool) (c : Cursor) :
    ∃ bs, c.Passes bs (c.skip inComment) ∧ Blank (c.skip inComment).rest inComment bs := by
  -- The cases are the branches of the recursion: the end of the text, NUL in a comment, another
  -- character of a comment, a separator, a semicolon, and anything else.
  fun_induction skip inComment c with
  | case1 inComment c hend =>
    refine ⟨[], .refl c, ?_⟩
    cases inComment with
    | false => exact .nil
    | true =>
      apply Blank.closes _ .nil
      simp [hend]
  | case2 c hmore hnul =>
    refine ⟨[], .refl c, .closes ?_ .nil⟩
    intro b hb
    exact Or.inr (char_eq_nul_iff.1 hnul b hb)
  | case3 c hmore hnul ih =>
    obtain ⟨bs, hpass, hblank⟩ := ih
    by_cases hnewline : c.char = '\n'
    · -- The comment ends in front of the newline, which is a separator.
      have hone := passes_ascii hmore (by rw [hnewline]; decide)
      rw [hnewline] at hone hpass hblank ⊢
      exact ⟨_, hone.trans hpass, .closes (by simp) (.separator (by decide) hblank)⟩
    · have hflag : (c.char != '\n') = true := by simpa using hnewline
      rw [hflag] at hpass hblank ⊢
      by_cases hascii : c.char.toNat < 128
      · have hback := ofNat_ofNat hascii
        refine ⟨_, (passes_ascii hmore hascii).trans hpass, .inside ?_ ?_ hblank⟩
        · intro heq
          rw [heq] at hback
          exact hnewline hback.symm
        · intro heq
          rw [heq] at hback
          exact hnul hback.symm
      · obtain ⟨pre, -, hhigh, hone⟩ := passes_wide hmore (Nat.le_of_not_lt hascii)
        refine ⟨_, hone.trans hpass, hblank.append ?_⟩
        intro b hb
        have hmark := unmarked_of_le (hhigh b hb)
        simp only [Unmarked, marks, List.mem_cons, not_or] at hmark
        exact ⟨hmark.1, hmark.2.1⟩
  | case4 inComment c hmore hfalse hsep ih =>
    obtain ⟨bs, hpass, hblank⟩ := ih
    cases inComment with
    | true => exact absurd rfl hfalse
    | false =>
      have hascii : c.char.toNat < 128 := by
        simp only [isSeparator, Bool.or_eq_true, decide_eq_true_eq] at hsep
        rcases hsep with ((heq | heq) | heq) | heq <;> rw [heq] <;> decide
      refine ⟨_, (passes_ascii hmore hascii).trans hpass, .separator ?_ hblank⟩
      rw [ofNat_ofNat hascii]
      exact hsep
  | case5 inComment c hmore hfalse _ hsemicolon ih =>
    obtain ⟨bs, hpass, hblank⟩ := ih
    cases inComment with
    | true => exact absurd rfl hfalse
    | false =>
      have hone := passes_ascii hmore (by rw [hsemicolon]; decide)
      rw [hsemicolon] at hone
      exact ⟨_, hone.trans hpass, .opens hblank⟩
  | case6 inComment c hmore hfalse =>
    cases inComment with
    | true => exact absurd rfl hfalse
    | false => exact ⟨[], .refl c, .nil⟩

/-- Skipping stops at a character that is neither a separator nor the start of a comment. -/
theorem skip_stops (inComment : Bool) (c : Cursor) :
    isSeparator (c.skip inComment).char = false ∧ (c.skip inComment).char ≠ ';' := by
  fun_induction skip inComment c with
  | case1 _ c hend =>
    rw [char_of_nil hend]
    decide
  | case2 c _ hnul =>
    rw [hnul]
    decide
  | case3 _ _ _ ih => exact ih
  | case4 _ _ _ _ _ ih => exact ih
  | case5 _ _ _ _ _ _ ih => exact ih
  | case6 _ _ _ _ hsep hsemicolon =>
    rw [Bool.not_eq_true] at hsep
    exact ⟨hsep, hsemicolon⟩

/-- There is nothing more to skip. -/
theorem skip_skip (c : Cursor) : (c.skip false).skip false = c.skip false := by
  obtain ⟨hsep, hsemicolon⟩ := skip_stops false c
  rw [skip.eq_1 false (c.skip false)]
  simp [hsep, hsemicolon]

/-- A word is passed as a whole. -/
theorem word_passes (c : Cursor) : c.Passes (encode c.word.1) c.word.2 ∧
    (∀ x ∈ c.word.1, isWordChar x = true) ∧ isWordChar c.word.2.char = false := by
  fun_induction word c with
  | case1 c hend =>
    refine ⟨.refl c, by simp, ?_⟩
    rw [char_of_nil hend]
    decide
  | case2 c hmore hword tail ih =>
    obtain ⟨hpass, hall, hends⟩ := ih
    have hone := passes_ascii hmore (isWordChar_cases hword).1
    refine ⟨hone.trans hpass, ?_, hends⟩
    rw [List.forall_mem_cons]
    exact ⟨hword, hall⟩
  | case3 c hmore hother => exact ⟨.refl c, by simp, by simpa using hother⟩

/-- A word begins with the character at the cursor. -/
theorem word_isWord {first : Char → Bool} (hfirst : first c.char = true)
    (hword : isWordChar c.char = true) :
    ∃ bs, c.Passes bs c.word.2 ∧ IsWord first (String.ofList c.word.1) bs c.word.2.rest := by
  obtain ⟨hpass, hall, hends⟩ := word_passes c
  have hascii : Ascii c.word.1 := fun x hx => (isWordChar_cases (hall x hx)).1
  have hmore : c.rest ≠ [] := rest_ne_nil_of_char c (isWordChar_cases hword).2.2.2
  have hhead : ∃ cs, c.word.1 = c.char :: cs := by
    rw [word, dif_neg hmore, if_pos hword]
    exact ⟨_, rfl⟩
  refine ⟨_, hpass, ?_, ?_, isWordByte_encode hall, isWordChar_char hends⟩
  · rw [toBytes_eq (by rwa [String.toList_ofList]), String.toList_ofList]
  · obtain ⟨cs, hcs⟩ := hhead
    rw [hcs]
    refine ⟨_, rfl, ?_⟩
    rw [ofNat_ofNat (isWordChar_cases hword).1]
    exact hfirst

/-- The bytes of a token that begins at the cursor. -/
theorem token_passes (hsep : isSeparator c.char = false) (hsemicolon : c.char ≠ ';') :
    ∃ bs, c.Passes bs c.token.2 ∧ c.token.1.Written bs c.token.2.rest := by
  have hnewline : c.char ≠ '\n' := by
    intro heq
    rw [heq] at hsep
    exact absurd hsep (by decide)
  unfold token
  dsimp only
  split
  · rename_i hnul
    exact ⟨[], .refl c, rfl, char_eq_nul_iff.1 hnul⟩
  rename_i hnul
  have hmore := rest_ne_nil_of_char c hnul
  -- A character that is a token of its own is one byte.
  have hsingle : ∀ x : Char, x.toNat < 128 → c.char = x →
      c.Passes [UInt8.ofNat x.toNat] c.advance := by
    intro x hx heq
    have hone := passes_ascii hmore (by rw [heq]; exact hx)
    rwa [heq] at hone
  split
  · rename_i heq
    exact ⟨_, hsingle '[' (by decide) heq, rfl⟩
  rename_i hopen
  split
  · rename_i heq
    exact ⟨_, hsingle ']' (by decide) heq, rfl⟩
  rename_i hclose
  split
  · rename_i heq
    exact ⟨_, hsingle '\x7b' (by decide) heq, rfl⟩
  rename_i hopenBrace
  split
  · rename_i heq
    exact ⟨_, hsingle '\x7d' (by decide) heq, rfl⟩
  rename_i hcloseBrace
  split
  · rename_i hdigit
    exact word_isWord hdigit (by simp [isWordChar, hdigit])
  split
  · rename_i hunderscore
    have hone := hsingle '_' (by decide) hunderscore
    split
    · rename_i hletter
      obtain ⟨bs, hpass, hword⟩ := word_isWord hletter (by simp [isWordChar, hletter])
      exact ⟨_, hone.trans hpass, bs, rfl, hword⟩
    · refine ⟨_, hone, List.cons_ne_nil _ _, ?_⟩
      intro b hb
      rw [List.mem_singleton.1 hb]
      unfold Unmarked
      decide
  split
  · rename_i hletter
    exact word_isWord hletter (by simp [isWordChar, hletter])
  · -- A character that begins no token.
    by_cases hascii : c.char.toNat < 128
    · refine ⟨_, passes_ascii hmore hascii, List.cons_ne_nil _ _, ?_⟩
      intro b hb
      rw [List.mem_singleton.1 hb]
      apply unmarked_ascii hascii
      simp only [marks, List.forall_mem_cons]
      exact ⟨hnewline, hnul, hsemicolon, hopen, hclose, hopenBrace, hcloseBrace, by simp⟩
    · obtain ⟨bs, hne, hhigh, hpass⟩ := passes_wide hmore (Nat.le_of_not_lt hascii)
      exact ⟨bs, hpass, hne, fun b hb => unmarked_of_le (hhigh b hb)⟩

/-- The next token, and the blank bytes in front of it. -/
theorem next_passes (c : Cursor) : ∃ gap bs, c.Passes gap (c.skip false) ∧
    Blank (bs ++ c.next.2.rest) false gap ∧ (c.skip false).Passes bs c.next.2 ∧
    c.next.1.Written bs c.next.2.rest := by
  obtain ⟨gap, hgap, hblank⟩ := skip_passes false c
  obtain ⟨hsep, hsemicolon⟩ := skip_stops false c
  obtain ⟨bs, hpass, hwritten⟩ := token_passes hsep hsemicolon
  rw [hpass.rest_eq] at hblank
  exact ⟨gap, bs, hgap, hblank, hpass, hwritten⟩

/-- The text ends at NUL. -/
theorem token_kind_iff (c : Cursor) : c.token.1.kind = .endOfText ↔ c.char = '\x00' := by
  unfold token
  dsimp only
  constructor
  · intro hkind
    by_contra hnul
    rw [if_neg hnul] at hkind
    -- No other branch makes such a token.
    repeat' split at hkind
    all_goals cases hkind
  · intro hnul
    rw [if_pos hnul]

/-- The end of the text comes last. -/
theorem scan_last (c : Cursor) :
    ∃ toks last, c.scan.1 = toks ++ [last] ∧ last.kind = .endOfText := by
  fun_induction scan c with
  | case1 c start found hend => exact ⟨[], found.1, rfl, (token_kind_iff _).2 hend⟩
  | case2 c start found hmore tail ih =>
    obtain ⟨toks, last, htail, hlast⟩ := ih
    refine ⟨found.1 :: toks, last, ?_, hlast⟩
    rw [List.cons_append, ← htail]

end Cursor

end TreeMachine.Source
