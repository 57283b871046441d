import Mathlib.Tactic.IntervalCases
import TreeMachine.Proofs.Outcome
import TreeMachine.Source.Lexer
import TreeMachine.Text.Numeral

/-! # Texts and their lexemes

  A lexeme is what a token says, without its place and without the way a numeral is written.
  Main statement: writing lexemes out with a space after each gives a text whose tokens say
  the same.
-/

namespace TreeMachine

/-! ### Decimal numerals -/

namespace Text

theorem digitValue?_digitChar {d : Nat} (hd : d < 10) : digitValue? d.digitChar = some d := by
  interval_cases d <;> decide

/-- One more decimal digit at the end of a numeral. -/
theorem readDigits_snoc {cs : List Char} {m n d : Nat} (h : readDigits 10 cs m = .ok n)
    (hd : d < 10) (hfits : n * 10 + d < UInt64.size) :
    readDigits 10 (cs ++ [d.digitChar]) m = .ok (n * 10 + d) := by
  have hunder : d.digitChar ≠ '_' := by interval_cases d <;> decide
  fun_induction readDigits 10 cs m with
  | case1 m =>
    cases h
    rw [List.nil_append, readDigits]
    · simp only [digitValue?_digitChar hd]
      rw [if_neg (by omega), if_neg (by omega)]
      rfl
    · exact fun heq => hunder heq
  | case2 rest m ih =>
    rw [List.cons_append, readDigits]
    exact ih h
  | case3 c rest m hc hnone =>
    cases h
  | case4 => cases h
  | case5 => cases h
  | case6 c rest m hc v hv hbase hlarge ih =>
    rw [List.cons_append, readDigits]
    · simp only [hv]
      rw [if_neg hbase, if_neg hlarge]
      exact ih h
    · exact fun heq => hc heq

/-- The digits of a word, from the first on. -/
theorem readDigits_toDigits {n : Nat} (h : n < UInt64.size) :
    readDigits 10 (Nat.toDigits 10 n) 0 = .ok n := by
  induction n using Nat.strongRecOn with
  | ind n ih =>
    rw [Nat.toDigits_eq_if (by decide)]
    split
    · rename_i hlt
      have hone := @readDigits_snoc [] 0 0 n rfl hlt (by omega)
      rwa [Nat.zero_mul, Nat.zero_add] at hone
    · have hrest := ih (n / 10) (by omega) (by omega)
      have hsnoc := readDigits_snoc hrest (Nat.mod_lt n (by decide)) (by omega)
      rw [hsnoc]
      congr 1
      omega

theorem isDigit_iff (c : Char) : Source.isDigit c = c.isDigit := by
  simp only [Source.isDigit, Char.isDigit]
  rfl

/-- No digit is an underscore. -/
theorem underscoresSeparate_digits {cs : List Char} (hcs : ∀ c ∈ cs, c ≠ '_') (b : Bool) :
    underscoresSeparate cs b = true := by
  induction cs generalizing b with
  | nil => rfl
  | cons c rest ih =>
    have hc := hcs c List.mem_cons_self
    have hrest := ih (fun x hx => hcs x (List.mem_cons_of_mem _ hx)) true
    unfold underscoresSeparate
    split
    · rfl
    · rename_i heq
      cases heq
      exact absurd rfl hc
    · rename_i heq
      cases heq
      exact absurd rfl hc
    · rename_i heq
      cases heq
      exact hrest

/-- A numeral other than zero begins with another digit than zero. -/
theorem toDigits_head {n : Nat} (hn : 0 < n) : ∃ c cs, Nat.toDigits 10 n = c :: cs ∧ c ≠ '0' := by
  induction n using Nat.strongRecOn with
  | ind n ih =>
    rw [Nat.toDigits_eq_if (by decide)]
    split
    · rename_i hlt
      refine ⟨_, _, rfl, ?_⟩
      interval_cases n <;> decide
    · obtain ⟨c, cs, heq, hc⟩ := ih (n / 10) (by omega) (by omega)
      exact ⟨c, cs ++ [_], by rw [heq]; rfl, hc⟩

/-- The decimal numeral of a word denotes the word. -/
theorem readNumeral_repr (w : UInt64) : readNumeral w.toNat.repr = .ok w := by
  have hdigits := readDigits_toDigits w.toNat_lt
  have hplain : ∀ c ∈ Nat.toDigits 10 w.toNat, c ≠ '_' := by
    intro c hc heq
    have hdigit := Nat.isDigit_of_mem_toDigits (by decide) (by decide) hc
    rw [heq] at hdigit
    exact absurd hdigit (by decide)
  rw [readNumeral, Nat.repr, String.toList_ofList]
  by_cases hw : w = 0
  · subst hw
    rfl
  · have hpos : 0 < w.toNat := by
      rw [Nat.pos_iff_ne_zero]
      exact fun h0 => hw (UInt64.toNat_inj.1 h0)
    obtain ⟨c, cs, heq, hc⟩ := toDigits_head hpos
    have hsplit : splitBase (c :: cs) = (10, false, c :: cs) := by
      unfold splitBase
      split
      · rename_i h
        cases h
        exact absurd rfl hc
      · rename_i h
        cases h
        exact absurd rfl hc
      · rfl
    rw [heq] at hdigits hplain ⊢
    simp only [hsplit, hdigits, Bool.false_eq_true, if_false, underscoresSeparate_digits hplain,
      if_true, UInt64.ofNat_toNat]

end Text

namespace Source

/-! ### Lexemes -/

/-- What a token says. -/
inductive Lexeme where
  /-- An opening bracket. -/
  | opening
  /-- A closing bracket. -/
  | closing
  | name (s : String)
  /-- The definition of a name. -/
  | define (s : String)
  | number (w : UInt64)
deriving DecidableEq, Repr

/-- A letter, and then word characters. -/
def isName (s : String) : Bool :=
  match s.toList with
  | [] => false
  | c :: cs => isLetter c && cs.all isWordChar

namespace Lexeme

/-- The token says what the lexeme says. -/
def Matches : Lexeme → Token → Prop
  | opening, tok => tok.kind = .openBracket
  | closing, tok => tok.kind = .closeBracket
  | name s, tok => tok.kind = .name ∧ tok.literal = s
  | define s, tok => tok.kind = .define ∧ tok.literal = s
  | number w, tok => tok.kind = .integer ∧ Text.readNumeral tok.literal = .ok w

/-- The names in it can be written. -/
def Proper : Lexeme → Prop
  | name s | define s => isName s = true
  | _ => True

instance : DecidablePred Proper
  | name s | define s => inferInstanceAs (Decidable (isName s = true))
  | opening | closing | number _ => .isTrue trivial

/-- How a lexeme is written. -/
def chars : Lexeme → List Char
  | opening => ['[']
  | closing => [']']
  | name s => s.toList
  | define s => '_' :: s.toList
  | number w => Nat.toDigits 10 w.toNat

end Lexeme

/-- The bytes of a text of ASCII characters. -/
def encode (cs : List Char) : List UInt8 := cs.map fun c => UInt8.ofNat c.toNat

/-- The lexemes, each with a space after it. -/
def spell (ls : List Lexeme) : List Char := ls.flatMap fun l => l.chars ++ [' ']

/-- The text says what the lexemes say, and nothing more. -/
def Says (text : List UInt8) (ls : List Lexeme) : Prop :=
  ∃ toks last, tokens text = toks ++ [last] ∧ last.kind = .endOfText ∧
    List.Forall₂ Lexeme.Matches ls toks

/-! ### Reading characters -/

/-- What follows the cursor is the text of these characters. -/
def Cursor.At (c : Cursor) (cs : List Char) : Prop := c.rest = encode cs

namespace Cursor

variable {c : Cursor} {x : Char} {cs w : List Char}

theorem decode_ascii (hx : x.toNat < 128) (rest : List UInt8) :
    Text.decodeFirst (UInt8.ofNat x.toNat) rest = (x, 1) := by
  have hbyte : (UInt8.ofNat x.toNat).toNat = x.toNat := by
    rw [UInt8.toNat_ofNat']
    omega
  unfold Text.decodeFirst
  rw [if_pos, hbyte, Char.ofNat_toNat]
  rw [UInt8.lt_iff_toNat_lt, hbyte]
  exact hx

theorem At.char (h : c.At (x :: cs)) (hx : x.toNat < 128) : c.char = x := by
  rw [Cursor.char, show c.rest = UInt8.ofNat x.toNat :: encode cs from h]
  exact congrArg Prod.fst (decode_ascii hx _)

theorem At.char_nil (h : c.At []) : c.char = '\x00' := by
  rw [Cursor.char, show c.rest = [] from h]

theorem At.advance (h : c.At (x :: cs)) (hx : x.toNat < 128) : c.advance.At cs := by
  unfold At Cursor.advance
  rw [show c.rest = UInt8.ofNat x.toNat :: encode cs from h]
  simp only [decode_ascii hx, Nat.sub_self, List.drop_zero]
  split
  · rename_i hempty
    exact (List.isEmpty_iff.1 hempty).symm
  · split <;> rfl

theorem At.ne_nil (h : c.At (x :: cs)) : c.rest ≠ [] := by
  rw [show c.rest = UInt8.ofNat x.toNat :: encode cs from h]
  exact List.cons_ne_nil _ _

/-- A space is passed over. -/
theorem At.skip_space (h : c.At (' ' :: cs)) : c.skip false = c.advance.skip false := by
  have hchar := h.char (by decide)
  rw [skip, dif_neg h.ne_nil, if_neg Bool.false_ne_true, hchar, if_pos (by decide)]

/-- Other characters than separators and comments are not passed over. -/
theorem At.skip_other (h : c.At (x :: cs)) (hx : x.toNat < 128) (hsep : isSeparator x = false)
    (hcomment : x ≠ ';') : c.skip false = c := by
  have hchar := h.char hx
  rw [skip, dif_neg h.ne_nil, if_neg Bool.false_ne_true, hchar, if_neg (by rw [hsep]; decide),
    if_neg hcomment]

theorem At.skip_nil (h : c.At []) : c.skip false = c := by
  rw [skip, dif_pos (show c.rest = [] from h)]

/-- Word characters are ASCII, and no separators. -/
theorem isWordChar_cases (hx : isWordChar x = true) :
    x.toNat < 128 ∧ isSeparator x = false ∧ x ≠ ';' ∧ x ≠ '\x00' := by
  simp only [isWordChar, isLetter, isDigit, Bool.or_eq_true, Bool.and_eq_true, decide_eq_true_eq]
    at hx
  have hle : ∀ {a b : Char}, a ≤ b → a.toNat ≤ b.toNat := fun h => h
  have hrange : x.toNat ≤ 122 ∧ 45 ≤ x.toNat ∧ x.toNat ≠ 59 := by
    rcases hx with (((⟨hlo, hhi⟩ | ⟨hlo, hhi⟩) | ⟨hlo, hhi⟩) | rfl) | rfl
    · have hfirst := hle hlo
      have hlast := hle hhi
      simp only [Char.reduceToNat] at hfirst hlast
      omega
    · have hfirst := hle hlo
      have hlast := hle hhi
      simp only [Char.reduceToNat] at hfirst hlast
      omega
    · have hfirst := hle hlo
      have hlast := hle hhi
      simp only [Char.reduceToNat] at hfirst hlast
      omega
    · decide
    · decide
  have hne : ∀ y : Char, (y.toNat < 45 ∨ y.toNat = 59) → x ≠ y := by
    rintro y hy rfl
    omega
  refine ⟨by omega, ?_, hne _ (by decide), hne _ (by decide)⟩
  simp only [isSeparator, Bool.or_eq_false_iff, decide_eq_false_iff_not]
  exact ⟨⟨⟨hne _ (by decide), hne _ (by decide)⟩, hne _ (by decide)⟩, hne _ (by decide)⟩

/-- No word goes on with these characters. -/
def EndsWord (cs : List Char) : Prop := ∀ x ∈ cs.head?, x.toNat < 128 ∧ isWordChar x = false

/-- A run of word characters. -/
theorem At.word (h : c.At (w ++ cs)) (hw : ∀ x ∈ w, isWordChar x = true) (hcs : EndsWord cs) :
    c.word.1 = w ∧ c.word.2.At cs := by
  induction w generalizing c with
  | nil =>
    cases cs with
    | nil =>
      rw [Cursor.word, dif_pos (show c.rest = [] from h)]
      exact ⟨rfl, h⟩
    | cons x cs =>
      obtain ⟨hascii, hother⟩ := hcs x rfl
      have hchar : c.char = x := At.char h hascii
      rw [Cursor.word, dif_neg (At.ne_nil h), hchar, if_neg (by rw [hother]; decide)]
      exact ⟨rfl, h⟩
  | cons x w ih =>
    have hx := hw x List.mem_cons_self
    have hascii := (isWordChar_cases hx).1
    have hchar : c.char = x := At.char h hascii
    obtain ⟨hfirst, hrest⟩ := ih (At.advance h hascii) fun y hy => hw y (List.mem_cons_of_mem _ hy)
    rw [Cursor.word, dif_neg (At.ne_nil h), hchar, if_pos hx]
    exact ⟨congrArg (x :: ·) hfirst, hrest⟩

/-! ### Reading lexemes -/

theorem isName_cases {s : String} (hs : isName s = true) :
    ∃ x w, s.toList = x :: w ∧ isLetter x = true ∧ ∀ y ∈ x :: w, isWordChar y = true := by
  unfold isName at hs
  split at hs
  · cases hs
  · rename_i x w heq
    obtain ⟨hx, hw⟩ := Bool.and_eq_true_iff.1 hs
    refine ⟨x, w, heq, hx, ?_⟩
    intro y hy
    rcases List.mem_cons.1 hy with rfl | hy
    · simp [isWordChar, hx]
    · exact List.all_eq_true.1 hw y hy

/-- A letter is no digit and no mark. -/
theorem isLetter_cases (hx : isLetter x = true) :
    x ≠ '[' ∧ x ≠ ']' ∧ x ≠ '\x7b' ∧ x ≠ '\x7d' ∧ isDigit x = false ∧ x ≠ '_' := by
  have hne : ∀ y, isLetter y = false → x ≠ y := by
    rintro y hy rfl
    rw [hx] at hy
    cases hy
  refine ⟨hne _ (by decide), hne _ (by decide), hne _ (by decide), hne _ (by decide), ?_,
    hne _ (by decide)⟩
  simp only [isLetter, Bool.or_eq_true, Bool.and_eq_true, decide_eq_true_eq] at hx
  simp only [isDigit, Bool.and_eq_false_iff, decide_eq_false_iff_not]
  right
  intro h9
  have hle : ∀ {a b : Char}, a ≤ b → a.toNat ≤ b.toNat := fun h => h
  have hnine := hle h9
  simp only [Char.reduceToNat] at hnine
  rcases hx with ⟨hlo, -⟩ | ⟨hlo, -⟩
  · have := hle hlo
    simp only [Char.reduceToNat] at this
    omega
  · have := hle hlo
    simp only [Char.reduceToNat] at this
    omega

/-- A digit is no mark. -/
theorem isDigit_cases (hx : isDigit x = true) :
    x ≠ '[' ∧ x ≠ ']' ∧ x ≠ '\x7b' ∧ x ≠ '\x7d' := by
  have hne : ∀ y, isDigit y = false → x ≠ y := by
    rintro y hy rfl
    rw [hx] at hy
    cases hy
  exact ⟨hne _ (by decide), hne _ (by decide), hne _ (by decide), hne _ (by decide)⟩

/-- The digits of a numeral. -/
theorem number_cases (w : UInt64) : ∃ x ds, Nat.toDigits 10 w.toNat = x :: ds ∧
    isDigit x = true ∧ ∀ y ∈ x :: ds, isWordChar y = true := by
  have hall : ∀ y ∈ Nat.toDigits 10 w.toNat, isDigit y = true := by
    intro y hy
    rw [Text.isDigit_iff]
    exact Nat.isDigit_of_mem_toDigits (by decide) (by decide) hy
  obtain ⟨x, ds, heq⟩ := List.exists_cons_of_ne_nil (@Nat.toDigits_ne_nil w.toNat 10)
  rw [heq] at hall ⊢
  refine ⟨x, ds, rfl, hall x List.mem_cons_self, ?_⟩
  intro y hy
  simp [isWordChar, hall y hy]

/-- The first character of a lexeme starts a token. -/
theorem At.starts {l : Lexeme} (hl : l.Proper) (h : c.At (l.chars ++ cs)) :
    c.skip false = c ∧ c.char ≠ '\x00' := by
  have hword : ∀ {x w}, c.At (x :: w ++ cs) → isWordChar x = true →
      c.skip false = c ∧ c.char ≠ '\x00' := by
    intro x w h hx
    obtain ⟨hascii, hsep, hcomment, hnul⟩ := isWordChar_cases hx
    exact ⟨At.skip_other h hascii hsep hcomment, by rw [At.char h hascii]; exact hnul⟩
  cases l with
  | opening =>
    exact ⟨At.skip_other h (by decide) (by decide) (by decide),
      by rw [At.char h (by decide)]; decide⟩
  | closing =>
    exact ⟨At.skip_other h (by decide) (by decide) (by decide),
      by rw [At.char h (by decide)]; decide⟩
  | name s =>
    obtain ⟨x, w, heq, -, hall⟩ := isName_cases hl
    rw [Lexeme.chars, heq] at h
    exact hword h (hall x List.mem_cons_self)
  | define s => exact hword h (by decide)
  | number v =>
    obtain ⟨x, ds, heq, -, hall⟩ := number_cases v
    rw [Lexeme.chars, heq] at h
    exact hword h (hall x List.mem_cons_self)

/-- A lexeme is read as the token that says it. -/
theorem At.token {l : Lexeme} (hl : l.Proper) (h : c.At (l.chars ++ cs)) (hcs : EndsWord cs) :
    l.Matches c.token.1 ∧ c.token.2.At cs := by
  have hnul := (h.starts hl).2
  unfold Cursor.token
  dsimp only
  rw [if_neg hnul]
  cases l with
  | opening =>
    rw [At.char h (by decide), if_pos rfl]
    exact ⟨rfl, At.advance h (by decide)⟩
  | closing =>
    rw [At.char h (by decide), if_neg (by decide), if_pos rfl]
    exact ⟨rfl, At.advance h (by decide)⟩
  | name s =>
    obtain ⟨x, w, heq, hx, hall⟩ := isName_cases hl
    rw [Lexeme.chars, heq] at h
    obtain ⟨h1, h2, h3, h4, h5, h6⟩ := isLetter_cases hx
    obtain ⟨hrun, hafter⟩ := At.word h hall hcs
    rw [At.char h (isWordChar_cases (hall x List.mem_cons_self)).1, if_neg h1, if_neg h2,
      if_neg h3, if_neg h4, if_neg (by rw [h5]; decide), if_neg h6, if_pos hx]
    refine ⟨⟨rfl, ?_⟩, hafter⟩
    show String.ofList c.word.1 = s
    rw [hrun, ← heq, String.ofList_toList]
  | define s =>
    obtain ⟨x, w, heq, hx, hall⟩ := isName_cases hl
    have hafter := At.advance h (by decide)
    rw [heq] at hafter
    obtain ⟨hrun, hend⟩ := At.word hafter hall hcs
    have hletter := At.char hafter (isWordChar_cases (hall x List.mem_cons_self)).1
    rw [At.char h (by decide), if_neg (by decide), if_neg (by decide), if_neg (by decide),
      if_neg (by decide), if_neg (by decide), if_pos rfl, hletter, if_pos hx]
    refine ⟨⟨rfl, ?_⟩, hend⟩
    show String.ofList c.advance.word.1 = s
    rw [hrun, ← heq, String.ofList_toList]
  | number v =>
    obtain ⟨x, ds, heq, hx, hall⟩ := number_cases v
    rw [Lexeme.chars, heq] at h
    obtain ⟨h1, h2, h3, h4⟩ := isDigit_cases hx
    obtain ⟨hrun, hafter⟩ := At.word h hall hcs
    rw [At.char h (isWordChar_cases (hall x List.mem_cons_self)).1, if_neg h1, if_neg h2,
      if_neg h3, if_neg h4, if_pos hx]
    refine ⟨⟨rfl, ?_⟩, hafter⟩
    show Text.readNumeral (String.ofList c.word.1) = .ok v
    rw [hrun, ← heq]
    exact Text.readNumeral_repr v

/-- Lexemes are read one after the other. -/
theorem At.scan {ls : List Lexeme} (hls : ∀ l ∈ ls, l.Proper) (h : c.At (spell ls)) :
    ∃ toks last, c.scan.1 = toks ++ [last] ∧ last.kind = .endOfText ∧
      List.Forall₂ Lexeme.Matches ls toks := by
  induction ls generalizing c with
  | nil =>
    have hchar := At.char_nil h
    refine ⟨[], c.token.1, ?_, ?_, .nil⟩
    · rw [Cursor.scan, At.skip_nil h, dif_pos hchar]
      rfl
    · rw [Cursor.token, if_pos hchar]
  | cons l ls ih =>
    have hl := hls l List.mem_cons_self
    have hat : c.At (l.chars ++ ' ' :: spell ls) := by
      have hsplit : spell (l :: ls) = l.chars ++ ' ' :: spell ls := by
        rw [spell, List.flatMap_cons, List.append_assoc]
        rfl
      rwa [hsplit] at h
    obtain ⟨hskip, hnul⟩ := hat.starts hl
    obtain ⟨hmatch, hafter⟩ := hat.token hl (by simp [EndsWord, isWordChar, isLetter, isDigit])
    obtain ⟨toks, last, hscan, hlast, hall⟩ :=
      ih (fun l' hl' => hls l' (List.mem_cons_of_mem _ hl')) (At.advance hafter (by decide))
    -- The space after the lexeme belongs to no token.
    have hspace : c.token.2.scan = c.token.2.advance.scan := by
      rw [Cursor.scan.eq_1 c.token.2, At.skip_space hafter, ← Cursor.scan.eq_1]
    refine ⟨c.token.1 :: toks, last, ?_, hlast, .cons hmatch hall⟩
    rw [Cursor.scan, hskip, dif_neg hnul, hspace]
    exact congrArg (c.token.1 :: ·) hscan

end Cursor

/-- The text of lexemes says what they say. -/
theorem says_spell {ls : List Lexeme} (hls : ∀ l ∈ ls, l.Proper) : Says (encode (spell ls)) ls :=
  Cursor.At.scan hls rfl

end Source

end TreeMachine
