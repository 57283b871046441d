import Mathlib.Data.List.Forall2
import TreeMachine.Proofs.Source.Lexemes

/-! # Texts and their signs

  A sign is a lexeme or a brace.  Printed texts separate words by single spaces and put none
  around brackets and braces.  Main statement: the tokens of a text that is put together in
  that way say what its signs say.
-/

namespace TreeMachine.Source

open Cursor (EndsWord)

/-- A lexeme or a brace. -/
inductive Sign where
  | lexeme (l : Lexeme)
  | openBrace
  | closeBrace
deriving DecidableEq, Repr

/-- The token says what the sign says. -/
def Sign.Matches : Sign → Token → Prop
  | lexeme l, tok => l.Matches tok
  | openBrace, tok => tok.kind = .openBrace
  | closeBrace, tok => tok.kind = .closeBrace

/-- Wherever the characters stand, before some that no word goes on with, they are read as
    the signs. -/
def Spells (cs : List Char) (ss : List Sign) : Prop :=
  ∀ (c : Cursor) (rest : List Char), c.At (cs ++ rest) → EndsWord rest →
    ∃ toks c', Cursor.At c' rest ∧ c.scan.1 = toks ++ c'.scan.1 ∧
      List.Forall₂ Sign.Matches ss toks

namespace Spells

variable {cs cs' : List Char} {ss ss' : List Sign}

theorem nil : Spells [] [] := fun c _ h _ => ⟨[], c, h, rfl, .nil⟩

/-- The first token, and what is read after it. -/
theorem cons {s : Sign} {pre : List Char} (hs : Spells cs ss)
    (htoken : ∀ (c : Cursor) (rest : List Char), c.At (pre ++ (cs ++ rest)) → EndsWord rest →
      (c.skip false = c ∧ c.char ≠ '\x00') ∧ s.Matches c.token.1 ∧ c.token.2.At (cs ++ rest)) :
    Spells (pre ++ cs) (s :: ss) := by
  intro c rest h hrest
  rw [List.append_assoc] at h
  obtain ⟨⟨hskip, hnul⟩, hmatch, hafter⟩ := htoken c rest h hrest
  obtain ⟨toks, c', hc', hscan, hall⟩ := hs _ rest hafter hrest
  refine ⟨c.token.1 :: toks, c', hc', ?_, .cons hmatch hall⟩
  rw [Cursor.scan, hskip, dif_neg hnul]
  exact congrArg (c.token.1 :: ·) hscan

/-- What follows the characters and ends a word ends it before them, if there are none. -/
theorem endsWord_append {rest : List Char} (hcs : EndsWord cs) (hrest : EndsWord rest) :
    EndsWord (cs ++ rest) := by
  cases cs with
  | nil => exact hrest
  | cons x cs => exact hcs

/-- A word must end. -/
theorem lexeme {l : Lexeme} (hl : l.Proper) (hs : Spells cs ss) (hcs : EndsWord cs) :
    Spells (l.chars ++ cs) (.lexeme l :: ss) :=
  hs.cons fun _ _ h hrest => ⟨h.starts hl, h.token hl (endsWord_append hcs hrest)⟩

/-- A bracket or brace needs no end. -/
theorem mark {x : Char} {s : Sign} (hs : Spells cs ss)
    (hx : x = '[' ∧ s = .lexeme .opening ∨ x = ']' ∧ s = .lexeme .closing ∨
      x = '\x7b' ∧ s = .openBrace ∨ x = '\x7d' ∧ s = .closeBrace) :
    Spells (x :: cs) (s :: ss) := by
  show Spells ([x] ++ cs) (s :: ss)
  refine hs.cons ?_
  intro c rest h _
  have hascii : x.toNat < 128 ∧ isSeparator x = false ∧ x ≠ ';' ∧ x ≠ '\x00' := by
    rcases hx with ⟨rfl, -⟩ | ⟨rfl, -⟩ | ⟨rfl, -⟩ | ⟨rfl, -⟩ <;> decide
  obtain ⟨hsmall, hsep, hcomment, hnul⟩ := hascii
  have hchar : c.char = x := Cursor.At.char h hsmall
  have hafter : c.advance.At (cs ++ rest) := Cursor.At.advance h hsmall
  refine ⟨⟨Cursor.At.skip_other h hsmall hsep hcomment, by rw [hchar]; exact hnul⟩, ?_⟩
  unfold Cursor.token
  dsimp only
  rw [hchar, if_neg hnul]
  rcases hx with ⟨rfl, rfl⟩ | ⟨rfl, rfl⟩ | ⟨rfl, rfl⟩ | ⟨rfl, rfl⟩
  · exact ⟨rfl, hafter⟩
  · exact ⟨rfl, hafter⟩
  · exact ⟨rfl, hafter⟩
  · exact ⟨rfl, hafter⟩

/-- A space is part of no token. -/
theorem space (hs : Spells cs ss) : Spells (' ' :: cs) ss := by
  intro c rest h hrest
  obtain ⟨toks, c', hc', hscan, hall⟩ := hs _ rest (Cursor.At.advance h (by decide)) hrest
  refine ⟨toks, c', hc', ?_, hall⟩
  rw [Cursor.scan.eq_1 c, Cursor.At.skip_space h, ← Cursor.scan.eq_1]
  exact hscan

/-- One text after the other. -/
theorem append (hs : Spells cs ss) (hs' : Spells cs' ss') (hends : EndsWord cs') :
    Spells (cs ++ cs') (ss ++ ss') := by
  intro c rest h hrest
  rw [List.append_assoc] at h
  obtain ⟨toks, c', hc', hscan, hall⟩ := hs c _ h (endsWord_append hends hrest)
  obtain ⟨toks', c'', hc'', hscan', hall'⟩ := hs' c' rest hc' hrest
  refine ⟨toks ++ toks', c'', hc'', ?_, List.rel_append hall hall'⟩
  rw [hscan, hscan', List.append_assoc]

end Spells

/-- The tokens of a whole text say what its signs say. -/
theorem Spells.tokens {cs : List Char} {ss : List Sign} (hs : Spells cs ss) :
    ∃ toks last, tokens (encode cs) = toks ++ [last] ∧ last.kind = .endOfText ∧
      List.Forall₂ Sign.Matches ss toks := by
  have hstart : (Cursor.start (encode cs)).At (cs ++ []) := by
    rw [List.append_nil]
    rfl
  obtain ⟨toks, c', hc', hscan, hall⟩ := hs _ [] hstart (fun x hx => by cases hx)
  have hchar := Cursor.At.char_nil hc'
  refine ⟨toks, c'.token.1, ?_, ?_, hall⟩
  · show (Cursor.start (encode cs)).scan.1 = _
    rw [hscan, Cursor.scan.eq_1 c', Cursor.At.skip_nil hc', dif_pos hchar]
  · rw [Cursor.token, if_pos hchar]

end TreeMachine.Source
