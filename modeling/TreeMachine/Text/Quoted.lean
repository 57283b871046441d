import TreeMachine.Text.Printable
import TreeMachine.Text.Utf8

/-! # Quoted text

  A text between double quotes, with escapes for the quote, the backslash, everything
  that is not printable, and malformed bytes.
-/

namespace TreeMachine.Text

/-- One lower-case hexadecimal digit. -/
def hexDigit (n : Nat) : Char :=
  if n < 10 then Char.ofNat (48 + n) else Char.ofNat (87 + n)

/-- The last `width` hexadecimal digits of `n`. -/
def hexDigits : Nat → Nat → List Char
  | 0, _ => []
  | width + 1, n => hexDigits width (n / 16) ++ [hexDigit (n % 16)]

/-- The letter escapes. -/
def letterEscape? : Char → Option Char
  | '\x07' => some 'a'
  | '\x08' => some 'b'
  | '\x0c' => some 'f'
  | '\n' => some 'n'
  | '\r' => some 'r'
  | '\t' => some 't'
  | '\x0b' => some 'v'
  | _ => none

/-- How one character stands in a quoted text. -/
def quoteChar (c : Char) : List Char :=
  if c = '"' || c = '\\' then ['\\', c]
  else if isPrintable c then [c]
  else match letterEscape? c with
    | some letter => ['\\', letter]
    | none =>
      if c.toNat < 0x20 || c.toNat = 0x7f then '\\' :: 'x' :: hexDigits 2 c.toNat
      else if c.toNat < 0x10000 then '\\' :: 'u' :: hexDigits 4 c.toNat
      else '\\' :: 'U' :: hexDigits 8 c.toNat

/-- The escapes of the characters of a text; a malformed byte is shown by its value. -/
def quoteBody : List UInt8 → List Char
  | [] => []
  | b :: rest =>
    let decoded := decodeFirst b rest
    let shown := if isMalformed decoded then '\\' :: 'x' :: hexDigits 2 b.toNat
      else quoteChar decoded.1
    shown ++ quoteBody (rest.drop (decoded.2 - 1))
termination_by bytes => bytes.length
decreasing_by simp only [List.length_drop, List.length_cons]; omega

/-- The text in double quotes. -/
def quoteBytes (bytes : List UInt8) : String :=
  String.ofList ('"' :: quoteBody bytes ++ ['"'])

/-- A string in double quotes. -/
def quote (s : String) : String := quoteBytes (toBytes s)

end TreeMachine.Text
