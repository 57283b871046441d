import TreeMachine.Text.Numeral

/-! # Strings of a settings file

  A string stands in double quotes, with escapes, or in single quotes, without.  In either
  case three quotes begin a string of several lines.
-/

namespace TreeMachine.Toml

/-- The character with the given number, in hexadecimal digits. -/
def charOfHex? (digits : List Char) : Option Char := do
  let n ← digits.foldlM (fun n c => do
    let d ← Text.digitValue? c
    if d < 16 then some (n * 16 + d) else none) 0
  if n < 0xD800 ∨ (0xDFFF < n ∧ n < 0x110000) then some (Char.ofNat n) else none

/-- The character that a one-letter escape stands for. -/
def escaped? : Char → Option Char
  | 'b' => some '\x08'
  | 't' => some '\t'
  | 'n' => some '\n'
  | 'f' => some '\x0c'
  | 'r' => some '\r'
  | 'e' => some '\x1b'
  | '"' => some '"'
  | '\\' => some '\\'
  | _ => none

/-- Puts a character in front of the string that was read. -/
def withChar (c : Option Char) (read : Option (List Char × List Char)) :
    Option (List Char × List Char) := do
  let c ← c
  let (s, rest) ← read
  some (c :: s, rest)

/-- The string up to the next double quote, on one line, and what follows it. -/
def basicString? : List Char → Option (List Char × List Char)
  | [] => none
  | '\n' :: _ => none
  | '"' :: rest => some ([], rest)
  | '\\' :: 'x' :: a :: b :: rest => withChar (charOfHex? [a, b]) (basicString? rest)
  | '\\' :: 'u' :: a :: b :: c :: d :: rest =>
    withChar (charOfHex? [a, b, c, d]) (basicString? rest)
  | '\\' :: 'U' :: a :: b :: c :: d :: e :: f :: g :: h :: rest =>
    withChar (charOfHex? [a, b, c, d, e, f, g, h]) (basicString? rest)
  | '\\' :: c :: rest => withChar (escaped? c) (basicString? rest)
  | c :: rest => withChar (some c) (basicString? rest)

/-- The string up to the next single quote, on one line, and what follows it. -/
def literalString? : List Char → Option (List Char × List Char)
  | [] => none
  | '\n' :: _ => none
  | '\'' :: rest => some ([], rest)
  | c :: rest => withChar (some c) (literalString? rest)

/-- After three closing quotes: as many quotes as follow, up to `most`, stand in front of the
    closing ones and belong to the string; more belong to none. -/
def closing (quote : Char) (most : Nat) (cs : List Char) : Option (List Char × List Char) :=
  let more := cs.takeWhile (· == quote)
  if more.length ≤ most then some (more, cs.dropWhile (· == quote)) else none

/-- A backslash before the rest of its line only: the line ends here. -/
def endsLine (cs : List Char) : Bool :=
  (cs.dropWhile fun c => c == ' ' || c == '\t').head? == some '\n'

/-- What stands in front of a place in a string of several lines. -/
inductive Before where
  /-- A backslash at the end of a line and perhaps blanks and line ends. -/
  | joint
  /-- A backslash that is written twice. -/
  | backslash
  | other
deriving DecidableEq

/-- The string up to three double quotes, over several lines, and what follows it.  Blanks and
    line ends after a joint are skipped.  Two quotes of the string may stand in front of the
    closing ones, and three if a backslash is in front of those. -/
def basicLines? (before : Before) : List Char → Option (List Char × List Char)
  | [] => none
  | '"' :: '"' :: '"' :: rest => closing '"' (if before = .backslash then 3 else 2) rest
  | '\\' :: 'x' :: a :: b :: rest => withChar (charOfHex? [a, b]) (basicLines? .other rest)
  | '\\' :: 'u' :: a :: b :: c :: d :: rest =>
    withChar (charOfHex? [a, b, c, d]) (basicLines? .other rest)
  | '\\' :: 'U' :: a :: b :: c :: d :: e :: f :: g :: h :: rest =>
    withChar (charOfHex? [a, b, c, d, e, f, g, h]) (basicLines? .other rest)
  | '\\' :: c :: rest =>
    if endsLine (c :: rest) then basicLines? .joint rest
    else withChar (escaped? c) (basicLines? (if c = '\\' then .backslash else .other) rest)
  | c :: rest =>
    if before = .joint ∧ (c = ' ' ∨ c = '\t' ∨ c = '\n') then basicLines? .joint rest
    else withChar (some c) (basicLines? .other rest)

/-- The string up to three single quotes, over several lines, and what follows it. -/
def literalLines? : List Char → Option (List Char × List Char)
  | [] => none
  | '\'' :: '\'' :: '\'' :: rest => closing '\'' 2 rest
  | c :: rest => withChar (some c) (literalLines? rest)

/-- Leaves out a line end right after the opening quotes. -/
def dropLineEnd : List Char → List Char
  | '\n' :: rest => rest
  | cs => cs

/-- A string on one line, and what follows it; `none` where no string begins. -/
def name? : List Char → Option (List Char × List Char)
  | '"' :: rest => basicString? rest
  | '\'' :: rest => literalString? rest
  | _ => none

/-- A string, and what follows it; `none` where no string begins. -/
def string? : List Char → Option (List Char × List Char)
  | '"' :: '"' :: '"' :: rest => basicLines? .other (dropLineEnd rest)
  | '\'' :: '\'' :: '\'' :: rest => literalLines? (dropLineEnd rest)
  | cs => name? cs

end TreeMachine.Toml
