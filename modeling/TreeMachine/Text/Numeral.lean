/-! # Numerals

  Unsigned numerals with an optional base mark: `0x`, `0b` and `0o` in either case, a
  leading zero for base eight, base ten otherwise.  An underscore may stand between two
  digits, or between the base mark and a digit.
-/

namespace TreeMachine.Text

/-- Why a numeral was refused. -/
inductive NumeralError where
  /-- It has a character that is no digit of its base, or a misplaced underscore. -/
  | malformed
  /-- Its value does not fit a word. -/
  | tooLarge
deriving DecidableEq, Repr

/-- The value of a letter or digit as a digit of some base up to 36. -/
def digitValue? (c : Char) : Option Nat :=
  if '0' ≤ c && c ≤ '9' then some (c.toNat - 48)
  else if 'a' ≤ c && c ≤ 'z' then some (c.toNat - 87)
  else if 'A' ≤ c && c ≤ 'Z' then some (c.toNat - 55)
  else none

/-- The base of a numeral, whether it has a two-character base mark, and what follows the
    mark.  A mark must be followed by something. -/
def splitBase : List Char → Nat × Bool × List Char
  | '0' :: mark :: c :: rest =>
    if mark = 'b' || mark = 'B' then (2, true, c :: rest)
    else if mark = 'o' || mark = 'O' then (8, true, c :: rest)
    else if mark = 'x' || mark = 'X' then (16, true, c :: rest)
    else (8, false, mark :: c :: rest)
  | '0' :: rest => (8, false, rest)
  | cs => (10, false, cs)

/-- The value of the digits, underscores skipped; it stops at the first digit that is not
    of the base or that makes the value too large. -/
def readDigits (base : Nat) : List Char → Nat → Except NumeralError Nat
  | [], n => .ok n
  | '_' :: rest, n => readDigits base rest n
  | c :: rest, n =>
    match digitValue? c with
    | none => .error .malformed
    | some d =>
      if base ≤ d then .error .malformed
      else if UInt64.size ≤ n * base + d then .error .tooLarge
      else readDigits base rest (n * base + d)

/-- Each underscore follows a digit and is followed by one; `afterDigit` says whether the
    text begins right after a digit or a base mark. -/
def underscoresSeparate : List Char → Bool → Bool
  | [], _ => true
  | ['_'], _ => false
  | '_' :: rest, afterDigit => afterDigit && underscoresSeparate rest false
  | _ :: rest, _ => underscoresSeparate rest true

/-- The word a numeral denotes. -/
def readNumeral (s : String) : Except NumeralError UInt64 :=
  match s.toList with
  | [] => .error .malformed
  | cs =>
    let (base, marked, digits) := splitBase cs
    match readDigits base digits 0 with
    | .error e => .error e
    | .ok n =>
      if underscoresSeparate (if marked then digits else cs) marked then .ok (UInt64.ofNat n)
      else .error .malformed

/-- The value of a non-empty run of decimal digits. -/
def decimal? (cs : List Char) : Option Nat :=
  if cs.isEmpty || !cs.all Char.isDigit then none
  else some (cs.foldl (fun n c => n * 10 + (c.toNat - 48)) 0)

end TreeMachine.Text
