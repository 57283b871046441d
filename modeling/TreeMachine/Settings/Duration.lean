import TreeMachine.Text.Quoted

/-! # Durations

  A duration is a number of nanoseconds.  It is written as a sequence of decimal numbers with
  units, such as `2h45m` or `1.5s`, with an optional sign in front.
-/

namespace TreeMachine

/-- A time span in nanoseconds, of either sign. -/
structure Duration where
  nanoseconds : Int
deriving DecidableEq, Repr, Inhabited

/-- Why a text is no duration. -/
inductive DurationError where
  | invalid (text : String)
  | missingUnit (text : String)
  | unknownUnit (unit text : String)
deriving DecidableEq, Repr

namespace Duration

/-! ### Error texts -/

/-- How one character stands in an error text: quote and backslash are escaped, and the
    bytes of a control character or of a character beyond ASCII are shown by their values. -/
def showChar (c : Char) : List Char :=
  if c.toNat < 0x20 ∨ 0x80 ≤ c.toNat then
    (Text.toBytes (String.singleton c)).flatMap fun b => '\\' :: 'x' :: Text.hexDigits 2 b.toNat
  else if c = '"' ∨ c = '\\' then ['\\', c]
  else [c]

/-- A text as error texts show it. -/
def showText (s : String) : String :=
  String.ofList ('"' :: s.toList.flatMap showChar ++ ['"'])

end Duration

/-- The wording of a failure. -/
def DurationError.message : DurationError → String
  | invalid text => "time: invalid duration " ++ Duration.showText text
  | missingUnit text => "time: missing unit in duration " ++ Duration.showText text
  | unknownUnit unit text =>
    "time: unknown unit " ++ Duration.showText unit ++ " in duration " ++ Duration.showText text

namespace Duration

/-! ### Reading -/

/-- The nanoseconds of a unit.  The micro sign and the Greek letter both mean a millionth. -/
def unit? : String → Option UInt64
  | "ns" => some 1
  | "us" => some 1000
  | "µs" => some 1000
  | "μs" => some 1000
  | "ms" => some 1000000
  | "s" => some 1000000000
  | "m" => some 60000000000
  | "h" => some 3600000000000
  | _ => none

/-- The largest magnitude: that of the smallest duration. -/
def maxMagnitude : UInt64 := 9223372036854775808

/-- The whole number at the start of a text, and the rest; too large a number has no value. -/
def wholePart : List Char → UInt64 → Option (UInt64 × List Char)
  | [], n => some (n, [])
  | c :: rest, n =>
    if c.isDigit then
      if maxMagnitude / 10 < n then none
      else
        let n := n * 10 + UInt64.ofNat (c.toNat - 48)
        if maxMagnitude < n then none else wholePart rest n
    else some (n, c :: rest)

/-- The digits of a fraction, read as a whole number, and the power of ten they are divided
    by.  Digits that would make the number too large are dropped, and so are all after
    them. -/
def fractionPart : List Char → UInt64 → Float → UInt64 × Float
  | [], n, scale => (n, scale)
  | c :: rest, n, scale =>
    if (maxMagnitude - 1) / 10 < n then (n, scale)
    else
      let next := n * 10 + UInt64.ofNat (c.toNat - 48)
      if maxMagnitude < next then (n, scale) else fractionPart rest next (scale * 10)

/-- A character that ends the name of a unit. -/
def startsNumber (c : Char) : Bool := c == '.' || c.isDigit

/-- One number with its unit at the start of the text `cs`, in nanoseconds, and the rest;
    `text` is the whole text. -/
def readTerm (text : String) (cs : List Char) : Except DurationError (UInt64 × List Char) := do
  let invalid : DurationError := .invalid text
  let digits := cs.takeWhile Char.isDigit
  let some (whole, _) := wholePart digits 0 | throw invalid
  let rest := cs.dropWhile Char.isDigit
  let (fraction, afterNumber) := match rest with
    | '.' :: more => (more.takeWhile Char.isDigit, more.dropWhile Char.isDigit)
    | _ => ([], rest)
  if digits.isEmpty && fraction.isEmpty then throw invalid
  let name := afterNumber.takeWhile (!startsNumber ·)
  if name.isEmpty then throw (.missingUnit text)
  let some unit := unit? (String.ofList name)
    | throw (.unknownUnit (String.ofList name) text)
  if maxMagnitude / unit < whole then throw invalid
  let (f, scale) := fractionPart fraction 0 1
  let value := whole * unit
  let value := if 0 < f then value + (f.toFloat * (unit.toFloat / scale)).toUInt64 else value
  if maxMagnitude < value then throw invalid
  return (value, afterNumber.dropWhile (!startsNumber ·))

/-- The sum of the terms of a text.  Every term has at least two characters, so there are
    fewer terms than `fuel`, the length of the text. -/
def readTerms (text : String) : Nat → List Char → UInt64 → Except DurationError UInt64
  | _, [], sum => return sum
  | 0, _, _ => throw (.invalid text)
  | fuel + 1, c :: cs, sum => do
    if !startsNumber c then throw (.invalid text)
    let (value, rest) ← readTerm text (c :: cs)
    let sum := sum + value
    if maxMagnitude < sum then throw (.invalid text)
    readTerms text fuel rest sum

/-- Reads a duration.  A zero needs no unit. -/
def parse (text : String) : Except DurationError Duration := do
  let cs := text.toList
  let (negative, cs) := match cs with
    | '-' :: rest => (true, rest)
    | '+' :: rest => (false, rest)
    | _ => (false, cs)
  if cs = ['0'] then return ⟨0⟩
  if cs.isEmpty then throw (.invalid text)
  let magnitude ← readTerms text cs.length cs 0
  if negative then return ⟨-(magnitude.toNat : Int)⟩
  if magnitude = maxMagnitude then throw (.invalid text)
  return ⟨magnitude.toNat⟩

/-! ### Writing -/

/-- The last `places` decimal digits of a number. -/
def lastDigits : Nat → Nat → List Char
  | 0, _ => []
  | places + 1, n => lastDigits places (n / 10) ++ [Nat.digitChar (n % 10)]

/-- A number of which the last `places` digits are a fraction; zeros at the end of the
    fraction are dropped. -/
def decimalText (n places : Nat) : String :=
  let fraction := ((lastDigits places n).reverse.dropWhile (· == '0')).reverse
  toString (n / Nat.pow 10 places) ++
    (if fraction.isEmpty then "" else "." ++ String.ofList fraction)

/-- The text of a magnitude.  Below a second there is one unit; from a second on there are
    seconds, and minutes and hours if there are any. -/
def magnitudeText (n : Nat) : String :=
  if n = 0 then "0s"
  else if n < 1000 then toString n ++ "ns"
  else if n < 1000000 then decimalText n 3 ++ "µs"
  else if n < 1000000000 then decimalText n 6 ++ "ms"
  else
    let second := 1000000000
    let seconds := decimalText (n % (60 * second)) 9 ++ "s"
    let minutes := n / (60 * second)
    if minutes = 0 then seconds
    else
      let shown := toString (minutes % 60) ++ "m" ++ seconds
      if minutes < 60 then shown else toString (minutes / 60) ++ "h" ++ shown

/-- The text of a duration. -/
def text (d : Duration) : String :=
  (if d.nanoseconds < 0 then "-" else "") ++ magnitudeText d.nanoseconds.natAbs

end Duration

end TreeMachine
