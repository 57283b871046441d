import TreeMachine.Text.Numeral

/-! # Scalars of a settings file

  Numbers, truth values and moments.  A scalar other than a string is a run of letters,
  digits and a few signs, and the whole run has to be a scalar.
-/

namespace TreeMachine.Toml

/-- A value that is no list and no table.  What a fraction or a moment denotes is not kept:
    no setting takes one. -/
inductive Scalar where
  | text (s : String)
  | integer (n : Int)
  | fraction
  | boolean (b : Bool)
  /-- A date, a time of day, or both. -/
  | moment
deriving DecidableEq, Repr

/-! ### Whole numbers -/

/-- The range of whole numbers. -/
def inRange (n : Int) : Bool := decide (-9223372036854775808 ≤ n ∧ n ≤ 9223372036854775807)

/-- The value of digits of a base.  Underscores may stand between digits only. -/
def digits? (base : Nat) (cs : List Char) : Option Nat :=
  if cs.isEmpty || !Text.underscoresSeparate cs false then none
  else (cs.filter (· != '_')).foldlM (fun n c => do
    let d ← Text.digitValue? c
    if d < base then some (n * base + d) else none) 0

/-- The base that a mark after a leading zero selects. -/
def markedBase? : Char → Option Nat
  | 'x' => some 16
  | 'o' => some 8
  | 'b' => some 2
  | _ => none

/-- Decimal digits without a leading zero. -/
def plainDigits? : List Char → Option Nat
  | ['0'] => some 0
  | '0' :: _ => none
  | cs => digits? 10 cs

/-- The sign of a number and what follows it. -/
def splitSign : List Char → Int × List Char
  | '-' :: rest => (-1, rest)
  | '+' :: rest => (1, rest)
  | cs => (1, cs)

/-- A whole number.  A base mark excludes a sign. -/
def integer? (run : List Char) : Option Int := do
  let marked := match run with
    | '0' :: mark :: rest => (markedBase? mark).map fun base => digits? base rest
    | _ => none
  let n ← match marked with
    | some value => value.map Int.ofNat
    | none =>
      let (sign, cs) := splitSign run
      (plainDigits? cs).map fun n => sign * n
  if inRange n then some n else none

/-! ### Fractions -/

/-- The value that no finite number of double precision reaches: from here on a number
    would be rounded to infinity. -/
def infinityBound : Nat := Nat.pow 2 1024 - Nat.pow 2 970

/-- A number `m · 10 ^ e` is rounded to a finite one.  Only near the bound does it take
    exact arithmetic. -/
def isFinite (m : Nat) (e : Int) : Bool :=
  let size := (Nat.toDigits 10 m).length + e
  if m = 0 ∨ size < 300 then true
  else if 320 < size then false
  else decide (m * Nat.pow 10 e.toNat < infinityBound * Nat.pow 10 (-e).toNat)

/-- The exponent of a fraction, or zero if none is written. -/
def exponent? : List Char → Option Int
  | [] => some 0
  | _ :: cs =>
    let (sign, cs) := splitSign cs
    (digits? 10 cs).map fun n => sign * n

/-- A number with a point or an exponent, an infinity or a not-a-number. -/
def isFraction (run : List Char) : Bool :=
  let (_, cs) := splitSign run
  if cs = ['i', 'n', 'f'] ∨ cs = ['n', 'a', 'n'] then true
  else
    let mantissa := cs.takeWhile fun c => c != 'e' && c != 'E'
    let whole := mantissa.takeWhile (· != '.')
    let places := match mantissa.dropWhile (· != '.') with
      | [] => some []
      | _ :: places => if (digits? 10 places).isSome then some places else none
    match plainDigits? whole, places, exponent? (cs.drop mantissa.length) with
    | some _, some places, some e =>
      whole.length < cs.length &&
      let places := places.filter (· != '_')
      let written := whole.filter (· != '_') ++ places
      isFinite ((digits? 10 written).getD 0) (e - places.length)
    | _, _, _ => false

/-! ### Moments -/

/-- A number of exactly `width` digits, at most `max`, and what follows it. -/
def field? (width max : Nat) (cs : List Char) : Option (Nat × List Char) := do
  let n ← Text.decimal? (cs.take width)
  if cs.length < width ∨ max < n then none else some (n, cs.drop width)

/-- What follows a sign. -/
def after? (sign : Char) : List Char → Option (List Char)
  | c :: rest => if c = sign then some rest else none
  | [] => none

/-- The number of days of a month. -/
def daysOfMonth (year month : Nat) : Nat :=
  if month = 2 then
    if year % 4 = 0 ∧ (year % 100 ≠ 0 ∨ year % 400 = 0) then 29 else 28
  else if month = 4 ∨ month = 6 ∨ month = 9 ∨ month = 11 then 30
  else 31

/-- What follows a date. -/
def date? (cs : List Char) : Option (List Char) := do
  let (year, cs) ← field? 4 9999 cs
  let (month, cs) ← field? 2 12 (← after? '-' cs)
  let (day, cs) ← field? 2 31 (← after? '-' cs)
  if month = 0 ∨ day = 0 ∨ daysOfMonth year month < day then none else some cs

/-- What follows the places of a second.  A point without digits is left in place. -/
def dropPlaces : List Char → List Char
  | '.' :: c :: rest => if c.isDigit then rest.dropWhile Char.isDigit else '.' :: c :: rest
  | cs => cs

/-- What follows a time of day.  Seconds may be left out. -/
def time? (cs : List Char) : Option (List Char) := do
  let (_, cs) ← field? 2 23 cs
  let (_, cs) ← field? 2 59 (← after? ':' cs)
  match cs with
  | ':' :: cs =>
    let (_, cs) ← field? 2 59 cs
    some (dropPlaces cs)
  | _ => some cs

/-- Nothing, or a difference from universal time. -/
def isZone : List Char → Bool
  | [] => true
  | ['Z'] | ['z'] => true
  | sign :: cs =>
    (sign == '+' || sign == '-') &&
    (do let (_, cs) ← field? 2 24 cs
        let (_, cs) ← field? 2 60 (← after? ':' cs)
        some cs) == some []

/-- A date, a time of day, or a date and a time with or without a difference from universal
    time. -/
def isMoment (run : List Char) : Bool :=
  time? run == some [] ||
  match date? run with
  | some [] => true
  | some (mark :: rest) => (mark == 'T' || mark == 't' || mark == ' ') &&
    (time? rest).any isZone
  | none => false

/-! ### Any scalar that is no string -/

/-- The scalar that a run of characters denotes. -/
def scalar? (run : List Char) : Option Scalar :=
  if run = ['t', 'r', 'u', 'e'] then some (.boolean true)
  else if run = ['f', 'a', 'l', 's', 'e'] then some (.boolean false)
  else match integer? run with
    | some n => some (.integer n)
    | none =>
      if isFraction run then some .fraction
      else if isMoment run then some .moment
      else none

end TreeMachine.Toml
