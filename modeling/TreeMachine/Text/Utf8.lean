/-! # UTF-8

  Source text is a list of bytes, which need not be well formed.  Decoding never fails:
  a byte that starts no character stands for the replacement character and has width one.
-/

namespace TreeMachine.Text

/-- What a malformed byte decodes to. -/
def replacement : Char := '\uFFFD'

/-- A byte in the range `lo` to `hi`, both included. -/
def byteIn (lo hi b : UInt8) : Bool := lo ≤ b && b ≤ hi

/-- A continuation byte. -/
def isTrail (b : UInt8) : Bool := byteIn 0x80 0xBF b

/-- The six payload bits of a continuation byte. -/
def trailBits (b : UInt8) : Nat := b.toNat % 64

/-- The range of second bytes that a three-byte character with first byte `b` allows:
    it keeps out overlong forms and surrogates. -/
def secondOfThree (b second : UInt8) : Bool :=
  if b = 0xE0 then byteIn 0xA0 0xBF second
  else if b = 0xED then byteIn 0x80 0x9F second
  else isTrail second

/-- The range of second bytes that a four-byte character with first byte `b` allows:
    it keeps out overlong forms and values past the last code point. -/
def secondOfFour (b second : UInt8) : Bool :=
  if b = 0xF0 then byteIn 0x90 0xBF second
  else if b = 0xF4 then byteIn 0x80 0x8F second
  else isTrail second

/-- The character at the start of a text whose first byte is `b`, and how many bytes it takes. -/
def decodeFirst (b : UInt8) (rest : List UInt8) : Char × Nat :=
  if b < 0x80 then (Char.ofNat b.toNat, 1)
  else if byteIn 0xC2 0xDF b then
    match rest with
    | b1 :: _ =>
      if isTrail b1 then (Char.ofNat (b.toNat % 32 * 64 + trailBits b1), 2)
      else (replacement, 1)
    | _ => (replacement, 1)
  else if byteIn 0xE0 0xEF b then
    match rest with
    | b1 :: b2 :: _ =>
      if secondOfThree b b1 && isTrail b2 then
        (Char.ofNat ((b.toNat % 16 * 64 + trailBits b1) * 64 + trailBits b2), 3)
      else (replacement, 1)
    | _ => (replacement, 1)
  else if byteIn 0xF0 0xF4 b then
    match rest with
    | b1 :: b2 :: b3 :: _ =>
      if secondOfFour b b1 && isTrail b2 && isTrail b3 then
        (Char.ofNat (((b.toNat % 8 * 64 + trailBits b1) * 64 + trailBits b2) * 64 + trailBits b3), 4)
      else (replacement, 1)
    | _ => (replacement, 1)
  else (replacement, 1)

/-- A malformed byte stands for the replacement character with width one; the character
    itself, when it is written out, has width three. -/
def isMalformed (decoded : Char × Nat) : Bool :=
  decoded.1 == replacement && decoded.2 == 1

/-- The characters of a text with their widths. -/
def decodeAll : List UInt8 → List (Char × Nat)
  | [] => []
  | b :: rest =>
    let decoded := decodeFirst b rest
    decoded :: decodeAll (rest.drop (decoded.2 - 1))
termination_by bytes => bytes.length
decreasing_by simp only [List.length_drop, List.length_cons]; omega

/-- Every byte of the text belongs to a well-formed character. -/
def isWellFormed (bytes : List UInt8) : Bool :=
  !(decodeAll bytes).any isMalformed

/-- The text as a string, with the replacement character for each malformed byte. -/
def ofBytes (bytes : List UInt8) : String :=
  String.ofList ((decodeAll bytes).map (·.1))

/-- The bytes of a string. -/
def toBytes (s : String) : List UInt8 := s.toUTF8.toList

end TreeMachine.Text
