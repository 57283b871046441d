import TreeMachine.Text.Quoted

/-! # The header of a snapshot

  Forty bytes: the magic word, the version, flags and the number of function slots with four
  bytes each, then the number of arena words, the length of the trailer and the budget with
  eight bytes each.  All numbers have their lowest byte first.
-/

namespace TreeMachine.Snapshot

/-- The four bytes that a snapshot starts with. -/
def magic : List UInt8 := [0x41, 0x52, 0x42, 0x52]

/-- The version of the format. -/
def version : UInt32 := 1

/-- The size of the header. -/
def headerSize : Nat := 40

/-- No longer trailer is read. -/
def maxTrailer : UInt64 := 1073741824

/-- The header of a snapshot. -/
structure Header where
  version : UInt32
  flags : UInt32
  functionSlots : UInt32
  arenaWords : UInt64
  trailerLength : UInt64
  finiteness : UInt64
deriving DecidableEq, Repr, Inhabited

/-- Why bytes do not start with a header. -/
inductive HeaderError where
  /-- There are fewer bytes than a header has: none at all, or some. -/
  | truncated (atStart : Bool)
  | invalidMagic (found : List UInt8)
  | versionMismatch (found : UInt32)
  /-- A size is zero or too large. -/
  | fields (h : Header)
deriving DecidableEq, Repr

/-- How the end of the bytes is reported: at the very start of a part, or within it. -/
def endText (atStart : Bool) : String := if atStart then "EOF" else "unexpected EOF"

/-- The wording of a failure. -/
def HeaderError.message : HeaderError → String
  | truncated atStart => "vm: corrupt snapshot: header: " ++ endText atStart
  | invalidMagic found =>
    "vm: invalid snapshot magic: expected ARBR: got " ++ Text.quoteBytes found
  | versionMismatch found => s!"vm: snapshot version mismatch: expected {version}, got {found}"
  | fields h =>
    s!"vm: corrupt snapshot: header fields \x7bVersion:{h.version} Flags:{h.flags} " ++
    s!"FunctionSlots:{h.functionSlots} ArenaWords:{h.arenaWords} " ++
    s!"TrailerLength:{h.trailerLength} Finiteness:{h.finiteness}\x7d"

/-- Adds the lowest `count` bytes of a number, the lowest of them first. -/
def pushNumber (out : ByteArray) : Nat → Nat → ByteArray
  | 0, _ => out
  | count + 1, n => pushNumber (out.push (UInt8.ofNat (n % 256))) count (n / 256)

/-- The number that `count` bytes from an index on give, the lowest of them first. -/
def numberAt (bytes : ByteArray) (i : Nat) : Nat → Nat
  | 0 => 0
  | count + 1 => (bytes[i]?.getD 0).toNat + 256 * numberAt bytes (i + 1) count

/-- The bytes of a header. -/
def Header.encode (h : Header) : ByteArray :=
  let out := magic.foldl ByteArray.push .empty
  let out := pushNumber out 4 h.version.toNat
  let out := pushNumber out 4 h.flags.toNat
  let out := pushNumber out 4 h.functionSlots.toNat
  let out := pushNumber out 8 h.arenaWords.toNat
  let out := pushNumber out 8 h.trailerLength.toNat
  pushNumber out 8 h.finiteness.toNat

/-- Reads and checks the header. -/
def readHeader (bytes : ByteArray) : Except HeaderError Header := do
  if bytes.size < headerSize then throw (.truncated (bytes.size == 0))
  let found := (bytes.extract 0 4).toList
  if found ≠ magic then throw (.invalidMagic found)
  let h : Header := {
    version := UInt32.ofNat (numberAt bytes 4 4)
    flags := UInt32.ofNat (numberAt bytes 8 4)
    functionSlots := UInt32.ofNat (numberAt bytes 12 4)
    arenaWords := UInt64.ofNat (numberAt bytes 16 8)
    trailerLength := UInt64.ofNat (numberAt bytes 24 8)
    finiteness := UInt64.ofNat (numberAt bytes 32 8) }
  if h.version ≠ version then throw (.versionMismatch h.version)
  if h.arenaWords = 0 ∨ h.functionSlots = 0 ∨ maxTrailer < h.trailerLength then throw (.fields h)
  return h

end TreeMachine.Snapshot
