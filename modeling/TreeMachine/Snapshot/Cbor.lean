/-! # Concise binary objects

  Data items in CBOR: writing of the few forms that a snapshot needs, and reading of all
  forms.  Reading bounds the nesting of arrays, maps and tags and the number of their
  elements.
-/

namespace TreeMachine.Cbor

/-- A data item. -/
inductive Item where
  | unsigned (n : UInt64)
  /-- The number `-1 - n`. -/
  | negative (n : UInt64)
  | bytes (bs : List UInt8)
  /-- A text, in the parts in which it is written. -/
  | text (parts : List (List UInt8))
  | array (items : List Item)
  | map (pairs : List (Item × Item))
  | tagged (tag : UInt64) (item : Item)
  /-- A simple value, among them the truth values, null and undefined. -/
  | simple (n : Nat)
  /-- A floating-point number, whose value nothing here needs. -/
  | float
deriving Repr, Inhabited

/-- The simple value null. -/
def Item.null : Item := .simple 22

/-- Whether an item is null or undefined. -/
def Item.isNull : Item → Bool
  | .simple n => n == 22 || n == 23
  | _ => false

/-- Why bytes are no data item. -/
inductive Error where
  /-- There are no bytes. -/
  | empty
  /-- The bytes end inside the item. -/
  | truncated
  /-- The bytes break a rule of the format, or a bound. -/
  | malformed
deriving DecidableEq, Repr

/-! ### Writing -/

/-- The lowest `count` bytes of a number, the highest of them first. -/
def bigEndian : Nat → Nat → List UInt8
  | 0, _ => []
  | count + 1, n => bigEndian count (n / 256) ++ [UInt8.ofNat (n % 256)]

/-- The head of an item: its major type and an argument in the shortest form. -/
def head (major : Nat) (n : Nat) : List UInt8 :=
  let first (info : Nat) : UInt8 := UInt8.ofNat (major * 32 + info)
  if n < 24 then [first n]
  else if n < UInt8.size then first 24 :: bigEndian 1 n
  else if n < UInt16.size then first 25 :: bigEndian 2 n
  else if n < UInt32.size then first 26 :: bigEndian 4 n
  else first 27 :: bigEndian 8 n

mutual

/-- The bytes of an item, with every number in its shortest form and every length given,
    except that of a text in several parts. -/
def Item.encode : Item → List UInt8
  | .unsigned n => head 0 n.toNat
  | .negative n => head 1 n.toNat
  | .bytes bs => head 2 bs.length ++ bs
  | .text [part] => head 3 part.length ++ part
  | .text parts => 0x7f :: parts.flatMap (fun part => head 3 part.length ++ part) ++ [0xff]
  | .array items => head 4 items.length ++ encodeAll items
  | .map pairs => head 5 pairs.length ++ encodePairs pairs
  | .tagged tag item => head 6 tag.toNat ++ item.encode
  | .simple n => head 7 n
  | .float => [0xf9, 0, 0]

/-- The bytes of items, one after the other. -/
def encodeAll : List Item → List UInt8
  | [] => []
  | item :: rest => item.encode ++ encodeAll rest

/-- The bytes of keys and values, one after the other. -/
def encodePairs : List (Item × Item) → List UInt8
  | [] => []
  | (key, value) :: rest => key.encode ++ (value.encode ++ encodePairs rest)

end

/-! ### Reading -/

/-- The deepest nesting of arrays, maps and tags in tags. -/
def maxDepth : Nat := 32

/-- The largest number of elements of an array, and of pairs of a map. -/
def maxCount : Nat := 131072

/-- Reading consumes bytes from the front. -/
abbrev Parser := StateT (List UInt8) (Except Error)

/-- The first `n` bytes; a length that no memory could hold is malformed. -/
def readBytes (n : Nat) : Parser (List UInt8) := do
  if UInt64.size / 2 ≤ n then throw .malformed
  let bs ← get
  let taken := bs.take n
  if taken.length < n then throw .truncated
  set (bs.drop n)
  return taken

/-- The number that the first `count` bytes give, the highest of them first. -/
def readNumber (count : Nat) : Parser Nat := do
  return (← readBytes count).foldl (fun n b => n * 256 + b.toNat) 0

/-- The first byte of an item splits into the major type and the additional information. -/
structure Head where
  major : Nat
  info : Nat
  /-- The argument; for an indefinite length it means nothing. -/
  arg : Nat
deriving Repr

/-- Whether the length of the item is open and ends with a break. -/
def Head.isIndefinite (h : Head) : Bool := h.info == 31

/-- Reads the head of an item.  Some values of the additional information are reserved, an
    indefinite length only goes with some major types, and small simple values have one
    byte only. -/
def readHead : Parser Head := do
  match ← get with
  | [] => throw .truncated
  | b :: rest =>
    set rest
    let major := b.toNat / 32
    let info := b.toNat % 32
    if info < 24 then return ⟨major, info, info⟩
    if info < 28 then
      let n ← readNumber (Nat.pow 2 (info - 24))
      if info = 24 ∧ major = 7 ∧ n < 32 then throw .malformed
      return ⟨major, info, n⟩
    if info = 31 ∧ 2 ≤ major ∧ major ≤ 5 then return ⟨major, info, 0⟩
    throw .malformed

/-- The next byte, which must be there; it is not consumed. -/
def peekByte : Parser UInt8 := do
  match ← get with
  | [] => throw .truncated
  | b :: _ => return b

/-- Consumes the byte that ends an indefinite length, if it is the next one. -/
def takeBreak : Parser Bool := do
  if (← peekByte) = 0xff then
    modify (·.drop 1)
    return true
  else return false

/-- The chunks of a string of indefinite length: each is a string of the same major type
    and of definite length. -/
def readChunks (major : Nat) : Nat → Parser (List (List UInt8))
  | 0 => throw .truncated
  | fuel + 1 => do
    if ← takeBreak then return []
    let b ← peekByte
    if b.toNat / 32 ≠ major ∨ b.toNat % 32 = 31 then throw .malformed
    let h ← readHead
    let chunk ← readBytes h.arg
    return chunk :: (← readChunks major fuel)

/-- The chunks of a string; one of definite length is a single chunk. -/
def readString (h : Head) : Parser (List (List UInt8)) := do
  if h.isIndefinite then readChunks h.major ((← get).length + 1)
  else return [← readBytes h.arg]

/-- The pairs of a list with an even number of items. -/
def pairUp : List Item → Option (List (Item × Item))
  | [] => some []
  | key :: value :: rest => (pairUp rest).map ((key, value) :: ·)
  | [_] => none

/-- Reads a given number of items. -/
def readItems (item : Parser Item) : Nat → Parser (List Item)
  | 0 => return []
  | count + 1 => do
    let first ← item
    return first :: (← readItems item count)

/-- Reads items up to a break; more than `most` of them are too many. -/
def readUntilBreak (item : Parser Item) : Nat → Parser (List Item)
  | 0 => do
    if ← takeBreak then return []
    let _ ← item
    throw .malformed
  | most + 1 => do
    if ← takeBreak then return []
    let first ← item
    return first :: (← readUntilBreak item most)

/-- The elements of an array or map, `perCount` items for each that its head counts. -/
def readElements (item : Parser Item) (h : Head) (perCount : Nat) : Parser (List Item) :=
  if h.isIndefinite then readUntilBreak item (maxCount * perCount + (perCount - 1))
  else if maxCount < h.arg then throw .malformed
  else readItems item (h.arg * perCount)

/-- Reads an item.  Each array, map or tag around an item uses up one unit of `fuel`, and
    `depth` counts those that the bound on nesting counts: a single tag does not. -/
def readItem : Nat → Nat → Parser Item
  | 0, _ => throw .malformed
  | fuel + 1, depth => do
    let h ← readHead
    match h.major with
    | 0 => return .unsigned (UInt64.ofNat h.arg)
    | 1 => return .negative (UInt64.ofNat h.arg)
    | 2 => return .bytes (← readString h).flatten
    | 3 => return .text (← readString h)
    | 4 =>
      if maxDepth ≤ depth then throw .malformed
      return .array (← readElements (readItem fuel (depth + 1)) h 1)
    | 5 =>
      if maxDepth ≤ depth then throw .malformed
      match pairUp (← readElements (readItem fuel (depth + 1)) h 2) with
      | some pairs => return .map pairs
      | none => throw .malformed
    | 6 =>
      if maxDepth < depth then throw .malformed
      let nested := (← peekByte).toNat / 32 = 6
      return .tagged (UInt64.ofNat h.arg) (← readItem fuel (if nested then depth + 1 else depth))
    | _ => return if 25 ≤ h.info then .float else .simple h.arg

/-- The one data item that the bytes are.  Every second level of nesting counts against the
    bound, so that the fuel is never used up. -/
def decode (bs : List UInt8) : Except Error Item := do
  if bs.isEmpty then throw .empty
  let (item, rest) ← (readItem (2 * maxDepth + 4) 0).run bs
  if rest.isEmpty then return item else throw .malformed

end TreeMachine.Cbor
