import TreeMachine.Image
import TreeMachine.Snapshot.Cbor
import TreeMachine.Text.Utf8

/-! # The trailer of a snapshot

  The trailer holds what the words of the arena cannot say on their own: which records are
  types, which values are roots, and which nodes had compiled functions under which numbers.
  It is a map with the keys one to three; the maps of roots and of functions have the keys
  one and two.
-/

namespace TreeMachine.Snapshot

/-- A function of a snapshot: its number and its node. -/
structure SavedFunction where
  id : UInt64
  ast : Node
deriving DecidableEq, Repr, Inhabited

/-- What a snapshot holds besides the words of the arena. -/
structure Trailer where
  types : List Ty
  roots : List Root
  functions : List SavedFunction
deriving DecidableEq, Repr, Inhabited

open Cbor (Item)

/-! ### Writing -/

/-- A list of numbers. -/
def numbers (ws : List UInt64) : Item := .array (ws.map .unsigned)

/-- A map whose keys are the numbers from one on. -/
def record (fields : List Item) : Item :=
  .map (fields.zipIdx.map fun (item, i) => (.unsigned (UInt64.ofNat (i + 1)), item))

/-- A list, or null where there is nothing to list. -/
def listOrNull (items : List Item) : Item := if items.isEmpty then .null else .array items

/-- The data item of a trailer. -/
def Trailer.toItem (t : Trailer) : Item :=
  record [
    listOrNull (t.types.map .unsigned),
    listOrNull (t.roots.map fun r => record [.unsigned r.type, r.words.elim .null numbers]),
    listOrNull (t.functions.map fun f => record [.unsigned f.id, .unsigned f.ast])]

/-- The bytes of a trailer. -/
def Trailer.encode (t : Trailer) : List UInt8 := t.toItem.encode

/-! ### Reading -/

/-- The tag that marks a data item as one, and means nothing else. -/
def selfDescribed : UInt64 := 55799

/-- Whether an item may stand under one of the tags whose contents are known: date texts,
    date numbers and big numbers. -/
def fitsTag (tag : UInt64) (item : Item) : Bool :=
  if tag = 0 then match item with | .text _ => true | _ => false
  else if tag = 1 then match item with | .unsigned _ | .negative _ | .float => true | _ => false
  else if tag = 2 ∨ tag = 3 then match item with | .bytes _ => true | _ => false
  else true

/-- The item under tags that mean nothing here; `none` if a tag does not go with what it
    marks.  Big numbers keep their tag. -/
def untag : Item → Option Item
  | .tagged tag item =>
    if tag = selfDescribed then untag item
    else if !fitsTag tag item then none
    else if tag = 2 ∨ tag = 3 then some (.tagged tag item)
    else untag item
  | item => some item

/-- The number that bytes give, the highest of them first. -/
def bigNumber (bs : List UInt8) : Nat := bs.foldl (fun n b => n * 256 + b.toNat) 0

/-- Reads a word.  Null is zero, and a simple value or a big number that fits counts as a
    number. -/
def wordOf (item : Item) : Option UInt64 := do
  match ← untag item with
  | .unsigned n => return n
  | .simple n =>
    if n = 22 ∨ n = 23 then return 0
    else if n = 20 ∨ n = 21 then none
    else return UInt64.ofNat n
  | .tagged 2 (.bytes bs) =>
    if bigNumber bs < UInt64.size then return UInt64.ofNat (bigNumber bs) else none
  | _ => none

/-- Reads a list; null is no list. -/
def listOrNone {α : Type} (read : Item → Option α) (item : Item) :
    Option (Option (List α)) := do
  match ← untag item with
  | .array items => return some (← items.mapM read)
  | item => if item.isNull then return none else none

/-- Reads a list; null is the empty list. -/
def listOf {α : Type} (read : Item → Option α) (item : Item) : Option (List α) :=
  (listOrNone read item).map (·.getD [])

/-- The number that a key stands for, up to `count`: numbers, and texts that spell one.
    Other numbers and texts are passed over, and other keys are refused, among them texts of
    which a part is not well-formed on its own. -/
def keyOf (count : Nat) : Item → Option (Option Nat)
  | .unsigned n => some (if 1 ≤ n.toNat ∧ n.toNat ≤ count then some n.toNat else none)
  | .negative n => if n.toNat < UInt64.size / 2 then some none else none
  | .text parts =>
    if parts.all Text.isWellFormed then
      some ((List.range count).map (· + 1) |>.find? fun k =>
        Text.toBytes (toString k) = parts.flatten)
    else none
  | _ => none

/-- The values of the keys one to `count` of a record, null where there is none.  Of several
    values of one key the first counts. -/
def fieldsOf (count : Nat) (item : Item) : Option (Nat → Item) := do
  match ← untag item with
  | .map pairs =>
    let keys ← pairs.mapM fun (key, _) => keyOf count key
    let known := keys.zip (pairs.map (·.2))
    return fun k => ((known.find? (·.1 == some k)).map (·.2)).getD .null
  | item => if item.isNull then return fun _ => .null else none

/-- Reads a root. -/
def rootOf (item : Item) : Option Root := do
  let field ← fieldsOf 2 item
  return ⟨← wordOf (field 1), ← listOrNone wordOf (field 2)⟩

/-- Reads a function. -/
def functionOf (item : Item) : Option SavedFunction := do
  let field ← fieldsOf 2 item
  return ⟨← wordOf (field 1), ← wordOf (field 2)⟩

/-- Reads a trailer. -/
def Trailer.ofItem (item : Item) : Option Trailer := do
  let field ← fieldsOf 3 item
  return ⟨← listOf wordOf (field 1), ← listOf rootOf (field 2), ← listOf functionOf (field 3)⟩

/-- The trailer that bytes give. -/
def Trailer.decode (bs : List UInt8) : Except Cbor.Error Trailer := do
  match ofItem (← Cbor.decode bs) with
  | some t => return t
  | none => throw .malformed

end TreeMachine.Snapshot
