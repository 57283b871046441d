import TreeMachine.Files.Basic
import TreeMachine.Files.Path
import TreeMachine.Settings.Basic
import TreeMachine.Toml.Document

/-! # The settings file

  A settings file has five tables.  Names match in either case if there is no exact match.
  Every key of the file has to be one that is understood.
-/

namespace TreeMachine

/-- Why there are no settings. -/
inductive SettingsError where
  /-- The settings file is missing. -/
  | missing (path : String) (e : FileError)
  /-- The settings file is there but cannot be read. -/
  | unreadable (path : String) (e : FileError)
  /-- The file is malformed, or a value has the wrong type. -/
  | malformed (path : String)
  | unknownKeys (path : String) (keys : List Toml.Key)
  /-- The file has a setting that no run can use. -/
  | invalidFile (path : String) (why : InvalidSetting)
  | notPositive (name value : String)
  | badDuration (name : String) (e : DurationError)
  /-- The environment leads to a setting that no run can use. -/
  | invalid (why : InvalidSetting)
deriving Repr

namespace Toml

/-- How a character stands in a quoted key. -/
def keyChar (c : Char) : List Char :=
  match c with
  | '"' => ['\\', '"']
  | '\\' => ['\\', '\\']
  | '\x08' => ['\\', 'b']
  | '\t' => ['\\', 't']
  | '\n' => ['\\', 'n']
  | '\x0c' => ['\\', 'f']
  | '\r' => ['\\', 'r']
  | c =>
    if c.toNat < 0x20 ∨ c.toNat = 0x7f then '\\' :: 'u' :: Text.hexDigits 4 c.toNat else [c]

/-- One part of a key; it stands in quotes if it has to. -/
def keyPartText (part : String) : String :=
  if part ≠ "" ∧ part.toList.all isBare then part
  else String.ofList ('"' :: part.toList.flatMap keyChar ++ ['"'])

/-- The text of a key. -/
def keyText (key : Key) : String := String.intercalate "." (key.map keyPartText)

end Toml

/-- The wording of a failure. -/
def SettingsError.message : SettingsError → String
  | missing path e => s!"cannot read {path}: {e.message}"
  | unreadable path e => s!"parse error in {path}: {e.message}"
  | malformed path => s!"parse error in {path}"
  | unknownKeys path keys =>
    s!"unknown keys in {path}: " ++ String.intercalate ", " (keys.map Toml.keyText)
  | invalidFile path why => s!"{path}: {why.message}"
  | notPositive name value => s!"{name}: want a positive integer, got {Text.quote value}"
  | badDuration name e => s!"{name}: {e.message}"
  | invalid why => why.message

namespace Settings

/-! ### The keys of a settings file -/

/-- How a value changes the settings; a value of the wrong type has no answer. -/
abbrev Setter := Toml.Value → Settings → Option Settings

/-- A setting that is a whole number. -/
def onInteger (f : Int → Settings → Settings) : Setter
  | .plain (.scalar (.integer n)), s => some (f n s)
  | _, _ => none

/-- A setting that is a truth value. -/
def onBoolean (f : Bool → Settings → Settings) : Setter
  | .plain (.scalar (.boolean b)), s => some (f b s)
  | _, _ => none

/-- A setting that is a duration.  A whole number is taken as the text of its digits. -/
def onDuration (f : Duration → Settings → Settings) : Setter
  | .plain (.scalar (.text d)), s => (Duration.parse d).toOption.map (f · s)
  | .plain (.scalar (.integer n)), s => (Duration.parse (toString n)).toOption.map (f · s)
  | _, _ => none

/-- The word of a whole number; a negative one wraps around. -/
def wordOf (n : Int) : UInt64 := UInt64.ofNat (n % UInt64.size).toNat

/-- The tables of a settings file and their keys. -/
def tables : List (String × List (String × Setter)) := [
  ("arena", [("words", onInteger fun n s => { s with arenaWords := wordOf n })]),
  ("functions", [("capacity", onInteger fun n s => { s with functions := n })]),
  ("run", [("finiteness", onInteger fun n s => { s with finiteness := wordOf n })]),
  ("debug", [
    ("verbose", onBoolean fun b s => { s with verbose := b }),
    ("trace", onBoolean fun b s => { s with trace := b })]),
  ("gc", [("interval", onDuration fun d s => { s with interval := d })])]

/-- The letter that stands for all letters of the same name.  The long s counts as an s, and
    the sign of the kelvin as a k. -/
def foldCase (c : Char) : Char :=
  if 'A' ≤ c ∧ c ≤ 'Z' then c.toLower
  else if c = '\u017F' then 's'
  else if c = '\u212A' then 'k'
  else c

/-- What belongs to a name, in either case. -/
def find? {α : Type} (name : String) (known : List (String × α)) : Option α :=
  known.lookup name <|>
    (known.find? fun p => p.1.toList == name.toList.map foldCase).map (·.2)

/-- The settings so far, and the keys that were understood. -/
abbrev Progress := Settings × List Toml.Key

/-- Takes over one entry of a table; one that is not understood is left alone. -/
def takeEntry (table : String) (setters : List (String × Setter)) (p : Progress)
    (entry : String × Toml.Value) : Option Progress :=
  match find? entry.1 setters with
  | none => some p
  | some setter => (setter entry.2 p.1).map fun s => (s, [table, entry.1] :: p.2)

/-- Takes over one table; one that is not understood is left alone. -/
def takeTable (p : Progress) (entry : String × Toml.Value) : Option Progress :=
  match find? entry.1 tables, entry.2 with
  | none, _ => some p
  | some setters, .table entries =>
    entries.foldlM (takeEntry entry.1 setters) (p.1, [entry.1] :: p.2)
  | some _, _ => none

/-- The settings that a file gives, and the keys of the file that are not understood. -/
def ofDocument (d : Toml.Document) : Option (Settings × List Toml.Key) := do
  let (s, known) ← d.root.foldlM takeTable (default, [])
  some (s, d.order.filter (!known.contains ·))

/-! ### Loading -/

/-- The name of a settings file. -/
def fileName : String := "arbor.toml"

/-- The settings that the contents of a settings file give. -/
def ofBytes (path directory : String) (bytes : ByteArray) : Except SettingsError Settings := do
  let some (s, unknown) := (Toml.Document.parse? bytes.toList).bind ofDocument
    | throw (.malformed path)
  unless unknown.isEmpty do throw (.unknownKeys path unknown)
  match s.invalid? with
  | some why => throw (.invalidFile path why)
  | none => return { s with directory }

/-- Loads the settings file of a directory. -/
def load {m : Type → Type} [Monad m] [MonadFiles m] (directory : String) :
    m (Except SettingsError Settings) := do
  let path := Path.join directory fileName
  match ← readFile path with
  | .error (.opening p .missing) => return .error (.missing path (.opening p .missing))
  | .error e => return .error (.unreadable path e)
  | .ok bytes =>
    return ofBytes path (Path.absolute (← workingDirectory) directory) bytes

/-- The path and all paths above it, at most `count` of them. -/
def ancestors : Nat → String → List String
  | 0, _ => []
  | count + 1, p => if Path.parent p = p then [p] else p :: ancestors count (Path.parent p)

/-- The first of some directories that has a settings file. -/
def search {m : Type → Type} [Monad m] [MonadFiles m] : List String → m (Option String)
  | [] => return none
  | directory :: rest => do
    if ← pathExists (Path.join directory fileName) then return some directory
    else search rest

/-- Loads the settings file of a directory or of the nearest one above it that has one. -/
def findAndLoad {m : Type → Type} [Monad m] [MonadFiles m] (directory : String) :
    m (Except SettingsError (Option Settings)) := do
  let start := Path.absolute (← workingDirectory) directory
  match ← search (ancestors (start.length + 1) start) with
  | none => return .ok none
  | some found => return (← load found).map some

end Settings

end TreeMachine
