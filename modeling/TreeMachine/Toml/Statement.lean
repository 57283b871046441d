import TreeMachine.Text.Utf8
import TreeMachine.Toml.Quoted
import TreeMachine.Toml.Scalar

/-! # Statements of a settings file

  A settings file is a sequence of lines: headers of tables, headers of elements of a list of
  tables, and settings of a key to a value.  Reading does not look at what the keys mean.
-/

namespace TreeMachine.Toml

/-- A dotted key. -/
abbrev Key := List String

/-- A value as it is written. -/
inductive Expr where
  | scalar (s : Scalar)
  | list (items : List Expr)
  /-- A table in braces. -/
  | table (entries : List (Key × Expr))
deriving Repr

/-- One line of a settings file. -/
inductive Statement where
  | table (key : Key)
  | element (key : Key)
  | setting (key : Key) (value : Expr)
deriving Repr

/-! ### Characters -/

/-- A character that a settings file may not have. -/
def isForbidden (c : Char) : Bool :=
  (c.toNat < 0x20 && c != '\t' && c != '\n') || c.toNat == 0x7f

/-- Makes every line end a single character.  A carriage return that does not belong to a
    line end stays, and is forbidden. -/
def unifyLineEnds : List Char → List Char
  | '\r' :: '\n' :: rest => '\n' :: unifyLineEnds rest
  | c :: rest => c :: unifyLineEnds rest
  | [] => []

/-- The characters of a settings file.  A byte-order mark in front is left out. -/
def characters? (bytes : List UInt8) : Option (List Char) :=
  if !Text.isWellFormed bytes then none
  else
    let cs := unifyLineEnds ((Text.decodeAll bytes).map (·.1))
    let cs := if cs.head? = some '\uFEFF' then cs.drop 1 else cs
    if cs.any isForbidden then none else some cs

/-- A blank within a line. -/
def isSpace (c : Char) : Bool := c == ' ' || c == '\t'

/-- Leaves out blanks. -/
def skipSpaces (cs : List Char) : List Char := cs.dropWhile isSpace

/-- Leaves out blanks, line ends and comments; `inComment` says where the text begins. -/
def skipLayout (inComment : Bool) : List Char → List Char
  | [] => []
  | c :: rest =>
    if c = '\n' then skipLayout false rest
    else if inComment then skipLayout true rest
    else if c = '#' then skipLayout true rest
    else if isSpace c then skipLayout false rest
    else c :: rest

/-- Leaves out the rest of a line, on which there may be only a comment. -/
def endLine? (cs : List Char) : Option (List Char) :=
  match skipSpaces cs with
  | [] => some []
  | '\n' :: rest => some rest
  | '#' :: rest => some ((rest.dropWhile (· != '\n')).drop 1)
  | _ => none

/-! ### Keys -/

/-- A character of a key that stands without quotes. -/
def isBare (c : Char) : Bool :=
  ('A' ≤ c && c ≤ 'Z') || ('a' ≤ c && c ≤ 'z') || ('0' ≤ c && c ≤ '9') || c == '_' || c == '-'

/-- One part of a key. -/
def keyPart? (cs : List Char) : Option (String × List Char) :=
  let bare := cs.takeWhile isBare
  if bare.isEmpty then (name? cs).map fun (s, rest) => (String.ofList s, rest)
  else some (String.ofList bare, cs.dropWhile isBare)

/-- A key, and what follows it and the blanks after it.  A key has fewer parts than `fuel`,
    the length of the text. -/
def key? : Nat → List Char → Option (Key × List Char)
  | 0, _ => none
  | fuel + 1, cs => do
    let (part, rest) ← keyPart? (skipSpaces cs)
    match skipSpaces rest with
    | '.' :: rest =>
      let (parts, rest) ← key? fuel rest
      some (part :: parts, rest)
    | rest => some ([part], rest)

/-! ### Values -/

/-- A character of a scalar that is no string. -/
def isScalarChar (c : Char) : Bool :=
  isBare c || c == '+' || c == '.' || c == ':'

/-- A scalar that is no string.  A date may be followed by one space and a time. -/
def plainScalar? (cs : List Char) : Option (Scalar × List Char) := do
  let run := cs.takeWhile isScalarChar
  let rest := cs.dropWhile isScalarChar
  let (run, rest) := match rest with
    | ' ' :: c :: more =>
      if date? run = some [] ∧ c.isDigit then
        (run ++ ' ' :: (c :: more).takeWhile isScalarChar, (c :: more).dropWhile isScalarChar)
      else (run, rest)
    | _ => (run, rest)
  some (← scalar? run, rest)

mutual

/-- A value, and what follows it.  Each step of reading takes a character, so `fuel`, the
    length of the text, covers the steps. -/
def expr? : Nat → List Char → Option (Expr × List Char)
  | 0, _ => none
  | fuel + 1, cs =>
    match skipSpaces cs with
    | '[' :: rest => do
      let (items, rest) ← items? fuel (skipLayout false rest)
      some (.list items, rest)
    | '\x7b' :: rest => do
      let (entries, rest) ← entries? fuel (skipLayout false rest)
      some (.table entries, rest)
    | c :: rest =>
      if c = '"' ∨ c = '\'' then do
        let (s, rest) ← string? (c :: rest)
        some (.scalar (.text (String.ofList s)), rest)
      else do
        let (s, rest) ← plainScalar? (c :: rest)
        some (.scalar s, rest)
    | [] => none

/-- The items of a list up to its end.  A comma may follow the last. -/
def items? : Nat → List Char → Option (List Expr × List Char)
  | 0, _ => none
  | _ + 1, ']' :: rest => some ([], rest)
  | fuel + 1, cs => do
    let (item, rest) ← expr? fuel cs
    match skipLayout false rest with
    | ',' :: rest =>
      let (items, rest) ← items? fuel (skipLayout false rest)
      some (item :: items, rest)
    | ']' :: rest => some ([item], rest)
    | _ => none

/-- The entries of a table in braces up to its end.  A comma may follow the last. -/
def entries? : Nat → List Char → Option (List (Key × Expr) × List Char)
  | 0, _ => none
  | _ + 1, '\x7d' :: rest => some ([], rest)
  | fuel + 1, cs => do
    let (key, rest) ← key? fuel cs
    let (value, rest) ← expr? fuel (← after? '=' rest)
    match skipLayout false rest with
    | ',' :: rest =>
      let (entries, rest) ← entries? fuel (skipLayout false rest)
      some ((key, value) :: entries, rest)
    | '\x7d' :: rest => some ([(key, value)], rest)
    | _ => none

end

/-! ### Lines -/

/-- One statement, and what follows its line. -/
def statement? (cs : List Char) : Option (Statement × List Char) := do
  let fuel := cs.length + 1
  match cs with
  | '[' :: '[' :: rest =>
    let (key, rest) ← key? fuel rest
    let rest ← after? ']' (← after? ']' rest)
    some (.element key, ← endLine? rest)
  | '[' :: rest =>
    let (key, rest) ← key? fuel rest
    some (.table key, ← endLine? (← after? ']' rest))
  | _ =>
    let (key, rest) ← key? fuel cs
    let (value, rest) ← expr? fuel (← after? '=' rest)
    some (.setting key value, ← endLine? rest)

/-- All statements of a text; there are fewer of them than `fuel`, its length. -/
def statements? : Nat → List Char → Option (List Statement)
  | 0, _ => none
  | fuel + 1, cs =>
    match skipLayout false cs with
    | [] => some []
    | cs => do
      let (s, rest) ← statement? cs
      some (s :: (← statements? fuel rest))

/-- Reads a settings file. -/
def read? (bytes : List UInt8) : Option (List Statement) := do
  let cs ← characters? bytes
  statements? (cs.length + 1) cs

end TreeMachine.Toml
