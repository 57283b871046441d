import TreeMachine.Text.Numeral
import TreeMachine.Text.Quoted

/-! # Flags

  The flags of the command line.  A flag starts with one or two dashes; its value follows
  after an equals sign or, unless it is a switch, as the next argument.  The flags end at the
  first argument that is none, or after two dashes that stand alone.
-/

namespace TreeMachine.Console

/-- What the flags say. -/
structure Flags where
  verbose : Bool
  /-- The program given on the command line. -/
  expression : String
  interactive : Bool
  /-- The directory of the settings file. -/
  configuration : String
  finiteness : UInt64
  save : String
  load : String
deriving DecidableEq, Repr

/-- Why the flags were refused. -/
inductive FlagError where
  /-- The help text was asked for. -/
  | help
  | badSyntax (argument : String)
  | undefined (name : String)
  | needsArgument (name : String)
  | notBoolean (name value : String)
  | badNumber (name value : String) (e : Text.NumeralError)
deriving DecidableEq, Repr

/-- The wording of a failure; asking for help is none. -/
def FlagError.message? : FlagError → Option String
  | help => none
  | badSyntax argument => some s!"bad flag syntax: {argument}"
  | undefined name => some s!"flag provided but not defined: -{name}"
  | needsArgument name => some s!"flag needs an argument: -{name}"
  | notBoolean name value =>
    some s!"invalid boolean value {Text.quote value} for -{name}: parse error"
  | badNumber name value e =>
    some (s!"invalid value {Text.quote value} for flag -{name}: " ++
      match e with
      | .malformed => "parse error"
      | .tooLarge => "value out of range")

namespace Flags

/-- No flags. -/
def none : Flags := ⟨false, "", false, "", 0, "", ""⟩

/-- How a flag takes its value. -/
inductive Kind where
  | switch (set : Bool → Flags → Flags)
  | text (set : String → Flags → Flags)
  | number (set : UInt64 → Flags → Flags)

/-- A flag. -/
structure Flag where
  name : String
  kind : Kind
  usage : String

/-- The flags in the order of their names. -/
def all : List Flag := [
  ⟨"config", .text fun s f => { f with configuration := s },
    "Directory holding arbor.toml (default: search upward from .)"⟩,
  ⟨"e", .text fun s f => { f with expression := s }, "Evaluate an expression"⟩,
  ⟨"finiteness", .number fun n f => { f with finiteness := n },
    "Finiteness budget per run (overrides config)"⟩,
  ⟨"i", .switch fun b f => { f with interactive := b }, "Start interactive REPL"⟩,
  ⟨"load", .text fun s f => { f with load := s }, "Start from a snapshot file"⟩,
  ⟨"save", .text fun s f => { f with save := s },
    "Save a snapshot to this file before exiting"⟩,
  ⟨"v", .switch fun b f => { f with verbose := b }, "Verbose output (debug logging)"⟩]

/-- The truth value of a text. -/
def boolean? (s : String) : Option Bool :=
  if ["1", "t", "T", "TRUE", "true", "True"].contains s then some true
  else if ["0", "f", "F", "FALSE", "false", "False"].contains s then some false
  else .none

/-- Splits a flag at its first equals sign, which may not come first. -/
def splitValue (body : List Char) : String × Option String :=
  match body with
  | [] => ("", .none)
  | c :: rest =>
    let name := String.ofList (c :: rest.takeWhile (· != '='))
    match rest.dropWhile (· != '=') with
    | [] => (name, .none)
    | _ :: value => (name, some (String.ofList value))

/-- Sets a flag that has a value. -/
def set (flag : Flag) (value : String) (f : Flags) : Except FlagError Flags :=
  match flag.kind with
  | .text put => return put value f
  | .switch put =>
    match boolean? value with
    | some b => return put b f
    | .none => throw (.notBoolean flag.name value)
  | .number put =>
    match Text.readNumeral value with
    | .ok n => return put n f
    | .error e => throw (.badNumber flag.name value e)

/-- A switch, which needs no value. -/
def Flag.isSwitch (flag : Flag) : Bool :=
  match flag.kind with
  | .switch _ => true
  | _ => false

/-- The part of a flag after its dashes; `none` for an argument that is no flag. -/
def body? (argument : String) : Option (List Char) :=
  match argument.toList with
  | '-' :: '-' :: rest => some rest
  | '-' :: c :: rest => some (c :: rest)
  | _ => .none

/-- Reads the flags; the answer has the arguments after them as well. -/
def parse (f : Flags) : List String → Except FlagError (Flags × List String)
  | [] => return (f, [])
  | argument :: rest =>
    if argument = "--" then return (f, rest)
    else match body? argument with
      | .none => return (f, argument :: rest)
      | some body => do
        if body.isEmpty ∨ body.head? = some '-' ∨ body.head? = some '=' then
          throw (.badSyntax argument)
        let (name, value) := splitValue body
        match all.find? (·.name == name) with
        | .none => throw (if name = "help" ∨ name = "h" then .help else .undefined name)
        | some flag =>
          match value, rest with
          | some value, rest => parse (← set flag value f) rest
          | .none, rest =>
            if flag.isSwitch then parse (← set flag "true" f) rest
            else match rest with
              | [] => throw (.needsArgument name)
              | value :: rest => parse (← set flag value f) rest

/-- The lines of the help text about one flag.  A one-letter switch has its text on the same
    line. -/
def Flag.help (flag : Flag) : String :=
  let head := "  -" ++ flag.name ++ (match flag.kind with
    | .switch _ => ""
    | .text _ => " string"
    | .number _ => " uint")
  head ++ (if head.length ≤ 4 then "\t" else "\n    \t") ++ flag.usage ++ "\n"

/-- The help text. -/
def usage : String :=
  "Usage: arbor [options] [files...]\n\n" ++
  "Evaluates bracket-notation programs from -e, files, or the REPL.\n\n" ++
  "Options:\n" ++ String.join (all.map Flag.help) ++
  "\nExamples:\n" ++
  "  arbor -e '[add 1 2]'              # prints integer: 3\n" ++
  "  arbor -finiteness 10 loop.arb     # bound backward jumps\n" ++
  "  arbor -i -save session.snap       # REPL, snapshot on exit\n" ++
  "  arbor -load session.snap -i       # resume a session\n"

end Flags

end TreeMachine.Console
