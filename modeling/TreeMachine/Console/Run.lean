import TreeMachine.Console.Flags
import TreeMachine.Console.Repl
import TreeMachine.Settings.Environment

/-! # The command line

  A run finds the settings, makes an engine, evaluates the program of the command line and
  those of the files, and becomes interactive if there are none.  The exit code is two for a
  bad command line, and one if the run could not start or something failed.
-/

namespace TreeMachine.Console

section

variable {m : Type → Type} [Monad m] [MonadFiles m] [MonadTerminal m]

/-- The settings of a run: those of the given directory, or of the nearest settings file, or
    the defaults, changed by the environment. -/
def findSettings (directory : String) : m (Except SettingsError Settings) := do
  let found ← if directory = "" then Settings.findAndLoad "."
    else pure ((← Settings.load directory).map some)
  match found with
  | .error e => return .error e
  | .ok s => (s.getD .default).applyEnvironment

/-- An engine from a snapshot file, or why there is none. -/
def loadFrom (path : String) (o : EngineOptions) : ExceptT Fault m (Except String Engine) := do
  match ← readFile path with
  | .error (.opening p why) =>
    return .error ("failed to open snapshot: " ++ (FileError.opening p why).message)
  | .error (.reading p why) =>
    return .error (s!"load snapshot {path}: vm: corrupt snapshot: header: " ++
      (FileError.reading p why).message)
  | .ok bytes =>
    match Engine.load bytes o with
    | .error (.fault f) => throw f
    | .error (.error e) => return .error s!"load snapshot {path}: {e.message}"
    | .ok e => return .ok e

/-- The engine of a run.  A snapshot brings its own budget, unless a flag gives one. -/
def startEngine (flags : Flags) (s : Settings) (seed : UInt64) :
    ExceptT Fault m (Except String Engine) := do
  let o := s.options seed
  if flags.load ≠ "" then
    loadFrom flags.load (if flags.finiteness = 0 then { o with finiteness := 0 } else o)
  else
    match Engine.create o with
    | .ok e => return .ok e
    | .error f => throw f

/-- Evaluates the programs in files; the answer tells whether all have a value. -/
def evaluateFiles : List String → ConsoleM m Bool
  | [] => return true
  | path :: rest => do
    let good ← match ← readFile path with
      | .ok bytes => evaluate bytes.toList
      | .error e => do
        report e.message
        pure false
    return (← evaluateFiles rest) && good

/-- What a run does once it has an engine; the answer is the exit code. -/
def session (flags : Flags) (files : List String) (interactive : ConsoleM m Unit) :
    ConsoleM m UInt32 := do
  if flags.verbose then
    let s := (← get).stats
    printLine (s!"Arena: {s.arenaWords} words, {s.types} types, {s.functions} functions, " ++
      s!"{s.roots} roots")
  let good ← if flags.expression = "" then pure true
    else evaluate (Text.toBytes flags.expression)
  let allGood ← evaluateFiles files
  if flags.interactive ∨ (flags.expression = "" ∧ files.isEmpty) then interactive
  if flags.save ≠ "" then
    match ← saveTo flags.save with
    | .error e =>
      report e.message
      return 1
    | .ok _ => if flags.verbose then printLine s!"Saved snapshot to {flags.save}"
  return if good && allGood then 0 else 1

/-- A run of the command line; `interactive` is what an interactive console does.  The answer
    is the exit code. -/
def run (args : List String) (seed : UInt64) (interactive : ConsoleM m Unit) :
    ExceptT Fault m UInt32 := do
  match Flags.none.parse args with
  | .error e =>
    if let some text := e.message? then complain (text ++ "\n")
    complain Flags.usage
    return 2
  | .ok (flags, files) =>
    match ← (findSettings flags.configuration : m _) with
    | .error e =>
      complain s!"Error: {e.message}\n"
      return 1
    | .ok s =>
      let s := if 0 < flags.finiteness then { s with finiteness := flags.finiteness } else s
      match ← startEngine flags s seed with
      | .error text =>
        complain s!"Error: {text}\n"
        return 1
      | .ok e => return (← (session flags files interactive).run e).1

end

end TreeMachine.Console
