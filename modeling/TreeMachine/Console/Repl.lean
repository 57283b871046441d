import TreeMachine.Console.Lines
import TreeMachine.Files.Basic
import TreeMachine.Settings.Duration
import TreeMachine.Snapshot.Restore

/-! # The interactive console

  The console evaluates a program as soon as all its brackets are closed.  A line that starts
  with a colon is a command, unless a program is being entered.
-/

namespace TreeMachine.Console

/-- Operations of a console on an engine; a fault ends the run. -/
abbrev ConsoleM (m : Type → Type) := StateT Engine (ExceptT Fault m)

section

variable {m : Type → Type} [Monad m] [MonadFiles m] [MonadTerminal m]

/-- Runs an operation of the engine. -/
def perform {ε α : Type} (x : EStateM (Stop ε) Engine α) : ConsoleM m (Except ε α) :=
  fun e => match x e with
    | .ok a e => return (.ok a, e)
    | .error (.error err) e => return (.error err, e)
    | .error (.fault f) _ => throw f

/-- Runs an operation of the engine that may only fault. -/
def performSafe {α : Type} (x : EStateM Fault Engine α) : ConsoleM m α :=
  fun e => match x e with
    | .ok a e => return (a, e)
    | .error f _ => throw f

/-- Reports an error. -/
def report (text : String) : ConsoleM m Unit := complain s!"Error: {text}\n"

/-- Prints a line. -/
def printLine (text : String) : ConsoleM m Unit := print (text ++ "\n")

/-- Evaluates a program and prints its value; the answer tells whether it has one. -/
def evaluate (program : List UInt8) : ConsoleM m Bool := do
  match ← perform (Engine.evalText program) with
  | .error e =>
    report e.message
    return false
  | .ok d =>
    printLine (← performSafe (inspect (·.format d)))
    return true

/-- Saves a snapshot to a file. -/
def saveTo (path : String) : ConsoleM m (Except FileError Unit) := do
  writeFile path (← get).save

/-! ### Commands -/

/-- What the commands do. -/
def helpText : String :=
  "  :gc           run a collection\n" ++
  "  :stats        show arena and pool usage\n" ++
  "  :print EXPR   read EXPR and print it back\n" ++
  "  :save FILE    write a snapshot\n" ++
  "  exit          leave the REPL\n"

/-- Collects and prints the outcome. -/
def collectCommand : ConsoleM m Unit := do
  let start ← clock
  let s ← performSafe Engine.collect
  let time : Duration := ⟨(← clock) - start⟩
  printLine (s!"{s.liveObjects} objects ({s.liveWords} words) live, {s.freeWords} words free, " ++
    s!"{s.swept} functions finalized in {time.text}")

/-- Prints the resource use. -/
def statsCommand : ConsoleM m Unit := do
  let s := (← get).stats
  printLine (s!"arena {s.arenaWords} words ({s.freeWords} free at last collection), " ++
    s!"{s.types} types, {s.functions} functions, {s.modules} modules, {s.roots} roots, " ++
    s!"{s.collections} collections")

/-- Reads a program and prints it in its canonical form. -/
def printCommand (program : List UInt8) : ConsoleM m Unit := do
  match ← perform (Engine.parse program) with
  | .error e => report e.message
  | .ok n => printLine (← performSafe (inspect fun e => Source.print e.image.heap n))

/-- Saves a snapshot to the file that a command names. -/
def saveCommand : List String → ConsoleM m Unit
  | [path] => do
    match ← saveTo path with
    | .ok _ => return ()
    | .error e => report e.message
  | _ => report "usage :save FILE"

/-- Carries out a command. -/
def command (line : List UInt8) : ConsoleM m Unit := do
  match Text.fields (Text.ofBytes line) with
  | ":help" :: _ => print helpText
  | ":gc" :: _ => collectCommand
  | ":stats" :: _ => statsCommand
  | ":print" :: _ => printCommand (trimBytes (line.drop ":print".length))
  | ":save" :: args => saveCommand args
  | name :: _ => report s!"unknown command {name}"
  | [] => return ()

/-! ### Reading and evaluating -/

/-- Asks for a line; `pending` is the incomplete program so far. -/
def prompt (pending : List UInt8) : ConsoleM m Unit :=
  print (if pending.isEmpty then ">> " else ".. ")

/-- A line that ends the console. -/
def isExit (line : List UInt8) : Bool :=
  line == Text.toBytes "exit" || line == Text.toBytes "quit"

/-- Takes a line; the answer is the incomplete program after it, or nothing if the console
    ends here. -/
def feed (pending line : List UInt8) : ConsoleM m (Option (List UInt8)) := do
  if pending.isEmpty && isExit line then return none
  if pending.isEmpty && line.head? == some 0x3A then
    command line
    return some []
  let program := if pending.isEmpty then line else pending ++ 0x0A :: line
  if 0 < depth program then return some program
  unless (trimBytes program).isEmpty do
    let _ ← evaluate program
  return some []

/-- Greets the user. -/
def greet : ConsoleM m Unit :=
  printLine "Arbor REPL (type 'exit' to quit, ':help' for commands)"

/-- Takes lines until they end or the console does. -/
def converse (pending : List UInt8) : List (List UInt8) → ConsoleM m Unit
  | [] => prompt pending
  | line :: rest => do
    prompt pending
    match ← feed pending line with
    | none => return ()
    | some pending => converse pending rest

/-- The interactive console on the lines of an input. -/
def interact (input : List UInt8) : ConsoleM m Unit := do
  greet
  converse [] (lines input)

end

end TreeMachine.Console
