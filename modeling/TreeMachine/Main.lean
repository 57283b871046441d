import TreeMachine.Console.Run

/-! # The program

  The command line on the real files and the real terminal.
-/

namespace TreeMachine

/-- Why the system refused a path. -/
def refusalOf : IO.Error → Refusal
  | .noFileOrDirectory .. => .missing
  | .inappropriateType _ _ details =>
    if details = Refusal.isDirectory.text then .isDirectory else .notDirectory
  | e => .other (toString e)

/-- Turns an exception into an error of a file. -/
def guarded {α : Type} (wrap : Refusal → FileError) (x : IO α) : IO (Except FileError α) := do
  match ← x.toBaseIO with
  | .ok a => return .ok a
  | .error e => return .error (wrap (refusalOf e))

/-- Opens a file and reads all of it. -/
def readWhole (path : String) : IO (Except FileError ByteArray) := do
  match ← guarded (.opening path) (IO.FS.Handle.mk path .read) with
  | .error e => return .error e
  | .ok h => guarded (.reading path) h.readBinToEnd

instance realFiles : MonadFiles IO where
  readFile := readWhole
  writeFile path bytes := guarded (.opening path) (IO.FS.writeBinFile path bytes)
  pathExists path := return (← (IO.FS.Handle.mk path .read).toBaseIO).isOk
  workingDirectory := return toString (← IO.currentDir)

instance realTerminal : MonadTerminal IO where
  environment name := IO.getEnv name
  print text := do
    IO.print text
    (← IO.getStdout).flush
  complain text := IO.eprint text
  clock := IO.monoNanosNow

/-- Takes lines from the standard input until they end or the console does. -/
partial def converseLive (pending : List UInt8) : Console.ConsoleM IO Unit := do
  Console.prompt pending
  let line := (← (← IO.getStdin).getLine).toUTF8.toList
  match Console.lines line with
  | [] => return ()
  | line :: _ =>
    match ← Console.feed pending line with
    | none => return ()
    | some pending => converseLive pending

end TreeMachine

/-- Runs the command line.  A fault ends the program with exit code two. -/
def main (args : List String) : IO UInt32 := do
  let seed := UInt64.ofNat (← IO.monoNanosNow) ||| 1
  let interactive : TreeMachine.Console.ConsoleM IO Unit := do
    TreeMachine.Console.greet
    TreeMachine.converseLive []
  match ← (TreeMachine.Console.run args seed interactive).run with
  | .ok code => return code
  | .error (.broken v) =>
    IO.eprintln v.message
    return 2
  | .error _ =>
    IO.eprintln "the image is broken"
    return 2
