/-! # Files and the terminal

  What the command line needs from its surroundings.  The operations are those of an
  arbitrary monad, so the same program runs on a disk in memory and on a real one.
-/

namespace TreeMachine

/-- Why the system refuses a path. -/
inductive Refusal where
  | missing
  | notDirectory
  | isDirectory
  | other (text : String)
deriving DecidableEq, Repr

/-- The wording of a refusal. -/
def Refusal.text : Refusal → String
  | missing => "no such file or directory"
  | notDirectory => "not a directory"
  | isDirectory => "is a directory"
  | other text => text

/-- A file that could not be used. -/
inductive FileError where
  /-- The file could not be opened or created. -/
  | opening (path : String) (why : Refusal)
  /-- The file was opened but could not be read. -/
  | reading (path : String) (why : Refusal)
deriving DecidableEq, Repr

/-- The wording of a failure. -/
def FileError.message : FileError → String
  | opening path why => s!"open {path}: {why.text}"
  | reading path why => s!"read {path}: {why.text}"

/-- Access to files. -/
class MonadFiles (m : Type → Type) where
  /-- The bytes of a file. -/
  readFile : String → m (Except FileError ByteArray)
  /-- Creates or replaces a file. -/
  writeFile : String → ByteArray → m (Except FileError Unit)
  /-- Whether there is a file or a directory at a path. -/
  pathExists : String → m Bool
  /-- The path that relative paths start from. -/
  workingDirectory : m String

/-- Access to the environment, the two output streams and the clock. -/
class MonadTerminal (m : Type → Type) where
  /-- The value of an environment variable. -/
  environment : String → m (Option String)
  /-- Writes to the standard output. -/
  print : String → m Unit
  /-- Writes to the standard error output. -/
  complain : String → m Unit
  /-- The time in nanoseconds, from an arbitrary start. -/
  clock : m Nat

instance liftedFiles {m n : Type → Type} [MonadLift m n] [MonadFiles m] : MonadFiles n where
  readFile path := liftM (MonadFiles.readFile path : m _)
  writeFile path bytes := liftM (MonadFiles.writeFile path bytes : m _)
  pathExists path := liftM (MonadFiles.pathExists path : m _)
  workingDirectory := liftM (MonadFiles.workingDirectory : m _)

instance liftedTerminal {m n : Type → Type} [MonadLift m n] [MonadTerminal m] :
    MonadTerminal n where
  environment name := liftM (MonadTerminal.environment name : m _)
  print text := liftM (MonadTerminal.print text : m _)
  complain text := liftM (MonadTerminal.complain text : m _)
  clock := liftM (MonadTerminal.clock : m _)

export MonadFiles (readFile writeFile pathExists workingDirectory)
export MonadTerminal (environment print complain clock)

end TreeMachine
