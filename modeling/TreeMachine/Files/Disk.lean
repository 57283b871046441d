import TreeMachine.Files.Basic
import TreeMachine.Files.Path

/-! # A disk in memory

  A finite set of files and directories, and a terminal whose output is kept.  Paths are
  resolved part by part, so each part but the last has to be an existing directory.
-/

namespace TreeMachine

/-- What stands at a path. -/
inductive Entry where
  | file (bytes : ByteArray)
  | directory
deriving Inhabited

/-- The files and directories, by the parts of their paths from the root.  The root itself
    always exists. -/
structure Disk where
  entries : List (List String × Entry)

namespace Disk

/-- A disk without files. -/
def empty : Disk := ⟨[]⟩

/-- What stands at a place. -/
def at? (d : Disk) (place : List String) : Option Entry :=
  if place.isEmpty then some .directory else d.entries.lookup place

/-- Puts a file or a directory at a place. -/
def put (place : List String) (e : Entry) (d : Disk) : Disk :=
  ⟨(place, e) :: d.entries.filter (·.1 != place)⟩

/-- Makes the directory at a place and those around it. -/
def makeDirectories (place : List String) (d : Disk) : Disk :=
  (List.range place.length).foldl (fun d i => d.put (place.take (i + 1)) .directory) d

/-- Adds a file and the directories around it. -/
def addFile (place : List String) (bytes : ByteArray) (d : Disk) : Disk :=
  (d.makeDirectories place.dropLast).put place (.file bytes)

/-- Where a path leads. -/
inductive Target where
  | found (place : List String) (e : Entry)
  /-- Nothing is there yet, but a directory to put it into is. -/
  | vacant (place : List String)

/-- What a path is followed for. -/
inductive Purpose where
  | read
  /-- To create or replace a file. -/
  | create
deriving DecidableEq, Repr

/-- No part of a path has more bytes than this. -/
def maxPart : Nat := 255

/-- No path has more bytes than this. -/
def maxPath : Nat := 4095

/-- The refusal of a path, or of a part of one, with too many bytes. -/
def tooLong : Refusal := .other "file name too long"

/-- Follows the parts of a path from the directory at a place.  A slash at the end asks for a
    directory, which no file is created in the place of. -/
def follow (d : Disk) (purpose : Purpose) (place : List String) :
    List String → Except Refusal Target
  | [] => return .found place .directory
  | part :: rest =>
    if part = "" ∨ part = "." then follow d purpose place rest
    else if part = ".." then follow d purpose place.dropLast rest
    else if purpose = .create ∧ rest ≠ [] ∧ rest.all (· == "") then throw .isDirectory
    else if maxPart < part.utf8ByteSize then throw tooLong
    else
      let next := place ++ [part]
      match d.at? next, rest with
      | some .directory, _ => follow d purpose next rest
      | some (.file bytes), [] => return .found next (.file bytes)
      | some (.file _), _ :: _ => throw .notDirectory
      | none, [] => return .vacant next
      | none, _ :: _ => throw .missing

/-- Where a path leads from a working directory. -/
def resolve (d : Disk) (purpose : Purpose) (directory path : String) : Except Refusal Target :=
  if path = "" then throw .missing
  else if path.contains '\x00' then throw (.other "invalid argument")
  else if maxPath < path.utf8ByteSize then throw tooLong
  else
    let start := if Path.isAbsolute path then []
      else (Path.parts directory).filter (· != "")
    follow d purpose start (Path.parts path)

end Disk

/-- A disk with a working directory, an environment and a terminal. -/
structure Workstation where
  disk : Disk
  directory : String
  /-- The environment. -/
  assigned : List (String × String)
  out : String
  err : String

namespace Workstation

/-- The bytes of a file. -/
def readFile (path : String) (s : Workstation) : Except FileError ByteArray :=
  match s.disk.resolve .read s.directory path with
  | .error why => throw (.opening path why)
  | .ok (.found _ (.file bytes)) => return bytes
  | .ok (.found _ .directory) => throw (.reading path .isDirectory)
  | .ok _ => throw (.opening path .missing)

/-- Creates or replaces a file. -/
def writeFile (path : String) (bytes : ByteArray) (s : Workstation) :
    Except FileError Unit × Workstation :=
  let store (place : List String) : Workstation := { s with disk := s.disk.put place (.file bytes) }
  match s.disk.resolve .create s.directory path with
  | .error why => (throw (.opening path why), s)
  | .ok (.found place (.file _)) => (.ok (), store place)
  | .ok (.vacant place) => (.ok (), store place)
  | .ok _ => (throw (.opening path .isDirectory), s)

/-- Whether there is a file or a directory at a path. -/
def pathExists (path : String) (s : Workstation) : Bool :=
  match s.disk.resolve .read s.directory path with
  | .ok (.found ..) => true
  | _ => false

instance files : MonadFiles (StateM Workstation) where
  readFile path := fun s => (s.readFile path, s)
  writeFile path bytes := fun s => s.writeFile path bytes
  pathExists path := fun s => (s.pathExists path, s)
  workingDirectory := fun s => (s.directory, s)

/-- The clock of a workstation in memory stands still. -/
instance terminal : MonadTerminal (StateM Workstation) where
  environment name := fun s => (s.assigned.lookup name, s)
  print text := fun s => ((), { s with out := s.out ++ text })
  complain text := fun s => ((), { s with err := s.err ++ text })
  clock := fun s => (0, s)

end Workstation

end TreeMachine
