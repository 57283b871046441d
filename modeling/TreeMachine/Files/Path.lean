/-! # Paths

  A path is a text whose parts are separated by slashes.  These operations look at the text
  only, never at the files.
-/

namespace TreeMachine.Path

/-- A path from the root. -/
def isAbsolute (p : String) : Bool := p.toList.head? == some '/'

/-- The parts of a path, empty ones included. -/
def parts (p : String) : List String := p.splitOn "/"

/-- Leaves out empty parts and single dots, and lets two dots cancel the part before them.
    Two dots at the start stay, except at the root; `kept` is the outcome so far, last part
    first. -/
def simplify (absolute : Bool) : List String → List String → List String
  | [], kept => kept.reverse
  | part :: rest, kept =>
    if part = "" ∨ part = "." then simplify absolute rest kept
    else if part = ".." then
      match kept with
      | [] => simplify absolute rest (if absolute then [] else [".."])
      | last :: before =>
        simplify absolute rest (if last = ".." then ".." :: kept else before)
    else simplify absolute rest (part :: kept)

/-- The shortest path that means the same. -/
def clean (p : String) : String :=
  let kept := String.intercalate "/" (simplify (isAbsolute p) (parts p) [])
  if isAbsolute p then "/" ++ kept
  else if kept = "" then "."
  else kept

/-- A path below another. -/
def join (p q : String) : String := if p = "" then clean q else clean (p ++ "/" ++ q)

/-- The path from the root of a path that is relative to `directory`. -/
def absolute (directory p : String) : String :=
  if isAbsolute p then clean p else join directory p

/-- The path without its last part; the root is its own parent. -/
def parent (p : String) : String :=
  let before := String.intercalate "/" ((parts p).dropLast)
  if before = "" then (if isAbsolute p then "/" else ".") else clean before

end TreeMachine.Path
