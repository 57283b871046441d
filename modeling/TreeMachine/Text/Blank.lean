/-! # Blanks

  White space in the wide sense: the ASCII blanks, the next-line character and the space
  separators.  The interactive console trims its programs and splits its commands by it.
-/

namespace TreeMachine.Text

/-- A white-space character. -/
def isBlank (c : Char) : Bool :=
  let n := c.toNat
  (0x09 ≤ n && n ≤ 0x0d) || n == 0x20 || n == 0x85 || n == 0xa0 || n == 0x1680 ||
    (0x2000 ≤ n && n ≤ 0x200a) || n == 0x2028 || n == 0x2029 || n == 0x202f ||
    n == 0x205f || n == 0x3000

/-- The maximal runs of characters that are not blank. -/
def fieldsAux : List Char → List Char → List (List Char)
  | [], run => if run.isEmpty then [] else [run.reverse]
  | c :: rest, run =>
    if isBlank c then
      if run.isEmpty then fieldsAux rest [] else run.reverse :: fieldsAux rest []
    else fieldsAux rest (c :: run)

/-- The words of a text, in order. -/
def fields (s : String) : List String := (fieldsAux s.toList []).map String.ofList

end TreeMachine.Text
