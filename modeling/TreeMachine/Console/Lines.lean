import TreeMachine.Text.Blank
import TreeMachine.Text.Utf8

/-! # Lines of input

  How the interactive console cuts its input into lines, and how it tells whether the lines
  so far are a complete program: every bracket and brace that was opened is closed again.
-/

namespace TreeMachine.Console

/-- A line has fewer bytes than this; a longer one ends the input. -/
def lineLimit : Nat := 65536

/-- The lines of a text without their line ends; `run` is the line so far, last byte first.
    An empty line at the very end is none. -/
def rawLines : List UInt8 → List UInt8 → List (List UInt8)
  | [], run => if run.isEmpty then [] else [run.reverse]
  | b :: rest, run =>
    if b = 0x0A then run.reverse :: rawLines rest [] else rawLines rest (b :: run)

/-- Leaves out a carriage return at the end of a line. -/
def dropReturn (line : List UInt8) : List UInt8 :=
  if line.getLast? = some 0x0D then line.dropLast else line

/-- The lines of the input up to the first that is too long. -/
def lines (input : List UInt8) : List (List UInt8) :=
  ((rawLines input []).takeWhile (·.length < lineLimit)).map dropReturn

/-- The number of brackets and braces that are still open, where `opened` of them were open
    before; those in comments do not count.  All of these characters have one byte, so bytes
    need no decoding. -/
def depthFrom (opened : Int) (inComment : Bool) : List UInt8 → Int
  | [] => opened
  | b :: rest =>
    if b = 0x0A then depthFrom opened false rest
    else if inComment then depthFrom opened true rest
    else if b = 0x3B then depthFrom opened true rest
    else if b = 0x5B ∨ b = 0x7B then depthFrom (opened + 1) false rest
    else if b = 0x5D ∨ b = 0x7D then depthFrom (opened - 1) false rest
    else depthFrom opened false rest

/-- The number of brackets and braces of a text that are still open at its end; it is
    negative if too many are closed. -/
def depth (text : List UInt8) : Int := depthFrom 0 false text

/-- The width of the blanks that a list of decoded characters starts with. -/
def blankWidth (chars : List (Char × Nat)) : Nat :=
  (chars.takeWhile (Text.isBlank ·.1)).foldl (fun width c => width + c.2) 0

/-- The text without the blanks at its two ends. -/
def trimBytes (text : List UInt8) : List UInt8 :=
  let chars := Text.decodeAll text
  (text.take (text.length - blankWidth chars.reverse)).drop (blankWidth chars)

end TreeMachine.Console
