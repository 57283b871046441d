import TreeMachine.Text.Quoted

/-! # Tokens of the bracket notation

      42             integer literal
      [add 1 2]      node: tag name, then one form per field
      {a b c}        basic block
      nil            null field
      _x form        defines x as the node form produces
      x              refers to the node defined as x
      [quote form]   literal that holds a node
      ; comment      to the end of the line
-/

namespace TreeMachine.Source

/-- A place in a text. -/
structure Position where
  /-- Bytes before the place. -/
  offset : Nat
  /-- Line, counted from one. -/
  line : Nat
  /-- Column in bytes, counted from one. -/
  column : Nat
deriving DecidableEq, Repr, Inhabited

/-- How a position is written in messages. -/
def Position.text (p : Position) : String := s!"{p.line}:{p.column}"

/-- What a token is. -/
inductive TokenKind where
  /-- The end of the text. -/
  | endOfText
  /-- Something that is no token; the literal says what is wrong. -/
  | invalid
  /-- A word that starts with a digit. -/
  | integer
  /-- A word that starts with a letter. -/
  | name
  /-- An underscore and the name it defines. -/
  | define
  | openBracket
  | closeBracket
  | openBrace
  | closeBrace
deriving DecidableEq, Repr, Inhabited

namespace TokenKind

/-- All kinds, in the order of their numbers. -/
def all : List TokenKind :=
  [endOfText, invalid, integer, name, define, openBracket, closeBracket, openBrace, closeBrace]

/-- How a kind is written in messages. -/
def text : TokenKind → String
  | endOfText => "EOF"
  | invalid => "ERROR"
  | integer => "INTEGER"
  | name => "NAME"
  | define => "DEFINE"
  | openBracket => "["
  | closeBracket => "]"
  | openBrace => "\x7b"
  | closeBrace => "\x7d"

/-- The text of the kind with a given number, also for numbers that name no kind. -/
def textOfNumber (n : Int) : String :=
  match if n < 0 then none else all[n.toNat]? with
  | some kind => kind.text
  | none => s!"TokenType({n})"

end TokenKind

/-- A token.  The literal of a definition is the name without its underscore. -/
structure Token where
  kind : TokenKind
  literal : String
  pos : Position
deriving DecidableEq, Repr, Inhabited

/-- How a token is written in messages. -/
def Token.text (t : Token) : String :=
  t.kind.text ++ "(" ++ Text.quote t.literal ++ ") at " ++ t.pos.text

end TreeMachine.Source
