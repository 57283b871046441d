/-! # Kinds of types

  A type record starts with the word of its kind.  The words are part of saved images, so
  they never change.
-/

namespace TreeMachine

/-- The kinds of types. -/
inductive Kind where
  /-- One word. -/
  | integer
  /-- The address of a value of a given type. -/
  | pointer
  /-- A type handle and the address of a boxed value of that type. -/
  | dynamic
  /-- A node address. -/
  | ast
  /-- A type handle. -/
  | type
  /-- A function number. -/
  | function
  /-- The type of what never yields a value. -/
  | doesNotReturn
  /-- Two or more values side by side. -/
  | concatenation
deriving DecidableEq, Repr, Inhabited

namespace Kind

/-- All kinds, in the order of their words. -/
def all : List Kind :=
  [integer, pointer, dynamic, ast, type, function, doesNotReturn, concatenation]

/-- The word that marks a record of this kind. -/
def word : Kind → UInt64
  | integer => 1
  | pointer => 2
  | dynamic => 3
  | ast => 4
  | type => 5
  | function => 6
  | doesNotReturn => 7
  | concatenation => 8

/-- The kind that a word marks. -/
def ofWord? (w : UInt64) : Option Kind := all.find? (·.word == w)

/-- How a kind is written. -/
def name : Kind → String
  | integer => "integer"
  | pointer => "pointer"
  | dynamic => "dynamic"
  | ast => "ast"
  | type => "type"
  | function => "function"
  | doesNotReturn => "does_not_return"
  | concatenation => "concatenation"

/-- The name of the kind that a word marks, also for words that mark none. -/
def nameOfWord (w : UInt64) : String :=
  match ofWord? w with
  | some kind => kind.name
  | none => s!"tag({w})"

/-- Kinds whose records carry nothing but the kind. -/
def isScalar : Kind → Bool
  | pointer | concatenation => false
  | _ => true

@[simp] theorem ofWord?_word (k : Kind) : ofWord? k.word = some k := by
  cases k <;> decide

theorem word_of_ofWord? {w : UInt64} {k : Kind} (h : ofWord? w = some k) : k.word = w := by
  simpa using List.find?_some h

theorem word_injective {a b : Kind} (h : a.word = b.word) : a = b := by
  have := congrArg ofWord? h
  simpa using this

end Kind

end TreeMachine
