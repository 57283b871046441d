import TreeMachine.Kind

/-! # Tags of nodes

  A node record is its tag, the node before it in its basic block, and the payload words
  of its tag.  The tag's schema says how many payload words there are, how many of them
  refer to nodes, and which of those are compiled to values before the node itself.  The
  words of the tags are part of saved images, so they never change.
-/

namespace TreeMachine

/-- The tags of nodes. -/
inductive Tag where
  | literal
  | zero
  | increment
  | decrement
  | add
  | subtract
  | multiply
  | udiv
  | urem
  | random
  | cond
  | pointer
  | copy
  | load
  | store
  | concatenate
  | dynamify
  | compile
  | run
  | label
  | goto
  | block
deriving DecidableEq, Repr, Inhabited

/-- How the common part of compilation treats an operand. -/
inductive Param where
  /-- It must fit the scalar type of this kind. -/
  | checked (want : Kind)
  /-- It is compiled, and the tag itself looks at its type. -/
  | unchecked
deriving DecidableEq, Repr

/-- What a tag says about its nodes. -/
structure Schema where
  /-- How the tag is written. -/
  name : String
  /-- The number of payload words. -/
  fields : Nat
  /-- The number of leading payload words that refer to nodes. -/
  nodeFields : Nat
  /-- The leading fields that are compiled to values before the node itself. -/
  params : List Param
  /-- The kind of the result, where it does not depend on the operands. -/
  returns : Option Kind
deriving DecidableEq, Repr

namespace Tag

/-- All tags, in the order of their words. -/
def all : List Tag :=
  [literal, zero, increment, decrement, add, subtract, multiply, udiv, urem, random, cond,
    pointer, copy, load, store, concatenate, dynamify, compile, run, label, goto, block]

/-- The word that marks a node of this tag. -/
def word : Tag → UInt64
  | literal => 1
  | zero => 2
  | increment => 3
  | decrement => 4
  | add => 5
  | subtract => 6
  | multiply => 7
  | udiv => 8
  | urem => 9
  | random => 10
  | cond => 11
  | pointer => 12
  | copy => 13
  | load => 14
  | store => 15
  | concatenate => 16
  | dynamify => 17
  | compile => 18
  | run => 19
  | label => 20
  | goto => 21
  | block => 22

/-- The tag that a word marks. -/
def ofWord? (w : UInt64) : Option Tag := all.find? (·.word == w)

/-- A node with one integer operand. -/
def unary (name : String) : Schema := ⟨name, 1, 1, [.checked .integer], some .integer⟩

/-- A node with two integer operands. -/
def binary (name : String) : Schema :=
  ⟨name, 2, 2, [.checked .integer, .checked .integer], some .integer⟩

/-- The schema of each tag. -/
def schema : Tag → Schema
  | literal => ⟨"literal", 2, 0, [], none⟩
  | zero => ⟨"zero", 0, 0, [], some .integer⟩
  | increment => unary "increment"
  | decrement => unary "decrement"
  | add => binary "add"
  | subtract => binary "subtract"
  | multiply => binary "multiply"
  | udiv => binary "udiv"
  | urem => binary "urem"
  | random => ⟨"random", 0, 0, [], some .integer⟩
  | cond => ⟨"if", 3, 3, [], none⟩
  | pointer => ⟨"pointer", 1, 1, [], none⟩
  | copy => ⟨"copy", 1, 1, [], none⟩
  | load => ⟨"load", 1, 1, [.unchecked], none⟩
  | store => ⟨"store", 2, 2, [.unchecked, .unchecked], none⟩
  | concatenate => ⟨"concatenate", 2, 2, [], none⟩
  | dynamify => ⟨"dynamify", 1, 1, [.unchecked], some .dynamic⟩
  | compile => ⟨"compile", 1, 1, [.checked .ast], some .function⟩
  | run => ⟨"run", 1, 1, [.checked .function], some .dynamic⟩
  | label => ⟨"label", 1, 1, [], none⟩
  | goto => ⟨"goto", 3, 3, [], none⟩
  | block => ⟨"block", 1, 0, [], none⟩

/-- How a tag is written. -/
def name (t : Tag) : String := t.schema.name

/-- The number of payload words. -/
def fields (t : Tag) : Nat := t.schema.fields

/-- The name of the tag that a word marks, also for words that mark none. -/
def nameOfWord (w : UInt64) : String :=
  match ofWord? w with
  | some tag => tag.name
  | none => s!"tag({w})"

/-- The tag with a given name. -/
def ofName? (name : String) : Option Tag := all.find? (·.name == name)

@[simp] theorem ofWord?_word (t : Tag) : ofWord? t.word = some t := by
  cases t <;> decide

theorem word_injective {a b : Tag} (h : a.word = b.word) : a = b := by
  have := congrArg ofWord? h
  simpa using this

end Tag

end TreeMachine
