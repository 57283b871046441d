import TreeMachine.Dict
import TreeMachine.Node.Store
import TreeMachine.Source.Lexer
import TreeMachine.Text.Numeral

/-! # From tokens to nodes

  The reader works through the tokens of a text from left to right and keeps a stack of
  the forms that have begun and not ended.  A name is bound as soon as its node exists, so
  the fields of a node and the elements of a block may refer to it; a quote exists only
  when its form has been read.
-/

namespace TreeMachine.Source

/-- What is wrong with a text. -/
inductive Problem where
  | definedTwice (name : String)
  | badInteger (literal : String)
  | definedAsNil (name : String)
  | undefinedName (name : String)
  /-- A token that is none. -/
  | lexical (text : String)
  | unexpected (kind : TokenKind)
  | expectedTag (found : TokenKind)
  | unknownTag (name : String)
  /-- Literals and blocks have a notation of their own. -/
  | ownNotation (tag : Tag)
  | unclosedBracket
  | unclosedBrace
  | fieldCount (tag : Tag) (given : Nat)
  | quoteCount
  | emptyProgram
  /-- The node could not be made. -/
  | store (e : NodeError)
deriving DecidableEq, Repr

/-- The wording of a problem. -/
def Problem.text : Problem → String
  | definedTwice name => s!"{name} is defined twice"
  | badInteger literal => "bad integer " ++ Text.quote literal
  | definedAsNil name => s!"cannot define {name} as nil"
  | undefinedName name => s!"undefined name {name}"
  | lexical text => text
  | unexpected kind => "unexpected " ++ kind.text
  | expectedTag found => "expected a tag name, got " ++ found.text
  | unknownTag name => s!"unknown tag {name}"
  | ownNotation tag => tag.name ++ " nodes are written as integers and \x7b...\x7d"
  | unclosedBracket => "unclosed ["
  | unclosedBrace => "unclosed \x7b"
  | fieldCount tag given => s!"{tag.name} takes {tag.fields} fields, got {given}"
  | quoteCount => "quote takes one form"
  | emptyProgram => "empty program"
  | store e => e.message

/-- A problem and where it is. -/
structure ReadError where
  pos : Position
  problem : Problem
deriving DecidableEq, Repr

/-- The message of a reading error. -/
def ReadError.message (e : ReadError) : String :=
  s!"syntax: {e.pos.text}: {e.problem.text}"

/-- Reading allocates nodes on the heap. -/
abbrev ReadM := EStateM (Stop ReadError) Heap

/-- Stops with a problem. -/
def complain {α : Type} (pos : Position) (problem : Problem) : ReadM α :=
  throw (.error ⟨pos, problem⟩)

/-- A form that has begun and not ended. -/
inductive OpenForm where
  /-- A bracket node, and how many forms stand in it so far. -/
  | node (opened : Position) (tag : Tag) (node : Node) (given : Nat)
  /-- A quote; `start` is the position after its tag name. -/
  | quote (start : Position) (name : Option String)
  /-- A block; `start` is the position after its brace. -/
  | block (start : Position) (node : Node)
deriving Repr

/-- What the next token has to be. -/
inductive Expect where
  /-- The start of a form, or the end of the innermost open one. -/
  | form
  /-- The form that a definition names. -/
  | named (name : String)
  /-- The tag name after the bracket at `opened`. -/
  | tagName (opened : Position) (name : Option String)
  /-- The bracket that closes a quote. -/
  | quoteEnd (start : Position) (name : Option String) (quoted : Node)
deriving Repr

/-- The state of the reader between two tokens. -/
structure Reader where
  /-- The nodes that names stand for. -/
  names : Dict String Node
  /-- The open forms, innermost first. -/
  stack : List OpenForm
  expect : Expect
  /-- The complete forms of the text, last first. -/
  forms : List Node

namespace Reader

/-- The state before the first token. -/
def start : Reader := ⟨.empty, [], .form, []⟩

/-- Lets a name, if there is one, stand for a node. -/
def bind (r : Reader) (name : Option String) (n : Node) : Reader :=
  match name with
  | some name => { r with names := r.names.set name n }
  | none => r

/-- Hands a complete form to the form around it. -/
def deliver (r : Reader) (n : Node) : ReadM Reader := do
  match r.stack with
  | [] => return { r with expect := .form, forms := n :: r.forms }
  | .node opened tag m given :: outer =>
    if given < tag.fields then Heap.patch m given n
    return { r with expect := .form, stack := .node opened tag m (given + 1) :: outer }
  | .block _ b :: _ =>
    Heap.append b n
    return { r with expect := .form }
  | .quote start name :: outer =>
    return { r with expect := .quoteEnd start name n, stack := outer }

/-- Reads the first token of a form that `name` defines; `after` is the position of the
    token after it. -/
def atom (r : Reader) (name : Option String) (tok : Token) (after : Position) :
    ReadM Reader := do
  match tok.kind with
  | .integer =>
    match Text.readNumeral tok.literal with
    | .error _ => complain tok.pos (.badInteger tok.literal)
    | .ok v =>
      let n ← Heap.newInteger v
      (r.bind name n).deliver n
  | .name =>
    if tok.literal = "nil" then
      match name with
      | some name => complain tok.pos (.definedAsNil name)
      | none => r.deliver 0
    else match r.names.get? tok.literal with
      | none => complain tok.pos (.undefinedName tok.literal)
      | some n => (r.bind name n).deliver n
  | .openBracket => return { r with expect := .tagName tok.pos name }
  | .openBrace =>
    let b ← Heap.newBlock 0 []
    let r := r.bind name b
    return { r with expect := .form, stack := .block after b :: r.stack }
  | .invalid => complain tok.pos (.lexical tok.literal)
  | kind => complain tok.pos (.unexpected kind)

/-- Reads the tag name after a bracket. -/
def tagName (r : Reader) (opened : Position) (name : Option String) (tok : Token)
    (after : Position) : ReadM Reader := do
  if tok.kind ≠ .name then complain tok.pos (.expectedTag tok.kind)
  if tok.literal = "quote" then
    return { r with expect := .form, stack := .quote after name :: r.stack }
  match Tag.ofName? tok.literal with
  | none => complain tok.pos (.unknownTag tok.literal)
  | some tag =>
    if tag = .literal ∨ tag = .block then complain tok.pos (.ownNotation tag)
    let n ← mapStop (fun e => ReadError.mk tok.pos (.store e))
      (Heap.newNode tag 0 (List.replicate tag.fields 0))
    let r := r.bind name n
    return { r with expect := .form, stack := .node opened tag n 0 :: r.stack }

/-- Closes a quote. -/
def closeQuote (r : Reader) (start : Position) (name : Option String) (quoted : Node)
    (tok : Token) : ReadM Reader := do
  if tok.kind ≠ .closeBracket then complain start .quoteCount
  let ast := (← get).types.scalars.ast
  let n ← mapStop (fun e => ReadError.mk start (.store e)) (Heap.newLiteral 0 ast [quoted])
  (r.bind name n).deliver n

/-- Reads the start of a form, with or without a definition in front. -/
def form (r : Reader) (tok : Token) (after : Position) : ReadM Reader := do
  if tok.kind = .define then
    if r.names.contains tok.literal then complain tok.pos (.definedTwice tok.literal)
    return { r with expect := .named tok.literal }
  else r.atom none tok after

/-- Reads one token that is not the end of the text; `after` is the position of the token
    after it. -/
def step (r : Reader) (tok : Token) (after : Position) : ReadM Reader :=
  match r.expect with
  | .named name => r.atom (some name) tok after
  | .tagName opened name => r.tagName opened name tok after
  | .quoteEnd start name quoted => r.closeQuote start name quoted tok
  | .form =>
    match r.stack with
    | .node opened tag n given :: outer =>
      if tok.kind = .closeBracket then
        if given = tag.fields then { r with stack := outer }.deliver n
        else complain opened (.fieldCount tag given)
      else r.form tok after
    | .block _ b :: outer =>
      if tok.kind = .closeBrace then { r with stack := outer }.deliver b
      else r.form tok after
    | _ => r.form tok after

/-- Reads the end of the text.  One form is the program; several become the elements of a
    block. -/
def finish (r : Reader) (tok : Token) : ReadM Node := do
  match r.expect, r.stack with
  | .form, [] =>
    match r.forms with
    | [] => complain tok.pos .emptyProgram
    | [n] => return n
    | forms => Heap.newBlock 0 forms.reverse
  | .form, .node opened _ _ _ :: _ => complain opened .unclosedBracket
  | .form, .block start _ :: _ => complain start .unclosedBrace
  | .form, .quote _ _ :: _ => complain tok.pos (.unexpected tok.kind)
  | .named _, _ => complain tok.pos (.unexpected tok.kind)
  | .tagName _ _, _ => complain tok.pos (.expectedTag tok.kind)
  | .quoteEnd start _ _, _ => complain start .quoteCount

/-- Reads the remaining tokens, the last of which is the end of the text. -/
def run (r : Reader) : List Token → ReadM Node
  | [] => complain default .emptyProgram
  | [tok] => r.finish tok
  | tok :: following :: rest => do
    let r ← r.step tok following.pos
    r.run (following :: rest)

end Reader

/-- Reads a program and allocates its nodes. -/
def read (text : List UInt8) : ReadM Node := Reader.start.run (tokens text)

end TreeMachine.Source
