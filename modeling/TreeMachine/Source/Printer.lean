import TreeMachine.Dict
import TreeMachine.Node.Basic

/-! # From nodes to text

  A node that is reached more than once is defined where it is reached first, as `_n1`,
  `_n2` and so on, and referred to by name afterwards.  Literals other than integers and
  quotes are shown in a way that cannot be read back.
-/

namespace TreeMachine.Source

/-- The node that a literal quotes, if it is a quote. -/
def quoted (h : Heap) (n : Node) : Except Fault (Option Node) := do
  let (t, _) ← h.literalValue n
  if t ≠ h.types.scalars.ast then return none
  match ← h.literalWords n with
  | [] => .error .outOfBounds
  | q :: _ => return some q

/-- The nodes that a node refers to, in the order in which they are printed. -/
def children (h : Heap) (n : Node) : Except Fault (List Node) := do
  match ← h.tag n with
  | .literal => return (← quoted h n).toList
  | .block => h.elements n
  | tag => h.fieldsFrom n 0 tag.fields

/-! ### Counting -/

/-- How often each node is reached. -/
abbrev References := Dict Node Nat

/-- Counts how often the nodes below `n` are reached; below a node that was reached before
    nothing is counted again. -/
def countWithin (h : Heap) : Nat → Node → EStateM Fault References Unit
  | 0, _ => throw .endless
  | depth + 1, n => do
    if n = 0 then return ()
    let seen := ((← get).get? n).getD 0
    modify (·.set n (seen + 1))
    if seen = 0 then (← children h n).forM (countWithin h depth)

/-- How often each node is reached from `n`. -/
def references (h : Heap) (n : Node) : Except Fault References :=
  match countWithin h h.depthBound n .empty with
  | .ok _ refs => .ok refs
  | .error f _ => .error f

/-! ### Printing -/

/-- The names given so far, and the text printed so far. -/
structure Printer where
  names : Dict Node String
  text : String
deriving Inhabited

/-- Printing writes text and gives names. -/
abbrev PrintM := EStateM Fault Printer

/-- Writes a piece of text. -/
def write (s : String) : PrintM Unit := modify fun ⟨names, text⟩ => ⟨names, text ++ s⟩

/-- Gives the next name to a node. -/
def giveName (n : Node) : PrintM String := do
  let p ← get
  let name := s!"n{p.names.pairs.length + 1}"
  set { p with names := p.names.set n name }
  return name

/-- Prints nodes with a space between them. -/
def printList (print : Node → PrintM Unit) : List Node → PrintM Unit
  | [] => return ()
  | [n] => print n
  | n :: rest => do
    print n
    write " "
    printList print rest

/-- Prints a literal. -/
def printLiteral (h : Heap) (print : Node → PrintM Unit) (n : Node) : PrintM Unit := do
  let (t, _) ← h.literalValue n
  let ws ← h.literalWords n
  if t = h.types.scalars.integer then
    match ws with
    | [] => throw .outOfBounds
    | w :: _ => write (toString w)
  else if t = h.types.scalars.ast then
    match ws with
    | [] => throw .outOfBounds
    | q :: _ =>
      write "[quote "
      print q
      write "]"
  else
    let type ← h.typeText t
    write ("<" ++ type ++ ":" ++ String.join (ws.map fun w => s!" {w}") ++ ">")

/-- Prints a node, down to a given depth. -/
def printWithin (h : Heap) (refs : References) : Nat → Node → PrintM Unit
  | 0, _ => throw .endless
  | depth + 1, n => do
    if n = 0 then
      write "nil"
      return ()
    if let some name := (← get).names.get? n then
      write name
      return ()
    if 1 < (refs.get? n).getD 0 then
      let name ← giveName n
      write s!"_{name} "
    match ← h.tag n with
    | .literal => printLiteral h (printWithin h refs depth) n
    | .block =>
      write "\x7b"
      printList (printWithin h refs depth) (← children h n)
      write "\x7d"
    | tag =>
      write ("[" ++ tag.name)
      match ← children h n with
      | [] => pure ()
      | fields =>
        write " "
        printList (printWithin h refs depth) fields
      write "]"

/-- The text of a node. -/
def print (h : Heap) (n : Node) : Except Fault String := do
  let refs ← references h n
  match printWithin h refs h.depthBound n ⟨.empty, ""⟩ with
  | .ok _ p => .ok p.text
  | .error f _ => .error f

end TreeMachine.Source
