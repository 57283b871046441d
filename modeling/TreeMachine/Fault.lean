import TreeMachine.Tag

/-! # Faults and errors

  Two things can end an operation early.  A *fault* means that the machine's own state is
  broken or exhausted; nothing catches it.  An *error* is an ordinary failure that is
  returned to the caller.  In both cases what was changed before stays changed, so
  operations are `EStateM` computations and never roll back.
-/

namespace TreeMachine

/-- The broken invariants that the machine watches for. -/
inductive Violation where
  /-- An arena without a usable word. -/
  | emptyArena
  | allocationDuringCollection (size : UInt64)
  | allocationOfNothing
  /-- No free region has `size` words; `free` words are free in all. -/
  | outOfMemory (size free : UInt64)
  /-- An access to the words from `first` up to `stop` of an arena of `limit` words. -/
  | outOfRange (first stop limit : UInt64)
  | restoreSize (given wanted : Nat)
  | collectionRunning
  | collectionNotStarted
  | livingOverlap (addr : UInt64)
  | livingPastEnd (addr : UInt64)
  /-- An object was found with two different sizes. -/
  | livingSize (addr before now : UInt64)
  | notScalar (kindWord : UInt64)
  | pointerWithoutTarget
  | pointerToEmpty
  | thinConcatenation (members : Nat)
  | invalidModel (kindWord : UInt64)
  | corruptType (type kindWord : UInt64)
  /-- The element of a type that is no pointer; `type` is how it is written. -/
  | elemOfNonPointer (type : String)
  | wrongTag (node : UInt64) (found wanted : Tag)
  | corruptNode (node tagWord : UInt64)
  | noField (tag : Tag) (index : Int)
  | noNodeField (tag : Tag) (index : Int)
  /-- A literal of the type written `type` takes `size` words and got `given`. -/
  | literalSize (type : String) (size : UInt64) (given : Nat)
  | poolExhausted (slots : Nat)
  | outsidePool (id : UInt64) (slots : Nat)
  | alreadyInstalled (id : UInt64)
  | untypedDynamic (object : UInt64)
deriving DecidableEq, Repr

/-- The wording of the failure to make a literal. -/
def literalSizeText (type : String) (size : UInt64) (given : Nat) : String :=
  s!"ast: literal of {type} needs {size} words, got {given}"

namespace Violation

/-- The wording of a broken invariant. -/
def text : Violation → String
  | emptyArena => "arena capacity must be positive"
  | allocationDuringCollection size => s!"allocation of {size} words during collection"
  | allocationOfNothing => "allocation of zero words"
  | outOfMemory size free => s!"out of memory: no free region of {size} words ({free} free)"
  | outOfRange first stop limit => s!"arena access out of range: [{first}, {stop}) of {limit}"
  | restoreSize given wanted => s!"restore of {given} words into arena of {wanted}"
  | collectionRunning => "collection started while another is running"
  | collectionNotStarted => "collection ended without being started"
  | livingOverlap addr => s!"living regions overlap at {addr}"
  | livingPastEnd addr => s!"living region ends past the arena at {addr}"
  | livingSize addr before now => s!"object at {addr} marked with size {before} and {now}"
  | notScalar kindWord => Kind.nameOfWord kindWord ++ " is not a scalar type tag"
  | pointerWithoutTarget => "pointer model without a target type"
  | pointerToEmpty => "pointer to the empty type"
  | thinConcatenation members => s!"concatenation with {members} effective members"
  | invalidModel kindWord => s!"type model with invalid tag {kindWord}"
  | corruptType type kindWord => s!"corrupt type record at {type}: tag {kindWord}"
  | elemOfNonPointer type => s!"Elem of non-pointer type {type}"
  | wrongTag node found wanted => s!"node {node} is {found.name}, want {wanted.name}"
  | corruptNode node tagWord => s!"corrupt node at {node}: tag {tagWord}"
  | noField tag index => s!"{tag.name} node has no field {index}"
  | noNodeField tag index => s!"{tag.name} node has no node field {index}"
  | literalSize type size given => literalSizeText type size given
  | poolExhausted slots => s!"function pool exhausted ({slots} slots)"
  | outsidePool id slots => s!"function {id} outside pool of {slots} slots"
  | alreadyInstalled id => s!"function {id} is already installed"
  | untypedDynamic object => s!"dynamic pointer to {object} without a type"

/-- The full message of a broken invariant. -/
def message (v : Violation) : String := "invariant violated: " ++ v.text

end Violation

/-- What stops the machine for good. -/
inductive Fault where
  /-- A watched invariant is broken. -/
  | broken (v : Violation)
  /-- An index outside its array, which no watched invariant caught. -/
  | outOfBounds
  /-- A descent through records that refer to themselves. -/
  | endless
deriving DecidableEq, Repr

/-- Why an operation with errors of type `ε` stopped. -/
inductive Stop (ε : Type) where
  /-- A fault, which nothing catches. -/
  | fault (f : Fault)
  /-- An ordinary error. -/
  | error (e : ε)
deriving Repr

namespace Stop

/-- The same stop with another type of errors. -/
def map {ε ε' : Type} (f : ε → ε') : Stop ε → Stop ε'
  | fault b => fault b
  | error e => error (f e)

end Stop

/-! ### Lifting -/

/-- Runs a computation that may only fault where errors are possible as well. -/
instance liftFaults {ε σ : Type} : MonadLift (EStateM Fault σ) (EStateM (Stop ε) σ) where
  monadLift x s := match x s with
    | .ok a s => .ok a s
    | .error f s => .error (.fault f) s

/-- Runs a stateless computation. -/
instance liftExcept {ε σ : Type} : MonadLift (Except ε) (EStateM ε σ) where
  monadLift x s := match x with
    | .ok a => .ok a s
    | .error e => .error e s

/-- Changes the type of errors of a computation. -/
@[inline] def mapStop {ε ε' σ α : Type} (f : ε → ε') (x : EStateM (Stop ε) σ α) :
    EStateM (Stop ε') σ α := fun s =>
  match x s with
  | .ok a s => .ok a s
  | .error e s => .error (e.map f) s

/-- Looks at the state without changing it. -/
@[inline] def inspect {ε σ α : Type} (f : σ → Except ε α) : EStateM ε σ α := fun s =>
  match f s with
  | .ok a => .ok a s
  | .error e => .error e s

/-- Stops with a broken invariant. -/
def violate {α : Type} (v : Violation) : Except Fault α := .error (.broken v)

end TreeMachine
