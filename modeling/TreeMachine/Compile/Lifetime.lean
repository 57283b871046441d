/-! # Lifetimes

  Lifetimes are numbers in the order of generation.  What is made later dies earlier, so a
  smaller number means a longer life.  The contract of a value keeps addresses of
  short-lived slots out of longer-lived memory.
-/

namespace TreeMachine.Compile

/-- The hit of a value that points nowhere. -/
def never : UInt64 := 0xFFFFFFFFFFFFFFFF

/-- The lifetime bounds of a value. -/
structure Contract where
  /-- The lifetime of the youngest object the value may point into; zero if it holds no
      address of a slot. -/
  validity : UInt64
  /-- The lifetime of the place the value points to: memory reached through it stays
      coherent for that long. -/
  hit : UInt64
deriving DecidableEq, Repr, Inhabited

namespace Contract

/-- The contract of a plain value. -/
def unbounded : Contract := ⟨0, never⟩

/-- The contract of a result into which either of two values may flow. -/
def merge (c o : Contract) : Contract := ⟨max c.validity o.validity, min c.hit o.hit⟩

/-- The contract of the address of an object with the given lifetime. -/
def pointingAt (lifetime : UInt64) : Contract := ⟨lifetime, lifetime⟩

/-- The contract of a value read through a pointer.  What was stored there is no younger
    than the hit of the pointer; where it points to is unknown. -/
def loadedThrough (pointer : Contract) (holdsPointers : Bool) : Contract :=
  if holdsPointers then ⟨pointer.hit, 0⟩ else unbounded

/-- Whether `value` may be written to the place that `dest` points to without outliving
    what it points at. -/
def mayStore (dest value : Contract) : Bool := value.validity ≤ dest.hit

end Contract

end TreeMachine.Compile
