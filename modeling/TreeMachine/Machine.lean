import TreeMachine.Code.Run

/-! # Loaded programs

  The machine numbers the programs that are loaded into it.  A number is never issued
  twice, so an unloaded program cannot be confused with a later one.
-/

namespace TreeMachine

open Code (Handle Program RunError)

/-- The loaded programs by their entries, and the last entry issued. -/
structure Machine where
  programs : List (UInt64 × Program)
  last : UInt64
deriving Repr, Inhabited

namespace Machine

/-- A machine without programs. -/
def empty : Machine := ⟨[], 0⟩

/-- Loads a program; the answer is its entry. -/
def install (m : Machine) (p : Program) : UInt64 × Machine :=
  let entry := m.last + 1
  (entry, ⟨(entry, p) :: m.programs, entry⟩)

/-- The program at an entry. -/
def program? (m : Machine) (entry : UInt64) : Option Program :=
  (m.programs.find? (·.1 == entry)).map (·.2)

/-- The number of loaded programs. -/
def loaded (m : Machine) : Nat := m.programs.length

/-- Whether a handle names a loaded module. -/
def knows (m : Machine) : Handle → Bool
  | .issued entry => (m.program? entry).isSome
  | .foreign _ => false

/-- Removes a module; an unknown handle removes nothing. -/
def remove (m : Machine) : Handle → Machine
  | .issued entry => { m with programs := m.programs.filter (·.1 != entry) }
  | .foreign _ => m

/-- Removes a module. -/
def unload (m : Machine) (h : Handle) : Except RunError Machine :=
  if m.knows h then .ok (m.remove h) else .error (.unknownModule h)

end Machine

end TreeMachine
