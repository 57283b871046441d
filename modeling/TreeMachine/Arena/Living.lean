import TreeMachine.Fault

/-! # Regions and the living map

  A region is a run of words.  The living map records the regions that a collection has
  reached, each address with one size.
-/

namespace TreeMachine

/-- The index of a word of the arena; zero is null. -/
abbrev Addr := UInt64

/-- A run of words. -/
structure Region where
  addr : Addr
  size : UInt64
deriving DecidableEq, Repr, Inhabited

namespace Region

/-- The address after the region, modulo the word size. -/
def stop (r : Region) : Addr := r.addr + r.size

/-- The order of the free list: by size, then by address. -/
def before (x y : Region) : Bool :=
  x.size < y.size || (x.size == y.size && x.addr < y.addr)

end Region

/-- The regions found alive, in ascending order of their addresses, and their total size. -/
structure Living where
  regions : List Region
  words : UInt64
deriving DecidableEq, Repr, Inhabited

namespace Living

/-- Nothing found yet. -/
def empty : Living := ⟨[], 0⟩

/-- The recorded size of the region at `addr`. -/
def size? (l : Living) (addr : Addr) : Option UInt64 :=
  (l.regions.find? (·.addr == addr)).map (·.size)

/-- Whether a region starts at `addr`. -/
def contains (l : Living) (addr : Addr) : Bool := (l.size? addr).isSome

/-- Puts a region at its place in a list ordered by address. -/
def insertRegion (r : Region) : List Region → List Region
  | [] => [r]
  | x :: rest => if r.addr < x.addr then r :: x :: rest else x :: insertRegion r rest

/-- Records the region of `size` words at `addr`.  The answer tells whether it was known
    already, in which case nothing below it needs another visit. -/
def found (addr : Addr) (size : UInt64) : EStateM Fault Living Bool := fun l =>
  match l.size? addr with
  | some before =>
    if before = size then .ok true l
    else .error (.broken (.livingSize addr before size)) l
  | none => .ok false ⟨insertRegion ⟨addr, size⟩ l.regions, l.words + size⟩

end Living

end TreeMachine
