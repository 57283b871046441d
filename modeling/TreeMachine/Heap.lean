import TreeMachine.Arena.Basic

/-! # The heap

  The arena together with the index of the types whose records it holds.  Type handles and
  node handles are addresses of records; the null address is the empty type and the null
  node.
-/

namespace TreeMachine

/-- A type: the address of its record, or zero for the empty type. -/
abbrev Ty := UInt64

/-- A node: the address of its record, or zero for no node. -/
abbrev Node := UInt64

/-- The handles of the scalar types. -/
structure Scalars where
  integer : Ty
  doesNotReturn : Ty
  dynamic : Ty
  ast : Ty
  type : Ty
  function : Ty
deriving DecidableEq, Repr, Inhabited

/-- The index of all types. -/
structure TypeTable where
  /-- Every type with the hash of its record, oldest first. -/
  entries : List (UInt64 × Ty)
  scalars : Scalars
deriving DecidableEq, Inhabited

namespace TypeTable

/-- No types yet. -/
def empty : TypeTable := ⟨[], ⟨0, 0, 0, 0, 0, 0⟩⟩

/-- The number of types. -/
def count (t : TypeTable) : Nat := t.entries.length

/-- All types in ascending order. -/
def all (t : TypeTable) : List Ty := (t.entries.map (·.2)).mergeSort (· ≤ ·)

end TypeTable

/-- An arena and the types recorded in it. -/
structure Heap where
  arena : Arena
  types : TypeTable
deriving DecidableEq, Inhabited

/-- Operations on the heap that may only fault. -/
abbrev HeapM := EStateM Fault Heap

namespace Heap

/-- Runs an operation of the arena. -/
@[inline] def onArena {ε α : Type} (x : EStateM ε Arena α) : EStateM ε Heap α :=
  fun ⟨arena, types⟩ =>
    match x arena with
    | .ok a arena => .ok a ⟨arena, types⟩
    | .error e arena => .error e ⟨arena, types⟩

/-- Allocates words. -/
def allocate (n : UInt64) : HeapM Addr := onArena (Arena.allocate n)

/-- Writes one word. -/
def setWord (addr : Addr) (w : UInt64) : HeapM Unit := onArena (Arena.setWord addr w)

/-- Writes several words. -/
def setWords (addr : Addr) (ws : List UInt64) : HeapM Unit := onArena (Arena.setWords addr ws)

/-- Looks at the heap without changing it. -/
@[inline] def peek {α : Type} (f : Heap → Except Fault α) : HeapM α := inspect f

/-- The word at `addr`. -/
def word (h : Heap) (addr : Addr) : Except Fault UInt64 := h.arena.word addr

/-- The `n` words from `addr` on. -/
def slice (h : Heap) (addr : Addr) (n : UInt64) : Except Fault (List UInt64) :=
  h.arena.slice addr n

/-- A chain of distinct records is never longer than this. -/
def depthBound (h : Heap) : Nat := h.arena.words.size + 1

end Heap

end TreeMachine
