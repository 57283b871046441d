import TreeMachine.Compile.Generate
import TreeMachine.Pool

/-! # The image

  Everything that a snapshot can bring back: the heap, the compiled functions, the loaded
  programs, and the values that are kept alive.
-/

namespace TreeMachine

open Compile (CompileError)
open Code (Module)

/-- A value that is kept alive. -/
structure Root where
  type : Ty
  /-- The words of the value.  A value without words may come with an empty list or with
      none; a snapshot keeps the two apart. -/
  words : Option (List UInt64)
deriving DecidableEq, Repr, Inhabited

namespace Root

/-- The root of a value that is given by its words. -/
def ofWords (type : Ty) (ws : List UInt64) : Root := ⟨type, if ws.isEmpty then none else some ws⟩

/-- The words of the value. -/
def toWords (r : Root) : List UInt64 := r.words.getD []

end Root

/-- What one collection did. -/
structure CollectStats where
  liveObjects : Nat
  liveWords : UInt64
  freeWords : UInt64
  /-- The number of functions that were dropped. -/
  swept : Nat
deriving DecidableEq, Repr, Inhabited

/-- The roots, and a record of collections. -/
structure Collector where
  /-- The roots by their numbers, ascending. -/
  roots : List (UInt64 × Root)
  /-- The last number given to a root. -/
  lastRoot : UInt64
  /-- The number of complete collections. -/
  collections : UInt64
  /-- What the last collection found alive. -/
  living : Option Living
  last : Option CollectStats
deriving Inhabited

/-- No roots and no collections. -/
def Collector.empty : Collector := ⟨[], 0, 0, none, none⟩

/-- The state of the whole system, apart from a running evaluation. -/
structure Image where
  heap : Heap
  machine : Machine
  pool : Pool
  collector : Collector
deriving Inhabited

/-- Operations on the image that may only fault. -/
abbrev ImageM := EStateM Fault Image

namespace Image

/-- Runs an operation of the heap. -/
@[inline] def onHeap {ε α : Type} (x : EStateM ε Heap α) : EStateM ε Image α :=
  fun ⟨heap, machine, pool, collector⟩ =>
    match x heap with
    | .ok a heap => .ok a ⟨heap, machine, pool, collector⟩
    | .error e heap => .error e ⟨heap, machine, pool, collector⟩

/-- Runs an operation of the arena. -/
@[inline] def onArena {ε α : Type} (x : EStateM ε Arena α) : EStateM ε Image α :=
  onHeap (Heap.onArena x)

/-- Runs an operation of the function pool. -/
@[inline] def onPool {ε α : Type} (x : EStateM ε Pool α) : EStateM ε Image α :=
  fun ⟨heap, machine, pool, collector⟩ =>
    match x pool with
    | .ok a pool => .ok a ⟨heap, machine, pool, collector⟩
    | .error e pool => .error e ⟨heap, machine, pool, collector⟩

/-- An image without types. -/
def bare (words : UInt64) (functions : Nat) : Except Fault Image := do
  return ⟨← Heap.bare words, .empty, .create functions, .empty⟩

/-- An image that knows the scalar types. -/
def create (words : UInt64) (functions : Nat) : Except Fault Image := do
  return ⟨← Heap.create words, .empty, .create functions, .empty⟩

/-! ### Compiling -/

/-- Loads a program. -/
def load (p : Code.Program) (image : Image) : UInt64 × Image :=
  let (entry, machine) := image.machine.install p
  (entry, { image with machine })

/-- Compiles a root and loads the program.  The answer is the function, which is not in the
    pool yet, and its module before it was closed. -/
def build (root : Node) : EStateM (Stop CompileError) Image (Function × Module) := do
  let (m, returnType) ← onHeap (Compile.compileModule root)
  match m.finalize with
  | .error e => throw (.error (.finalize root m.name e))
  | .ok (program, _) =>
    let entry ← modifyGet (load program)
    return (⟨root, returnType, 0, entry, some (.issued entry)⟩, m)

/-- Compiles a root into a function of the pool.  If it fails, nothing has been loaded;
    types made along the way are left to the collector. -/
def compile (root : Node) : EStateM (Stop CompileError) Image UInt64 := do
  let (f, _) ← build root
  onPool (Pool.allocate f)

end Image

end TreeMachine
