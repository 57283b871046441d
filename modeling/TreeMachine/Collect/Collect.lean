import TreeMachine.Collect.Mark
import TreeMachine.Image

/-! # Roots and collection

  The roots of a collection are all types, all registered values, and whatever those reach.
  The words outside the living regions become free, and functions that were not reached are
  dropped together with their modules.
-/

namespace TreeMachine

/-- The refusal of a root whose number of words is wrong; `type` is how its type is
    written. -/
structure RootError where
  type : String
  size : UInt64
  given : Nat
deriving DecidableEq, Repr

/-- The wording of the refusal. -/
def RootError.message (e : RootError) : String :=
  s!"gc: root of {e.type} needs {e.size} words, got {e.given}"

namespace Collector

/-- The registered values, in the order of their numbers. -/
def values (c : Collector) : List Root := c.roots.map (·.2)

/-- Registers a value. -/
def add (r : Root) (c : Collector) : UInt64 × Collector :=
  let id := c.lastRoot + 1
  (id, { c with roots := c.roots ++ [(id, r)], lastRoot := id })

/-- Removes a root; the answer tells whether there was one. -/
def remove (id : UInt64) (c : Collector) : Bool × Collector :=
  (c.roots.any (·.1 == id), { c with roots := c.roots.filter (·.1 != id) })

end Collector

namespace Image

/-- Runs an operation of the collector's records. -/
def onCollector {α : Type} (f : Collector → α × Collector) (image : Image) : α × Image :=
  let (a, collector) := f image.collector
  (a, { image with collector })

/-- Keeps a value, and everything it reaches, alive. -/
def addRoot (r : Root) : EStateM (Stop RootError) Image UInt64 := do
  let size ← (inspect fun image => image.heap.size r.type : ImageM _)
  if UInt64.ofNat r.toWords.length ≠ size then
    let type ← (inspect fun image => image.heap.typeText r.type : ImageM _)
    throw (.error ⟨type, size, r.toWords.length⟩)
  modifyGet (onCollector (Collector.add r))

/-- Drops a root; the answer tells whether there was one. -/
def removeRoot (id : UInt64) (image : Image) : Bool × Image :=
  onCollector (Collector.remove id) image

/-! ### Sweeping -/

/-- Unloads modules in order; the answer tells for each whether the machine knew it. -/
def unloadAll : List Code.Handle → Machine → List Bool × Machine
  | [], m => ([], m)
  | handle :: rest, m =>
    let tail := unloadAll rest (m.remove handle)
    (m.knows handle :: tail.1, tail.2)

/-- Drops the functions that were not visited, and their modules.  The answer is their
    number, and for each module whether the machine knew it. -/
def sweep (marks : Marks) (image : Image) : (Nat × List Bool) × Image :=
  let (dropped, pool) := image.pool.sweep marks
  let (unloads, machine) := unloadAll (dropped.filterMap (·.handle)) image.machine
  ((dropped.length, unloads), { image with pool, machine })

/-! ### Collecting -/

/-- What marking starts from: all types, then the registered values. -/
def rootTargets (image : Image) : List Collect.Target :=
  image.heap.types.all.map .type ++ image.collector.values.map fun r => .value r.toWords r.type

/-- What a collection would find alive. -/
def mark (image : Image) : Except Fault Collect.Found :=
  Collect.markTargets image.heap image.pool image.rootTargets

/-- Counts a complete collection. -/
def recordCollection (living : Living) (swept : Nat) (image : Image) : CollectStats × Image :=
  let stats : CollectStats :=
    ⟨living.regions.length, living.words, image.heap.arena.freeWords, swept⟩
  let c := image.collector
  (stats, { image with collector :=
    { c with collections := c.collections + 1, living := some living, last := some stats } })

/-- Collects.  The answer also tells for each unloaded module whether the machine knew it. -/
def collectReporting : ImageM (CollectStats × List Bool) := do
  onArena Arena.beginCollection
  let found ← inspect mark
  onArena (Arena.endCollection found.living)
  let (swept, unloads) ← modifyGet (sweep found.marks)
  let stats ← modifyGet (recordCollection found.living swept)
  return (stats, unloads)

/-- Collects. -/
def collect : ImageM CollectStats := do
  let (stats, _) ← collectReporting
  return stats

end Image

end TreeMachine
