import TreeMachine.Collect.Collect
import TreeMachine.Random
import TreeMachine.Source.Printer
import TreeMachine.Source.Reader

/-! # The engine

  An engine reads, compiles and runs programs on one image.  Every evaluation has a budget:
  each invocation of a function and each jump back spends one unit of it, so evaluation
  always ends.
-/

namespace TreeMachine

open Code (RunError Run Host Memory)
open Compile (CompileError HostName)
open Source (ReadError)

/-- The sizes of an engine. -/
structure EngineOptions where
  arenaWords : UInt64
  functions : Nat
  /-- The number of invocations and jumps back that one evaluation may perform. -/
  finiteness : UInt64
  /-- The seed of the random words. -/
  seed : UInt64
  /-- Whether programs are written out before they are compiled. -/
  trace : Bool
deriving DecidableEq, Repr, Inhabited

namespace EngineOptions

/-- The arena size where none is given. -/
def defaultArenaWords : UInt64 := 1048576

/-- The number of functions where none is given. -/
def defaultFunctions : Nat := 1024

/-- The budget where none is given. -/
def defaultFiniteness : UInt64 := 1000

/-- The options with the defaults in the place of zeros. -/
def withDefaults (o : EngineOptions) : EngineOptions :=
  { o with
    arenaWords := if o.arenaWords = 0 then defaultArenaWords else o.arenaWords
    functions := if o.functions = 0 then defaultFunctions else o.functions
    finiteness := if o.finiteness = 0 then defaultFiniteness else o.finiteness }

end EngineOptions

/-- A boxed value: a type, and the object that holds its words.  A value without words has
    no object. -/
structure Boxed where
  type : Ty
  object : Addr
deriving DecidableEq, Repr, Inhabited

/-- Why an evaluation has no value. -/
inductive EngineError where
  | read (e : ReadError)
  | compile (e : CompileError)
  | unknownFunction (id : UInt64)
  /-- The budget was spent before the invocation. -/
  | exhausted
  /-- A function stopped with an error. -/
  | running (id : UInt64) (e : RunError)
  /-- A value of the type written `type` takes `size` words. -/
  | boxSize (type : String) (size : UInt64) (given : Nat)
deriving Repr

/-- The wording of an error. -/
def EngineError.message : EngineError → String
  | read e => e.message
  | compile e => e.message
  | unknownFunction id => s!"vm: unknown function: {id}"
  | exhausted => "vm: finiteness exhausted"
  | running id e => s!"vm: run function {id}: {e.message}"
  | boxSize type size given => s!"vm: {type} value needs {size} words, got {given}"

/-- The resource use of an engine. -/
structure EngineStats where
  arenaWords : UInt64
  freeWords : UInt64
  types : Nat
  functions : Nat
  modules : Nat
  roots : Nat
  collections : UInt64
deriving DecidableEq, Repr

/-- An image and what evaluation needs besides. -/
structure Engine where
  options : EngineOptions
  image : Image
  random : Random
  /-- What is left of the budget. -/
  remaining : UInt64
deriving Inhabited

/-- Operations of an engine. -/
abbrev EngineM := EStateM (Stop EngineError) Engine

namespace Engine

/-- An engine with an empty heap. -/
def create (o : EngineOptions) : Except Fault Engine := do
  let o := o.withDefaults
  return ⟨o, ← Image.create o.arenaWords o.functions, .ofSeed o.seed, 0⟩

/-! ### Access to the image -/

/-- Runs an operation of the image. -/
@[inline] def onImage {ε α : Type} (x : EStateM ε Image α) : EStateM ε Engine α :=
  fun ⟨options, image, random, remaining⟩ =>
    match x image with
    | .ok a image => .ok a ⟨options, image, random, remaining⟩
    | .error e image => .error e ⟨options, image, random, remaining⟩

/-- Runs an operation of the heap. -/
@[inline] def onHeap {ε α : Type} (x : EStateM ε Heap α) : EStateM ε Engine α :=
  onImage (Image.onHeap x)

/-- Reads the heap. -/
def look {ε α : Type} (f : Heap → Except Fault α) : EStateM (Stop ε) Engine α := fun e =>
  match f e.image.heap with
  | .ok a => .ok a e
  | .error b => .error (.fault b) e

/-- Does something that may only fault to the heap. -/
def change {ε α : Type} (x : HeapM α) : EStateM (Stop ε) Engine α :=
  (onHeap x : EStateM Fault Engine α)

/-! ### Values -/

/-- Copies words into a new object of type `t`. -/
def box (t : Ty) (ws : List UInt64) : EngineM Boxed := do
  let size ← look (·.size t)
  if UInt64.ofNat ws.length ≠ size then
    throw (.error (.boxSize (← look (·.typeText t)) size ws.length))
  if size = 0 then return ⟨t, 0⟩
  let object ← change (Heap.allocate size)
  change (Heap.setWords object ws)
  return ⟨t, object⟩

/-- The words of a boxed value. -/
def words (e : Engine) (d : Boxed) : Except Fault (List UInt64) := do
  let size ← e.image.heap.size d.type
  if size = 0 ∨ d.object = 0 then return [] else e.image.heap.slice d.object size

/-- The text of a boxed value: its type and its words. -/
def format (e : Engine) (d : Boxed) : Except Fault String := do
  let type ← e.image.heap.typeText d.type
  let ws ← e.words d
  return type ++ ":" ++ String.join (ws.map fun w => s!" {w}")

/-! ### Compiling -/

/-- Reads a program. -/
def parse (text : List UInt8) : EngineM Node := mapStop .read (onHeap (Source.read text))

/-- Compiles a root into a function. -/
def compile (root : Node) : EngineM UInt64 := do
  if (← get).options.trace then
    let _ ← look (Source.print · root)
  mapStop .compile (onImage (Image.compile root))

/-! ### Host functions -/

/-- Turns an error into no answer; a fault stays a fault. -/
def attempt {ε ε' σ α : Type} (x : EStateM (Stop ε) σ α) : EStateM (Stop ε') σ (Option α) :=
  fun s => match x s with
    | .ok a s => .ok (some a) s
    | .error (.error _) s => .ok none s
    | .error (.fault f) s => .error (.fault f) s

/-- Spends a unit of the budget and answers one, or answers zero when none is left. -/
def spend : Run Engine (List UInt64) := fun e =>
  if e.remaining = 0 then .ok [0] e
  else .ok [1] { e with remaining := e.remaining - 1 }

/-- Answers a random word. -/
def draw : Run Engine (List UInt64) := fun e =>
  let (w, random) := e.random.next
  .ok [w] { e with random }

/-- Boxes a value that is given after its type. -/
def dynamify : List UInt64 → Run Engine (List UInt64)
  | [] => Code.stop (.outside "dynamify: missing type word")
  | t :: ws => do
    let d ← mapStop (fun e => RunError.outside e.message) (box t ws)
    return [d.type, d.object]

/-- The first argument of a host function. -/
def firstArg : List UInt64 → Run Engine UInt64
  | [] => throw (.fault .outOfBounds)
  | w :: _ => return w

/-- Compiles a node and answers a function number, or zero if it does not compile. -/
def compileAtRunTime (args : List UInt64) : Run Engine (List UInt64) := do
  let id ← attempt (compile (← firstArg args))
  return [id.getD 0]

/-- Runs a function and answers its boxed result, or two zeros if it cannot run. -/
def runAtRunTime (run : UInt64 → EngineM Boxed) (args : List UInt64) :
    Run Engine (List UInt64) := do
  let d ← attempt (run (← firstArg args))
  return match d with
    | some d => [d.type, d.object]
    | none => [0, 0]

/-- Refuses addresses outside the arena.  The sum wraps around. -/
def checkAddress (addr : UInt64) (count : Int) : Run Engine Unit := do
  let limit := (← get).image.heap.arena.limit
  if addr = 0 ∨ count < 0 ∨ limit < addr + UInt64.ofInt count then
    Code.stop (.arenaAddress addr count)

/-- The arena as the memory of running code. -/
def arenaMemory : Memory Engine where
  load addr count := do
    checkAddress addr count
    look (·.slice addr (UInt64.ofInt count))
  store addr ws := do
    checkAddress addr ws.length
    change (Heap.setWords addr ws)

/-- What running code can reach; `run` invokes a function. -/
def host (run : UInt64 → EngineM Boxed) : Host Engine where
  function? name :=
    if name = HostName.finiteness.text then some fun _ => spend
    else if name = HostName.random.text then some fun _ => draw
    else if name = HostName.dynamify.text then some dynamify
    else if name = HostName.compile.text then some compileAtRunTime
    else if name = HostName.run.text then some (runAtRunTime run)
    else none
  memory := some arenaMemory

/-! ### Running -/

/-- The number of blocks that a program can enter with a budget: between two jumps back it
    enters no block twice. -/
def blockBound (p : Code.Program) (budget : UInt64) : Nat :=
  (p.blocks.size + 1) * (budget.toNat + 1)

/-- Runs the program at an entry. -/
def invoke (run : UInt64 → EngineM Boxed) (entry : UInt64) : Run Engine (List UInt64) := do
  let e ← get
  match e.image.machine.program? entry with
  | none => Code.stop (.unknownEntry entry)
  | some p =>
    let bound := blockBound p e.remaining
    p.run (host run) bound

/-- Spends a unit of the budget and invokes a function.  Invocations nest no deeper than
    the budget, which `depth` has to cover. -/
def runWithin : Nat → UInt64 → EngineM Boxed
  | depth, id => do
    match (← get).image.pool.get? id with
    | none => throw (.error (.unknownFunction id))
    | some f =>
      if (← get).remaining = 0 then throw (.error .exhausted)
      match depth with
      | 0 => throw (.error .exhausted)
      | depth + 1 =>
        modify fun e => { e with remaining := e.remaining - 1 }
        let ws ← mapStop (.running id) (invoke (runWithin depth) f.entry)
        box f.returnType ws

/-- Runs a function with a fresh budget and boxes its result. -/
def run (id : UInt64) : EngineM Boxed := do
  let budget := (← get).options.finiteness
  modify fun e => { e with remaining := budget }
  runWithin budget.toNat id

/-- Compiles and runs a node. -/
def eval (root : Node) : EngineM Boxed := do
  run (← compile root)

/-- Reads, compiles and runs a text. -/
def evalText (text : List UInt8) : EngineM Boxed := do
  eval (← parse text)

/-! ### Roots and collection -/

/-- Keeps a boxed value alive. -/
def keep (d : Boxed) : EStateM (Stop RootError) Engine UInt64 := do
  let dynamic := (← get).image.heap.types.scalars.dynamic
  onImage (Image.addRoot (.ofWords dynamic [d.type, d.object]))

/-- Collects. -/
def collect : EStateM Fault Engine CollectStats := onImage Image.collect

/-- The resource use; the free words only show garbage after a collection. -/
def stats (e : Engine) : EngineStats where
  arenaWords := e.image.heap.arena.capacity
  freeWords := e.image.heap.arena.freeWords
  types := e.image.heap.types.count
  functions := e.image.pool.size
  modules := e.image.machine.loaded
  roots := e.image.collector.roots.length
  collections := e.image.collector.collections

end Engine

end TreeMachine
