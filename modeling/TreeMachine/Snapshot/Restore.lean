import TreeMachine.Engine
import TreeMachine.Snapshot.Header
import TreeMachine.Snapshot.Trailer
import TreeMachine.Types.Rebuild

/-! # Saving and loading

  A snapshot is a header, the words of the arena and a trailer.  Addresses are word indices,
  so the words need no relocation.  Loading rebuilds the index of types, registers the roots
  again, compiles every saved function under its old number, and collects, which rebuilds the
  free list and drops the functions that nothing reaches.
-/

namespace TreeMachine

namespace Snapshot

/-- Why bytes give no engine. -/
inductive LoadError where
  | header (e : HeaderError)
  /-- The words of the arena are not all there. -/
  | arenaTruncated (atStart : Bool)
  /-- The trailer is not all there, or its data item is not. -/
  | trailerTruncated (atStart : Bool)
  /-- The trailer is no description of a snapshot. -/
  | trailer
  | types (e : RebuildError)
  | root (e : RootError)
  | functionNumber (id : UInt64)
  /-- The node of a function could not be registered for the time of loading. -/
  | functionRoot (e : RootError)
  | recompile (id : UInt64) (e : Compile.CompileError)
deriving Repr

/-- The wording of a failure. -/
def LoadError.message : LoadError → String
  | header e => e.message
  | arenaTruncated atStart => "vm: corrupt snapshot: arena: " ++ endText atStart
  | trailerTruncated atStart => "vm: corrupt snapshot: trailer: " ++ endText atStart
  | trailer => "vm: corrupt snapshot: trailer"
  | types e => "vm: corrupt snapshot: " ++ e.message
  | root e => "vm: corrupt snapshot: " ++ e.message
  | functionNumber id => s!"vm: corrupt snapshot: function {id}"
  | functionRoot e => e.message
  | recompile id e => s!"vm: snapshot function does not recompile: function {id}: {e.message}"

/-- Adds the bytes of words. -/
def pushWords (out : ByteArray) (ws : Array UInt64) : ByteArray :=
  ws.foldl (fun out w => pushNumber out 8 w.toNat) out

/-- The word whose bytes start at an index. -/
def wordAt (bytes : ByteArray) (i : Nat) : UInt64 :=
  let b (k : Nat) : UInt64 := (bytes[i + k]?.getD 0).toUInt64
  b 0 ||| b 1 <<< 8 ||| b 2 <<< 16 ||| b 3 <<< 24 ||| b 4 <<< 32 ||| b 5 <<< 40 ||| b 6 <<< 48 |||
    b 7 <<< 56

/-- The `count` words whose bytes start at an index. -/
def wordsAt (bytes : ByteArray) (start count : Nat) : Array UInt64 :=
  Array.ofFn (n := count) fun i => wordAt bytes (start + 8 * i.val)

/-- Everything that the bytes of a snapshot say. -/
structure Contents where
  header : Header
  words : Array UInt64
  trailer : Trailer

/-- Why a trailer could not be read. -/
def trailerError : Cbor.Error → LoadError
  | .empty => .trailerTruncated true
  | .truncated => .trailerTruncated false
  | .malformed => .trailer

/-- Reads the bytes of a snapshot.  Bytes after the trailer are ignored. -/
def read (bytes : ByteArray) : Except (Stop LoadError) Contents := do
  let h ← (readHeader bytes).mapError fun e => .error (.header e)
  let count := h.arenaWords + 1
  if Arena.maxWords < count then throw (.fault .outOfBounds)
  let available := bytes.size - headerSize
  let arenaBytes := 8 * count.toNat
  if available < arenaBytes then throw (.error (.arenaTruncated (available == 0)))
  let words := wordsAt bytes headerSize count.toNat
  let start := headerSize + arenaBytes
  let length := h.trailerLength.toNat
  if bytes.size - start < length then
    throw (.error (.trailerTruncated (bytes.size == start)))
  let trailer ← (Trailer.decode (bytes.extract start (start + length)).toList).mapError
    fun e => .error (trailerError e)
  return ⟨h, words, trailer⟩

end Snapshot

namespace Image

open Snapshot (LoadError SavedFunction Trailer)

/-- Registers the saved roots. -/
def restoreRoots : List Root → EStateM (Stop LoadError) Image Unit
  | [] => return ()
  | r :: rest => do
    let _ ← mapStop .root (addRoot r)
    restoreRoots rest

/-- Keeps the nodes of the saved functions alive until they are compiled; the answer is the
    numbers of these roots. -/
def holdFunctions : List SavedFunction → EStateM (Stop LoadError) Image (List UInt64)
  | [] => return []
  | f :: rest => do
    let image ← get
    if f.id = 0 ∨ UInt64.ofNat image.pool.capacity < f.id then
      throw (.error (.functionNumber f.id))
    let id ← mapStop .functionRoot (addRoot (.ofWords image.heap.types.scalars.ast [f.ast]))
    return id :: (← holdFunctions rest)

/-- Compiles the saved functions under their old numbers. -/
def restoreFunctions : List SavedFunction → EStateM (Stop LoadError) Image Unit
  | [] => return ()
  | f :: rest => do
    let (compiled, _) ← mapStop (.recompile f.id) (build f.ast)
    onPool (Pool.install f.id compiled : EStateM Fault Pool Unit)
    restoreFunctions rest

/-- Brings an image to the saved state.  The nodes of the functions stay alive through the
    first collection, which frees the words that compilation allocates from. -/
def restore (words : Array UInt64) (t : Trailer) : EStateM (Stop LoadError) Image Unit := do
  (onArena (Arena.restore words) : ImageM Unit)
  mapStop .types (onHeap (Heap.rebuild t.types))
  restoreRoots t.roots
  let held ← holdFunctions t.functions
  let _ ← collect
  restoreFunctions t.functions
  for id in held do
    let _ ← modifyGet (removeRoot id)
  let _ ← collect

/-- What a snapshot of the image says besides the words. -/
def trailer (image : Image) : Trailer where
  types := image.heap.types.all
  roots := image.collector.values
  functions := image.pool.occupied.filterMap fun id =>
    (image.pool.get? id).map fun f => ⟨id, f.ast⟩

end Image

namespace Engine

open Snapshot (Header LoadError)

/-- The header of a snapshot whose trailer has the given length. -/
def header (e : Engine) (trailerLength : Nat) : Header where
  version := Snapshot.version
  flags := 0
  functionSlots := UInt32.ofNat e.image.pool.capacity
  arenaWords := e.image.heap.arena.capacity
  trailerLength := UInt64.ofNat trailerLength
  finiteness := e.options.finiteness

/-- The bytes of a snapshot.  Garbage is saved along with everything else. -/
def save (e : Engine) : ByteArray :=
  let trailer := e.image.trailer.encode
  let out := Snapshot.pushWords (e.header trailer.length).encode e.image.heap.arena.words
  trailer.foldl ByteArray.push out

/-- An engine from the bytes of a snapshot.  The sizes come from the snapshot, and so does
    the budget if the options give none. -/
def load (bytes : ByteArray) (o : EngineOptions) : Except (Stop LoadError) Engine := do
  let contents ← Snapshot.read bytes
  let h := contents.header
  let o := { o with
    arenaWords := h.arenaWords
    functions := h.functionSlots.toNat
    finiteness := if o.finiteness = 0 then h.finiteness else o.finiteness }
  let e ← (create o).mapError .fault
  match onImage (Image.restore contents.words contents.trailer) e with
  | .ok _ e => return e
  | .error stop _ => throw stop

end Engine

end TreeMachine
