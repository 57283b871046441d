import TreeMachine.Compile.Control

/-! # Code generation

  Generating a node first generates the nodes before it in its basic block, then its
  operands, then the node itself.  A node that is reached again while it is being generated
  is an infinite loop, so the depth of the descent is bounded by the number of nodes.
-/

namespace TreeMachine.Compile

open Code (Module Value BinaryOp)

/-- Generates a pointer to, or a copy of, a node that has been generated already. -/
def reference (site : Site) (copy : Bool) : Gen Info := do
  let n := site.node
  let target ← child n 0
  if target = 0 then rejectField .nullAst n 0
  let g ← get
  match g.memo.get? target, g.temps.get? target with
  | some info, _ =>
    if copy then
      let v ← valueOf info
      finish site v info.type info.contract true
    else
      let v ← build (Module.address info.loc.slot info.loc.off)
      let t ← onHeap (Heap.pointerTo info.type)
      finish site v t (.pointingAt info.lifetime) true
  | none, some info =>
    if copy then finish site info.value info.type info.contract true
    else rejectField .pointerToTemporary n 0
  | none, none => rejectField .pointerWithoutTarget n 0

/-- Widens the contract of the slot that a store wrote to, when the destination is a
    pointer node that names it.  The old contents may still be there if the store ran on
    one path only, so the two contracts are merged. -/
def storedInto (dest : Node) (value : Contract) : Gen Unit := do
  if (← look (·.tag dest)) = .pointer then
    let target ← child dest 0
    modify fun g =>
      match g.memo.get? target with
      | some info =>
        { g with memo := g.memo.set target { info with contract := info.contract.merge value } }
      | none => g

/-- Generates a read through a pointer. -/
def loadThrough (site : Site) (pointer : Info) : Gen Info := do
  if (← look (·.kind pointer.type)) ≠ some .pointer then rejectField .typeMismatch site.node 0
  let elem ← look (·.elem pointer.type)
  let addr ← valueOf pointer
  let words ← sizeOf elem
  let v ← build (Module.loadIndirect addr words)
  let holds ← look (·.holdsPointers elem)
  finish site v elem (.loadedThrough pointer.contract holds) true

/-- Generates a write through a pointer. -/
def storeThrough (site : Site) (pointer value : Info) : Gen Info := do
  let n := site.node
  if (← look (·.kind pointer.type)) ≠ some .pointer then rejectField .typeMismatch n 0
  if !(← look (fun h => do h.fits value.type (← h.elem pointer.type))) then
    rejectField .typeMismatch n 1
  if !pointer.contract.mayStore value.contract then
    rejectField .storePointerLifetimeMismatch n 1
  if 0 < (← sizeOf value.type) then
    let addr ← valueOf pointer
    let v ← valueOf value
    build (Module.storeIndirect addr v)
  storedInto (← child n 0) value.contract
  finishVoid site 0

/-- Generates an operation on two words. -/
def arithmetic (site : Site) (op : BinaryOp) (a b : Info) : Gen Info := do
  let x ← valueOf a
  let y ← valueOf b
  let v ← build (Module.binary op x y)
  finishPlain site v (← integer)

/-- Generates an operation on a word and one. -/
def stepByOne (site : Site) (op : BinaryOp) (a : Info) : Gen Info := do
  let x ← valueOf a
  let one ← build (Module.const [1])
  let v ← build (Module.binary op x one)
  finishPlain site v (← integer)

/-- Generates the boxing of a value. -/
def dynamify (site : Site) (a : Info) : Gen Info := do
  let v ←
    if (← sizeOf a.type) = 0 then build (Module.const [0, 0])
    else
      let t ← build (Module.const [a.type])
      let x ← valueOf a
      build (Module.call HostName.dynamify.text [t, x] 2)
  finish site v (← get).heap.types.scalars.dynamic ⟨a.contract.validity, never⟩ true

/-- Generates the node itself, once its operands are there. -/
def dispatch (gen : SubGen) (site : Site) : Tag → List Info → Gen Info
  | .literal, _ => do
    let (t, _) ← look (·.literalValue site.node)
    let ws ← look (·.literalWords site.node)
    finishPlain site (← build (Module.const ws)) t
  | .zero, _ => do
    let v ← build (Module.const [0])
    finishPlain site v (← integer)
  | .increment, [a] => stepByOne site .add a
  | .decrement, [a] => stepByOne site .sub a
  | .add, [a, b] => arithmetic site .add a b
  | .subtract, [a, b] => arithmetic site .sub a b
  | .multiply, [a, b] => arithmetic site .mul a b
  | .udiv, [a, b] => arithmetic site .udiv a b
  | .urem, [a, b] => arithmetic site .urem a b
  | .random, _ => do
    let v ← build (Module.call HostName.random.text [] 1)
    finishPlain site v (← integer)
  | .load, [a] => loadThrough site a
  | .store, [a, b] => storeThrough site a b
  | .dynamify, [a] => dynamify site a
  | .compile, [a] => do
    let x ← valueOf a
    let v ← build (Module.call HostName.compile.text [x] 1)
    finishPlain site v (← get).heap.types.scalars.function
  | .run, [a] => do
    let x ← valueOf a
    let v ← build (Module.call HostName.run.text [x] 2)
    finishPlain site v (← get).heap.types.scalars.dynamic
  | .pointer, _ => reference site false
  | .copy, _ => reference site true
  | .cond, _ => choice gen site
  | .concatenate, _ => concatenation gen site
  | .label, _ => label gen site
  | .goto, _ => jump gen site
  | .block, _ => block gen site
  | _, _ => throw (.fault .outOfBounds)

/-- Generates the operands from field `i` on.  If one of them does not return, the rest is
    unreachable and there is no list of operands. -/
def operands (gen : SubGen) (n : Node) : Nat → List Param → Gen (Option (List Info))
  | _, [] => return some []
  | i, p :: rest => do
    let operand ← child n i
    if operand = 0 then rejectField .nullAst n i
    let f ← gen operand .value nowhere
    if f.type = (← doesNotReturn) then return none
    match p with
    | .checked want =>
      if !(← look (fun h => do h.fits f.type (← h.scalar want.word))) then
        rejectField .typeMismatch n i
    | .unchecked => pure ()
    return (← operands gen n (i + 1) rest).map (f :: ·)

/-- Generates a node other than null. -/
def generateNode (gen : SubGen) (n : Node) (degree : Degree) (storage : Location) : Gen Info := do
  let before ← look (·.preceding n)
  if before ≠ 0 then
    let _ ← gen before .ownSlot nowhere
  let lifetime := (← get).clock
  let depth ← shadowDepth
  modify fun g => { g with clock := g.clock + 1 }
  let storage ←
    if degree = .ownSlot then
      let slot ← build Module.alloca
      pure (Location.mk slot 0)
    else pure storage
  let site : Site := ⟨n, degree, storage, lifetime, depth⟩
  let tag ← look (·.tag n)
  match ← operands gen n 0 tag.schema.params with
  | some infos => dispatch gen site tag infos
  | none => finishVoid site (← doesNotReturn)

/-- Runs a generation while its node counts as active. -/
def whileActive {α : Type} (n : Node) (x : Gen α) : Gen α := fun g =>
  match x { g with active := n :: g.active } with
  | .ok a g => .ok a { g with active := g.active.erase n }
  | .error e g => .error e { g with active := g.active.erase n }

/-- Generates a node, down to a given depth.  A null node has an empty result; whoever asks
    for it decides whether that is an error. -/
def generate : Nat → SubGen
  | depth, n, degree, storage => do
    if n = 0 then return .none
    if (← get).active.contains n then reject .infiniteLoop n
    match depth with
    | 0 => throw (.fault .endless)
    | depth + 1 => whileActive n (generateNode (generate depth) n degree storage)

/-- Generates a root as the body of a function.  The answer is the type of its result. -/
def generateRoot (root : Node) : Gen Ty := do
  if root = 0 then reject .nullAst 0
  let info ← generate (← get).heap.depthBound root .ownSlot nowhere
  let mut v := Value.void
  if 0 < (← sizeOf info.type) then v ← valueOf info
  build (Module.ret v)
  let _ ← look (·.typeText info.type)
  return info.type

/-- The module of a root, ready to be closed, and the type of its result. -/
def compileModule (root : Node) : EStateM (Stop CompileError) Heap (Module × Ty) := fun heap =>
  match generateRoot root (.start heap s!"fn_{root}") with
  | .ok t g => .ok (g.module, t) g.heap
  | .error e g => .error e g.heap

end TreeMachine.Compile
