import TreeMachine.Compile.Generator

/-! # Control flow

  Choices, concatenations, labels, jumps and blocks generate their sub-nodes themselves;
  each takes the generator of sub-nodes as an argument.
-/

namespace TreeMachine.Compile

open Code (Module Value)

/-- Generates a sub-node. -/
abbrev SubGen := Node → Degree → Location → Gen Info

/-- The host functions that generated code calls. -/
inductive HostName where
  /-- Answers one and spends a unit of the budget, or answers zero when it is spent. -/
  | finiteness
  /-- Answers a random word. -/
  | random
  /-- Takes a type and a value, and answers a dynamic pointer to it. -/
  | dynamify
  /-- Takes a node and answers a function number, or zero. -/
  | compile
  /-- Takes a function number and answers its boxed result, or two zeros. -/
  | run
deriving DecidableEq, Repr

/-- How a host function is called. -/
def HostName.text : HostName → String
  | finiteness => "finiteness"
  | random => "random"
  | dynamify => "dynamify"
  | compile => "compile"
  | run => "run"

/-- No place in particular. -/
def nowhere : Location := ⟨0, 0⟩

/-- The degree and the storage for a sub-node whose result becomes the node's own. -/
def branchTarget (site : Site) : Degree × Location :=
  if site.degree = .value then (.value, nowhere) else (.storeInto, site.storage)

/-- Delivers the result of a sub-node that was generated for `branchTarget`. -/
def passThrough (site : Site) (sub : Info) : Gen Info := do
  if site.degree = .value then
    let mut v := Value.void
    if 0 < (← sizeOf sub.type) then v ← valueOf sub
    finish site v sub.type sub.contract true
  else finish site .void sub.type sub.contract false

/-! ### Choice -/

/-- Generates one branch of a choice.  The answer is its result, its value if one is
    wanted, and the block in which it ends. -/
def choiceBranch (gen : SubGen) (site : Site) (start merge i depth : Nat) :
    Gen (Info × Value × Nat) := do
  let (degree, storage) := branchTarget site
  build (Module.setInsertPoint start)
  let r ← gen (← child site.node i) degree storage
  let mut v := Value.void
  if degree = .value then
    if r.type ≠ (← doesNotReturn) then
      if 0 < (← sizeOf r.type) then v ← valueOf r
  clearStack depth
  let stop := (← get).module.cur
  build (Module.branch merge)
  return (r, v, stop)

/-- The type of a choice between results of two types. -/
def choiceType (n : Node) (thenType elseType : Ty) : Gen Ty := do
  if ← look (·.fits elseType thenType) then return thenType
  if ← look (·.fits thenType elseType) then return elseType
  rejectField .typeMismatch n 2

/-- Generates a choice.  Each branch sees the shadow stack as it was before, since only one
    of them runs. -/
def choice (gen : SubGen) (site : Site) : Gen Info := do
  let n := site.node
  let condNode ← child n 0
  if condNode = 0 then rejectField .nullAst n 0
  let cond ← gen condNode .value nowhere
  let never ← doesNotReturn
  if cond.type = never then return ← finishVoid site cond.type
  if !(← look (fun h => h.fits cond.type h.types.scalars.integer)) then
    rejectField .typeMismatch n 0
  let thenBlock ← build (Module.newBlock "then")
  let elseBlock ← build (Module.newBlock "else")
  let merge ← build (Module.newBlock "merge")
  let tested ← valueOf cond
  let zero ← build (Module.const [0])
  let differs ← build (Module.binary .ne tested zero)
  build (Module.branchIf differs thenBlock elseBlock)
  let depth ← shadowDepth
  let (r₁, v₁, end₁) ← choiceBranch gen site thenBlock merge 1 depth
  let (r₂, v₂, end₂) ← choiceBranch gen site elseBlock merge 2 depth
  build (Module.setInsertPoint merge)
  let t ← choiceType n r₁.type r₂.type
  let c := r₁.contract.merge r₂.contract
  if site.degree ≠ .value then return ← finish site .void t c false
  if (← sizeOf t) = 0 then return ← finish site .void t c false
  let v ←
    if r₁.type = never then pure v₂
    else if r₂.type = never then pure v₁
    else build (Module.phi v₁ end₁ v₂ end₂)
  finish site v t c true

/-! ### Concatenation -/

/-- Generates two halves next to each other in one slot.  A half without words takes no
    room. -/
def concatenation (gen : SubGen) (site : Site) : Gen Info := do
  let storage ←
    if site.degree = .value then
      let slot ← build Module.alloca
      pure (Location.mk slot 0)
    else pure site.storage
  let never ← doesNotReturn
  let left ← gen (← child site.node 0) .storeInto storage
  if left.type = never then return ← finishVoid site left.type
  let middle := storage.off + (← sizeOf left.type)
  let right ← gen (← child site.node 1) .storeInto ⟨storage.slot, middle⟩
  if right.type = never then return ← finishVoid site right.type
  let stop := middle + (← sizeOf right.type)
  let t ← onHeap (Heap.concatenate [left.type, right.type])
  let c := left.contract.merge right.contract
  if site.degree = .value then
    let v ← build (Module.load storage.slot storage.off (stop - storage.off))
    finish site v t c true
  else finish site .void t c false

/-! ### Labels and jumps -/

/-- Records where a label is. -/
def setLabel (n : Node) (info : LabelInfo) : Gen Unit :=
  modify fun g => { g with labels := g.labels.set n info }

/-- Generates the body of a label and places its target after it.  A jump inside the body
    leads forward out of it; a jump after it leads back. -/
def label (gen : SubGen) (site : Site) : Gen Info := do
  let n := site.node
  if (← get).labels.contains n then reject .labelDuplication n
  let target ← build (Module.newBlock "label")
  setLabel n ⟨target, true⟩
  let body ← child n 0
  if body ≠ 0 then
    let _ ← gen body .ownSlot nowhere
  setLabel n ⟨target, false⟩
  build (Module.branch target)
  build (Module.setInsertPoint target)
  finishVoid site 0

/-- Generates a jump to a label.  A jump back spends a unit of the budget; when there is
    none left, the failure branch runs instead.  The shadow stack drops only what the
    success branch made, since the way past the jump still sees everything else. -/
def jump (gen : SubGen) (site : Site) : Gen Info := do
  let n := site.node
  let target ← child n 0
  if target = 0 then rejectField .nullAst n 0
  match (← get).labels.get? target with
  | none => rejectField .missingLabel n 0
  | some lbl =>
    if lbl.forward then
      build (Module.branch lbl.target)
      let after ← build (Module.newBlock "after_goto")
      build (Module.setInsertPoint after)
      return ← finishVoid site (← doesNotReturn)
    let again ← build (Module.newBlock "again")
    let exhausted ← build (Module.newBlock "exhausted")
    let granted ← build (Module.call HostName.finiteness.text [] 1)
    build (Module.branchIf granted again exhausted)
    build (Module.setInsertPoint again)
    let depth ← shadowDepth
    let success ← child n 1
    if success ≠ 0 then
      let _ ← gen success .ownSlot nowhere
    clearStack depth
    build (Module.branch lbl.target)
    build (Module.setInsertPoint exhausted)
    let (degree, storage) := branchTarget site
    let failure ← gen (← child n 2) degree storage
    passThrough site failure

/-! ### Blocks -/

/-- Generates nodes for what they do, each in a slot of its own. -/
def statements (gen : SubGen) : List Node → Gen Unit
  | [] => return ()
  | n :: rest => do
    let _ ← gen n .ownSlot nowhere
    statements gen rest

/-- Generates the elements of a block.  The last one is generated as a value and becomes
    the result, so it may name a node that an earlier element placed in a slot. -/
def block (gen : SubGen) (site : Site) : Gen Info := do
  let elems ← look (·.elements site.node)
  match elems.getLast? with
  | none => finishVoid site 0
  | some lastNode =>
    statements gen elems.dropLast
    let last ← gen lastNode .value nowhere
    let mut v := Value.void
    if last.type ≠ (← doesNotReturn) then
      if 0 < (← sizeOf last.type) then v := last.value
    finish site v last.type last.contract true

end TreeMachine.Compile
