import TreeMachine.Types.Intern

/-! # Rebuilding the type index

  A restored arena holds type records but no index.  Rebuilding checks the records that
  are said to be types and indexes them.
-/

namespace TreeMachine

/-- Why a list of addresses is no list of types. -/
inductive RebuildError where
  | addressOutOfRange (t : Ty)
  | unknownKind (t : Ty) (kindWord : UInt64)
  | truncatedPointer (t : Ty)
  | unknownElement (t : Ty) (elem : Ty)
  | truncatedConcatenation (t : Ty)
  | memberCount (t : Ty) (n : UInt64)
  | unknownMember (t : Ty) (member : Ty)
  | duplicate (t : Ty) (first : Ty)
deriving DecidableEq, Repr

/-- The wording of a refusal. -/
def RebuildError.message : RebuildError → String
  | addressOutOfRange t => s!"type address {t} out of range"
  | unknownKind t kindWord => s!"type record at {t}: tag {kindWord}"
  | truncatedPointer t => s!"type record at {t}: truncated pointer"
  | unknownElement t elem => s!"type record at {t}: unknown element type {elem}"
  | truncatedConcatenation t => s!"type record at {t}: truncated concatenation"
  | memberCount t n => s!"type record at {t}: {n} members"
  | unknownMember t member => s!"type record at {t}: unknown member type {member}"
  | duplicate t first => s!"type record at {t} duplicates {first}"

namespace Heap

/-- Reading where both faults and refusals can happen. -/
abbrev Checked := Except (Stop RebuildError)

/-- A read that may only fault. -/
def sound {α : Type} : Except Fault α → Checked α
  | .ok a => .ok a
  | .error f => .error (.fault f)

/-- A refusal. -/
def refuse {α : Type} (e : RebuildError) : Checked α := .error (.error e)

/-- Checks that the record at `t` has a known kind, lies inside the arena and refers to
    types in `known` only. -/
def checkRecord (h : Heap) (known : List Ty) (t : Ty) : Checked Unit := do
  let capacity := h.arena.capacity
  if t = 0 ∨ capacity < t then refuse (.addressOutOfRange t)
  let w ← sound (h.word t)
  match Kind.ofWord? w with
  | none => refuse (.unknownKind t w)
  | some .pointer =>
    if capacity < t + 1 then refuse (.truncatedPointer t)
    let elem ← sound (h.word (t + 1))
    if !known.contains elem then refuse (.unknownElement t elem)
  | some .concatenation =>
    if capacity < t + 1 then refuse (.truncatedConcatenation t)
    let n ← sound (h.word (t + 1))
    if n < 2 ∨ capacity < n ∨ capacity < t + 1 + n then refuse (.memberCount t n)
    match (← sound (h.slice (t + 2) n)).find? fun m => !known.contains m with
    | some m => refuse (.unknownMember t m)
    | none => return ()
  | some _ => return ()

/-- Checks the records of a list of addresses, in order. -/
def checkRecords (h : Heap) (known : List Ty) : List Ty → Checked Unit
  | [] => .ok ()
  | t :: rest => do
    h.checkRecord known t
    h.checkRecords known rest

/-- Indexes the records of a list of addresses, in order; none may equal an earlier one. -/
def indexRecords : List Ty → EStateM (Stop RebuildError) Heap Unit
  | [] => return ()
  | t :: rest => do
    let ws ← peek (·.typeRecord t)
    if let some first ← peek (·.lookup ws) then
      throw (.error (.duplicate t first))
    addEntry t ws
    indexRecords rest

/-- Forgets all types and indexes those at the given addresses, whose records are in the
    arena already.  Scalar types that are missing are made. -/
def rebuild (all : List Ty) : EStateM (Stop RebuildError) Heap Unit := do
  inspect (·.checkRecords all all)
  modify fun ⟨arena, types⟩ => ⟨arena, { types with entries := [] }⟩
  indexRecords all
  internScalars

end Heap

end TreeMachine
