import TreeMachine.Code.Module
import TreeMachine.Heap

/-! # Why a node does not compile -/

namespace TreeMachine.Compile

/-- The reasons for which a node is rejected. -/
inductive Rejection where
  | infiniteLoop
  | activeObjectDuplication
  | typeMismatch
  | nullAst
  | pointerWithoutTarget
  | pointerToTemporary
  | missingLabel
  | labelDuplication
  | storePointerLifetimeMismatch
deriving DecidableEq, Repr

namespace Rejection

/-- All reasons, in the order of their numbers, which start at one. -/
def all : List Rejection :=
  [infiniteLoop, activeObjectDuplication, typeMismatch, nullAst, pointerWithoutTarget,
    pointerToTemporary, missingLabel, labelDuplication, storePointerLifetimeMismatch]

/-- How a reason is written. -/
def name : Rejection → String
  | infiniteLoop => "infinite_loop"
  | activeObjectDuplication => "active_object_duplication"
  | typeMismatch => "type_mismatch"
  | nullAst => "null_AST"
  | pointerWithoutTarget => "pointer_without_target"
  | pointerToTemporary => "pointer_to_temporary"
  | missingLabel => "missing_label"
  | labelDuplication => "label_duplication"
  | storePointerLifetimeMismatch => "store_pointer_lifetime_mismatch"

/-- The reason with a given number. -/
def ofNumber? (n : UInt8) : Option Rejection := if n = 0 then none else all[n.toNat - 1]?

/-- The name of the reason with a given number, also for numbers without a reason. -/
def nameOfNumber (n : UInt8) : String :=
  match ofNumber? n with
  | some r => r.name
  | none => s!"code({n})"

end Rejection

/-- The message for a node, or for one field of it, that is rejected for a named reason. -/
def rejectionMessage (reason : String) (node : Node) : Option Nat → String
  | some field => s!"codegen: {reason} at node {node} field {field}"
  | none => s!"codegen: {reason} at node {node}"

/-- The failures of compilation. -/
inductive CompileError where
  /-- A node, or one of its fields, is rejected. -/
  | rejected (reason : Rejection) (node : Node) (field : Option Nat)
  /-- The generated module could not be closed. -/
  | finalize (node : Node) (moduleName : String) (cause : Code.BuildError)
deriving DecidableEq, Repr

/-- The message of a failure. -/
def CompileError.message : CompileError → String
  | rejected reason node field => rejectionMessage reason.name node field
  | finalize node moduleName cause =>
    s!"codegen: finalize node {node}: backend: {moduleName}: {cause.text}"

end TreeMachine.Compile
