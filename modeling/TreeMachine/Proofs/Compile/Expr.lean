import TreeMachine.Node.Basic
import TreeMachine.Proofs.Types.Concatenation

/-! # Expressions

  Trees of nodes whose results are words: literals, arithmetic, choices, concatenations and
  blocks, and reads of variables that are made elsewhere.  An expression has a width if it is
  well typed, and a value for every environment.  Main statements: values are as wide as
  the width says, and trees in the heap stay what they are while types are made.
-/

namespace TreeMachine.Compile

/-- The operations on a word and one. -/
inductive StepOp where
  | increment
  | decrement
deriving DecidableEq, Repr

/-- The operations on two words. -/
inductive ArithOp where
  | add
  | subtract
  | multiply
  | udiv
  | urem
deriving DecidableEq, Repr

/-- The next or the previous word, modulo the word size. -/
def StepOp.apply : StepOp → UInt64 → UInt64
  | increment, a => a + 1
  | decrement, a => a - 1

/-- Arithmetic modulo the word size; division by zero and its remainder are zero. -/
def ArithOp.apply : ArithOp → UInt64 → UInt64 → UInt64
  | add, a, b => a + b
  | subtract, a, b => a - b
  | multiply, a, b => a * b
  | udiv, a, b => if b = 0 then 0 else a / b
  | urem, a, b => if b = 0 then 0 else a % b

/-- The tag of nodes with this operation. -/
def StepOp.tag : StepOp → Tag
  | increment => .increment
  | decrement => .decrement

/-- The tag of nodes with this operation. -/
def ArithOp.tag : ArithOp → Tag
  | add => .add
  | subtract => .subtract
  | multiply => .multiply
  | udiv => .udiv
  | urem => .urem

/-- Expressions over the variables `X`. -/
inductive Expr (X : Type) where
  | null
  | literal (w : UInt64)
  | zero
  | step (op : StepOp) (a : Expr X)
  | arith (op : ArithOp) (a b : Expr X)
  | cond (c t e : Expr X)
  | concat (a b : Expr X)
  | block (es : List (Expr X))
  /-- The value of a variable. -/
  | copy (x : X)
  /-- The value of a variable, read through a pointer to it. -/
  | load (x : X)

namespace Expr

variable {X : Type}

/-! ### Widths and values -/

mutual
/-- The number of words of a well typed expression. -/
def width : Expr X → Option Nat
  | null => some 0
  | literal _ | zero | copy _ | load _ => some 1
  | step _ a => if a.width = some 1 then some 1 else none
  | arith _ a b => if a.width = some 1 ∧ b.width = some 1 then some 1 else none
  | cond c t e =>
    match c.width, t.width, e.width with
    | some 1, some w, some w' => if w = w' then some w else none
    | _, _, _ => none
  | concat a b =>
    match a.width, b.width with
    | some w, some w' => some (w + w')
    | _, _ => none
  | block es => widthLast es

/-- The width of the last element, if all elements are well typed. -/
def widthLast : List (Expr X) → Option Nat
  | [] => some 0
  | e :: rest =>
    match e.width, widthLast rest with
    | some w, some w' => some (if rest.isEmpty then w else w')
    | _, _ => none
end

/-- The word of a value of one word. -/
def wordOf (ws : List UInt64) : UInt64 := ws.headD 0

mutual
/-- The words of an expression. -/
def eval (env : X → UInt64) : Expr X → List UInt64
  | null => []
  | literal w => [w]
  | zero => [0]
  | step op a => [op.apply (wordOf (a.eval env))]
  | arith op a b => [op.apply (wordOf (a.eval env)) (wordOf (b.eval env))]
  | cond c t e => if wordOf (c.eval env) ≠ 0 then t.eval env else e.eval env
  | concat a b => a.eval env ++ b.eval env
  | block es => evalLast env es
  | copy x | load x => [env x]

/-- The words of the last element. -/
def evalLast (env : X → UInt64) : List (Expr X) → List UInt64
  | [] => []
  | e :: rest => if rest.isEmpty then e.eval env else evalLast env rest
end

theorem width_step {op : StepOp} {a : Expr X} {w : Nat} :
    (step op a).width = some w ↔ a.width = some 1 ∧ w = 1 := by
  rw [width]
  by_cases ha : a.width = some 1
  · rw [if_pos ha, Option.some.injEq]
    exact ⟨fun h => ⟨ha, h.symm⟩, fun h => h.2.symm⟩
  · rw [if_neg ha]
    exact ⟨fun h => (by cases h), fun h => absurd h.1 ha⟩

theorem width_arith {op : ArithOp} {a b : Expr X} {w : Nat} :
    (arith op a b).width = some w ↔ a.width = some 1 ∧ b.width = some 1 ∧ w = 1 := by
  rw [width]
  by_cases hab : a.width = some 1 ∧ b.width = some 1
  · rw [if_pos hab, Option.some.injEq]
    exact ⟨fun h => ⟨hab.1, hab.2, h.symm⟩, fun h => h.2.2.symm⟩
  · rw [if_neg hab]
    exact ⟨fun h => (by cases h), fun h => absurd ⟨h.1, h.2.1⟩ hab⟩

theorem width_cond {c t e : Expr X} {w : Nat} :
    (cond c t e).width = some w ↔ c.width = some 1 ∧ t.width = some w ∧ e.width = some w := by
  rw [width]
  constructor
  · intro h
    split at h
    · rename_i w₁ w₂ hc ht he
      by_cases heq : w₁ = w₂
      · rw [if_pos heq, Option.some.injEq] at h
        exact ⟨hc, by rw [ht, h], by rw [he, ← heq, h]⟩
      · rw [if_neg heq] at h
        cases h
    · cases h
  · intro h
    rw [h.1, h.2.1, h.2.2]
    exact if_pos rfl

theorem width_concat {a b : Expr X} {w : Nat} :
    (concat a b).width = some w ↔
      ∃ w₁ w₂, a.width = some w₁ ∧ b.width = some w₂ ∧ w = w₁ + w₂ := by
  rw [width]
  constructor
  · intro h
    split at h
    · rename_i w₁ w₂ h₁ h₂
      exact ⟨w₁, w₂, h₁, h₂, (Option.some.inj h).symm⟩
    · cases h
  · intro h
    obtain ⟨w₁, w₂, h₁, h₂, hw⟩ := h
    rw [h₁, h₂, hw]

theorem widthLast_cons {e : Expr X} {rest : List (Expr X)} {w : Nat} :
    widthLast (e :: rest) = some w ↔
      ∃ w₁ w₂, e.width = some w₁ ∧ widthLast rest = some w₂ ∧
        w = if rest.isEmpty then w₁ else w₂ := by
  rw [widthLast]
  constructor
  · intro h
    split at h
    · rename_i w₁ w₂ h₁ h₂
      exact ⟨w₁, w₂, h₁, h₂, (Option.some.inj h).symm⟩
    · cases h
  · intro h
    obtain ⟨w₁, w₂, h₁, h₂, hw⟩ := h
    rw [h₁, h₂, hw]

mutual
/-- Values are as wide as the width says. -/
theorem length_eval (env : X → UInt64) (e : Expr X) {w : Nat} (h : e.width = some w) :
    (e.eval env).length = w := by
  cases e with
  | null | literal | zero | copy | load => simpa [eval, width] using h
  | step op a => simp [eval, (width_step.1 h).2]
  | arith op a b => simp [eval, (width_arith.1 h).2.2]
  | cond c t e =>
    obtain ⟨-, ht, he⟩ := width_cond.1 h
    rw [eval]
    split
    · exact length_eval env t ht
    · exact length_eval env e he
  | concat a b =>
    obtain ⟨w₁, w₂, ha, hb, rfl⟩ := width_concat.1 h
    rw [eval, List.length_append, length_eval env a ha, length_eval env b hb]
  | block es =>
    rw [eval]
    exact length_evalLast env es (by rwa [width] at h)

theorem length_evalLast (env : X → UInt64) (es : List (Expr X)) {w : Nat}
    (h : widthLast es = some w) : (evalLast env es).length = w := by
  cases es with
  | nil => simpa [evalLast, widthLast] using h
  | cons e rest =>
    obtain ⟨w₁, w₂, h₁, h₂, rfl⟩ := widthLast_cons.1 h
    rw [evalLast]
    split
    · exact length_eval env e h₁
    · exact length_evalLast env rest h₂
end

/-- A value of one word is that word. -/
theorem eval_eq_word {env : X → UInt64} {e : Expr X} (h : e.width = some 1) :
    e.eval env = [wordOf (e.eval env)] := by
  have hlen := length_eval env e h
  match hws : e.eval env, hlen with
  | [w], _ => rfl

/-! ### What compiled expressions need -/

mutual
/-- A bound on the registers, and on the words of slots, of a compiled expression: its own
    width and two words more for each node. -/
def volume : Expr X → Nat
  | null => 0
  | literal _ | zero | copy _ | load _ => 3
  | step _ a => 3 + a.volume
  | arith _ a b => 3 + a.volume + b.volume
  | cond c t e => 2 + (width (cond c t e)).getD 0 + c.volume + t.volume + e.volume
  | concat a b => 2 + (width (concat a b)).getD 0 + a.volume + b.volume
  | block es => 2 + (widthLast es).getD 0 + volumeAll es

/-- The sum of the bounds. -/
def volumeAll : List (Expr X) → Nat
  | [] => 0
  | e :: rest => e.volume + volumeAll rest
end

/-- The record of the type of that many integers, if it is a concatenation. -/
def concatRecord (int : Ty) : Option Nat → List Record
  | some (n + 2) => [.concat (List.replicate (n + 2) int)]
  | _ => []

mutual
/-- The records of the types that the compilation of an expression asks for, apart from the
    integer type. -/
def types (int : Ty) : Expr X → List Record
  | null | literal _ | zero | copy _ => []
  | load _ => [.pointer int]
  | step _ a => a.types int
  | arith _ a b => a.types int ++ b.types int
  | cond c t e => c.types int ++ t.types int ++ e.types int
  | concat a b => a.types int ++ b.types int ++ concatRecord int (width (concat a b))
  | block es => typesAll int es

/-- The records for all the expressions. -/
def typesAll (int : Ty) : List (Expr X) → List Record
  | [] => []
  | e :: rest => e.types int ++ typesAll int rest
end

/-! ### Trees in the heap -/

mutual
/-- The expression stands in the heap as the tree with the given root.  The list holds the
    nodes of the tree; no node has another one before it.  The variables are nodes outside
    the tree. -/
def Spells (h : Heap) (node : X → Node) : Expr X → Node → List Node → Prop
  | null, n, ns => n = 0 ∧ ns = []
  | literal w, n, ns => ns = [n] ∧ ∃ object,
    h.arena.Owns n [Tag.literal.word, 0, h.types.scalars.integer, object] ∧ h.arena.Owns object [w]
  | zero, n, ns => ns = [n] ∧ h.arena.Owns n [Tag.zero.word, 0]
  | step op a, n, ns => ∃ n₁ ns₁, ns = n :: ns₁ ∧ h.arena.Owns n [op.tag.word, 0, n₁] ∧
    Spells h node a n₁ ns₁
  | arith op a b, n, ns => ∃ n₁ n₂ ns₁ ns₂, ns = n :: (ns₁ ++ ns₂) ∧
    h.arena.Owns n [op.tag.word, 0, n₁, n₂] ∧ Spells h node a n₁ ns₁ ∧ Spells h node b n₂ ns₂
  | cond c t e, n, ns => ∃ n₁ n₂ n₃ ns₁ ns₂ ns₃, ns = n :: (ns₁ ++ ns₂ ++ ns₃) ∧
    h.arena.Owns n [Tag.cond.word, 0, n₁, n₂, n₃] ∧ Spells h node c n₁ ns₁ ∧
      Spells h node t n₂ ns₂ ∧ Spells h node e n₃ ns₃
  | concat a b, n, ns => ∃ n₁ n₂ ns₁ ns₂, ns = n :: (ns₁ ++ ns₂) ∧
    h.arena.Owns n [Tag.concatenate.word, 0, n₁, n₂] ∧ Spells h node a n₁ ns₁ ∧
      Spells h node b n₂ ns₂
  | block es, n, ns => ∃ vec elems ns₁, ns = n :: ns₁ ∧
    h.arena.Owns n [Tag.block.word, 0, vec] ∧ SpellsAll h node es elems ns₁ ∧
      (vec = 0 ∧ elems = [] ∨ ∃ capacity,
        h.arena.Owns vec (UInt64.ofNat elems.length :: capacity :: elems))
  | copy x, n, ns => ns = [n] ∧ h.arena.Owns n [Tag.copy.word, 0, node x]
  | load x, n, ns => ∃ q, ns = [n, q] ∧ h.arena.Owns n [Tag.load.word, 0, q] ∧
    h.arena.Owns q [Tag.pointer.word, 0, node x]

/-- The expressions stand in the heap as the trees with the given roots. -/
def SpellsAll (h : Heap) (node : X → Node) : List (Expr X) → List Node → List Node → Prop
  | [], elems, ns => elems = [] ∧ ns = []
  | e :: es, elems, ns => ∃ n rest ns₁ ns₂, elems = n :: rest ∧ ns = ns₁ ++ ns₂ ∧
    Spells h node e n ns₁ ∧ SpellsAll h node es rest ns₂
end

variable {h h' : Heap} {c c' : Catalogue} {node : X → Node}

mutual
/-- Making types leaves trees as they are. -/
theorem Spells.extends (hext : Heap.Extends h c h' c') {e : Expr X} {n : Node} {ns : List Node}
    (hs : Spells h node e n ns) : Spells h' node e n ns := by
  have hg := hext.grows
  cases e with
  | null => exact hs
  | literal w =>
    obtain ⟨hns, object, hn, hobject⟩ := hs
    refine ⟨hns, object, ?_, hobject.grows hg⟩
    rw [hext.scalars_eq]
    exact hn.grows hg
  | zero => exact ⟨hs.1, hs.2.grows hg⟩
  | copy x => exact ⟨hs.1, hs.2.grows hg⟩
  | load x =>
    obtain ⟨q, hns, hn, hq⟩ := hs
    exact ⟨q, hns, hn.grows hg, hq.grows hg⟩
  | step op a =>
    obtain ⟨n₁, ns₁, hns, hn, ha⟩ := hs
    exact ⟨n₁, ns₁, hns, hn.grows hg, ha.extends hext⟩
  | arith op a b =>
    obtain ⟨n₁, n₂, ns₁, ns₂, hns, hn, ha, hb⟩ := hs
    exact ⟨n₁, n₂, ns₁, ns₂, hns, hn.grows hg, ha.extends hext, hb.extends hext⟩
  | cond c t e =>
    obtain ⟨n₁, n₂, n₃, ns₁, ns₂, ns₃, hns, hn, hc, ht, he⟩ := hs
    exact ⟨n₁, n₂, n₃, ns₁, ns₂, ns₃, hns, hn.grows hg, hc.extends hext, ht.extends hext,
      he.extends hext⟩
  | concat a b =>
    obtain ⟨n₁, n₂, ns₁, ns₂, hns, hn, ha, hb⟩ := hs
    exact ⟨n₁, n₂, ns₁, ns₂, hns, hn.grows hg, ha.extends hext, hb.extends hext⟩
  | block es =>
    obtain ⟨vec, elems, ns₁, hns, hn, hes, hvec⟩ := hs
    refine ⟨vec, elems, ns₁, hns, hn.grows hg, hes.extends hext, ?_⟩
    exact hvec.imp_right fun hcap => hcap.imp fun _ howns => howns.grows hg

theorem SpellsAll.extends (hext : Heap.Extends h c h' c') {es : List (Expr X)}
    {elems ns : List Node} (hs : SpellsAll h node es elems ns) :
    SpellsAll h' node es elems ns := by
  cases es with
  | nil => exact hs
  | cons e es =>
    obtain ⟨n, rest, ns₁, ns₂, helems, hns, he, hes⟩ := hs
    exact ⟨n, rest, ns₁, ns₂, helems, hns, he.extends hext, hes.extends hext⟩
end

end Expr

end TreeMachine.Compile
