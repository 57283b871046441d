import Mathlib.Data.List.FinRange
import Mathlib.Logic.Function.Iterate
import TreeMachine.Proofs.Compile.Expr
import TreeMachine.Proofs.Source.Forms

/-! # Loops

  A loop defines integer variables, places a label, runs assignments, jumps back to the label
  and at last yields a variable.  This module says what a loop means and how it is written.
  Main statement: reading the text of a loop lays its nodes out in the heap.
-/

namespace TreeMachine

open Compile (Expr StepOp ArithOp)
open Source (Form Lexeme Reads HasRead Reader Says IsNumber plain_reads)

/-! ### Integer expressions -/

/-- Expressions over the variables `X` whose values are single words. -/
inductive WordExpr (X : Type) where
  | literal (w : UInt64)
  | zero
  | step (op : StepOp) (a : WordExpr X)
  | arith (op : ArithOp) (a b : WordExpr X)
  /-- The second expression if the first is not zero, and the third otherwise. -/
  | cond (c t e : WordExpr X)
  /-- The value of a variable. -/
  | copy (x : X)
  /-- The value of a variable, read through a pointer to it. -/
  | load (x : X)

/-- The lexemes of a bracket form. -/
def bracket (tag : Tag) (fields : List (List Lexeme)) : List Lexeme :=
  .opening :: .name tag.name :: (fields.flatten ++ [.closing])

namespace WordExpr

variable {X : Type}

/-- The value of an expression. -/
def value (env : X → UInt64) : WordExpr X → UInt64
  | literal w => w
  | zero => 0
  | step op a => op.apply (a.value env)
  | arith op a b => op.apply (a.value env) (b.value env)
  | cond c t e => if c.value env ≠ 0 then t.value env else e.value env
  | copy x | load x => env x

/-- How an expression is written. -/
def lexemes (name : X → String) : WordExpr X → List Lexeme
  | literal w => [.number w]
  | zero => bracket .zero []
  | step op a => bracket op.tag [a.lexemes name]
  | arith op a b => bracket op.tag [a.lexemes name, b.lexemes name]
  | cond c t e => bracket .cond [c.lexemes name, t.lexemes name, e.lexemes name]
  | copy x => bracket .copy [[.name (name x)]]
  | load x => bracket .load [bracket .pointer [[.name (name x)]]]

/-- The words that the nodes of an expression take. -/
def cost : WordExpr X → Nat
  | literal _ => 5
  | zero => 2
  | step _ a => 3 + a.cost
  | arith _ a b => 4 + a.cost + b.cost
  | cond c t e => 5 + c.cost + t.cost + e.cost
  | copy _ => 3
  | load _ => 6

/-- The expression among all expressions. -/
def expr : WordExpr X → Expr X
  | literal w => .literal w
  | zero => .zero
  | step op a => .step op a.expr
  | arith op a b => .arith op a.expr b.expr
  | cond c t e => .cond c.expr t.expr e.expr
  | copy x => .copy x
  | load x => .load x

theorem expr_width (e : WordExpr X) : e.expr.width = some 1 := by
  induction e with
  | literal | zero | copy | load => rw [expr, Expr.width]
  | step op a ha => exact Expr.width_step.2 ⟨ha, rfl⟩
  | arith op a b ha hb => exact Expr.width_arith.2 ⟨ha, hb, rfl⟩
  | cond c t e hc ht he => exact Expr.width_cond.2 ⟨hc, ht, he⟩

theorem expr_eval (env : X → UInt64) (e : WordExpr X) : e.expr.eval env = [e.value env] := by
  induction e with
  | literal | zero | copy | load => rw [expr, Expr.eval, value]
  | step op a ha => rw [expr, Expr.eval, ha, value, Expr.wordOf, List.headD_cons]
  | arith op a b ha hb =>
    rw [expr, Expr.eval, ha, hb, value, Expr.wordOf, Expr.wordOf, List.headD_cons, List.headD_cons]
  | cond c t e hc ht he =>
    rw [expr, Expr.eval, hc, ht, he, value, Expr.wordOf, List.headD_cons]
    split <;> rfl

/-- The registers and slots of an expression are bounded by the words of its nodes. -/
theorem volume_le (e : WordExpr X) : e.expr.volume ≤ e.cost + 1 := by
  induction e with
  | literal | zero | copy | load => simp [expr, Expr.volume, cost]
  | step op a ha =>
    rw [expr, Expr.volume, cost]
    omega
  | arith op a b ha hb =>
    rw [expr, Expr.volume, cost]
    omega
  | cond c t e hc ht he =>
    have hwidth := expr_width (cond c t e)
    rw [expr] at hwidth
    rw [expr, Expr.volume, hwidth, Option.getD_some, cost]
    omega

/-- The only type that an expression asks for is that of pointers to integers. -/
theorem types_expr (int : Ty) (e : WordExpr X) : ∀ r ∈ e.expr.types int, r = .pointer int := by
  induction e with
  | literal | zero | copy => simp [expr, Expr.types]
  | load => simp [expr, Expr.types]
  | step op a ha => simpa [expr, Expr.types] using ha
  | arith op a b ha hb =>
    intro r hr
    rw [expr, Expr.types] at hr
    exact (List.mem_append.1 hr).elim (ha r) (hb r)
  | cond c t e hc ht he =>
    intro r hr
    rw [expr, Expr.types] at hr
    rcases List.mem_append.1 hr with hr | hr
    · exact (List.mem_append.1 hr).elim (hc r) (ht r)
    · exact he r hr

/-! ### Reading expressions -/

section Reading

variable (name : X → String) (node : X → Node)

/-- The form of an expression, where the variables have nodes. -/
def form : WordExpr X → Form
  | literal w => .number w
  | zero => .node .zero []
  | step op a => .node op.tag [a.form]
  | arith op a b => .node op.tag [a.form, b.form]
  | cond c t e => .node .cond [c.form, t.form, e.form]
  | copy x => .node .copy [.named (name x) (node x)]
  | load x => .node .load [.node .pointer [.named (name x) (node x)]]

theorem form_lexemes (e : WordExpr X) : (e.form name node).lexemes = e.lexemes name := by
  induction e with
  | literal | zero | copy | load =>
    simp [form, lexemes, Form.number, Form.node, Form.named, bracket, Form.allLexemes]
  | step op a ha => simp [form, lexemes, Form.node, bracket, Form.allLexemes, ha]
  | arith op a b ha hb => simp [form, lexemes, Form.node, bracket, Form.allLexemes, ha, hb]
  | cond c t e hc ht he => simp [form, lexemes, Form.node, bracket, Form.allLexemes, hc, ht, he]

theorem form_cost (e : WordExpr X) : (e.form name node).cost = e.cost := by
  induction e with
  | literal => rfl
  | zero => rfl
  | copy => rfl
  | load => rfl
  | step op a ha =>
    have hfields : op.tag.fields = 1 := by cases op <;> rfl
    simp [form, Form.node, Form.costs, cost, ha, hfields]
  | arith op a b ha hb =>
    have hfields : op.tag.fields = 2 := by cases op <;> rfl
    simp [form, Form.node, Form.costs, cost, ha, hb, hfields]
    omega
  | cond c t e hc ht he =>
    have hfields : Tag.cond.fields = 3 := rfl
    simp [form, Form.node, Form.costs, cost, hc, ht, he, hfields]
    omega

variable {name node} {c : Catalogue} {names : Dict String Node}

theorem form_reads (hnames : ∀ x, names.get? (name x) = some (node x) ∧ name x ≠ "nil")
    (e : WordExpr X) : Reads c names none (e.form name node) := by
  have hvar : ∀ x, Reads c names none (.named (name x) (node x)) := fun x =>
    Source.named_reads (hnames x).1 (hnames x).2
  induction e with
  | literal w => exact Source.number_reads w
  | zero => exact plain_reads (by decide) rfl fun f hf => by cases hf
  | step op a ha =>
    refine plain_reads (by cases op <;> decide) (by cases op <;> rfl) ?_
    simpa using ha
  | arith op a b ha hb =>
    refine plain_reads (by cases op <;> decide) (by cases op <;> rfl) ?_
    simpa using ⟨ha, hb⟩
  | cond c t e hc ht he =>
    refine plain_reads (by decide) rfl ?_
    simpa using ⟨hc, ht, he⟩
  | copy x =>
    refine plain_reads (by decide) rfl ?_
    simpa using hvar x
  | load x =>
    have hpointer : Reads c names none (.node .pointer [.named (name x) (node x)]) :=
      plain_reads (by decide) rfl (by simpa using hvar x)
    refine plain_reads (by decide) rfl ?_
    simpa using hpointer

/-- What was read is the tree of the expression. -/
theorem form_spells {h : Heap} (e : WordExpr X) {n : Node} {ns : List Node}
    (hs : (e.form name node).Stands h n ns) : Expr.Spells h node e.expr n ns := by
  induction e generalizing n ns with
  | literal w => exact hs
  | zero =>
    obtain ⟨ms, ns', rfl, hn, rfl, rfl⟩ := hs
    exact ⟨rfl, hn⟩
  | step op a ha =>
    obtain ⟨ms, ns', rfl, hn, m, ms', ns₁, ns₂, rfl, rfl, hm, rfl, rfl⟩ := hs
    exact ⟨m, ns₁, by rw [List.append_nil], hn, ha hm⟩
  | arith op a b ha hb =>
    obtain ⟨ms, ns', rfl, hn, m₁, ms', ns₁, ns', rfl, rfl, hm₁, m₂, ms', ns₂, ns', rfl, rfl, hm₂,
      rfl, rfl⟩ := hs
    exact ⟨m₁, m₂, ns₁, ns₂, by rw [List.append_nil], hn, ha hm₁, hb hm₂⟩
  | cond c t e hc ht he =>
    obtain ⟨ms, ns', rfl, hn, m₁, ms', ns₁, ns', rfl, rfl, hm₁, m₂, ms', ns₂, ns', rfl, rfl, hm₂,
      m₃, ms', ns₃, ns', rfl, rfl, hm₃, rfl, rfl⟩ := hs
    exact ⟨m₁, m₂, m₃, ns₁, ns₂, ns₃, by rw [List.append_nil, List.append_assoc], hn, hc hm₁,
      ht hm₂, he hm₃⟩
  | copy x =>
    obtain ⟨ms, ns', rfl, hn, m, ms', ns₁, ns₂, rfl, rfl, ⟨rfl, rfl⟩, rfl, rfl⟩ := hs
    exact ⟨rfl, hn⟩
  | load x =>
    obtain ⟨ms, ns', rfl, hn, q, ms', ns₁, ns₂, rfl, rfl, ⟨ms', ns', rfl, hq, m, ms'', ns₁, ns₂,
      rfl, rfl, ⟨rfl, rfl⟩, rfl, rfl⟩, rfl, rfl⟩ := hs
    exact ⟨q, rfl, hn, hq⟩

end Reading

end WordExpr

/-! ### Loops -/

/-- A loop over `k` variables. -/
structure Loop (k : Nat) where
  name : Fin k → String
  init : Fin k → UInt64
  label : String
  /-- The assignments, in the order in which they run. -/
  body : List (Fin k × WordExpr (Fin k))
  /-- The variable that is the result. -/
  result : Fin k

namespace Loop

variable {k : Nat}

/-- The variables after an assignment. -/
def assign (env : Fin k → UInt64) (a : Fin k × WordExpr (Fin k)) : Fin k → UInt64 :=
  Function.update env a.1 (a.2.value env)

/-- The variables after all assignments, one after the other. -/
def pass (L : Loop k) (env : Fin k → UInt64) : Fin k → UInt64 := L.body.foldl assign env

/-- The result after a number of passes. -/
def answer (L : Loop k) (passes : Nat) : UInt64 := (L.pass^[passes] L.init) L.result

/-- The names and the first values of the variables. -/
def vars (L : Loop k) : List (String × UInt64) := List.ofFn fun x => (L.name x, L.init x)

/-- How an assignment is written. -/
def assignLexemes (L : Loop k) (a : Fin k × WordExpr (Fin k)) : List Lexeme :=
  bracket .store [bracket .pointer [[.name (L.name a.1)]], a.2.lexemes L.name]

/-- How a loop is written. -/
def lexemes (L : Loop k) : List Lexeme :=
  Source.definitions L.vars ++ (.define L.label :: bracket .label [[.name "nil"]]) ++
    (L.body.flatMap L.assignLexemes ++
      bracket .goto [[.name L.label], [.name "nil"], [.name "nil"]] ++
      bracket .copy [[.name (L.name L.result)]])

/-- The names of a loop are names, and distinct.  The name of the null node is none. -/
structure Proper (L : Loop k) : Prop where
  name : ∀ x, Source.isName (L.name x) = true ∧ L.name x ≠ "nil"
  distinct : Function.Injective L.name
  label : Source.isName L.label = true ∧ L.label ≠ "nil"
  fresh : ∀ x, L.name x ≠ L.label

/-- The words that an assignment takes. -/
def assignCost (a : Fin k × WordExpr (Fin k)) : Nat := 7 + a.2.cost

/-- The words that the nodes of a loop take. -/
def cost (L : Loop k) : Nat :=
  5 * k + 3 + ((L.body.map assignCost).sum + 8) + (k + L.body.length + 8)

/-! ### The text of a loop -/

theorem bracket_proper {tag : Tag} {fields : List (List Lexeme)}
    (h : ∀ f ∈ fields, ∀ l ∈ f, l.Proper) : ∀ l ∈ bracket tag fields, l.Proper := by
  have htag : Source.isName tag.name = true := by cases tag <;> decide
  intro l hl
  simp only [bracket, List.mem_cons, List.mem_append, List.mem_flatten] at hl
  rcases hl with rfl | rfl | ⟨f, hf, hl⟩ | rfl | hl
  · trivial
  · exact htag
  · exact h f hf l hl
  · trivial
  · cases hl

theorem expr_proper {X : Type} {name : X → String} (hname : ∀ x, Source.isName (name x) = true)
    (e : WordExpr X) : ∀ l ∈ e.lexemes name, l.Proper := by
  have hvar : ∀ x, ∀ f ∈ [[Lexeme.name (name x)]], ∀ l ∈ f, l.Proper := by
    intro x f hf l hl
    rw [List.mem_singleton.1 hf] at hl
    rw [List.mem_singleton.1 hl]
    exact hname x
  induction e with
  | literal w =>
    intro l hl
    rw [List.mem_singleton.1 hl]
    trivial
  | zero => exact bracket_proper fun f hf => by cases hf
  | step op a ha => exact bracket_proper (by simpa using ha)
  | arith op a b ha hb => exact bracket_proper (by simpa using ⟨ha, hb⟩)
  | cond c t e hc ht he => exact bracket_proper (by simpa using ⟨hc, ht, he⟩)
  | copy x => exact bracket_proper (hvar x)
  | load x =>
    refine bracket_proper fun f hf => ?_
    rw [List.mem_singleton.1 hf]
    exact bracket_proper (hvar x)

theorem lexemes_proper {L : Loop k} (h : L.Proper) : ∀ l ∈ L.lexemes, l.Proper := by
  have hnil : Source.isName "nil" = true := by decide
  have hname : ∀ s, Source.isName s = true → ∀ f ∈ [[Lexeme.name s]], ∀ l ∈ f, l.Proper := by
    intro s hs f hf l hl
    rw [List.mem_singleton.1 hf] at hl
    rw [List.mem_singleton.1 hl]
    exact hs
  intro l hl
  simp only [lexemes, List.mem_append, List.mem_cons] at hl
  rcases hl with (hl | rfl | hl) | (hl | hl) | hl
  · simp only [Source.definitions, vars, List.mem_flatMap, List.mem_ofFn, List.mem_cons] at hl
    obtain ⟨v, ⟨x, rfl⟩, rfl | rfl | hl⟩ := hl
    · exact (h.name x).1
    · trivial
    · cases hl
  · exact h.label.1
  · exact bracket_proper (hname _ hnil) l hl
  · obtain ⟨a, -, hl⟩ := List.mem_flatMap.1 hl
    refine bracket_proper ?_ l hl
    intro f hf
    rcases List.mem_cons.1 hf with rfl | hf
    · exact bracket_proper (hname _ (h.name a.1).1)
    · rw [List.mem_singleton.1 hf]
      exact expr_proper (fun x => (h.name x).1) a.2
  · refine bracket_proper ?_ l hl
    intro f hf l hl
    simp only [List.mem_cons, List.not_mem_nil, or_false] at hf
    rcases hf with rfl | rfl | rfl <;> rw [List.mem_singleton.1 hl]
    · exact h.label.1
    · exact hnil
    · exact hnil
  · exact bracket_proper (hname _ (h.name L.result).1) l hl

/-- The text of a loop. -/
def text (L : Loop k) : List UInt8 := Source.encode (Source.spell L.lexemes)

theorem says_text {L : Loop k} (h : L.Proper) : Says L.text L.lexemes :=
  Source.says_spell (lexemes_proper h)

/-! ### Reading a loop -/

/-- The assignment at a node; the list holds its nodes. -/
def Assigns (h : Heap) (x : Fin k → Node) (a : Fin k × WordExpr (Fin k)) (n : Node)
    (ns : List Node) : Prop :=
  ∃ q e ns', ns = n :: q :: ns' ∧ h.arena.Owns n [Tag.store.word, 0, q, e] ∧
    h.arena.Owns q [Tag.pointer.word, 0, x a.1] ∧ Expr.Spells h x a.2.expr e ns'

/-- The assignments at several nodes; the list holds all their nodes. -/
def AssignsAll (h : Heap) (x : Fin k → Node) :
    List (Fin k × WordExpr (Fin k)) → List Node → List Node → Prop
  | [], ss, ns => ss = [] ∧ ns = []
  | a :: as, ss, ns => ∃ n ss' ns₁ ns₂, ss = n :: ss' ∧ ns = ns₁ ++ ns₂ ∧ Assigns h x a n ns₁ ∧
    AssignsAll h x as ss' ns₂

theorem AssignsAll.length {h : Heap} {x : Fin k → Node} {as : List (Fin k × WordExpr (Fin k))}
    {ss ns : List Node} (ha : AssignsAll h x as ss ns) : ss.length = as.length := by
  induction as generalizing ss ns with
  | nil => exact congrArg List.length ha.1
  | cons a as ih =>
    obtain ⟨n, ss', ns₁, ns₂, rfl, -, -, hrest⟩ := ha
    rw [List.length_cons, List.length_cons, ih hrest]

/-- The nodes of a loop stand in the heap: `x` are the variables, `l` the label, `ss` the
    assignments, `j` the jump and `y` the result.  The list `ns` holds the nodes of the
    assignments. -/
structure Laid (L : Loop k) (h : Heap) (root : Node) (x : Fin k → Node) (l : Node)
    (ss ns : List Node) (j y : Node) : Prop where
  block : ∃ vec, h.arena.Owns root [Tag.block.word, 0, vec] ∧ ∃ capacity, h.arena.Owns vec
    (UInt64.ofNat (List.ofFn x ++ l :: (ss ++ [j, y])).length :: capacity ::
      (List.ofFn x ++ l :: (ss ++ [j, y])))
  vars : ∀ i, IsNumber h (L.init i) (x i)
  label : h.arena.Owns l [Tag.label.word, 0, 0]
  body : AssignsAll h x L.body ss ns
  jump : h.arena.Owns j [Tag.goto.word, 0, l, 0, 0]
  copy : h.arena.Owns y [Tag.copy.word, 0, x L.result]
  nodup : (root :: (List.ofFn x ++ l :: (ns ++ [j, y]))).Nodup

section Forms

variable (L : Loop k) (x : Fin k → Node) (l : Node)

/-- The form of an assignment. -/
def assignForm (a : Fin k × WordExpr (Fin k)) : Form :=
  .node .store [.node .pointer [.named (L.name a.1) (x a.1)], a.2.form L.name x]

/-- The form of the jump. -/
def jumpForm : Form := .node .goto [.named L.label l, .nil, .nil]

/-- The form of the result. -/
def resultForm : Form := .node .copy [.named (L.name L.result) (x L.result)]

/-- The forms after the label. -/
def forms : List Form := L.body.map (L.assignForm x) ++ [L.jumpForm l, L.resultForm x]

theorem forms_lexemes : Form.allLexemes (L.forms x l) = L.body.flatMap L.assignLexemes ++
    bracket .goto [[.name L.label], [.name "nil"], [.name "nil"]] ++
      bracket .copy [[.name (L.name L.result)]] := by
  have hassign : ∀ a, (L.assignForm x a).lexemes = L.assignLexemes a := by
    intro a
    simp [assignForm, assignLexemes, Form.node, Form.named, Form.allLexemes, bracket,
      WordExpr.form_lexemes]
  simp [Form.allLexemes, forms, List.flatMap_map, hassign, jumpForm, resultForm, Form.node,
    Form.named, Form.nil, bracket]

theorem forms_cost : Form.costs (L.forms x l) = (L.body.map assignCost).sum + 8 := by
  have hassign : ∀ a, (L.assignForm x a).cost = assignCost a := by
    intro a
    simp [assignForm, assignCost, Form.node, Form.named, Form.costs, WordExpr.form_cost, Tag.fields,
      Tag.schema]
    omega
  have hmap : (L.body.map (L.assignForm x)).map (·.cost) = L.body.map assignCost := by
    rw [List.map_map]
    exact List.map_congr_left fun a _ => hassign a
  rw [Form.costs, forms, List.map_append, hmap, List.sum_append]
  rfl

end Forms

variable {L : Loop k} {x : Fin k → Node} {l : Node} {h : Heap} {c : Catalogue}
  {names : Dict String Node}

theorem forms_reads (hL : L.Proper) (hx : ∀ i, names.get? (L.name i) = some (x i))
    (hl : names.get? L.label = some l) : ∀ f ∈ L.forms x l, Reads c names none f := by
  have hvar : ∀ i, Reads c names none (.named (L.name i) (x i)) := fun i =>
    Source.named_reads (hx i) (hL.name i).2
  intro f hf
  rcases List.mem_append.1 hf with hf | hf
  · obtain ⟨a, -, rfl⟩ := List.mem_map.1 hf
    have hpointer : Reads c names none (.node .pointer [.named (L.name a.1) (x a.1)]) :=
      plain_reads (by decide) rfl (by simpa using hvar a.1)
    have hexpr : Reads c names none (a.2.form L.name x) :=
      WordExpr.form_reads (fun i => ⟨hx i, (hL.name i).2⟩) a.2
    refine plain_reads (by decide) rfl ?_
    simpa using ⟨hpointer, hexpr⟩
  · simp only [List.mem_cons, List.not_mem_nil, or_false] at hf
    rcases hf with rfl | rfl
    · refine plain_reads (by decide) rfl ?_
      simpa using ⟨Source.named_reads hl hL.label.2, Source.nil_reads⟩
    · refine plain_reads (by decide) rfl ?_
      simpa using hvar L.result

/-- The nodes of the forms after the label. -/
theorem forms_stand {as : List (Fin k × WordExpr (Fin k))} {ms ns : List Node}
    (hs : Form.AllStand h (as.map (L.assignForm x) ++ [L.jumpForm l, L.resultForm x]) ms ns) :
    ∃ ss ns' j y, ms = ss ++ [j, y] ∧ ns = ns' ++ [j, y] ∧ AssignsAll h x as ss ns' ∧
      h.arena.Owns j [Tag.goto.word, 0, l, 0, 0] ∧
      h.arena.Owns y [Tag.copy.word, 0, x L.result] := by
  induction as generalizing ms ns with
  | nil =>
    obtain ⟨j, ms, ns₁, ns₂, rfl, rfl, ⟨fs, ns', rfl, hj, hfields⟩, y, ms, ns₁, ns₂, rfl, rfl,
      ⟨fs', ns'', rfl, hy, hfields'⟩, rfl, rfl⟩ := hs
    obtain ⟨m, ms, ns₁, ns₂, rfl, rfl, ⟨rfl, rfl⟩, m, ms, ns₁, ns₂, rfl, rfl, ⟨rfl, rfl⟩, m, ms,
      ns₁, ns₂, rfl, rfl, ⟨rfl, rfl⟩, rfl, rfl⟩ := hfields
    obtain ⟨m, ms, ns₁, ns₂, rfl, rfl, ⟨rfl, rfl⟩, rfl, rfl⟩ := hfields'
    exact ⟨[], [], j, y, rfl, rfl, ⟨rfl, rfl⟩, hj, hy⟩
  | cons a as ih =>
    obtain ⟨n, ms, ns₁, ns₂, rfl, rfl, ⟨fs, ns', rfl, hn, hfields⟩, hrest⟩ := hs
    obtain ⟨q, ms', ns₁, ns₃, rfl, rfl, ⟨fs, ns', rfl, hq, hfield⟩, e, ms', ns₄, ns₅, rfl, rfl, he,
      rfl, rfl⟩ := hfields
    obtain ⟨m, ms', ns₁, ns₃, rfl, rfl, ⟨rfl, rfl⟩, rfl, rfl⟩ := hfield
    obtain ⟨ss, ns', j, y, rfl, rfl, has, hj, hy⟩ := ih hrest
    refine ⟨n :: ss, n :: q :: ns₄ ++ ns', j, y, rfl, ?_, ⟨n, ss, n :: q :: ns₄, ns', rfl, rfl,
      ⟨q, e, ns₄, rfl, hn, hq, WordExpr.form_spells a.2 he⟩, has⟩, hj, hy⟩
    simp

/-- The form of the label. -/
def labelForm : Form := .node .label [.nil]

theorem labelForm_reads {names : Dict String Node} (name : Option String) :
    Reads c names name labelForm :=
  Source.node_reads (by decide) rfl fun _ _ _ f hf => by
    rw [List.mem_singleton.1 hf]
    exact Source.nil_reads

theorem forms_length {ms ns : List Node} (hs : Form.AllStand h (L.forms x l) ms ns) :
    ms.length = L.body.length + 2 := by
  obtain ⟨ss, ns', j, y, rfl, -, has, -⟩ := forms_stand hs
  rw [List.length_append, has.length]
  rfl

theorem vars_at (L : Loop k) (i : Fin k) : L.vars[(i : Nat)]? = some (L.name i, L.init i) := by
  rw [vars, List.getElem?_ofFn, dif_pos i.2]

/-- The names of the variables stand for the nodes, and the label has no node yet. -/
theorem binds_variables {names : Dict String Node} (hL : L.Proper)
    (hb : Source.Binds .empty L.vars (List.ofFn x) names) :
    (∀ i, names.get? (L.name i) = some (x i)) ∧ names.get? L.label = none := by
  refine ⟨?_, hb.other _ ?_⟩
  · intro i
    refine hb.bound i _ _ (L.vars_at i) ?_
    rw [List.getElem?_ofFn, dif_pos i.2]
  · rw [vars, List.map_ofFn, List.mem_ofFn]
    rintro ⟨i, hi⟩
    exact hL.fresh i hi

/-- The nodes of the variables hold their first values. -/
theorem numbers_variables
    (hn : List.Forall₂ (fun v n => Source.IsNumber h v.2 n) L.vars (List.ofFn x)) (i : Fin k) :
    Source.IsNumber h (L.init i) (x i) := by
  obtain ⟨hlen, hall⟩ := List.forall₂_iff_get.1 hn
  have hat := hall i (by simp [vars]) (by simp)
  simpa [vars] using hat

/-- Reading a text that says a loop lays the loop out, where there is room for it. -/
theorem read_laid (hL : L.Proper) {text : List UInt8} (htext : Says text L.lexemes)
    (hs : h.Standard c) (hidle : h.arena.collecting = false) {spare : Nat}
    (hroom : h.arena.Room (L.cost + spare)) :
    ∃ root x l ss ns j y h', Source.read text h = .ok root h' ∧ h.Fills h' spare ∧
      L.Laid h' root x l ss ns j y := by
  obtain ⟨toks, last, htokens, -, htoks⟩ := htext
  obtain ⟨toks, toks₃, rfl, htoks, htoks₃⟩ := Source.matches_append htoks
  obtain ⟨toks₁, toks₂, rfl, htoks₁, htoks₂⟩ := Source.matches_append htoks
  -- The variables.
  have hvars : (L.vars.map Prod.fst).Nodup := by
    rw [vars, List.map_ofFn]
    exact List.nodup_ofFn.2 hL.distinct
  have hcount : L.vars.length = k := List.length_ofFn
  let left := Form.costs (L.forms (fun _ => 0) 0) + (k + L.body.length + 8 + spare)
  have hleft := L.forms_cost (fun _ => 0) 0
  have htop : Reader.start.AtTop .empty := ⟨rfl, rfl, rfl⟩
  obtain ⟨xs, names₁, h₁, hrun₁, hbinds, hread₁⟩ := Source.variables_read (k := 3 + left) hvars
    (fun v _ => rfl) htop htoks₁ (show toks₂ ++ (toks₃ ++ [last]) ≠ [] by simp) hs hidle
    (hroom.mono (by rw [hcount, cost]; omega))
  have hlen : xs.length = k := hbinds.length.trans hcount
  obtain ⟨x, rfl⟩ : ∃ x : Fin k → Node, xs = List.ofFn x := by
    subst hlen
    exact ⟨_, List.ofFn_getElem.symm⟩
  obtain ⟨hbound₁, hlabel⟩ := binds_variables hL hbinds
  -- The label.
  obtain ⟨l, nsl, h₂, hrun₂, hread₂⟩ := Source.definition_read (k := left)
    (labelForm_reads _) hlabel (htop.took names₁ (List.ofFn x)) htoks₂
    (show toks₃ ++ [last] ≠ [] by simp) (hread₁.fills.standard hs)
    (hread₁.fills.idle hidle) hread₁.fills.room
  have hfill₂ := hread₁.fills.trans hread₂.fills
  have hbound : ∀ i, (names₁.set L.label l).get? (L.name i) = some (x i) := by
    intro i
    rw [Dict.get?_set_ne _ _ (hL.fresh i)]
    exact hbound₁ i
  -- The forms after the label.
  obtain ⟨ms, nsf, h₃, hrun₃, hread₃⟩ := Source.forms_read
    (k := k + L.body.length + 8 + spare) (forms_reads hL hbound (Dict.get?_set_self _ _ _))
    ((htop.took names₁ (List.ofFn x)).took (names₁.set L.label l) [l])
    (show List.Forall₂ _ _ toks₃ by rw [forms_lexemes]; exact htoks₃) (show [last] ≠ [] by simp)
    (hfill₂.standard hs) (hfill₂.idle hidle) (by
      rw [forms_cost, ← hleft]
      exact hread₂.fills.room)
  have hread := hread₁.append (hread₂.append hread₃)
  -- The block around everything.
  have hms := forms_length (hread₃.stands h₃ rfl (.refl _ _))
  obtain ⟨root, vec, h', hrun₄, hfill₄, hroot, hvec⟩ := Source.block_read
    (k := spare) (((htop.took names₁ (List.ofFn x)).took (names₁.set L.label l) [l]).took
      (names₁.set L.label l) ms) last
    (show _ = (List.ofFn x ++ l :: ms).reverse by simp [Reader.took, Reader.start]) (by simp; omega)
    (hread.fills.standard hs) (hread.fills.idle hidle) (hread.fills.room.mono (by simp; omega))
  have hstands := hread.stands h' hfill₄.types ((Arena.Since.refl _ _).grows hfill₄.grows)
  obtain ⟨hnumbers, ⟨ls, nsl', rfl, hl, m, ms', ns₁, ns₂, rfl, rfl, ⟨rfl, rfl⟩, rfl, rfl⟩,
    hforms⟩ := hstands
  obtain ⟨ss, ns, j, y, rfl, rfl, hbody, hj, hy⟩ := forms_stand hforms
  refine ⟨root, x, l, ss, ns, j, y, h', ?_, hread.fills.trans hfill₄, ?_⟩
  · rw [Source.read, htokens, List.append_assoc, List.append_assoc, hrun₁, hrun₂, hrun₃, hrun₄]
  · refine ⟨⟨vec, hroot.toOwns, _, hvec.toOwns⟩, numbers_variables hnumbers, hl, hbody, hj, hy, ?_⟩
    refine List.nodup_cons.2 ⟨?_, by simpa using hread.nodup⟩
    intro hmem
    refine (hread.fresh root ?_).2 (hroot.was_free 0 (Nat.succ_pos _))
    simpa using hmem

end Loop

end TreeMachine
