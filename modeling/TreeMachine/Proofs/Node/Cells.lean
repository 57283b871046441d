import TreeMachine.Proofs.Node.Stocking

/-! # What nodes hold

  The reader makes integers, quotes, nodes and blocks, all of them without a node before
  them.  A memory says which nodes there are and what each of them holds, and a heap is
  populated by it if every node has words of its own for all that it holds.  Main
  statement: such a heap is stocked with the entries of the memory.
-/

namespace TreeMachine

/-- What a node holds. -/
inductive Cell where
  /-- An integer literal. -/
  | integer (v : UInt64)
  /-- A literal that holds a node. -/
  | quote (q : Node)
  /-- The fields of a node that is neither a literal nor a block. -/
  | fields (t : Tag) (ms : List Node)
  | block (elems : List Node)

/-- Nodes and what they hold. -/
abbrev NodeMemory := Node → Option Cell

/-- The entry of a cell. -/
def Cell.entry (s : Scalars) : Cell → NodeEntry
  | integer v => .literal 0 s.integer [v]
  | quote q => .literal 0 s.ast [q]
  | fields t ms => .fields t 0 ms
  | block elems => .block 0 elems

/-- The entries of a memory. -/
def NodeMemory.entries (s : Scalars) (M : NodeMemory) : Stock := fun n => (M n).map (·.entry s)

theorem NodeMemory.entries_eq_none {s : Scalars} {M : NodeMemory} {n : Node} :
    M.entries s n = none ↔ M n = none :=
  Option.map_eq_none_iff

theorem NodeMemory.entries_update (s : Scalars) (M : NodeMemory) (n : Node) (r : Cell) :
    NodeMemory.entries s (Function.update M n (some r))
      = Function.update (M.entries s) n (some (r.entry s)) := by
  funext m
  by_cases hmn : m = n
  · rw [hmn, NodeMemory.entries, Function.update_self, Function.update_self]
    rfl
  · rw [NodeMemory.entries, Function.update_of_ne hmn, Function.update_of_ne hmn]
    rfl

namespace Heap

/-- The cell is laid out at `n`, and in the object or vector at `x` if it has one; `S` says
    which words stand where. -/
inductive Laid (s : Scalars) (S : Addr → List UInt64 → Prop) (n : Node) : Addr → Cell → Prop
  | integer {x : Addr} {v : UInt64} : S n [Tag.literal.word, 0, s.integer, x] → S x [v] →
    Laid s S n x (.integer v)
  | quote {x : Addr} {q : Node} : S n [Tag.literal.word, 0, s.ast, x] → S x [q] →
    Laid s S n x (.quote q)
  | fields {t : Tag} {ms : List Node} : S n (t.word :: 0 :: ms) → ms.length = t.fields →
    t ≠ .literal ∧ t ≠ .block → Laid s S n 0 (.fields t ms)
  | empty : S n [Tag.block.word, 0, 0] → Laid s S n 0 (.block [])
  | block {x : Addr} {elems slack : List Node} : S n [Tag.block.word, 0, x] →
    S x (vectorOf elems slack) → 0 < elems.length + slack.length → Laid s S n x (.block elems)

variable {s : Scalars} {S S' : Addr → List UInt64 → Prop} {n x : Addr} {r : Cell}
  {P : Addr → Option (List UInt64)} {M : NodeMemory} {h₀ h : Heap}

theorem laid_iff_spread : Laid s S n x r ↔ Spread S n x (r.entry s) := by
  constructor
  · intro hl
    cases hl with
    | integer hr hp => exact .literal (List.cons_ne_nil _ _) hr hp
    | quote hr hp => exact .literal (List.cons_ne_nil _ _) hr hp
    | fields hr hlen ht => exact .fields hr hlen ht
    | empty hr => exact .empty hr
    | block hr hp hpos => exact .block hr hp hpos
  · intro hl
    cases r with
    | integer v =>
      cases hl with
      | literal _ hr hp => exact .integer hr hp
    | quote q =>
      cases hl with
      | literal _ hr hp => exact .quote hr hp
    | fields t ms =>
      cases hl with
      | fields hr hlen ht => exact .fields hr hlen ht
    | block elems =>
      cases hl with
      | empty hr => exact .empty hr
      | block hr hp hpos => exact .block hr hp hpos

/-- A cell stays while its words do. -/
theorem Laid.imp (hl : Laid s S n x r) (hn : ∀ ws, S n ws → S' n ws)
    (hx : x ≠ 0 → ∀ ws, S x ws → S' x ws) (h0 : ∀ ws, ¬ S 0 ws) : Laid s S' n x r :=
  laid_iff_spread.2 ((laid_iff_spread.1 hl).imp hn hx h0)

theorem Laid.of_fields {t : Tag} {ms : List Node} (hl : Laid s S n x (.fields t ms)) :
    S n (t.word :: 0 :: ms) ∧ ms.length = t.fields ∧ t ≠ .literal ∧ t ≠ .block :=
  (laid_iff_spread.1 hl).of_fields

theorem Laid.of_block {elems : List Node} (hl : Laid s S n x (.block elems)) :
    S n [Tag.block.word, 0, x] ∧ (x = 0 ∧ elems = [] ∨
      ∃ slack, S x (vectorOf elems slack) ∧ 0 < elems.length + slack.length) :=
  (laid_iff_spread.1 hl).of_block

/-! ### Memories -/

/-- Every node of the memory is laid out, and no two share an object or vector. -/
structure Lodged (s : Scalars) (P : Addr → Option (List UInt64)) (x : Node → Addr)
    (M : NodeMemory) : Prop where
  null : P 0 = none
  laid : ∀ {n r}, M n = some r → Laid s (fun a ws => P a = some ws) n (x n) r
  payload : ∀ {n r}, M n = some r → M (x n) = none
  own : ∀ {n m r r'}, M n = some r → M m = some r' → x n = x m → x n ≠ 0 → n = m

/-- What has been allocated since `h₀` holds the nodes of the memory. -/
def Populated (h₀ h : Heap) (M : NodeMemory) : Prop :=
  ∃ P x, Carved h₀ h P ∧ Lodged h₀.types.scalars P x M

theorem lodged_iff_housed {x : Node → Addr} : Lodged s P x M ↔ Housed P x (M.entries s) := by
  have hsome : ∀ {n r}, M n = some r → M.entries s n = some (r.entry s) := by
    intro n r hn
    rw [NodeMemory.entries, hn]
    rfl
  constructor
  · intro hl
    refine ⟨hl.null, ?_, ?_, ?_⟩
    · intro n e hn
      obtain ⟨r, hr, rfl⟩ := Option.map_eq_some_iff.1 hn
      exact laid_iff_spread.1 (hl.laid hr)
    · intro n e hn
      obtain ⟨r, hr, rfl⟩ := Option.map_eq_some_iff.1 hn
      exact NodeMemory.entries_eq_none.2 (hl.payload hr)
    · intro n m e e' hn hm
      obtain ⟨r, hr, rfl⟩ := Option.map_eq_some_iff.1 hn
      obtain ⟨r', hr', rfl⟩ := Option.map_eq_some_iff.1 hm
      exact hl.own hr hr'
  · intro hl
    refine ⟨hl.null, fun hn => laid_iff_spread.2 (hl.spread (hsome hn)), fun hn => ?_,
      fun hn hm => hl.own (hsome hn) (hsome hm)⟩
    exact NodeMemory.entries_eq_none.1 (hl.payload (hsome hn))

theorem populated_iff_stocked :
    Populated h₀ h M ↔ Stocked h₀ h (M.entries h₀.types.scalars) := by
  unfold Populated Stocked
  simp only [lodged_iff_housed]

end Heap

end TreeMachine
