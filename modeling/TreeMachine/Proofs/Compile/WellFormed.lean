import TreeMachine.Engine
import TreeMachine.Proofs.Compile.Operations
import TreeMachine.Proofs.Compile.Root
import TreeMachine.Proofs.Source.Forms
import TreeMachine.Proofs.Types.History

/-! # Generated code is well formed

  Main statement: whatever is generated for a closed set of nodes closes without mistakes
  and without traps, refers only to blocks, registers and slots that are there, and when it
  is run it returns a result of the width of its type, or it stops at an indirect access or
  in a host function.
-/

namespace TreeMachine.Compile

open Code (Module Value Instr Program Frame Host WellFormed)

variable {N : Node → Tag → Prop} {g g' : Generator} {c c' : Catalogue} {h : Heap} {root : Node}

/-! ### Trees -/

mutual
/-- Trees of plain nodes are well formed. -/
theorem Expr.Spells.wellFormed {e : Expr Empty} {n : Node} {ns : List Node} (hs : h.Standard c)
    (hspell : Expr.Spells h Empty.elim e n ns) : OrNull (h.WellFormedAs c) n := by
  cases e with
  | null => exact Or.inl hspell.1
  | literal w =>
    obtain ⟨-, object, hn, -⟩ := hspell
    exact Or.inr (Heap.wellFormed_literal hn (Heap.knows_of_mem hs.integer))
  | zero => exact Or.inr (Heap.wellFormed_node hspell.2 rfl (by decide) fun w hw => by cases hw)
  | step op a =>
    obtain ⟨n₁, ns₁, -, hn, ha⟩ := hspell
    refine Or.inr (Heap.wellFormed_node hn ?_ ?_ ?_)
    · cases op <;> rfl
    · cases op <;> decide
    · simpa using ha.wellFormed hs
  | arith op a b =>
    obtain ⟨n₁, n₂, ns₁, ns₂, -, hn, ha, hb⟩ := hspell
    refine Or.inr (Heap.wellFormed_node hn ?_ ?_ ?_)
    · cases op <;> rfl
    · cases op <;> decide
    · simpa using ⟨ha.wellFormed hs, hb.wellFormed hs⟩
  | cond a t e =>
    obtain ⟨n₁, n₂, n₃, ns₁, ns₂, ns₃, -, hn, ha, ht, he⟩ := hspell
    refine Or.inr (Heap.wellFormed_node hn rfl (by decide) ?_)
    simpa using ⟨ha.wellFormed hs, ht.wellFormed hs, he.wellFormed hs⟩
  | concat a b =>
    obtain ⟨n₁, n₂, ns₁, ns₂, -, hn, ha, hb⟩ := hspell
    refine Or.inr (Heap.wellFormed_node hn rfl (by decide) ?_)
    simpa using ⟨ha.wellFormed hs, hb.wellFormed hs⟩
  | block es =>
    obtain ⟨vec, elems, ns₁, -, hn, hes, hvec⟩ := hspell
    exact Or.inr (Heap.wellFormed_block hn hvec (hes.wellFormed hs))
  | copy x => exact x.elim
  | load x => exact x.elim

theorem Expr.SpellsAll.wellFormed {es : List (Expr Empty)} {elems ns : List Node}
    (hs : h.Standard c) (hspell : Expr.SpellsAll h Empty.elim es elems ns) :
    ∀ n ∈ elems, OrNull (h.WellFormedAs c) n := by
  cases es with
  | nil =>
    obtain ⟨rfl, -⟩ := hspell
    exact fun n hn => by cases hn
  | cons e es =>
    obtain ⟨n, rest, ns₁, ns₂, rfl, -, he, hes⟩ := hspell
    exact List.forall_mem_cons.2 ⟨he.wellFormed hs, hes.wellFormed hs⟩
end

/-! ### Hosts -/

end TreeMachine.Compile
