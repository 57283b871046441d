import TreeMachine.Proofs.Compile.Blocks
import TreeMachine.Proofs.Compile.Choices
import TreeMachine.Proofs.Compile.Halves
import TreeMachine.Proofs.Compile.References

/-! # Generating trees

  Main statement: a tree of distinct nodes that spells an expression is generated, for every
  degree, with code that leaves the words of the expression where they are wanted; and if it
  is rejected, then the expression has no width.
-/

namespace TreeMachine.Compile

open Code (Module Value)

variable {X : Type} {W : List Record} {node : X → Node} {place : X → Location} {c : Catalogue}
  {R : Nat}

/-- The empty expression needs no code. -/
theorem null_outcome {g : Generator} {depth : Nat} {d : Degree} {at_ : Location}
    (hready : Ready W node place g c R) :
    Outcome W place (.null : Expr X) [] d at_ g c R (generate depth 0 d at_) g := by
  have hrun : generate depth 0 d at_ g = .ok .none g := by
    cases depth <;> rfl
  have hcode := Module.Emits.refl hready.opened hready.count
  have hslot : ∀ at_, LeavesSlot place (.null : Expr X) g.module R g.module R at_ 0 := by
    intro at_
    refine hcode.imp ?_
    intro p S f f' hcon hf hdone
    subst hdone
    refine ⟨.refl _ _ _ _ _, ?_⟩
    intro env _
    rw [Expr.eval]
    exact Code.Stands.nil _ _
  refine Yields.of_ok hrun ⟨0, c, R, ?_, .refl hready.standard.toInterned, hready.room, rfl, rfl,
    Nat.le_add_right _ _, ?_⟩
  · rw [Expr.width]
  cases d with
  | value =>
    refine ⟨rfl, ⟨R, Nat.le_refl R, Nat.le_refl R, rfl, hcode.imp ?_⟩, [], ?_, ?_⟩
    · intro p S f f' hcon hf hdone
      subst hdone
      refine ⟨.refl _ _ _ _ _, ?_⟩
      intro env _
      rw [Expr.eval]
      exact Code.Stands.nil _ _
    · rw [List.append_nil]
    · simp
  | storeInto =>
    refine ⟨fun hpos => absurd hpos (by omega), fun _ => rfl, hslot at_, [], ?_, ?_⟩
    · rw [List.append_nil]
      rfl
    · simp
  | ownSlot =>
    refine ⟨fun hpos => absurd hpos (by omega), fun _ => rfl, hslot _, [], ?_, ?_⟩
    · rw [List.append_nil]
    · simp

/-- A literal. -/
theorem literal_outcome {g : Generator} {site : Site} {gen : SubGen} {object : Addr} {w : UInt64}
    (h : AtSite W node place g c R site [])
    (hn : g.heap.arena.Owns site.node [Tag.literal.word, 0, g.heap.types.scalars.integer, object])
    (hobject : g.heap.arena.Owns object [w]) :
    Outcome W place (.literal w) [site.node] site.degree.inner site.storage g c R
      (body gen site .literal) g := by
  obtain ⟨hvalue, hwords⟩ := Heap.literal_eq h.ready.standard hn hobject
  have hlook : look (·.literalValue site.node) g = .ok (g.heap.types.scalars.integer, object) g :=
    look_eq_ok hvalue
  have hlook' : look (·.literalWords site.node) g = .ok [w] g := look_eq_ok hwords
  have hbody : body gen site .literal g
      = (do finishPlain site (← build (Module.const [w])) g.heap.types.scalars.integer) g :=
    (bind_eq_ok hlook).trans (bind_eq_ok hlook')
  refine Yields.congr hbody (constant_outcome h ?_ ?_ ?_ rfl)
  · rw [Expr.width]
  · intro env
    rw [Expr.eval]
  · rw [Expr.volume]

/-- The number zero. -/
theorem zero_outcome {g : Generator} {site : Site} {gen : SubGen}
    (h : AtSite W node place g c R site []) :
    Outcome W place (.zero : Expr X) [site.node] site.degree.inner site.storage g c R
      (body gen site .zero) g := by
  refine Yields.congr
    (y := do finishPlain site (← build (Module.const [0])) g.heap.types.scalars.integer) rfl
    (constant_outcome h ?_ ?_ ?_ rfl)
  · rw [Expr.width]
  · intro env
    rw [Expr.eval]
  · rw [Expr.volume]

/-- A tree with a node takes depth, and the trees below it take less. -/
theorem depth_cases {depth : Nat} {n : Node} {sub : List Node} (hlen : (n :: sub).length ≤ depth)
    (hnodup : (n :: sub).Nodup) :
    ∃ k, depth = k + 1 ∧ sub.length ≤ k ∧ n ∉ sub ∧ sub.Nodup := by
  obtain ⟨hnew, hsub⟩ := List.nodup_cons.1 hnodup
  rw [List.length_cons] at hlen
  exact ⟨depth - 1, by omega, by omega, hnew, hsub⟩

mutual
/-- Generation works for every expression, if it may go as deep as its tree has nodes. -/
theorem works (e : Expr X) {depth : Nat} {n : Node} {ns : List Node} (hlen : ns.length ≤ depth)
    (hnodup : ns.Nodup) : Works W node place (generate depth) e n ns := by
  intro g c R d at_ hready hspell hfresh hW hat
  cases e with
  | null =>
    obtain ⟨rfl, rfl⟩ := hspell
    exact null_outcome hready
  | literal w =>
    obtain ⟨rfl, object, hn, hobject⟩ := hspell
    obtain ⟨depth, rfl, -, hnew, -⟩ := depth_cases hlen hnodup
    refine generate_outcome hready hfresh hnew hn hat ?_
    intro g₁ site hsite hnode hheap
    subst hnode
    rw [← hheap] at hn hobject
    exact literal_outcome hsite hn hobject
  | zero =>
    obtain ⟨rfl, hn⟩ := hspell
    obtain ⟨depth, rfl, -, hnew, -⟩ := depth_cases hlen hnodup
    refine generate_outcome hready hfresh hnew hn hat ?_
    intro g₁ site hsite hnode hheap
    subst hnode
    exact zero_outcome hsite
  | step op a =>
    obtain ⟨n₁, ns₁, rfl, hn, hspell₁⟩ := hspell
    obtain ⟨depth, rfl, hsub, hnew, hnodup₁⟩ := depth_cases hlen hnodup
    refine generate_outcome hready hfresh hnew hn hat ?_
    intro g₁ site hsite hnode hheap
    subst hnode
    rw [← hheap] at hn hspell₁ hW
    exact step_outcome hsite hn hspell₁ (works a hsub hnodup₁) hW
  | arith op a b =>
    obtain ⟨n₁, n₂, ns₁, ns₂, rfl, hn, hspell₁, hspell₂⟩ := hspell
    obtain ⟨depth, rfl, hsub, hnew, hnodup'⟩ := depth_cases hlen hnodup
    obtain ⟨hnodup₁, hnodup₂, -⟩ := List.nodup_append.1 hnodup'
    rw [List.length_append] at hsub
    refine generate_outcome hready hfresh hnew hn hat ?_
    intro g₁ site hsite hnode hheap
    subst hnode
    rw [← hheap] at hn hspell₁ hspell₂ hW
    exact arith_outcome hsite hnodup' hn hspell₁ hspell₂ (works a (by omega) hnodup₁)
      (works b (by omega) hnodup₂) hW
  | cond a t e =>
    obtain ⟨n₁, n₂, n₃, ns₁, ns₂, ns₃, rfl, hn, hspell₁, hspell₂, hspell₃⟩ := hspell
    obtain ⟨depth, rfl, hsub, hnew, hnodup'⟩ := depth_cases hlen hnodup
    obtain ⟨hnodup₁₂, hnodup₃, -⟩ := List.nodup_append.1 hnodup'
    obtain ⟨hnodup₁, hnodup₂, -⟩ := List.nodup_append.1 hnodup₁₂
    rw [List.length_append, List.length_append] at hsub
    refine generate_outcome hready hfresh hnew hn hat ?_
    intro g₁ site hsite hnode hheap
    subst hnode
    rw [← hheap] at hn hspell₁ hspell₂ hspell₃ hW
    exact choice_outcome hsite hnodup' hn hspell₁ hspell₂ hspell₃ (works a (by omega) hnodup₁)
      (works t (by omega) hnodup₂) (works e (by omega) hnodup₃) hW
  | concat a b =>
    obtain ⟨n₁, n₂, ns₁, ns₂, rfl, hn, hspell₁, hspell₂⟩ := hspell
    obtain ⟨depth, rfl, hsub, hnew, hnodup'⟩ := depth_cases hlen hnodup
    obtain ⟨hnodup₁, hnodup₂, -⟩ := List.nodup_append.1 hnodup'
    rw [List.length_append] at hsub
    refine generate_outcome hready hfresh hnew hn hat ?_
    intro g₁ site hsite hnode hheap
    subst hnode
    rw [← hheap] at hn hspell₁ hspell₂ hW
    exact concat_outcome hsite hnodup' hn hspell₁ hspell₂ (works a (by omega) hnodup₁)
      (works b (by omega) hnodup₂) hW
  | block es =>
    obtain ⟨vec, elems, ns₁, rfl, hn, hspells, hvec⟩ := hspell
    obtain ⟨depth, rfl, hsub, hnew, hnodup₁⟩ := depth_cases hlen hnodup
    refine generate_outcome hready hfresh hnew hn hat ?_
    intro g₁ site hsite hnode hheap
    subst hnode
    rw [← hheap] at hn hspells hvec hW
    exact block_outcome hsite hnodup₁ hn hspells hvec (worksAll es hsub) hW
  | copy x =>
    obtain ⟨rfl, hn⟩ := hspell
    obtain ⟨depth, rfl, -, hnew, -⟩ := depth_cases hlen hnodup
    refine generate_outcome hready hfresh hnew hn hat ?_
    intro g₁ site hsite hnode hheap
    subst hnode
    rw [← hheap] at hn
    exact copy_outcome hsite hn
  | load x =>
    obtain ⟨q, rfl, hn, hq⟩ := hspell
    obtain ⟨depth, rfl, hsub, hnew, hnodup'⟩ := depth_cases hlen hnodup
    obtain ⟨depth, rfl, -⟩ := depth_cases hsub hnodup'
    refine generate_outcome hready hfresh hnew hn hat ?_
    intro g₁ site hsite hnode hheap
    subst hnode
    rw [← hheap] at hn hq hW
    exact load_outcome hsite hn hq hW

/-- Generation works for all the elements. -/
theorem worksAll (es : List (Expr X)) {depth : Nat} {ns : List Node} (hlen : ns.length ≤ depth) :
    WorkAll W node place (generate depth) ns es := by
  cases es with
  | nil => exact fun e he => by cases he
  | cons e es =>
    intro e' he n ns' hsub hnodup
    by_cases heq : e' = e
    · rw [heq]
      have hle := (List.subperm_of_subset hnodup hsub).length_le
      exact works e (by omega) hnodup
    · have hmem : e' ∈ es := (List.mem_cons.1 he).resolve_left heq
      exact worksAll es hlen e' hmem n ns' hsub hnodup
end

end TreeMachine.Compile
