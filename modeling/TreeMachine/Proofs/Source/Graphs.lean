import TreeMachine.Proofs.Node.Closed
import TreeMachine.Proofs.Source.Roundtrip

/-! # Texts are read as well-formed graphs

  The numbered nodes of a form refer to each other and to nothing else, also where the form
  goes back to nodes that it is inside of.  Main statement: whatever a text is read as is
  null or a well-formed node.
-/

namespace TreeMachine.Source

variable {h h' h₀ : Heap} {c : Catalogue} {N : Node → Tag → Prop} {M : NodeMemory}
  {ν : Nat → Option Node} {F : Forest} {n : Node} {Q : Nat → Prop} {s : Scalars} {x : Addr}
  {r : Cell}

/-- A cell that refers to nodes of the set, or to nothing, is the record of a node. -/
theorem hasNode_of_laid (hs : h.Standard c) (hl : Heap.Laid h.types.scalars h.arena.Owns n x r)
    (hr : ∀ m ∈ r.children, OrNull N m) :
    ∃ fields, h.HasNode c N n r.tag 0 fields := by
  have hliteral {t : Ty} (hn : h.arena.Owns n [Tag.literal.word, 0, t, x]) (ht : c.Knows t) :
      h.HasNode c N n .literal 0 [t, x] := by
    refine ⟨hn, rfl, Or.inl rfl, fun i w hi => absurd hi (Nat.not_lt_zero i), fun _ u hu => ?_,
      fun hb => by cases hb⟩
    cases hu
    exact ht
  cases r with
  | integer v =>
    cases hl with
    | integer hn _ => exact ⟨_, hliteral hn (Heap.knows_of_mem hs.integer)⟩
  | quote q =>
    cases hl with
    | quote hn _ => exact ⟨_, hliteral hn (Heap.knows_of_mem hs.ast)⟩
  | fields t ms =>
    obtain ⟨hn, hlen, ht⟩ := hl.of_fields
    exact ⟨_, hn, hlen, Or.inl rfl, fun i w _ hw => hr w (List.mem_of_getElem? hw),
      fun hl => absurd hl ht.1, fun hb => absurd hb ht.2⟩
  | block elems =>
    refine ⟨_, hl.of_block.1, rfl, Or.inl rfl, fun i w hi => absurd hi (Nat.not_lt_zero i),
      fun hl => (by cases hl), fun _ vec hvec => ?_⟩
    cases hvec
    refine (Heap.laid_iff_spread.1 hl).vector.imp And.left ?_
    rintro ⟨capacity, hvec⟩
    exact ⟨elems, capacity, hvec, hr⟩

/-- The nodes with numbers below `b`, with their tags. -/
def Numbered (M : NodeMemory) (ν : Nat → Option Node) (b : Nat) (m : Node) (t : Tag) : Prop :=
  ∃ k < b, ν k = some m ∧ ∃ r, M m = some r ∧ r.tag = t

theorem Shows.numbered (hsh : Shows h M ν) {b : Nat} {m m' : Node} (hmm : Under ν ν b m m') :
    OrNull (Numbered M ν b) m := by
  refine hmm.imp And.left ?_
  rintro ⟨k, hk, hn, -⟩
  obtain ⟨r, hr⟩ := hsh.cell hn
  exact ⟨r.tag, k, hk, hn, r, hr, rfl⟩

/-- The nodes of a form are a closed set. -/
theorem Shows.closed (hsh : Shows h M ν) (hst : Stands M ν 0 F [n]) (hs : h.Standard c)
    (hF : F.Scoped Q 0) : h.Closed c (Numbered M ν F.size) := by
  rintro m t ⟨k, hk, hn, r, hr, rfl⟩
  -- A form corresponds to itself, so whatever its nodes refer to has a number.
  obtain ⟨-, hcells⟩ := stands_like hst hst hF (b := F.size) (by omega)
  obtain ⟨m₁, m₂, r₁, r₂, hm₁, hm₂, hr₁, hr₂, hlike⟩ := hcells k (Nat.zero_le k) (by omega)
  rw [hn] at hm₁ hm₂
  cases hm₁
  cases hm₂
  rw [hr] at hr₁ hr₂
  cases hr₁
  cases hr₂
  obtain ⟨x, hl⟩ := hsh.laid hr
  exact ⟨0, hasNode_of_laid hs hl fun w hw =>
    hsh.numbered (List.forall₂_same.1 hlike.children w hw)⟩

/-- What stands for a form is null or well formed. -/
theorem Made.wellFormed (hm : Made h₀ h F n) (hs : h.Standard c) (hF : F.Scoped Q 0) :
    OrNull (h.WellFormedAs c) n := by
  obtain ⟨-, M, ν, hsh, hst⟩ := hm
  obtain ⟨hroot, -⟩ := stands_like hst hst hF (b := F.size) (by omega)
  have hclosed := hsh.closed hst hs hF
  cases hroot with
  | cons hroot _ => exact (hsh.numbered hroot).imp_right fun ⟨t, ht⟩ => ⟨t, _, hclosed, ht⟩

/-- Whatever a text is read as is null or well formed. -/
theorem read_wellFormed (hs : h.Standard c) (hidle : h.arena.collecting = false) {text : List UInt8}
    (hread : read text h = .ok n h') : OrNull (h'.WellFormedAs c) n := by
  obtain ⟨F, hmade, hF, -⟩ := read_made hs hidle hread
  exact hmade.wellFormed (hmade.1.standard hs) hF

end TreeMachine.Source
