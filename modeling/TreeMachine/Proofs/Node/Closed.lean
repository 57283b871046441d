import TreeMachine.Proofs.Node.Reading
import TreeMachine.Proofs.Types.Fitting

/-! # Closed sets of nodes

  A set of nodes is closed if each record has the payload of its tag and refers to nodes of
  the set or to nothing.  Main statement: what is read off the nodes of a closed set, also
  after the heap has grown.
-/

namespace TreeMachine

/-- Null or a node of the set. -/
def OrNull (N : Node → Tag → Prop) (n : Node) : Prop := n = 0 ∨ ∃ t, N n t

namespace Heap

/-- The record of a node of tag `t`.  The type of a literal is known, and a block has the
    vector of its elements or none. -/
structure HasNode (h : Heap) (c : Catalogue) (N : Node → Tag → Prop) (n : Node) (t : Tag)
    (before : Node) (fields : List UInt64) : Prop where
  owns : h.arena.Owns n (t.word :: before :: fields)
  length_eq : fields.length = t.fields
  preceding : OrNull N before
  refers : ∀ (i : Nat) (w : Node), i < t.schema.nodeFields → fields[i]? = some w → OrNull N w
  literal : t = .literal → ∀ u, fields[0]? = some u → c.Knows u
  vector : t = .block → ∀ vec, fields[0]? = some vec → vec = 0 ∨
    ∃ (elems : List Node) (capacity : UInt64),
      h.arena.Owns vec (UInt64.ofNat elems.length :: capacity :: elems) ∧ ∀ e ∈ elems, OrNull N e

/-- The set is closed; `N n t` says that it holds the node `n`, which has the tag `t`. -/
def Closed (h : Heap) (c : Catalogue) (N : Node → Tag → Prop) : Prop :=
  ∀ n t, N n t → ∃ before fields, h.HasNode c N n t before fields

/-- The node has the tag, and all that can be reached from it is well formed. -/
def WellFormedAs (h : Heap) (c : Catalogue) (n : Node) (t : Tag) : Prop :=
  ∃ N, h.Closed c N ∧ N n t

/-- All that can be reached from the node is well formed. -/
def WellFormed (h : Heap) (c : Catalogue) (n : Node) : Prop := ∃ t, h.WellFormedAs c n t

variable {h h' : Heap} {c c' : Catalogue} {N : Node → Tag → Prop} {n : Node} {t : Tag}

/-- A closed set stays closed while the heap grows. -/
theorem Closed.extends (hN : h.Closed c N) (he : Extends h c h' c') : h'.Closed c' N := by
  intro n t hn
  obtain ⟨before, fields, hnode⟩ := hN n t hn
  refine ⟨before, fields, hnode.owns.grows he.grows, hnode.length_eq, hnode.preceding,
    hnode.refers, fun ht u hu => he.knows (hnode.literal ht u hu), fun ht vec hvec => ?_⟩
  refine (hnode.vector ht vec hvec).imp id ?_
  rintro ⟨elems, capacity, howns, helems⟩
  exact ⟨elems, capacity, howns.grows he.grows, helems⟩

theorem Closed.tag_eq (hN : h.Closed c N) (hs : h.arena.Sized) (hn : N n t) :
    h.tag n = .ok t := by
  obtain ⟨before, fields, hnode⟩ := hN n t hn
  exact Heap.tag_eq hs hnode.owns

theorem Closed.preceding_eq (hN : h.Closed c N) (hs : h.arena.Sized) (hn : N n t) :
    ∃ before, h.preceding n = .ok before ∧ OrNull N before := by
  obtain ⟨before, fields, hnode⟩ := hN n t hn
  exact ⟨before, Heap.preceding_eq hs hnode.owns, hnode.preceding⟩

/-- A field that refers to a node. -/
theorem Closed.field_eq (hN : h.Closed c N) (hs : h.arena.Sized) (hn : N n t) {i : Nat}
    (hi : i < t.schema.nodeFields) : ∃ w, h.field n i = .ok w ∧ OrNull N w := by
  obtain ⟨before, fields, hnode⟩ := hN n t hn
  have hle : t.schema.nodeFields ≤ t.fields := by cases t <;> decide
  have hlen := hnode.length_eq
  have hw : fields[i]? = some fields[i] := List.getElem?_eq_getElem (by omega)
  exact ⟨_, Heap.field_eq hs hnode.owns hlen hw, hnode.refers i _ hi hw⟩

/-- A literal has a value. -/
theorem Closed.literal_eq (hN : h.Closed c N) (hs : h.arena.Sized) (hn : N n .literal) :
    ∃ u object, h.literalValue n = .ok (u, object) ∧ c.Knows u := by
  obtain ⟨before, fields, hnode⟩ := hN n _ hn
  have hlen : fields.length = 2 := hnode.length_eq
  have hfield {i : Nat} (hi : i < fields.length) : h.field n i = .ok fields[i] :=
    Heap.field_eq hs hnode.owns hnode.length_eq (List.getElem?_eq_getElem hi)
  have hexpect : h.expectTag n .literal = .ok () := by
    rw [expectTag, except_bind_ok (Heap.tag_eq hs hnode.owns), if_neg fun hne => hne rfl]
    rfl
  have h0 : h.field n 0 = .ok fields[0] := hfield (i := 0) (by omega)
  have h1 : h.field n 1 = .ok fields[1] := hfield (i := 1) (by omega)
  refine ⟨fields[0], fields[1], ?_, hnode.literal rfl _ (List.getElem?_eq_getElem (by omega))⟩
  rw [literalValue, except_bind_ok hexpect, except_bind_ok h0, except_bind_ok h1]
  rfl

/-- The type of a literal. -/
theorem Closed.literal_known (hN : h.Closed c N) (hs : h.arena.Sized) (hn : N n .literal)
    {u : Ty} {object : Addr} (hv : h.literalValue n = .ok (u, object)) : c.Knows u := by
  obtain ⟨u', object', hv', hu⟩ := hN.literal_eq hs hn
  cases hv.symm.trans hv'
  exact hu

/-- The elements of a block. -/
theorem Closed.elements_eq (hN : h.Closed c N) (hs : h.arena.Sized) (hn : N n .block) :
    ∃ elems, h.elements n = .ok elems ∧ ∀ e ∈ elems, OrNull N e := by
  obtain ⟨before, fields, hnode⟩ := hN n _ hn
  have hlen : fields.length = 1 := hnode.length_eq
  obtain ⟨vec, rfl⟩ : ∃ vec, fields = [vec] := List.length_eq_one_iff.1 hlen
  rcases hnode.vector rfl vec rfl with rfl | ⟨elems, capacity, howns, helems⟩
  · exact ⟨[], Heap.elements_eq hs hnode.owns (Or.inl ⟨rfl, rfl⟩), fun e he => by cases he⟩
  · exact ⟨elems, Heap.elements_eq hs hnode.owns (Or.inr ⟨capacity, howns⟩), helems⟩

/-! ### Well-formed nodes -/

theorem HasNode.mono {N' : Node → Tag → Prop} {before : Node} {fields : List UInt64}
    (hn : h.HasNode c N n t before fields) (hN : ∀ k u, N k u → N' k u) :
    h.HasNode c N' n t before fields where
  owns := hn.owns
  length_eq := hn.length_eq
  preceding := hn.preceding.imp id fun hk => hk.imp fun u => hN before u
  refers i w hi hw := (hn.refers i w hi hw).imp id fun hk => hk.imp fun u => hN w u
  literal := hn.literal
  vector ht vec hvec := by
    refine (hn.vector ht vec hvec).imp id ?_
    rintro ⟨elems, capacity, howns, helems⟩
    exact ⟨elems, capacity, howns,
      fun e he => (helems e he).imp id fun hk => hk.imp fun u => hN e u⟩

/-- The well-formed nodes are a closed set, and there is no larger one. -/
theorem closed_wellFormedAs (h : Heap) (c : Catalogue) : h.Closed c (h.WellFormedAs c) := by
  rintro n t ⟨N, hN, hn⟩
  obtain ⟨before, fields, hnode⟩ := hN n t hn
  exact ⟨before, fields, hnode.mono fun k u hk => ⟨N, hN, hk⟩⟩

/-- A node is well formed if all that it refers to is. -/
theorem HasNode.wellFormed {before : Node} {fields : List UInt64}
    (hn : h.HasNode c (h.WellFormedAs c) n t before fields) : h.WellFormed c n := by
  refine ⟨t, fun k u => h.WellFormedAs c k u ∨ k = n ∧ u = t, ?_, Or.inr ⟨rfl, rfl⟩⟩
  rintro k u (hk | ⟨rfl, rfl⟩)
  · obtain ⟨before', fields', hnode⟩ := closed_wellFormedAs h c k u hk
    exact ⟨before', fields', hnode.mono fun _ _ => Or.inl⟩
  · exact ⟨before, fields, hn.mono fun _ _ => Or.inl⟩

/-- A node all of whose fields are nodes. -/
theorem wellFormed_node {fields : List Node} (hn : h.arena.Owns n (t.word :: 0 :: fields))
    (hlen : fields.length = t.fields) (ht : t ≠ .literal ∧ t ≠ .block)
    (hfields : ∀ w ∈ fields, OrNull (h.WellFormedAs c) w) : h.WellFormed c n :=
  HasNode.wellFormed ⟨hn, hlen, Or.inl rfl, fun _ w _ hw => hfields w (List.mem_of_getElem? hw),
    fun hl => absurd hl ht.1, fun hb => absurd hb ht.2⟩

theorem wellFormed_literal {u : Ty} {object : Addr}
    (hn : h.arena.Owns n [Tag.literal.word, 0, u, object]) (hu : c.Knows u) : h.WellFormed c n := by
  refine HasNode.wellFormed (t := .literal) ⟨hn, rfl, Or.inl rfl, fun i w hi => ?_,
    fun _ v hv => ?_, fun hb => by cases hb⟩
  · exact absurd hi (Nat.not_lt_zero i)
  · cases hv
    exact hu

theorem wellFormed_block {vec : Addr} {elems : List Node}
    (hn : h.arena.Owns n [Tag.block.word, 0, vec])
    (hvec : vec = 0 ∧ elems = [] ∨ ∃ capacity,
      h.arena.Owns vec (UInt64.ofNat elems.length :: capacity :: elems))
    (helems : ∀ e ∈ elems, OrNull (h.WellFormedAs c) e) : h.WellFormed c n := by
  refine HasNode.wellFormed (t := .block) ⟨hn, rfl, Or.inl rfl, fun i w hi => ?_,
    fun hl => (by cases hl), fun _ v hv => ?_⟩
  · exact absurd hi (Nat.not_lt_zero i)
  · cases hv
    rcases hvec with ⟨rfl, -⟩ | ⟨capacity, howns⟩
    · exact Or.inl rfl
    · exact Or.inr ⟨elems, capacity, howns, helems⟩

/-- A literal has as many words as its type says. -/
theorem Interned.length_literalWords (hi : h.Interned c) {u : Ty} {object : Addr}
    (hv : h.literalValue n = .ok (u, object)) (hu : c.Knows u) {ws : List UInt64}
    (hws : h.literalWords n = .ok ws) : ws.length = h.width u := by
  obtain ⟨hsize, hlt⟩ := hi.size_known hu
  unfold literalWords at hws
  rw [except_bind_ok hv] at hws
  dsimp only at hws
  rw [except_bind_ok hsize] at hws
  have hnat : (UInt64.ofNat (h.width u)).toNat = h.width u := by
    rw [UInt64.toNat_ofNat']
    omega
  split at hws
  · rename_i hzero
    cases hws
    rw [hzero] at hnat
    exact hnat
  · exact ((Arena.slice_eq_ok_iff hi.sized).1 hws).2.trans hnat

/-- The words of a literal of a known type may not be there, but reading them ends. -/
theorem Interned.literalWords_ne_endless (hi : h.Interned c) {u : Ty} {object : Addr}
    (hv : h.literalValue n = .ok (u, object)) (hu : c.Knows u) :
    h.literalWords n ≠ .error .endless := by
  unfold literalWords
  rw [except_bind_ok hv]
  dsimp only
  rw [except_bind_ok (hi.size_known hu).1]
  split
  · exact fun h => by cases h
  · exact h.arena.slice_ne_endless _ _

end Heap

end TreeMachine
