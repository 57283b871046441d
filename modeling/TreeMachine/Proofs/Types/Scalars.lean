import TreeMachine.Proofs.Types.Canonical

/-! # Heaps with the scalar types

  A standard heap is an interned one whose scalar types are where the index says.  Heaps
  start as standard ones, and whatever is interned keeps them so.
-/

namespace TreeMachine

/-- The heap is interned and knows its scalar types. -/
structure Heap.Standard (h : Heap) (c : Catalogue) : Prop extends h.Interned c where
  integer : (h.types.scalars.integer, .scalar .integer) ∈ c
  doesNotReturn : (h.types.scalars.doesNotReturn, .scalar .doesNotReturn) ∈ c
  dynamic : (h.types.scalars.dynamic, .scalar .dynamic) ∈ c
  ast : (h.types.scalars.ast, .scalar .ast) ∈ c
  type : (h.types.scalars.type, .scalar .type) ∈ c
  function : (h.types.scalars.function, .scalar .function) ∈ c

namespace Heap

variable {h h' : Heap} {c c' : Catalogue}

theorem Standard.extends (hs : h.Standard c) (he : Extends h c h' c') : h'.Standard c' where
  toInterned := he.interned
  integer := by rw [he.scalars_eq]; exact he.mem hs.integer
  doesNotReturn := by rw [he.scalars_eq]; exact he.mem hs.doesNotReturn
  dynamic := by rw [he.scalars_eq]; exact he.mem hs.dynamic
  ast := by rw [he.scalars_eq]; exact he.mem hs.ast
  type := by rw [he.scalars_eq]; exact he.mem hs.type
  function := by rw [he.scalars_eq]; exact he.mem hs.function

theorem Standard.records (hs : h.Standard c) : .scalar .doesNotReturn ∈ c.records :=
  Catalogue.mem_records hs.doesNotReturn

/-- A heap without types is interned by the empty catalogue. -/
theorem bare_interned {capacity : UInt64} (hwrap : capacity + 1 ≠ 0)
    (hb : bare capacity = .ok h) : h.Interned [] := by
  obtain ⟨a, ha, heq⟩ := of_except_bind_eq_ok hb
  cases heq
  exact ⟨Arena.create_sound hwrap ha, rfl, fun e he => (nomatch he), .nil⟩

/-- The record of a type of plain shape. -/
theorem Interned.record_of_plain (hi : h.Interned c) {t : Ty} {k : Kind}
    (hd : c.Denotes t (.plain k.word)) : (t, .scalar k) ∈ c := by
  rcases hd with ⟨-, hs⟩ | ⟨ht, hs⟩
  · cases hs
  · obtain ⟨r, hr⟩ := Catalogue.exists_record ht
    rw [hi.valid.shapes_eq hr] at hs
    cases r with
    | scalar k' =>
      simp only [Record.shape, Option.some.injEq, Shape.plain.injEq] at hs
      rwa [← Kind.word_injective hs]
    | pointer elem => simp [Record.shape] at hs
    | concat ms => simp [Record.shape] at hs

/-- Interning one scalar type. -/
theorem Interned.internScalar_yields (hi : h.Interned c) (k : Kind)
    (set : Scalars → Ty → Scalars) :
    Yields (internScalar k set) h
      (fun _ h' => ∃ c' t, h'.Interned c' ∧ c <+: c' ∧ (t, .scalar k) ∈ c' ∧
        h'.types.scalars = set h.types.scalars t) (fun _ _ => True) := by
  refine Yields.bind (Yields.bind ?_)
  refine (hi.internWithin_plain k.word).mono ?_ fun _ _ _ => trivial
  rintro ⟨t, made⟩ h₁ ⟨c₁, hm⟩
  have hi₁ := hm.ext.interned
  refine ⟨c₁, t, ⟨hi₁.sound, hi₁.entries_eq, hi₁.owns, hi₁.valid⟩, hm.ext.older,
    hi₁.record_of_plain hm.denotes, ?_⟩
  exact congrArg (set · t) hm.ext.scalars_eq

/-- Interning the six scalar types makes a standard heap. -/
theorem Interned.internScalars_standard (hi : h.Interned c) {u : Unit}
    (hrun : internScalars h = .ok u h') : ∃ c', h'.Standard c' := by
  obtain ⟨_, h₁, hrun₁, hrun⟩ := of_bind_eq_ok hrun
  obtain ⟨c₁, t₁, hi₁, hle₁, hm₁, hs₁⟩ := (hi.internScalar_yields _ _).ok hrun₁
  obtain ⟨_, h₂, hrun₂, hrun⟩ := of_bind_eq_ok hrun
  obtain ⟨c₂, t₂, hi₂, hle₂, hm₂, hs₂⟩ := (hi₁.internScalar_yields _ _).ok hrun₂
  obtain ⟨_, h₃, hrun₃, hrun⟩ := of_bind_eq_ok hrun
  obtain ⟨c₃, t₃, hi₃, hle₃, hm₃, hs₃⟩ := (hi₂.internScalar_yields _ _).ok hrun₃
  obtain ⟨_, h₄, hrun₄, hrun⟩ := of_bind_eq_ok hrun
  obtain ⟨c₄, t₄, hi₄, hle₄, hm₄, hs₄⟩ := (hi₃.internScalar_yields _ _).ok hrun₄
  obtain ⟨_, h₅, hrun₅, hrun⟩ := of_bind_eq_ok hrun
  obtain ⟨c₅, t₅, hi₅, hle₅, hm₅, hs₅⟩ := (hi₄.internScalar_yields _ _).ok hrun₅
  obtain ⟨c₆, t₆, hi₆, hle₆, hm₆, hs₆⟩ := (hi₅.internScalar_yields _ _).ok hrun
  rw [hs₅, hs₄, hs₃, hs₂, hs₁] at hs₆
  refine ⟨c₆, ⟨hi₆, ?_, ?_, ?_, ?_, ?_, ?_⟩⟩ <;> rw [hs₆]
  · exact hle₆.subset (hle₅.subset (hle₄.subset (hle₃.subset (hle₂.subset hm₁))))
  · exact hle₆.subset (hle₅.subset (hle₄.subset (hle₃.subset hm₂)))
  · exact hle₆.subset (hle₅.subset (hle₄.subset hm₃))
  · exact hle₆.subset (hle₅.subset hm₄)
  · exact hle₆.subset hm₅
  · exact hm₆

/-- The arena of the greatest capacity has no words, not even for the scalar types. -/
theorem create_greatest : create 0xFFFFFFFFFFFFFFFF = .error .outOfBounds := rfl

/-- A new heap is a standard one. -/
theorem create_standard {capacity : UInt64} (hc : create capacity = .ok h) :
    ∃ c, h.Standard c := by
  have hwrap : capacity + 1 ≠ 0 := by
    intro h0
    have hmax : capacity = 0xFFFFFFFFFFFFFFFF := by
      rw [← UInt64.toNat_inj, UInt64.toNat_add] at h0
      have hlt := capacity.toNat_lt
      have hone : (1 : UInt64).toNat = 1 := rfl
      apply UInt64.toNat.inj
      rw [UInt64.toNat_zero] at h0
      show capacity.toNat = 18446744073709551615
      omega
    rw [hmax, create_greatest] at hc
    cases hc
  obtain ⟨h₀, hbare, hc⟩ := of_except_bind_eq_ok hc
  split at hc
  · cases hc
    exact (bare_interned hwrap hbare).internScalars_standard ‹_›
  · cases hc

end Heap

end TreeMachine
