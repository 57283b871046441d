/-! # Finite maps

  A finite map as a list of pairs with distinct keys, the pair set last in front.
-/

namespace TreeMachine

/-- A finite map from `κ` to `α`. -/
structure Dict (κ α : Type) where
  pairs : List (κ × α)
deriving Repr, Inhabited

namespace Dict

variable {κ α : Type} [DecidableEq κ]

/-- The map without keys. -/
def empty : Dict κ α := ⟨[]⟩

/-- The value of a key. -/
def get? (d : Dict κ α) (k : κ) : Option α := (d.pairs.find? (·.1 = k)).map (·.2)

/-- Whether a key has a value. -/
def contains (d : Dict κ α) (k : κ) : Bool := (d.get? k).isSome

/-- Removes a key. -/
def erase (d : Dict κ α) (k : κ) : Dict κ α := ⟨d.pairs.filter (·.1 ≠ k)⟩

/-- Gives a key a value, in place of the one it had. -/
def set (d : Dict κ α) (k : κ) (v : α) : Dict κ α := ⟨(k, v) :: (d.erase k).pairs⟩

@[simp] theorem get?_empty (k : κ) : (empty : Dict κ α).get? k = none := rfl

@[simp] theorem get?_set_self (d : Dict κ α) (k : κ) (v : α) : (d.set k v).get? k = some v := by
  simp [get?, set]

theorem get?_erase_self (d : Dict κ α) (k : κ) : (d.erase k).get? k = none := by
  simp [get?, erase, List.find?_eq_none]

theorem get?_erase_ne (d : Dict κ α) {k k' : κ} (h : k' ≠ k) :
    (d.erase k).get? k' = d.get? k' := by
  have same (p : κ × α) : (p.1 ≠ k ∧ p.1 = k') = (p.1 = k') :=
    propext ⟨fun both => both.2, fun eq => ⟨fun other => h (eq.symm.trans other), eq⟩⟩
  simp only [get?, erase, List.find?_filter, decide_eq_true_eq, same]

theorem get?_set_ne (d : Dict κ α) {k k' : κ} (v : α) (h : k' ≠ k) :
    (d.set k v).get? k' = d.get? k' := by
  have hk : ¬ k = k' := fun e => h e.symm
  rw [← get?_erase_ne d h]
  simp [get?, set, hk]

theorem get?_erase (d : Dict κ α) (k k' : κ) :
    (d.erase k).get? k' = if k' = k then none else d.get? k' := by
  split
  · rename_i hk
    rw [hk, get?_erase_self]
  · exact get?_erase_ne d ‹_›

theorem get?_set (d : Dict κ α) (k k' : κ) (v : α) :
    (d.set k v).get? k' = if k' = k then some v else d.get? k' := by
  split
  · rename_i hk
    rw [hk, get?_set_self]
  · exact get?_set_ne d v ‹_›

theorem contains_iff {d : Dict κ α} {k : κ} : d.contains k = true ↔ ∃ v, d.get? k = some v :=
  Option.isSome_iff_exists

theorem get?_of_erase {d : Dict κ α} {k k' : κ} {v : α} (h : (d.erase k).get? k' = some v) :
    d.get? k' = some v := by
  by_cases hk : k' = k
  · rw [hk, get?_erase_self] at h
    cases h
  · rwa [get?_erase_ne d hk] at h

theorem get?_of_set {d : Dict κ α} {k k' : κ} {u v : α} (h : (d.set k u).get? k' = some v) :
    v = u ∨ d.get? k' = some v := by
  by_cases hk : k' = k
  · rw [hk, get?_set_self] at h
    exact Or.inl (Option.some.inj h).symm
  · rw [get?_set_ne d u hk] at h
    exact Or.inr h

end Dict

end TreeMachine
