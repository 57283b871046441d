import TreeMachine.Proofs.Arena.Allocation

/-! # What allocation leaves alone

  An arena grows when it hands out free words and fills them.  Objects that were allocated
  before own their words, and keep them through all growth.
-/

namespace TreeMachine.Arena

/-- Everything that is allocated in `a` stands unchanged in `a'`. -/
structure Grows (a a' : Arena) : Prop where
  size_eq : a'.words.size = a.words.size
  collecting_eq : a'.collecting = a.collecting
  free_sub : ∀ i, a'.Free i → a.Free i
  same : ∀ i, ¬ a.Free i → a'.words[i]? = a.words[i]?

/-- The words `ws` stand at `addr`, and none of them is free. -/
structure Owns (a : Arena) (addr : Addr) (ws : List UInt64) : Prop extends a.Holds addr ws where
  taken : ∀ i, i < ws.length → ¬ a.Free (addr.toNat + i)

namespace Grows

theorem refl (a : Arena) : Grows a a := ⟨rfl, rfl, fun _ h => h, fun _ _ => rfl⟩

theorem trans {a b c : Arena} (hab : Grows a b) (hbc : Grows b c) : Grows a c where
  size_eq := hbc.size_eq.trans hab.size_eq
  collecting_eq := hbc.collecting_eq.trans hab.collecting_eq
  free_sub i hi := hab.free_sub i (hbc.free_sub i hi)
  same i hi := by
    rw [hbc.same i fun h => hi (hab.free_sub i h), hab.same i hi]

/-- Words that were free before may be written. -/
theorem write {a a' : Arena} (h : Grows a a') {addr : Addr} {ws : List UInt64}
    (hin : addr.toNat + ws.length ≤ a.words.size)
    (hfree : ∀ i, addr.toNat ≤ i → i < addr.toNat + ws.length → a.Free i) :
    Grows a { a' with words := writeFrom a'.words addr.toNat ws } where
  size_eq := by rw [size_writeFrom, h.size_eq]
  collecting_eq := h.collecting_eq
  free_sub := h.free_sub
  same i hi := by
    rw [getElem?_writeFrom _ _ _ _ (by rw [h.size_eq]; exact hin), if_neg, h.same i hi]
    rintro ⟨hle, hlt⟩
    exact hi (hfree i hle hlt)

end Grows

theorem Allocated.grows {a a' : Arena} {n : UInt64} {addr : Addr} (h : a.Allocated n addr a') :
    Grows a a' where
  size_eq := h.size_eq
  collecting_eq := h.collecting_eq
  free_sub i hi := ((h.free_iff i).1 hi).1
  same i hi := by
    rw [h.words_eq, if_neg]
    intro hin
    exact hi (h.was_free i hin)

namespace Owns

theorem grows {a a' : Arena} {addr : Addr} {ws : List UInt64} (h : a.Owns addr ws)
    (hg : Grows a a') : a'.Owns addr ws where
  pos := h.pos
  inside := by rw [hg.size_eq]; exact h.inside
  same i hi := by rw [hg.same _ (h.taken i hi), h.same i hi]
  taken i hi hfree := h.taken i hi (hg.free_sub _ hfree)

end Owns

/-! ### Sound arenas stay sound -/

theorem Sound.write {a : Arena} (ha : a.Sound) (i : Nat) (ws : List UInt64) :
    ({ a with words := writeFrom a.words i ws } : Arena).Sound where
  sized := by rw [Sized, size_writeFrom]; exact ha.sized
  inside r hr := by rw [size_writeFrom]; exact ha.inside r hr
  apart := ha.apart
  counted := ha.counted

/-- Fresh words that are filled at once are owned. -/
theorem Allocated.owns_write {a a' : Arena} {n : UInt64} {addr : Addr}
    (h : a.Allocated n addr a') {ws : List UInt64} (hlen : ws.length = n.toNat) :
    ({ a' with words := writeFrom a'.words addr.toNat ws } : Arena).Owns addr ws := by
  have hin := h.region.stop_le
  dsimp only at hin
  have hholds : ({ a' with words := writeFrom a'.words addr.toNat ws } : Arena).Holds addr ws :=
    holds_writeFrom h.region.addr_pos (by rw [h.size_eq, hlen]; exact hin)
  refine ⟨hholds, ?_⟩
  intro i hi hfree
  refine ((h.free_iff _).1 hfree).2 ⟨?_, ?_⟩ <;> dsimp only <;> omega

end TreeMachine.Arena
