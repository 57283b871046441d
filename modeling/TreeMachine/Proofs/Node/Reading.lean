import TreeMachine.Node.Basic
import TreeMachine.Proofs.Types.Integers

/-! # Reading nodes in place

  Main statements: what is read off a node whose record stands in the arena.
-/

namespace TreeMachine

theorem Arena.Owns.take {a : Arena} {addr : Addr} {ws : List UInt64} (h : a.Owns addr ws)
    (k : Nat) : a.Owns addr (ws.take k) where
  toHolds := h.toHolds.take k
  taken i hi := h.taken i (by
    rw [List.length_take] at hi
    omega)

namespace Heap

variable {h : Heap} {n : Node} {t : Tag} {before : Node} {fields : List UInt64}

theorem owns_ne_zero {addr : Addr} {ws : List UInt64} (hn : h.arena.Owns addr ws) : addr ≠ 0 :=
  Arena.toNat_pos_iff.1 hn.pos

theorem tag_eq (hs : h.arena.Sized) (hn : h.arena.Owns n (t.word :: before :: fields)) :
    h.tag n = .ok t := by
  have hw : h.word n = .ok t.word := hn.toHolds.head hs
  rw [tag, except_bind_ok hw, Tag.ofWord?_word]
  rfl

theorem preceding_eq (hs : h.arena.Sized) (hn : h.arena.Owns n (t.word :: before :: fields)) :
    h.preceding n = .ok before :=
  hn.toHolds.word_add hs rfl

/-- A field of a node whose payload is complete. -/
theorem field_eq (hs : h.arena.Sized) (hn : h.arena.Owns n (t.word :: before :: fields))
    (hlen : fields.length = t.fields) {i : Nat} {w : UInt64} (hi : fields[i]? = some w) :
    h.field n i = .ok w := by
  have hlt : i < fields.length := (List.getElem?_eq_some_iff.1 hi).1
  have hin := hn.inside
  have hsmall := hs.lt
  simp only [List.length_cons] at hin
  have hofNat : (UInt64.ofNat i).toNat = i := by
    rw [UInt64.toNat_ofNat']
    omega
  have htwo : headerWords.toNat = 2 := rfl
  have haddr : (n + headerWords + UInt64.ofNat i).toNat = n.toNat + (i + 2) := by
    rw [Arena.toNat_add_of_le hs, Arena.toNat_add_of_le hs, hofNat, htwo]
    · omega
    · omega
    · rw [Arena.toNat_add_of_le hs (by omega), hofNat]
      omega
  have hword : h.word (n + headerWords + UInt64.ofNat i) = .ok w := by
    refine hn.toHolds.word hs ?_ haddr
    rw [List.getElem?_cons_succ, List.getElem?_cons_succ, hi]
  rw [field, except_bind_ok (tag_eq hs hn), if_neg (by omega), Int.toNat_natCast]
  exact hword

/-- All fields of a complete record. -/
theorem fieldsFrom_eq (hs : h.arena.Sized) (hn : h.arena.Owns n (t.word :: before :: fields))
    (hlen : fields.length = t.fields) (i : Nat) :
    h.fieldsFrom n i (fields.length - i) = .ok (fields.drop i) := by
  obtain ⟨k, hk⟩ : ∃ k, fields.length - i = k := ⟨_, rfl⟩
  rw [hk]
  induction k generalizing i with
  | zero => rw [fieldsFrom, List.drop_of_length_le (by omega)]
  | succ k ih =>
    have hi : i < fields.length := by omega
    rw [fieldsFrom, except_bind_ok (field_eq hs hn hlen (List.getElem?_eq_getElem hi)),
      except_bind_ok (ih (i + 1) (by omega)), List.drop_eq_getElem_cons hi]
    rfl

/-! ### Literals -/

section Literals

variable {u : Ty} {object : Addr} {ws : List UInt64} {w : UInt64}

theorem literalValue_eq (hs : h.arena.Sized)
    (hn : h.arena.Owns n [Tag.literal.word, before, u, object]) :
    h.literalValue n = .ok (u, object) := by
  have hexpect : h.expectTag n .literal = .ok () := by
    rw [expectTag, except_bind_ok (tag_eq hs hn), if_neg fun hne => hne rfl]
    rfl
  have h0 : h.field n 0 = .ok u := field_eq hs hn rfl (i := 0) rfl
  have h1 : h.field n 1 = .ok object := field_eq hs hn rfl (i := 1) rfl
  rw [literalValue, except_bind_ok hexpect, except_bind_ok h0, except_bind_ok h1]
  rfl

/-- The words of a literal, which has an object only if there are any. -/
theorem literalWords_eq (hs : h.arena.Sized) (hsize : h.size u = .ok (UInt64.ofNat ws.length))
    (hn : h.arena.Owns n [Tag.literal.word, before, u, object])
    (hobject : ws ≠ [] → h.arena.Owns object ws) : h.literalWords n = .ok ws := by
  rw [literalWords, except_bind_ok (literalValue_eq hs hn)]
  dsimp only
  rw [except_bind_ok hsize]
  by_cases hempty : ws = []
  · subst hempty
    rfl
  · have hin := (hobject hempty).inside
    have hlt := hs.lt
    have hofNat : (UInt64.ofNat ws.length).toNat = ws.length := by
      rw [UInt64.toNat_ofNat']
      omega
    have hpos : 0 < ws.length := List.length_pos_iff.2 hempty
    rw [if_neg (Arena.toNat_pos_iff.1 (by omega))]
    exact (hobject hempty).toHolds.slice hs hofNat.symm

/-- The value of a literal of one word. -/
theorem literal_eq_of_size (hs : h.arena.Sized) (hsize : h.size u = .ok 1)
    (hn : h.arena.Owns n [Tag.literal.word, before, u, object])
    (hobject : h.arena.Owns object [w]) :
    h.literalValue n = .ok (u, object) ∧ h.literalWords n = .ok [w] :=
  ⟨literalValue_eq hs hn, literalWords_eq hs hsize hn fun _ => hobject⟩

/-- The value of a literal of one integer. -/
theorem literal_eq {c : Catalogue} (hs : h.Standard c)
    (hn : h.arena.Owns n [Tag.literal.word, before, h.types.scalars.integer, object])
    (hobject : h.arena.Owns object [w]) :
    h.literalValue n = .ok (h.types.scalars.integer, object) ∧ h.literalWords n = .ok [w] :=
  literal_eq_of_size hs.sized (hs.size_integers (w := 1) rfl).1 hn hobject

end Literals

/-! ### Blocks -/

theorem vector_eq (hs : h.arena.Sized) {vec : Addr}
    (hn : h.arena.Owns n [Tag.block.word, before, vec]) : h.vector n = .ok vec := by
  have hexpect : h.expectTag n .block = .ok () := by
    rw [expectTag, except_bind_ok (tag_eq hs hn), if_neg fun hne => hne rfl]
    rfl
  rw [vector, except_bind_ok hexpect]
  exact field_eq hs hn rfl (i := 0) rfl

/-- The elements of a block. -/
theorem elements_eq (hs : h.arena.Sized) {vec : Addr} {elems : List Node}
    (hn : h.arena.Owns n [Tag.block.word, before, vec])
    (hvec : vec = 0 ∧ elems = [] ∨ ∃ capacity,
      h.arena.Owns vec (UInt64.ofNat elems.length :: capacity :: elems)) :
    h.elements n = .ok elems := by
  rw [elements, except_bind_ok (vector_eq hs hn)]
  rcases hvec with ⟨rfl, rfl⟩ | ⟨capacity, hvec⟩
  · rfl
  · have hin := hvec.inside
    simp only [List.length_cons] at hin
    have hsized := hs
    rw [Arena.Sized] at hsized
    have hlt := hs.lt
    have hlen : (UInt64.ofNat elems.length).toNat = elems.length := by
      rw [UInt64.toNat_ofNat']
      omega
    have hword : h.word vec = .ok (UInt64.ofNat elems.length) := hvec.toHolds.head hs
    have hmax : ¬ Arena.maxWords < UInt64.ofNat elems.length := by
      rw [UInt64.lt_iff_toNat_lt, hlen]
      omega
    rw [if_neg (owns_ne_zero hvec), except_bind_ok hword, if_neg hmax]
    have htwo : vectorHeader.toNat = 2 := rfl
    have hdrop := hvec.toHolds.drop hs (k := vectorHeader) (by
      rw [htwo]
      simp only [List.length_cons]
      omega)
    rw [htwo] at hdrop
    exact hdrop.slice hs hlen.symm

end Heap

end TreeMachine
