import TreeMachine.Proofs.Node.Records

/-! # Entries of nodes

  A stock says which nodes there are and what each of them holds.  Pieces of the heap house
  a stock if every node has a piece for its record and, where it holds a value or elements,
  another piece that belongs to it alone.  Main statement: a node can be laid out anew as
  long as it takes no piece from another.
-/

namespace TreeMachine

/-- What a node holds, with the node before it. -/
inductive NodeEntry where
  /-- A literal of type `t` with the words of its value. -/
  | literal (before : Node) (t : Ty) (ws : List UInt64)
  /-- The payload of a node that is neither a literal nor a block. -/
  | fields (t : Tag) (before : Node) (ms : List UInt64)
  | block (before : Node) (elems : List Node)
deriving DecidableEq, Repr

/-- The entries of nodes. -/
abbrev Stock := Node → Option NodeEntry

/-- A single node and its entry. -/
def Stock.only (n : Node) (e : NodeEntry) : Stock := Function.update (fun _ => none) n (some e)

theorem Stock.only_eq_some {n m : Node} {e e' : NodeEntry} :
    Stock.only n e m = some e' ↔ m = n ∧ e' = e := by
  by_cases hmn : m = n
  · subst hmn
    rw [only, Function.update_self]
    simp [eq_comm]
  · rw [only, Function.update_of_ne hmn]
    simp [hmn]

namespace Heap

/-- The entry is laid out at `n`, and in the object or vector at `x` if it has one; `S` says
    which words stand where. -/
inductive Spread (S : Addr → List UInt64 → Prop) (n : Node) : Addr → NodeEntry → Prop
  /-- A value without words has no object. -/
  | void {before : Node} {t : Ty} : S n [Tag.literal.word, before, t, 0] →
    Spread S n 0 (.literal before t [])
  | literal {x : Addr} {before : Node} {t : Ty} {ws : List UInt64} : ws ≠ [] →
    S n [Tag.literal.word, before, t, x] → S x ws → Spread S n x (.literal before t ws)
  | fields {t : Tag} {before : Node} {ms : List UInt64} : S n (t.word :: before :: ms) →
    ms.length = t.fields → t ≠ .literal ∧ t ≠ .block → Spread S n 0 (.fields t before ms)
  | empty {before : Node} : S n [Tag.block.word, before, 0] → Spread S n 0 (.block before [])
  | block {x : Addr} {before : Node} {elems slack : List Node} :
    S n [Tag.block.word, before, x] → S x (vectorOf elems slack) →
    0 < elems.length + slack.length → Spread S n x (.block before elems)

variable {S S' : Addr → List UInt64 → Prop} {n m x y : Addr} {e : NodeEntry} {e? : Option NodeEntry}
  {P P' : Addr → Option (List UInt64)} {E : Stock}

namespace Spread

/-- An entry stays while its words do. -/
theorem imp (hl : Spread S n x e) (hn : ∀ ws, S n ws → S' n ws)
    (hx : x ≠ 0 → ∀ ws, S x ws → S' x ws) (h0 : ∀ ws, ¬ S 0 ws) : Spread S' n x e := by
  have hne : ∀ {ws}, S x ws → x ≠ 0 := by
    rintro ws hs rfl
    exact h0 ws hs
  cases hl with
  | void hr => exact .void (hn _ hr)
  | literal hws hr hp => exact .literal hws (hn _ hr) (hx (hne hp) _ hp)
  | fields hr hlen ht => exact .fields (hn _ hr) hlen ht
  | empty hr => exact .empty (hn _ hr)
  | block hr hp hpos => exact .block (hn _ hr) (hx (hne hp) _ hp) hpos

theorem record (hl : Spread S n x e) : ∃ ws, S n ws := by
  cases hl with
  | void hr | literal _ hr | fields hr | empty hr | block hr => exact ⟨_, hr⟩

theorem payload (hl : Spread S n x e) : x = 0 ∨ ∃ ws, S x ws := by
  cases hl with
  | void | fields | empty => exact Or.inl rfl
  | literal _ _ hp | block _ hp => exact Or.inr ⟨_, hp⟩

theorem of_fields {t : Tag} {before : Node} {ms : List UInt64}
    (hl : Spread S n x (.fields t before ms)) :
    S n (t.word :: before :: ms) ∧ ms.length = t.fields ∧ t ≠ .literal ∧ t ≠ .block := by
  cases hl with
  | fields hr hlen ht => exact ⟨hr, hlen, ht⟩

theorem of_literal {before : Node} {t : Ty} {ws : List UInt64}
    (hl : Spread S n x (.literal before t ws)) :
    S n [Tag.literal.word, before, t, x] ∧ (x = 0 ∧ ws = [] ∨ ws ≠ [] ∧ S x ws) := by
  cases hl with
  | void hr => exact ⟨hr, Or.inl ⟨rfl, rfl⟩⟩
  | literal hws hr hp => exact ⟨hr, Or.inr ⟨hws, hp⟩⟩

theorem of_block {before : Node} {elems : List Node} (hl : Spread S n x (.block before elems)) :
    S n [Tag.block.word, before, x] ∧ (x = 0 ∧ elems = [] ∨
      ∃ slack, S x (vectorOf elems slack) ∧ 0 < elems.length + slack.length) := by
  cases hl with
  | empty hr => exact ⟨hr, Or.inl ⟨rfl, rfl⟩⟩
  | block hr hp hpos => exact ⟨hr, Or.inr ⟨_, hp, hpos⟩⟩

/-- The words of a block that hold its elements. -/
theorem vector {a : Arena} {before : Node} {elems : List Node}
    (hl : Spread a.Owns n x (.block before elems)) : x = 0 ∧ elems = [] ∨
      ∃ capacity, a.Owns x (UInt64.ofNat elems.length :: capacity :: elems) := by
  rcases hl.of_block.2 with hvec | ⟨slack, hvec, -⟩
  · exact Or.inl hvec
  · have htake := hvec.take (elems.length + 2)
    rw [vectorOf, List.take_succ_cons, List.take_succ_cons, List.take_left] at htake
    exact Or.inr ⟨_, htake⟩

end Spread

/-! ### Houses -/

/-- Every node of the stock is laid out, and no two share an object or vector. -/
structure Housed (P : Addr → Option (List UInt64)) (x : Node → Addr) (E : Stock) : Prop where
  null : P 0 = none
  spread : ∀ {n e}, E n = some e → Spread (fun a ws => P a = some ws) n (x n) e
  payload : ∀ {n e}, E n = some e → E (x n) = none
  own : ∀ {n m e e'}, E n = some e → E m = some e' → x n = x m → x n ≠ 0 → n = m

namespace Housed

variable {x : Node → Addr} {e' : NodeEntry}

theorem piece (hl : Housed P x E) (hn : E n = some e) : ∃ ws, P n = some ws :=
  (hl.spread hn).record

theorem fresh (hl : Housed P x E) (hn : P n = none) : E n = none := by
  cases hE : E n with
  | none => rfl
  | some e =>
    obtain ⟨ws, hws⟩ := hl.piece hE
    rw [hn] at hws
    cases hws

theorem ne_zero (hl : Housed P x E) (hn : E n = some e) : n ≠ 0 := by
  rintro rfl
  obtain ⟨ws, hws⟩ := hl.piece hn
  rw [hl.null] at hws
  cases hws

theorem payload_ne (hl : Housed P x E) (hn : E n = some e) : x n ≠ n := by
  intro heq
  have hout := hl.payload hn
  rw [heq, hn] at hout
  cases hout

/-- What belongs to one node does not belong to another. -/
theorem apart (hl : Housed P x E) (hn : E n = some e) (hm : E m = some e') (hmn : m ≠ n) :
    m ≠ x n ∧ x m ≠ n ∧ (x m ≠ 0 → x m ≠ x n) := by
  refine ⟨?_, ?_, fun h0 heq => hmn (hl.own hm hn heq h0)⟩
  · rintro rfl
    rw [hl.payload hn] at hm
    cases hm
  · rintro rfl
    rw [hl.payload hm] at hn
    cases hn

/-- More pieces do no harm. -/
theorem mono (hl : Housed P x E) (hnull : P' 0 = none)
    (hle : ∀ {a ws}, P a = some ws → P' a = some ws) : Housed P' x E where
  null := hnull
  spread hn := (hl.spread hn).imp (fun _ => hle) (fun _ _ => hle) fun ws hws => by
    rw [hl.null] at hws
    cases hws
  payload := hl.payload
  own := hl.own

/-- A single node. -/
theorem single (hnull : P 0 = none) (hspread : Spread (fun a ws => P a = some ws) n y e)
    (hne : y ≠ n) : Housed P (fun _ => y) (Stock.only n e) where
  null := hnull
  spread hm := by
    obtain ⟨rfl, rfl⟩ := Stock.only_eq_some.1 hm
    exact hspread
  payload hm := by
    obtain ⟨rfl, rfl⟩ := Stock.only_eq_some.1 hm
    exact Function.update_of_ne hne ..
  own hm hm' _ _ := (Stock.only_eq_some.1 hm).1.trans (Stock.only_eq_some.1 hm').1.symm

/-! ### Houses apart -/

section Both

variable {Q : Addr → Option (List UInt64)} {y : Node → Addr} {E' : Stock}

/-- A node that is laid out in other pieces is another node. -/
theorem absent (hl : Housed P x E) (hl' : Housed Q y E')
    (hnone : ∀ {a ws}, P a = some ws → Q a = none) (hn : E' n = some e) : E n = none := by
  obtain ⟨ws, hws⟩ := hl'.piece hn
  refine hl.fresh ?_
  cases hP : P n with
  | none => rfl
  | some vs =>
    rw [hnone hP] at hws
    cases hws

/-- What belongs to a node is no piece of others. -/
theorem payload_absent (hl : Housed P x E) (hnull : Q 0 = none)
    (hnone : ∀ {a ws}, P a = some ws → Q a = none) (hn : E n = some e) : Q (x n) = none := by
  rcases (hl.spread hn).payload with h0 | ⟨ws, hws⟩
  · rw [h0]
    exact hnull
  · exact hnone hws

/-- Two stocks in pieces that have nothing in common. -/
theorem both (hl : Housed P x E) (hl' : Housed Q y E')
    (hnone : ∀ {a ws}, P a = some ws → Q a = none) :
    Housed (fun a => (P a).or (Q a)) (fun n => if E n = none then y n else x n)
      fun n => (E n).or (E' n) := by
  have hnone' : ∀ {a ws}, Q a = some ws → P a = none := by
    intro a ws ha
    cases hP : P a with
    | none => rfl
    | some vs =>
      rw [hnone hP] at ha
      cases ha
  have hold : ∀ {n e}, E n = some e → E n ≠ none := by
    intro n e hn
    rw [hn]
    nofun
  have hcross : ∀ {n m e e'}, E n = some e → E' m = some e' → x n = y m → x n = 0 := by
    intro n m e e' hn hm heq
    refine ((hl.spread hn).payload).resolve_right ?_
    rintro ⟨ws, hws⟩
    rw [heq, hl'.payload_absent hl.null hnone' hm] at hws
    cases hws
  have hnull : (P 0).or (Q 0) = none := by
    rw [hl.null, hl'.null]
    rfl
  have hleft : Housed (fun a => (P a).or (Q a)) x E := by
    apply hl.mono hnull
    intro a ws ha
    simp [ha]
  have hright : Housed (fun a => (P a).or (Q a)) y E' := by
    apply hl'.mono hnull
    intro a ws ha
    simp [ha, hnone' ha]
  refine ⟨hnull, ?_, ?_, ?_⟩
  · intro n e hn
    rcases Option.or_eq_some_iff.1 hn with hn | ⟨hn', hn⟩
    · rw [if_neg (hold hn)]
      exact hleft.spread hn
    · rw [if_pos hn']
      exact hright.spread hn
  · intro n e hn
    rcases Option.or_eq_some_iff.1 hn with hn | ⟨hn', hn⟩
    · rw [if_neg (hold hn), hl.payload hn, Option.none_or]
      exact hl'.fresh (hl.payload_absent hl'.null hnone hn)
    · rw [if_pos hn', hl'.payload hn, Option.or_none]
      exact hl.fresh (hl'.payload_absent hl.null hnone' hn)
  · intro n m e e' hn hm heq h0
    rcases Option.or_eq_some_iff.1 hn with hn | ⟨hn', hn⟩ <;>
      rcases Option.or_eq_some_iff.1 hm with hm | ⟨hm', hm⟩
    · rw [if_neg (hold hn)] at heq h0
      rw [if_neg (hold hm)] at heq
      exact hl.own hn hm heq h0
    · rw [if_neg (hold hn)] at heq h0
      rw [if_pos hm'] at heq
      exact absurd (hcross hn hm heq) h0
    · rw [if_pos hn'] at heq h0
      rw [if_neg (hold hm)] at heq
      rw [heq] at h0
      exact absurd (hcross hm hn heq.symm) h0
    · rw [if_pos hn'] at heq h0
      rw [if_pos hm'] at heq
      exact hl'.own hn hm heq h0

end Both

/-! ### Changes -/

/-- A node of the stock is laid out anew, or given up. -/
theorem set (hl : Housed P x E) (hn : E n = some e) (hnull : P' 0 = none)
    (hkeep : ∀ a ws, a ≠ n → a ≠ x n → P a = some ws → P' a = some ws)
    (hspread : ∀ e', e? = some e' → Spread (fun a ws => P' a = some ws) n y e')
    (hy : y = x n ∨ P y = none) (hne : y ≠ n) :
    Housed P' (Function.update x n y) (Function.update E n e?) := by
  have hout : E y = none := by
    rcases hy with rfl | hnone
    · exact hl.payload hn
    · exact hl.fresh hnone
  have hother : ∀ {m e'}, E m = some e' → m ≠ n → x m ≠ 0 → x m ≠ y := by
    intro m e' hm hmn h0
    rcases hy with rfl | hnone
    · exact (hl.apart hn hm hmn).2.2 h0
    · obtain ⟨ws, hws⟩ := ((hl.spread hm).payload).resolve_left h0
      rintro rfl
      rw [hnone] at hws
      cases hws
  -- Each field splits on whether the node is the one that is laid out.
  refine ⟨hnull, ?_, ?_, ?_⟩
  · intro m e' hm
    by_cases hmn : m = n
    · subst hmn
      rw [Function.update_self] at hm ⊢
      exact hspread _ hm
    · rw [Function.update_of_ne hmn] at hm ⊢
      obtain ⟨hmx, hxn, hxx⟩ := hl.apart hn hm hmn
      refine (hl.spread hm).imp (fun ws hws => hkeep m ws hmn hmx hws) ?_ ?_
      · exact fun h0 ws hws => hkeep _ ws hxn (hxx h0) hws
      · intro ws hws
        rw [hl.null] at hws
        cases hws
  · intro m e' hm
    by_cases hmn : m = n
    · subst hmn
      rw [Function.update_self, Function.update_of_ne hne]
      exact hout
    · rw [Function.update_of_ne hmn] at hm ⊢
      rw [Function.update_of_ne (hl.apart hn hm hmn).2.1]
      exact hl.payload hm
  · intro m m' e₁ e₂ hm hm' heq h0
    by_cases hmn : m = n
    · by_cases hmn' : m' = n
      · rw [hmn, hmn']
      · rw [hmn, Function.update_self] at heq h0
        rw [Function.update_of_ne hmn'] at hm' heq
        rw [heq] at h0
        exact absurd heq.symm (hother hm' hmn' h0)
    · rw [Function.update_of_ne hmn] at hm heq h0
      by_cases hmn' : m' = n
      · rw [hmn', Function.update_self] at heq
        exact absurd heq (hother hm hmn h0)
      · rw [Function.update_of_ne hmn'] at hm' heq
        exact hl.own hm hm' heq h0

/-- The record of a node that is its record alone is written anew. -/
theorem setRecord (hl : Housed P x E) (hn : E n = some e') {ws : List UInt64}
    (hspread : ∀ {S : Addr → List UInt64 → Prop}, S n ws → Spread S n 0 e) :
    Housed (Function.update P n (some ws)) (Function.update x n 0)
      (Function.update E n (some e)) := by
  have hn0 := hl.ne_zero hn
  refine hl.set hn ?_ ?_ ?_ (Or.inr hl.null) hn0.symm
  · rw [Function.update_of_ne hn0.symm]
    exact hl.null
  · intro a us han _ ha
    rw [Function.update_of_ne han]
    exact ha
  · rintro _ ⟨⟩
    exact hspread (Function.update_self ..)

/-- A node gets another object or vector. -/
theorem replace (hl : Housed P x E) (hn : E n = some e') {ws vs : List UInt64}
    (hnull : Function.update (Function.update P y (some vs)) n (some ws) 0 = none)
    (hy : P y = none) (hne : y ≠ n)
    (hspread : ∀ {S : Addr → List UInt64 → Prop}, S n ws → S y vs → Spread S n y e) :
    Housed (Function.update (Function.update P y (some vs)) n (some ws)) (Function.update x n y)
      (Function.update E n (some e)) := by
  refine hl.set hn hnull ?_ ?_ (Or.inr hy) hne
  · intro a us han _ ha
    have hay : a ≠ y := by
      rintro rfl
      rw [hy] at ha
      cases ha
    rw [Function.update_of_ne han, Function.update_of_ne hay]
    exact ha
  · rintro _ ⟨⟩
    refine hspread (Function.update_self ..) ?_
    rw [Function.update_of_ne hne, Function.update_self]

/-- The object or vector of a node is written anew. -/
theorem setPayload (hl : Housed P x E) (hn : E n = some e') {vs us : List UInt64}
    (hx : P (x n) = some us)
    (hspread : ∀ e, e? = some e →
      Spread (fun a ws => Function.update P (x n) (some vs) a = some ws) n (x n) e) :
    Housed (Function.update P (x n) (some vs)) x (Function.update E n e?) := by
  have hx0 : x n ≠ 0 := by
    intro h0
    rw [h0, hl.null] at hx
    cases hx
  have hset : Housed (Function.update P (x n) (some vs)) (Function.update x n (x n))
      (Function.update E n e?) := by
    apply hl.set hn _ _ hspread (Or.inl rfl) (hl.payload_ne hn)
    · rw [Function.update_of_ne hx0.symm]
      exact hl.null
    · intro a ws _ hax ha
      rw [Function.update_of_ne hax]
      exact ha
  rwa [Function.update_eq_self] at hset

end Housed

end Heap

end TreeMachine
