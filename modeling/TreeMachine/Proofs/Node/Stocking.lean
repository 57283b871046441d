import TreeMachine.Proofs.Node.Entries

/-! # Stocking a heap

  A heap is stocked when the entries of all nodes are laid out in words that were free in
  the beginning.  What is done to free words concerns no node, so two lots of work done one
  after the other add up.  Main statements: what the operations that make and change nodes
  do to the stock, and that they fail for want of memory only.
-/

namespace TreeMachine.Heap

open Arena (Placed Since)

variable {h₀ h h' : Heap} {P Q : Addr → Option (List UInt64)} {E E' : Stock} {e e₀ : NodeEntry}
  {n b m a p : Addr} {before : Node} {t : Tag} {elems : List Node} {ms ws vs : List UInt64}

/-! ### One after the other -/

namespace Carved

/-- Pieces that are taken later are others, and those that there are stay. -/
theorem both (hm : Carved h₀ h P) (hq : Carved h h' Q) :
    (∀ {a ws}, P a = some ws → Q a = none) ∧ Carved h₀ h' fun a => (P a).or (Q a) := by
  have hold : ∀ {a ws}, P a = some ws → Placed h₀.arena h'.arena a ws :=
    fun ha => (hm.placed ha).since ((Since.refl _ _).grows hq.grows)
  have hapart : ∀ {a b ws vs}, P a = some ws → Q b = some vs →
      a.toNat + ws.length ≤ b.toNat ∨ b.toNat + vs.length ≤ a.toNat := by
    intro a b ws vs ha hb
    by_contra hover
    have hpos := hm.nonempty ha
    have hpos' := hq.nonempty hb
    let j := max a.toNat b.toNat
    have htaken := (hm.placed ha).taken (j - a.toNat) (by omega)
    have hfree := (hq.placed hb).was_free (j - b.toNat) (by omega)
    rw [Nat.add_sub_cancel' (by omega)] at htaken hfree
    exact htaken hfree
  have hnone : ∀ {a ws}, P a = some ws → Q a = none := by
    intro a ws ha
    cases hb : Q a with
    | none => rfl
    | some vs =>
      have hpos := hm.nonempty ha
      have hpos' := hq.nonempty hb
      have := hapart ha hb
      omega
  refine ⟨hnone, ⟨hm.toFills.trans hq.toFills, hq.idle, ?_, ?_, ?_⟩⟩
  · intro a ws ha
    rcases Option.or_eq_some_iff.1 ha with ha | ⟨-, ha⟩
    · exact hold ha
    · exact (hq.placed ha).earlier hm.grows
  · intro a ws ha
    rcases Option.or_eq_some_iff.1 ha with ha | ⟨-, ha⟩
    · exact hm.nonempty ha
    · exact hq.nonempty ha
  · intro a b ws vs ha hb hne
    rcases Option.or_eq_some_iff.1 ha with ha | ⟨-, ha⟩ <;>
      rcases Option.or_eq_some_iff.1 hb with hb | ⟨-, hb⟩
    · exact hm.apart ha hb hne
    · exact hapart ha hb
    · exact (hapart hb ha).symm
    · exact hq.apart ha hb hne

/-- Nothing is carved by filling free words. -/
theorem of_fills (hf : h.Fills h' 0) (hidle : h.arena.collecting = false) :
    Carved h h' fun _ => none where
  toFills := hf
  idle := hf.idle hidle
  placed ha := (by cases ha)
  nonempty ha := (by cases ha)
  apart ha := (by cases ha)

end Carved

/-- What has been allocated since `h₀` holds the nodes of the stock. -/
def Stocked (h₀ h : Heap) (E : Stock) : Prop := ∃ P x, Carved h₀ h P ∧ Housed P x E

namespace Stocked

/-- A heap at rest has no nodes that were made since. -/
theorem of_fills (hf : h.Fills h' 0) (hidle : h.arena.collecting = false) :
    Stocked h h' fun _ => none :=
  ⟨_, fun _ => 0, .of_fills hf hidle, rfl, fun hn => (by cases hn), fun hn => (by cases hn),
    fun hn => (by cases hn)⟩

theorem start (hs : h.arena.Sound) (hidle : h.arena.collecting = false) :
    Stocked h h fun _ => none :=
  of_fills (.refl hs fun hlt => absurd hlt (Nat.lt_irrefl 0)) hidle

theorem fills (hp : Stocked h₀ h E) : h₀.Fills h 0 := by
  obtain ⟨P, x, hm, -⟩ := hp
  exact hm.toFills

theorem sound (hp : Stocked h₀ h E) : h.arena.Sound := hp.fills.sound

theorem idle (hp : Stocked h₀ h E) : h.arena.collecting = false := by
  obtain ⟨P, x, hm, -⟩ := hp
  exact hm.idle

theorem ne_zero (hp : Stocked h₀ h E) (hn : E n = some e) : n ≠ 0 := by
  obtain ⟨P, x, -, hl⟩ := hp
  exact hl.ne_zero hn

/-- The words of a node and of what it holds stand in the heap. -/
theorem spread (hp : Stocked h₀ h E) (hn : E n = some e) : ∃ x, Spread h.arena.Owns n x e := by
  obtain ⟨P, x, hm, hl⟩ := hp
  refine ⟨x n, (hl.spread hn).imp (fun ws hws => hm.owns hws) (fun _ ws hws => hm.owns hws) ?_⟩
  intro ws hws
  rw [hl.null] at hws
  cases hws

/-- Nodes that are made later are others, and those that there are stay. -/
theorem both (hp : Stocked h₀ h E) (hq : Stocked h h' E') :
    (∀ {n e}, E' n = some e → E n = none) ∧ Stocked h₀ h' fun n => (E n).or (E' n) := by
  obtain ⟨P, x, hm, hl⟩ := hp
  obtain ⟨Q, y, hm', hl'⟩ := hq
  obtain ⟨hnone, hboth⟩ := hm.both hm'
  exact ⟨hl.absent hl' hnone, _, _, hboth, hl.both hl' hnone⟩

/-- Filling free words changes no node. -/
theorem later (hp : Stocked h₀ h E) (hf : h.Fills h' 0) : Stocked h₀ h' E := by
  have hboth := (hp.both (of_fills hf hp.idle)).2
  simpa only [Option.or_none] using hboth

/-- One more node has been made. -/
theorem more (hp : Stocked h₀ h E) (hq : Stocked h h' (Stock.only n e)) :
    E n = none ∧ n ≠ 0 ∧ Stocked h₀ h' (Function.update E n (some e)) := by
  obtain ⟨hnew, hboth⟩ := hp.both hq
  have hself : Stock.only n e n = some e := Stock.only_eq_some.2 ⟨rfl, rfl⟩
  refine ⟨hnew hself, hq.ne_zero hself, ?_⟩
  have heq : (fun m => (E m).or (Stock.only n e m)) = Function.update E n (some e) := by
    funext m
    by_cases hmn : m = n
    · rw [hmn, hnew hself, hself, Function.update_self, Option.none_or]
    · rw [Function.update_of_ne hmn, Stock.only, Function.update_of_ne hmn, Option.or_none]
  rwa [heq] at hboth

end Stocked

/-! ### Making nodes -/

/-- A node that is its record alone. -/
theorem Carved.single (hm : Carved h h' (Function.update (fun _ => none) n (some ws)))
    (hspread : ∀ {S : Addr → List UInt64 → Prop}, S n ws → Spread S n 0 e) :
    Stocked h h' (Stock.only n e) :=
  ⟨_, _, hm, .single hm.null (hspread (Function.update_self ..))
    (hm.ne_zero (Function.update_self ..)).symm⟩

/-- A node with an object or a vector. -/
theorem Carved.owner {x : Addr} (hxn : x ≠ n) (hm : Carved h h' (Function.update
      (Function.update (fun _ => none) x (some vs)) n (some ws)))
    (hspread : ∀ {S : Addr → List UInt64 → Prop}, S n ws → S x vs → Spread S n x e) :
    Stocked h h' (Stock.only n e) := by
  refine ⟨_, _, hm, .single hm.null (hspread (Function.update_self ..) ?_) hxn⟩
  rw [Function.update_of_ne hxn, Function.update_self]

section Making

variable (hs : h.arena.Sound) (hidle : h.arena.collecting = false)

include hs hidle

theorem newNode_stocks (ht : t ≠ .literal ∧ t ≠ .block) (hlen : ms.length = t.fields) :
    Yields (newNode t before ms) h
      (fun n h' => Stocked h h' (Stock.only n (.fields t before ms)))
      (fun err h' => ∃ f, err = .fault f ∧ Spent h f h') := by
  refine ((Carved.start hs hidle).newNode ht hlen).imp ?_
  rintro n h' ⟨-, -, hm⟩
  exact hm.single fun hrec => .fields hrec hlen ht

theorem newLiteral_stocks {t : Ty} (hsize : h.size t = .ok (UInt64.ofNat ws.length))
    (hfits : ws.length < 2 ^ 64) :
    Yields (newLiteral before t ws) h
      (fun n h' => Stocked h h' (Stock.only n (.literal before t ws)))
      (fun err h' => ∃ f, err = .fault f ∧ Spent h f h') := by
  refine ((Carved.start hs hidle).newLiteral hsize hfits).imp ?_
  rintro n h' ⟨-, -, ⟨rfl, hm⟩ | ⟨hne, x, -, -, hxn, hm⟩⟩
  · exact hm.single .void
  · exact hm.owner hxn (.literal hne)

/-- A literal whose size is right. -/
theorem newLiteralOrFault_stocks {t : Ty} (hsize : h.size t = .ok (UInt64.ofNat ws.length))
    (hfits : ws.length < 2 ^ 64) :
    Yields (newLiteralOrFault before t ws) h
      (fun n h' => Stocked h h' (Stock.only n (.literal before t ws))) (Spent h) := by
  have hnew : Yields (newLiteral before t ws) h _ _ := newLiteral_stocks hs hidle hsize hfits
  unfold Yields newLiteralOrFault at *
  cases hrun : newLiteral before t ws h with
  | ok n h' =>
    rw [hrun] at hnew
    exact hnew
  | error err h' =>
    rw [hrun] at hnew
    obtain ⟨f, rfl, hf⟩ := hnew
    exact hf

theorem newBlock_stocks (hfits : elems.length + 2 < 2 ^ 64) :
    Yields (newBlock before elems) h
      (fun n h' => Stocked h h' (Stock.only n (.block before elems))) (Spent h) := by
  refine ((Carved.start hs hidle).newBlock hfits).imp ?_
  rintro n h' ⟨-, -, ⟨rfl, hm⟩ | ⟨hne, x, -, -, hxn, hm⟩⟩
  · exact hm.single .empty
  · exact hm.owner hxn fun hr hx => .block hr hx (by simpa using List.length_pos_iff.2 hne)

/-- A copy of the record of a node that is neither a literal nor a block. -/
theorem copyRecord_stocks (ht : t ≠ .literal ∧ t ≠ .block) (hlen : ms.length = t.fields)
    (hn : h.arena.Owns n (t.word :: before :: ms)) :
    Yields (do
        let c ← allocateNode t before
        let count := UInt64.ofNat t.fields
        let _ ← peek (·.slice (c + headerWords) count)
        let payload ← peek (·.slice (n + headerWords) count)
        setWords (c + headerWords) payload
        return c : HeapM Node) h
      (fun c h' => Stocked h h' (Stock.only c (.fields t before ms))) (Spent h) := by
  have hstart := Carved.start hs hidle
  refine Yields.bind ((hstart.allocateNode t before).mono ?_ fun f h' => hstart.spent)
  rintro c h₁ ⟨-, -, hm₁⟩
  have hblank := Carved.blank (P := fun _ => none) t before c
  have hofNat : (UInt64.ofNat t.fields).toNat = t.fields := by cases t <;> rfl
  have hlook : peek (·.slice (c + headerWords) (UInt64.ofNat t.fields)) h₁ = .ok _ h₁ :=
    inspect_eq_ok (hm₁.slice hblank rfl (by rw [hofNat, List.length_replicate]))
  -- The record that is copied is older, so it still stands.
  have hold := (hn.grows hm₁.grows).toHolds.drop hm₁.sound.sized (k := headerWords)
    (by
      show 2 ≤ _
      simp only [List.length_cons]
      omega)
  have hpayload : peek (·.slice (n + headerWords) (UInt64.ofNat t.fields)) h₁ = .ok ms h₁ :=
    inspect_eq_ok (hold.slice hm₁.sound.sized (by rw [hofNat]; exact hlen))
  obtain ⟨h₂, hset, hm₂⟩ := hm₁.setPart (p := c + headerWords) hblank ms
    (by rw [hlen, List.length_replicate]) (hm₁.toNat_add hblank (i := 2) (by simp))
  rw [Function.update_idem, List.append_nil] at hm₂
  exact Yields.bind_ok hlook (Yields.bind_ok hpayload (Yields.bind_ok hset
    (Yields.pure (hm₂.single fun hrec => .fields hrec hlen ht))))

end Making

/-! ### Changing nodes -/

namespace Stocked

/-- A field of a node is written. -/
theorem setField (hp : Stocked h₀ h E) (hn : E n = some (.fields t before ms)) {i : Nat}
    (hi : i < ms.length) (w : UInt64) :
    ∃ h', setWord (n + headerWords + UInt64.ofNat i) w h = .ok () h' ∧
      Stocked h₀ h' (Function.update E n (some (.fields t before (ms.set i w)))) := by
  obtain ⟨P, x, hm, hl⟩ := hp
  obtain ⟨hrec, hlen, ht⟩ := (hl.spread hn).of_fields
  have hplace : (n + headerWords + UInt64.ofNat i).toNat = n.toNat + (i + 2) :=
    hm.toNat_header hrec (by simp only [List.length_cons]; omega)
  obtain ⟨h', hset, hm'⟩ := hm.setWord hrec (by simp only [List.length_cons]; omega) hplace w
  exact ⟨h', hset, _, _, hm', hl.setRecord hn fun hr =>
    .fields hr (by rw [List.length_set]; exact hlen) ht⟩

/-- A field that refers to a node is set. -/
theorem patch (hp : Stocked h₀ h E) (hn : E n = some (.fields t before ms)) {i : Nat}
    (hi : i < t.fields) (m : Node) :
    ∃ h', patch n i m h = .ok () h' ∧
      Stocked h₀ h' (Function.update E n (some (.fields t before (ms.set i m)))) := by
  obtain ⟨x, hspread⟩ := hp.spread hn
  obtain ⟨hrec, hlen, ht⟩ := hspread.of_fields
  have htag : peek (·.tag n) h = .ok t h := inspect_eq_ok (tag_eq hp.sound.sized hrec)
  obtain ⟨h', hset, hq⟩ := hp.setField hn (hlen ▸ hi) m
  refine ⟨h', (bind_eq_ok htag).trans ?_, hq⟩
  rw [nodeFields_eq ht, if_neg (by omega)]
  exact hset

/-- A word of the value of a literal is written. -/
theorem setValue (hp : Stocked h₀ h E) {t : Ty} (hn : E n = some (.literal before t ws)) {i : Nat}
    (hi : i < ws.length) (w : UInt64) :
    ∃ x h', h.arena.Owns n [Tag.literal.word, before, t, x] ∧
      setWord (x + UInt64.ofNat i) w h = .ok () h' ∧
      Stocked h₀ h' (Function.update E n (some (.literal before t (ws.set i w)))) := by
  obtain ⟨P, x, hm, hl⟩ := hp
  obtain ⟨hrec, ⟨-, rfl⟩ | ⟨hne, hval⟩⟩ := (hl.spread hn).of_literal
  · cases hi
  obtain ⟨h', hset, hm'⟩ := hm.setWord hval hi (hm.toNat_add hval (Nat.le_of_lt hi)) w
  refine ⟨x n, h', hm.owns hrec, hset, _, x, hm', hl.setPayload hn hval ?_⟩
  rintro _ ⟨⟩
  refine .literal (fun heq => hne (List.eq_nil_of_length_eq_zero ?_)) ?_ (Function.update_self ..)
  · rw [← List.length_set, heq, List.length_nil]
  · rw [Function.update_of_ne (hl.payload_ne hn).symm]
    exact hrec

/-- An element of a block is written. -/
theorem setElement (hp : Stocked h₀ h E) (hn : E n = some (.block before elems)) {i : Nat}
    (hi : i < elems.length) (w : UInt64) :
    ∃ x h', h.arena.Owns n [Tag.block.word, before, x] ∧
      setWord (x + vectorHeader + UInt64.ofNat i) w h = .ok () h' ∧
      Stocked h₀ h' (Function.update E n (some (.block before (elems.set i w)))) := by
  obtain ⟨P, x, hm, hl⟩ := hp
  obtain ⟨hrec, ⟨-, rfl⟩ | ⟨slack, hvec, hpos⟩⟩ := (hl.spread hn).of_block
  · cases hi
  have hplace : (x n + vectorHeader + UInt64.ofNat i).toNat = (x n).toNat + (i + 2) :=
    hm.toNat_header hvec (by rw [length_vectorOf]; omega)
  obtain ⟨h', hset, hm'⟩ := hm.setWord hvec (by rw [length_vectorOf]; omega) hplace w
  have hvector : (vectorOf elems slack).set (i + 2) w = vectorOf (elems.set i w) slack := by
    simp [vectorOf, hi, List.set_append_left]
  rw [hvector] at hm'
  refine ⟨x n, h', hm.owns hrec, hset, _, x, hm', hl.setPayload hn hvec ?_⟩
  rintro _ ⟨⟩
  refine .block ?_ (Function.update_self ..) (by rwa [List.length_set])
  rw [Function.update_of_ne (hl.payload_ne hn).symm]
  exact hrec

/-- A block gets one more element. -/
theorem append (hp : Stocked h₀ h E) (hb : E b = some (.block before elems)) (e : Node) :
    Yields (append b e) h
      (fun _ h' => Stocked h₀ h' (Function.update E b (some (.block before (elems ++ [e])))))
      (fun f h' => Exhausted f h'.arena ∧ h' = h) := by
  obtain ⟨P, x, hm, hl⟩ := hp
  obtain ⟨hrec, hvec⟩ := (hl.spread hb).of_block
  have hexpect : h.expectTag b .block = .ok () := by
    rw [expectTag, except_bind_ok (tag_eq hm.sound.sized (hm.owns hrec)), if_neg fun hne => hne rfl]
    rfl
  have hslot : h.word (b + 2) = .ok (x b) :=
    hm.word hrec (i := 2) rfl (hm.toNat_add hrec (i := 2) (by simp))
  rw [append_eq]
  refine Yields.bind_ok (inspect_eq_ok hexpect) (Yields.bind_ok (inspect_eq_ok hslot) ?_)
  have hlong : ∀ slack : List Node, 0 < (elems ++ [e]).length + slack.length := by
    intro slack
    rw [List.length_append, List.length_singleton]
    omega
  rcases hvec with ⟨h0, rfl⟩ | ⟨slack, hvec, hpos⟩
  · -- An empty block has no vector, and gets one first.
    rw [if_pos h0]
    refine Yields.bind ((hm.newVector (k := 4) (by decide)).imp ?_)
    rintro y h₁ ⟨hy, -, hm₁⟩
    have hyb : y ≠ b := by
      rintro rfl
      rw [hy] at hrec
      cases hrec
    have hrec₁ : Function.update P y (some (vectorOf [] (List.replicate 4 0))) b
        = some [Tag.block.word, before, x b] := by
      rw [Function.update_of_ne hyb.symm]
      exact hrec
    obtain ⟨h₂, hset, hm₂⟩ := hm₁.setWord hrec₁ (i := 2) (by simp)
      (hm₁.toNat_add hrec₁ (i := 2) (by simp)) y
    obtain ⟨h₃, hpush, hm₃⟩ := hm₂.appendTo_room (y := y)
      ((Function.update_of_ne hyb ..).trans (Function.update_self ..)) (b + 2) e
    rw [Function.update_comm hyb.symm, Function.update_idem] at hm₃
    exact Yields.bind_ok hset (Yields.of_ok hpush ⟨_, _, hm₃, hl.replace hb hm₃.null hy hyb
      fun hr hx => .block hr hx (hlong _)⟩)
  · rw [if_neg (hm.ne_zero hvec)]
    cases slack with
    | cons v slack =>
      obtain ⟨h₁, hpush, hm₁⟩ := hm.appendTo_room hvec (b + 2) e
      refine Yields.of_ok hpush ⟨_, x, hm₁, hl.setPayload hb hvec ?_⟩
      rintro _ ⟨⟩
      refine .block ?_ (Function.update_self ..) (hlong _)
      rw [Function.update_of_ne (hl.payload_ne hb).symm]
      exact hrec
    | nil =>
      refine (hm.appendTo_full hrec hvec hpos e).imp ?_
      rintro - h₁ ⟨z, slack, hz, hzb, hm₁⟩
      exact ⟨_, _, hm₁, hl.replace hb hm₁.null hz hzb fun hr hx => .block hr hx (hlong _)⟩

end Stocked

end TreeMachine.Heap
