import TreeMachine.Proofs.Node.Populating
import TreeMachine.Proofs.Source.Printing
import TreeMachine.Proofs.Source.Writing

/-! # Counting references

  A heap that shows a forest holds its nodes, each under the number that stands for it.
  Main statement: the printer counts each node once for where it begins and once for each
  time it is met again.
-/

namespace TreeMachine

namespace Heap

variable {h : Heap} {c : Catalogue} {n x : Addr} {r : Cell}

/-- A literal that holds a node. -/
theorem quote_eq (hs : h.Standard c) {object : Addr} {before q : UInt64}
    (hn : h.arena.Owns n [Tag.literal.word, before, h.types.scalars.ast, object])
    (hobject : h.arena.Owns object [q]) :
    h.literalValue n = .ok (h.types.scalars.ast, object) ∧ h.literalWords n = .ok [q] :=
  literal_eq_of_size hs.sized (hs.size_member hs.ast fun _ hms => by cases hms) hn hobject

/-- The elements of a block that is laid out. -/
theorem elements_laid (hs : h.arena.Sized) {elems : List Node}
    (hl : Laid h.types.scalars h.arena.Owns n x (.block elems)) : h.elements n = .ok elems :=
  elements_eq hs hl.of_block.1 (laid_iff_spread.1 hl).vector

end Heap

namespace Cell

/-- The tag of a node that holds the cell. -/
def tag : Cell → Tag
  | integer _ | quote _ => .literal
  | fields t _ => t
  | block _ => .block

/-- The nodes that a cell refers to. -/
def children : Cell → List Node
  | integer _ => []
  | quote q => [q]
  | fields _ ms | block ms => ms

end Cell

namespace Source

variable {h : Heap} {c : Catalogue} {n x : Addr} {r : Cell}

theorem tag_laid (hs : h.arena.Sized) (hl : Heap.Laid h.types.scalars h.arena.Owns n x r) :
    h.tag n = .ok r.tag := by
  cases hl with
  | integer hr | quote hr | fields hr | empty hr | block hr => exact Heap.tag_eq hs hr

theorem children_laid (hs : h.Standard c) (hl : Heap.Laid h.types.scalars h.arena.Owns n x r) :
    children h n = .ok r.children := by
  cases r with
  | integer v =>
    cases hl with
    | integer hr hp => exact children_number hs hr hp
  | quote q =>
    cases hl with
    | quote hr hp =>
      obtain ⟨hvalue, hwords⟩ := Heap.quote_eq hs hr hp
      have hquoted : quoted h n = .ok (some q) := by
        rw [quoted, except_bind_ok hvalue]
        dsimp only
        rw [if_neg fun hne => hne rfl, except_bind_ok hwords]
        rfl
      rw [children, except_bind_ok (Heap.tag_eq hs.sized hr)]
      dsimp only
      rw [except_bind_ok hquoted]
      rfl
  | fields t ms =>
    obtain ⟨hr, hlen, hlit, hblock⟩ := hl.of_fields
    exact children_node hs.sized hr hlen hlit hblock
  | block ms => exact children_block hs.sized hl.of_block.1 (Heap.elements_laid hs.sized hl)

/-! ### Numbers of references -/

variable {M : NodeMemory} {ν : Nat → Option Node} {refs : References} {d i k : Nat} {F G : Forest}
  {ns ms : List Node} {Q : Nat → Prop}

/-- How often a node has been reached. -/
def References.count (refs : References) (n : Node) : Nat := (refs.get? n).getD 0

theorem References.count_set (refs : References) (n : Node) (v : Nat) (m : Node) :
    References.count (refs.set n v) m = if m = n then v else refs.count m := by
  unfold References.count
  by_cases hm : m = n
  · rw [hm, Dict.get?_set_self, if_pos rfl, Option.getD_some]
  · rw [Dict.get?_set_ne _ _ hm, if_neg hm]

/-- What is done with a node that is not null. -/
theorem countWithin_run (h0 : n ≠ 0) :
    countWithin h (d + 1) n refs
      = (if refs.count n = 0 then (do (← children h n).forM (countWithin h d)) else pure () :
        EStateM Fault References Unit) (refs.set n (refs.count n + 1)) := by
  unfold countWithin
  rw [if_neg h0]
  rfl

/-- A node that is reached for the first time is counted together with what is below it. -/
theorem countWithin_new (h0 : n ≠ 0) (hseen : refs.count n = 0) (hms : children h n = .ok ms) :
    countWithin h (d + 1) n refs = ms.forM (countWithin h d) (refs.set n 1) := by
  rw [countWithin_run h0, if_pos hseen, hseen, hms]
  rfl

theorem countWithin_again (h0 : n ≠ 0) (hseen : 0 < refs.count n) :
    countWithin h (d + 1) n refs = .ok () (refs.set n (refs.count n + 1)) := by
  rw [countWithin_run h0, if_neg (Nat.pos_iff_ne_zero.1 hseen)]
  rfl

/-- Counting goes through the forest: it counts each node where it begins and each time it is
    met again. -/
def Counts (h : Heap) (ν : Nat → Option Node) (d i : Nat) (F : Forest) (ns : List Node) : Prop :=
  ∀ refs : References, (∀ k n, ν k = some n → (k < i ↔ 0 < refs.count n)) →
    ∃ refs', ns.forM (countWithin h d) refs = .ok () refs' ∧ ∀ k n, ν k = some n →
      References.count refs' n
        = refs.count n + (if i ≤ k ∧ k < i + F.size then 1 else 0) + F.backs k i

/-- A node is met again only after it has begun. -/
theorem Forest.Scoped.backs_lt (hF : F.Scoped Q i) (hk : 0 < F.backs k i) : k < i + F.size := by
  induction F generalizing Q i with
  | nil => exact absurd hk (Nat.lt_irrefl 0)
  | null rest ih => exact ih hF hk
  | again back rest ih =>
    obtain ⟨hpos, hle, -, hrest⟩ := hF
    simp only [backs] at hk
    by_cases heq : i - back = k
    · omega
    · rw [if_neg heq, Nat.zero_add] at hk
      exact ih hrest hk
  | integer v rest ih =>
    have := ih hF hk
    simp only [size]
    omega
  | fields t below rest ihb ih =>
    obtain ⟨-, -, hbelow, hrest⟩ := hF
    simp only [backs, size] at hk ⊢
    rcases Nat.eq_zero_or_pos (backs k (i + 1) below) with h0 | hpos
    · have := ih hrest (by omega)
      omega
    · have := ihb hbelow hpos
      omega
  | block below rest ihb ih =>
    obtain ⟨hbelow, hrest⟩ := hF
    simp only [backs, size] at hk ⊢
    rcases Nat.eq_zero_or_pos (backs k (i + 1) below) with h0 | hpos
    · have := ih hrest (by omega)
      omega
    · have := ihb hbelow hpos
      omega
  | quote below rest ihb ih =>
    obtain ⟨-, hbelow, hrest⟩ := hF
    simp only [backs, size] at hk ⊢
    rcases Nat.eq_zero_or_pos (backs k (i + 1) below) with h0 | hpos
    · have := ih hrest (by omega)
      omega
    · have := ihb hbelow hpos
      omega

theorem Forest.backs_append (k : Nat) (F G : Forest) (i : Nat) :
    (F ++ G).backs k i = F.backs k i + G.backs k (i + F.size) := by
  induction F generalizing i with
  | nil => simp [backs, size]
  | null rest ih => simp [backs, size, ih]
  | again back rest ih => simp [backs, size, ih, Nat.add_assoc]
  | integer v rest ih => simp [backs, size, ih, Nat.add_assoc, Nat.add_comm 1]
  | fields t below rest _ ih => simp [backs, size, ih, Nat.add_assoc, Nat.add_comm 1]
  | block below rest _ ih => simp [backs, size, ih, Nat.add_assoc, Nat.add_comm 1]
  | quote below rest _ ih => simp [backs, size, ih, Nat.add_assoc, Nat.add_comm 1]

theorem Counts.append (hF : Counts h ν d i F ns) (hG : Counts h ν d (i + F.size) G ms)
    (hscoped : F.Scoped Q i) : Counts h ν d i (F ++ G) (ns ++ ms) := by
  intro refs hrefs
  obtain ⟨refs₁, hrun₁, hcount₁⟩ := hF refs hrefs
  -- Afterwards exactly the nodes up to the end of the first forest have been counted, because
  -- nothing in it refers to later ones.
  have hnext : ∀ k n, ν k = some n → (k < i + F.size ↔ 0 < refs₁.count n) := by
    intro k n hn
    have hold := hrefs k n hn
    rw [hcount₁ k n hn]
    constructor
    · intro hlt
      by_cases hk : i ≤ k
      · rw [if_pos ⟨hk, hlt⟩]
        omega
      · have := hold.1 (by omega)
        omega
    · intro hpos
      by_contra hge
      rw [if_neg (by omega)] at hpos
      rcases Nat.eq_zero_or_pos (F.backs k i) with h0 | hback
      · have := hold.2 (by omega)
        omega
      · have := hscoped.backs_lt hback
        omega
  obtain ⟨refs₂, hrun₂, hcount₂⟩ := hG refs₁ hnext
  refine ⟨refs₂, ?_, ?_⟩
  · rw [List.forM_eq_forM, List.forM_append]
    exact (bind_eq_ok hrun₁).trans hrun₂
  · intro k n hn
    rw [hcount₂ k n hn, hcount₁ k n hn, Forest.backs_append, Forest.size_append]
    split_ifs <;> omega

theorem counts_nil : Counts h ν d i .nil [] :=
  fun refs _ => ⟨refs, rfl, fun k n _ => by
    rw [if_neg (by simp only [Forest.size]; omega)]
    rfl⟩

theorem counts_null : Counts h ν (d + 1) i (.null .nil) [0] :=
  fun refs _ => ⟨refs, rfl, fun k n _ => by
    rw [if_neg (by simp only [Forest.size]; omega)]
    rfl⟩

/-- The memory is what stands in the heap, and numbers stand for different nodes of it. -/
structure Shows (h : Heap) (M : NodeMemory) (ν : Nat → Option Node) : Prop where
  laid : ∀ {n r}, M n = some r → ∃ x, Heap.Laid h.types.scalars h.arena.Owns n x r
  cell : ∀ {k n}, ν k = some n → ∃ r, M n = some r
  unique : ∀ {j k n}, ν j = some n → ν k = some n → j = k

theorem Shows.ne_zero (hsh : Shows h M ν) (hn : ν k = some n) : n ≠ 0 := by
  obtain ⟨r, hr⟩ := hsh.cell hn
  obtain ⟨x, hl⟩ := hsh.laid hr
  obtain ⟨ws, hws⟩ := (Heap.laid_iff_spread.1 hl).record
  exact Heap.owns_ne_zero hws

/-- The count of the node with one number goes up. -/
theorem Shows.count_set (hsh : Shows h M ν) {j : Nat} (hn : ν k = some n) {m : Node}
    (hm : ν j = some m) :
    References.count (refs.set n (refs.count n + 1)) m
      = refs.count m + (if k = j then 1 else 0) := by
  rw [References.count_set]
  by_cases heq : m = n
  · subst heq
    rw [if_pos rfl, if_pos (hsh.unique hn hm)]
  · have hne : k ≠ j := by
      rintro rfl
      rw [hn] at hm
      exact heq (Option.some.inj hm).symm
    rw [if_neg heq, if_neg hne]
    rfl

theorem counts_again (hsh : Shows h M ν) {back : Nat} (hpos : 0 < back) (hle : back ≤ i)
    (hn : ν (i - back) = some n) : Counts h ν (d + 1) i (.again back .nil) [n] := by
  intro refs hrefs
  have hseen : 0 < refs.count n := (hrefs _ _ hn).1 (by omega)
  have hrun := countWithin_again (h := h) (d := d) (hsh.ne_zero hn) hseen
  refine ⟨_, (bind_eq_ok hrun).trans rfl, ?_⟩
  intro k m hm
  rw [hsh.count_set hn hm, if_neg (show ¬ (i ≤ k ∧ k < i + (Forest.again back .nil).size) by
    simp only [Forest.size]
    omega)]
  simp only [Forest.backs]
  omega

/-- A node and what is below it. -/
theorem counts_node (hsh : Shows h M ν) (hn : ν i = some n) (hms : children h n = .ok ms)
    {below node : Forest} (hsize : node.size = below.size + 1)
    (hbacks : ∀ k, node.backs k i = below.backs k (i + 1))
    (hbelow : Counts h ν d (i + 1) below ms) : Counts h ν (d + 1) i node [n] := by
  intro refs hrefs
  have hseen : refs.count n = 0 := by
    by_contra hne
    exact Nat.lt_irrefl i ((hrefs i n hn).2 (Nat.pos_iff_ne_zero.2 hne))
  have hset : ∀ j m, ν j = some m →
      References.count (refs.set n 1) m = refs.count m + (if i = j then 1 else 0) := by
    intro j m hm
    have hcount : References.count (refs.set n (refs.count n + 1)) m = _ := hsh.count_set hn hm
    rwa [hseen] at hcount
  obtain ⟨refs', hrun, hcount⟩ := hbelow (refs.set n 1) (by
    intro k m hm
    have hold := hrefs k m hm
    rw [hset k m hm]
    by_cases hk : i = k
    · rw [if_pos hk]
      omega
    · rw [if_neg hk]
      omega)
  have hfirst := countWithin_new (d := d) (hsh.ne_zero hn) hseen hms
  refine ⟨refs', (bind_eq_ok (hfirst.trans hrun)).trans rfl, ?_⟩
  intro k m hm
  rw [hcount k m hm, hset k m hm, hbacks, hsize]
  split_ifs <;> omega

/-- A node with what is below it, and the nodes after it. -/
theorem counts_cons (node : Forest) (hs : h.Standard c) (hsh : Shows h M ν) (hn : ν i = some n)
    (hM : M n = some r) {below rest : Forest} (hsize : node.size = below.size + 1)
    (hbacks : ∀ k, node.backs k i = below.backs k (i + 1)) (hnode : node.Scoped Q i)
    (hbelow : Counts h ν d (i + 1) below r.children)
    (hrest : Counts h ν (d + 1) (i + 1 + below.size) rest ns) :
    Counts h ν (d + 1) i (node ++ rest) (n :: ns) := by
  obtain ⟨x, hl⟩ := hsh.laid hM
  have hfirst : Counts h ν (d + 1) i node [n] :=
    counts_node hsh hn (children_laid hs hl) hsize hbacks hbelow
  refine hfirst.append ?_ hnode
  rwa [hsize, ← Nat.add_assoc, Nat.add_right_comm]

/-- Counting goes through every forest that stands in the heap. -/
theorem counts (hs : h.Standard c) (hsh : Shows h M ν) (hst : Stands M ν i F ns)
    (hF : F.Scoped Q i) (hd : F.height ≤ d) : Counts h ν d i F ns := by
  induction hst generalizing Q d with
  | nil => exact counts_nil
  | null _ ih =>
    simp only [Forest.height] at hd
    obtain ⟨d, rfl⟩ : ∃ k, d = k + 1 := ⟨d - 1, by omega⟩
    exact counts_null.append (ih hF (by omega)) (Q := Q) trivial
  | again hle hn _ ih =>
    simp only [Forest.height] at hd
    obtain ⟨d, rfl⟩ : ∃ k, d = k + 1 := ⟨d - 1, by omega⟩
    obtain ⟨hpos, -, hnot, hrest⟩ := hF
    exact (counts_again hsh hpos hle hn).append (ih hrest (by omega)) (Q := Q)
      ⟨hpos, hle, hnot, trivial⟩
  | @integer i v n rest ns hn hM _ ih =>
    simp only [Forest.height] at hd
    obtain ⟨d, rfl⟩ : ∃ k, d = k + 1 := ⟨d - 1, by omega⟩
    exact counts_cons (.integer v .nil) hs hsh hn hM (Q := Q) rfl (fun _ => rfl) trivial
      counts_nil (ih hF (by omega))
  | @fields i t n below rest ms ns hn hM _ _ ihb ih =>
    simp only [Forest.height] at hd
    obtain ⟨d, rfl⟩ : ∃ k, d = k + 1 := ⟨d - 1, by omega⟩
    obtain ⟨ht, hlen, hbelow, hrest⟩ := hF
    exact counts_cons (.fields t below .nil) hs hsh hn hM rfl (fun _ => rfl)
      ⟨ht, hlen, hbelow, trivial⟩ (ihb hbelow (by omega)) (ih hrest (by omega))
  | @block i n below rest ms ns hn hM _ _ ihb ih =>
    simp only [Forest.height] at hd
    obtain ⟨d, rfl⟩ : ∃ k, d = k + 1 := ⟨d - 1, by omega⟩
    obtain ⟨hbelow, hrest⟩ := hF
    exact counts_cons (.block below .nil) hs hsh hn hM rfl (fun _ => rfl) ⟨hbelow, trivial⟩
      (ihb hbelow (by omega)) (ih hrest (by omega))
  | @quote i n m below rest ns hn hM _ _ ihb ih =>
    simp only [Forest.height] at hd
    obtain ⟨d, rfl⟩ : ∃ k, d = k + 1 := ⟨d - 1, by omega⟩
    obtain ⟨hlen, hbelow, hrest⟩ := hF
    exact counts_cons (.quote below .nil) hs hsh hn hM rfl (fun _ => rfl)
      ⟨hlen, hbelow, trivial⟩ (ihb hbelow (by omega)) (ih hrest (by omega))

/-- Each node of a form is counted once and once more for each time it is met again. -/
theorem references_form (hs : h.Standard c) (hsh : Shows h M ν) (hst : Stands M ν 0 F [n])
    (hF : F.Scoped Q 0) (hd : F.height ≤ h.depthBound) :
    ∃ refs, references h n = .ok refs ∧ ∀ k m, ν k = some m →
      References.count refs m = (if k < F.size then 1 else 0) + F.backs k 0 := by
  obtain ⟨refs, hrun, hcount⟩ := counts hs hsh hst hF hd .empty fun k m _ => by
    constructor
    · exact fun hlt => absurd hlt (Nat.not_lt_zero k)
    · exact fun hpos => absurd hpos (Nat.lt_irrefl 0)
  have hone : countWithin h h.depthBound n .empty = .ok () refs := by
    obtain ⟨u, refs', hfirst, hrest⟩ := of_bind_eq_ok hrun
    cases hrest
    exact hfirst
  refine ⟨refs, by rw [references, hone], fun k m hm => ?_⟩
  rw [hcount k m hm]
  simp [References.count, Dict.get?_empty]

end Source

end TreeMachine
