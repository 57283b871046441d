import TreeMachine.Proofs.Node.Stocking
import TreeMachine.Proofs.Types.Order

/-! # Taking stock

  What is read off a node, and which regions belong to it.  Main statements: both are as the
  entry of the node says, and a copy of a node is a new node with the same entry.
-/

namespace TreeMachine

namespace NodeEntry

/-- The tag of a node with the entry. -/
def tag : NodeEntry → Tag
  | literal .. => .literal
  | fields t .. => t
  | block .. => .block

/-- The node before a node with the entry. -/
def before : NodeEntry → Node
  | literal before .. | fields _ before _ | block before _ => before

/-- The value of a literal is as wide as its type. -/
def Fits (h : Heap) : NodeEntry → Prop
  | literal _ t ws => h.IsType t ∧ h.size t = .ok (UInt64.ofNat ws.length)
  | fields .. | block .. => True

end NodeEntry

namespace Heap

/-- What is read off a node is its entry. -/
def Reads (h : Heap) (n : Node) (e : NodeEntry) : Prop :=
  h.tag n = .ok e.tag ∧ h.preceding n = .ok e.before ∧
  match e with
  | .literal _ t ws => (∃ object, h.literalValue n = .ok (t, object)) ∧ h.literalWords n = .ok ws
  | .fields t _ ms => h.fieldsFrom n 0 t.fields = .ok ms
  | .block _ elems => h.elements n = .ok elems

/-- The regions that belong to a node: its record, and the object of a literal or the vector
    of a block, if it has one. -/
def regions (h : Heap) (n : Node) : Except Fault (List Region) := do
  let t ← h.tag n
  let record : Region := ⟨n, ← h.nodeWords n⟩
  match t with
  | .literal =>
    let (type, object) ← h.literalValue n
    let size ← h.size type
    if size = 0 then return [record] else return [record, ⟨object, size⟩]
  | .block =>
    let vec ← h.vector n
    if vec = 0 then return [record] else return [record, ⟨vec, ← h.vectorWords vec⟩]
  | _ => return [record]

/-- A block that is not empty has a vector in one of the regions, with as many elements as it
    says and no more than it has room for. -/
def VectorIn (h : Heap) (n : Node) (elems : List Node) (rs : List Region) : Prop :=
  h.vector n = .ok 0 ∧ elems = [] ∨
    ∃ vec length capacity, h.vector n = .ok vec ∧ h.word vec = .ok length ∧
      h.word (vec + 1) = .ok capacity ∧ length.toNat = elems.length ∧ length ≤ capacity ∧
      ∃ r ∈ rs, r.addr = vec ∧ r.size.toNat = capacity.toNat + 2

variable {h h' : Heap} {c : Catalogue} {n x : Addr} {e : NodeEntry} {k : Nat}

/-- Filling free words changes no type and no size. -/
theorem Fills.fits_iff (hf : h.Fills h' k) (hi : h.Interned c) : e.Fits h' ↔ e.Fits h := by
  cases e with
  | fields | block => exact Iff.rfl
  | literal before t ws =>
    have hext := hf.extends hi
    show _ ∧ _ ↔ _ ∧ _
    rw [hext.interned.isType_iff, hi.isType_iff]
    refine and_congr_right fun hknows => ?_
    rw [(hext.interned.size_known hknows).1, hext.width_eq hi hknows, ← (hi.size_known hknows).1]

/-! ### Reading -/

namespace Spread

variable (hs : h.arena.Sized) (hl : Spread h.arena.Owns n x e)

include hs hl

theorem tag_eq : h.tag n = .ok e.tag := by
  cases hl with
  | void hr | literal _ hr | fields hr | empty hr | block hr => exact Heap.tag_eq hs hr

theorem preceding_eq : h.preceding n = .ok e.before := by
  cases hl with
  | void hr | literal _ hr | fields hr | empty hr | block hr => exact Heap.preceding_eq hs hr

/-- An entry that is laid out is read back. -/
theorem reads (hfits : e.Fits h) : h.Reads n e := by
  refine ⟨hl.tag_eq hs, hl.preceding_eq hs, ?_⟩
  cases e with
  | literal before t ws =>
    obtain ⟨hr, hobject⟩ := hl.of_literal
    refine ⟨⟨x, literalValue_eq hs hr⟩, literalWords_eq hs hfits.2 hr fun hne => ?_⟩
    exact (hobject.resolve_left fun hnone => hne hnone.2).2
  | fields t before ms =>
    obtain ⟨hr, hlen, -⟩ := hl.of_fields
    have hall := fieldsFrom_eq hs hr hlen 0
    rwa [Nat.sub_zero, List.drop_zero, hlen] at hall
  | block before elems => exact elements_eq hs hl.of_block.1 hl.vector

end Spread

/-- Only blocks have the tag of blocks. -/
theorem Spread.tag_ne_block {S : Addr → List UInt64 → Prop} (hl : Spread S n x e)
    (hblock : ∀ before elems, e ≠ .block before elems) : e.tag ≠ .block := by
  cases hl with
  | void | literal => nofun
  | fields _ _ ht => exact ht.2
  | empty | block => exact absurd rfl (hblock _ _)

/-! ### Regions -/

section Regions

variable {S : Addr → List UInt64 → Prop} {before : Node} {t : Tag} {rs : List Region}

theorem nodeWords_eq (hs : h.arena.Sized) {ms : List UInt64}
    (hr : h.arena.Owns n (t.word :: before :: ms)) :
    h.nodeWords n = .ok (headerWords + UInt64.ofNat t.fields) := by
  rw [nodeWords, except_bind_ok (Heap.tag_eq hs hr)]
  rfl

theorem regions_fields (hs : h.arena.Sized) {ms : List UInt64}
    (hr : h.arena.Owns n (t.word :: before :: ms)) (ht : t ≠ .literal ∧ t ≠ .block) :
    h.regions n = .ok [⟨n, headerWords + UInt64.ofNat t.fields⟩] := by
  rw [regions, except_bind_ok (Heap.tag_eq hs hr), except_bind_ok (nodeWords_eq hs hr)]
  cases t <;> first | exact absurd rfl ht.1 | exact absurd rfl ht.2 | rfl

theorem regions_literal (hs : h.arena.Sized) {u : Ty} {size : UInt64}
    (hr : h.arena.Owns n [Tag.literal.word, before, u, x]) (hsize : h.size u = .ok size) :
    h.regions n = .ok (if size = 0 then [⟨n, 4⟩] else [⟨n, 4⟩, ⟨x, size⟩]) := by
  rw [regions, except_bind_ok (Heap.tag_eq hs hr), except_bind_ok (nodeWords_eq hs hr)]
  dsimp only
  rw [except_bind_ok (literalValue_eq hs hr)]
  dsimp only
  rw [except_bind_ok hsize]
  split <;> rfl

theorem regions_block (hs : h.arena.Sized) (hr : h.arena.Owns n [Tag.block.word, before, x])
    {capacity : UInt64} (hx : x ≠ 0 → h.word (x + 1) = .ok capacity) :
    h.regions n = .ok (if x = 0 then [⟨n, 3⟩] else [⟨n, 3⟩, ⟨x, vectorHeader + capacity⟩]) := by
  rw [regions, except_bind_ok (Heap.tag_eq hs hr), except_bind_ok (nodeWords_eq hs hr)]
  dsimp only
  rw [except_bind_ok (vector_eq hs hr)]
  by_cases h0 : x = 0
  · rw [if_pos h0, if_pos h0]
    rfl
  · rw [if_neg h0, if_neg h0, vectorWords, except_bind_ok (hx h0)]
    rfl

/-- The counts of a vector. -/
theorem vector_counts (hs : h.arena.Sized) {elems slack : List Node}
    (hx : h.arena.Owns x (vectorOf elems slack)) :
    h.word x = .ok (UInt64.ofNat elems.length) ∧
    h.word (x + 1) = .ok (UInt64.ofNat (elems.length + slack.length)) ∧
    (UInt64.ofNat elems.length).toNat = elems.length ∧
    (UInt64.ofNat (elems.length + slack.length)).toNat = elems.length + slack.length ∧
    (vectorHeader + UInt64.ofNat (elems.length + slack.length)).toNat
      = elems.length + slack.length + 2 := by
  have hin := hx.inside
  have hlt := hs.lt
  rw [length_vectorOf] at hin
  have hofNat : ∀ k, k ≤ elems.length + slack.length → (UInt64.ofNat k).toNat = k := by
    intro k hk
    rw [UInt64.toNat_ofNat']
    omega
  refine ⟨hx.toHolds.head hs, hx.toHolds.word_add hs (k := 1) rfl, hofNat _ (by omega),
    hofNat _ (Nat.le_refl _), ?_⟩
  rw [UInt64.toNat_add, hofNat _ (Nat.le_refl _)]
  show (2 + _) % _ = _
  omega

/-- The regions of a node are the places where it is laid out. -/
theorem Spread.regions (hs : h.arena.Sized) (hl : Spread S n x e)
    (howns : ∀ {a ws}, S a ws → h.arena.Owns a ws) (hfits : e.Fits h) (hne : x ≠ n) :
    ∃ rs, h.regions n = .ok rs ∧ (rs.map (·.addr)).Nodup ∧
      ∀ r ∈ rs, (r.addr = n ∨ r.addr = x) ∧ ∃ ws, S r.addr ws ∧ r.size.toNat = ws.length := by
  have hone : ∀ {ws : List UInt64} {size : UInt64}, S n ws → size.toNat = ws.length →
      (([⟨n, size⟩] : List Region).map (·.addr)).Nodup ∧ ∀ r ∈ ([⟨n, size⟩] : List Region),
        (r.addr = n ∨ r.addr = x) ∧ ∃ ws, S r.addr ws ∧ r.size.toNat = ws.length := by
    intro ws size hr hsize
    refine ⟨List.nodup_singleton _, fun r hr' => ?_⟩
    rw [List.mem_singleton] at hr'
    subst hr'
    exact ⟨Or.inl rfl, _, hr, hsize⟩
  have htwo : ∀ {ws vs : List UInt64} {size size' : UInt64}, S n ws → size.toNat = ws.length →
      S x vs → size'.toNat = vs.length →
      (([⟨n, size⟩, ⟨x, size'⟩] : List Region).map (·.addr)).Nodup ∧
      ∀ r ∈ ([⟨n, size⟩, ⟨x, size'⟩] : List Region),
        (r.addr = n ∨ r.addr = x) ∧ ∃ ws, S r.addr ws ∧ r.size.toNat = ws.length := by
    intro ws vs size size' hr hsize hx hsize'
    refine ⟨by simp [hne.symm], fun r hr' => ?_⟩
    rcases List.mem_cons.1 hr' with rfl | hr'
    · exact ⟨Or.inl rfl, _, hr, hsize⟩
    · rw [List.mem_singleton] at hr'
      subst hr'
      exact ⟨Or.inr rfl, _, hx, hsize'⟩
  cases hl with
  | void hr =>
    refine ⟨_, regions_literal hs (howns hr) hfits.2, ?_⟩
    rw [if_pos (show UInt64.ofNat ([] : List UInt64).length = 0 from rfl)]
    exact hone hr rfl
  | @literal _ _ t ws hempty hr hx =>
    have hin := (howns hx).inside
    have hlt := hs.lt
    have hpos : 0 < ws.length := List.length_pos_iff.2 hempty
    have hofNat : (UInt64.ofNat ws.length).toNat = ws.length := by
      rw [UInt64.toNat_ofNat']
      omega
    refine ⟨_, regions_literal hs (howns hr) hfits.2, ?_⟩
    rw [if_neg (Arena.toNat_pos_iff.1 (by omega))]
    exact htwo hr rfl hx hofNat
  | @fields t _ ms hr hlen ht =>
    refine ⟨_, regions_fields hs (howns hr) ht, hone hr ?_⟩
    rw [length_record, List.length_cons, List.length_cons, hlen]
  | empty hr =>
    have hnone : (0 : Addr) ≠ 0 → h.word (0 + 1) = .ok 0 := fun h0 => absurd rfl h0
    refine ⟨_, regions_block hs (howns hr) hnone, ?_⟩
    rw [if_pos rfl]
    exact hone hr rfl
  | @block _ _ elems slack hr hx hpos =>
    obtain ⟨-, hcapacity, -, -, htotal⟩ := vector_counts hs (howns hx)
    refine ⟨_, regions_block hs (howns hr) fun _ => hcapacity, ?_⟩
    rw [if_neg (owns_ne_zero (howns hx))]
    refine htwo hr rfl hx ?_
    rw [htotal, length_vectorOf]

/-- The vector of a block is one of its regions. -/
theorem Spread.vectorIn (hs : h.arena.Sized) {elems : List Node}
    (hl : Spread h.arena.Owns n x (.block before elems)) (hrs : h.regions n = .ok rs) :
    h.VectorIn n elems rs := by
  obtain ⟨hr, ⟨rfl, hnil⟩ | ⟨slack, hx, -⟩⟩ := hl.of_block
  · exact Or.inl ⟨vector_eq hs hr, hnil⟩
  · obtain ⟨hlength, hcapacity, hlen, hcap, htotal⟩ := vector_counts hs hx
    rw [regions_block hs hr fun _ => hcapacity, if_neg (owns_ne_zero hx)] at hrs
    cases hrs
    refine Or.inr ⟨x, _, _, vector_eq hs hr, hlength, hcapacity, hlen, ?_, _,
      List.mem_cons_of_mem _ (List.mem_singleton_self _), rfl, ?_⟩
    · rw [UInt64.le_iff_toNat_le, hlen, hcap]
      omega
    · rw [htotal, hcap]

end Regions

/-! ### Regions of a stock -/

section Held

variable {h₀ : Heap} {P : Addr → Option (List UInt64)} {E : Stock} {m : Node} {e' : NodeEntry}
  {r r' : Region} {rs rs' : List Region}

/-- The region is a piece as a whole. -/
def Covers (P : Addr → Option (List UInt64)) (r : Region) : Prop :=
  ∃ ws, P r.addr = some ws ∧ r.size.toNat = ws.length

theorem Carved.covers_apart (hm : Carved h₀ h P) (hr : Covers P r) (hr' : Covers P r')
    (hne : r.addr ≠ r'.addr) : r.Apart r' := by
  obtain ⟨ws, hws, hsize⟩ := hr
  obtain ⟨vs, hvs, hsize'⟩ := hr'
  have hapart := hm.apart hws hvs hne
  unfold Region.Apart
  omega

/-- Covered words were free in the beginning and are free no more. -/
theorem Carved.covers_taken (hm : Carved h₀ h P) (hr : Covers P r) {i : Nat} (hi : r.Has i) :
    h₀.arena.Free i ∧ ¬ h.arena.Free i := by
  obtain ⟨ws, hws, hsize⟩ := hr
  obtain ⟨hlo, hhi⟩ := hi
  have hfree := (hm.placed hws).was_free (i - r.addr.toNat) (by omega)
  have htaken := (hm.placed hws).taken (i - r.addr.toNat) (by omega)
  rw [Nat.add_sub_cancel' hlo] at hfree htaken
  exact ⟨hfree, htaken⟩

/-- The regions of a node are pieces, one for its record and one for what belongs to it. -/
theorem Carved.regions (hm : Carved h₀ h P) {x : Node → Addr} (hl : Housed P x E)
    (hn : E n = some e) (hfits : e.Fits h) :
    ∃ rs, h.regions n = .ok rs ∧ rs.Pairwise Region.Apart ∧
      ∀ r ∈ rs, (r.addr = n ∨ r.addr = x n) ∧ Covers P r := by
  obtain ⟨rs, hrs, hnodup, hall⟩ := (hl.spread hn).regions hm.sound.sized
    (fun hws => hm.owns hws) hfits (hl.payload_ne hn)
  refine ⟨rs, hrs, ?_, hall⟩
  refine (List.pairwise_map.1 hnodup).imp_of_mem fun hr hr' hne => ?_
  exact hm.covers_apart (hall _ hr).2 (hall _ hr').2 hne

namespace Stocked

theorem regions (hp : Stocked h₀ h E) (hn : E n = some e) (hfits : e.Fits h) :
    ∃ rs, h.regions n = .ok rs ∧ rs.Pairwise Region.Apart ∧
      ∀ r ∈ rs, ∀ i, r.Has i → h₀.arena.Free i ∧ ¬ h.arena.Free i := by
  obtain ⟨P, x, hm, hl⟩ := hp
  obtain ⟨rs, hrs, hapart, hall⟩ := hm.regions hl hn hfits
  exact ⟨rs, hrs, hapart, fun r hr i hi => hm.covers_taken (hall r hr).2 hi⟩

/-- Two nodes share no word. -/
theorem regions_apart (hp : Stocked h₀ h E) (hn : E n = some e) (hm : E m = some e')
    (hnm : n ≠ m) (hfits : e.Fits h) (hfits' : e'.Fits h) (hrs : h.regions n = .ok rs)
    (hrs' : h.regions m = .ok rs') : ∀ r ∈ rs, ∀ r' ∈ rs', r.Apart r' := by
  obtain ⟨P, x, hc, hl⟩ := hp
  obtain ⟨rs₁, hrs₁, -, hall⟩ := hc.regions hl hn hfits
  obtain ⟨rs₂, hrs₂, -, hall'⟩ := hc.regions hl hm hfits'
  cases hrs₁.symm.trans hrs
  cases hrs₂.symm.trans hrs'
  intro r hr r' hr'
  obtain ⟨haddr, hcov⟩ := hall r hr
  obtain ⟨haddr', hcov'⟩ := hall' r' hr'
  -- Neither is null, since null is no piece.
  have hne : r.addr ≠ 0 := by
    obtain ⟨ws, hws, -⟩ := hcov
    exact hc.ne_zero hws
  obtain ⟨hnx, hxn, -⟩ := hl.apart hm hn hnm
  obtain ⟨hmx, -, -⟩ := hl.apart hn hm (Ne.symm hnm)
  refine hc.covers_apart hcov hcov' ?_
  rcases haddr with haddr | haddr <;> rcases haddr' with haddr' | haddr' <;> rw [haddr, haddr']
  · exact hnm
  · exact hnx
  · exact hmx.symm
  · exact (hl.apart hm hn hnm).2.2 (haddr ▸ hne)

/-- Writing anywhere into a node spoils that node alone. -/
theorem spoil (hp : Stocked h₀ h E) (hn : E n = some e) (hfits : e.Fits h)
    (hrs : h.regions n = .ok rs) (hr : r ∈ rs) {p : Addr} (hpr : r.Has p.toNat) (w : UInt64) :
    ∃ h', setWord p w h = .ok () h' ∧ Stocked h₀ h' (Function.update E n none) := by
  obtain ⟨P, x, hm, hl⟩ := hp
  obtain ⟨rs₁, hrs₁, -, hall⟩ := hm.regions hl hn hfits
  cases hrs₁.symm.trans hrs
  obtain ⟨haddr, ws, hws, hsize⟩ := hall r hr
  obtain ⟨hlo, hhi⟩ := hpr
  obtain ⟨h', hset, hm'⟩ := hm.setWord hws (i := p.toNat - r.addr.toNat) (by omega)
    (Nat.add_sub_cancel' hlo).symm w
  refine ⟨h', hset, _, Function.update x n (x n), hm',
    hl.set hn hm'.null ?_ (fun e' he' => by cases he') (Or.inl rfl) (hl.payload_ne hn)⟩
  intro a us han hax ha
  rw [Function.update_of_ne (by rcases haddr with h | h <;> rw [h] <;> assumption)]
  exact ha

end Stocked

end Held

/-! ### Copies -/

/-- A copy is a new node with the same entry. -/
theorem copyNode_stocks (hs : h.arena.Sound) (hidle : h.arena.collecting = false)
    (hl : Spread h.arena.Owns n x e) (hfits : e.Fits h) :
    Yields (copyNode n) h (fun c h' => Stocked h h' (Stock.only c e)) (Spent h) := by
  have htag : peek (·.tag n) h = .ok e.tag h := inspect_eq_ok (hl.tag_eq hs.sized)
  have hbefore : peek (·.preceding n) h = .ok e.before h := inspect_eq_ok (hl.preceding_eq hs.sized)
  obtain ⟨-, -, hreads⟩ := hl.reads hs.sized hfits
  have hlt := hs.sized.lt
  refine Yields.bind_ok htag ?_
  cases e with
  | literal before t ws =>
    obtain ⟨⟨object, hvalue⟩, hwords⟩ := hreads
    have hvalue' : peek (·.literalValue n) h = .ok (t, object) h := inspect_eq_ok hvalue
    have hwords' : peek (·.literalWords n) h = .ok ws h := inspect_eq_ok hwords
    refine Yields.bind_ok hvalue' (Yields.bind_ok hbefore (Yields.bind_ok hwords'
      (newLiteralOrFault_stocks hs hidle hfits.2 ?_)))
    rcases hl.of_literal.2 with ⟨-, rfl⟩ | ⟨-, hx⟩
    · simp
    · have hin := hx.inside
      omega
  | block before elems =>
    have helems : peek (·.elements n) h = .ok elems h := inspect_eq_ok hreads
    refine Yields.bind_ok hbefore (Yields.bind_ok helems (newBlock_stocks hs hidle ?_))
    rcases hl.vector with ⟨-, rfl⟩ | ⟨capacity, hx⟩
    · simp
    · have hin := hx.inside
      simp only [List.length_cons] at hin
      omega
  | fields t before ms =>
    obtain ⟨hr, hlen, ht⟩ := hl.of_fields
    have hcopy := copyRecord_stocks hs hidle ht hlen hr
    cases t <;> first | exact absurd rfl ht.1 | exact absurd rfl ht.2 |
      exact Yields.bind_ok hbefore hcopy

end Heap

end TreeMachine
