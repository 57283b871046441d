import TreeMachine.Proofs.Collect.Orderly
import TreeMachine.Proofs.Collect.Search

/-! # Listing what is reached

  A list of items holds everything that is reached if it holds all types and whatever the
  registered values and its own items refer to.  All this can be evaluated, and so can the
  conditions on an orderly image once the items are listed.  Main statement: an image that
  passes both tests with some list is orderly.
-/

namespace TreeMachine

open Collect

namespace Collect

variable {h : Heap} {pool : Pool} {p : Item → Bool} {i j : Item}

/-- An item passes the test unless it is null. -/
def nonNull (p : Item → Bool) : Item → Bool
  | .type t => t == 0 || p (.type t)
  | .node n => n == 0 || p (.node n)
  | .vector vec => vec == 0 || p (.vector vec)
  | i => p i

theorem passes_of_nonNull (hi : i.NotNull) (hp : nonNull p i = true) : p i = true := by
  cases i with
  | type t | node n | vector vec =>
    rw [nonNull, Bool.or_eq_true, beq_iff_eq] at hp
    exact hp.resolve_left hi
  | object addr t => exact hp
  | function id => exact hp

/-! ### References -/

/-- Whether what the words of the members refer to passes `f`; `ws` are the words from the
    first member on. -/
def membersPass (h : Heap) (f : List UInt64 → Ty → Bool) : List Ty → List UInt64 → Bool
  | [], _ => true
  | t :: rest, ws => f (ws.take (h.width t)) t && membersPass h f rest (ws.drop (h.width t))

/-- Whether all that the words of a value refer to passes the test.  The members of
    concatenations are followed down to the given depth. -/
def valuePasses (h : Heap) (p : Item → Bool) : Nat → List UInt64 → Ty → Bool
  | 0, _, _ => false
  | depth + 1, ws, t =>
    match h.kind t with
    | .ok (some .concatenation) =>
      (h.members t).toOption.all fun ms => membersPass h (valuePasses h p depth) ms ws
    | .ok (some .pointer) =>
      (ws[0]?).all fun addr => addr == 0 || addr &&& Code.frameBit != 0 ||
        (h.elem t).toOption.all fun elem => p (.object addr elem)
    | .ok (some .dynamic) =>
      (ws[0]?).all fun u => u == 0 || p (.type u) &&
        (ws[1]?).all fun addr => addr == 0 || p (.object addr u)
    | .ok (some .ast) => (ws[0]?).all fun n => nonNull p (.node n)
    | .ok (some .type) => (ws[0]?).all fun u => nonNull p (.type u)
    | .ok (some .function) => (ws[0]?).all fun id => p (.function id)
    | _ => true

/-- Whether all that an item refers to passes the test. -/
def itemPasses (h : Heap) (pool : Pool) (p : Item → Bool) (depth : Nat) : Item → Bool
  | .object addr t => (h.size t).toOption.all fun n => n == 0 ||
      (h.slice addr n).toOption.all fun ws => valuePasses h p depth ws t
  | .type t =>
    match h.kind t with
    | .ok (some .pointer) => (h.elem t).toOption.all fun elem => nonNull p (.type elem)
    | .ok (some .concatenation) =>
      (h.members t).toOption.all fun ms => ms.all fun m => nonNull p (.type m)
    | _ => true
  | .node n => ((h.preceding n).toOption.all fun before => nonNull p (.node before)) &&
    match h.tag n with
    | .ok .literal => (h.literalValue n).toOption.all fun (t, addr) =>
        nonNull p (.type t) && (addr == 0 || p (.object addr t))
    | .ok .block => (h.vector n).toOption.all fun vec => nonNull p (.vector vec)
    | .ok tag => (List.range tag.schema.nodeFields).all fun (k : Nat) =>
        (h.field n k).toOption.all fun e => nonNull p (.node e)
    | .error _ => true
  | .vector vec => (h.word vec).toOption.all fun length =>
      (h.slice (vec + Heap.vectorHeader) length).toOption.all fun es =>
        es.all fun e => nonNull p (.node e)
  | .function id => (pool.get? id).all fun f =>
      nonNull p (.node f.ast) && nonNull p (.type f.returnType) && nonNull p (.type f.paramType)

theorem membersPass_append {f : List UInt64 → Ty → Bool} {before after : List Ty} {m : Ty}
    {ws : List UInt64} (hp : membersPass h f (before ++ m :: after) ws = true) :
    f ((ws.drop (before.map h.width).sum).take (h.width m)) m = true := by
  induction before generalizing ws with
  | nil =>
    rw [List.nil_append, membersPass, Bool.and_eq_true] at hp
    exact hp.1
  | cons t rest ih =>
    rw [List.cons_append, membersPass, Bool.and_eq_true] at hp
    have htail := ih hp.2
    rwa [List.drop_drop] at htail

/-- What can be read passes a test of everything that can be read. -/
theorem of_all_ok {ε α : Type} {x : Except ε α} {f : α → Bool} {a : α}
    (hall : x.toOption.all f = true) (hx : x = .ok a) : f a = true := by
  subst hx
  exact hall

theorem of_all_some {α : Type} {o : Option α} {f : α → Bool} {a : α} (hall : o.all f = true)
    (ho : o = some a) : f a = true := by
  subst ho
  exact hall

theorem exists_of_valuePasses {depth : Nat} {ws : List UInt64} {t : Ty}
    (hp : valuePasses h p depth ws t = true) : ∃ d, depth = d + 1 := by
  cases depth with
  | zero => cases hp
  | succ d => exact ⟨d, rfl⟩

/-- The test of a value is a test of everything that it refers to. -/
theorem ValueRefers.passes {ws : List UInt64} {t : Ty} (hv : ValueRefers h ws t i) {depth : Nat}
    (hp : valuePasses h p depth ws t = true) : p i = true := by
  -- Induction on the reference: a member is one level deeper than its concatenation, and a
  -- test that has passed had a level left.
  induction hv generalizing depth with
  | member hk hm _ ih =>
    obtain ⟨depth, rfl⟩ := exists_of_valuePasses hp
    rw [valuePasses, hk] at hp
    have hmembers := of_all_ok hp hm
    exact ih (membersPass_append hmembers)
  | pointer hk hw h0 hframe he =>
    obtain ⟨depth, rfl⟩ := exists_of_valuePasses hp
    rw [valuePasses, hk] at hp
    have hword := of_all_some hp hw
    simp only [Bool.or_eq_true, beq_iff_eq, bne_iff_ne, h0, hframe, ne_eq, not_true_eq_false,
      false_or] at hword
    have htarget := of_all_ok hword he
    exact htarget
  | dynamicType hk hw h0 =>
    obtain ⟨depth, rfl⟩ := exists_of_valuePasses hp
    rw [valuePasses, hk] at hp
    have hword := of_all_some hp hw
    simp only [Bool.or_eq_true, beq_iff_eq, h0, false_or, Bool.and_eq_true] at hword
    exact hword.1
  | dynamicObject hk hw h0 hw' h0' =>
    obtain ⟨depth, rfl⟩ := exists_of_valuePasses hp
    rw [valuePasses, hk] at hp
    have hword := of_all_some hp hw
    simp only [Bool.or_eq_true, beq_iff_eq, h0, false_or, Bool.and_eq_true] at hword
    have hword' := of_all_some hword.2 hw'
    simpa only [Bool.or_eq_true, beq_iff_eq, h0', false_or] using hword'
  | ast hk hw h0 =>
    obtain ⟨depth, rfl⟩ := exists_of_valuePasses hp
    rw [valuePasses, hk] at hp
    have hword := of_all_some hp hw
    exact passes_of_nonNull h0 hword
  | type hk hw h0 =>
    obtain ⟨depth, rfl⟩ := exists_of_valuePasses hp
    rw [valuePasses, hk] at hp
    have hword := of_all_some hp hw
    exact passes_of_nonNull h0 hword
  | function hk hw =>
    obtain ⟨depth, rfl⟩ := exists_of_valuePasses hp
    rw [valuePasses, hk] at hp
    have hword := of_all_some hp hw
    exact hword

/-- The test of an item is a test of everything that it refers to. -/
theorem Refers.passes (hij : Refers h pool i j) {depth : Nat}
    (hp : itemPasses h pool p depth i = true) : p j = true := by
  have hnull := hij.notNull
  cases hij with
  | object hn h0 hws hv =>
    have hsize := of_all_ok hp hn
    simp only [Bool.or_eq_true, beq_iff_eq, h0, false_or] at hsize
    have hwords := of_all_ok hsize hws
    exact hv.passes hwords
  | elem hk he _ =>
    rw [itemPasses, hk] at hp
    have helem := of_all_ok hp he
    exact passes_of_nonNull hnull helem
  | member hk hms hm _ =>
    rw [itemPasses, hk] at hp
    have hmembers := of_all_ok hp hms
    exact passes_of_nonNull hnull (List.all_eq_true.1 hmembers _ hm)
  | preceding _ hb _ =>
    rw [itemPasses, Bool.and_eq_true] at hp
    have hbefore := of_all_ok hp.1 hb
    exact passes_of_nonNull hnull hbefore
  | literalType ht hv _ =>
    rw [itemPasses, Bool.and_eq_true, ht] at hp
    have hvalue := of_all_ok hp.2 hv
    rw [Bool.and_eq_true] at hvalue
    exact passes_of_nonNull hnull hvalue.1
  | literalObject ht hv h0 =>
    rw [itemPasses, Bool.and_eq_true, ht] at hp
    have hvalue := of_all_ok hp.2 hv
    simp only [Bool.and_eq_true, Bool.or_eq_true, beq_iff_eq, h0, false_or] at hvalue
    exact hvalue.2
  | vector ht hv _ =>
    rw [itemPasses, Bool.and_eq_true, ht] at hp
    have hvec := of_all_ok hp.2 hv
    exact passes_of_nonNull hnull hvec
  | element _ hl hes he _ =>
    have hlength := of_all_ok hp hl
    have helements := of_all_ok hlength hes
    exact passes_of_nonNull hnull (List.all_eq_true.1 helements _ he)
  | @field n e tag k ht hl hb hk he _ =>
    rw [itemPasses, Bool.and_eq_true, ht] at hp
    -- Literals and blocks have no such fields; all other tags are tested alike.
    have hfields : ((List.range tag.schema.nodeFields).all fun (k : Nat) =>
        (h.field n k).toOption.all fun e => nonNull p (.node e)) = true := by
      cases tag with
      | literal => exact absurd rfl hl
      | block => exact absurd rfl hb
      | _ => exact hp.2
    have hfield := List.all_eq_true.1 hfields k (List.mem_range.2 hk)
    have hchild := of_all_ok hfield he
    exact passes_of_nonNull hnull hchild
  | ast hf _ =>
    have hrecord := of_all_some hp hf
    rw [Bool.and_eq_true, Bool.and_eq_true] at hrecord
    exact passes_of_nonNull hnull hrecord.1.1
  | returnType hf _ =>
    have hrecord := of_all_some hp hf
    rw [Bool.and_eq_true, Bool.and_eq_true] at hrecord
    exact passes_of_nonNull hnull hrecord.1.2
  | paramType hf _ =>
    have hrecord := of_all_some hp hf
    rw [Bool.and_eq_true, Bool.and_eq_true] at hrecord
    exact passes_of_nonNull hnull hrecord.2

/-! ### Words -/

/-- The words that an item takes, if it takes any. -/
def Item.region? (h : Heap) : Item → Option Region
  | .object addr t => ((h.size t).toOption.filter (· != 0)).map (⟨addr, ·⟩)
  | .type t => (h.recordWords t).toOption.map (⟨t, ·⟩)
  | .node n => (h.nodeWords n).toOption.map (⟨n, ·⟩)
  | .vector vec => (h.vectorWords vec).toOption.map (⟨vec, ·⟩)
  | .function _ => none

theorem Occupies.region?_eq {r : Region} (ho : Occupies h i r) : i.region? h = some r := by
  cases ho with
  | object hn h0 =>
    rw [Item.region?, toOption_eq_some.2 hn, Option.filter_some, if_pos (bne_iff_ne.2 h0)]
    rfl
  | type hn | node hn | vector hn =>
    rw [Item.region?, toOption_eq_some.2 hn]
    rfl

end Collect

namespace Image

variable {image : Image} {items : List Item}

/-- Whether the list holds all types and whatever the registered values and its items refer
    to. -/
def lists (image : Image) (items : List Item) (depth : Nat) : Bool :=
  (image.heap.handles.all fun t => decide (Item.type t ∈ items)) &&
  (image.collector.values.all fun r =>
    valuePasses image.heap (fun i => decide (i ∈ items)) depth r.toWords r.type) &&
  items.all (itemPasses image.heap image.pool (fun i => decide (i ∈ items)) depth)

theorem Reached.of_lists {depth : Nat} (hl : image.lists items depth = true) {i : Item}
    (hr : image.Reached i) : i ∈ items := by
  rw [lists, Bool.and_eq_true, Bool.and_eq_true] at hl
  obtain ⟨⟨htypes, hvalues⟩, hitems⟩ := hl
  rw [List.all_eq_true] at htypes hvalues hitems
  -- Induction on the chain of references: each item of it is on the list, so its references
  -- have been tested.
  induction hr with
  | type ht => exact of_decide_eq_true (htypes _ ht)
  | root hr hv => exact of_decide_eq_true (hv.passes (hvalues _ hr))
  | step _ hij ih => exact of_decide_eq_true (hij.passes (hitems _ ih))

/-- Whether the elements of a vector lie in the arena. -/
def elementsInside (h : Heap) : Item → Bool
  | .vector vec => (h.word vec).toOption.all fun length =>
      decide (vec.toNat + 2 + length.toNat ≤ h.arena.words.size)
  | _ => true

/-- Whether the registered values and the items of the list are in order. -/
def orderlyOn (image : Image) (items : List Item) : Bool :=
  (image.collector.values.all fun r =>
    decide ((r.type = 0 ∨ r.type ∈ image.heap.handles) ∧
      r.toWords.length = image.heap.width r.type)) &&
  items.all fun i =>
    (i.type?.all fun t => decide (t = 0 ∨ t ∈ image.heap.handles)) &&
    (i.record?.all fun addr => decide (addr.toNat < image.heap.arena.words.size)) &&
    ((i.region? image.heap).all fun r =>
      decide (0 < r.addr.toNat ∧ r.addr.toNat + r.size.toNat ≤ image.heap.arena.words.size)) &&
    elementsInside image.heap i &&
    (items.all fun j => (i.region? image.heap).all fun r => (j.region? image.heap).all fun s =>
      decide (r.addr = s.addr → i = j))

/-- An image is orderly if a list of items shows it. -/
theorem orderly_of_lists {depth : Nat} (hl : image.lists items depth = true)
    (ho : image.orderlyOn items = true) : image.Orderly := by
  simp only [orderlyOn, Bool.and_eq_true, List.all_eq_true, Option.all_eq_true,
    decide_eq_true_eq] at ho
  obtain ⟨hvalues, hitems⟩ := ho
  -- Whatever is reached is on the list, where each condition has been tested.
  refine ⟨hvalues, ?_, ?_, ?_, ?_, ?_⟩
  · intro i t hr ht
    obtain ⟨⟨⟨⟨htype, -⟩, -⟩, -⟩, -⟩ := hitems i (hr.of_lists hl)
    exact htype t ht
  · intro i addr hr ha
    obtain ⟨⟨⟨⟨-, hrecord⟩, -⟩, -⟩, -⟩ := hitems i (hr.of_lists hl)
    exact hrecord addr ha
  · intro i r hr hoc
    obtain ⟨⟨⟨-, hregion⟩, -⟩, -⟩ := hitems i (hr.of_lists hl)
    exact hregion r hoc.region?_eq
  · intro vec length hr hlength
    obtain ⟨⟨-, helements⟩, -⟩ := hitems _ (hr.of_lists hl)
    have hinside := of_all_ok helements hlength
    exact of_decide_eq_true hinside
  · intro i j r s hi hj hoc hoc' heq
    obtain ⟨-, hunique⟩ := hitems i (hi.of_lists hl)
    exact hunique j (hj.of_lists hl) r hoc.region?_eq s hoc'.region?_eq heq

end Image

end TreeMachine
