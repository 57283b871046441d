import TreeMachine.Proofs.Node.Inventory

/-! # Calls on a store of nodes

  The entries of all nodes are written down beside the heap while nodes are made, copied,
  appended to and written into, in any order.  Main statement: what is read off a node is
  always its entry, so a block is the list that it was made with and what has been appended
  to it since, and nothing that is done to one node changes another.
-/

namespace TreeMachine

/-! ### Writing into nodes -/

namespace NodeEntry

/-- The fields of a node, the words of the value of a literal or the elements of a block. -/
def words : NodeEntry → List UInt64
  | literal _ _ ws => ws
  | fields _ _ ms => ms
  | block _ elems => elems

/-- The entry with one of its words written. -/
def write (i : Nat) (w : UInt64) : NodeEntry → NodeEntry
  | literal before t ws => .literal before t (ws.set i w)
  | fields t before ms => .fields t before (ms.set i w)
  | block before elems => .block before (elems.set i w)

/-- The entry of a block with one more element. -/
def append (elem : Node) : NodeEntry → NodeEntry
  | block before elems => .block before (elems ++ [elem])
  | e => e

variable {h : Heap} {e : NodeEntry}

theorem Fits.write (he : e.Fits h) (i : Nat) (w : UInt64) : (e.write i w).Fits h := by
  cases e with
  | literal before t ws => exact ⟨he.1, by rw [List.length_set]; exact he.2⟩
  | fields | block => trivial

end NodeEntry

namespace Heap

/-- The place of a field of a node, of a word of the value of a literal or of an element of a
    block. -/
def payloadAt (h : Heap) (n : Node) (i : Nat) : Except Fault Addr := do
  match ← h.tag n with
  | .literal => return (← h.literalValue n).2 + UInt64.ofNat i
  | .block => return (← h.vector n) + vectorHeader + UInt64.ofNat i
  | _ => return n + headerWords + UInt64.ofNat i

/-- Writes a field of a node, a word of the value of a literal or an element of a block. -/
def writePayload (n : Node) (i : Nat) (w : UInt64) : HeapM Unit := do
  let p ← peek (·.payloadAt n i)
  setWord p w

variable {h₀ h h' : Heap} {E : Stock} {n : Node} {e : NodeEntry} {i : Nat}

theorem Stocked.writePayload (hp : Stocked h₀ h E) (hn : E n = some e) (hi : i < e.words.length)
    (w : UInt64) : ∃ h', writePayload n i w h = .ok () h' ∧
      Stocked h₀ h' (Function.update E n (some (e.write i w))) := by
  have hs := hp.sound.sized
  obtain ⟨x, hspread⟩ := hp.spread hn
  have htag := hspread.tag_eq hs
  have hrun : ∀ {p : Addr}, h.payloadAt n i = .ok p →
      Heap.writePayload n i w h = setWord p w h := by
    intro p hplace
    have hpeek : peek (·.payloadAt n i) h = .ok p h := inspect_eq_ok hplace
    exact bind_eq_ok hpeek
  cases e with
  | literal before t ws =>
    obtain ⟨object, h', hr, hset, hq⟩ := hp.setValue hn hi w
    refine ⟨h', (hrun ?_).trans hset, hq⟩
    rw [payloadAt, except_bind_ok htag]
    dsimp only [NodeEntry.tag]
    rw [except_bind_ok (literalValue_eq hs hr)]
    rfl
  | block before elems =>
    obtain ⟨vec, h', hr, hset, hq⟩ := hp.setElement hn hi w
    refine ⟨h', (hrun ?_).trans hset, hq⟩
    rw [payloadAt, except_bind_ok htag]
    dsimp only [NodeEntry.tag]
    rw [except_bind_ok (vector_eq hs hr)]
    rfl
  | fields t before ms =>
    obtain ⟨h', hset, hq⟩ := hp.setField hn hi w
    obtain ⟨-, -, ht⟩ := hspread.of_fields
    refine ⟨h', (hrun ?_).trans hset, hq⟩
    rw [payloadAt, except_bind_ok htag]
    cases t <;> first | exact absurd rfl ht.1 | exact absurd rfl ht.2 | rfl

end Heap

/-! ### Calls -/

/-- What can be asked of a store of nodes. -/
inductive NodeCall where
  | new (t : Tag) (before : Node) (ms : List Node)
  | literal (before : Node) (t : Ty) (ws : List UInt64)
  | integer (v : UInt64)
  | block (before : Node) (elems : List Node)
  | append (b elem : Node)
  | copy (n : Node)
  /-- Writes a field, a word of a value or an element. -/
  | write (n : Node) (i : Nat) (w : UInt64)
  /-- Writes any word of what belongs to a node. -/
  | spoil (n : Node) (p : Addr) (w : UInt64)

namespace NodeCall

/-- Makes the call; the answer is the node that is made or changed. -/
def perform : NodeCall → NodeM Node
  | new t before ms => Heap.newNode t before ms
  | literal before t ws => Heap.newLiteral before t ws
  | integer v => liftM (Heap.newInteger v)
  | block before elems => liftM (Heap.newBlock before elems)
  | append b elem => do
    liftM (Heap.append b elem)
    return b
  | copy n => liftM (Heap.copyNode n)
  | write n i w => do
    liftM (Heap.writePayload n i w)
    return n
  | spoil n p w => do
    liftM (Heap.setWord p w)
    return n

/-- What a call that has answered `n` does to the entries. -/
def enter (s : Scalars) (E : Stock) (n : Node) : NodeCall → Stock
  | new t before ms => Function.update E n (some (.fields t before ms))
  | literal before t ws => Function.update E n (some (.literal before t ws))
  | integer v => Function.update E n (some (.literal 0 s.integer [v]))
  | block before elems => Function.update E n (some (.block before elems))
  | append b elem => Function.update E b ((E b).map (·.append elem))
  | copy m => Function.update E n (E m)
  | write m i w => Function.update E m ((E m).map (·.write i w))
  | spoil m _ _ => Function.update E m none

/-- The node that a call changes. -/
def target : NodeCall → Option Node
  | append b _ => some b
  | write n _ _ | spoil n _ _ => some n
  | _ => none

/-- The node whose words a call writes over. -/
def writes : NodeCall → Option Node
  | write n _ _ | spoil n _ _ => some n
  | _ => none

/-- What calls append to a block, in order. -/
def appendedTo (n : Node) (calls : List NodeCall) : List Node :=
  calls.filterMap fun
    | .append b elem => if b = n then some elem else none
    | _ => none

end NodeCall

/-- A heap and the entries of its nodes. -/
structure NodeBooks where
  heap : Heap
  stock : Stock

namespace NodeBooks

/-- A heap in which no node has been made. -/
def opened (h : Heap) : NodeBooks := ⟨h, fun _ => none⟩

/-- One call.  If it fails, nothing is entered. -/
def step (b : NodeBooks) (call : NodeCall) : NodeBooks :=
  match call.perform b.heap with
  | .ok n h => ⟨h, call.enter b.heap.types.scalars b.stock n⟩
  | .error _ h => { b with heap := h }

/-- One call after the other. -/
def run (b : NodeBooks) (calls : List NodeCall) : NodeBooks := calls.foldl step b

/-- Types are types of the heap, lists can be counted by words, and the nodes that are copied
    or changed are nodes. -/
def Admits (b : NodeBooks) : NodeCall → Prop
  | .new .. | .integer _ => True
  | .literal _ t ws => b.heap.IsType t ∧ ws.length < 2 ^ 64
  | .block _ elems => elems.length + 2 < 2 ^ 64
  | .append n _ | .copy n => ∃ e, b.stock n = some e
  | .write n i _ => ∃ e, b.stock n = some e ∧ i < e.words.length
  | .spoil n p _ => (∃ e, b.stock n = some e) ∧
    ∃ rs, b.heap.regions n = .ok rs ∧ ∃ r ∈ rs, r.Has p.toNat

/-- All calls are admitted when their time comes. -/
def Fair : NodeBooks → List NodeCall → Prop
  | _, [] => True
  | b, call :: rest => b.Admits call ∧ (b.step call).Fair rest

/-- No call fails. -/
def Answered : NodeBooks → List NodeCall → Prop
  | _, [] => True
  | b, call :: rest => (∃ n h, call.perform b.heap = .ok n h) ∧ (b.step call).Answered rest

/-- The call has as many fields or words as it takes, and appends to a block. -/
def Proper (b : NodeBooks) : NodeCall → Prop
  | .new t _ ms => t ≠ .literal ∧ t ≠ .block ∧ ms.length = t.fields
  | .literal _ t ws => b.heap.size t = .ok (UInt64.ofNat ws.length)
  | .append n _ => ∃ before elems, b.stock n = some (.block before elems)
  | _ => True

/-! ### Steps -/

/-- Since `h₀` the heap has been stocked with the entries. -/
structure Sound (h₀ : Heap) (b : NodeBooks) : Prop where
  stocked : Heap.Stocked h₀ b.heap b.stock
  fits : ∀ {n e}, b.stock n = some e → e.Fits h₀

variable {h₀ h h' : Heap} {c : Catalogue} {b : NodeBooks} {call : NodeCall} {n m : Node}
  {e : NodeEntry} {calls : List NodeCall}

/-- What a call leaves: its entries, which are the old ones but for the node that it changes. -/
structure Enters (h₀ : Heap) (b : NodeBooks) (call : NodeCall) (n : Node) (h' : Heap) : Prop where
  sound : Sound h₀ ⟨h', call.enter b.heap.types.scalars b.stock n⟩
  kept : ∀ {m e}, b.stock m = some e → call.target ≠ some m →
    call.enter b.heap.types.scalars b.stock n m = some e

/-- A computation that makes the entry of a call, or fails and leaves the entries alone; a call
    that is proper fails for want of memory only. -/
def Performs (h₀ : Heap) (b : NodeBooks) (call : NodeCall) (x : NodeM Node) : Prop :=
  Yields x b.heap (Enters h₀ b call) fun err h' =>
    Heap.Stocked h₀ h' b.stock ∧ (b.Proper call → Heap.Starved err h')

namespace Sound

theorem opened (hs : h.arena.Sound) (hidle : h.arena.collecting = false) :
    Sound h (NodeBooks.opened h) :=
  ⟨.start hs hidle, fun hn => by cases hn⟩

theorem entryFits (hb : Sound h₀ b) (hs : h₀.Standard c) (hn : b.stock n = some e) :
    e.Fits b.heap :=
  (hb.stocked.fills.fits_iff hs.toInterned).2 (hb.fits hn)

/-- A node is made. -/
theorem makes {x : NodeM Node} (hb : Sound h₀ b) (hfits : e.Fits h₀)
    (henter : ∀ n, call.enter b.heap.types.scalars b.stock n = Function.update b.stock n (some e))
    (hx : Yields x b.heap (fun n h' => Heap.Stocked b.heap h' (Stock.only n e))
      (fun err h' => ∃ f, err = .fault f ∧ Heap.Spent b.heap f h')) :
    Performs h₀ b call x := by
  refine hx.mono ?_ ?_
  · intro n h' hq
    obtain ⟨hnew, -, hmore⟩ := hb.stocked.more hq
    refine ⟨⟨by rw [henter]; exact hmore, ?_⟩, ?_⟩
    · intro m e' hm
      dsimp only at hm
      rw [henter] at hm
      by_cases hmn : m = n
      · rw [hmn, Function.update_self] at hm
        cases hm
        exact hfits
      · rw [Function.update_of_ne hmn] at hm
        exact hb.fits hm
    · intro m e' hm _
      have hmn : m ≠ n := by
        rintro rfl
        rw [hnew] at hm
        cases hm
      rw [henter, Function.update_of_ne hmn, hm]
  · rintro _ h' ⟨f, rfl, hf, hfills⟩
    exact ⟨hb.stocked.later hfills, fun _ => ⟨f, rfl, hf⟩⟩

/-- A call that is not proper is refused. -/
theorem refuses {x : NodeM Node} (hb : Sound h₀ b) (hproper : ¬ b.Proper call)
    (hx : Yields x b.heap (fun _ _ => False) fun _ h' => h' = b.heap) : Performs h₀ b call x := by
  refine hx.mono (fun _ _ => False.elim) ?_
  rintro err h' rfl
  exact ⟨hb.stocked, fun hp => absurd hp hproper⟩

/-- A node is changed. -/
theorem changes (hb : Sound h₀ b) (e? : Option NodeEntry) (htarget : call.target = some n)
    (hfits : ∀ e, e? = some e → e.Fits h₀)
    (henter : call.enter b.heap.types.scalars b.stock n = Function.update b.stock n e?)
    (hq : Heap.Stocked h₀ h' (Function.update b.stock n e?)) : Enters h₀ b call n h' := by
  refine ⟨⟨by rw [henter]; exact hq, ?_⟩, ?_⟩
  · intro m e' hm
    dsimp only at hm
    rw [henter] at hm
    by_cases hmn : m = n
    · rw [hmn, Function.update_self] at hm
      exact hfits _ hm
    · rw [Function.update_of_ne hmn] at hm
      exact hb.fits hm
  · intro m e' hm hne
    rw [htarget] at hne
    rw [henter, Function.update_of_ne fun hmn => hne (congrArg some hmn.symm), hm]

/-- A node of a kind that is not made with fields, or with too few or too many, is refused. -/
theorem newNode_refused {h : Heap} {t : Tag} {before : Node} {ms : List Node}
    (hne : ¬ (t ≠ .literal ∧ t ≠ .block ∧ ms.length = t.fields)) :
    Yields (Heap.newNode t before ms) h (fun _ _ => False) fun _ h' => h' = h := by
  unfold Heap.newNode
  by_cases ht : t = .literal ∨ t = .block
  · rw [if_pos ht]
    exact Yields.of_error rfl rfl
  · have hlen : ms.length ≠ t.fields := fun hlen =>
      hne ⟨fun h => ht (Or.inl h), fun h => ht (Or.inr h), hlen⟩
    rw [if_neg ht, if_pos hlen]
    exact Yields.of_error rfl rfl

/-- A literal of the wrong size is refused. -/
theorem newLiteral_refused {h : Heap} {before : Node} {t : Ty} {size : UInt64}
    {ws : List UInt64} (hsize : h.size t = .ok size) (hne : UInt64.ofNat ws.length ≠ size) :
    Yields (Heap.newLiteral before t ws) h (fun _ _ => False) fun _ h' => h' = h := by
  have hlook : Yields (Heap.peek (·.typeText t)) h (fun _ h' => h' = h) fun _ h' => h' = h :=
    Yields.inspect (fun _ _ => rfl) fun _ _ => rfl
  unfold Heap.newLiteral
  refine Yields.bind_ok (lift_eq_ok (inspect_eq_ok hsize)) ?_
  rw [if_pos hne]
  refine Yields.bind ((Heap.yields_lift hlook).mono ?_ ?_)
  · rintro _ h' rfl
    exact Yields.of_error rfl rfl
  · rintro _ h' ⟨_, _, rfl⟩
    rfl

/-- Nothing is appended to a node that is no block. -/
theorem append_refused {h : Heap} {n : Node} {t : Tag} (htag : h.tag n = .ok t)
    (ht : t ≠ .block) (elem : Node) : ∃ f, Heap.append n elem h = .error f h := by
  have hexpect : h.expectTag n .block = .error (.broken (.wrongTag n t .block)) := by
    rw [Heap.expectTag, except_bind_ok htag, if_pos ht]
    rfl
  have hpeek : Heap.peek (·.expectTag n .block) h = .error (.broken (.wrongTag n t .block)) h :=
    inspect_eq_error hexpect
  exact ⟨_, bind_eq_error hpeek⟩

/-! ### The calls, one by one -/

theorem performs_new {t : Tag} {before : Node} {ms : List Node} (hb : Sound h₀ b) :
    Performs h₀ b (.new t before ms) (Heap.newNode t before ms) := by
  by_cases hproper : t ≠ .literal ∧ t ≠ .block ∧ ms.length = t.fields
  · exact hb.makes (e := .fields t before ms) trivial (fun _ => rfl)
      (Heap.newNode_stocks hb.stocked.sound hb.stocked.idle ⟨hproper.1, hproper.2.1⟩ hproper.2.2)
  · exact hb.refuses hproper (newNode_refused hproper)

theorem performs_literal {before : Node} {t : Ty} {ws : List UInt64} (hb : Sound h₀ b)
    (hs : h₀.Standard c) (ha : b.Admits (.literal before t ws)) :
    Performs h₀ b (.literal before t ws) (Heap.newLiteral before t ws) := by
  have hstd := hb.stocked.fills.standard hs
  have hsize := (hstd.size_known (hstd.isType_iff.1 ha.1)).1
  by_cases heq : UInt64.ofNat ws.length = UInt64.ofNat (b.heap.width t)
  · have hfits : (NodeEntry.literal before t ws).Fits b.heap := ⟨ha.1, by rw [heq]; exact hsize⟩
    exact hb.makes ((hb.stocked.fills.fits_iff hs.toInterned).1 hfits) (fun _ => rfl)
      (Heap.newLiteral_stocks hb.stocked.sound hb.stocked.idle hfits.2 ha.2)
  · refine hb.refuses ?_ (newLiteral_refused hsize heq)
    intro hp
    exact heq (Except.ok.inj (hp.symm.trans hsize))

theorem performs_integer {v : UInt64} (hb : Sound h₀ b) (hs : h₀.Standard c) :
    Performs h₀ b (.integer v) (NodeCall.integer v).perform := by
  have hstd := hb.stocked.fills.standard hs
  have hsize : b.heap.size b.heap.types.scalars.integer = .ok 1 :=
    (hstd.size_integers (w := 1) rfl).1
  have hfits : (NodeEntry.literal 0 b.heap.types.scalars.integer [v]).Fits b.heap :=
    ⟨hstd.isType_iff.2 (Heap.knows_of_mem hstd.integer), hsize⟩
  exact hb.makes ((hb.stocked.fills.fits_iff hs.toInterned).1 hfits) (fun _ => rfl)
    (Heap.yields_lift (Heap.newLiteralOrFault_stocks hb.stocked.sound hb.stocked.idle hfits.2
      (by simp)))

theorem performs_append {n elem : Node} (hb : Sound h₀ b) (he : b.stock n = some e) :
    Performs h₀ b (.append n elem) (NodeCall.append n elem).perform := by
  by_cases hproper : ∃ before elems, e = .block before elems
  · obtain ⟨before, elems, rfl⟩ := hproper
    refine Yields.bind ((Heap.yields_lift (hb.stocked.append he elem)).mono ?_ ?_)
    · rintro _ h' hq
      refine Yields.pure (hb.changes (some (.block before (elems ++ [elem]))) rfl ?_ ?_ hq)
      · rintro _ ⟨⟩
        trivial
      · rw [NodeCall.enter, he]
        rfl
    · rintro _ h' ⟨f, rfl, hf, rfl⟩
      exact ⟨hb.stocked, fun _ => ⟨f, rfl, hf⟩⟩
  · have hblock : ¬ b.Proper (.append n elem) := by
      rintro ⟨before, elems, hblock⟩
      rw [he, Option.some.injEq] at hblock
      exact hproper ⟨before, elems, hblock⟩
    obtain ⟨x, hspread⟩ := hb.stocked.spread he
    obtain ⟨f, hf⟩ := append_refused (hspread.tag_eq hb.stocked.sound.sized)
      (hspread.tag_ne_block fun before elems heq => hproper ⟨before, elems, heq⟩) elem
    exact hb.refuses hblock (Yields.of_error (bind_eq_error (lift_eq_error hf)) rfl)

/-- A call that is admitted makes its entry, or it fails and leaves the entries alone. -/
theorem perform (hb : Sound h₀ b) (hs : h₀.Standard c) (ha : b.Admits call) :
    Yields call.perform b.heap (Enters h₀ b call) fun err h' =>
      Heap.Stocked h₀ h' b.stock ∧ (b.Proper call → Heap.Starved err h') := by
  have hsound := hb.stocked.sound
  have hidle := hb.stocked.idle
  cases call with
  | new t before ms => exact hb.performs_new
  | literal before t ws => exact hb.performs_literal hs ha
  | integer v => exact hb.performs_integer hs
  | block before elems =>
    exact hb.makes (e := .block before elems) trivial (fun _ => rfl) (Heap.yields_lift
      (Heap.newBlock_stocks hsound hidle ha))
  | append n elem =>
    obtain ⟨e, he⟩ := ha
    exact hb.performs_append he
  | copy n =>
    obtain ⟨e, he⟩ := ha
    obtain ⟨x, hspread⟩ := hb.stocked.spread he
    refine hb.makes (e := e) (hb.fits he) (fun m => ?_) (Heap.yields_lift
      (Heap.copyNode_stocks hsound hidle hspread (hb.entryFits hs he)))
    rw [NodeCall.enter, he]
  | write n i w =>
    obtain ⟨e, he, hi⟩ := ha
    obtain ⟨h', hwrite, hq⟩ := hb.stocked.writePayload he hi w
    refine Yields.bind_ok (lift_eq_ok hwrite) (Yields.pure ?_)
    refine hb.changes (some (e.write i w)) rfl ?_ ?_ hq
    · rintro _ ⟨⟩
      exact (hb.fits he).write i w
    · rw [NodeCall.enter, he]
      rfl
  | spoil n p w =>
    obtain ⟨⟨e, he⟩, rs, hrs, r, hr, hpr⟩ := ha
    obtain ⟨h', hwrite, hq⟩ := hb.stocked.spoil he (hb.entryFits hs he) hrs hr hpr w
    exact Yields.bind_ok (lift_eq_ok hwrite) (Yields.pure
      (hb.changes none rfl (fun _ hnone => by cases hnone) rfl hq))

theorem step (hb : Sound h₀ b) (hs : h₀.Standard c) (ha : b.Admits call) :
    Sound h₀ (b.step call) ∧
      ∀ {m e}, b.stock m = some e → call.target ≠ some m → (b.step call).stock m = some e := by
  have hyields := hb.perform hs ha
  unfold NodeBooks.step
  cases hrun : call.perform b.heap with
  | ok n h' =>
    have hq := hyields.ok hrun
    exact ⟨hq.sound, hq.kept⟩
  | error err h' =>
    exact ⟨⟨(hyields.error hrun).1, hb.fits⟩, fun hm _ => hm⟩

/-- An answered call that writes over no word of a block adds to it what it appends. -/
theorem step_block (hb : Sound h₀ b) (hs : h₀.Standard c) (ha : b.Admits call)
    (hans : ∃ n h, call.perform b.heap = .ok n h) (hw : call.writes ≠ some n) {before : Node}
    {elems : List Node} (hn : b.stock n = some (.block before elems)) :
    (b.step call).stock n = some (.block before (elems ++ NodeCall.appendedTo n [call])) := by
  by_cases htarget : call.target = some n
  · obtain ⟨n', h', hrun⟩ := hans
    cases call with
    | append m elem =>
      cases htarget
      unfold NodeBooks.step
      rw [hrun]
      show Function.update b.stock n _ n = _
      rw [Function.update_self, hn, NodeCall.appendedTo]
      simp [NodeEntry.append]
    | write | spoil => exact absurd htarget hw
    | _ => cases htarget
  · have hnone : NodeCall.appendedTo n [call] = [] := by
      cases call with
      | append m elem =>
        have hmn : m ≠ n := fun hmn => htarget (congrArg some hmn)
        simp [NodeCall.appendedTo, hmn]
      | _ => rfl
    rw [hnone, List.append_nil]
    exact (hb.step hs ha).2 hn htarget

/-! ### Runs -/

/-- A run leaves the entries of all nodes that it does not change. -/
theorem run (hb : Sound h₀ b) (hs : h₀.Standard c) (hfair : b.Fair calls) :
    Sound h₀ (b.run calls) ∧ ∀ {m e}, b.stock m = some e →
      (∀ call ∈ calls, call.target ≠ some m) → (b.run calls).stock m = some e := by
  induction calls generalizing b with
  | nil => exact ⟨hb, fun hm _ => hm⟩
  | cons call rest ih =>
    obtain ⟨hstep, hkept⟩ := hb.step hs hfair.1
    obtain ⟨hrun, hrest⟩ := ih hstep hfair.2
    exact ⟨hrun, fun hm ht => hrest (hkept hm (ht _ List.mem_cons_self))
      fun call hc => ht call (List.mem_cons_of_mem _ hc)⟩

/-- A run adds to a block what it appends, in order. -/
theorem run_block (hb : Sound h₀ b) (hs : h₀.Standard c) (hfair : b.Fair calls)
    (hans : b.Answered calls) (hw : ∀ call ∈ calls, call.writes ≠ some n) {before : Node}
    {elems : List Node} (hn : b.stock n = some (.block before elems)) :
    (b.run calls).stock n = some (.block before (elems ++ NodeCall.appendedTo n calls)) := by
  induction calls generalizing b elems with
  | nil =>
    rw [NodeCall.appendedTo, List.filterMap_nil, List.append_nil]
    exact hn
  | cons call rest ih =>
    have hstep := hb.step_block hs hfair.1 hans.1 (hw _ List.mem_cons_self) hn
    have hrest := ih (hb.step hs hfair.1).1 hfair.2 hans.2
      (fun call hc => hw call (List.mem_cons_of_mem _ hc)) hstep
    have happended : NodeCall.appendedTo n [call] ++ NodeCall.appendedTo n rest
        = NodeCall.appendedTo n (call :: rest) :=
      (List.filterMap_append ..).symm
    rwa [List.append_assoc, happended] at hrest

end Sound

/-! ### What the books say -/

/-- What is read off every node is its entry, and every node has regions of its own that were
    free when the books were opened. -/
structure Upright (h₀ : Heap) (b : NodeBooks) : Prop where
  reads : ∀ {n e}, b.stock n = some e → b.heap.Reads n e
  regions : ∀ {n e}, b.stock n = some e → ∃ rs, b.heap.regions n = .ok rs ∧
    rs.Pairwise Region.Apart ∧ ∀ r ∈ rs, ∀ i, r.Has i → h₀.arena.Free i ∧ ¬ b.heap.arena.Free i
  /-- The vector of a block lies in one of its regions and is long enough. -/
  vector : ∀ {n before elems rs}, b.stock n = some (.block before elems) →
    b.heap.regions n = .ok rs → b.heap.VectorIn n elems rs
  apart : ∀ {n m e e' rs rs'}, b.stock n = some e → b.stock m = some e' → n ≠ m →
    b.heap.regions n = .ok rs → b.heap.regions m = .ok rs' → ∀ r ∈ rs, ∀ r' ∈ rs', r.Apart r'

theorem Sound.upright (hb : Sound h₀ b) (hs : h₀.Standard c) : b.Upright h₀ where
  reads hn := by
    obtain ⟨x, hspread⟩ := hb.stocked.spread hn
    exact hspread.reads hb.stocked.sound.sized (hb.entryFits hs hn)
  regions hn := hb.stocked.regions hn (hb.entryFits hs hn)
  vector hn hrs := by
    obtain ⟨x, hspread⟩ := hb.stocked.spread hn
    exact hspread.vectorIn hb.stocked.sound.sized hrs
  apart hn hm hnm hrs hrs' :=
    hb.stocked.regions_apart hn hm hnm (hb.entryFits hs hn) (hb.entryFits hs hm) hrs hrs'

/-- A new node reads as the entry says, all its words were free, and no other word has
    changed. -/
def Copied (b : NodeBooks) (e : NodeEntry) (n : Node) (h' : Heap) : Prop :=
  b.stock n = none ∧ h'.Reads n e ∧ b.heap.arena.Grows h'.arena ∧
    ∃ rs, h'.regions n = .ok rs ∧
      ∀ r ∈ rs, ∀ i, r.Has i → b.heap.arena.Free i ∧ ¬ h'.arena.Free i

theorem Sound.copied (hb : Sound h₀ b) (hs : h₀.Standard c) (hn : b.stock n = some e) :
    Yields (Heap.copyNode n) b.heap (b.Copied e) (Heap.Spent b.heap) := by
  obtain ⟨x, hspread⟩ := hb.stocked.spread hn
  have hfits := hb.entryFits hs hn
  have hstd := hb.stocked.fills.standard hs
  refine (Heap.copyNode_stocks hb.stocked.sound hb.stocked.idle hspread hfits).imp ?_
  intro m h' hq
  have hself : Stock.only m e m = some e := Stock.only_eq_some.2 ⟨rfl, rfl⟩
  have hfits' := (hq.fills.fits_iff hstd.toInterned).2 hfits
  obtain ⟨y, hspread'⟩ := hq.spread hself
  obtain ⟨rs, hrs, -, hfree⟩ := hq.regions hself hfits'
  exact ⟨(hb.stocked.more hq).1, hspread'.reads hq.sound.sized hfits', hq.fills.grows, rs, hrs,
    hfree⟩

/-- Whatever is done with the nodes of a heap, every node is what its entry says, in words of
    its own.  A call with the right arguments fails for want of memory only.  A block is a
    list that grows by what is appended to it, a copy is a new node with the same entry, and
    a node changes only by calls on that node. -/
theorem entries_independent (hs : h.Standard c) (hidle : h.arena.collecting = false)
    (hfair : (opened h).Fair calls) (hrun : (opened h).run calls = b) :
    b.Upright h ∧
    (∀ call, b.Admits call → b.Proper call →
      Yields call.perform b.heap (fun _ _ => True) Heap.Starved) ∧
    (∀ n before elems later, b.stock n = some (.block before elems) → b.Fair later →
      b.Answered later → (∀ call ∈ later, call.writes ≠ some n) →
      (b.run later).heap.elements n = .ok (elems ++ NodeCall.appendedTo n later)) ∧
    (∀ n e, b.stock n = some e →
      Yields (Heap.copyNode n) b.heap (b.Copied e) (Heap.Spent b.heap)) ∧
    ∀ n e later, b.stock n = some e → b.Fair later → (∀ call ∈ later, call.target ≠ some n) →
      (b.run later).heap.Reads n e := by
  obtain ⟨hb, -⟩ := (Sound.opened hs.sound hidle).run hs hfair
  rw [hrun] at hb
  refine ⟨hb.upright hs, ?_, ?_, fun n e hn => hb.copied hs hn, ?_⟩
  · intro call ha hproper
    exact (hb.perform hs ha).mono (fun _ _ _ => trivial) fun _ _ hf => hf.2 hproper
  · intro n before elems later hn hfair' hans hw
    have hlater := hb.run_block hs hfair' hans hw hn
    exact (((hb.run hs hfair').1.upright hs).reads hlater).2.2
  · intro n e later hn hfair' ht
    obtain ⟨hlater, hkept⟩ := hb.run hs hfair'
    exact (hlater.upright hs).reads (hkept hn ht)

/-- A block of two elements is copied.  Then the copy gets a third one, while the first element
    of the block is written over. -/
theorem entries_independent_copy : ∃ image b, Image.create 48 1 = .ok image ∧
    (opened image.heap).run [.block 0 [5], .append 7 6, .copy 7] = b ∧
      b.Upright image.heap ∧
      (b.run [.append 17 8, .write 7 0 9]).heap.elements 17 = .ok [5, 6, 8] ∧
      (b.run [.append 17 8]).heap.Reads 7 (.block 0 [5, 6]) := by
  have hruns : (match Image.create 48 1 with
      | .ok image =>
        let b := opened image.heap
        let b₁ := b.run [.block 0 [5]]
        let b₂ := b.run [.block 0 [5], .append 7 6]
        let b₃ := b.run [.block 0 [5], .append 7 6, .copy 7]
        let b₄ := b₃.run [.append 17 8]
        decide (image.heap.arena.collecting = false) &&
        decide (b₁.stock 7 = some (NodeEntry.block 0 [5])) &&
        decide (b₂.stock 7 = some (NodeEntry.block 0 [5, 6])) &&
        decide (b₃.stock 7 = some (NodeEntry.block 0 [5, 6])) &&
        decide (b₃.stock 17 = some (NodeEntry.block 0 [5, 6])) &&
        decide (b₄.stock 7 = some (NodeEntry.block 0 [5, 6])) &&
        (match (NodeCall.append 17 8).perform b₃.heap with
          | .ok _ _ => true
          | .error _ _ => false) &&
        match (NodeCall.write 7 0 9).perform b₄.heap with
        | .ok _ _ => true
        | .error _ _ => false
      | .error _ => false) = true := by decide +kernel
  split at hruns
  · rename_i image hcreate
    simp only [Bool.and_eq_true, decide_eq_true_eq] at hruns
    obtain ⟨⟨⟨⟨⟨⟨⟨hidle, h₁⟩, h₂⟩, h₃⟩, hcopy⟩, h₄⟩, hans⟩, hans'⟩ := hruns
    obtain ⟨c, hs⟩ := Image.create_standard hcreate
    have hfair : (opened image.heap).Fair [.block 0 [5], .append 7 6, .copy 7] :=
      ⟨(by decide : 1 + 2 < 2 ^ 64), ⟨_, h₁⟩, ⟨_, h₂⟩, trivial⟩
    generalize hrun : (opened image.heap).run [.block 0 [5], .append 7 6, .copy 7] = b at *
    obtain ⟨hupright, -, hblocks, -, hkept⟩ := entries_independent hs hidle hfair hrun
    refine ⟨image, b, hcreate, hrun, hupright, ?_, ?_⟩
    · refine hblocks 17 0 [5, 6] [.append 17 8, .write 7 0 9] hcopy
        ⟨⟨_, hcopy⟩, ⟨_, h₄, by decide⟩, trivial⟩ ⟨?_, ?_, trivial⟩ ?_
      · split at hans
        · exact ⟨_, _, ‹_›⟩
        · cases hans
      · split at hans'
        · exact ⟨_, _, ‹_›⟩
        · cases hans'
      · simp [NodeCall.writes]
    · refine hkept 7 _ [.append 17 8] h₃ ⟨⟨_, hcopy⟩, trivial⟩ ?_
      simp [NodeCall.target]
  · cases hruns

end NodeBooks

end TreeMachine
