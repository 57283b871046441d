import TreeMachine.Proofs.Node.Pieces

/-! # Records in pieces

  The record of a node, the object of a literal and the vector of a block are pieces of
  their own.  Main statements: what pieces the operations on them leave, where the memory
  does not run out, and what is left if it does.
-/

namespace TreeMachine.Heap

/-- The words of a vector with some room left. -/
def vectorOf (elems slack : List Node) : List UInt64 :=
  UInt64.ofNat elems.length :: UInt64.ofNat (elems.length + slack.length) :: (elems ++ slack)

@[simp] theorem length_vectorOf (elems slack : List Node) :
    (vectorOf elems slack).length = elems.length + slack.length + 2 := by
  simp [vectorOf]

/-- An operation that may only fault, among operations with errors. -/
theorem yields_lift {ε σ α : Type} {x : EStateM Fault σ α} {t : σ} {Q : α → σ → Prop}
    {E : Fault → σ → Prop} (hx : Yields x t Q E) :
    Yields (liftM x : EStateM (Stop ε) σ α) t Q fun e t' => ∃ f, e = .fault f ∧ E f t' := by
  cases hrun : x t with
  | ok a t' => exact Yields.of_ok (lift_eq_ok hrun) (hx.ok hrun)
  | error f t' => exact Yields.of_error (lift_eq_error hrun) ⟨f, rfl, hx.error hrun⟩

/-- The errors of an operation that only faults make no difference. -/
theorem yields_mapStop {ε ε' σ α : Type} {f : ε → ε'} {x : EStateM (Stop ε) σ α} {t : σ}
    {Q : α → σ → Prop} {E : Fault → σ → Prop}
    (hx : Yields x t Q fun e t' => ∃ f, e = .fault f ∧ E f t') :
    Yields (mapStop f x) t Q fun e t' => ∃ f, e = .fault f ∧ E f t' := by
  cases hrun : x t with
  | ok a t' => exact Yields.of_ok (mapStop_eq_ok hrun) (hx.ok hrun)
  | error e t' =>
    obtain ⟨fault, rfl, hfault⟩ := hx.error hrun
    exact Yields.of_error (mapStop_eq_error hrun) ⟨fault, rfl, hfault⟩

/-- The arena was exhausted. -/
def Starved {ε : Type} (e : Stop ε) (h : Heap) : Prop :=
  ∃ f, e = .fault f ∧ Exhausted f h.arena

/-- Memory ran out, and until then only free words were filled. -/
def Spent (h₀ : Heap) (f : Fault) (h : Heap) : Prop := Exhausted f h.arena ∧ h₀.Fills h 0

theorem Starved.of_spent {ε : Type} {h₀ h : Heap} {e : Stop ε}
    (hf : ∃ f, e = .fault f ∧ Spent h₀ f h) : Starved e h := by
  obtain ⟨f, he, hex, -⟩ := hf
  exact ⟨f, he, hex⟩

namespace Carved

variable {h₀ h h' : Heap} {P P' : Addr → Option (List UInt64)} {a b n : Addr} {before : Node}
  {ws ms : List UInt64} {t : Tag}

theorem null (hm : Carved h₀ h P) : P 0 = none := by
  cases hp : P 0 with
  | none => rfl
  | some ws => exact absurd rfl (hm.ne_zero hp)

theorem spent (hm : Carved h₀ h P) {f : Fault} (hf : Exhausted f h'.arena ∧ h' = h) :
    Spent h₀ f h' :=
  ⟨hf.1, hf.2 ▸ hm.toFills⟩

/-- A record without operands. -/
theorem allocateNode (hm : Carved h₀ h P) (t : Tag) (before : Node) :
    Yields (allocateNode t before) h
      (fun n h' => P n = none ∧ n ≠ 0 ∧ Carved h₀ h'
        (Function.update P n (some (t.word :: before :: List.replicate t.fields 0))))
      (fun f h' => Exhausted f h'.arena ∧ h' = h) := by
  have hsize : headerWords + UInt64.ofNat t.fields ≠ 0 := by cases t <;> decide
  refine Yields.bind ((hm.allocate hsize).imp ?_)
  rintro n h₁ ⟨hnew, hne, hm₁⟩
  rw [length_record] at hm₁
  obtain ⟨h₂, hset₂, hm₂⟩ :=
    hm₁.setWord (Function.update_self ..) (i := 0) (by simp) (Nat.add_zero _).symm t.word
  obtain ⟨h₃, hset₃, hm₃⟩ := hm₂.setWord (Function.update_self ..) (i := 1) (by simp)
    (hm₂.toNat_add (Function.update_self ..) (i := 1) (by simp)) before
  refine Yields.bind_ok hset₂ (Yields.bind_ok hset₃ (Yields.pure ⟨hnew, hne, ?_⟩))
  simpa [List.replicate_succ] using hm₃

/-- The payload of a record without operands. -/
theorem blank (t : Tag) (before n : Node) :
    Function.update P n (some (t.word :: before :: List.replicate t.fields 0)) n
      = some ([t.word, before] ++ (List.replicate t.fields 0 ++ [])) := by
  rw [Function.update_self, List.append_nil]
  rfl

/-- A node with all its fields. -/
theorem newNode (hm : Carved h₀ h P) (ht : t ≠ .literal ∧ t ≠ .block)
    (hlen : ms.length = t.fields) :
    Yields (newNode t before ms) h
      (fun n h' => P n = none ∧ n ≠ 0 ∧
        Carved h₀ h' (Function.update P n (some (t.word :: before :: ms))))
      (fun e h' => ∃ f, e = .fault f ∧ Spent h₀ f h') := by
  unfold Heap.newNode
  rw [if_neg (by simpa using ht), if_neg (not_not.2 hlen)]
  refine Yields.bind ((yields_lift (hm.allocateNode t before)).mono ?_ ?_)
  · rintro n h₁ ⟨hnew, hne, hm₁⟩
    obtain ⟨h₂, hset, hm₂⟩ := hm₁.setEach (p := n + headerWords) (blank t before n) ms
      (by rw [hlen, List.length_replicate]) (hm₁.toNat_add (blank t before n) (i := 2) (by simp))
    refine Yields.bind_ok (lift_eq_ok hset) (Yields.pure ⟨hnew, hne, ?_⟩)
    rw [Function.update_idem, List.append_nil] at hm₂
    exact hm₂
  · rintro _ h₁ ⟨f, rfl, hf⟩
    exact ⟨f, rfl, hm.spent hf⟩

/-! ### Literals -/

/-- The record of a literal whose value stands in an object. -/
theorem literalRecord (hm : Carved h₀ h P) (before : Node) (t : Ty) (x : Addr) :
    Yields (do
        let n ← liftM (Heap.allocateNode .literal before)
        liftM (Heap.setWord (n + 2) t)
        liftM (Heap.setWord (n + 3) x)
        return n : NodeM Node) h
      (fun n h' => P n = none ∧ n ≠ 0 ∧
        Carved h₀ h' (Function.update P n (some [Tag.literal.word, before, t, x])))
      (fun e h' => ∃ f, e = .fault f ∧ Spent h₀ f h') := by
  refine Yields.bind ((yields_lift (hm.allocateNode .literal before)).mono ?_ ?_)
  · rintro n h₁ ⟨hn, hn0, hm₁⟩
    have hthree : 3 < (Tag.literal.word :: before :: List.replicate Tag.literal.fields 0).length :=
      Nat.lt_succ_self 3
    obtain ⟨h₂, hset₂, hm₂⟩ := hm₁.setWord (Function.update_self ..) (i := 2) (by omega)
      (hm₁.toNat_add (Function.update_self ..) (i := 2) (by omega)) t
    obtain ⟨h₃, hset₃, hm₃⟩ := hm₂.setWord (Function.update_self ..) (i := 3)
      (by rwa [List.length_set])
      (hm₂.toNat_add (Function.update_self ..) (i := 3) (by rw [List.length_set]; omega)) x
    rw [Function.update_idem, Function.update_idem] at hm₃
    exact Yields.bind_ok (lift_eq_ok hset₂) (Yields.bind_ok (lift_eq_ok hset₃)
      (Yields.pure ⟨hn, hn0, hm₃⟩))
  · rintro _ h₁ ⟨f, rfl, hf⟩
    exact ⟨f, rfl, hm.spent hf⟩

/-- A literal, and the object of its value if that has any words. -/
theorem newLiteral (hm : Carved h₀ h P) {t : Ty} (hsize : h.size t = .ok (UInt64.ofNat ws.length))
    (hfits : ws.length < 2 ^ 64) :
    Yields (newLiteral before t ws) h
      (fun n h' => P n = none ∧ n ≠ 0 ∧
        (ws = [] ∧ Carved h₀ h' (Function.update P n (some [Tag.literal.word, before, t, 0])) ∨
        ws ≠ [] ∧ ∃ x, P x = none ∧ x ≠ 0 ∧ x ≠ n ∧ Carved h₀ h' (Function.update
          (Function.update P x (some ws)) n (some [Tag.literal.word, before, t, x]))))
      (fun e h' => ∃ f, e = .fault f ∧ Spent h₀ f h') := by
  unfold Heap.newLiteral
  refine Yields.bind_ok (lift_eq_ok (inspect_eq_ok hsize)) ?_
  rw [if_neg fun hne => hne rfl]
  dsimp only
  have hofNat : (UInt64.ofNat ws.length).toNat = ws.length := UInt64.toNat_ofNat_of_lt' hfits
  by_cases hempty : ws = []
  · subst hempty
    rw [if_neg (by simp)]
    refine (hm.literalRecord before t 0).imp ?_
    rintro n h₁ ⟨hn, hn0, hm₁⟩
    exact ⟨hn, hn0, Or.inl ⟨rfl, hm₁⟩⟩
  · have hpos : 0 < ws.length := List.length_pos_iff.2 hempty
    have hne : UInt64.ofNat ws.length ≠ 0 := Arena.toNat_pos_iff.1 (by omega)
    rw [if_pos hne]
    -- The object first, then the node.
    refine Yields.bind ((yields_lift (hm.allocate hne)).mono ?_ ?_)
    · rintro x h₁ ⟨hx, hx0, hm₁⟩
      rw [hofNat] at hm₁
      have hobject : Function.update P x (some (List.replicate ws.length 0)) x
          = some ([] ++ (List.replicate ws.length 0 ++ [])) := by
        rw [Function.update_self, List.append_nil, List.nil_append]
      obtain ⟨h₂, hset₂, hm₂⟩ := hm₁.setPart hobject ws (by rw [List.length_replicate])
        (Nat.add_zero _).symm
      rw [Function.update_idem, List.nil_append, List.append_nil] at hm₂
      refine Yields.bind_ok (lift_eq_ok hset₂) ((hm₂.literalRecord before t x).imp ?_)
      rintro n h₃ ⟨hn, hn0, hm₃⟩
      have hxn : x ≠ n := by
        rintro rfl
        rw [Function.update_self] at hn
        cases hn
      rw [Function.update_of_ne hxn.symm] at hn
      exact ⟨hn, hn0, Or.inr ⟨hempty, x, hx, hx0, hxn, hm₃⟩⟩
    · rintro _ h₁ ⟨f, rfl, hf⟩
      exact ⟨f, rfl, hm.spent hf⟩

/-! ### Vectors -/

theorem newVector (hm : Carved h₀ h P) {k : Nat} (hk : k + 2 < 2 ^ 64) :
    Yields (newVector (UInt64.ofNat k)) h
      (fun x h' => P x = none ∧ x ≠ 0 ∧
        Carved h₀ h' (Function.update P x (some (vectorOf [] (List.replicate k 0)))))
      (fun f h' => Exhausted f h'.arena ∧ h' = h) := by
  have htotal : (vectorHeader + UInt64.ofNat k).toNat = k + 2 := by
    rw [UInt64.toNat_add, UInt64.toNat_ofNat']
    show (2 + k % _) % _ = _
    omega
  refine Yields.bind ((hm.allocate (Arena.toNat_pos_iff.1 (by omega))).imp ?_)
  rintro x h₁ ⟨hnew, hne, hm₁⟩
  rw [htotal] at hm₁
  obtain ⟨h₂, hset₂, hm₂⟩ :=
    hm₁.setWord (Function.update_self ..) (i := 0) (by simp) (Nat.add_zero _).symm 0
  obtain ⟨h₃, hset₃, hm₃⟩ := hm₂.setWord (Function.update_self ..) (i := 1) (by simp)
    (hm₂.toNat_add (Function.update_self ..) (i := 1) (by simp)) (UInt64.ofNat k)
  refine Yields.bind_ok hset₂ (Yields.bind_ok hset₃ (Yields.pure ⟨hnew, hne, ?_⟩))
  simpa [List.replicate_succ, vectorOf] using hm₃

/-- One more element in a vector that has room for it. -/
theorem pushVector (hm : Carved h₀ h P) {x : Addr} {elems slack : List Node} {v : UInt64}
    (hx : P x = some (vectorOf elems (v :: slack))) (e : Node) :
    ∃ h', pushVector x e h = .ok () h' ∧
      Carved h₀ h' (Function.update P x (some (vectorOf (elems ++ [e]) slack))) := by
  have hsmall := hm.length_lt hx
  rw [length_vectorOf, List.length_cons] at hsmall
  have hlength : peek (·.word x) h = .ok (UInt64.ofNat elems.length) h :=
    inspect_eq_ok (hm.word hx (i := 0) rfl (Nat.add_zero _).symm)
  have hplace : (x + vectorHeader + UInt64.ofNat elems.length).toNat
      = x.toNat + (elems.length + 2) :=
    hm.toNat_header hx (by rw [length_vectorOf]; omega)
  obtain ⟨h₁, hset₁, hm₁⟩ := hm.setWord hx (i := elems.length + 2)
    (by rw [length_vectorOf, List.length_cons]; omega) hplace e
  obtain ⟨h₂, hset₂, hm₂⟩ := hm₁.setWord (Function.update_self ..) (i := 0)
    (by simp [vectorOf]) (Nat.add_zero _).symm (UInt64.ofNat elems.length + 1)
  refine ⟨h₂, (bind_eq_ok hlength).trans ((bind_eq_ok hset₁).trans hset₂), ?_⟩
  have hcount : UInt64.ofNat elems.length + 1 = UInt64.ofNat (elems ++ [e]).length := by
    rw [List.length_append, UInt64.ofNat_add]
    rfl
  have hset : ((vectorOf elems (v :: slack)).set (elems.length + 2) e).set 0
      (UInt64.ofNat elems.length + 1) = vectorOf (elems ++ [e]) slack := by
    rw [hcount]
    simp [vectorOf, Nat.add_comm, Nat.add_left_comm]
  rw [Function.update_idem, hset] at hm₂
  exact hm₂

/-- More elements in a vector that has room for them. -/
theorem pushAll (hm : Carved h₀ h P) {x : Addr} {elems : List Node} (rest : List Node)
    (hx : P x = some (vectorOf elems (List.replicate rest.length 0))) :
    ∃ h', pushAll x rest h = .ok () h' ∧
      Carved h₀ h' (Function.update P x (some (vectorOf (elems ++ rest) []))) := by
  induction rest generalizing h P elems with
  | nil =>
    refine ⟨h, rfl, ?_⟩
    rw [List.append_nil]
    rwa [Function.update_eq_self_iff.2 hx.symm]
  | cons e rest ih =>
    obtain ⟨h₁, hpush, hm₁⟩ := hm.pushVector hx e
    obtain ⟨h₂, hrest, hm₂⟩ := ih hm₁ (Function.update_self ..)
    rw [Function.update_idem, List.append_assoc] at hm₂
    exact ⟨h₂, (bind_eq_ok hpush).trans hrest, hm₂⟩

/-- A block, and its vector if it has elements. -/
theorem newBlock (hm : Carved h₀ h P) {elems : List Node} (hfits : elems.length + 2 < 2 ^ 64) :
    Yields (newBlock before elems) h
      (fun n h' => P n = none ∧ n ≠ 0 ∧
        (elems = [] ∧ Carved h₀ h' (Function.update P n (some [Tag.block.word, before, 0])) ∨
        elems ≠ [] ∧ ∃ x, P x = none ∧ x ≠ 0 ∧ x ≠ n ∧ Carved h₀ h' (Function.update
          (Function.update P x (some (vectorOf elems []))) n
          (some [Tag.block.word, before, x]))))
      (Spent h₀) := by
  refine Yields.bind ((hm.allocateNode .block before).mono ?_ fun f h' => hm.spent)
  rintro n h₁ ⟨hn, hn0, hm₁⟩
  by_cases hempty : elems = []
  · subst hempty
    exact ⟨hn, hn0, Or.inl ⟨rfl, hm₁⟩⟩
  · rw [if_pos (by simpa using hempty)]
    refine Yields.bind ((hm₁.newVector hfits).mono ?_ fun f h' => hm₁.spent)
    rintro x h₂ ⟨hx, hx0, hm₂⟩
    have hxn : x ≠ n := by
      rintro rfl
      rw [Function.update_self] at hx
      cases hx
    rw [Function.update_of_ne hxn] at hx
    obtain ⟨h₃, hpush, hm₃⟩ := hm₂.pushAll elems (Function.update_self ..)
    rw [Function.update_idem, Function.update_comm hxn.symm] at hm₃
    have htwo : 2 < (Tag.block.word :: before :: List.replicate Tag.block.fields 0).length :=
      Nat.lt_succ_self 2
    obtain ⟨h₄, hset, hm₄⟩ := hm₃.setWord (Function.update_self ..) (i := 2) htwo
      (hm₃.toNat_add (Function.update_self ..) (i := 2) (Nat.le_of_lt htwo)) x
    rw [Function.update_idem] at hm₄
    exact Yields.bind_ok hpush (Yields.bind_ok hset
      (Yields.pure ⟨hn, hn0, Or.inr ⟨hempty, x, hx, hx0, hxn, hm₄⟩⟩))

end Carved

/-! ### Growing vectors -/

/-- Moves the elements of a full vector to a larger one, which takes its place. -/
def moveVector (slot vec grown : Addr) (length : UInt64) : HeapM Unit := do
  let _ ← peek (·.slice (grown + vectorHeader) length)
  let moved ← peek (·.slice (vec + vectorHeader) length)
  setWords (grown + vectorHeader) moved
  setWord grown length
  setWord slot grown

/-- What `append` does once the block has a vector. -/
def appendTo (slot vec : Addr) (elem : Node) : HeapM Unit := do
  let length ← peek (·.word vec)
  let capacity ← peek (·.word (vec + 1))
  if length = capacity then
    let grown ← newVector (capacity * 2)
    moveVector slot vec grown length
    pushVector grown elem
  else pushVector vec elem

theorem append_eq (block elem : Node) : append block elem = (do
    peek (·.expectTag block .block)
    let vec ← peek (·.word (block + 2))
    if vec = 0 then
      let vec ← newVector 4
      setWord (block + 2) vec
      appendTo (block + 2) vec elem
    else appendTo (block + 2) vec elem) := by
  simp only [appendTo, moveVector, bind_assoc]
  rfl

namespace Carved

variable {h₀ h h' : Heap} {P P' : Addr → Option (List UInt64)} {b y z slot : Addr}
  {before : Node} {elems slack : List Node}

theorem moveVector (hm : Carved h₀ h P) (hb : P b = some [Tag.block.word, before, y])
    (hy : P y = some (vectorOf elems []))
    (hz : P z = some (vectorOf [] (List.replicate (elems.length + elems.length) 0)))
    (hzb : z ≠ b) :
    ∃ h', moveVector (b + 2) y z (UInt64.ofNat elems.length) h = .ok () h' ∧
      Carved h₀ h' (Function.update
        (Function.update P z (some (vectorOf elems (List.replicate elems.length 0)))) b
        (some [Tag.block.word, before, z])) := by
  have hsmall := hm.length_lt hy
  have hofNat : (UInt64.ofNat elems.length).toNat = elems.length := by
    rw [length_vectorOf] at hsmall
    rw [UInt64.toNat_ofNat']
    omega
  -- The vectors in parts: the header, the elements and what is left.
  have hfull : P y = some ([UInt64.ofNat elems.length, UInt64.ofNat elems.length] ++
      (elems ++ [])) := hy
  have hblank : P z = some ([0, UInt64.ofNat (elems.length + elems.length)] ++
      (List.replicate elems.length 0 ++ List.replicate elems.length 0)) := by
    rw [hz, List.replicate_append_replicate, vectorOf, List.length_replicate, List.length_nil,
      Nat.zero_add]
    rfl
  have hlook : peek (·.slice (z + vectorHeader) (UInt64.ofNat elems.length)) h = .ok _ h :=
    inspect_eq_ok (hm.slice hblank rfl (by rw [hofNat, List.length_replicate]))
  have hmoved : peek (·.slice (y + vectorHeader) (UInt64.ofNat elems.length)) h = .ok elems h :=
    inspect_eq_ok (hm.slice hfull rfl hofNat)
  obtain ⟨h₁, hset₁, hm₁⟩ := hm.setPart hblank elems (by rw [List.length_replicate])
    (hm.toNat_add hblank (i := 2) (by simp only [List.length_append, List.length_cons]; omega))
  obtain ⟨h₂, hset₂, hm₂⟩ := hm₁.setWord (Function.update_self ..) (i := 0) (by simp)
    (Nat.add_zero _).symm (UInt64.ofNat elems.length)
  rw [Function.update_idem] at hm₂
  have hb₂ : ∀ ws, Function.update P z (some ws) b = some [Tag.block.word, before, y] := by
    intro ws
    rw [Function.update_of_ne hzb.symm]
    exact hb
  obtain ⟨h₃, hset₃, hm₃⟩ := hm₂.setWord (hb₂ _) (i := 2) (by simp)
    (hm₂.toNat_add (hb₂ _) (i := 2) (by simp)) z
  have hvector : ([0, UInt64.ofNat (elems.length + elems.length)] ++
      (elems ++ List.replicate elems.length 0)).set 0 (UInt64.ofNat elems.length)
      = vectorOf elems (List.replicate elems.length 0) := by
    rw [vectorOf, List.length_replicate]
    rfl
  rw [hvector] at hm₃
  exact ⟨h₃, (bind_eq_ok hlook).trans ((bind_eq_ok hmoved).trans ((bind_eq_ok hset₁).trans
    ((bind_eq_ok hset₂).trans hset₃))), hm₃⟩

/-- The counts of a vector are read first. -/
theorem appendTo_eq (hm : Carved h₀ h P) (hy : P y = some (vectorOf elems slack)) (e : Node) :
    Heap.appendTo slot y e h
      = (if UInt64.ofNat elems.length = UInt64.ofNat (elems.length + slack.length) then do
          let grown ← Heap.newVector (UInt64.ofNat (elems.length + slack.length) * 2)
          Heap.moveVector slot y grown (UInt64.ofNat elems.length)
          Heap.pushVector grown e
        else Heap.pushVector y e) h := by
  have hlength : peek (·.word y) h = .ok (UInt64.ofNat elems.length) h :=
    inspect_eq_ok (hm.word hy (i := 0) rfl (Nat.add_zero _).symm)
  have hcapacity : peek (·.word (y + 1)) h
      = .ok (UInt64.ofNat (elems.length + slack.length)) h :=
    inspect_eq_ok (hm.word hy (i := 1) rfl
      (hm.toNat_add hy (i := 1) (by rw [length_vectorOf]; omega)))
  exact (bind_eq_ok hlength).trans (bind_eq_ok hcapacity)

/-- There is room for one more element. -/
theorem appendTo_room (hm : Carved h₀ h P) {v : UInt64}
    (hy : P y = some (vectorOf elems (v :: slack))) (slot : Addr) (e : Node) :
    ∃ h', Heap.appendTo slot y e h = .ok () h' ∧
      Carved h₀ h' (Function.update P y (some (vectorOf (elems ++ [e]) slack))) := by
  have hsmall := hm.length_lt hy
  rw [length_vectorOf, List.length_cons] at hsmall
  -- The two counts differ as words too, since the vector fits the arena.
  have hroom : UInt64.ofNat elems.length ≠ UInt64.ofNat (elems.length + (v :: slack).length) := by
    intro heq
    have hnat := congrArg UInt64.toNat heq
    rw [UInt64.toNat_ofNat', UInt64.toNat_ofNat', List.length_cons] at hnat
    omega
  rw [hm.appendTo_eq hy, if_neg hroom]
  exact hm.pushVector hy e

/-- The vector is full, so the elements move to a new one with twice the room. -/
theorem appendTo_full (hm : Carved h₀ h P) (hb : P b = some [Tag.block.word, before, y])
    (hy : P y = some (vectorOf elems [])) (hpos : 0 < elems.length) (e : Node) :
    Yields (Heap.appendTo (b + 2) y e) h
      (fun _ h' => ∃ z slack, P z = none ∧ z ≠ b ∧ Carved h₀ h' (Function.update
        (Function.update P z (some (vectorOf (elems ++ [e]) slack))) b
        (some [Tag.block.word, before, z])))
      (fun f h' => Exhausted f h'.arena ∧ h' = h) := by
  have hsmall := hm.length_lt hy
  rw [length_vectorOf, List.length_nil] at hsmall
  obtain ⟨k, hk⟩ : ∃ k, elems.length = k + 1 := ⟨elems.length - 1, by omega⟩
  have hdouble : UInt64.ofNat elems.length * 2 = UInt64.ofNat (elems.length + elems.length) := by
    rw [← Nat.mul_two, UInt64.ofNat_mul]
    rfl
  refine Yields.congr (hm.appendTo_eq hy e) ?_
  rw [List.length_nil, Nat.add_zero, if_pos rfl, hdouble]
  refine Yields.bind ((hm.newVector (by omega)).imp ?_)
  rintro z h₁ ⟨hz, -, hm₁⟩
  have hzb : z ≠ b := by
    rintro rfl
    rw [hz] at hb
    cases hb
  have hzy : z ≠ y := by
    rintro rfl
    rw [hz] at hy
    cases hy
  have hb₁ : ∀ ws, Function.update P z (some ws) b = some [Tag.block.word, before, y] := fun _ =>
    (Function.update_of_ne hzb.symm ..).trans hb
  have hy₁ : ∀ ws, Function.update P z (some ws) y = some (vectorOf elems []) := fun _ =>
    (Function.update_of_ne hzy.symm ..).trans hy
  obtain ⟨h₂, hmove, hm₂⟩ := hm₁.moveVector (hb₁ _) (hy₁ _) (Function.update_self ..) hzb
  rw [Function.update_idem, hk, List.replicate_succ] at hm₂
  obtain ⟨h₃, hpush, hm₃⟩ := hm₂.pushVector
    ((Function.update_of_ne hzb ..).trans (Function.update_self ..)) e
  rw [Function.update_comm hzb.symm, Function.update_idem] at hm₃
  exact Yields.bind_ok hmove (Yields.of_ok hpush ⟨z, _, hz, hzb, hm₃⟩)

end Carved

end TreeMachine.Heap
