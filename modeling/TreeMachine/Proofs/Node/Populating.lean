import TreeMachine.Proofs.Node.Cells

/-! # Populating a heap

  The reader makes nodes before it knows their fields and elements, and fills them in later.
  Main statements: what each operation does to the memory of a populated heap, whatever the
  memory is, and that none of them fails but for want of room.
-/

namespace TreeMachine.Heap

variable {n b : Addr} {r : Cell} {M : NodeMemory} {h₀ h h' : Heap} {c : Catalogue}

namespace Populated

/-- A heap at rest has no nodes that were made since. -/
theorem start (hs : h.arena.Sound) (hidle : h.arena.collecting = false) :
    Populated h h fun _ => none :=
  populated_iff_stocked.2 (.start hs hidle)

theorem stocked (hp : Populated h₀ h M) : Stocked h₀ h (M.entries h₀.types.scalars) :=
  populated_iff_stocked.1 hp

theorem fills (hp : Populated h₀ h M) : h₀.Fills h 0 := hp.stocked.fills

theorem entry (hn : M n = some r) (s : Scalars) : M.entries s n = some (r.entry s) := by
  rw [NodeMemory.entries, hn]
  rfl

/-- The words of a node and of what it holds stand in the heap. -/
theorem laid (hp : Populated h₀ h M) (hn : M n = some r) :
    ∃ x, Laid h.types.scalars h.arena.Owns n x r := by
  obtain ⟨x, hspread⟩ := hp.stocked.spread (entry hn _)
  rw [← hp.fills.types] at hspread
  exact ⟨x, laid_iff_spread.2 hspread⟩

/-- One more node has been made. -/
theorem more (hp : Populated h₀ h M) (hq : Stocked h h' (Stock.only n (r.entry h.types.scalars))) :
    M n = none ∧ n ≠ 0 ∧ Populated h₀ h' (Function.update M n (some r)) := by
  rw [hp.fills.types] at hq
  obtain ⟨hnone, hne, hmore⟩ := hp.stocked.more hq
  rw [← NodeMemory.entries_update] at hmore
  exact ⟨NodeMemory.entries_eq_none.1 hnone, hne, populated_iff_stocked.2 hmore⟩

/-- Memory that runs out later has only been filled since `h₀`. -/
theorem spent {f : Fault} (hp : Populated h₀ h M) (hf : Spent h f h') : Spent h₀ f h' :=
  ⟨hf.1, hp.fills.trans hf.2⟩

/-! ### Making nodes -/

theorem newInteger (hp : Populated h₀ h M) (hs : h₀.Standard c) (v : UInt64) :
    Yields (newInteger v) h
      (fun n h' => M n = none ∧ n ≠ 0 ∧ Populated h₀ h' (Function.update M n (some (.integer v))))
      (Spent h₀) := by
  have hsize : h.size h.types.scalars.integer = .ok (UInt64.ofNat [v].length) :=
    ((hp.fills.standard hs).size_integers (w := 1) rfl).1
  exact (newLiteralOrFault_stocks hp.stocked.sound hp.stocked.idle hsize (by simp)).mono
    (fun _ _ hq => hp.more (r := .integer v) hq) fun _ _ => hp.spent

/-- A literal that holds a node. -/
theorem newQuote (hp : Populated h₀ h M) (hs : h₀.Standard c) (q : Node) :
    Yields (Heap.newLiteral 0 h.types.scalars.ast [q]) h
      (fun n h' => M n = none ∧ n ≠ 0 ∧ Populated h₀ h' (Function.update M n (some (.quote q))))
      (fun e h' => ∃ f, e = .fault f ∧ Spent h₀ f h') := by
  have hstd := hp.fills.standard hs
  have hsize : h.size h.types.scalars.ast = .ok (UInt64.ofNat [q].length) :=
    hstd.size_member hstd.ast fun _ hms => by cases hms
  exact (newLiteral_stocks hp.stocked.sound hp.stocked.idle hsize (by simp)).mono
    (fun _ _ hq => hp.more (r := .quote q) hq) fun _ _ ⟨f, he, hf⟩ => ⟨f, he, hp.spent hf⟩

/-- A node none of whose fields is set. -/
theorem newNode (hp : Populated h₀ h M) {t : Tag} (ht : t ≠ .literal ∧ t ≠ .block) :
    Yields (newNode t 0 (List.replicate t.fields 0)) h
      (fun n h' => M n = none ∧ n ≠ 0 ∧
        Populated h₀ h' (Function.update M n (some (.fields t (List.replicate t.fields 0)))))
      (fun e h' => ∃ f, e = .fault f ∧ Spent h₀ f h') :=
  (newNode_stocks hp.stocked.sound hp.stocked.idle ht (by simp)).mono
    (fun _ _ hq => hp.more (r := .fields t _) hq) fun _ _ ⟨f, he, hf⟩ => ⟨f, he, hp.spent hf⟩

/-- A new block has the given elements, if they can be counted. -/
theorem newBlock (hp : Populated h₀ h M) {elems : List Node} (hfits : elems.length + 2 < 2 ^ 64) :
    Yields (newBlock 0 elems) h
      (fun n h' => M n = none ∧ n ≠ 0 ∧ Populated h₀ h' (Function.update M n (some (.block elems))))
      (Spent h₀) :=
  (newBlock_stocks hp.stocked.sound hp.stocked.idle hfits).mono
    (fun _ _ hq => hp.more (r := .block elems) hq) fun _ _ => hp.spent

end Populated

/-! ### Too many elements -/

/-- A word that could be written lies in the arena. -/
theorem of_setWord_eq_ok {p : Addr} {w : UInt64} {u : Unit}
    (hrun : setWord p w h = .ok u h') : 0 < p.toNat ∧ p.toNat < h.arena.words.size ∧
      h' = h.written p.toNat [w] := by
  obtain ⟨a, types⟩ := h
  unfold setWord onArena Arena.setWord at hrun
  dsimp only at hrun
  split at hrun
  · rename_i heq
    split at heq
    · cases heq
    · rename_i hcheck
      split at heq
      · rename_i hlt
        cases heq
        cases hrun
        refine ⟨?_, hlt, by simp [written, Arena.written, Arena.writeFrom]⟩
        rw [Arena.toNat_pos_iff]
        rintro rfl
        simp [Arena.check, violate] at hcheck
      · cases heq
  · cases hrun

/-- Each element that was pushed has a word of its own. -/
theorem length_le_of_pushAll {y : Addr} {elems : List Node} {k : Nat} {u : Unit}
    (hs : h.arena.Sized) (hword : h.word y = .ok (UInt64.ofNat k)) (hk : k ≤ h.arena.words.size)
    (hrun : pushAll y elems h = .ok u h') : k + elems.length ≤ h.arena.words.size := by
  induction elems generalizing h k with
  | nil => exact hk
  | cons e rest ih =>
    have hlt := hs.lt
    have hy := (Arena.word_eq_ok_iff hs).1 hword
    obtain ⟨hin, -⟩ := Array.getElem?_eq_some_iff.1 hy.2
    obtain ⟨u₁, h₁, hpush, hrest⟩ := of_bind_eq_ok hrun
    have hpeek : peek (·.word y) h = .ok (UInt64.ofNat k) h := inspect_eq_ok hword
    have hpush : (do
        setWord (y + vectorHeader + UInt64.ofNat k) e
        setWord y (UInt64.ofNat k + 1)) h = .ok u₁ h₁ :=
      (bind_eq_ok hpeek).symm.trans hpush
    obtain ⟨u₂, h₂, hset, hset'⟩ := of_bind_eq_ok hpush
    obtain ⟨-, hlo, rfl⟩ := of_setWord_eq_ok hset
    obtain ⟨-, -, rfl⟩ := of_setWord_eq_ok hset'
    have hplace : (y + vectorHeader + UInt64.ofNat k).toNat = y.toNat + 2 + k := by
      rw [UInt64.toNat_add, UInt64.toNat_add, UInt64.toNat_ofNat']
      show ((_ + 2) % _ + _ % _) % _ = _
      omega
    rw [hplace] at hlo
    have hsize : ((h.written (y + vectorHeader + UInt64.ofNat k).toNat [e]).written y.toNat
        [UInt64.ofNat k + 1]).arena.words.size = h.arena.words.size := by
      simp [written, Arena.written]
    have hnext := @ih _ (k + 1) (by rw [Arena.Sized, hsize]; exact hs) ?_ (by rw [hsize]; omega)
      hrest
    · rw [hsize] at hnext
      rw [List.length_cons]
      omega
    · refine (Arena.word_eq_ok_iff (by rw [Arena.Sized, hsize]; exact hs)).2 ⟨hy.1, ?_⟩
      show (Arena.writeFrom _ _ _)[_]? = _
      rw [Arena.getElem?_writeFrom _ _ _ _ (by
        show _ ≤ (Arena.writeFrom _ _ _).size
        rw [Arena.size_writeFrom, List.length_singleton]
        exact hin), if_pos (by simp), Nat.sub_self, UInt64.ofNat_add]
      rfl

@[simp] theorem size_written (h : Heap) (i : Nat) (ws : List UInt64) :
    (h.written i ws).arena.words.size = h.arena.words.size :=
  Arena.size_writeFrom _ _ _

theorem of_allocate_eq_ok {k : UInt64} {a : Addr} (hs : h.arena.Sound)
    (hrun : allocate k h = .ok a h') :
    h'.arena.Sound ∧ h'.arena.words.size = h.arena.words.size := by
  rcases Arena.allocate_cases hs k with ⟨a', arena, hok, hal⟩ | ⟨v, herror⟩
  · rw [allocate, onArena_ok hok] at hrun
    cases hrun
    exact ⟨hal.sound, hal.size_eq⟩
  · rw [allocate, onArena_error herror] at hrun
    cases hrun

theorem of_allocateNode_eq_ok {t : Tag} {before : Node} (hs : h.arena.Sound)
    (hrun : allocateNode t before h = .ok n h') :
    h'.arena.Sound ∧ h'.arena.words.size = h.arena.words.size := by
  obtain ⟨a, h₁, halloc, hrun⟩ := of_bind_eq_ok hrun
  obtain ⟨hs₁, hsize₁⟩ := of_allocate_eq_ok hs halloc
  obtain ⟨_, h₂, hset₂, hrun⟩ := of_bind_eq_ok hrun
  obtain ⟨_, h₃, hset₃, hrun⟩ := of_bind_eq_ok hrun
  obtain ⟨-, -, rfl⟩ := of_setWord_eq_ok hset₂
  obtain ⟨-, -, rfl⟩ := of_setWord_eq_ok hset₃
  cases hrun
  exact ⟨(hs₁.write _ _).write _ _, by rw [size_written, size_written, hsize₁]⟩

/-- A new vector has no elements yet. -/
theorem of_newVector_eq_ok {capacity : UInt64} {y : Addr} (hs : h.arena.Sound)
    (hrun : newVector capacity h = .ok y h') :
    h'.arena.Sound ∧ h'.arena.words.size = h.arena.words.size ∧ h'.word y = .ok 0 := by
  obtain ⟨a, h₁, halloc, hrun⟩ := of_bind_eq_ok hrun
  obtain ⟨hs₁, hsize₁⟩ := of_allocate_eq_ok hs halloc
  obtain ⟨_, h₂, hset₂, hrun⟩ := of_bind_eq_ok hrun
  obtain ⟨_, h₃, hset₃, hrun⟩ := of_bind_eq_ok hrun
  obtain ⟨hpos, hin₂, rfl⟩ := of_setWord_eq_ok hset₂
  obtain ⟨-, hin₃, rfl⟩ := of_setWord_eq_ok hset₃
  cases hrun
  have hlt := hs₁.sized.lt
  have hnext : (y + 1).toNat = y.toNat + 1 := by
    rw [UInt64.toNat_add]
    show (_ + 1) % _ = _
    omega
  refine ⟨(hs₁.write _ _).write _ _, by rw [size_written, size_written, hsize₁], ?_⟩
  refine (Arena.word_eq_ok_iff ((hs₁.write _ _).write _ _).sized).2 ⟨hpos, ?_⟩
  rw [size_written] at hin₃
  show (Arena.writeFrom (Arena.writeFrom _ _ _) _ _)[_]? = _
  rw [Arena.getElem?_writeFrom _ _ _ _ (by
    rw [Arena.size_writeFrom, List.length_singleton]
    exact hin₃), if_neg (by omega), Arena.getElem?_writeFrom _ _ _ _ (by
    rw [List.length_singleton]
    exact hin₂), if_pos (by simp), Nat.sub_self]
  rfl

/-- A block that was made has no more elements than there are words. -/
theorem length_le_of_newBlock {elems : List Node} (hs : h.arena.Sound)
    (hrun : newBlock 0 elems h = .ok n h') : elems.length ≤ h.arena.words.size := by
  by_cases hempty : elems = []
  · simp [hempty]
  obtain ⟨n', h₁, hnode, hrun⟩ := of_bind_eq_ok hrun
  rw [if_pos (by simpa using hempty)] at hrun
  obtain ⟨y, h₂, hvector, hrun⟩ := of_bind_eq_ok hrun
  obtain ⟨_, h₃, hpush, -⟩ := of_bind_eq_ok hrun
  obtain ⟨hs₁, hsize₁⟩ := of_allocateNode_eq_ok hs hnode
  obtain ⟨hs₂, hsize₂, hword⟩ := of_newVector_eq_ok hs₁ hvector
  have hle := length_le_of_pushAll (k := 0) hs₂.sized hword (Nat.zero_le _) hpush
  omega

/-! ### Changing nodes -/

namespace Populated

/-- A node holds something else. -/
theorem changed {e : NodeEntry} (hn : r.entry h₀.types.scalars = e)
    (hq : Stocked h₀ h (Function.update (M.entries h₀.types.scalars) n (some e))) :
    Populated h₀ h (Function.update M n (some r)) := by
  subst hn
  rw [← NodeMemory.entries_update] at hq
  exact populated_iff_stocked.2 hq

/-- A field of a node is set. -/
theorem patch (hp : Populated h₀ h M) {t : Tag} {ms : List Node} (hn : M n = some (.fields t ms))
    {i : Nat} (hi : i < t.fields) (m : Node) :
    ∃ h', patch n i m h = .ok () h' ∧
      Populated h₀ h' (Function.update M n (some (.fields t (ms.set i m)))) := by
  obtain ⟨h', hpatch, hq⟩ := hp.stocked.patch (entry hn _) hi m
  exact ⟨h', hpatch, changed rfl hq⟩

/-- A block gets one more element. -/
theorem append (hp : Populated h₀ h M) {elems : List Node} (hb : M b = some (.block elems))
    (e : Node) :
    Yields (append b e) h
      (fun _ h' => Populated h₀ h' (Function.update M b (some (.block (elems ++ [e])))))
      (Spent h₀) := by
  refine (hp.stocked.append (entry hb _) e).mono (fun _ _ hq => changed rfl hq) ?_
  -- A block that cannot grow is left as it was.
  rintro f _ ⟨hf, rfl⟩
  exact ⟨hf, hp.fills⟩

end Populated

end TreeMachine.Heap
