import TreeMachine.Node.Store
import TreeMachine.Proofs.Node.Reading

/-! # Making nodes in place

  New nodes stand in words that were free before.  `Placed` follows one record from the heap
  before it was made, and `Since` says that a later heap still has what was made between two
  others, so records that are filled in later do not disturb those around them.  Main
  statements: what each constructor makes, where there is room for it.
-/

namespace TreeMachine

/-! ### Records in words that were free -/

namespace Arena

/-- The words stand at `addr` in `a'`, where `a` had free words. -/
structure Placed (a a' : Arena) (addr : Addr) (ws : List UInt64) : Prop
    extends a'.Owns addr ws where
  was_free : ∀ i, i < ws.length → a.Free (addr.toNat + i)

/-- What was taken between `a` and `a'` stands in `a''` as it did in `a'`. -/
structure Since (a a' a'' : Arena) : Prop where
  size_eq : a''.words.size = a'.words.size
  taken : ∀ i, a.Free i → ¬ a'.Free i → ¬ a''.Free i
  same : ∀ i, a.Free i → ¬ a'.Free i → a''.words[i]? = a'.words[i]?

/-- The arena with some words written. -/
def written (a : Arena) (i : Nat) (ws : List UInt64) : Arena :=
  { a with words := writeFrom a.words i ws }

variable {a a' a'' b b' : Arena} {addr p : Addr} {ws : List UInt64} {w : UInt64} {i : Nat}

namespace Since

theorem refl (a a' : Arena) : Since a a' a' := ⟨rfl, fun _ _ h => h, fun _ _ _ => rfl⟩

theorem grows (h : Since a a' a'') (hg : a''.Grows b) : Since a a' b where
  size_eq := hg.size_eq.trans h.size_eq
  taken i hi hi' hfree := h.taken i hi hi' (hg.free_sub i hfree)
  same i hi hi' := (hg.same i (h.taken i hi hi')).trans (h.same i hi hi')

/-- Words that were taken before `a` may be written. -/
theorem write (h : Since a a' a'') (hi : i + ws.length ≤ a''.words.size)
    (hout : ∀ j, i ≤ j → j < i + ws.length → ¬ a.Free j) : Since a a' (a''.written i ws) where
  size_eq := (size_writeFrom _ _ _).trans h.size_eq
  taken := h.taken
  same j hj hj' := by
    rw [written, getElem?_writeFrom _ _ _ _ hi, if_neg, h.same j hj hj']
    rintro ⟨hlo, hhi⟩
    exact hout j hlo hhi hj

/-- What a part of the work has made stands as long as what the whole has made. -/
theorem part (h : Since a a' a'') (hg : a.Grows b) (hpart : Since b b' a') : Since b b' a'' where
  size_eq := h.size_eq.trans hpart.size_eq
  taken i hi hi' := h.taken i (hg.free_sub i hi) (hpart.taken i hi hi')
  same i hi hi' :=
    (h.same i (hg.free_sub i hi) (hpart.taken i hi hi')).trans (hpart.same i hi hi')

end Since

namespace Placed

theorem since (h : Placed a a' addr ws) (hs : Since a a' a'') : Placed a a'' addr ws where
  pos := h.pos
  inside := by rw [hs.size_eq]; exact h.inside
  same i hi := (hs.same _ (h.was_free i hi) (h.taken i hi)).trans (h.same i hi)
  taken i hi := hs.taken _ (h.was_free i hi) (h.taken i hi)
  was_free := h.was_free

/-- A record that was made later was made in the meantime. -/
theorem earlier (h : Placed b a' addr ws) (hg : a.Grows b) : Placed a a' addr ws :=
  { h with was_free := fun i hi => hg.free_sub _ (h.was_free i hi) }

/-- Writing into a record. -/
theorem write (h : Placed a a' addr ws) (hi : i < ws.length) (w : UInt64) :
    Placed a (a'.written (addr.toNat + i) [w]) addr (ws.set i w) where
  pos := h.pos
  inside := by
    rw [List.length_set]
    exact (size_writeFrom _ _ _).symm ▸ h.inside
  same j hj := by
    rw [List.length_set] at hj
    have hin := h.inside
    rw [written, getElem?_writeFrom _ _ _ _ (by simp only [List.length_singleton]; omega),
      List.getElem?_set]
    by_cases hij : i = j
    · subst hij
      rw [if_pos (by simp), if_pos rfl, if_pos hi, Nat.sub_self]
      rfl
    · rw [if_neg (by simp only [List.length_singleton]; omega), if_neg hij, h.same j hj]
  taken j hj := h.taken j (by rwa [List.length_set] at hj)
  was_free j hj := h.was_free j (by rwa [List.length_set] at hj)

end Placed

theorem Allocated.placed {n : UInt64} (h : a.Allocated n addr a') :
    Placed a a' addr (List.replicate n.toNat 0) where
  pos := h.region.addr_pos
  inside := by
    rw [List.length_replicate, h.size_eq]
    exact h.region.stop_le
  same i hi := by
    rw [List.length_replicate] at hi
    rw [h.words_eq, if_pos (by omega), List.getElem?_replicate, if_pos hi]
  taken i hi hfree := by
    rw [List.length_replicate] at hi
    refine ((h.free_iff _).1 hfree).2 ⟨?_, ?_⟩ <;> dsimp only <;> omega
  was_free i hi := by
    rw [List.length_replicate] at hi
    refine h.was_free _ ⟨?_, ?_⟩ <;> dsimp only <;> omega

end Arena

namespace Heap

open Arena (Placed Since)

variable {h h' h'' : Heap} {c : Catalogue} {k k' : Nat} {addr p : Addr} {ws : List UInt64}
  {w : UInt64} {i : Nat} {n : Node}

/-- Free words have been taken and filled, and `k` words in one piece are left. -/
structure Fills (h h' : Heap) (k : Nat) : Prop where
  types : h'.types = h.types
  grows : h.arena.Grows h'.arena
  sound : h'.arena.Sound
  room : h'.arena.Room k

namespace Fills

theorem refl (hs : h.arena.Sound) (hroom : h.arena.Room k) : Fills h h k :=
  ⟨rfl, .refl _, hs, hroom⟩

theorem trans (hf : Fills h h' k) (hf' : Fills h' h'' k') : Fills h h'' k' :=
  ⟨hf'.types.trans hf.types, hf.grows.trans hf'.grows, hf'.sound, hf'.room⟩

theorem idle (hf : Fills h h' k) (hidle : h.arena.collecting = false) :
    h'.arena.collecting = false :=
  hf.grows.collecting_eq.trans hidle

end Fills

/-- Filling makes no types. -/
theorem Fills.extends (hf : Fills h h' k) (hi : h.Interned c) : Extends h c h' c where
  interned :=
    { sound := hf.sound
      entries_eq := by rw [hf.types]; exact hi.entries_eq
      owns := fun e he => (hi.owns e he).grows hf.grows
      valid := hi.valid }
  grows := hf.grows
  scalars_eq := by rw [hf.types]
  older := List.prefix_rfl

theorem Fills.standard (hf : Fills h h' k) (hs : h.Standard c) : h'.Standard c :=
  hs.extends (hf.extends hs.toInterned)

/-- The heap with some words written. -/
def written (h : Heap) (i : Nat) (ws : List UInt64) : Heap :=
  { h with arena := h.arena.written i ws }

/-! ### Single steps -/

theorem allocate_fills (hs : h.arena.Sound) (hidle : h.arena.collecting = false) (size : UInt64)
    (hsize : size ≠ 0) (hroom : h.arena.Room (size.toNat + k)) :
    ∃ addr h', allocate size h = .ok addr h' ∧ Fills h h' k ∧
      Placed h.arena h'.arena addr (List.replicate size.toNat 0) := by
  obtain ⟨addr, a', halloc, hal, hroom'⟩ := Arena.allocate_room hs hidle hsize hroom
  exact ⟨addr, { h with arena := a' }, onArena_ok halloc, ⟨rfl, hal.grows, hal.sound, hroom'⟩,
    hal.placed⟩

/-- Writing into a record that was made on the way. -/
theorem Fills.setWord (hf : Fills h h' k) (hm : Placed h.arena h'.arena addr ws)
    (hi : i < ws.length)
    (hp : p.toNat = addr.toNat + i) (w : UInt64) :
    Heap.setWord p w h' = .ok () (h'.written p.toNat [w]) ∧ Fills h (h'.written p.toNat [w]) k ∧
      Placed h.arena (h'.written p.toNat [w]).arena addr (ws.set i w) := by
  have hin := hm.inside
  have hpos := hm.pos
  refine ⟨onArena_ok (Arena.setWord_eq_ok hf.sound.sized (by omega) (by omega)), ?_, ?_⟩
  · refine ⟨hf.types, ?_, hf.sound.write _ _, hf.room⟩
    refine hf.grows.write (by rw [← hf.grows.size_eq, List.length_singleton]; omega) ?_
    intro j hlo hhi
    rw [List.length_singleton] at hhi
    have hj : j = addr.toNat + i := by omega
    rw [hj]
    exact hm.was_free i hi
  · rw [hp]
    exact hm.write hi w

/-- The place of a word of a record. -/
theorem toNat_offset (hs : h.arena.Sized) (hm : h.arena.Owns addr ws) (off : UInt64)
    (hoff : off.toNat < ws.length) : (addr + off).toNat = addr.toNat + off.toNat := by
  have hin := hm.inside
  exact Arena.toNat_add_of_le hs (by omega)

/-- Writing several words into a record, one after the other. -/
theorem Fills.setEach (hf : Fills h h' k) (pre mid post : List UInt64)
    (hm : Placed h.arena h'.arena addr (pre ++ mid ++ post)) (hlen : ws.length = mid.length)
    (hp : p.toNat = addr.toNat + pre.length) :
    ∃ h'', Heap.setEach p ws h' = .ok () h'' ∧ Fills h h'' k ∧
      Placed h.arena h''.arena addr (pre ++ ws ++ post) := by
  induction ws generalizing h' pre mid p with
  | nil =>
    rw [List.eq_nil_of_length_eq_zero hlen.symm] at hm
    exact ⟨h', rfl, hf, hm⟩
  | cons w rest ih =>
    obtain ⟨x, mid, rfl⟩ : ∃ x xs, mid = x :: xs := by
      cases mid with
      | nil => simp at hlen
      | cons x xs => exact ⟨x, xs, rfl⟩
    have hin := hm.inside
    have hlt := hf.sound.sized.lt
    simp only [List.length_append, List.length_cons] at hin
    obtain ⟨hset, hf₁, hm₁⟩ := hf.setWord hm (i := pre.length) (by simp) hp w
    have hsplit : (pre ++ x :: mid ++ post).set pre.length w = (pre ++ [w]) ++ mid ++ post := by
      simp
    rw [hsplit] at hm₁
    have hnext : (p + 1).toNat = addr.toNat + (pre ++ [w]).length := by
      rw [UInt64.toNat_add, hp]
      simp only [List.length_append, List.length_singleton]
      show (_ + 1) % _ = _
      omega
    obtain ⟨h'', hrest, hf₂, hm₂⟩ := ih hf₁ _ _ hm₁ (by simpa using hlen) hnext
    refine ⟨h'', (bind_eq_ok hset).trans hrest, hf₂, ?_⟩
    simpa using hm₂

/-! ### Nodes -/

theorem length_record (t : Tag) : (headerWords + UInt64.ofNat t.fields).toNat = t.fields + 2 := by
  cases t <;> rfl

/-- A record without operands, preceded by nothing. -/
theorem allocateNode_fills (hs : h.arena.Sound) (hidle : h.arena.collecting = false) (t : Tag)
    (hroom : h.arena.Room (t.fields + 2 + k)) :
    ∃ n h', allocateNode t 0 h = .ok n h' ∧ Fills h h' k ∧
      Placed h.arena h'.arena n (t.word :: 0 :: List.replicate t.fields 0) := by
  have hsize : headerWords + UInt64.ofNat t.fields ≠ 0 := by cases t <;> decide
  obtain ⟨n, h₁, halloc, hf₁, hm₁⟩ :=
    allocate_fills hs hidle _ hsize (by rw [length_record]; exact hroom)
  rw [length_record] at hm₁
  obtain ⟨hset₂, hf₂, hm₂⟩ := hf₁.setWord hm₁ (i := 0) (by simp) (Nat.add_zero _).symm t.word
  have hone : (n + 1).toNat = n.toNat + 1 :=
    toNat_offset hf₁.sound.sized hm₁.toOwns 1 (by
      rw [List.length_replicate]
      show 1 < _
      omega)
  obtain ⟨hset₃, hf₃, hm₃⟩ := hf₂.setWord hm₂ (i := 1) (by simp) hone 0
  refine ⟨n, _, (bind_eq_ok halloc).trans ((bind_eq_ok hset₂).trans ((bind_eq_ok hset₃).trans rfl)),
    hf₃, ?_⟩
  simpa [List.replicate_succ] using hm₃

/-- A node without operands. -/
theorem newNode_fills (hs : h.arena.Sound) (hidle : h.arena.collecting = false) {t : Tag}
    (ht : t ≠ .literal ∧ t ≠ .block) (hroom : h.arena.Room (t.fields + 2 + k)) :
    ∃ n h', newNode t 0 (List.replicate t.fields 0) h = .ok n h' ∧ Fills h h' k ∧
      Placed h.arena h'.arena n (t.word :: 0 :: List.replicate t.fields 0) := by
  obtain ⟨n, h₁, hnode, hf₁, hm₁⟩ := allocateNode_fills hs hidle t hroom
  have hin := hm₁.inside
  simp only [List.length_cons, List.length_replicate] at hin
  have htwo : (n + headerWords).toNat = n.toNat + 2 :=
    Arena.toNat_add_of_le hf₁.sound.sized (show _ + 2 ≤ _ by omega)
  obtain ⟨h₂, hset, hf₂, hm₂⟩ := hf₁.setEach [t.word, 0]
    (List.replicate t.fields 0) [] (by simpa using hm₁) rfl htwo
  refine ⟨n, h₂, ?_, hf₂, by simpa using hm₂⟩
  unfold newNode
  rw [if_neg (by simpa using ht), if_neg (by simp)]
  exact (bind_eq_ok (lift_eq_ok hnode)).trans ((bind_eq_ok (lift_eq_ok hset)).trans rfl)

/-- The tags of nodes whose fields are all nodes. -/
theorem nodeFields_eq {t : Tag} (ht : t ≠ .literal ∧ t ≠ .block) :
    t.schema.nodeFields = t.fields := by
  cases t with
  | literal => exact absurd rfl ht.1
  | block => exact absurd rfl ht.2
  | _ => rfl

/-- Filling in a field of a node that was made on the way. -/
theorem Fills.patch (hf : Fills h h' k) {t : Tag} (ht : t ≠ .literal ∧ t ≠ .block)
    {fields : List UInt64} (hm : Placed h.arena h'.arena n (t.word :: 0 :: fields))
    (hlen : fields.length = t.fields) (hi : i < t.fields) (m : Node) :
    ∃ j, Heap.patch n i m h' = .ok () (h'.written j [m]) ∧ Fills h (h'.written j [m]) k ∧
      Placed h.arena (h'.written j [m]).arena n (t.word :: 0 :: fields.set i m) ∧
      n.toNat ≤ j ∧ j < n.toNat + (t.fields + 2) := by
  have hin := hm.inside
  have hsized := hf.sound.sized
  have hlt := hsized.lt
  simp only [List.length_cons, hlen] at hin
  have hofNat : (UInt64.ofNat i).toNat = i := by
    rw [UInt64.toNat_ofNat']
    omega
  have htwo : (n + headerWords).toNat = n.toNat + 2 :=
    Arena.toNat_add_of_le hsized (show _ + 2 ≤ _ by omega)
  have hp : (n + headerWords + UInt64.ofNat i).toNat = n.toNat + (i + 2) := by
    rw [Arena.toNat_add_of_le hsized (by omega), htwo, hofNat]
    omega
  obtain ⟨hset, hf₁, hm₁⟩ := hf.setWord hm (i := i + 2) (by simp; omega) hp m
  refine ⟨_, ?_, hf₁, by simpa using hm₁, by omega, by omega⟩
  have htag : peek (·.tag n) h' = .ok t h' := inspect_eq_ok (tag_eq hsized hm.toOwns)
  unfold Heap.patch
  rw [bind_eq_ok htag, nodeFields_eq ht, if_neg (by omega)]
  exact hset

/-- An integer literal and the object that holds its value. -/
theorem newInteger_fills (hs : h.Standard c) (hidle : h.arena.collecting = false) (v : UInt64)
    (hroom : h.arena.Room (5 + k)) :
    ∃ n object h', newInteger v h = .ok n h' ∧ Fills h h' k ∧
      Placed h.arena h'.arena n [Tag.literal.word, 0, h.types.scalars.integer, object] ∧
      Placed h.arena h'.arena object [v] := by
  have hsize : h.size h.types.scalars.integer = .ok 1 := (hs.size_integers (w := 1) rfl).1
  -- The object first, then the node.
  obtain ⟨object, h₁, halloc, hf₁, hm₁⟩ := allocate_fills hs.sound hidle 1 (by decide)
    (show h.arena.Room (1 + (4 + k)) from hroom.mono (by omega))
  obtain ⟨hset₂, hf₂, hm₂⟩ := hf₁.setWord hm₁ (i := 0) (by decide) (Nat.add_zero _).symm v
  obtain ⟨n, h₃, hnode, hf₃, hm₃⟩ := allocateNode_fills hf₂.sound (hf₂.idle hidle) .literal
    (show (h₁.written object.toNat [v]).arena.Room (4 + k) from hf₂.room)
  have hat : ∀ off : UInt64, off.toNat < 4 → (n + off).toNat = n.toNat + off.toNat :=
    fun off hlt => toNat_offset hf₃.sound.sized hm₃.toOwns off hlt
  obtain ⟨hset₄, hf₄, hm₄⟩ := hf₃.setWord hm₃ (i := 2) (by decide) (hat 2 (by decide))
    h.types.scalars.integer
  obtain ⟨hset₅, hf₅, hm₅⟩ := hf₄.setWord hm₄ (i := 3)
    (by rw [List.length_set]; decide) (hat 3 (by decide)) object
  refine ⟨n, object, _, ?_, hf₂.trans hf₅, hm₅.earlier hf₂.grows,
    hm₂.since ((Since.refl _ _).grows hf₅.grows)⟩
  have hliteral : newLiteral 0 h.types.scalars.integer [v] h
      = .ok n ((h₃.written (n + 2).toNat [h.types.scalars.integer]).written (n + 3).toNat
        [object]) := by
    have hpeek : peek (·.size h.types.scalars.integer) h = .ok 1 h := inspect_eq_ok hsize
    unfold newLiteral
    refine (bind_eq_ok (lift_eq_ok hpeek)).trans ?_
    rw [if_neg fun hne => hne rfl]
    dsimp only
    rw [if_pos (by decide)]
    refine (bind_eq_ok (lift_eq_ok halloc)).trans ?_
    have hset : setWords object [v] h₁ = .ok () (h₁.written object.toNat [v]) :=
      onArena_ok (Arena.setWords_eq_ok hf₁.sound.sized hm₁.pos hm₁.inside)
    refine (bind_eq_ok (lift_eq_ok hset)).trans ((bind_eq_ok (lift_eq_ok hnode)).trans ?_)
    exact (bind_eq_ok (lift_eq_ok hset₄)).trans ((bind_eq_ok (lift_eq_ok hset₅)).trans rfl)
  show newLiteralOrFault 0 h.types.scalars.integer [v] h = _
  rw [newLiteralOrFault, hliteral]

/-! ### Blocks -/

/-- Elements are added to a vector that has room for them. -/
theorem Fills.pushAll (hf : Fills h h' k) (elems rest : List Node) {capacity : UInt64}
    (hm : Placed h.arena h'.arena addr (UInt64.ofNat elems.length :: capacity ::
      (elems ++ List.replicate rest.length 0))) :
    ∃ h'', Heap.pushAll addr rest h' = .ok () h'' ∧ Fills h h'' k ∧
      Placed h.arena h''.arena addr
        (UInt64.ofNat (elems ++ rest).length :: capacity :: (elems ++ rest)) := by
  induction rest generalizing h' elems with
  | nil => exact ⟨h', rfl, hf, by simpa using hm⟩
  | cons e rest ih =>
    have hsized := hf.sound.sized
    have hlt := hsized.lt
    have hin := hm.inside
    simp only [List.length_cons, List.length_append, List.length_replicate] at hin
    have hofNat : (UInt64.ofNat elems.length).toNat = elems.length := by
      rw [UInt64.toNat_ofNat']
      omega
    have hlength : peek (·.word addr) h' = .ok (UInt64.ofNat elems.length) h' :=
      inspect_eq_ok (hm.toHolds.head hsized)
    have htwo : (addr + vectorHeader).toNat = addr.toNat + 2 :=
      Arena.toNat_add_of_le hsized (show _ + 2 ≤ _ by omega)
    have hp : (addr + vectorHeader + UInt64.ofNat elems.length).toNat
        = addr.toNat + (elems.length + 2) := by
      rw [Arena.toNat_add_of_le hsized (by omega), htwo, hofNat]
      omega
    obtain ⟨hset₁, hf₁, hm₁⟩ := hf.setWord hm (i := elems.length + 2) (by simp) hp e
    obtain ⟨hset₂, hf₂, hm₂⟩ := hf₁.setWord hm₁ (i := 0) (by simp) (Nat.add_zero _).symm
      (UInt64.ofNat elems.length + 1)
    have hcount : UInt64.ofNat elems.length + 1 = UInt64.ofNat (elems ++ [e]).length := by
      rw [List.length_append, UInt64.ofNat_add]
      rfl
    have hset : ((UInt64.ofNat elems.length :: capacity ::
        (elems ++ List.replicate (e :: rest).length 0)).set (elems.length + 2) e).set 0
          (UInt64.ofNat elems.length + 1)
        = UInt64.ofNat (elems ++ [e]).length :: capacity ::
          ((elems ++ [e]) ++ List.replicate rest.length 0) := by
      rw [hcount]
      simp [List.replicate_succ]
    rw [hset] at hm₂
    obtain ⟨h'', hrest, hf₃, hm₃⟩ := ih hf₂ _ hm₂
    have hpush : pushVector addr e h' = .ok () _ :=
      (bind_eq_ok hlength).trans ((bind_eq_ok hset₁).trans hset₂)
    refine ⟨h'', (bind_eq_ok hpush).trans hrest, hf₃, ?_⟩
    simpa using hm₃

/-- A block and the vector of its elements. -/
theorem newBlock_fills (hs : h.arena.Sound) (hidle : h.arena.collecting = false)
    {elems : List Node} (hne : elems ≠ []) (hroom : h.arena.Room (3 + (elems.length + 2 + k))) :
    ∃ n vec h', newBlock 0 elems h = .ok n h' ∧ Fills h h' k ∧
      Placed h.arena h'.arena n [Tag.block.word, 0, vec] ∧
      Placed h.arena h'.arena vec
        (UInt64.ofNat elems.length :: UInt64.ofNat elems.length :: elems) := by
  have hpos : 0 < elems.length := List.length_pos_iff.2 hne
  obtain ⟨n, h₁, hnode, hf₁, hm₁⟩ := allocateNode_fills hs hidle .block hroom
  have hidle₁ := hf₁.idle hidle
  -- The size of the vector fits a word, since there is a free region that large.
  obtain ⟨r, hr, hsize⟩ := hf₁.room (by omega)
  have hinside := (hf₁.sound.inside r hr).stop_le
  have hlt := hf₁.sound.sized.lt
  have hofNat : (UInt64.ofNat elems.length).toNat = elems.length := by
    rw [UInt64.toNat_ofNat']
    omega
  have htotal : (vectorHeader + UInt64.ofNat elems.length).toNat = elems.length + 2 := by
    rw [UInt64.toNat_add, hofNat]
    show (2 + _) % _ = _
    omega
  obtain ⟨vec, h₂, halloc, hf₂, hm₂⟩ := allocate_fills (k := k) hf₁.sound hidle₁
    (vectorHeader + UInt64.ofNat elems.length) (Arena.toNat_pos_iff.1 (by omega))
    (by rw [htotal]; exact hf₁.room)
  rw [htotal] at hm₂
  obtain ⟨hset₃, hf₃, hm₃⟩ := hf₂.setWord hm₂ (i := 0) (by simp) (Nat.add_zero _).symm 0
  have hone : (vec + 1).toNat = vec.toNat + 1 :=
    toNat_offset hf₂.sound.sized hm₂.toOwns 1 (by
      rw [List.length_replicate]
      show 1 < _
      omega)
  obtain ⟨hset₄, hf₄, hm₄⟩ := hf₃.setWord hm₃ (i := 1) (by simp) hone (UInt64.ofNat elems.length)
  have hvector : newVector (UInt64.ofNat elems.length) h₁ = .ok vec _ :=
    (bind_eq_ok halloc).trans ((bind_eq_ok hset₃).trans ((bind_eq_ok hset₄).trans rfl))
  obtain ⟨h₅, hpush, hf₅, hm₅⟩ := hf₄.pushAll [] elems
    (by simpa [List.replicate_succ] using hm₄)
  -- The node refers to the vector last of all.
  have hm₅' := hm₁.since ((Since.refl _ _).grows hf₅.grows)
  have htwo : (n + 2).toNat = n.toNat + 2 :=
    toNat_offset hf₅.sound.sized hm₅'.toOwns 2 (by
      show 2 < 3
      decide)
  obtain ⟨hset₆, hf₆, hm₆⟩ := (hf₁.trans hf₅).setWord hm₅' (i := 2)
    (by simp [Tag.fields, Tag.schema])
    htwo vec
  refine ⟨n, vec, _, ?_, hf₆, by simpa [Tag.fields, Tag.schema] using hm₆, ?_⟩
  · unfold newBlock
    rw [bind_eq_ok hnode, if_pos (by simpa using hne)]
    exact (bind_eq_ok hvector).trans ((bind_eq_ok hpush).trans ((bind_eq_ok hset₆).trans rfl))
  · have hsince : Since h₁.arena h₅.arena (h₅.arena.written (n + 2).toNat [vec]) := by
      refine (Since.refl _ _).write ?_ ?_
      · have hin := hm₅'.inside
        simp only [List.length_cons, List.length_replicate] at hin ⊢
        rw [htwo]
        simp only [Tag.fields, Tag.schema] at hin
        omega
      · intro j hlo hhi hfree
        rw [List.length_singleton, htwo] at hhi
        rw [htwo] at hlo
        have hj : j = n.toNat + 2 := by omega
        rw [hj] at hfree
        exact hm₁.taken 2 (by decide) hfree
    have hvec := hm₅.since hsince
    rw [List.nil_append] at hvec
    exact hvec.earlier hf₁.grows

end Heap

end TreeMachine
