import Mathlib.Logic.Function.Basic
import TreeMachine.Proofs.Node.Making

/-! # Pieces of the heap

  What some work on a heap has allocated is a map from addresses to the words that stand
  there.  The pieces lie apart from each other, in words that were free when the work began,
  so writing into one changes no other and nothing that is older.  Main statements: what
  allocating and writing do to the map, and that allocating fails for want of memory only.
-/

namespace TreeMachine

/-- The fault says that there is no free region that is large enough, and there is none. -/
def Exhausted (f : Fault) (a : Arena) : Prop :=
  ∃ size free, f = .broken (.outOfMemory size free) ∧ ∀ r ∈ a.free, r.size < size

/-- An arena at rest that hands out nothing is out of memory. -/
theorem Arena.allocate_idle {a : Arena} (ha : a.Sound) (hidle : a.collecting = false)
    {size : UInt64} (hsize : size ≠ 0) :
    (∃ addr a', allocate size a = .ok addr a' ∧ a.Allocated size addr a') ∨
      ∃ f, allocate size a = .error f a ∧ Exhausted f a := by
  cases htake : takeFit size a.free with
  | none =>
    right
    refine ⟨_, ?_, size, a.freeWords, rfl, ?_⟩
    · rw [allocate, if_neg (by simp [hidle]), if_neg hsize, htake]
    · intro r hr
      by_contra hlt
      have hle := UInt64.le_iff_toNat_le.1 (UInt64.not_lt.1 hlt)
      obtain ⟨r', others, hsome⟩ := takeFit_isSome hr hle
      rw [htake] at hsome
      cases hsome
  | some p =>
    obtain ⟨a', halloc, hal, -⟩ := allocate_of_takeFit ha hidle hsize htake
    exact Or.inl ⟨_, a', halloc, hal⟩

/-! ### Words in a row -/

/-- The words with those from index `i` on replaced. -/
def splice (ws : List UInt64) (i : Nat) (vs : List UInt64) : List UInt64 :=
  ws.take i ++ (vs ++ ws.drop (i + vs.length))

section Splice

variable {ws vs : List UInt64} {i : Nat}

theorem length_splice (h : i + vs.length ≤ ws.length) : (splice ws i vs).length = ws.length := by
  simp only [splice, List.length_append, List.length_take, List.length_drop]
  omega

theorem getElem?_splice (h : i + vs.length ≤ ws.length) (j : Nat) :
    (splice ws i vs)[j]? = if i ≤ j ∧ j < i + vs.length then vs[j - i]? else ws[j]? := by
  have htake : (ws.take i).length = i := by
    rw [List.length_take]
    omega
  rw [splice, List.getElem?_append, htake]
  by_cases hlo : j < i
  · rw [if_pos hlo, if_neg (by omega), List.getElem?_take_of_lt hlo]
  · rw [if_neg hlo, List.getElem?_append]
    by_cases hhi : j - i < vs.length
    · rw [if_pos hhi, if_pos (by omega)]
    · rw [if_neg hhi, if_neg (by omega), List.getElem?_drop]
      congr 1
      omega

/-- A single word is replaced. -/
theorem splice_singleton (h : i < ws.length) (w : UInt64) : splice ws i [w] = ws.set i w := by
  rw [List.set_eq_take_append_cons_drop, if_pos h]
  rfl

theorem splice_append {pre mid post : List UInt64} (h : vs.length = mid.length) :
    splice (pre ++ (mid ++ post)) pre.length vs = pre ++ (vs ++ post) := by
  rw [splice, List.take_left, h, ← List.append_assoc pre mid, ← List.length_append,
    List.drop_left]

end Splice

namespace Heap

open Arena (Placed)

variable {h₀ h h' : Heap} {P P' : Addr → Option (List UInt64)} {a b p : Addr}
  {ws vs : List UInt64} {w : UInt64} {i : Nat}

/-- What has been allocated between two heaps at rest. -/
structure Carved (h₀ h : Heap) (P : Addr → Option (List UInt64)) : Prop extends Fills h₀ h 0 where
  idle : h.arena.collecting = false
  placed : ∀ {a ws}, P a = some ws → Placed h₀.arena h.arena a ws
  nonempty : ∀ {a ws}, P a = some ws → 0 < ws.length
  apart : ∀ {a b ws vs}, P a = some ws → P b = some vs → a ≠ b →
    a.toNat + ws.length ≤ b.toNat ∨ b.toNat + vs.length ≤ a.toNat

namespace Carved

/-- In the beginning nothing has been allocated. -/
theorem start (hs : h.arena.Sound) (hidle : h.arena.collecting = false) :
    Carved h h fun _ => none where
  toFills := .refl hs fun h => absurd h (Nat.lt_irrefl 0)
  idle := hidle
  placed hp := (by cases hp)
  nonempty hp := (by cases hp)
  apart hp := (by cases hp)

theorem owns (hm : Carved h₀ h P) (ha : P a = some ws) : h.arena.Owns a ws := (hm.placed ha).toOwns

theorem ne_zero (hm : Carved h₀ h P) (ha : P a = some ws) : a ≠ 0 := owns_ne_zero (hm.owns ha)

/-- A place inside a piece. -/
theorem toNat_add (hm : Carved h₀ h P) (ha : P a = some ws) (hi : i ≤ ws.length) :
    (a + UInt64.ofNat i).toNat = a.toNat + i := by
  have hin := (hm.owns ha).inside
  have hlt := hm.sound.sized.lt
  have hofNat : (UInt64.ofNat i).toNat = i := by
    rw [UInt64.toNat_ofNat']
    omega
  rw [Arena.toNat_add_of_le hm.sound.sized (by omega), hofNat]

/-- A place after the two words of a header. -/
theorem toNat_header (hm : Carved h₀ h P) (ha : P a = some ws) (hi : i + 2 ≤ ws.length) :
    (a + 2 + UInt64.ofNat i).toNat = a.toNat + (i + 2) := by
  have hsum : a + 2 + UInt64.ofNat i = a + UInt64.ofNat (i + 2) := by
    rw [UInt64.add_assoc, UInt64.add_comm 2, UInt64.ofNat_add]
    rfl
  rw [hsum]
  exact hm.toNat_add ha hi

/-- A piece is smaller than the address space. -/
theorem length_lt (hm : Carved h₀ h P) (ha : P a = some ws) : ws.length < 2 ^ 46 := by
  have hin := (hm.owns ha).inside
  have hlt := hm.sound.sized.lt
  omega

/-- In another heap the piece at `a` is made or replaced, and the others stay where they are. -/
theorem update (hm : Carved h₀ h P) (hfills : Fills h₀ h' 0)
    (hidle : h'.arena.collecting = false) (hpos : 0 < vs.length)
    (hat : Placed h₀.arena h'.arena a vs)
    (hothers : ∀ {b ws}, P b = some ws → b ≠ a → Placed h₀.arena h'.arena b ws)
    (hclear : ∀ {b ws}, P b = some ws → b ≠ a →
      a.toNat + vs.length ≤ b.toNat ∨ b.toNat + ws.length ≤ a.toNat) :
    Carved h₀ h' (Function.update P a (some vs)) := by
  have hcases : ∀ {b ws}, Function.update P a (some vs) b = some ws →
      b = a ∧ ws = vs ∨ b ≠ a ∧ P b = some ws := by
    intro b ws hb
    by_cases hab : b = a
    · rw [hab, Function.update_self] at hb
      exact Or.inl ⟨hab, (Option.some.inj hb).symm⟩
    · rw [Function.update_of_ne hab] at hb
      exact Or.inr ⟨hab, hb⟩
  refine ⟨hfills, hidle, ?_, ?_, ?_⟩
  · intro b ws hb
    rcases hcases hb with ⟨rfl, rfl⟩ | ⟨hne, hb⟩
    · exact hat
    · exact hothers hb hne
  · intro b ws hb
    rcases hcases hb with ⟨rfl, rfl⟩ | ⟨-, hb⟩
    · exact hpos
    · exact hm.nonempty hb
  · intro b d ws us hb hd hne
    rcases hcases hb with ⟨rfl, rfl⟩ | ⟨hba, hPb⟩
    · rcases hcases hd with ⟨rfl, -⟩ | ⟨hda, hPd⟩
      · exact absurd rfl hne
      · exact hclear hPd hda
    · rcases hcases hd with ⟨rfl, rfl⟩ | ⟨-, hPd⟩
      · exact (hclear hPb hba).symm
      · exact hm.apart hPb hPd hne

/-! ### Allocating -/

/-- Old pieces keep clear of words that were free until now. -/
theorem clear_of_free (hm : Carved h₀ h P) {size : Nat} (hsize : 0 < size)
    (hfree : ∀ j, a.toNat ≤ j → j < a.toNat + size → h.arena.Free j) (hb : P b = some ws) :
    a.toNat + size ≤ b.toNat ∨ b.toNat + ws.length ≤ a.toNat := by
  by_contra hover
  have hpos := hm.nonempty hb
  let j := max a.toNat b.toNat
  have htaken := (hm.placed hb).taken (j - b.toNat) (by omega)
  rw [Nat.add_sub_cancel' (by omega)] at htaken
  exact htaken (hfree j (by omega) (by omega))

theorem allocate (hm : Carved h₀ h P) {size : UInt64} (hsize : size ≠ 0) :
    Yields (Heap.allocate size) h
      (fun a h' => P a = none ∧ a ≠ 0 ∧
        Carved h₀ h' (Function.update P a (some (List.replicate size.toNat 0))))
      (fun f h' => Exhausted f h'.arena ∧ h' = h) := by
  have hpos := Arena.toNat_pos_iff.2 hsize
  rcases Arena.allocate_idle hm.sound hm.idle hsize with ⟨a, a', halloc, hal⟩ | ⟨f, hfail, hf⟩
  · refine Yields.of_ok (onArena_ok halloc) ?_
    have hclear : ∀ {b ws}, P b = some ws →
        a.toNat + size.toNat ≤ b.toNat ∨ b.toNat + ws.length ≤ a.toNat :=
      hm.clear_of_free hpos fun j hlo hhi => hal.was_free j ⟨hlo, hhi⟩
    have hnew : P a = none := by
      cases hold : P a with
      | none => rfl
      | some ws =>
        have hnonempty := hm.nonempty hold
        rcases hclear hold with hlt | hlt <;> omega
    refine ⟨hnew, Arena.toNat_pos_iff.1 hal.region.addr_pos, hm.update
      ⟨hm.types, hm.grows.trans hal.grows, hal.sound, fun h => absurd h (Nat.lt_irrefl 0)⟩
      (hal.collecting_eq.trans hm.idle) ?_ (hal.placed.earlier hm.grows) ?_ ?_⟩
    · rwa [List.length_replicate]
    · intro b ws hb _
      exact (hm.placed hb).since ((Arena.Since.refl _ _).grows hal.grows)
    · intro b ws hb _
      rw [List.length_replicate]
      exact hclear hb
  · exact Yields.of_error (onArena_error hfail) ⟨hf, rfl⟩

/-! ### Writing -/

/-- Writing into a piece changes that piece only. -/
theorem write (hm : Carved h₀ h P) (ha : P a = some ws) (vs : List UInt64)
    (hi : i + vs.length ≤ ws.length) :
    Carved h₀ (h.written (a.toNat + i) vs) (Function.update P a (some (splice ws i vs))) := by
  have hin := (hm.owns ha).inside
  have hsize := hm.grows.size_eq
  have hlen := length_splice hi
  have hwords : ∀ j, (h.written (a.toNat + i) vs).arena.words[j]?
      = if a.toNat + i ≤ j ∧ j < a.toNat + i + vs.length then vs[j - (a.toNat + i)]?
        else h.arena.words[j]? :=
    fun j => Arena.getElem?_writeFrom _ _ _ _ (by omega)
  have hsizeEq : (h.written (a.toNat + i) vs).arena.words.size = h.arena.words.size :=
    Arena.size_writeFrom _ _ _
  refine hm.update ⟨hm.types, ?_, hm.sound.write _ _, fun h => absurd h (Nat.lt_irrefl 0)⟩ hm.idle
    (by rw [hlen]; exact hm.nonempty ha) ?_ ?_ ?_
  · -- All of the piece was free at first, so nothing older is written over.
    have hplace := hm.toNat_add ha (i := i) (by omega)
    rw [← hplace]
    refine hm.grows.write (by rw [← hsize, hplace]; omega) ?_
    intro j hlo hhi
    rw [hplace] at hlo hhi
    have hfree := (hm.placed ha).was_free (j - a.toNat) (by omega)
    rwa [Nat.add_sub_cancel' (by omega)] at hfree
  · refine ⟨⟨⟨(hm.owns ha).pos, by rw [hlen, hsizeEq]; exact hin, ?_⟩, ?_⟩, ?_⟩
    · intro j hj
      rw [hwords, getElem?_splice hi, (hm.owns ha).same j (by omega)]
      by_cases hij : i ≤ j ∧ j < i + vs.length
      · rw [if_pos hij, if_pos (by omega)]
        congr 1
        omega
      · rw [if_neg hij, if_neg (by omega)]
    · intro j hj
      exact (hm.placed ha).taken j (by omega)
    · intro j hj
      exact (hm.placed ha).was_free j (by omega)
  · -- Another piece is apart from this one, and so from what is written.
    intro b us hb hne
    have hother := hm.placed hb
    refine ⟨⟨⟨hother.pos, by rw [hsizeEq]; exact hother.inside, ?_⟩, hother.taken⟩,
      hother.was_free⟩
    intro j hj
    have hapart := hm.apart ha hb hne.symm
    rw [hwords, if_neg (by omega), hother.same j hj]
  · intro b us hb hne
    rw [hlen]
    exact hm.apart ha hb hne.symm

theorem setWords (hm : Carved h₀ h P) (ha : P a = some ws) (vs : List UInt64)
    (hi : i + vs.length ≤ ws.length) (hp : p.toNat = a.toNat + i) :
    ∃ h', Heap.setWords p vs h = .ok () h' ∧
      Carved h₀ h' (Function.update P a (some (splice ws i vs))) := by
  have hpos := (hm.owns ha).pos
  have hin := (hm.owns ha).inside
  have hrun : Heap.setWords p vs h = .ok () (h.written p.toNat vs) :=
    onArena_ok (Arena.setWords_eq_ok hm.sound.sized (by omega) (by omega))
  rw [hp] at hrun
  exact ⟨_, hrun, hm.write ha vs hi⟩

theorem setWord (hm : Carved h₀ h P) (ha : P a = some ws) (hi : i < ws.length)
    (hp : p.toNat = a.toNat + i) (w : UInt64) :
    ∃ h', Heap.setWord p w h = .ok () h' ∧
      Carved h₀ h' (Function.update P a (some (ws.set i w))) := by
  have hpos := (hm.owns ha).pos
  have hin := (hm.owns ha).inside
  have hrun : Heap.setWord p w h = .ok () (h.written p.toNat [w]) :=
    onArena_ok (Arena.setWord_eq_ok hm.sound.sized (by omega) (by omega))
  rw [hp] at hrun
  have hwrite := hm.write ha [w] hi
  rw [splice_singleton hi] at hwrite
  exact ⟨_, hrun, hwrite⟩

/-- A part of a piece is replaced. -/
theorem setPart (hm : Carved h₀ h P) {pre mid post : List UInt64}
    (ha : P a = some (pre ++ (mid ++ post))) (vs : List UInt64) (hlen : vs.length = mid.length)
    (hp : p.toNat = a.toNat + pre.length) :
    ∃ h', Heap.setWords p vs h = .ok () h' ∧
      Carved h₀ h' (Function.update P a (some (pre ++ (vs ++ post)))) := by
  rw [← splice_append hlen]
  refine hm.setWords ha vs ?_ hp
  simp only [List.length_append]
  omega

/-- Words written one after the other. -/
theorem setEach (hm : Carved h₀ h P) {pre mid post : List UInt64}
    (ha : P a = some (pre ++ (mid ++ post))) (vs : List UInt64) (hlen : vs.length = mid.length)
    (hp : p.toNat = a.toNat + pre.length) :
    ∃ h', Heap.setEach p vs h = .ok () h' ∧
      Carved h₀ h' (Function.update P a (some (pre ++ (vs ++ post)))) := by
  induction vs generalizing h P pre mid p with
  | nil =>
    rw [List.eq_nil_of_length_eq_zero hlen.symm] at ha
    refine ⟨h, rfl, ?_⟩
    rwa [Function.update_eq_self_iff.2 ha.symm]
  | cons v vs ih =>
    obtain ⟨x, mid, rfl⟩ : ∃ x xs, mid = x :: xs := by
      cases mid with
      | nil => simp at hlen
      | cons x xs => exact ⟨x, xs, rfl⟩
    have hsmall := hm.length_lt ha
    have hplace := (hm.owns ha).inside
    have hlt := hm.sound.sized.lt
    obtain ⟨h₁, hset, hm₁⟩ := hm.setWord ha (i := pre.length) (by simp) hp v
    have hsplit : (pre ++ (x :: mid ++ post)).set pre.length v
        = (pre ++ [v]) ++ (mid ++ post) := by simp
    rw [hsplit] at hm₁
    have hnext : (p + 1).toNat = a.toNat + (pre ++ [v]).length := by
      rw [UInt64.toNat_add, hp]
      simp only [List.length_append, List.length_cons, List.length_nil] at hplace ⊢
      show (_ + 1) % _ = _
      omega
    obtain ⟨h₂, hrest, hm₂⟩ :=
      ih hm₁ (Function.update_self ..) (by simpa using hlen) hnext
    rw [Function.update_idem] at hm₂
    refine ⟨h₂, (bind_eq_ok hset).trans hrest, ?_⟩
    simpa using hm₂

/-! ### Reading -/

theorem word (hm : Carved h₀ h P) (ha : P a = some ws) (hi : ws[i]? = some w)
    (hp : p.toNat = a.toNat + i) : h.word p = .ok w :=
  (hm.owns ha).toHolds.word hm.sound.sized hi hp

/-- Some words in the middle of a piece. -/
theorem slice (hm : Carved h₀ h P) {pre mid post : List UInt64}
    (ha : P a = some (pre ++ (mid ++ post))) (hp : p = a + UInt64.ofNat pre.length)
    {n : UInt64} (hn : n.toNat = mid.length) : h.slice p n = .ok mid := by
  have hsmall := hm.length_lt ha
  have hofNat : (UInt64.ofNat pre.length).toNat = pre.length := by
    rw [UInt64.toNat_ofNat']
    simp only [List.length_append] at hsmall
    omega
  have hdrop := (hm.owns ha).toHolds.drop hm.sound.sized (k := UInt64.ofNat pre.length)
    (by rw [hofNat, List.length_append]; omega)
  rw [hofNat, List.drop_left] at hdrop
  have htake := hdrop.take mid.length
  rw [List.take_left] at htake
  rw [hp]
  exact htake.slice hm.sound.sized hn.symm

end Carved

end Heap

end TreeMachine
