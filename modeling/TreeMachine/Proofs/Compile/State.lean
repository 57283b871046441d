import TreeMachine.Compile.Generate
import TreeMachine.Proofs.Code.Branching
import TreeMachine.Proofs.Compile.Expr
import TreeMachine.Proofs.Node.Reading

/-! # The state of code generation

  Generating a tree adds code, makes types and records results of its own nodes, and touches
  nothing else.  Main statements: what each small step of generation does to the parts of
  the state, and that a result is delivered as its degree asks.
-/

namespace TreeMachine.Compile

open Code (Module Value Program Frame Stands wrap)

variable {g g' g'' : Generator} {c c' c'' : Catalogue} {ns ns' : List Node}

/-! ### Steps that cannot fail -/

theorem look_eq_ok {α : Type} {f : Heap → Except Fault α} {a : α} (h : f g.heap = .ok a) :
    look f g = .ok a g := by
  simp only [look, h]

theorem build_eq_ok {α : Type} {x : Code.Build α} {a : α} {m : Module}
    (h : x g.module = (a, m)) : build x g = .ok a { g with module := m } := by
  simp only [build, h]

theorem onHeap_eq_ok {α : Type} {x : HeapM α} {a : α} {h : Heap} (heq : x g.heap = .ok a h) :
    onHeap x g = .ok a { g with heap := h } := by
  simp only [onHeap, heq]

theorem doesNotReturn_eq (g : Generator) :
    doesNotReturn g = .ok g.heap.types.scalars.doesNotReturn g := rfl

theorem integer_eq (g : Generator) : integer g = .ok g.heap.types.scalars.integer g := rfl

/-- A size that is known. -/
theorem sizeOf_of_size {t : Ty} {w : Nat} (hsize : g.heap.size t = .ok (UInt64.ofNat w))
    (hlt : w < 2 ^ 64) : sizeOf t g = .ok w g := by
  have hpeek : look (·.size t) g = .ok (UInt64.ofNat w) g := look_eq_ok hsize
  rw [sizeOf, bind_eq_ok hpeek]
  show EStateM.Result.ok (UInt64.ofNat w).toNat g = _
  rw [UInt64.toNat_ofNat', Nat.mod_eq_of_lt hlt]

/-- The size of the type of a width. -/
theorem sizeOf_eq (hs : g.heap.Standard c) {w : Nat} {t : Ty}
    (ht : c.Integers g.heap.types.scalars.integer w t) : sizeOf t g = .ok w g := by
  obtain ⟨hsize, hlt⟩ := hs.size_integers ht
  exact sizeOf_of_size hsize (by omega)

theorem child_eq {n : Node} {t : Tag} {before : Node} {fields : List UInt64}
    (hs : g.heap.arena.Sized) (hn : g.heap.arena.Owns n (t.word :: before :: fields))
    (hlen : fields.length = t.fields) {i : Nat} {w : UInt64} (hi : fields[i]? = some w) :
    child n i g = .ok w g :=
  look_eq_ok (Heap.field_eq hs hn hlen hi)

/-! ### The shadow stack -/

/-- The state with the shadow stack cut back to a height. -/
def clear (depth : Nat) (g : Generator) : Generator :=
  let above := g.shadow.length - depth
  { (g.shadow.take above).foldl forget g with shadow := g.shadow.drop above }

theorem clearStack_eq (depth : Nat) (g : Generator) :
    clearStack depth g = .ok () (clear depth g) := rfl

/-- Forgetting touches only results. -/
theorem forget_frame (l : List ShadowEntry) (g : Generator) :
    (l.foldl forget g).heap = g.heap ∧ (l.foldl forget g).module = g.module ∧
      (l.foldl forget g).active = g.active ∧ (l.foldl forget g).labels = g.labels := by
  induction l generalizing g with
  | nil => exact ⟨rfl, rfl, rfl, rfl⟩
  | cons e rest ih =>
    obtain ⟨hh, hm, ha, hl⟩ := ih (forget g e)
    rw [List.foldl_cons, hh, hm, ha, hl]
    unfold forget
    split <;> exact ⟨rfl, rfl, rfl, rfl⟩

/-- Forgetting touches only the results that are forgotten. -/
theorem forget_memo (l : List ShadowEntry) (g : Generator) (n : Node) :
    (l.foldl forget g).memo.get? n = g.memo.get? n ∨
      ((l.foldl forget g).memo.get? n = none ∧ ∃ e ∈ l, e.node = n) := by
  induction l generalizing g with
  | nil => exact Or.inl rfl
  | cons e rest ih =>
    rw [List.foldl_cons]
    rcases ih (forget g e) with heq | ⟨hnone, e', he', hn⟩
    · by_cases hn : e.node = n
      · by_cases ha : e.addressable = true
        · right
          refine ⟨?_, e, List.mem_cons_self, hn⟩
          rw [heq, forget, if_pos ha, hn]
          exact Dict.get?_erase_self _ _
        · left
          rw [heq, forget, if_neg ha]
      · left
        rw [heq]
        unfold forget
        split
        · exact Dict.get?_erase_ne _ fun h => hn h.symm
        · rfl
    · exact Or.inr ⟨hnone, e', List.mem_cons_of_mem _ he', hn⟩

/-! ### What generation leaves alone -/

/-- Generation has gone on and recorded results of the nodes `ns` only. -/
structure Moves (g : Generator) (c : Catalogue) (ns : List Node) (g' : Generator)
    (c' : Catalogue) : Prop where
  ext : Heap.Extends g.heap c g'.heap c'
  active : g'.active = g.active
  labels : g'.labels = g.labels
  memo : ∀ n, n ∉ ns → g'.memo.get? n = g.memo.get? n
  shadow : ∃ added, g'.shadow = added ++ g.shadow ∧ ∀ e ∈ added, e.node ∈ ns

namespace Moves

theorem refl (hi : g.heap.Interned c) : Moves g c ns g c :=
  ⟨.refl hi, rfl, rfl, fun _ _ => rfl, [], rfl, fun _ he => absurd he List.not_mem_nil⟩

theorem trans (h : Moves g c ns g' c') (h' : Moves g' c' ns g'' c'') : Moves g c ns g'' c'' where
  ext := h.ext.trans h'.ext
  active := h'.active.trans h.active
  labels := h'.labels.trans h.labels
  memo n hn := (h'.memo n hn).trans (h.memo n hn)
  shadow := by
    obtain ⟨added, hadd, hmem⟩ := h.shadow
    obtain ⟨added', hadd', hmem'⟩ := h'.shadow
    refine ⟨added' ++ added, by rw [hadd', hadd, List.append_assoc], ?_⟩
    intro e he
    exact (List.mem_append.1 he).elim (hmem' e) (hmem e)

theorem weaken (h : Moves g c ns g' c') (hns : ∀ n ∈ ns, n ∈ ns') : Moves g c ns' g' c' :=
  ⟨h.ext, h.active, h.labels, fun n hn => h.memo n fun hmem => hn (hns n hmem),
    h.shadow.imp fun _ hadd => ⟨hadd.1, fun e he => hns _ (hadd.2 e he)⟩⟩

/-- One tree after the other. -/
theorem append (h : Moves g c ns g' c') (h' : Moves g' c' ns' g'' c'') :
    Moves g c (ns ++ ns') g'' c'' :=
  (h.weaken fun _ hn => List.mem_append_left _ hn).trans
    (h'.weaken fun _ hn => List.mem_append_right _ hn)

/-- Code and positions in the order of generation do not count. -/
theorem setModule (h : Moves g c ns g' c') (m : Module) : Moves g c ns { g' with module := m } c' :=
  ⟨h.ext, h.active, h.labels, h.memo, h.shadow⟩

/-- Nor is it asked which module there was before. -/
theorem ofModule {m : Module} (h : Moves { g with module := m } c ns g' c') :
    Moves g c ns g' c' :=
  ⟨h.ext, h.active, h.labels, h.memo, h.shadow⟩

/-- The heap grows by types. -/
theorem setHeap (h : Moves g c ns g' c') {heap : Heap} (hext : Heap.Extends g'.heap c' heap c'') :
    Moves g c ns { g' with heap } c'' :=
  ⟨h.ext.trans hext, h.active, h.labels, h.memo, h.shadow⟩

/-- Cutting the shadow stack back to where it was. -/
theorem clear (h : Moves g c ns g' c') : Moves g c ns (clear g.shadow.length g') c' ∧
    (Compile.clear g.shadow.length g').shadow = g.shadow ∧
    (Compile.clear g.shadow.length g').module = g'.module ∧
    (Compile.clear g.shadow.length g').heap = g'.heap ∧
    ∀ n, g'.memo.get? n = none → (Compile.clear g.shadow.length g').memo.get? n = none := by
  obtain ⟨added, hadd, hmem⟩ := h.shadow
  have habove : g'.shadow.length - g.shadow.length = added.length := by
    rw [hadd, List.length_append]
    omega
  have htake : g'.shadow.take added.length = added := by rw [hadd, List.take_left]
  have hdrop : g'.shadow.drop added.length = g.shadow := by rw [hadd, List.drop_left]
  obtain ⟨hheap, hmodule, hactive, hlabels⟩ := forget_frame added g'
  unfold Compile.clear
  simp only [habove, htake, hdrop, hmodule, hheap, true_and]
  refine ⟨⟨?_, ?_, ?_, ?_, [], rfl, fun _ he => absurd he List.not_mem_nil⟩, ?_⟩
  · exact hheap ▸ h.ext
  · exact hactive.trans h.active
  · exact hlabels.trans h.labels
  · intro n hn
    rcases forget_memo added g' n with heq | ⟨-, e, he, rfl⟩
    · exact heq.trans (h.memo n hn)
    · exact absurd (hmem e he) hn
  · intro n hnone
    rcases forget_memo added g' n with heq | ⟨hnone', -⟩
    · exact heq.trans hnone
    · exact hnone'

end Moves

/-! ### Recording a result -/

/-- The state with the temporaries of a node dropped, if it has a slot of its own. -/
def dropped (site : Site) (g : Generator) : Generator :=
  if site.degree = .ownSlot then clear site.depth g else g

theorem dropped_moves {site : Site} (h : Moves g c ns g' c')
    (hdepth : site.depth = g.shadow.length) :
    Moves g c ns (dropped site g') c' ∧ (dropped site g').module = g'.module ∧
      (dropped site g').heap = g'.heap ∧
      ∀ n, g'.memo.get? n = none → (dropped site g').memo.get? n = none := by
  unfold dropped
  split
  · rw [hdepth]
    obtain ⟨hm, -, hmodule, hheap, hmemo⟩ := h.clear
    exact ⟨hm, hmodule, hheap, hmemo⟩
  · exact ⟨h, rfl, rfl, fun _ hn => hn⟩

section Finish

variable {site : Site} {v : Value} {t : Ty} {ct : Contract} {move : Bool} {w : Nat}

/-- A result without words is not recorded. -/
theorem finish_empty (hsize : sizeOf t g = .ok 0 g) :
    finish site v t ct move g
      = .ok ⟨.void, ⟨0, 0⟩, t, site.lifetime, false, ct⟩ (dropped site g) := by
  have hno : ¬ (site.degree ≠ .value ∧ 0 < 0) := by omega
  unfold finish dropped
  rw [bind_eq_ok hsize]
  dsimp only
  rw [if_neg hno]
  by_cases hown : site.degree = .ownSlot
  · rw [if_pos hown, if_pos hown]
    rfl
  · rw [if_neg hown, if_neg hown]
    rfl

theorem finish_zero (hs : g.heap.Standard c)
    (ht : c.Integers g.heap.types.scalars.integer 0 t) :
    finish site v t ct move g
      = .ok ⟨.void, ⟨0, 0⟩, t, site.lifetime, false, ct⟩ (dropped site g) :=
  finish_empty (sizeOf_eq hs ht)

theorem finish_value (hsize : sizeOf t g = .ok w g) (hw : 0 < w) (hd : site.degree = .value) :
    let info : Info := ⟨v, ⟨0, 0⟩, t, site.lifetime, false, ct⟩
    finish site v t ct move g = .ok info { g with
      temps := g.temps.set site.node info, shadow := ⟨site.node, false⟩ :: g.shadow } := by
  have hno : ¬ (site.degree ≠ .value ∧ 0 < w) := fun h => h.1 hd
  have hown : site.degree ≠ .ownSlot := by
    rw [hd]
    decide
  unfold finish
  rw [bind_eq_ok hsize]
  dsimp only
  rw [if_neg hno, if_neg hown, if_neg (by omega), if_pos hd]
  rfl

/-- Records a result in a slot. -/
def record (site : Site) (info : Info) : Gen Info := do
  if (← get).memo.contains site.node then reject .activeObjectDuplication site.node
  modify fun g => { g with
    memo := g.memo.set site.node info, shadow := ⟨site.node, true⟩ :: g.shadow }
  return info

theorem record_eq (info : Info) (hmemo : g.memo.get? site.node = none) :
    record site info g = .ok info { g with
      memo := g.memo.set site.node info, shadow := ⟨site.node, true⟩ :: g.shadow } := by
  have hcontains : ¬ (g.memo.contains site.node = true) := by
    rw [Dict.contains, hmemo]
    decide
  show (if g.memo.contains site.node = true then _ else _ : Gen Info) g = _
  rw [if_neg hcontains]
  rfl

/-- Drops the temporaries of a node and records its result in a slot. -/
def settle (site : Site) (info : Info) : Gen Info := do
  if site.degree = .ownSlot then clearStack site.depth
  record site info

/-- A result in a slot is made room for, written if asked, and recorded. -/
theorem finish_eq_settle (hsize : sizeOf t g = .ok w g) (hw : 0 < w) (hd : site.degree ≠ .value) :
    finish site v t ct move g = (do
      build (Module.reserve site.storage.slot (site.storage.off + w))
      if move then build (Module.store site.storage.slot site.storage.off v)
      settle site ⟨.void, site.storage, t, site.lifetime, true, ct⟩) g := by
  unfold finish settle record
  rw [bind_eq_ok hsize]
  dsimp only
  rw [if_pos ⟨hd, hw⟩, if_neg (Nat.pos_iff_ne_zero.1 hw), if_neg hd]

theorem settle_eq {info : Info} (hmemo : (dropped site g).memo.get? site.node = none) :
    settle site info g = .ok info { dropped site g with
      memo := (dropped site g).memo.set site.node info,
      shadow := ⟨site.node, true⟩ :: (dropped site g).shadow } := by
  unfold dropped at hmemo ⊢
  unfold settle
  split
  · rename_i hown
    rw [if_pos hown] at hmemo
    rw [bind_eq_ok (clearStack_eq _ _)]
    exact record_eq info hmemo
  · rename_i hown
    rw [if_neg hown] at hmemo
    exact record_eq info hmemo

/-- A result in a slot, which has been made room for and, if asked, written. -/
theorem finish_slot {m m' : Module} (hs : g.heap.Standard c)
    (ht : c.Integers g.heap.types.scalars.integer w t) (hw : 0 < w) (hd : site.degree ≠ .value)
    (hres : Module.reserve site.storage.slot (site.storage.off + w) g.module = ((), m))
    (hstore : (if move then Module.store site.storage.slot site.storage.off v else pure ()) m
      = ((), m'))
    (hmemo : (dropped site { g with module := m' }).memo.get? site.node = none) :
    let info : Info := ⟨.void, site.storage, t, site.lifetime, true, ct⟩
    let g' := dropped site { g with module := m' }
    finish site v t ct move g = .ok info { g' with
      memo := g'.memo.set site.node info, shadow := ⟨site.node, true⟩ :: g'.shadow } := by
  intro info g'
  rw [finish_eq_settle (sizeOf_eq hs ht) hw hd, bind_eq_ok (build_eq_ok hres)]
  cases move with
  | true =>
    rw [if_pos rfl, bind_eq_ok (build_eq_ok hstore)]
    exact settle_eq hmemo
  | false =>
    cases hstore
    exact settle_eq hmemo

end Finish

end TreeMachine.Compile
