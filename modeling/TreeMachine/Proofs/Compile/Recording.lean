import TreeMachine.Proofs.Compile.Shadow

/-! # Recording results

  Between two steps of a node's generation the results of its sub-nodes are recorded above
  those that were there when it began.  Nothing is asked of the module.  Where `p` holds, the
  clock has not run over, so the positions that have been handed out are below it.  Main
  statement: a result that is as wide as its type is recorded as its degree asks.
-/

namespace TreeMachine.Compile

open Code (Module Value Build)

variable {N : Node → Tag → Prop} {p : Prop} {b b' g g' g'' : Generator} {c c' c'' : Catalogue}

/-! ### States -/

/-- The position in the order of generation that was handed out last. -/
def Generator.last (g : Generator) : UInt64 := g.clock - 1

/-- The heap and the slots have grown, and so have the positions. -/
structure Proceeds (p : Prop) (g : Generator) (c : Catalogue) (g' : Generator) (c' : Catalogue) :
    Prop extends Grows g c g' c' where
  last : p → g.last ≤ g'.last

namespace Proceeds

theorem of_eq (hi : g.heap.Interned c) (hheap : g'.heap = g.heap) (hmodule : g'.module = g.module)
    (hclock : g'.clock = g.clock) : Proceeds p g c g' c where
  toGrows := .of_eq hi hheap hmodule
  last _ := by
    rw [Generator.last, Generator.last, hclock]
    exact UInt64.le_refl _

theorem refl (hi : g.heap.Interned c) : Proceeds p g c g c := of_eq hi rfl rfl rfl

theorem trans (h : Proceeds p g c g' c') (h' : Proceeds p g' c' g'' c'') :
    Proceeds p g c g'' c'' :=
  ⟨h.toGrows.trans h'.toGrows, fun hp => UInt64.le_trans (h.last hp) (h'.last hp)⟩

theorem knows (h : Proceeds p g c g' c') {t : Ty} (ht : c.Knows t) : c'.Knows t := h.ext.knows ht

theorem width_eq (h : Proceeds p g c g' c') (hi : g.heap.Interned c) {t : Ty} (ht : c.Knows t) :
    g'.heap.width t = g.heap.width t :=
  h.ext.width_eq hi ht

theorem doesNotReturn_eq (h : Proceeds p g c g' c') :
    g'.heap.types.scalars.doesNotReturn = g.heap.types.scalars.doesNotReturn := by
  rw [h.ext.scalars_eq]

end Proceeds

/-- A state between two steps, whose results are above those of `b`. -/
structure Standing (N : Node → Tag → Prop) (p : Prop) (b g : Generator) (c : Catalogue) :
    Prop where
  standard : g.heap.Standard c
  closed : g.heap.Closed c N
  tracked : g.Tracked c
  timely : p → ∀ n info, g.Records n info → info.lifetime ≤ g.last
  above : Above b g

/-- What generation leaves if it ends well. -/
def Leaves {α : Type} (p : Prop) (x : Gen α) (g : Generator) (c : Catalogue)
    (Q : α → Generator → Catalogue → Prop) : Prop :=
  Yields x g (fun a g' => ∃ c', Proceeds p g c g' c' ∧ Q a g' c') fun _ _ => True

namespace Standing

variable {info : Info} {n : Node}

theorem interned (h : Standing N p b g c) : g.heap.Interned c := h.standard.toInterned

/-- The state is above itself. -/
theorem rebase (h : Standing N p b g c) : Standing N p g g c :=
  ⟨h.standard, h.closed, h.tracked, h.timely, .refl h.tracked⟩

/-- What is above a state that is above `b` is above `b`. -/
theorem lower (h : Standing N p g g' c') (hb : Above b g) : Standing N p b g' c' :=
  ⟨h.standard, h.closed, h.tracked, h.timely, hb.trans h.above⟩

/-- Everything but the shadow stack and the results may change, if it grows. -/
theorem proceeds (h : Standing N p b g c) (hg : Proceeds p g c g' c')
    (hshadow : g'.shadow = g.shadow) (hmemo : g'.memo = g.memo) (htemps : g'.temps = g.temps) :
    Standing N p b g' c' where
  standard := h.standard.extends hg.ext
  closed := h.closed.extends hg.ext
  tracked := h.tracked.grows h.interned hg.toGrows hshadow hmemo htemps
  timely hp n info hn := by
    refine UInt64.le_trans (h.timely hp n info ?_) (hg.last hp)
    rw [Generator.Records, hmemo, htemps] at hn
    exact hn
  above := h.above.congr ⟨rfl, rfl⟩ ⟨hshadow, hmemo⟩

/-- Recording a result in a slot for a node that has none. -/
theorem setMemo (h : Standing N p b g c) (hnew : g.memo.get? n = none) (hinfo : info.Placed g c)
    (htime : p → info.lifetime ≤ g.last) :
    Standing N p b
      { g with memo := g.memo.set n info, shadow := ⟨n, true⟩ :: g.shadow } c where
  standard := h.standard
  closed := h.closed
  tracked := h.tracked.setMemo hnew hinfo
  timely hp n' info' hn' := by
    rcases hn' with hn' | hn'
    · rcases Dict.get?_of_set hn' with rfl | hold
      · exact htime hp
      · exact h.timely hp n' info' (Or.inl hold)
    · exact h.timely hp n' info' (Or.inr hn')
  above := h.above.setMemo hnew info

/-- Recording a result in registers. -/
theorem setTemp (h : Standing N p b g c) (n : Node) (hinfo : info.Held g c)
    (htime : p → info.lifetime ≤ g.last) :
    Standing N p b
      { g with temps := g.temps.set n info, shadow := ⟨n, false⟩ :: g.shadow } c where
  standard := h.standard
  closed := h.closed
  tracked := h.tracked.setTemp n hinfo
  timely hp n' info' hn' := by
    rcases hn' with hn' | hn'
    · exact h.timely hp n' info' (Or.inl hn')
    · rcases Dict.get?_of_set hn' with rfl | hold
      · exact htime hp
      · exact h.timely hp n' info' (Or.inr hold)
  above := h.above.setTemp n info

/-- Widening the contract of a result in a slot. -/
theorem setContract (h : Standing N p b g c) (hold : g.memo.get? n = some info) {ct : Contract}
    (hct : ct.Weakens info.contract) :
    Standing N p b { g with memo := g.memo.set n { info with contract := ct } } c where
  standard := h.standard
  closed := h.closed
  tracked := h.tracked.setContract hold ct
  timely hp n' info' hn' := by
    rcases hn' with hn' | hn'
    · rcases Dict.get?_of_set hn' with rfl | hother
      · exact h.timely hp n info (Or.inl hold)
      · exact h.timely hp n' info' (Or.inl hother)
    · exact h.timely hp n' info' (Or.inr hn')
  above := h.above.setContract hold hct

/-- Cutting the shadow stack back to where it was in `b`. -/
theorem cutBack (h : Standing N p b g c) (hcut : CutBack b g g') : Standing N p b g' c where
  standard := hcut.heap ▸ h.standard
  closed := hcut.heap ▸ h.closed
  tracked := hcut.tracked h.tracked
  timely hp n info hn := by
    rw [Generator.last, hcut.clock]
    exact h.timely hp n info (hn.imp hcut.get?_memo hcut.get?_temps)
  above := hcut.above h.tracked h.above

/-- A field that refers to a node. -/
theorem child_eq (h : Standing N p b g c) {tag : Tag} (hn : N n tag) {i : Nat}
    (hi : i < tag.schema.nodeFields) : ∃ k, child n i g = .ok k g ∧ OrNull N k := by
  obtain ⟨k, hk, hN⟩ := h.closed.field_eq h.interned.sized hn hi
  exact ⟨k, look_eq_ok hk, hN⟩

end Standing

/-! ### Rules -/

namespace Leaves

variable {α β : Type} {Q : α → Generator → Catalogue → Prop} {R : β → Generator → Catalogue → Prop}

theorem of_ok {x : Gen α} {a : α} (h : x g = .ok a g') (hg : Proceeds p g c g' c')
    (hq : Q a g' c') : Leaves p x g c Q :=
  Yields.of_ok h ⟨c', hg, hq⟩

theorem pure {a : α} (hi : g.heap.Interned c) (hq : Q a g c) :
    Leaves p (Pure.pure a : Gen α) g c Q :=
  of_ok rfl (.refl hi) hq

/-- Steps with the same outcome. -/
theorem congr {x y : Gen α} (heq : x g = y g) (h : Leaves p y g c Q) : Leaves p x g c Q :=
  Yields.congr heq h

/-- What fails leaves nothing to show. -/
theorem fail {x : Gen α} {e : Stop CompileError} (hx : x g = .error e g') : Leaves p x g c Q :=
  Yields.of_error hx trivial

theorem fail_bind {x : Gen α} {f : α → Gen β} {e : Stop CompileError} (hx : x g = .error e g') :
    Leaves p (x >>= f) g c R :=
  fail (bind_eq_error hx)

theorem imp {x : Gen α} {Q' : α → Generator → Catalogue → Prop} (h : Leaves p x g c Q)
    (hq : ∀ a g' c', Proceeds p g c g' c' → Q a g' c' → Q' a g' c') : Leaves p x g c Q' := by
  refine Yields.imp h fun a g' => ?_
  rintro ⟨c', hg, hqa⟩
  exact ⟨c', hg, hq a g' c' hg hqa⟩

theorem bind {x : Gen α} {f : α → Gen β} (hx : Leaves p x g c Q)
    (hf : ∀ a g' c', Proceeds p g c g' c' → Q a g' c' → Leaves p (f a) g' c' R) :
    Leaves p (x >>= f) g c R := by
  refine Yields.bind (Yields.imp hx fun a g' => ?_)
  rintro ⟨c', hg, hq⟩
  refine Yields.imp (hf a g' c' hg hq) fun _ g'' => ?_
  rintro ⟨c'', hg', hr⟩
  exact ⟨c'', hg.trans hg', hr⟩

/-- A first step with a known end. -/
theorem step {x : Gen α} {a : α} {f : α → Gen β} (hx : x g = .ok a g')
    (hg : Proceeds p g c g' c') (hf : Leaves p (f a) g' c' R) : Leaves p (x >>= f) g c R :=
  bind (Q := fun a' g₁ c₁ => a' = a ∧ g₁ = g' ∧ c₁ = c') (of_ok hx hg ⟨rfl, rfl, rfl⟩)
    fun _ _ _ _ ⟨ha, hg', hc⟩ => by
      subst ha hg' hc
      exact hf

/-- A first step that leaves the state alone. -/
theorem read {x : Gen α} {a : α} {f : α → Gen β} (hx : x g = .ok a g) (hf : Leaves p (f a) g c R) :
    Leaves p (x >>= f) g c R :=
  Yields.bind_ok hx hf

theorem modify {f : Generator → Generator} {Q : Unit → Generator → Catalogue → Prop}
    (hg : Proceeds p g c (f g) c) (hq : Q () (f g) c) :
    Leaves p (modifyGet (fun s => ((), f s)) : Gen Unit) g c Q :=
  of_ok rfl hg hq

/-- A first look at the heap. -/
theorem look {x : Heap → Except Fault α} {f : α → Gen β}
    (hf : ∀ a, x g.heap = .ok a → Leaves p (f a) g c R) :
    Leaves p (Compile.look x >>= f) g c R := by
  cases hx : x g.heap with
  | ok a => exact read (look_eq_ok hx) (hf a hx)
  | error e =>
    have hlook : Compile.look x g = .error (.fault e) g := by simp only [Compile.look, hx]
    exact fail_bind hlook

/-- A first step of construction. -/
theorem build {x : Build α} {S : α → Prop} {f : α → Gen β} (h : Standing N p b g c)
    (hx : Module.Spares x S) (hf : ∀ a g', Proceeds p g c g' c → Standing N p b g' c → S a →
      Leaves p (f a) g' c R) : Leaves p (Compile.build x >>= f) g c R := by
  obtain ⟨hslots, hs⟩ := hx g.module
  have hrun : Compile.build x g = .ok (x g.module).1 { g with module := (x g.module).2 } := rfl
  have hg : Proceeds p g c { g with module := (x g.module).2 } c :=
    ⟨⟨.refl h.interned, hslots⟩, fun _ => UInt64.le_refl _⟩
  exact step hrun hg (hf _ _ hg (h.proceeds hg rfl rfl rfl) hs)

/-- A first step that makes a slot. -/
theorem alloca {f : Nat → Gen β} (h : Standing N p b g c)
    (hf : ∀ slot g', Proceeds p g c g' c → Standing N p b g' c → slot < g'.module.slots.size →
      Leaves p (f slot) g' c R) : Leaves p (Compile.build Module.alloca >>= f) g c R := by
  have hrun : Compile.build Module.alloca g
      = .ok (Module.alloca g.module).1 { g with module := (Module.alloca g.module).2 } := rfl
  have hg : Proceeds p g c { g with module := (Module.alloca g.module).2 } c :=
    ⟨⟨.refl h.interned, (Module.alloca_spares g.module).1⟩, fun _ => UInt64.le_refl _⟩
  exact step hrun hg (hf _ _ hg (h.proceeds hg rfl rfl rfl) (Module.alloca_slot g.module))

/-- A first step that fetches the value of a result. -/
theorem value {info : Info} {f : Value → Gen β} (h : Standing N p b g c) (hinfo : info.Sized g c)
    (hf : ∀ (v : Value) (g' : Generator), Proceeds p g c g' c → Standing N p b g' c →
      v.words = g.heap.width info.type → Leaves p (f v) g' c R) :
    Leaves p (valueOf info >>= f) g c R := by
  by_cases ha : info.addressable = true
  · -- From a slot as many words are loaded as the type has.
    have hsize := sizeOf_known h.interned hinfo.knows
    have heq : (valueOf info >>= f) g = (Compile.build (Module.load info.loc.slot info.loc.off
        (g.heap.width info.type)) >>= f) g := by
      refine bind_run_congr ?_
      unfold valueOf
      rw [if_pos ha, bind_eq_ok hsize]
    exact .congr heq (.build h (Module.load_spares _ _ _) hf)
  · have heq : valueOf info g = .ok info.value g := by
      unfold valueOf
      rw [if_neg ha]
      rfl
    exact .read heq (hf _ g (.refl h.interned) h (hinfo.words (by simpa using ha)))

/-- A first step that cuts the shadow stack back to where it was in `b`. -/
theorem clear {depth : Nat} {f : Unit → Gen β} (h : Standing N p b g c)
    (hdepth : depth = b.shadow.length) (hf : ∀ g', Proceeds p g c g' c → Standing N p b g' c →
      g'.shadow = b.shadow → g'.module = g.module → Leaves p (f ()) g' c R) :
    Leaves p (clearStack depth >>= f) g c R := by
  subst hdepth
  have hcut := h.above.cutBack
  have hg : Proceeds p g c (Compile.clear b.shadow.length g) c :=
    .of_eq h.interned hcut.heap hcut.module hcut.clock
  exact step (clearStack_eq _ g) hg (hf _ hg (h.cutBack hcut) hcut.shadow hcut.module)

/-- A first step that makes a type. -/
theorem makes {x : HeapM α} {S : α → Heap → Catalogue → Prop} {f : α → Gen β}
    (h : Standing N p b g c)
    (hx : Yields x g.heap (fun a heap => ∃ c', Heap.Extends g.heap c heap c' ∧ S a heap c')
      fun _ _ => True)
    (hf : ∀ a g' c', Proceeds p g c g' c' → Standing N p b g' c' → S a g'.heap c' →
      Leaves p (f a) g' c' R) : Leaves p (onHeap x >>= f) g c R := by
  cases hrun : x g.heap with
  | ok a heap =>
    obtain ⟨c', hext, hs⟩ := hx.ok hrun
    have hg : Proceeds p g c { g with heap } c' :=
      ⟨⟨hext, .refl _⟩, fun _ => UInt64.le_refl _⟩
    exact step (onHeap_eq_ok hrun) hg (hf a _ c' hg (h.proceeds hg rfl rfl rfl) hs)
  | error e heap =>
    have hfail : onHeap x g = .error (.fault e) { g with heap } := by simp only [onHeap, hrun]
    exact fail_bind hfail

end Leaves

/-! ### Delivering -/

/-- The node of the site is one of the set.  It began above `b`, and if its result is to live
    in a slot, the slot is there. -/
structure Site.Opens (site : Site) (N : Node → Tag → Prop) (tag : Tag) (p : Prop)
    (b g : Generator) : Prop where
  node : N site.node tag
  depth : site.depth = b.shadow.length
  slot : site.degree ≠ .value → site.storage.slot < g.module.slots.size
  time : p → site.lifetime ≤ g.last

theorem Site.Opens.proceeds {site : Site} {tag : Tag} (h : site.Opens N tag p b g)
    (hg : Proceeds p g c g' c') : site.Opens N tag p b g' where
  node := h.node
  depth := h.depth
  slot hd := Nat.lt_of_lt_of_le (h.slot hd) hg.slots.size_le
  time hp := UInt64.le_trans (h.time hp) (hg.last hp)

/-- The result of a node has been delivered.  One in a slot of its own is all that the node
    leaves on the shadow stack. -/
structure Recorded (N : Node → Tag → Prop) (p : Prop) (b : Generator) (n : Node) (degree : Degree)
    (info : Info) (g : Generator) (c : Catalogue) : Prop where
  standing : Standing N p b g c
  sized : info.Sized g c
  value : degree = .value → info.addressable = false
  own : degree = .ownSlot → g.shadow = b.shadow ∨ g.shadow = ⟨n, true⟩ :: b.shadow

section Finish

variable {site : Site} {tag : Tag} {v : Value} {t : Ty} {ct : Contract} {move : Bool} {info : Info}

/-- A result without words is not recorded. -/
theorem finish_records_empty (h : Standing N p b g c) (hsite : site.Opens N tag p b g)
    (ht : c.Knows t) (hzero : g.heap.width t = 0) :
    Leaves p (finish site v t ct move) g c (Recorded N p b site.node site.degree) := by
  have hsize := sizeOf_known h.interned ht
  rw [hzero] at hsize
  have hsized {g' : Generator} (hheap : g'.heap = g.heap) :
      Info.Sized ⟨.void, ⟨0, 0⟩, t, site.lifetime, false, ct⟩ g' c := by
    refine ⟨ht, fun _ => ?_⟩
    rw [hheap, hzero]
    rfl
  -- A node in a slot of its own leaves no temporaries, even if it has no result.
  by_cases hown : site.degree = .ownSlot
  · have hcut := h.above.cutBack
    have hdropped : dropped site g = clear b.shadow.length g := by
      rw [dropped, if_pos hown, hsite.depth]
    exact .of_ok ((finish_empty hsize).trans (congrArg _ hdropped))
      (.of_eq h.interned hcut.heap hcut.module hcut.clock)
      ⟨h.cutBack hcut, hsized hcut.heap, fun _ => rfl, fun _ => Or.inl hcut.shadow⟩
  · have hdropped : dropped site g = g := by rw [dropped, if_neg hown]
    exact .of_ok ((finish_empty hsize).trans (congrArg _ hdropped)) (.refl h.interned)
      ⟨h, hsized rfl, fun _ => rfl, fun hd => absurd hd hown⟩

/-- A result in a slot is recorded, unless its node has one already. -/
theorem record_records (h : Standing N p b g c) (hinfo : info.Placed g c)
    (htime : p → info.lifetime ≤ g.last) (hd : site.degree ≠ .value)
    (hown : site.degree = .ownSlot → g.shadow = b.shadow) :
    Leaves p (record site info) g c (Recorded N p b site.node site.degree) := by
  unfold record
  refine .read (x := get) rfl ?_
  dsimp only
  split
  · exact .fail_bind rfl
  · -- A second result for the node is an error, so this is the first one.
    rename_i hcontains
    have hnew : g.memo.get? site.node = none := by simpa [Dict.contains] using hcontains
    have hsized := hinfo.sized
    exact .of_ok rfl (.of_eq h.interned rfl rfl rfl) ⟨h.setMemo hnew hinfo htime,
      ⟨hsized.knows, hsized.words⟩, fun hd' => absurd hd' hd,
      fun hd' => Or.inr (congrArg _ (hown hd'))⟩

/-- The temporaries of a node in a slot of its own go before its result is recorded. -/
theorem settle_records (h : Standing N p b g c) (hsite : site.Opens N tag p b g)
    (hinfo : info.Placed g c) (htime : p → info.lifetime ≤ g.last) (hd : site.degree ≠ .value) :
    Leaves p (settle site info) g c (Recorded N p b site.node site.degree) := by
  unfold settle
  split
  · refine .clear h hsite.depth fun g₁ hg hs hshadow _ => ?_
    exact record_records hs (hg.placed h.interned hinfo)
      (fun hp => UInt64.le_trans (htime hp) (hg.last hp)) hd fun _ => hshadow
  · rename_i hown
    exact record_records h hinfo htime hd fun hd' => absurd hd' hown

/-- A result is delivered.  A value has to be as wide as its type. -/
theorem finish_records (h : Standing N p b g c) (hsite : site.Opens N tag p b g)
    (ht : c.Knows t) (hv : site.degree = .value → v.words = g.heap.width t) :
    Leaves p (finish site v t ct move) g c (Recorded N p b site.node site.degree) := by
  have hsize := sizeOf_known h.interned ht
  by_cases hpos : 0 < g.heap.width t
  swap
  · exact finish_records_empty h hsite ht (by omega)
  -- A value is left where it is, and recorded as being there.
  by_cases hd : site.degree = .value
  · have hheld : Info.Held ⟨v, ⟨0, 0⟩, t, site.lifetime, false, ct⟩ g c := ⟨ht, hv hd⟩
    refine .of_ok (finish_value hsize hpos hd) (.of_eq h.interned rfl rfl rfl)
      ⟨h.setTemp site.node hheld hsite.time, ⟨ht, fun _ => hv hd⟩, fun _ => rfl, ?_⟩
    intro hown
    rw [hd] at hown
    cases hown
  -- Room is made in the slot, and what is written there only adds to it.
  refine .congr (finish_eq_settle hsize hpos hd) ?_
  have hroom := Module.reserve_room (hsite.slot hd) site.storage.off (g.heap.width t)
  have hslots := (Module.reserve_spares site.storage.slot (site.storage.off + g.heap.width t)
    g.module).1
  let g₁ := { g with
    module := (Module.reserve site.storage.slot (site.storage.off + g.heap.width t) g.module).2 }
  have hg₁ : Proceeds p g c g₁ c := ⟨⟨.refl h.interned, hslots⟩, fun _ => UInt64.le_refl _⟩
  have h₁ : Standing N p b g₁ c := h.proceeds hg₁ rfl rfl rfl
  have hplaced : Info.Placed ⟨.void, site.storage, t, site.lifetime, true, ct⟩ g₁ c :=
    ⟨rfl, ht, hpos, hroom⟩
  have hsite₁ := hsite.proceeds hg₁
  have hreserve : build (Module.reserve site.storage.slot (site.storage.off + g.heap.width t)) g
      = .ok () g₁ := rfl
  refine .step hreserve hg₁ ?_
  cases move with
  | true =>
    refine .build h₁ (Module.store_spares _ _ _) fun _ g₂ hg₂ h₂ _ => ?_
    have hsite₂ := hsite₁.proceeds hg₂
    exact settle_records h₂ hsite₂ (hg₂.placed h₁.interned hplaced) hsite₂.time hd
  | false => exact settle_records h₁ hsite₁ hplaced hsite₁.time hd

/-- A value that was made as wide as its type was is delivered. -/
theorem finish_records_after (hg : Proceeds p g c g' c') (hi : g.heap.Interned c)
    (h : Standing N p b g' c') (hsite : site.Opens N tag p b g) (ht : c.Knows t)
    (hv : v.words = g.heap.width t) :
    Leaves p (finish site v t ct move) g' c' (Recorded N p b site.node site.degree) := by
  refine finish_records h (hsite.proceeds hg) (hg.knows ht) fun _ => ?_
  rw [hg.width_eq hi ht]
  exact hv

/-- The result of a node that has none. -/
theorem finishVoid_records (h : Standing N p b g c) (hsite : site.Opens N tag p b g) :
    Leaves p (finishVoid site 0) g c (Recorded N p b site.node site.degree) :=
  finish_records_empty h hsite (Or.inl rfl) rfl

/-- The result of a node that never ends. -/
theorem finishNever_records (h : Standing N p b g c) (hsite : site.Opens N tag p b g)
    (ht : t = g.heap.types.scalars.doesNotReturn) :
    Leaves p (finishVoid site t) g c (Recorded N p b site.node site.degree) := by
  subst ht
  exact finish_records_empty h hsite (Heap.knows_of_mem h.standard.doesNotReturn)
    h.standard.width_doesNotReturn

/-- A result of a sub-node becomes the result of the node. -/
theorem passThrough_records (h : Standing N p b g c) (hsite : site.Opens N tag p b g)
    (hinfo : info.Sized g c) :
    Leaves p (passThrough site info) g c (Recorded N p b site.node site.degree) := by
  unfold passThrough
  split
  · refine .read (sizeOf_known h.interned hinfo.knows) ?_
    dsimp only
    split
    · -- The sub-node may have left its result in a slot, from where it is loaded.
      exact .value h hinfo fun v g₁ hg₁ h₁ hv =>
        finish_records_after hg₁ h.interned h₁ hsite hinfo.knows hv
    · exact finish_records_empty h hsite hinfo.knows (by omega)
  · -- The sub-node had the same place to put its result, so there is nothing to move.
    rename_i hd
    exact finish_records h hsite hinfo.knows fun hd' => absurd hd' hd

end Finish

end TreeMachine.Compile
