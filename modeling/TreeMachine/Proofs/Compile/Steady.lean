import TreeMachine.Proofs.Code.Underway
import TreeMachine.Proofs.Compile.State
import TreeMachine.Proofs.Node.Closed

/-! # Steady generation

  Throughout generation the module is on its way, for a host with the functions that code
  calls, the nodes are closed, and every recorded result has a type and is where it says.
  Main statements: what each small step does to such a state, and that a result is delivered
  with the width of its type.
-/

namespace TreeMachine

/-! ### Hosts -/

/-- How generated code calls the functions of its host: with how many words, and for how
    many. -/
inductive Compile.HostCalls : Code.Services where
  | finiteness : HostCalls HostName.finiteness.text 0 1
  | random : HostCalls HostName.random.text 0 1
  /-- A type, and a value of it. -/
  | dynamify (w : Nat) : HostCalls HostName.dynamify.text (1 + w) 2
  | compile : HostCalls HostName.compile.text 1 1
  | run : HostCalls HostName.run.text 1 2

/-- What generated code may refer to. -/
abbrev Code.Module.reach (m : Module) : Bounds := m.bounds Compile.HostCalls

namespace Compile

open Code (Module Value Build Bounds JumpsTo)
open Code.Module (Later Builds)

variable {N : Node → Tag → Prop} {g g' g'' : Generator} {c c' c'' : Catalogue} {U U' P : List Nat}

/-! ### States -/

/-- The slot is there. -/
def HasSlot (m : Module) (k : Nat) : Prop := ∃ off n, m.reach.slot k off n

/-- The result has a type, and it is where it says, as wide as its type. -/
structure Info.Fits (info : Info) (g : Generator) (c : Catalogue) : Prop where
  knows : c.Knows info.type
  value : info.addressable = false → g.module.reach.value info.value (g.heap.width info.type)
  slot : info.addressable = true →
    g.module.reach.slot info.loc.slot info.loc.off (g.heap.width info.type)

/-- The heap has grown by types, and the module by code. -/
structure Onward (g : Generator) (c : Catalogue) (g' : Generator) (c' : Catalogue) : Prop where
  ext : Heap.Extends g.heap c g'.heap c'
  later : Later g.module g'.module

/-- A state between two steps of generation, in which the blocks of `U` wait for their
    ends. -/
structure Steady (N : Node → Tag → Prop) (U : List Nat) (g : Generator) (c : Catalogue) :
    Prop where
  standard : g.heap.Standard c
  closed : g.heap.Closed c N
  underway : g.module.Underway HostCalls U
  memo : ∀ n info, g.memo.get? n = some info → info.addressable = true ∧ info.Fits g c
  temps : ∀ n info, g.temps.get? n = some info → info.addressable = false ∧ info.Fits g c
  labels : ∀ n lbl, g.labels.get? n = some lbl → g.module.reach.block lbl.target

theorem HasSlot.later {m m' : Module} {k : Nat} (h : HasSlot m k) (hl : Later m m') :
    HasSlot m' k := by
  obtain ⟨off, n, h⟩ := h
  exact ⟨off, n, hl.bounds.slot h⟩

theorem Info.Fits.of_eq {info : Info} (hf : info.Fits g c) (hheap : g'.heap = g.heap)
    (hmodule : g'.module = g.module) : info.Fits g' c where
  knows := hf.knows
  value := by
    rw [hheap, hmodule]
    exact hf.value
  slot := by
    rw [hheap, hmodule]
    exact hf.slot

namespace Onward

variable {t : Ty} {v : Value} {info : Info}

theorem trans (h : Onward g c g' c') (h' : Onward g' c' g'' c'') : Onward g c g'' c'' :=
  ⟨h.ext.trans h'.ext, h.later.trans h'.later⟩

/-- The results and the labels do not count. -/
theorem of_eq (hi : g.heap.Interned c) (hheap : g'.heap = g.heap) (hmodule : g'.module = g.module) :
    Onward g c g' c := by
  constructor
  · rw [hheap]
    exact .refl hi
  · rw [hmodule]
    exact .refl _

theorem refl (hi : g.heap.Interned c) : Onward g c g c := of_eq hi rfl rfl

theorem doesNotReturn_eq (h : Onward g c g' c') :
    g'.heap.types.scalars.doesNotReturn = g.heap.types.scalars.doesNotReturn := by
  rw [h.ext.scalars_eq]

/-- What was as wide as its type still is. -/
theorem value (h : Onward g c g' c') (hi : g.heap.Interned c) (ht : c.Knows t)
    (hv : g.module.reach.value v (g.heap.width t)) :
    g'.module.reach.value v (g'.heap.width t) := by
  rw [h.ext.width_eq hi ht]
  exact h.later.bounds.value hv

theorem fits (h : Onward g c g' c') (hi : g.heap.Interned c) (hf : info.Fits g c) :
    info.Fits g' c' where
  knows := h.ext.knows hf.knows
  value ha := h.value hi hf.knows (hf.value ha)
  slot ha := by
    rw [h.ext.width_eq hi hf.knows]
    exact h.later.bounds.slot (hf.slot ha)

end Onward

/-- Generation from a state leads onward to an answer and a state as `Q` says, or it fails. -/
def Advances {α : Type} (x : Gen α) (g : Generator) (c : Catalogue)
    (Q : α → Generator → Catalogue → Prop) : Prop :=
  Yields x g (fun a g' => ∃ c', Onward g c g' c' ∧ Q a g' c') fun _ _ => True

/-! ### Rules -/

namespace Advances

variable {α β : Type} {Q R : α → Generator → Catalogue → Prop}

theorem of_ok {x : Gen α} {a : α} (h : x g = .ok a g') (ho : Onward g c g' c') (hq : Q a g' c') :
    Advances x g c Q :=
  Yields.of_ok h ⟨c', ho, hq⟩

theorem pure {a : α} (hi : g.heap.Interned c) (hq : Q a g c) :
    Advances (Pure.pure a : Gen α) g c Q :=
  of_ok rfl (.refl hi) hq

/-- Steps with the same outcome. -/
theorem congr {x y : Gen α} (heq : x g = y g) (h : Advances y g c Q) : Advances x g c Q :=
  Yields.congr heq h

theorem imp {x : Gen α} (h : Advances x g c Q)
    (hqr : ∀ a g' c', Onward g c g' c' → Q a g' c' → R a g' c') : Advances x g c R := by
  refine Yields.imp h fun a g' => ?_
  rintro ⟨c', ho, hq⟩
  exact ⟨c', ho, hqr a g' c' ho hq⟩

theorem bind {x : Gen α} {f : α → Gen β} {R : β → Generator → Catalogue → Prop}
    (hx : Advances x g c Q)
    (hf : ∀ a g' c', Onward g c g' c' → Q a g' c' → Advances (f a) g' c' R) :
    Advances (x >>= f) g c R := by
  refine Yields.bind (Yields.imp hx fun a g' => ?_)
  rintro ⟨c', ho, hq⟩
  refine Yields.imp (hf a g' c' ho hq) fun b g'' => ?_
  rintro ⟨c'', ho', hr⟩
  exact ⟨c'', ho.trans ho', hr⟩

/-- A first step that leaves the state alone. -/
theorem read {x : Gen α} {a : α} {f : α → Gen β} {R : β → Generator → Catalogue → Prop}
    (hx : x g = .ok a g) (hf : Advances (f a) g c R) : Advances (x >>= f) g c R :=
  Yields.bind_ok hx hf

/-- A change of the records only. -/
theorem modify {f : Generator → Generator} {Q : Unit → Generator → Catalogue → Prop}
    (ho : Onward g c (f g) c) (hq : Q () (f g) c) :
    Advances (modifyGet (fun s => ((), f s)) : Gen Unit) g c Q :=
  of_ok rfl ho hq

/-- A first look at the heap. -/
theorem look {x : Heap → Except Fault α} {f : α → Gen β} {R : β → Generator → Catalogue → Prop}
    (hf : ∀ a, x g.heap = .ok a → Advances (f a) g c R) :
    Advances (Compile.look x >>= f) g c R := by
  cases hx : x g.heap with
  | ok a => exact read (look_eq_ok hx) (hf a hx)
  | error e =>
    have hlook : Compile.look x g = .error (.fault e) g := by simp only [Compile.look, hx]
    exact Yields.bind (Yields.of_error hlook trivial)

/-- What fails before anything else needs nothing more. -/
theorem fail {x : Gen α} {e : Stop CompileError} (hx : x g = .error e g) : Advances x g c Q :=
  Yields.of_error hx trivial

/-- A step and a rest that fails before it. -/
theorem fail_bind {x : Gen α} {f : α → Gen β} {R : β → Generator → Catalogue → Prop}
    {e : Stop CompileError} (hx : x g = .error e g) : Advances (x >>= f) g c R :=
  Yields.of_error (bind_eq_error hx) trivial

end Advances

/-! ### Steps -/

/-- The size of a type is its width. -/
theorem sizeOf_known (hi : g.heap.Interned c) {t : Ty} (ht : c.Knows t) :
    sizeOf t g = .ok (g.heap.width t) g := by
  obtain ⟨hsize, hlt⟩ := hi.size_known ht
  exact sizeOf_of_size hsize (by omega)

namespace Steady

variable {α β : Type} {t : Ty} {info : Info} {w : Nat}

theorem interned (h : Steady N U g c) : g.heap.Interned c := h.standard.toInterned

/-- What is recorded was recorded before, or it is where it says. -/
theorem of_records (h : Steady N U g c) (ho : Onward g c g' c')
    (hu : g'.module.Underway HostCalls U')
    (hmemo : ∀ n info, g'.memo.get? n = some info →
      g.memo.get? n = some info ∨ info.addressable = true ∧ info.Fits g' c')
    (htemps : ∀ n info, g'.temps.get? n = some info →
      g.temps.get? n = some info ∨ info.addressable = false ∧ info.Fits g' c')
    (hlabels : ∀ n lbl, g'.labels.get? n = some lbl →
      g.labels.get? n = some lbl ∨ g'.module.reach.block lbl.target) : Steady N U' g' c' where
  standard := h.standard.extends ho.ext
  closed := h.closed.extends ho.ext
  underway := hu
  memo n info hn := by
    rcases hmemo n info hn with hold | hnew
    · obtain ⟨ha, hf⟩ := h.memo n info hold
      exact ⟨ha, ho.fits h.interned hf⟩
    · exact hnew
  temps n info hn := by
    rcases htemps n info hn with hold | hnew
    · obtain ⟨ha, hf⟩ := h.temps n info hold
      exact ⟨ha, ho.fits h.interned hf⟩
    · exact hnew
  labels n lbl hn := by
    rcases hlabels n lbl hn with hold | hnew
    · exact ho.later.bounds.block (h.labels n lbl hold)
    · exact hnew

/-- Another module and another heap, with the same results and labels. -/
theorem onward (h : Steady N U g c) (ho : Onward g c g' c') (hu : g'.module.Underway HostCalls U')
    (hmemo : g'.memo = g.memo) (htemps : g'.temps = g.temps) (hlabels : g'.labels = g.labels) :
    Steady N U' g' c' :=
  h.of_records ho hu (fun _ _ hn => Or.inl (hmemo ▸ hn)) (fun _ _ hn => Or.inl (htemps ▸ hn))
    fun _ _ hn => Or.inl (hlabels ▸ hn)

/-- A step of construction. -/
theorem builds (h : Steady N U g c) {x : Build α} {a : α} {m : Module}
    (hx : x g.module = (a, m)) (hl : Later g.module m) (hu : m.Underway HostCalls U')
    {Q : α → Generator → Catalogue → Prop}
    (hq : ∀ g', g'.module = m → Onward g c g' c → Steady N U' g' c → Q a g' c) :
    Advances (build x) g c Q := by
  have ho : Onward g c { g with module := m } c := ⟨.refl h.interned, hl⟩
  exact .of_ok (build_eq_ok hx) ho (hq _ rfl ho (h.onward ho hu rfl rfl rfl))

/-- A step of construction in the current block, with an answer. -/
theorem adds (h : Steady N (g.module.cur :: P) g c) {x : Build α} {Q : α → Bounds → Prop}
    (hx : ∃ a m, x g.module = (a, m) ∧ Builds HostCalls g.module m P ∧ Q a m.reach) :
    Advances (build x) g c fun a g' c' =>
      Steady N (g'.module.cur :: P) g' c' ∧ Q a g'.module.reach := by
  obtain ⟨a, m, hx, hb, hq⟩ := hx
  refine h.builds hx hb.later hb.underway fun g' hm _ hs => ?_
  rw [hm]
  exact ⟨hs, hq⟩

/-- A step of construction in the current block, without an answer. -/
theorem emits (h : Steady N (g.module.cur :: P) g c) {x : Build Unit}
    (hx : ∃ m, x g.module = ((), m) ∧ Builds HostCalls g.module m P) :
    Advances (build x) g c fun _ g' c' => Steady N (g'.module.cur :: P) g' c' := by
  obtain ⟨m, hx, hb⟩ := hx
  refine h.builds hx hb.later hb.underway fun g' hm _ hs => ?_
  rw [hm]
  exact hs

/-- A step that makes a type. -/
theorem makes (h : Steady N U g c) {x : HeapM α} {Q : α → Heap → Catalogue → Prop}
    (hx : Yields x g.heap (fun a h' => ∃ c', Heap.Extends g.heap c h' c' ∧ Q a h' c')
      fun _ _ => True) :
    Advances (onHeap x) g c fun a g' c' =>
      Steady N U g' c' ∧ g'.module = g.module ∧ Q a g'.heap c' := by
  unfold Yields at hx
  cases hrun : x g.heap with
  | ok a heap =>
    rw [hrun] at hx
    obtain ⟨c', hext, hq⟩ := hx
    have ho : Onward g c { g with heap } c' := ⟨hext, .refl _⟩
    exact .of_ok (onHeap_eq_ok hrun) ho ⟨h.onward ho h.underway rfl rfl rfl, rfl, hq⟩
  | error e heap =>
    have hfail : onHeap x g = .error (.fault e) { g with heap } := by
      simp only [onHeap, hrun]
    exact Yields.of_error hfail trivial

theorem sizeOf_eq (h : Steady N U g c) (ht : c.Knows t) :
    sizeOf t g = .ok (g.heap.width t) g :=
  sizeOf_known h.interned ht

/-- A field that refers to a node. -/
theorem child_eq (h : Steady N U g c) {n : Node} {tag : Tag} (hn : N n tag) {i : Nat}
    (hi : i < tag.schema.nodeFields) : ∃ k, child n i g = .ok k g ∧ OrNull N k := by
  obtain ⟨k, hk, hN⟩ := h.closed.field_eq h.interned.sized hn hi
  exact ⟨k, look_eq_ok hk, hN⟩

/-- A result in registers is as wide as its type. -/
theorem valueOf (h : Steady N (g.module.cur :: P) g c) (hf : info.Fits g c) :
    Advances (Compile.valueOf info) g c fun v g' c' =>
      Steady N (g'.module.cur :: P) g' c' ∧
        g'.module.reach.value v (g.heap.width info.type) := by
  unfold Compile.valueOf
  split
  · rename_i ha
    exact .read (h.sizeOf_eq hf.knows) (h.adds (Q := fun v B => B.value v _)
      (h.underway.load (hf.slot ha)))
  · rename_i ha
    exact .pure h.interned ⟨h, hf.value (by simpa using ha)⟩

/-! ### Results -/

/-- Recording a result in a slot. -/
theorem setMemo (h : Steady N U g c) (n : Node) (ha : info.addressable = true)
    (hf : info.Fits g c) (shadow : List ShadowEntry) :
    Steady N U { g with memo := g.memo.set n info, shadow } c := by
  refine h.of_records (.of_eq h.interned rfl rfl) h.underway (fun n' info' hn' => ?_)
    (fun _ _ => Or.inl) fun _ _ => Or.inl
  rcases Dict.get?_of_set hn' with rfl | hold
  · exact Or.inr ⟨ha, hf.of_eq rfl rfl⟩
  · exact Or.inl hold

/-- Recording a result in registers. -/
theorem setTemp (h : Steady N U g c) (n : Node) (ha : info.addressable = false)
    (hf : info.Fits g c) (shadow : List ShadowEntry) :
    Steady N U { g with temps := g.temps.set n info, shadow } c := by
  refine h.of_records (.of_eq h.interned rfl rfl) h.underway (fun _ _ => Or.inl)
    (fun n' info' hn' => ?_) fun _ _ => Or.inl
  rcases Dict.get?_of_set hn' with rfl | hold
  · exact Or.inr ⟨ha, hf.of_eq rfl rfl⟩
  · exact Or.inl hold

theorem setLabel (h : Steady N U g c) (n : Node) {lbl : LabelInfo}
    (hblock : g.module.reach.block lbl.target) :
    Advances (Compile.setLabel n lbl) g c fun _ g' c' =>
      Steady N U g' c' ∧ g'.module = g.module := by
  have ho : Onward g c { g with labels := g.labels.set n lbl } c := .of_eq h.interned rfl rfl
  refine .of_ok rfl ho ⟨h.of_records ho h.underway (fun _ _ => Or.inl) (fun _ _ => Or.inl)
    fun n' lbl' hn' => ?_, rfl⟩
  rcases Dict.get?_of_set hn' with rfl | hold
  · exact Or.inr hblock
  · exact Or.inl hold

theorem forget (h : Steady N U g c) (e : ShadowEntry) : Steady N U (Compile.forget g e) c := by
  unfold Compile.forget
  split
  · exact h.of_records (.of_eq h.interned rfl rfl) h.underway
      (fun _ _ hn => Or.inl (Dict.get?_of_erase hn)) (fun _ _ => Or.inl) fun _ _ => Or.inl
  · exact h.of_records (.of_eq h.interned rfl rfl) h.underway (fun _ _ => Or.inl)
      (fun _ _ hn => Or.inl (Dict.get?_of_erase hn)) fun _ _ => Or.inl

theorem forgetAll (h : Steady N U g c) (l : List ShadowEntry) :
    Steady N U (l.foldl Compile.forget g) c := by
  induction l generalizing g with
  | nil => exact h
  | cons e rest ih => exact ih (h.forget e)

theorem cut (h : Steady N U g c) (depth : Nat) : Steady N U (Compile.clear depth g) c := by
  have hall := h.forgetAll (g.shadow.take (g.shadow.length - depth))
  exact hall.onward (.of_eq hall.interned rfl rfl) hall.underway rfl rfl rfl

theorem clear (h : Steady N U g c) (depth : Nat) :
    Advances (clearStack depth) g c fun _ g' c' =>
      Steady N U g' c' ∧ g'.module = g.module := by
  obtain ⟨hheap, hmodule, -⟩ := forget_frame (g.shadow.take (g.shadow.length - depth)) g
  exact .of_ok (clearStack_eq depth g) (.of_eq h.interned hheap hmodule) ⟨h.cut depth, hmodule⟩

end Steady

/-! ### Delivering -/

section Finish

variable {site : Site} {v : Value} {t : Ty} {ct : Contract} {move : Bool}

end Finish

end Compile

end TreeMachine
