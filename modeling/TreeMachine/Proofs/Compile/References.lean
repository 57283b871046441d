import TreeMachine.Proofs.Code.Addresses
import TreeMachine.Proofs.Compile.Arithmetic

/-! # Reading variables

  A variable is a node with a slot that is known.  It is read by a copy of its slot or
  through a pointer to it.  Main statements: both leave the value of the variable in one
  register, and a pointer is the address of the slot.
-/

namespace TreeMachine.Compile

open Code (Module Value Program Frame Stands wrap Contains frameAddress)
open Code.Module (Emits)

variable {X : Type} {W : List Record} {node : X → Node} {place : X → Location}
  {g g' : Generator} {c c' : Catalogue} {R R' w : Nat} {site : Site}

/-! ### Copies -/

/-- A variable is loaded out of its slot. -/
theorem valueOf_slotted {n : Node} {at_ : Location} {info : Info} (h : Slotted g n at_)
    (hs : g.heap.Standard c) (ho : g.module.Open) (hc : g.module.registers = wrap R)
    (hinfo : g.memo.get? n = some info) :
    ∃ m', valueOf info g = .ok (Value.run R 1) { g with module := m' } ∧
      m'.slots = g.module.slots ∧
      Emits g.module R m' (R + 1) fun p f f' => ∃ v,
        f.words[p.start at_.slot + at_.off]? = some v ∧ f.Sets f' R [v] := by
  obtain ⟨info', hmemo, haddr, hloc, htype, -⟩ := h.memo
  cases hinfo.symm.trans hmemo
  obtain ⟨size, hsize, hle⟩ := h.room
  obtain ⟨m', hload, hslots, hcode⟩ := Module.load_emits ho hc hsize hle Nat.one_pos
  have hwords : sizeOf info.type g = .ok 1 g := sizeOf_eq hs htype
  refine ⟨m', ?_, hslots, hcode.imp ?_⟩
  · unfold valueOf
    rw [if_pos haddr, bind_eq_ok hwords, hloc]
    exact build_eq_ok hload
  · intro p S f f' hcon hf hdone
    obtain ⟨ws, hlen, hat, hsets⟩ := hdone
    obtain ⟨v, rfl⟩ := List.length_eq_one_iff.1 hlen
    exact ⟨v, Stands.single.1 hat, hsets⟩

/-- A copy of a variable. -/
theorem copy_outcome {gen : SubGen} {x : X} (h : AtSite W node place g c R site [])
    (hn : g.heap.arena.Owns site.node [Tag.copy.word, 0, node x]) :
    Outcome W place (.copy x) [site.node] site.degree.inner site.storage g c R
      (body gen site .copy) g := by
  have hbody : body gen site .copy g = reference site true g := rfl
  have hs := h.ready.standard
  have hvar := h.ready.vars x
  obtain ⟨info, hmemo, -, -, htype, hplain⟩ := hvar.memo
  obtain ⟨m', hvalue, hslots, hcode⟩ := valueOf_slotted hvar hs h.ready.opened h.ready.count hmemo
  have hchild : child site.node 0 g = .ok (node x) g := child_eq hs.sized hn rfl rfl
  refine Yields.congr hbody ?_
  unfold reference
  refine Yields.bind_ok hchild ?_
  rw [if_neg hvar.real]
  refine Yields.get_bind ?_
  rw [hmemo]
  refine Yields.bind_ok hvalue ?_
  have hm := (@Moves.refl g c [] hs.toInterned).setModule m'
  have hvol : (Expr.copy x).volume = 3 := by rw [Expr.volume]
  have hwidth : (Expr.copy x).width = some 1 := by rw [Expr.width]
  have hinteger : c.Integers g.heap.types.scalars.integer 1 info.type := htype
  refine h.finish hm h.ready.room hwidth hinteger hplain (by omega) (Nat.le_refl R) (Nat.le_refl _)
    (hcode.imp ?_) ⟨[], ?_, ?_⟩
  · intro p S f f' hcon hf hdone
    obtain ⟨v, hv, hsets⟩ := hdone
    refine ⟨hsets.keeps (Nat.le_refl R) _ _ _, ?_⟩
    intro env henv
    cases (henv x).symm.trans hv
    rw [Expr.eval]
    exact hsets.stands
  · show m'.slots.toList = _
    rw [hslots, List.append_nil]
  · rw [hvol]
    split <;> decide

/-! ### Pointers -/

/-- A pointer to a variable is generated as the address of its slot. -/
theorem pointer_generates {depth : Nat} {q : Node} {x : X} {at_ : Location}
    (hready : Ready W node place g c R) (hfresh : Fresh g [q])
    (hq : g.heap.arena.Owns q [Tag.pointer.word, 0, node x])
    (hW : .pointer g.heap.types.scalars.integer ∈ W) :
    ∃ info g' c', generate (depth + 1) q .value at_ g = .ok info g' ∧ Moves g c [q] g' c' ∧
      g'.heap.arena.Room (c'.lacking W) ∧ g'.module.slots = g.module.slots ∧
      (info.type, .pointer g.heap.types.scalars.integer) ∈ c' ∧ info.addressable = false ∧
      info.value = Value.run R 1 ∧
      Emits g.module R g'.module (R + 1) fun p f f' =>
        f.Sets f' R [frameAddress (p.start (place x).slot + (place x).off)] := by
  have hs := hready.standard
  have hvar := hready.vars x
  obtain ⟨info, hmemo, -, hloc, htype, hplain⟩ := hvar.memo
  obtain ⟨size, hsize, hle⟩ := hvar.room
  obtain ⟨m', haddress, hslots, hcode⟩ :=
    Module.address_emits hready.opened hready.count hsize (place x).off
  obtain ⟨t, h', c', hpointer, hext, hmem, hroom⟩ := hs.pointerTo_room hready.idle hready.room hW
  -- The state in which the pointer is generated, and the states after its two steps.
  let g₁ := entered q .value g
  let g₂ : Generator := { g₁ with module := m' }
  let g₃ : Generator := { g₂ with heap := h' }
  let site : Site := ⟨q, .value, storageOf .value at_ g, g.clock, g.shadow.length⟩
  have hs₃ : g₃.heap.Standard c' := hs.extends hext
  have hone : sizeOf t g₃ = .ok 1 g₃ := by
    have hpeek : look (·.size t) g₃ = .ok 1 g₃ :=
      look_eq_ok (hs₃.size_member hmem fun _ hms => by cases hms)
    rw [sizeOf, bind_eq_ok hpeek]
    rfl
  have hchild : child q 0 g₁ = .ok (node x) g₁ := child_eq (g := g₁) hs.sized hq rfl rfl
  have hbuild : build (Module.address info.loc.slot info.loc.off) g₁ = .ok (Value.run R 1) g₂ := by
    rw [hloc]
    exact build_eq_ok haddress
  have hmake : onHeap (Heap.pointerTo info.type) g₂ = .ok t g₃ := by
    rw [htype]
    exact onHeap_eq_ok hpointer
  let result : Info := ⟨Value.run R 1, ⟨0, 0⟩, t, g.clock, false, .pointingAt info.lifetime⟩
  let g₄ : Generator := { g₃ with
    temps := g₃.temps.set q result, shadow := ⟨q, false⟩ :: g₃.shadow }
  have hbody : body (generate depth) site .pointer g₁ = .ok result g₄ := by
    show reference site false g₁ = _
    unfold reference
    refine (bind_eq_ok hchild).trans ?_
    rw [if_neg hvar.real]
    refine get_bind_eq.trans ?_
    rw [show g₁.memo.get? (node x) = some info from hmemo]
    refine (bind_eq_ok hbuild).trans ((bind_eq_ok hmake).trans ?_)
    exact finish_value hone Nat.one_pos rfl
  refine ⟨result, { g₄ with active := g₄.active.erase q }, c', ?_, ?_, hroom, hslots, hmem, rfl,
    rfl, hcode⟩
  · rw [generate_enters hs.sized hq (hfresh q List.mem_cons_self).1]
    unfold whileActive
    rw [hbody]
  · have hm : Moves g₁ c [q] g₁ c := .refl hs.toInterned
    have hnode : site.node ∈ [q] := List.mem_cons_self
    have hm₃ := ((hm.setModule m').setHeap hext).recorded hnode g₃.memo
      (g₃.temps.set q result) false fun _ _ => rfl
    refine ⟨hm₃.ext, ?_, hm₃.labels, hm₃.memo, hm₃.shadow⟩
    show (q :: g.active).erase q = g.active
    exact List.erase_cons_head _ _

/-! ### Reads through pointers -/

/-- The integer type holds no addresses. -/
theorem holdsPointers_integer (hs : g.heap.Standard c) :
    g.heap.holdsPointers g.heap.types.scalars.integer = .ok false := by
  unfold Heap.holdsPointers Heap.depthBound Heap.holdsPointersWithin
  rw [except_bind_ok (hs.kind_eq hs.integer)]
  rfl

/-- An operand of any type that returns. -/
theorem operands_unchecked {gen : SubGen} {n q : Node} {i : Nat} {info : Info} {rest : List Param}
    (hchild : child n i g = .ok q g) (hne : q ≠ 0) (hgen : gen q .value nowhere g = .ok info g')
    (hreturns : info.type ≠ g'.heap.types.scalars.doesNotReturn) :
    operands gen n i (.unchecked :: rest) g
      = (do return (← operands gen n (i + 1) rest).map (info :: ·)) g' := by
  rw [operands]
  refine (bind_eq_ok hchild).trans ?_
  rw [if_neg hne]
  refine (bind_eq_ok hgen).trans ((bind_eq_ok (doesNotReturn_eq g')).trans ?_)
  rw [if_neg hreturns]

/-- A variable that is read through a pointer to it. -/
theorem load_outcome {depth : Nat} {x : X} {q : Node} (h : AtSite W node place g c R site [q])
    (hn : g.heap.arena.Owns site.node [Tag.load.word, 0, q])
    (hq : g.heap.arena.Owns q [Tag.pointer.word, 0, node x])
    (hW : ∀ r ∈ (Expr.load x).types g.heap.types.scalars.integer, r ∈ W) :
    Outcome W place (.load x) [site.node, q] site.degree.inner site.storage g c R
      (body (generate (depth + 1)) site .load) g := by
  have hs := h.ready.standard
  rw [Expr.types] at hW
  obtain ⟨info, g₁, c₁, hgen, hm₁, hroom₁, hslots₁, hmem, htemp, hvalue, hcode₁⟩ :=
    @pointer_generates X W node place g c R depth q x nowhere h.ready h.fresh hq
      (hW _ List.mem_cons_self)
  have hs₁ : g₁.heap.Standard c₁ := hs.extends hm₁.ext
  have hscalars := hm₁.ext.scalars_eq
  have hchild : child site.node 0 g = .ok q g := child_eq hs.sized hn rfl rfl
  have hreturns : info.type ≠ g₁.heap.types.scalars.doesNotReturn := by
    intro heq
    rw [heq] at hmem
    cases hs₁.valid.record_unique hmem hs₁.doesNotReturn
  have hkind : look (·.kind info.type) g₁ = .ok (some .pointer) g₁ := look_eq_ok (hs₁.kind_eq hmem)
  have helem : look (·.elem info.type) g₁ = .ok g.heap.types.scalars.integer g₁ :=
    look_eq_ok (hs₁.elem_eq hmem)
  have hsize : sizeOf g.heap.types.scalars.integer g₁ = .ok 1 g₁ := by
    rw [← hscalars]
    exact sizeOf_eq hs₁ rfl
  obtain ⟨size, hslot, hle⟩ := (h.ready.vars x).room
  obtain ⟨m₂, hload, hslots₂, hcode₂⟩ := Module.loadIndirect_emits hcode₁
    (i := fun p => p.start (place x).slot + (place x).off) (a := R) (by
      intro p S f f' hcon hf hsets
      have hroom := hcon.slot_room (by rw [hslots₁]; exact hslot) hle
      have htop := hcon.top ((place x).slot + 1)
      have hwords := hf.words
      exact ⟨Stands.single.1 hsets.stands, by omega⟩)
  have hbuild : build (Module.loadIndirect info.value 1) g₁
      = .ok (Value.run (R + 1) 1) { g₁ with module := m₂ } := by
    rw [hvalue]
    exact build_eq_ok hload
  have hholds : look (·.holdsPointers g.heap.types.scalars.integer) { g₁ with module := m₂ }
      = .ok false { g₁ with module := m₂ } := by
    rw [← hscalars]
    exact look_eq_ok (holdsPointers_integer hs₁)
  have hoperands : operands (generate (depth + 1)) site.node 0 Tag.load.schema.params g
      = .ok (some [info]) g₁ :=
    operands_unchecked hchild (Heap.owns_ne_zero hq) hgen hreturns
  unfold body
  refine Yields.bind_ok hoperands ?_
  show Yields (loadThrough site info) g₁ _ _
  unfold loadThrough
  refine Yields.bind_ok hkind ?_
  rw [if_neg (fun hne => hne rfl)]
  refine Yields.bind_ok helem (Yields.bind_ok (valueOf_temporary htemp g₁) (Yields.bind_ok hsize
    (Yields.bind_ok hbuild (Yields.bind_ok hholds ?_))))
  have hvol : (Expr.load x).volume = 3 := by rw [Expr.volume]
  have hwidth : (Expr.load x).width = some 1 := by rw [Expr.width]
  have hinteger : c₁.Integers g₁.heap.types.scalars.integer 1 g.heap.types.scalars.integer := by
    rw [hscalars]
    rfl
  refine h.finish (hm₁.setModule m₂) hroom₁ hwidth hinteger rfl (by omega) (Nat.le_add_right R 1)
    (Nat.le_refl _) (hcode₂.imp ?_) ⟨[], ?_, ?_⟩
  · intro p S f f' hcon hf hdone
    obtain ⟨f₁, v, hsets₁, hv, hsets₂⟩ := hdone
    have hkeeps := hsets₁.keeps (Nat.le_refl R) (p.start g.module.slots.size) 0 0
    refine ⟨hkeeps.trans_same (hsets₂.keeps (Nat.le_add_right R 1) _ _ _), ?_⟩
    intro env henv
    rw [hsets₁.words] at hv
    cases (henv x).symm.trans hv
    rw [Expr.eval]
    exact hsets₂.stands
  · show m₂.slots.toList = _
    rw [hslots₂, hslots₁, List.append_nil]
  · rw [hvol]
    split <;> decide

end TreeMachine.Compile
