import Mathlib.Data.List.Dedup
import TreeMachine.Image
import TreeMachine.Proofs.Code.Programs
import TreeMachine.Proofs.Compile.Trees

/-! # Compiling a root

  A root is generated in a slot of its own, and the function returns what the slot holds.
  Main statements: the result of a root becomes the result of its function, and a tree of
  plain nodes is compiled if and only if it is well typed, into a function that returns the
  words of its evaluation.
-/

namespace TreeMachine.Compile

open Code (Module Value Program Frame Stands wrap Contains)
open Code.Module (Emits)

variable {X : Type} {W : List Record} {node : X → Node} {place : X → Location}
  {g g' : Generator} {c c' : Catalogue} {R R' w : Nat} {e : Expr X} {n root : Node} {ns : List Node}
  {h : Heap}

/-! ### Trees fit the depth bound -/

mutual
/-- The nodes of a tree are records in the arena. -/
theorem Expr.Spells.owns {e : Expr X} {n : Node} {ns : List Node} (hs : Expr.Spells h node e n ns) :
    ∀ k ∈ ns, ∃ w ws, h.arena.Owns k (w :: ws) := by
  cases e with
  | null =>
    obtain ⟨-, rfl⟩ := hs
    exact fun k hk => by cases hk
  | literal w =>
    obtain ⟨rfl, object, hn, -⟩ := hs
    exact List.forall_mem_singleton.2 ⟨_, _, hn⟩
  | zero =>
    obtain ⟨rfl, hn⟩ := hs
    exact List.forall_mem_singleton.2 ⟨_, _, hn⟩
  | copy x =>
    obtain ⟨rfl, hn⟩ := hs
    exact List.forall_mem_singleton.2 ⟨_, _, hn⟩
  | load x =>
    obtain ⟨q, rfl, hn, hq⟩ := hs
    exact List.forall_mem_cons.2 ⟨⟨_, _, hn⟩, List.forall_mem_singleton.2 ⟨_, _, hq⟩⟩
  | step op a =>
    obtain ⟨n₁, ns₁, rfl, hn, ha⟩ := hs
    exact List.forall_mem_cons.2 ⟨⟨_, _, hn⟩, ha.owns⟩
  | arith op a b =>
    obtain ⟨n₁, n₂, ns₁, ns₂, rfl, hn, ha, hb⟩ := hs
    exact List.forall_mem_cons.2 ⟨⟨_, _, hn⟩, List.forall_mem_append.2 ⟨ha.owns, hb.owns⟩⟩
  | cond a t e =>
    obtain ⟨n₁, n₂, n₃, ns₁, ns₂, ns₃, rfl, hn, ha, ht, he⟩ := hs
    exact List.forall_mem_cons.2 ⟨⟨_, _, hn⟩,
      List.forall_mem_append.2 ⟨List.forall_mem_append.2 ⟨ha.owns, ht.owns⟩, he.owns⟩⟩
  | concat a b =>
    obtain ⟨n₁, n₂, ns₁, ns₂, rfl, hn, ha, hb⟩ := hs
    exact List.forall_mem_cons.2 ⟨⟨_, _, hn⟩, List.forall_mem_append.2 ⟨ha.owns, hb.owns⟩⟩
  | block es =>
    obtain ⟨vec, elems, ns₁, rfl, hn, hes, -⟩ := hs
    exact List.forall_mem_cons.2 ⟨⟨_, _, hn⟩, hes.owns⟩

theorem Expr.SpellsAll.owns {es : List (Expr X)} {elems ns : List Node}
    (hs : Expr.SpellsAll h node es elems ns) : ∀ k ∈ ns, ∃ w ws, h.arena.Owns k (w :: ws) := by
  cases es with
  | nil =>
    obtain ⟨-, rfl⟩ := hs
    exact fun k hk => by cases hk
  | cons e es =>
    obtain ⟨n, rest, ns₁, ns₂, -, rfl, he, hes⟩ := hs
    exact List.forall_mem_append.2 ⟨he.owns, hes.owns⟩
end

/-- There are no more distinct records than words. -/
theorem length_le_depthBound (howns : ∀ k ∈ ns, ∃ w ws, h.arena.Owns k (w :: ws))
    (hnodup : ns.Nodup) : ns.length ≤ h.depthBound := by
  have hinj : (ns.map UInt64.toNat).Nodup :=
    hnodup.map fun a b hab => UInt64.toNat_inj.1 hab
  have hsub : ns.map UInt64.toNat ⊆ List.range h.arena.words.size := by
    intro i hi
    obtain ⟨k, hk, rfl⟩ := List.mem_map.1 hi
    obtain ⟨w, ws, hk⟩ := howns k hk
    have hin := hk.inside
    rw [List.length_cons] at hin
    exact List.mem_range.2 (by omega)
  have hle := (List.subperm_of_subset hinj hsub).length_le
  rw [List.length_map, List.length_range] at hle
  unfold Heap.depthBound
  omega

/-! ### The result of a root -/

/-- What follows once a root is generated. -/
def rootEnd (info : Info) : Gen Ty := do
  let mut v := Value.void
  if 0 < (← sizeOf info.type) then v ← valueOf info
  build (Module.ret v)
  let _ ← look (·.typeText info.type)
  return info.type

theorem generateRoot_eq (hroot : root ≠ 0) :
    generateRoot root g = (do
      let info ← generate g.heap.depthBound root .ownSlot nowhere
      rootEnd info) g := by
  unfold generateRoot
  rw [if_neg hroot]
  rfl

/-- A result in a slot becomes the result of the function. -/
theorem rootEnd_eq {info : Info} {at_ : Location} (hs : g.heap.Standard c)
    (ht : c.Integers g.heap.types.scalars.integer w info.type) (ho : g.module.Open)
    (hcount : g.module.registers = wrap R)
    (hloc : 0 < w → info.addressable = true ∧ info.loc = at_ ∧
      ∃ size, g.module.slots[at_.slot]? = some size ∧ (at_.off + w : Nat) ≤ size) :
    ∃ m, rootEnd info g = .ok info.type { g with module := m.returning (Value.run R w) } ∧
      m.slots = g.module.slots ∧
      Emits g.module R m (R + w) fun p f f' => ∀ ws, ws.length = w →
        Stands f.words (p.start at_.slot + at_.off) ws → Stands f'.regs R ws := by
  obtain ⟨text, htext⟩ := hs.integers_text ht
  have hsize := sizeOf_eq hs ht
  -- The return and the check of the type, with the value at hand.
  have hrest : ∀ m : Module, m.Open → (do
      build (Module.ret (Value.run R w))
      let _ ← look (·.typeText info.type)
      return info.type : Gen Ty) { g with module := m }
        = .ok info.type { g with module := m.returning (Value.run R w) } := by
    intro m hm
    have hlook : look (·.typeText info.type) { g with module := m.returning (Value.run R w) }
        = .ok text { g with module := m.returning (Value.run R w) } := look_eq_ok htext
    rw [bind_eq_ok (build_eq_ok (Module.ret_eq hm)), bind_eq_ok hlook]
    rfl
  unfold rootEnd
  by_cases hw : 0 < w
  · obtain ⟨haddr, hat, size, hslot, hle⟩ := hloc hw
    obtain ⟨m, hload, hslots, hcode⟩ := Module.load_emits ho hcount hslot hle hw
    have hvalue : valueOf info g = .ok (Value.run R w) { g with module := m } := by
      unfold valueOf
      rw [if_pos haddr, bind_eq_ok hsize, hat]
      exact build_eq_ok hload
    refine ⟨m, ?_, hslots, hcode.imp ?_⟩
    · refine (bind_eq_ok hsize).trans ?_
      rw [if_pos hw]
      exact (bind_eq_ok hvalue).trans (hrest m hcode.opened)
    · intro p S f f' hcon hf hdone ws hlen hws
      obtain ⟨ws', hlen', hws', hsets⟩ := hdone
      rw [hws.eq hws' (by rw [hlen, hlen'])]
      exact hsets.stands
  · have hzero : w = 0 := by omega
    subst hzero
    refine ⟨g.module, ?_, rfl, (Emits.refl ho hcount).imp ?_⟩
    · refine (bind_eq_ok hsize).trans ?_
      rw [if_neg hw]
      exact hrest g.module ho
    · intro p S f f' hcon hf hsame ws hlen hws
      rw [List.eq_nil_of_length_eq_zero hlen]
      exact Stands.nil _ _

/-! ### Loading the function -/

/-- The image with a program more. -/
def loaded (image : Image) (heap : Heap) (p : Program) : Image :=
  { image with heap, machine := (image.machine.install p).2 }

theorem program?_install (machine : Machine) (p : Program) :
    (machine.install p).2.program? (machine.install p).1 = some p := by
  simp [Machine.install, Machine.program?]

/-- A root that is generated becomes a function. -/
theorem build_of_generateRoot {image : Image} {t : Ty}
    (hrun : generateRoot root (.start image.heap s!"fn_{root}") = .ok t g)
    (hclosed : g.module.closed = false) (herror : g.module.error = none) :
    Image.build root image = .ok (⟨root, t, 0, (image.machine.install g.module.finished).1,
      some (.issued (image.machine.install g.module.finished).1)⟩, g.module)
      (loaded image g.heap g.module.finished) := by
  obtain ⟨m', hfinal⟩ := Module.finalize_eq hclosed herror
  have hcompile : Image.onHeap (compileModule root) image
      = .ok (g.module, t) { image with heap := g.heap } := by
    unfold Image.onHeap compileModule
    simp only [hrun]
  unfold Image.build
  refine (bind_eq_ok hcompile).trans ?_
  dsimp only
  rw [hfinal]
  rfl

/-! ### Closed trees -/

/-- The value of an expression without variables. -/
def Expr.value (e : Expr Empty) : List UInt64 := e.eval Empty.elim

/-- The code of a whole tree. -/
structure Rooted (e : Expr Empty) (h : Heap) (c : Catalogue) (name : String) (t : Ty)
    (g : Generator) (w : Nat) (c' : Catalogue) (m : Module) (R : Nat) : Prop where
  width : e.width = some w
  ext : Heap.Extends h c g.heap c'
  type : c'.Integers g.heap.types.scalars.integer w t
  module : g.module = m.returning (Value.run R w)
  few : R ≤ e.volume
  slots : m.slots.toList.sum ≤ e.volume
  code : Emits (.create name) 0 m (R + w) fun _ _ f' => Stands f'.regs R e.value

theorem start_ready (hs : h.Standard c) (hidle : h.arena.collecting = false)
    (hroom : h.arena.Room (c.lacking W)) (name : String) (node : Empty → Node)
    (place : Empty → Location) : Ready W node place (.start h name) c 0 where
  standard := hs
  idle := hidle
  room := hroom
  opened := ⟨⟨_, rfl, rfl⟩, rfl, rfl, rfl, fun k size hk => by
    simp [Generator.start, Module.create] at hk⟩
  count := rfl
  vars x := x.elim

/-- A tree is generated as the body of a function, or it has no width. -/
theorem generateRoot_yields {e : Expr Empty} (hs : h.Standard c)
    (hidle : h.arena.collecting = false)
    (hroom : h.arena.Room (c.lacking (e.types h.types.scalars.integer).dedup))
    (hspell : Expr.Spells h Empty.elim e root ns) (hnodup : ns.Nodup) (hroot : root ≠ 0)
    (name : String) :
    Yields (generateRoot root) (.start h name)
      (fun t g => ∃ w c' m R, Rooted e h c name t g w c' m R) fun _ _ => e.width = none := by
  have hready := start_ready hs hidle hroom name Empty.elim Empty.elim
  have hlen := length_le_depthBound hspell.owns hnodup
  have hfresh : Fresh (.start h name) ns := fun n _ => ⟨List.not_mem_nil, rfl⟩
  have hworks := works e hlen hnodup _ c 0 .ownSlot nowhere hready hspell hfresh
    (fun r hr => List.mem_dedup.2 hr) fun hd => by cases hd
  refine Yields.congr (generateRoot_eq hroot) (Yields.bind (hworks.mono ?_ fun _ _ hnone => hnone))
  intro info g hset
  obtain ⟨w, c', R, hset⟩ := hset
  have hs' : g.heap.Standard c' := hs.extends hset.moves.ext
  have hown : InOwnSlot _ _ _ _ _ _ _ _ := hset.delivered
  obtain ⟨hloc, -, hcode, new, hnew, hsum⟩ := hown
  have hloc' : 0 < w → info.addressable = true ∧ info.loc = ⟨0, 0⟩ ∧
      ∃ size : Int, g.module.slots[0]? = some size ∧ (0 + w : Nat) ≤ size := by
    intro hw
    obtain ⟨haddr, hat, size, hsize, hle⟩ := hloc hw
    exact ⟨haddr, hat, size, hsize, by omega⟩
  obtain ⟨m, hend, hslots, hret⟩ := rootEnd_eq hs' hset.type hcode.opened hcode.count hloc'
  have hfew := hset.few
  refine Yields.of_ok hend
    ⟨w, c', m, R, hset.width, hset.moves.ext, hset.type, rfl, by omega, ?_, ?_⟩
  · rw [hslots, hnew]
    exact hsum
  · refine (hcode.trans hret).imp ?_
    intro p S f f' hcon hf hdone
    obtain ⟨f₁, -, ⟨-, hvalue⟩, hregs⟩ := hdone
    exact hregs _ (e.length_eval _ hset.width) (hvalue Empty.elim fun x => x.elim)

end TreeMachine.Compile
