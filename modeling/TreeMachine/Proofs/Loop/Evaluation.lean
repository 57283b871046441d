import TreeMachine.Proofs.Compile.Evaluation
import TreeMachine.Proofs.Loop.Passes
import TreeMachine.Proofs.Modules.Loads
import TreeMachine.Proofs.Pool.Slots
import TreeMachine.Proofs.Source.Printing
import TreeMachine.Proofs.Types.History

/-! # Evaluating a loop

  Main statement: on an engine with room for it, the text of a loop evaluates to the value of
  its result after as many passes as the budget allows invocations and jumps back.
-/

namespace TreeMachine

open Code (Host Run)
open Compile (HostName)

/-! ### The function pool -/

/-- Some slot is free. -/
def Pool.HasRoom (p : Pool) : Prop := ∃ i, i + 1 < 2 ^ 64 ∧ p.slots[i]? = some none

/-- A function that is stored is found under its number. -/
theorem Pool.allocate_eq {p : Pool} (h : p.HasRoom) (f : Function) :
    ∃ id p', Pool.allocate f p = .ok id p' ∧ p'.get? id = some f := by
  obtain ⟨i, hi, hnone⟩ := h
  cases hfind : p.lowestFree with
  | none => exact absurd hnone (Pool.lowestFree_eq_none hfind i)
  | some k =>
    obtain ⟨hfree, hbefore⟩ := Pool.lowestFree_eq_some hfind
    have hle : k ≤ i := by
      by_contra hgt
      exact hbefore i (by omega) hnone
    have hid : (UInt64.ofNat (k + 1)).toNat = k + 1 := by
      rw [UInt64.toNat_ofNat']
      omega
    refine ⟨_, _, Pool.allocate_eq_ok hfind f, ?_⟩
    rw [Pool.get?_put (Array.getElem?_eq_some_iff.1 hfree).1, if_pos hid]

/-! ### Printing a loop -/

namespace Loop

open Source (Printable)

variable {k : Nat} {L : Loop k} {h : Heap} {c : Catalogue} {root l j y : Node} {x : Fin k → Node}
  {ss ns : List Node}

/-- An expression over integers can be printed. -/
theorem spells_printable {node : Fin k → Node} (hx : ∀ i, Printable h 0 (node i))
    {e : WordExpr (Fin k)} {n : Node} (hs : Compile.Expr.Spells h node e.expr n ns) :
    Printable h ns.length n := by
  induction e generalizing n ns with
  | literal w =>
    obtain ⟨rfl, object, hn, hobject⟩ := hs
    exact .number _ hn hobject
  | zero =>
    obtain ⟨rfl, hn⟩ := hs
    exact .node hn rfl (by decide) (by decide) fun m hm => by cases hm
  | step op a ih =>
    obtain ⟨n₁, ns₁, rfl, hn, ha⟩ := hs
    refine .node hn (by cases op <;> rfl) (by cases op <;> decide) (by cases op <;> decide) ?_
    exact List.forall_mem_singleton.2 (ih ha)
  | arith op a b iha ihb =>
    obtain ⟨n₁, n₂, ns₁, ns₂, rfl, hn, ha, hb⟩ := hs
    refine .node hn (by cases op <;> rfl) (by cases op <;> decide) (by cases op <;> decide) ?_
    exact List.forall_mem_cons.2 ⟨(iha ha).mono (by simp),
      List.forall_mem_singleton.2 ((ihb hb).mono (by simp))⟩
  | cond a t e iha iht ihe =>
    obtain ⟨n₁, n₂, n₃, ns₁, ns₂, ns₃, rfl, hn, ha, ht, he⟩ := hs
    refine .node hn rfl (by decide) (by decide) ?_
    have hlen : (ns₁ ++ ns₂ ++ ns₃).length = ns₁.length + ns₂.length + ns₃.length := by
      simp [Nat.add_assoc]
    exact List.forall_mem_cons.2 ⟨(iha ha).mono (by omega), List.forall_mem_cons.2
      ⟨(iht ht).mono (by omega), List.forall_mem_singleton.2 ((ihe he).mono (by omega))⟩⟩
  | copy i =>
    obtain ⟨rfl, hn⟩ := hs
    exact .node hn rfl (by decide) (by decide) (List.forall_mem_singleton.2 (hx i))
  | load i =>
    obtain ⟨q, rfl, hn, hq⟩ := hs
    refine .node hn rfl (by decide) (by decide) (List.forall_mem_singleton.2 ?_)
    exact .node hq rfl (by decide) (by decide) (List.forall_mem_singleton.2 (hx i))

/-- A loop can be printed. -/
theorem Laid.printable (hlaid : L.Laid h root x l ss ns j y) (hs : h.Standard c) :
    Printable h (ns.length + 3) root := by
  obtain ⟨vec, hroot, capacity, hvec⟩ := hlaid.block
  have hx : ∀ i, Printable h 0 (x i) := by
    intro i
    obtain ⟨object, hn, hobject⟩ := hlaid.vars i
    exact .number 0 hn hobject
  have hlabel : Printable h 1 l :=
    .node hlaid.label rfl (by decide) (by decide) (List.forall_mem_singleton.2 (.null 0))
  have hbody : ∀ {as : List (Fin k × WordExpr (Fin k))} {ss ns : List Node},
      AssignsAll h x as ss ns → ∀ n ∈ ss, Printable h (ns.length + 2) n := by
    intro as
    induction as with
    | nil =>
      rintro ss ns ⟨rfl, -⟩ n hn
      cases hn
    | cons a as ih =>
      rintro _ _ ⟨n, ss, ns₁, ns₂, rfl, rfl, ⟨q, e, ns, rfl, hn, hq, hspell⟩, hrest⟩
      refine List.forall_mem_cons.2 ⟨?_, fun m hm => (ih hrest m hm).mono (by simp; omega)⟩
      have hpointer : Printable h 1 q :=
        .node hq rfl (by decide) (by decide) (List.forall_mem_singleton.2 (hx a.1))
      have hstore : Printable h (ns.length + 1 + 1) n :=
        .node hn rfl (by decide) (by decide) (List.forall_mem_cons.2 ⟨hpointer.mono (by omega),
          List.forall_mem_singleton.2 ((spells_printable hx hspell).mono (by omega))⟩)
      exact hstore.mono (by simp; omega)
  have hjump : Printable h 2 j :=
    .node hlaid.jump rfl (by decide) (by decide) (List.forall_mem_cons.2 ⟨hlabel,
      List.forall_mem_cons.2 ⟨.null 1, List.forall_mem_singleton.2 (.null 1)⟩⟩)
  have hcopy : Printable h 1 y :=
    .node hlaid.copy rfl (by decide) (by decide) (List.forall_mem_singleton.2 (hx L.result))
  refine .block (d := ns.length + 2) hroot
    (Heap.elements_eq hs.sized hroot (Or.inr ⟨capacity, hvec⟩)) ?_
  intro n hn
  simp only [List.mem_append, List.mem_ofFn, List.mem_cons, List.not_mem_nil, or_false] at hn
  rcases hn with ⟨i, rfl⟩ | rfl | hn | rfl | rfl
  · exact (hx i).mono (Nat.zero_le _)
  · exact hlabel.mono (by omega)
  · exact hbody hlaid.body n hn
  · exact hjump.mono (by omega)
  · exact hcopy.mono (by omega)

end Loop

/-! ### The steps of an evaluation -/

namespace Engine

variable {e : Engine} {c : Catalogue}

/-- Spending is granted as often as units are left. -/
theorem grants_spend (run : UInt64 → EngineM Boxed) (e : Engine) {B : Nat} (hB : B < 2 ^ 64) :
    Compile.Grants (host run) (fun b => { e with remaining := UInt64.ofNat b }) B := by
  refine ⟨fun _ => spend, rfl, fun b hb => ?_, rfl⟩
  have hne : UInt64.ofNat (b + 1) ≠ 0 := by
    intro heq
    have := congrArg UInt64.toNat heq
    rw [UInt64.toNat_ofNat', UInt64.toNat_zero] at this
    omega
  have hpred : UInt64.ofNat (b + 1) - 1 = UInt64.ofNat b := by
    rw [UInt64.ofNat_add]
    exact UInt64.add_sub_cancel _ _
  show (if UInt64.ofNat (b + 1) = 0 then _ else _ : EStateM.Result _ _ _) = _
  rw [if_neg hne]
  dsimp only
  rw [hpred]

/-- The engine with another heap. -/
def withHeap (e : Engine) (h : Heap) : Engine := { e with image := { e.image with heap := h } }

theorem onHeap_eq_ok {ε α : Type} {x : EStateM ε Heap α} {a : α} {h : Heap}
    (hx : x e.image.heap = .ok a h) : onHeap x e = .ok a (e.withHeap h) := by
  obtain ⟨options, ⟨heap, machine, pool, collector⟩, random, remaining⟩ := e
  simp only [onHeap, onImage, Image.onHeap] at hx ⊢
  rw [hx]
  rfl

theorem change_eq_ok {ε α : Type} {x : HeapM α} {a : α} {h : Heap} (hx : x e.image.heap = .ok a h) :
    (change x : EStateM (Stop ε) Engine α) e = .ok a (e.withHeap h) :=
  lift_eq_ok (onHeap_eq_ok hx)

theorem look_eq_ok {ε α : Type} {f : Heap → Except Fault α} {a : α} (hf : f e.image.heap = .ok a) :
    (look f : EStateM (Stop ε) Engine α) e = .ok a e := by
  simp only [look, hf]

/-- Boxing an integer. -/
theorem box_integer (hs : e.image.heap.Standard c) (hidle : e.image.heap.arena.collecting = false)
    (hroom : e.image.heap.arena.Room 1) (w : UInt64) :
    ∃ d h, box e.image.heap.types.scalars.integer [w] e = .ok d (e.withHeap h) ∧
      d.type = e.image.heap.types.scalars.integer ∧ e.image.heap.Fills h 0 ∧
      (e.withHeap h).words d = .ok [w] := by
  have hsize : e.image.heap.size e.image.heap.types.scalars.integer = .ok 1 :=
    (hs.size_integers (w := 1) rfl).1
  obtain ⟨object, h₁, halloc, hf₁, hm₁⟩ := Heap.allocate_fills (k := 0) hs.sound hidle 1
    (by decide) hroom
  obtain ⟨-, hf₂, hm₂⟩ := hf₁.setWord hm₁ (i := 0) (by decide) (Nat.add_zero _).symm w
  have hset : Heap.setWords object [w] h₁ = .ok () (h₁.written object.toNat [w]) :=
    Heap.onArena_ok (Arena.setWords_eq_ok hf₁.sound.sized hm₁.pos hm₁.inside)
  let h₂ := h₁.written object.toNat [w]
  refine ⟨⟨e.image.heap.types.scalars.integer, object⟩, h₂, ?_, rfl, hf₂, ?_⟩
  · unfold box
    refine (bind_eq_ok (look_eq_ok hsize)).trans ?_
    rw [if_neg (fun hne => hne rfl), if_neg (by decide)]
    refine (bind_eq_ok (change_eq_ok halloc)).trans ?_
    exact bind_eq_ok (change_eq_ok (e := e.withHeap h₁) hset)
  · have hsize₂ : h₂.size e.image.heap.types.scalars.integer = .ok 1 := by
      have hs₂ := hf₂.standard hs
      have hint := (hs₂.size_integers (w := 1) rfl).1
      rw [hf₂.types] at hint
      exact hint
    have hne : ¬ ((1 : UInt64) = 0 ∨ object = 0) := by
      rintro (h0 | h0)
      · cases h0
      · exact Heap.owns_ne_zero hm₂.toOwns h0
    unfold words
    refine (except_bind_ok (show (e.withHeap h₂).image.heap.size _ = .ok 1 from hsize₂)).trans ?_
    rw [if_neg hne]
    exact hm₂.toHolds.slice hf₂.sound.sized rfl

section Loops

variable {k : Nat} {L : Loop k} {root l j y : Node} {x : Fin k → Node} {ss ns : List Node}
  {W : List Record}

/-- A loop that stands in the heap is compiled into a program that does its passes. -/
theorem compile_loop (hs : e.image.heap.Standard c) (hidle : e.image.heap.arena.collecting = false)
    (hroom : e.image.heap.arena.Room (c.lacking W))
    (hW : .pointer e.image.heap.types.scalars.integer ∈ W) (hpool : e.image.pool.HasRoom)
    (hlaid : L.Laid e.image.heap root x l ss ns j y) (hmemory : L.cost ≤ Arena.maxWords.toNat) :
    ∃ id e' c' f p, compile root e = .ok id e' ∧
      Heap.Extends e.image.heap c e'.image.heap c' ∧ e'.image.heap.arena.Room (c'.lacking W) ∧
      e'.options = e.options ∧ e'.image.pool.get? id = some f ∧
      f.returnType = e.image.heap.types.scalars.integer ∧
      e'.image.machine.program? f.entry = some p ∧
      ∀ {σ : Type} (host : Host σ) (world : Nat → σ) (b fuel : Nat),
        Compile.Grants host world b → (p.blocks.size + 1) * (b + 1) ≤ fuel →
          p.run host fuel (world b) = .ok [L.answer (b + 1)] (world 0) := by
  obtain ⟨g, c', mL, t, mB, RB, n, mE, RE, r, hrun, hext, hroom', hmodule, hcoded⟩ :=
    Compile.generateRoot_coded hs hidle hroom hW hlaid s!"fn_{root}"
  have hopened := hcoded.leaves.opened
  have hclosed : g.module.closed = false := by
    rw [hmodule]
    exact hopened.closed
  have herror : g.module.error = none := by
    rw [hmodule]
    exact hopened.error
  have hbuild := Compile.build_of_generateRoot hrun hclosed herror
  let machine := e.image.machine
  let f : Function := ⟨root, e.image.heap.types.scalars.integer, 0,
    (machine.install g.module.finished).1, some (.issued (machine.install g.module.finished).1)⟩
  obtain ⟨id, pool, halloc, hget⟩ := Pool.allocate_eq hpool f
  let image : Image := { Compile.loaded e.image g.heap g.module.finished with pool }
  have himage : Image.compile root e.image = .ok id image := by
    unfold Image.compile
    refine (bind_eq_ok hbuild).trans ?_
    have hlift : (liftM (Pool.allocate f) : EStateM (Stop Compile.CompileError) Pool UInt64)
        e.image.pool = .ok id pool := lift_eq_ok halloc
    show Image.onPool (liftM (Pool.allocate f) : EStateM (Stop Compile.CompileError) Pool UInt64)
      (Compile.loaded e.image g.heap g.module.finished) = _
    simp only [Image.onPool, Compile.loaded, hlift]
    rfl
  have hmapped : (mapStop EngineError.compile (onImage (Image.compile root)) : EngineM UInt64) e
      = .ok id { e with image } := by
    simp only [mapStop, onImage, himage]
  refine ⟨id, { e with image }, c', f, g.module.finished, ?_, hext, hroom', rfl, hget, rfl,
    Compile.program?_install machine g.module.finished, ?_⟩
  · unfold compile
    rw [get_bind_eq]
    by_cases htrace : e.options.trace = true
    · -- Writing the program out first does not fail.
      obtain ⟨depth, hdepth, hlen⟩ := Compile.laid_depth hlaid
      obtain ⟨text, hprint⟩ := (hlaid.printable hs).print_ok hs (by omega)
      rw [if_pos htrace]
      exact (bind_eq_ok (look_eq_ok hprint)).trans hmapped
    · rw [if_neg htrace]
      exact hmapped
  · intro σ host world b fuel hgrants hfuel
    rw [hmodule] at hfuel ⊢
    exact hcoded.run hmemory hgrants (Nat.le_refl b) hfuel

/-- Running a function that does the passes of a loop. -/
theorem run_loop {id : UInt64} {f : Function} {p : Code.Program} (hs : e.image.heap.Standard c)
    (hidle : e.image.heap.arena.collecting = false) (hroom : e.image.heap.arena.Room 1)
    (hbudget : e.options.finiteness ≠ 0) (hget : e.image.pool.get? id = some f)
    (htype : f.returnType = e.image.heap.types.scalars.integer)
    (hprogram : e.image.machine.program? f.entry = some p)
    (hpasses : ∀ {σ : Type} (host : Host σ) (world : Nat → σ) (b fuel : Nat),
      Compile.Grants host world b → (p.blocks.size + 1) * (b + 1) ≤ fuel →
        p.run host fuel (world b) = .ok [L.answer (b + 1)] (world 0)) :
    ∃ d e', run id e = .ok d e' ∧ d.type = e.image.heap.types.scalars.integer ∧
      e'.words d = .ok [L.answer e.options.finiteness.toNat] := by
  obtain ⟨b, hb⟩ : ∃ b, e.options.finiteness.toNat = b + 1 := by
    refine ⟨e.options.finiteness.toNat - 1, ?_⟩
    have : e.options.finiteness.toNat ≠ 0 := fun h0 => hbudget (UInt64.toNat.inj h0)
    omega
  have hlt : b + 1 < 2 ^ 64 := hb ▸ e.options.finiteness.toNat_lt
  have hpred : e.options.finiteness - 1 = UInt64.ofNat b := by
    rw [← UInt64.ofNat_toNat (x := e.options.finiteness), hb, UInt64.ofNat_add]
    exact UInt64.add_sub_cancel _ _
  -- The invocation spends one unit, and the passes spend the rest.
  let world : Nat → Engine := fun b => { e with remaining := UInt64.ofNat b }
  have hinvoke : invoke (runWithin b) f.entry (world b) = .ok [L.answer (b + 1)] (world 0) := by
    rw [invoke_eq (e := world b) hprogram]
    refine hpasses _ world b _ (grants_spend _ e (Nat.lt_of_succ_lt hlt)) ?_
    show _ ≤ blockBound p (UInt64.ofNat b)
    rw [blockBound, UInt64.toNat_ofNat', Nat.mod_eq_of_lt (Nat.lt_of_succ_lt hlt)]
  obtain ⟨d, h, hbox, hd, hfills, hwords⟩ :=
    @box_integer (world 0) c hs hidle hroom (L.answer (b + 1))
  refine ⟨d, (world 0).withHeap h, ?_, hd, by rw [hb]; exact hwords⟩
  let e₁ : Engine := { e with remaining := e.options.finiteness }
  have hwithin : runWithin (b + 1) id e₁ = .ok d ((world 0).withHeap h) := by
    have hcharged : e₁.charged = world b := by
      show { e with remaining := e.options.finiteness - 1 } = world b
      rw [hpred]
    have hran : mapStop (EngineError.running id) (invoke (runWithin b) f.entry) (world b)
        = .ok [L.answer (b + 1)] (world 0) := mapStop_eq_ok hinvoke
    rw [runWithin_succ (e := e₁) hget hbudget, hcharged, bind_eq_ok hran, htype]
    exact hbox
  rw [run_eq, hb]
  exact hwithin

end Loops

/-- The records that a loop asks for are at most that of pointers to integers.  No catalogue
    has a concatenation of nothing, so its words are spare whatever else is made. -/
def loopRecords (int : Ty) : List Record := [.pointer int, .concat []]

theorem loopRecords_lacking (int : Ty) (c : Catalogue) : c.lacking (loopRecords int) ≤ 4 :=
  c.lacking_le _

theorem one_le_loopRecords_lacking (int : Ty) {c : Catalogue} (hv : c.Valid) :
    1 ≤ c.lacking (loopRecords int) := by
  have hnew : Record.concat [] ∉ c.records := by
    intro hmem
    obtain ⟨⟨t, _⟩, he, rfl⟩ := List.mem_map.1 hmem
    exact absurd (hv.admits he).1 (by decide)
  have hmem : Record.concat [] ∈ loopRecords int := List.mem_cons_of_mem _ List.mem_cons_self
  exact Nat.le_trans (by decide) (Catalogue.length_le_lacking hmem hnew)

/-- The text of a loop evaluates to an integer: the value of its result after as many passes
    as the finiteness allows invocations and jumps back.  `Loop.says_text` writes such a
    text. -/
theorem evalText_loop {k : Nat} {L : Loop k} {text : List UInt8} (hL : L.Proper)
    (htext : Source.Says text L.lexemes) (hs : e.image.heap.Standard c)
    (hidle : e.image.heap.arena.collecting = false)
    (hroom : e.image.heap.arena.Room (L.cost + 4)) (hpool : e.image.pool.HasRoom)
    (hbudget : e.options.finiteness ≠ 0) :
    ∃ d e', evalText text e = .ok d e' ∧ d.type = e.image.heap.types.scalars.integer ∧
      e'.words d = .ok [L.answer e.options.finiteness.toNat] := by
  let int := e.image.heap.types.scalars.integer
  have hmemory : L.cost ≤ Arena.maxWords.toNat := by
    obtain ⟨r, hr, hle⟩ := hroom (Nat.succ_pos _)
    have := (hs.sound.inside r hr).stop_le
    have hsized : _ ≤ _ := hs.sound.sized
    omega
  obtain ⟨root, x, l, ss, ns, j, y, h, hread, hfills, hlaid⟩ :=
    Loop.read_laid hL htext hs hidle hroom
  have hparse : parse text e = .ok root (e.withHeap h) :=
    mapStop_eq_ok (onHeap_eq_ok hread)
  have hs₁ := hfills.standard hs
  have hint : h.types.scalars.integer = int := by rw [hfills.types]
  obtain ⟨id, e₂, c₂, f, p, hcompile, hext, hroom₂, hoptions, hget, htype, hprogram, hpasses⟩ :=
    @compile_loop (e.withHeap h) c k L root l j y x ss ns (loopRecords int) hs₁
      (hfills.idle hidle) (hfills.room.mono (loopRecords_lacking int c))
      (by rw [← hint]; exact List.mem_cons_self) hpool hlaid hmemory
  have hs₂ : e₂.image.heap.Standard c₂ := hs₁.extends hext
  have hint₂ : e₂.image.heap.types.scalars.integer = h.types.scalars.integer := by
    rw [hext.scalars_eq]
    rfl
  have hidle₂ : e₂.image.heap.arena.collecting = false :=
    hext.grows.collecting_eq.trans (hfills.idle hidle)
  obtain ⟨d, e₃, hrun, hd, hwords⟩ := run_loop hs₂ hidle₂
    (hroom₂.mono (one_le_loopRecords_lacking int hs₂.valid)) (by rw [hoptions]; exact hbudget)
    hget (htype.trans hint₂.symm) hprogram hpasses
  refine ⟨d, e₃, ?_, hd.trans (hint₂.trans hint), by rw [hoptions] at hwords; exact hwords⟩
  unfold evalText eval
  exact (bind_eq_ok hparse).trans ((bind_eq_ok hcompile).trans hrun)

/-- The loop that adds up the numbers from one on, reading the last of them through a pointer. -/
def triangle : Loop 2 where
  name i := if i = 0 then "n" else "sum"
  init i := if i = 0 then 1 else 0
  label := "L"
  body := [(1, .arith .add (.copy 1) (.load 0)), (0, .step .increment (.copy 0))]
  result := 1

/-- With a budget of four, the numbers from one to four are added up. -/
theorem evalText_loop_triangle : ∃ e d e', create ⟨96, 1, 4, 1, false⟩ = .ok e ∧
    evalText triangle.text e = .ok d e' ∧ e'.words d = .ok [10] := by
  have hcreate : (match create ⟨96, 1, 4, 1, false⟩ with
      | .ok e => !e.image.heap.arena.collecting && decide (e.image.pool.slots[0]? = some none) &&
          e.image.heap.arena.free.any (triangle.cost + 4 ≤ ·.size.toNat) &&
          e.options.finiteness == 4
      | .error _ => false) = true := by decide +kernel
  have hdistinct : ∀ i j, triangle.name i = triangle.name j → i = j := by decide
  have hproper : triangle.Proper := ⟨by decide, hdistinct, by decide, by decide⟩
  split at hcreate
  · rename_i e he
    simp only [Bool.and_eq_true, Bool.not_eq_true', beq_iff_eq, List.any_eq_true,
      decide_eq_true_eq] at hcreate
    obtain ⟨⟨⟨hidle, hslots⟩, hroom⟩, hbudget⟩ := hcreate
    obtain ⟨image, himage, hcreated⟩ := of_except_bind_eq_ok he
    cases hcreated
    obtain ⟨c, hs⟩ := Image.create_standard himage
    obtain ⟨d, e', hrun, -, hwords⟩ := evalText_loop hproper (Loop.says_text hproper) hs hidle
      (fun _ => hroom) ⟨0, by decide, hslots⟩ (by rw [hbudget]; decide)
    refine ⟨_, d, e', he, hrun, ?_⟩
    rw [hbudget] at hwords
    exact hwords
  · cases hcreate

end Engine

end TreeMachine
