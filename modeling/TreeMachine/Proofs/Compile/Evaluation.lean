import TreeMachine.Proofs.Compile.Root
import TreeMachine.Proofs.Modules.Running
import TreeMachine.Proofs.Source.Forms

/-! # Compiled trees compute their values

  Main statement: a tree of plain nodes is compiled if and only if it is well typed, its
  function has the canonical type of its width, and invoking the function yields the words of
  the evaluation of the tree.
-/

namespace TreeMachine

open Code (Module Value Program Frame Host Stands wrap Contains)

/-! ### Invoking a program -/

/-- Invoking an entry is running its program, with fuel for every block and more. -/
theorem Engine.invoke_eq_ok {run : UInt64 → EngineM Boxed} {entry : UInt64} {engine : Engine}
    {p : Program} {ws : List UInt64} (hentry : engine.image.machine.program? entry = some p)
    (hrun : ∀ fuel, p.blocks.size < fuel → p.run (host run) fuel engine = .ok ws engine) :
    invoke run entry engine = .ok ws engine := by
  have hfuel : p.blocks.size < blockBound p engine.remaining := by
    unfold blockBound
    have : (p.blocks.size + 1) * 1 ≤ (p.blocks.size + 1) * (engine.remaining.toNat + 1) :=
      Nat.mul_le_mul_left _ (by omega)
    omega
  rw [invoke_eq hentry]
  exact hrun _ hfuel

namespace Compile

variable {c : Catalogue} {root : Node} {ns : List Node} {e : Expr Empty} {h : Heap} {w R : Nat}

/-- The bound on registers and slots covers the result. -/
theorem Expr.width_le_volume {X : Type} (e : Expr X) (hw : e.width = some w) : w ≤ e.volume := by
  cases e with
  | null | literal | zero | copy | load =>
    rw [Expr.width, Option.some.injEq] at hw
    rw [Expr.volume]
    omega
  | step op a =>
    have := (Expr.width_step.1 hw).2
    rw [Expr.volume]
    omega
  | arith op a b =>
    have := (Expr.width_arith.1 hw).2.2
    rw [Expr.volume]
    omega
  | cond | concat =>
    rw [Expr.volume, hw, Option.getD_some]
    omega
  | block es =>
    rw [Expr.width] at hw
    rw [Expr.volume, hw, Option.getD_some]
    omega

/-- The program of a tree whose frame fits the memory returns the words of the tree. -/
theorem Rooted.run {name : String} {t : Ty} {g : Generator} {c' : Catalogue} {m : Module}
    (hr : Rooted e h c name t g w c' m R) (hmemory : 2 * e.volume ≤ Arena.maxWords.toNat)
    {σ : Type} (host : Host σ) (s : σ) {fuel : Nat}
    (hfuel : g.module.finished.blocks.size < fuel) :
    g.module.finished.run host fuel s = .ok e.value s := by
  have hmax := Arena.maxWords_toNat
  have hfew := hr.few
  have hwide := e.width_le_volume hr.width
  have hslots := hr.slots
  have ho := hr.code.opened
  have hlen : e.value.length = w := e.length_eval _ hr.width
  have hsum : m.slots.toList.sum < 2 ^ 63 := by omega
  obtain ⟨hcon, hret⟩ :=
    Module.contains_returning ho hr.code.count (by omega) hsum (Value.run R w)
  obtain ⟨f, hcreate⟩ :=
    Module.create_returning ho hr.code.count (by omega) (by omega) (Value.run R w)
  rw [← hr.module] at hcon hret hcreate
  have hwait : Module.Waiting (Module.create name) [] := fun i hi => by cases hi
  obtain ⟨f', hf', hleads, hstands⟩ :=
    hr.code.does host _ [] hwait hcon _ s (Frame.fits_create hcreate)
  have hsize : g.module.finished.blocks.size = m.blocks.size := by
    rw [hr.module]
    simp [Module.finished, Module.returning]
  rw [← hlen] at hret
  refine Code.Leads.run hleads hcreate hret hf' hstands ?_
  omega

/-- Compiling a root is loading what is generated for it. -/
theorem build_cases {image : Image} (hs : image.heap.Standard c)
    (hidle : image.heap.arena.collecting = false)
    (hroom : image.heap.arena.Room
      (c.lacking (e.types image.heap.types.scalars.integer).dedup))
    (hspell : Expr.Spells image.heap Empty.elim e root ns) (hnodup : ns.Nodup) (hroot : root ≠ 0) :
    Yields (Image.build root) image
      (fun built image' => ∃ g w c' m R name,
        Rooted e image.heap c name built.1.returnType g w c' m R ∧
          image' = loaded image g.heap g.module.finished ∧
          built.1.entry = (image.machine.install g.module.finished).1)
      fun _ _ => e.width = none := by
  have hgen := generateRoot_yields hs hidle hroom hspell hnodup hroot s!"fn_{root}"
  unfold Yields at hgen
  cases hrun : generateRoot root (.start image.heap s!"fn_{root}") with
  | ok t g =>
    rw [hrun] at hgen
    obtain ⟨w, c', m, R, hr⟩ := hgen
    have hclosed : g.module.closed = false := by
      rw [hr.module]
      exact hr.code.opened.closed
    have herror : g.module.error = none := by
      rw [hr.module]
      exact hr.code.opened.error
    exact Yields.of_ok (build_of_generateRoot hrun hclosed herror)
      ⟨g, w, c', m, R, _, hr, rfl, rfl⟩
  | error stop g =>
    rw [hrun] at hgen
    have hcompile : Image.onHeap (compileModule root) image
        = .error stop { image with heap := g.heap } := by
      unfold Image.onHeap compileModule
      simp only [hrun]
    exact Yields.of_error (bind_eq_error hcompile) hgen

/-- A tree of plain nodes is compiled if and only if it is well typed.  Its function then has
    the type of as many integers as the tree is wide, and invoking it, whatever it could
    reach outside, yields the words of the evaluation of the tree. -/
theorem build_eq_ok_iff_width {image : Image} (hs : image.heap.Standard c)
    (hidle : image.heap.arena.collecting = false)
    (hroom : image.heap.arena.Room
      (c.lacking (e.types image.heap.types.scalars.integer).dedup))
    (hspell : Expr.Spells image.heap Empty.elim e root ns) (hnodup : ns.Nodup) (hroot : root ≠ 0)
    (hmemory : 2 * e.volume ≤ Arena.maxWords.toNat) :
    ((∃ built image', Image.build root image = .ok built image') ↔ ∃ w, e.width = some w) ∧
    ∀ built image', Image.build root image = .ok built image' →
      ∃ w c', e.width = some w ∧ Heap.Extends image.heap c image'.heap c' ∧
        c'.Integers image.heap.types.scalars.integer w built.1.returnType ∧
        (∃ p, image'.machine.program? built.1.entry = some p ∧
          ∀ {σ : Type} (host : Host σ) (s : σ) (fuel : Nat), p.blocks.size < fuel →
            p.run host fuel s = .ok e.value s) ∧
        ∀ (run : UInt64 → EngineM Boxed) (engine : Engine), engine.image = image' →
          Engine.invoke run built.1.entry engine = .ok e.value engine := by
  have hcases := build_cases hs hidle hroom hspell hnodup hroot
  unfold Yields at hcases
  constructor
  · constructor
    · rintro ⟨built, image', hbuild⟩
      rw [hbuild] at hcases
      obtain ⟨g, w, c', m, R, name, hr, -⟩ := hcases
      exact ⟨w, hr.width⟩
    · rintro ⟨w, hw⟩
      cases hbuild : Image.build root image with
      | ok built image' => exact ⟨built, image', rfl⟩
      | error stop image' =>
        rw [hbuild, hw] at hcases
        cases hcases
  · intro built image' hbuild
    rw [hbuild] at hcases
    obtain ⟨g, w, c', m, R, name, hr, rfl, hentry⟩ := hcases
    have hprogram : (loaded image g.heap g.module.finished).machine.program? built.1.entry
        = some g.module.finished := by
      rw [hentry]
      exact program?_install image.machine g.module.finished
    have htype := hr.type
    rw [hr.ext.scalars_eq] at htype
    refine ⟨w, c', hr.width, hr.ext, htype,
      ⟨g.module.finished, hprogram, fun host s fuel hfuel => hr.run hmemory host s hfuel⟩, ?_⟩
    intro run engine himage
    rw [← himage] at hprogram
    exact Engine.invoke_eq_ok hprogram fun fuel hfuel => hr.run hmemory _ _ hfuel

/-- A pair whose second half is calculated. -/
def pair : Expr Empty := .concat (.literal 7) (.step .increment (.literal 41))

/-- How the pair is written. -/
def pairForm : Source.Form :=
  .node .concatenate [.number 7, .node .increment [.number 41]]

/-- The pair, read into a new heap and compiled, has its two words. -/
theorem build_eq_ok_iff_width_pair : ∃ image root h built image',
    Image.create 64 1 = .ok image ∧
    Source.read (Source.encode (Source.spell pairForm.lexemes)) image.heap = .ok root h ∧
    Image.build root { image with heap := h } = .ok built image' ∧
    ∀ (run : UInt64 → EngineM Boxed) (engine : Engine), engine.image = image' →
      Engine.invoke run built.1.entry engine = .ok [7, 42] engine := by
  have hcreate : (match Image.create 64 1 with
      | .ok image => !image.heap.arena.collecting &&
          image.heap.arena.free.any (pairForm.cost + 4 ≤ ·.size.toNat)
      | .error _ => false) = true := by decide +kernel
  have hreads {c : Catalogue} : Source.Reads c .empty none pairForm := by
    have hincrement : Source.Reads c .empty none (.node .increment [.number 41]) :=
      Source.plain_reads (by decide) rfl (by simpa using Source.number_reads 41)
    exact Source.plain_reads (by decide) rfl (by simpa using ⟨Source.number_reads 7, hincrement⟩)
  split at hcreate
  · rename_i image himage
    simp only [Bool.and_eq_true, Bool.not_eq_true', List.any_eq_true, decide_eq_true_eq] at hcreate
    obtain ⟨hidle, hroom⟩ := hcreate
    obtain ⟨c, hs⟩ := Image.create_standard himage
    obtain ⟨root, ns, h, hread, hhas⟩ := Source.form_read hreads (Source.says_spell (by decide)) hs
      hidle fun _ => hroom
    obtain ⟨ms, ns', rfl, hroot, m₁, ms', ns₁, ns', rfl, rfl, hm₁, m₂, ms', ns₂, ns', rfl, rfl,
      ⟨ms, ns'', rfl, hm₂, m₃, ms', ns₃, ns', rfl, rfl, hm₃, rfl, rfl⟩, rfl, rfl⟩ :=
      hhas.stands h rfl ((Arena.Since.refl _ _).grows (.refl _))
    have hlacking : c.lacking (pair.types h.types.scalars.integer).dedup ≤ 4 := by
      rw [show pair.types h.types.scalars.integer
        = [.concat (List.replicate 2 h.types.scalars.integer)] from rfl,
        (List.nodup_singleton _).dedup]
      exact c.lacking_le _
    obtain ⟨hbuilds, hcorrect⟩ := @build_eq_ok_iff_width c root _ pair { image with heap := h }
      (hhas.fills.standard hs) (hhas.fills.idle hidle) (hhas.fills.room.mono hlacking)
      ⟨m₁, m₂, ns₁, _, rfl, hroot, hm₁, m₃, _, rfl, hm₂, hm₃⟩ (by simpa using hhas.nodup)
      (Heap.owns_ne_zero hroot) (by decide)
    obtain ⟨built, image', hbuild⟩ := hbuilds.2 ⟨2, by decide⟩
    obtain ⟨-, -, -, -, -, -, hinvoke⟩ := hcorrect built image' hbuild
    exact ⟨image, root, h, built, image', himage, hread, hbuild, hinvoke⟩
  · cases hcreate

end Compile

end TreeMachine
