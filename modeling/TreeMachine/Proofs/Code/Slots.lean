import TreeMachine.Proofs.Code.Calls

/-! # Slots during construction

  Whatever the module is like, construction takes no slot away and makes none smaller, and a
  value has the width that was asked for.  Main statement: what each step of construction
  does to the slots.
-/

namespace TreeMachine.Code.Module

variable {α β : Type} {m : Module} {Q : α → Prop} {R : β → Prop}

/-- In every module the step keeps the slots, and its answer is as `Q` says. -/
def Spares (x : Build α) (Q : α → Prop) : Prop := ∀ m, m.SlotsLe (x m).2 ∧ Q (x m).1

namespace Spares

/-- A step that does not touch the slots. -/
theorem of_eq {x : Build α} (hslots : ∀ m, (x m).2.slots = m.slots) (hq : ∀ m, Q (x m).1) :
    Spares x Q :=
  fun m => ⟨.of_eq (hslots m), hq m⟩

theorem pure {a : α} (hq : Q a) : Spares (Pure.pure a) Q := fun m => ⟨.refl m, hq⟩

theorem bind {x : Build α} {f : α → Build β} (hx : Spares x Q) (hf : ∀ a, Q a → Spares (f a) R) :
    Spares (x >>= f) R := by
  intro m
  obtain ⟨hle, hq⟩ := hx m
  obtain ⟨hle', hr⟩ := hf _ hq (x m).2
  exact ⟨hle.trans hle', hr⟩

/-- A first step without an answer. -/
theorem seq {x : Build Unit} {y : Build β} (hx : Spares x fun _ => True) (hy : Spares y R) :
    Spares (x >>= fun _ => y) R :=
  hx.bind fun _ _ => hy

theorem ite {p : Prop} [Decidable p] {x y : Build α} (hx : p → Spares x Q) (hy : ¬ p → Spares y Q) :
    Spares (if p then x else y) Q := by
  split
  · exact hx ‹_›
  · exact hy ‹_›

/-- The choice may depend on the module. -/
theorem of_get {f : Module → Build α} (hf : ∀ m, Spares (f m) Q) : Spares (do f (← get)) Q :=
  fun m => hf m m

end Spares

/-! ### Steps -/

theorem fail_spares (e : BuildError) : Spares (fail e) fun _ => True :=
  .of_eq (fun _ => rfl) fun _ => trivial

theorem fresh_spares (words : Int) : Spares (fresh words) (·.words = words) := by
  intro m
  unfold fresh
  split
  · exact ⟨.refl m, Eq.symm ‹_›⟩
  · exact ⟨.of_eq rfl, rfl⟩

theorem emit_spares (i : Instr) : Spares (emit i) fun _ => True :=
  .of_get fun _ => .ite (fun _ => fail_spares _) fun _ => .of_eq (fun _ => rfl) fun _ => trivial

theorem reserve_spares (slot words : Int) : Spares (reserve slot words) fun _ => True := by
  refine .of_get fun m₀ => .ite (fun _ m => ⟨?_, trivial⟩) fun _ => fail_spares _
  intro k size hk
  show ∃ size', (m.slots.modify slot.toNat (max · words))[k]? = some size' ∧ _
  rw [Array.getElem?_modify]
  split
  · rw [hk]
    exact ⟨_, rfl, Int.le_max_left _ _⟩
  · exact ⟨size, hk, Int.le_refl _⟩

/-- A slot that is there has the words that were asked for. -/
theorem reserve_room {k : Nat} (hk : k < m.slots.size) (off n : Nat) :
    (reserve k (off + n : Nat) m).2.Room k off n := by
  rw [reserve_eq hk]
  refine ⟨max m.slots[k] (off + n : Nat), ?_, Int.le_max_right _ _⟩
  show (m.slots.modify k (max · ((off + n : Nat) : Int)))[k]? = _
  rw [Array.getElem?_modify, if_pos rfl, Array.getElem?_eq_getElem hk]
  rfl

theorem alloca_slot (m : Module) : (alloca m).1 < (alloca m).2.slots.size := by
  show m.slots.size < (m.slots.push 0).size
  rw [Array.size_push]
  exact Nat.lt_succ_self _

theorem alloca_spares : Spares alloca fun _ => True := by
  refine fun m => ⟨fun k size hk => ⟨size, ?_, Int.le_refl _⟩, trivial⟩
  show (m.slots.push 0)[k]? = some size
  rw [Array.getElem?_push, if_neg (Nat.ne_of_lt (Array.getElem?_eq_some_iff.1 hk).1)]
  exact hk

theorem newBlock_spares (name : String) : Spares (newBlock name) fun _ => True :=
  .of_eq (fun _ => rfl) fun _ => trivial

theorem setInsertPoint_spares (b : Int) : Spares (setInsertPoint b) fun _ => True :=
  .of_get fun _ => .ite (fun _ => .of_eq (fun _ => rfl) fun _ => trivial) fun _ => fail_spares _

theorem branch_spares (target : Int) : Spares (branch target) fun _ => True := emit_spares _

theorem branchIf_spares (cond : Value) (target alt : Int) :
    Spares (branchIf cond target alt) fun _ => True := by
  unfold branchIf
  exact .ite (fun _ => .seq (fail_spares _) (emit_spares _)) fun _ => emit_spares _

theorem const_spares (ws : List UInt64) : Spares (const ws) (·.words = ws.length) :=
  (fresh_spares _).bind fun _ hv =>
    .ite (fun _ => .seq (emit_spares _) (.pure hv)) fun _ => .pure hv

theorem binary_spares (op : BinaryOp) (a b : Value) : Spares (binary op a b) (·.words = 1) := by
  have hrest : Spares (do
      let v ← fresh 1
      emit (.binary op v a b)
      return v) (·.words = 1) :=
    (fresh_spares 1).bind fun _ hv => .seq (emit_spares _) (.pure hv)
  unfold binary
  exact .ite (fun _ => .seq (fail_spares _) hrest) fun _ => hrest

theorem phi_spares (a : Value) (fromA : Int) (b : Value) (fromB : Int) :
    Spares (phi a fromA b fromB) (·.words = a.words) := by
  have hrest : Spares (do
      let v ← fresh a.words
      if !v.isVoid then
        let merged : Phi := ⟨v, [(fromA, a), (fromB, b)]⟩
        modify fun m => { m with
          blocks := m.blocks.modify m.cur fun blk => { blk with phis := blk.phis.push merged } }
      return v) (·.words = a.words) :=
    (fresh_spares _).bind fun _ hv =>
      .ite (fun _ => .seq (.of_eq (fun _ => rfl) fun _ => trivial) (.pure hv)) fun _ => .pure hv
  unfold phi
  exact .ite (fun _ => .seq (fail_spares _) hrest) fun _ => hrest

theorem store_spares (slot off : Int) (v : Value) : Spares (store slot off v) fun _ => True := by
  unfold store
  exact .ite (fun _ => .pure trivial) fun _ => .seq (reserve_spares _ _) (emit_spares _)

theorem load_spares (slot off words : Int) : Spares (load slot off words) (·.words = words) :=
  (fresh_spares _).bind fun _ hv =>
    .ite (fun _ => .seq (reserve_spares _ _) (.seq (emit_spares _) (.pure hv))) fun _ => .pure hv

theorem address_spares (slot off : Int) : Spares (address slot off) (·.words = 1) :=
  (fresh_spares 1).bind fun _ hv => .seq (emit_spares _) (.pure hv)

theorem storeIndirect_spares (addr v : Value) : Spares (storeIndirect addr v) fun _ => True := by
  unfold storeIndirect
  exact .ite (fun _ => emit_spares _) fun _ => .pure trivial

theorem loadIndirect_spares (addr : Value) (words : Int) :
    Spares (loadIndirect addr words) (·.words = words) :=
  (fresh_spares _).bind fun _ hv =>
    .ite (fun _ => .seq (emit_spares _) (.pure hv)) fun _ => .pure hv

theorem call_spares (host : String) (args : List Value) (results : Int) :
    Spares (call host args results) (·.words = results) :=
  (fresh_spares _).bind fun _ hv => .seq (emit_spares _) (.pure hv)

end TreeMachine.Code.Module
