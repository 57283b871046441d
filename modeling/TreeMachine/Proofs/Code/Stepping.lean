import TreeMachine.Proofs.Code.Frame

/-! # Running from the middle of a block

  A run is followed from one place in a program to another.  `Leads` says that whatever
  happens from the first place on is what happens from the second place on, with less fuel
  by the number of jumps between them.  Main statements: each instruction leads to the next
  one or to the start of a block, and such ways can be joined.
-/

namespace TreeMachine.Code

open Arena (writeFrom size_writeFrom)

/-- A place in a program: a block, and the number of its instructions that are over. -/
structure Point where
  block : Nat
  pos : Nat

/-- A run that has come to a place. -/
structure Config (σ : Type) where
  point : Point
  frame : Frame
  world : σ

variable {σ : Type} {host : Host σ} {p : Program}

namespace Program

/-- What follows once the instructions of a block are over. -/
def follow (host : Host σ) (p : Program) (fuel : Nat) (cur : Int) : Next → Run σ (List UInt64)
  | .done ws => return ws
  | .onward _ => stop .trap
  | .jump f target => do
    match p.block? target with
    | none => throw (.fault .outOfBounds)
    | some next =>
      let incoming ← sound (f.phiWords cur next.phis.toList)
      p.runFrom host fuel target (← sound (f.setAll incoming))

/-- Runs from a place on; `fuel` bounds the number of blocks that are entered. -/
def resume (host : Host σ) (p : Program) (fuel : Nat) (c : Config σ) :
    EStateM.Result (Stop RunError) σ (List UInt64) :=
  match p.blocks[c.point.block]? with
  | none => .error (.fault .outOfBounds) c.world
  | some b =>
    (mapStop (.inBlock p.name b.name)
        (execAll host p (b.code.toList.drop c.point.pos) c.frame) >>=
      p.follow host fuel c.point.block) c.world

theorem block?_natCast (p : Program) (i : Nat) : p.block? i = p.blocks[i]? := by
  rw [block?, if_neg (by omega), Int.toNat_natCast]

/-- A run from the start of a block. -/
theorem runFrom_succ (p : Program) (fuel i : Nat) (f : Frame) (s : σ) :
    p.runFrom host (fuel + 1) i f s = p.resume host fuel ⟨⟨i, 0⟩, f, s⟩ := by
  rw [runFrom, block?_natCast, resume]
  cases p.blocks[i]? with
  | none => rfl
  | some b =>
    dsimp only [List.drop_zero]
    refine congrFun (congrArg (mapStop (RunError.inBlock p.name b.name)
      (execAll host p b.code.toList f) >>= ·) ?_) s
    funext next
    cases next <;> rfl

end Program

/-! ### Ways -/

/-- The run from `c` on is the run from `c'` on, after at most `n` jumps. -/
def Leads (host : Host σ) (p : Program) (n : Nat) (c c' : Config σ) : Prop :=
  ∃ k, k ≤ n ∧ ∀ fuel, p.resume host (fuel + k) c = p.resume host fuel c'

namespace Leads

variable {n n' : Nat} {c c' c'' : Config σ}

theorem refl (c : Config σ) : Leads host p 0 c c := ⟨0, Nat.le_refl 0, fun _ => rfl⟩

theorem trans (h : Leads host p n c c') (h' : Leads host p n' c' c'') :
    Leads host p (n + n') c c'' := by
  obtain ⟨k, hk, hrun⟩ := h
  obtain ⟨k', hk', hrun'⟩ := h'
  refine ⟨k' + k, by omega, ?_⟩
  intro fuel
  rw [← Nat.add_assoc, hrun, hrun']

theorem mono (h : Leads host p n c c') (hle : n ≤ n') : Leads host p n' c c' := by
  obtain ⟨k, hk, hrun⟩ := h
  exact ⟨k, by omega, hrun⟩

end Leads

/-! ### Single instructions -/

/-- The instruction at a place. -/
def Program.instr? (p : Program) (pt : Point) : Option Instr :=
  (p.blocks[pt.block]?).bind (·.code[pt.pos]?)

/-- The place after the next instruction. -/
def Point.next (pt : Point) : Point := ⟨pt.block, pt.pos + 1⟩

theorem instr_cases {pt : Point} {i : Instr} (hi : p.instr? pt = some i) :
    ∃ b, p.blocks[pt.block]? = some b ∧
      b.code.toList.drop pt.pos = i :: b.code.toList.drop (pt.pos + 1) := by
  obtain ⟨b, hb, hcode⟩ := Option.bind_eq_some_iff.1 hi
  refine ⟨b, hb, ?_⟩
  obtain ⟨hlt, hget⟩ := Array.getElem?_eq_some_iff.1 hcode
  rw [List.drop_eq_getElem_cons (by simpa using hlt)]
  simp [hget]

/-- An instruction that leads on. -/
theorem Leads.onward {pt : Point} {i : Instr} {f f' : Frame} {s s' : σ}
    (hi : p.instr? pt = some i) (hexec : i.exec host p f s = .ok (.onward f') s') :
    Leads host p 0 ⟨pt, f, s⟩ ⟨pt.next, f', s'⟩ := by
  obtain ⟨b, hb, hdrop⟩ := instr_cases hi
  refine ⟨0, Nat.le_refl 0, ?_⟩
  intro fuel
  have hall : execAll host p (b.code.toList.drop pt.pos) f s
      = execAll host p (b.code.toList.drop (pt.pos + 1)) f' s' := by
    rw [hdrop, execAll, bind_eq_ok hexec]
  simp only [Program.resume, Point.next, hb]
  refine bind_run_congr ?_
  simp only [mapStop, hall]

/-- An instruction that leads to a block, where the phis are set first. -/
theorem Leads.jump {pt : Point} {i : Instr} {f f' f'' : Frame} {s s' : σ} {t : Nat} {b : Block}
    {incoming : List (Value × List UInt64)} (hi : p.instr? pt = some i)
    (hexec : i.exec host p f s = .ok (.jump f' t) s') (hb : p.blocks[t]? = some b)
    (hphis : f'.phiWords pt.block b.phis.toList = .ok incoming)
    (hset : f'.setAll incoming = .ok f'') :
    Leads host p 1 ⟨pt, f, s⟩ ⟨⟨t, 0⟩, f'', s'⟩ := by
  obtain ⟨b₀, hb₀, hdrop⟩ := instr_cases hi
  refine ⟨1, Nat.le_refl 1, ?_⟩
  intro fuel
  have hall : execAll host p (b₀.code.toList.drop pt.pos) f s = .ok (.jump f' t) s' := by
    rw [hdrop, execAll, bind_eq_ok hexec]
    rfl
  have hsound : (sound (f'.phiWords pt.block b.phis.toList) : Run σ _) s' = .ok incoming s' := by
    rw [hphis]
    rfl
  have hsound' : (sound (f'.setAll incoming) : Run σ _) s' = .ok f'' s' := by
    rw [hset]
    rfl
  rw [Program.resume, hb₀]
  dsimp only
  rw [bind_eq_ok (mapStop_eq_ok hall), Program.follow]
  simp only [Program.block?_natCast, hb]
  rw [bind_eq_ok hsound, bind_eq_ok hsound', Program.runFrom_succ]

/-- A jump to a block without phis. -/
theorem Leads.jump_plain {pt : Point} {i : Instr} {f f' : Frame} {s s' : σ} {t : Nat} {b : Block}
    (hi : p.instr? pt = some i) (hexec : i.exec host p f s = .ok (.jump f' t) s')
    (hb : p.blocks[t]? = some b) (hphis : b.phis = #[]) :
    Leads host p 1 ⟨pt, f, s⟩ ⟨⟨t, 0⟩, f', s'⟩ := by
  have hnone : f'.phiWords pt.block b.phis.toList = .ok [] := by
    rw [hphis]
    rfl
  exact Leads.jump hi hexec hb hnone rfl

/-- An instruction that ends the run. -/
theorem resume_done {pt : Point} {i : Instr} {f : Frame} {s s' : σ} {ws : List UInt64}
    (hi : p.instr? pt = some i) (hexec : i.exec host p f s = .ok (.done ws) s') (fuel : Nat) :
    p.resume host fuel ⟨pt, f, s⟩ = .ok ws s' := by
  obtain ⟨b, hb, hdrop⟩ := instr_cases hi
  have hall : execAll host p (b.code.toList.drop pt.pos) f s = .ok (.done ws) s' := by
    rw [hdrop, execAll, bind_eq_ok hexec]
    rfl
  rw [Program.resume, hb]
  dsimp only
  rw [bind_eq_ok (mapStop_eq_ok hall)]
  rfl

/-! ### What instructions do -/

section Exec

variable {f : Frame} {r w k off : Nat} {ws : List UInt64} {s : σ}

theorem sound_eq_ok {α : Type} {x : Except Fault α} {a : α} (h : x = .ok a) :
    (sound x : Run σ α) s = .ok a s := by
  rw [h]
  rfl

theorem sound_eq_ok_iff {α : Type} {x : Except Fault α} {a : α} {s' : σ} :
    (sound x : Run σ α) s = .ok a s' ↔ x = .ok a ∧ s' = s := by
  cases x <;> simp [sound, eq_comm]

theorem exec_const (hf : f.Fits p) (hr : r + ws.length ≤ f.regs.size) (hpos : 0 < ws.length) :
    (Instr.const (Value.run r ws.length) ws).exec host p f s
      = .ok (.onward { f with regs := writeFrom f.regs r ws }) s := by
  rw [Instr.exec, bind_eq_ok (sound_eq_ok (Frame.set_run hr hpos hf.fewRegs))]
  rfl

theorem exec_binary {op : BinaryOp} {a b : Nat} {x y : UInt64} (hf : f.Fits p)
    (hx : f.regs[a]? = some x) (hy : f.regs[b]? = some y) (hr : r < f.regs.size) :
    (Instr.binary op (Value.run r 1) (Value.run a 1) (Value.run b 1)).exec host p f s
      = .ok (.onward { f with regs := writeFrom f.regs r [op.eval x y] }) s := by
  rw [Instr.exec, bind_eq_ok (sound_eq_ok (Frame.word_run hx hf.fewRegs)),
    bind_eq_ok (sound_eq_ok (Frame.word_run hy hf.fewRegs)),
    bind_eq_ok (sound_eq_ok (Frame.set_word hr hf.fewRegs))]
  rfl

theorem exec_load (hf : f.Fits p) (hr : r + ws.length ≤ f.regs.size) (hpos : 0 < ws.length)
    (hk : p.slotOffsets[k]? = some (p.start k : Int)) (hws : Stands f.words (p.start k + off) ws) :
    (Instr.load (Value.run r ws.length) k off).exec host p f s
      = .ok (.onward { f with regs := writeFrom f.regs r ws }) s := by
  have hin := hws.bound hpos
  have hstart : (liftM (f.slotStart p k off (Value.run r ws.length).words) : Run σ Nat) s
      = .ok (p.start k + off) s := by
    rw [Value.words_run, Frame.slotStart_eq_ok hf.fewWords hk hin]
    rfl
  rw [Instr.exec, bind_eq_ok hstart, Value.words_run, Int.toNat_natCast, hws.extract hin,
    bind_eq_ok (sound_eq_ok (Frame.set_run hr hpos hf.fewRegs))]
  rfl

theorem exec_store (hf : f.Fits p) (hws : Stands f.regs r ws)
    (hk : p.slotOffsets[k]? = some (p.start k : Int))
    (hin : p.start k + off + ws.length ≤ f.words.size) :
    (Instr.store k off (Value.run r ws.length)).exec host p f s
      = .ok (.onward { f with words := writeFrom f.words (p.start k + off) ws }) s := by
  have hstart : (liftM (f.slotStart p k off (Value.run r ws.length).words) : Run σ Nat) s
      = .ok (p.start k + off) s := by
    rw [Value.words_run, Frame.slotStart_eq_ok hf.fewWords hk hin]
    rfl
  rw [Instr.exec, bind_eq_ok hstart, bind_eq_ok (sound_eq_ok (Frame.get_run hws hf.fewRegs))]
  rfl

theorem exec_branchIf {a t t' : Nat} {x : UInt64} (hf : f.Fits p) (hx : f.regs[a]? = some x) :
    (Instr.branchIf (Value.run a 1) t t').exec host p f s
      = .ok (.jump f (if x ≠ 0 then t else t' : Nat)) s := by
  rw [Instr.exec, bind_eq_ok (sound_eq_ok (Frame.word_run hx hf.fewRegs))]
  split <;> rfl

theorem exec_ret (hf : f.Fits p) (hws : Stands f.regs r ws) :
    (Instr.ret (Value.run r ws.length)).exec host p f s = .ok (.done ws) s := by
  rw [Instr.exec, bind_eq_ok (sound_eq_ok (Frame.get_run hws hf.fewRegs))]
  rfl

end Exec

theorem Frame.Fits.setRegs {f : Frame} (hf : f.Fits p) (r : Nat) (ws : List UInt64) :
    Frame.Fits { f with regs := writeFrom f.regs r ws } p :=
  ⟨by rw [size_writeFrom]; exact hf.regs, hf.words, by rw [size_writeFrom]; exact hf.fewRegs,
    hf.fewWords⟩

theorem Frame.Fits.setWords {f : Frame} (hf : f.Fits p) (i : Nat) (ws : List UInt64) :
    Frame.Fits { f with words := writeFrom f.words i ws } p :=
  ⟨hf.regs, by rw [size_writeFrom]; exact hf.words, hf.fewRegs,
    by rw [size_writeFrom]; exact hf.fewWords⟩

end TreeMachine.Code
