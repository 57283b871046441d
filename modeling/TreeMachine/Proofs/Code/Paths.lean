import Mathlib.Logic.Relation
import TreeMachine.Proofs.Code.Bounds
import TreeMachine.Proofs.Code.Programs

/-! # The way of a run

  A run goes from instruction to instruction, and with each jump it sets the phis of the block
  that it comes to.  Main statements: what one step leaves of the frame as it is, that the
  frame keeps its size, and that a run with an answer comes to a return that gives it.
-/

namespace TreeMachine.Code

open Relation (ReflTransGen)

variable {σ : Type} {host : Host σ} {p : Program}

/-! ### Steps -/

/-- An instruction that leads on to the next one, or a jump together with the phis of the
    block that it leads to. -/
inductive Step (host : Host σ) (p : Program) (c : Config σ) : Config σ → Prop where
  | onward {i : Instr} {f' : Frame} {s' : σ} : p.instr? c.point = some i →
    i.exec host p c.frame c.world = .ok (.onward f') s' → Step host p c ⟨c.point.next, f', s'⟩
  | jump {i : Instr} {f' f'' : Frame} {s' : σ} {t : Nat} {b : Block}
    {incoming : List (Value × List UInt64)} : p.instr? c.point = some i →
    i.exec host p c.frame c.world = .ok (.jump f' t) s' → p.blocks[t]? = some b →
    f'.phiWords c.point.block b.phis.toList = .ok incoming → f'.setAll incoming = .ok f'' →
    Step host p c ⟨⟨t, 0⟩, f'', s'⟩

/-- A run of the program that begins in the world `s` comes to the configuration. -/
def Reaches (host : Host σ) (p : Program) (s : σ) (c : Config σ) : Prop :=
  ∃ f, Frame.create p = .ok f ∧ ReflTransGen (Step host p) ⟨⟨0, 0⟩, f, s⟩ c

/-- The run from a configuration on is the run from the next one on. -/
theorem Step.leads {c c' : Config σ} (h : Step host p c c') : Leads host p 1 c c' := by
  obtain ⟨point, frame, world⟩ := c
  cases h with
  | onward hi hexec => exact (Leads.onward hi hexec).mono (Nat.zero_le 1)
  | jump hi hexec hb hphis hset => exact Leads.jump hi hexec hb hphis hset

/-! ### What a step leaves as it is -/

/-- The instructions that write to memory. -/
def Instr.writes : Instr → Bool
  | .store .. | .storeIndirect .. => true
  | _ => false

/-- What remains of the frame `f` and of the world `s` where the instruction leads. -/
def Next.From (i : Instr) (f : Frame) (s : σ) : Next → σ → Prop
  | .onward f', _ => f'.regs.size = f.regs.size ∧ f'.words.size = f.words.size ∧
    (i.writes = false → f'.words = f.words)
  | .jump f' _, s' => f' = f ∧ s' = s
  | .done ws, s' => (∃ v, i = .ret v ∧ f.get v = .ok ws) ∧ s' = s

section Exec

variable {i : Instr} {f f' : Frame} {s : σ} {v : Value} {ws : List UInt64}

theorem Frame.set_leaves (h : f.set v ws = .ok f') :
    f'.regs.size = f.regs.size ∧ f'.words = f.words := by
  unfold Frame.set at h
  split at h
  · cases h
    exact ⟨Arena.size_writeFrom _ _ _, rfl⟩
  · cases h

theorem Frame.setAll_leaves {vs : List (Value × List UInt64)} (h : f.setAll vs = .ok f') :
    f'.regs.size = f.regs.size ∧ f'.words = f.words := by
  induction vs generalizing f with
  | nil =>
    cases h
    exact ⟨rfl, rfl⟩
  | cons e rest ih =>
    obtain ⟨f₁, hset, hrest⟩ := of_except_bind_eq_ok h
    obtain ⟨hregs, hwords⟩ := Frame.set_leaves hset
    obtain ⟨hregs', hwords'⟩ := ih hrest
    exact ⟨hregs'.trans hregs, hwords'.trans hwords⟩

/-- A step that may only fault, when nothing is asked of faults. -/
theorem sound_any {α : Type} {x : Except Fault α} {Q : α → σ → Prop}
    (hq : ∀ a, x = .ok a → Q a s) : Yields (sound x : Run σ α) s Q fun _ _ => True := by
  cases x with
  | ok a => exact Yields.of_ok rfl (hq a rfl)
  | error e => exact Yields.of_error rfl trivial

theorem bind_sound {α β : Type} {x : Except Fault α} {next : α → Run σ β} {Q : β → σ → Prop}
    (hq : ∀ a, x = .ok a → Yields (next a) s Q fun _ _ => True) :
    Yields (sound x >>= next) s Q fun _ _ => True := Yields.bind (sound_any hq)

/-- Setting a value and going on. -/
theorem set_from (v : Value) (ws : List UInt64) (s₀ : σ) :
    Yields (do return .onward (← sound (f.set v ws)) : Run σ Next) s (Next.From i f s₀)
      fun _ _ => True := by
  apply bind_sound
  intro f' hset
  obtain ⟨hregs, hwords⟩ := Frame.set_leaves hset
  exact Yields.pure ⟨hregs, congrArg Array.size hwords, fun _ => hwords⟩

theorem callHost_leaves (dst : Value) (name : String) (args : List Value) :
    Yields (callHost host f dst name args) s
      (fun f' _ => f'.regs.size = f.regs.size ∧ f'.words = f.words) fun _ _ => True := by
  unfold callHost
  cases host.function? name with
  | none => exact Yields.of_error rfl trivial
  | some fn =>
    apply bind_sound
    intro given _
    apply Yields.bind
    cases hrun : fn given s with
    | error e s' => exact Yields.of_error (mapStop_eq_error hrun) trivial
    | ok answer s' =>
      refine Yields.of_ok (mapStop_eq_ok hrun) ?_
      dsimp only
      split
      · exact Yields.of_error rfl trivial
      · exact sound_any fun f' hset => Frame.set_leaves hset

theorem storeAt_leaves (addr : UInt64) (ws : List UInt64) :
    Yields (storeAt host f addr ws) s
      (fun f' _ => f'.regs = f.regs ∧ f'.words.size = f.words.size ∧
        (addr &&& frameBit = 0 → f'.words = f.words)) fun _ _ => True := by
  unfold storeAt
  split
  · rename_i hmarked
    dsimp only
    split
    · exact Yields.of_error rfl trivial
    · exact Yields.pure ⟨rfl, Arena.size_writeFrom _ _ _, fun hzero => absurd hzero hmarked⟩
  · cases host.memory with
    | none => exact Yields.of_error rfl trivial
    | some memory =>
      apply Yields.bind
      cases hrun : memory.store addr ws s with
      | error e s' => exact Yields.of_error hrun trivial
      | ok u s' => exact Yields.of_ok hrun ⟨rfl, rfl, fun _ => rfl⟩

/-- What an instruction leaves as it is.  Only stores change the words of the frame. -/
theorem exec_from (i : Instr) (f : Frame) (s : σ) :
    Yields (i.exec host p f) s (Next.From i f s) fun _ _ => True := by
  cases i with
  | const dst ws => exact set_from dst ws s
  | binary op dst a b =>
    apply bind_sound
    intro x _
    apply bind_sound
    intro y _
    exact set_from _ _ s
  | load dst slot off =>
    apply Yields.bind_read
    · intro start _
      exact set_from _ _ s
    · intro e _
      trivial
  | store slot off src =>
    apply Yields.bind_read
    · intro start _
      apply bind_sound
      intro ws _
      exact Yields.pure ⟨rfl, Arena.size_writeFrom _ _ _, fun h => nomatch h⟩
    · intro e _
      trivial
  | address dst slot off =>
    apply bind_sound
    intro base _
    exact set_from _ _ s
  | loadIndirect dst addr =>
    apply bind_sound
    intro a _
    apply Yields.bind
    cases hload : loadAt host f a dst.words s with
    | error e s' => exact Yields.of_error hload trivial
    | ok ws s' => exact Yields.of_ok hload (set_from dst ws s)
  | storeIndirect addr src =>
    apply bind_sound
    intro a _
    apply bind_sound
    intro ws _
    apply Yields.bind
    apply (storeAt_leaves a ws).imp
    intro f' s' hf'
    exact Yields.pure ⟨congrArg Array.size hf'.1, hf'.2.1, fun h => nomatch h⟩
  | call dst name args =>
    apply Yields.bind
    apply (callHost_leaves dst name args).imp
    intro f' s' hf'
    exact Yields.pure ⟨hf'.1, congrArg Array.size hf'.2, fun _ => hf'.2⟩
  | branch target => exact Yields.pure ⟨rfl, rfl⟩
  | branchIf cond target alt =>
    apply bind_sound
    intro c _
    exact Yields.pure ⟨rfl, rfl⟩
  | ret v =>
    apply bind_sound
    intro ws hws
    exact Yields.pure ⟨⟨v, rfl, hws⟩, rfl⟩
  | trap => exact Yields.of_error rfl trivial

end Exec

/-- A step keeps the size of the frame. -/
theorem Step.fits {c c' : Config σ} (h : Step host p c c') (hf : c.frame.Fits p) :
    c'.frame.Fits p := by
  have hsizes : c'.frame.regs.size = c.frame.regs.size ∧
      c'.frame.words.size = c.frame.words.size := by
    cases h with
    | onward hi hexec =>
      obtain ⟨hregs, hwords, -⟩ := (exec_from _ _ _).ok hexec
      exact ⟨hregs, hwords⟩
    | jump hi hexec hb hphis hset =>
      obtain ⟨hregs, hwords⟩ := Frame.setAll_leaves hset
      obtain ⟨hsame, -⟩ := (exec_from _ _ _).ok hexec
      rw [hregs, hwords, hsame]
      exact ⟨rfl, rfl⟩
  obtain ⟨hregs, hwords⟩ := hsizes
  refine ⟨?_, ?_, ?_, ?_⟩
  · rw [hregs, hf.regs]
  · rw [hwords, hf.words]
  · rw [hregs]
    exact hf.fewRegs
  · rw [hwords]
    exact hf.fewWords

/-- A step at an instruction that writes nothing leaves the words of the frame as they are. -/
theorem Step.words {c c' : Config σ} (h : Step host p c c')
    (hwrites : ∀ i, p.instr? c.point = some i → i.writes = false) :
    c'.frame.words = c.frame.words := by
  cases h with
  | onward hi hexec =>
    obtain ⟨-, -, hwords⟩ := (exec_from _ _ _).ok hexec
    exact hwords (hwrites _ hi)
  | jump hi hexec hb hphis hset =>
    obtain ⟨-, hwords⟩ := Frame.setAll_leaves hset
    obtain ⟨hsame, -⟩ := (exec_from _ _ _).ok hexec
    rw [hwords, hsame]

/-- A store to an address that is not in the frame leaves its words as they are, too. -/
theorem Step.words_outside {c c' : Config σ} {addr src : Value} {a : UInt64}
    (h : Step host p c c') (hi : p.instr? c.point = some (.storeIndirect addr src))
    (ha : c.frame.word addr = .ok a) (houtside : a &&& frameBit = 0) :
    c'.frame.words = c.frame.words := by
  have hexec : ∀ {next : Next} {s' : σ},
      (Instr.storeIndirect addr src).exec host p c.frame c.world = .ok next s' →
      ∃ f', next = .onward f' ∧ f'.words = c.frame.words := by
    intro next s' hexec
    rw [Instr.exec, bind_eq_ok (sound_eq_ok ha)] at hexec
    obtain ⟨ws, t, -, hstore⟩ := of_bind_eq_ok hexec
    obtain ⟨f', t', hstored, hnext⟩ := of_bind_eq_ok hstore
    cases hnext
    exact ⟨f', rfl, ((storeAt_leaves a ws).ok hstored).2.2 houtside⟩
  cases h with
  | onward hi' hrun =>
    cases hi.symm.trans hi'
    obtain ⟨f', hnext, hwords⟩ := hexec hrun
    cases hnext
    exact hwords
  | jump hi' hrun =>
    cases hi.symm.trans hi'
    obtain ⟨f', hnext, -⟩ := hexec hrun
    cases hnext

/-- There is only one step from each place. -/
theorem Step.unique {c c' c'' : Config σ} (h : Step host p c c') (h' : Step host p c c'') :
    c' = c'' := by
  cases h with
  | onward hi hexec =>
    cases h' with
    | onward hi' hexec' =>
      cases hi.symm.trans hi'
      cases hexec.symm.trans hexec'
      rfl
    | jump hi' hexec' =>
      cases hi.symm.trans hi'
      cases hexec.symm.trans hexec'
  | jump hi hexec hb hphis hset =>
    cases h' with
    | onward hi' hexec' =>
      cases hi.symm.trans hi'
      cases hexec.symm.trans hexec'
    | jump hi' hexec' hb' hphis' hset' =>
      cases hi.symm.trans hi'
      cases hexec.symm.trans hexec'
      cases hb.symm.trans hb'
      cases hphis.symm.trans hphis'
      cases hset.symm.trans hset'
      rfl

/-- Wherever a run comes to, it has the frame that the program asks for. -/
theorem Reaches.fits {s : σ} {c : Config σ} (h : Reaches host p s c) : c.frame.Fits p := by
  obtain ⟨f, hcreate, hsteps⟩ := h
  induction hsteps with
  | refl => exact Frame.fits_create hcreate
  | tail _ hstep ih => exact hstep.fits ih

theorem Reaches.step {s : σ} {c c' : Config σ} (h : Reaches host p s c) (hstep : Step host p c c') :
    Reaches host p s c' := by
  obtain ⟨f, hcreate, hsteps⟩ := h
  exact ⟨f, hcreate, hsteps.tail hstep⟩

/-! ### Runs with an answer -/

/-- The instructions of a block that lead out of it are come to one by one. -/
theorem execAll_steps {k pos : Nat} {b : Block} {f : Frame} {s s' : σ} {next : Next}
    (hb : p.blocks[k]? = some b)
    (hrun : execAll host p (b.code.toList.drop pos) f s = .ok next s') :
    ∃ c x, ReflTransGen (Step host p) ⟨⟨k, pos⟩, f, s⟩ c ∧ c.point.block = k ∧
      p.instr? c.point = some x ∧ x.exec host p c.frame c.world = .ok next s' ∧
      ∀ f', next ≠ .onward f' := by
  -- The induction is on the instructions that are left.
  generalize hrest : b.code.toList.drop pos = rest at hrun
  induction rest generalizing pos f s with
  | nil => cases hrun
  | cons x rest ih =>
    have hlt : pos < b.code.toList.length := by
      by_contra hge
      rw [List.drop_eq_nil_of_le (by omega)] at hrest
      cases hrest
    rw [List.drop_eq_getElem_cons hlt, List.cons.injEq] at hrest
    have hx : p.instr? ⟨k, pos⟩ = some x := by
      refine Option.bind_eq_some_iff.2 ⟨b, hb, ?_⟩
      rw [← hrest.1, ← Array.getElem?_toList]
      exact List.getElem?_eq_getElem hlt
    obtain ⟨next', t, hexec, hnext⟩ := of_bind_eq_ok hrun
    -- The first instruction goes on to the next one, or it is the one that leads out.
    cases next' with
    | onward f' =>
      obtain ⟨c, y, hsteps, hrest⟩ := ih hrest.2 hnext
      have hfirst : Step host p ⟨⟨k, pos⟩, f, s⟩ ⟨⟨k, pos + 1⟩, f', t⟩ := .onward hx hexec
      exact ⟨c, y, .head hfirst hsteps, hrest⟩
    | jump f' target =>
      cases hnext
      exact ⟨_, x, .refl, rfl, hx, hexec, fun _ h => nomatch h⟩
    | done ws =>
      cases hnext
      exact ⟨_, x, .refl, rfl, hx, hexec, fun _ h => nomatch h⟩

theorem runFrom_steps {fuel k : Nat} {f : Frame} {s s' : σ} {ws : List UInt64}
    (hrun : p.runFrom host fuel k f s = .ok ws s') :
    ∃ c v, ReflTransGen (Step host p) ⟨⟨k, 0⟩, f, s⟩ c ∧ p.instr? c.point = some (.ret v) ∧
      c.frame.get v = .ok ws ∧ c.world = s' := by
  induction fuel generalizing k f s with
  | zero => cases hrun
  | succ fuel ih =>
    rw [Program.runFrom_succ, Program.resume] at hrun
    cases hb : p.blocks[k]? with
    | none =>
      rw [hb] at hrun
      cases hrun
    | some b =>
      rw [hb] at hrun
      obtain ⟨next, t, hall, hfollow⟩ := of_bind_eq_ok hrun
      have hall : execAll host p (b.code.toList.drop 0) f s = .ok next t := by
        cases hexec : execAll host p (b.code.toList.drop 0) f s with
        | ok a t' =>
          rw [mapStop_eq_ok hexec] at hall
          exact hall
        | error e t' =>
          rw [mapStop_eq_error hexec] at hall
          cases hall
      obtain ⟨c, x, hsteps, hblock, hx, hexec, honward⟩ := execAll_steps hb hall
      -- A block is left by a return, where the run ends, or by a jump to another block.
      cases next with
      | onward f' => exact absurd rfl (honward f')
      | done answer =>
        cases hfollow
        obtain ⟨⟨v, rfl, hget⟩, hworld⟩ := (exec_from _ _ _).ok hexec
        exact ⟨c, v, hsteps, hx, hget, hworld.symm⟩
      | jump f' target =>
        simp only [Program.follow] at hfollow
        cases htarget : p.block? target with
        | none =>
          rw [htarget] at hfollow
          cases hfollow
        | some b' =>
          rw [htarget] at hfollow
          obtain ⟨j, rfl, hj⟩ := Program.block?_eq_some htarget
          obtain ⟨incoming, t₁, hwords, hsets⟩ := of_bind_eq_ok hfollow
          obtain ⟨f'', t₂, hall, henter⟩ := of_bind_eq_ok hsets
          obtain ⟨hphis, hworld⟩ := sound_eq_ok_iff.1 hwords
          obtain ⟨hset, hworld'⟩ := sound_eq_ok_iff.1 hall
          rw [hworld', hworld] at henter
          rw [← hblock] at hphis
          obtain ⟨c', v, hsteps', hrest⟩ := ih henter
          exact ⟨c', v, hsteps.trans (.head (.jump hx hexec hj hphis hset) hsteps'), hrest⟩

/-- A run with an answer comes to a return that gives it. -/
theorem run_reaches {fuel : Nat} {s s' : σ} {ws : List UInt64}
    (hrun : p.run host fuel s = .ok ws s') :
    ∃ c v, Reaches host p s c ∧ p.instr? c.point = some (.ret v) ∧ c.frame.get v = .ok ws ∧
      c.world = s' := by
  obtain ⟨f, t, hframe, hfrom⟩ := of_bind_eq_ok hrun
  obtain ⟨hcreate, hworld⟩ := sound_eq_ok_iff.1 hframe
  rw [hworld] at hfrom
  obtain ⟨c, v, hsteps, hrest⟩ := runFrom_steps (k := 0) hfrom
  exact ⟨c, v, ⟨f, hcreate, hsteps⟩, hrest⟩

end TreeMachine.Code
