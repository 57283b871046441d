import TreeMachine.Proofs.Termination.Layout
import TreeMachine.Proofs.Code.Keeping
import TreeMachine.Proofs.Code.Paths

/-! # Runs on a budget

  A program whose blocks are laid out in an order goes on in the order from block to block,
  and starts again from an earlier one only with a unit of the budget.  So if a host grants
  no more than it has, every run ends after a number of blocks that is known beforehand.
  Main statement: with more fuel than that, neither the fuel nor what would happen without
  any makes a difference.
-/

namespace TreeMachine.Code

variable {σ : Type} {host : Host σ} {p : Program} {ask : String} {order : List Nat}
  {P : σ → Prop} {left : σ → Nat} {i : Instr} {f f' : Frame} {s s' : σ} {target : Int}

/-! ### Where jumps come from -/

/-- An instruction leads only to its targets, and changes nothing when it does. -/
theorem exec_jump (h : i.exec host p f s = .ok (.jump f' target) s') :
    target ∈ i.targets ∧ f' = f ∧ s' = s := by
  refine ⟨?_, (exec_from i f s).ok h⟩
  cases i with
  | branch t =>
    cases h
    exact List.mem_singleton_self _
  | branchIf cond t u =>
    obtain ⟨w, s₁, -, h⟩ := of_bind_eq_ok h
    cases h
    split <;> simp [Instr.targets]
  | const dst ws =>
    obtain ⟨f₁, s₁, -, h⟩ := of_bind_eq_ok h
    cases h
  | binary op dst a b =>
    obtain ⟨x, s₁, -, h⟩ := of_bind_eq_ok h
    obtain ⟨y, s₂, -, h⟩ := of_bind_eq_ok h
    obtain ⟨f₁, s₃, -, h⟩ := of_bind_eq_ok h
    cases h
  | load dst slot off =>
    obtain ⟨start, s₁, -, h⟩ := of_bind_eq_ok h
    obtain ⟨f₁, s₂, -, h⟩ := of_bind_eq_ok h
    cases h
  | store slot off src =>
    obtain ⟨start, s₁, -, h⟩ := of_bind_eq_ok h
    obtain ⟨ws, s₂, -, h⟩ := of_bind_eq_ok h
    cases h
  | address dst slot off =>
    obtain ⟨base, s₁, -, h⟩ := of_bind_eq_ok h
    obtain ⟨f₁, s₂, -, h⟩ := of_bind_eq_ok h
    cases h
  | loadIndirect dst addr =>
    obtain ⟨a, s₁, -, h⟩ := of_bind_eq_ok h
    obtain ⟨ws, s₂, -, h⟩ := of_bind_eq_ok h
    obtain ⟨f₁, s₃, -, h⟩ := of_bind_eq_ok h
    cases h
  | storeIndirect addr src =>
    obtain ⟨a, s₁, -, h⟩ := of_bind_eq_ok h
    obtain ⟨ws, s₂, -, h⟩ := of_bind_eq_ok h
    obtain ⟨f₁, s₃, -, h⟩ := of_bind_eq_ok h
    cases h
  | call dst name args =>
    obtain ⟨f₁, s₁, -, h⟩ := of_bind_eq_ok h
    cases h
  | ret v =>
    obtain ⟨ws, s₁, -, h⟩ := of_bind_eq_ok h
    cases h
  | trap => cases h

/-- A run of instructions leads only to targets of one of them. -/
theorem execAll_jump {is : List Instr} (h : execAll host p is f s = .ok (.jump f' target) s') :
    ∃ i ∈ is, target ∈ i.targets := by
  induction is generalizing f s with
  | nil => cases h
  | cons i rest ih =>
    obtain ⟨next, s₁, hexec, h⟩ := of_bind_eq_ok h
    cases next with
    | onward f₁ =>
      obtain ⟨x, hx, ht⟩ := ih h
      exact ⟨x, List.mem_cons_of_mem _ hx, ht⟩
    | jump f₁ t =>
      cases h
      exact ⟨i, List.mem_cons_self, (exec_jump hexec).1⟩
    | done ws => cases h

/-- Instructions that lead nowhere come first. -/
theorem execAll_append_jump {E : RunError → Prop} (hh : host.Keeps P E) (hE : Admits E)
    {before rest : List Instr} (hbefore : ∀ i ∈ before, i.targets = []) (hs : P s)
    (h : execAll host p (before ++ rest) f s = .ok (.jump f' target) s') :
    ∃ f₁ s₁, P s₁ ∧ execAll host p rest f₁ s₁ = .ok (.jump f' target) s' := by
  induction before generalizing f s with
  | nil => exact ⟨f, s, hs, h⟩
  | cons i before ih =>
    obtain ⟨next, s₁, hexec, h⟩ := of_bind_eq_ok h
    have hs₁ : P s₁ := (keeps_exec hh hE p f i s hs).ok hexec
    cases next with
    | onward f₁ => exact ih (fun x hx => hbefore x (List.mem_cons_of_mem _ hx)) hs₁ h
    | jump f₁ t =>
      have ht := (exec_jump hexec).1
      rw [hbefore i List.mem_cons_self] at ht
      cases ht
    | done ws => cases h

/-- A word that has been set is read back. -/
theorem Frame.word_set {v : Value} {w : UInt64} (hv : v.words = 1) (h : f.set v [w] = .ok f') :
    f'.word v = .ok w := by
  unfold Frame.set at h
  split at h
  swap
  · cases h
  rename_i hholds
  cases h
  simp only [Frame.holds, Bool.and_eq_true, decide_eq_true_eq] at hholds
  obtain ⟨⟨hreg, -⟩, hle⟩ := hholds
  have hread : (Arena.writeFrom f.regs v.reg.toNat [w])[v.reg.toNat]? = some w :=
    Stands.single.1 (Stands.write (by simp; omega))
  unfold Frame.word
  rw [if_neg (by omega), hv]
  dsimp only [Int.toNat_one, List.take]
  rw [hread]

/-- A call that has an answer sets it. -/
theorem callHost_eq_ok {dst : Value} {name : String} {args : List Value}
    (h : callHost host f dst name args s = .ok f' s') :
    ∃ fn given ws, host.function? name = some fn ∧ gather f args = .ok given ∧
      fn given s = .ok ws s' ∧ ws.length = dst.words ∧ f.set dst ws = .ok f' := by
  unfold callHost at h
  cases hfn : host.function? name with
  | none =>
    rw [hfn] at h
    cases h
  | some fn =>
    rw [hfn] at h
    obtain ⟨given, s₁, hgiven, hrest⟩ := of_bind_eq_ok h
    obtain ⟨hgather, hs₁⟩ := sound_eq_ok_iff.1 hgiven
    obtain ⟨ws, s₂, hanswer, hend⟩ := of_bind_eq_ok hrest
    rw [hs₁] at hanswer
    dsimp only at hend
    split at hend
    · cases hend
    · rename_i hlen
      obtain ⟨hset, rfl⟩ := sound_eq_ok_iff.1 hend
      exact ⟨fn, given, ws, rfl, hgather, mapStop_eq_ok_iff.1 hanswer, not_not.1 hlen, hset⟩

/-- A block that asks first leads on to where it needs a unit of the budget only if the
    function has answered something else than zero. -/
theorem asks_jump {E : RunError → Prop} (hh : host.Keeps P E) (hE : Admits E) {b : Block}
    {granted denied : Int} (hb : b.Asks ask granted denied) (hs : P s)
    (h : execAll host p b.code.toList f s = .ok (.jump f' target) s') :
    target = denied ∨ ∃ fn s₁ w, host.function? ask = some fn ∧ P s₁ ∧
      fn [] s₁ = .ok [w] s' ∧ w ≠ 0 := by
  obtain ⟨before, v, hcode, hv, hbefore⟩ := hb
  rw [hcode] at h
  obtain ⟨f₁, s₁, hs₁, h⟩ := execAll_append_jump hh hE hbefore hs h
  obtain ⟨next, s₂, hcall, h⟩ := of_bind_eq_ok h
  obtain ⟨f₂, s₃, hcall, hnext⟩ := of_bind_eq_ok hcall
  cases hnext
  obtain ⟨fn, given, ws, hfn, hgiven, hanswer, hlen, hset⟩ := callHost_eq_ok hcall
  cases hgiven
  have hone : ws.length = 1 := by
    rw [hv] at hlen
    exact_mod_cast hlen
  obtain ⟨w, rfl⟩ := List.length_eq_one_iff.1 hone
  -- The jump reads the register in which the answer stands.
  obtain ⟨next, s₄, hjump, h⟩ := of_bind_eq_ok h
  obtain ⟨x, s₅, hx, hnext⟩ := of_bind_eq_ok hjump
  cases hnext
  cases h
  rw [Frame.word_set hv hset] at hx
  cases hx
  by_cases hw : w = 0
  · exact Or.inl (if_neg (not_not.2 hw))
  · exact Or.inr ⟨fn, s₁, w, hfn, hs₁, hanswer, hw⟩

/-! ### Places in the order -/

/-- How many blocks there are from the block on, in the order. -/
def remaining (order : List Nat) (i : Nat) : Nat := order.length - order.idxOf i

theorem LaidOut.length_eq {blocks : Array Block} (h : LaidOut ask blocks order) :
    order.length = blocks.size := by
  have hperm : order.Perm (List.range blocks.size) := by
    rw [List.perm_ext_iff_of_nodup h.nodup List.nodup_range]
    simpa using h.mem_iff
  simpa using hperm.length_eq

theorem remaining_le (order : List Nat) (i : Nat) : remaining order i ≤ order.length :=
  Nat.sub_le _ _

theorem remaining_pos {i : Nat} (hi : i ∈ order) : 0 < remaining order i :=
  Nat.sub_pos_of_lt (List.idxOf_lt_length_of_mem hi)

/-- There are fewer blocks from a later one on. -/
theorem Before.remaining_lt {i j : Nat} (h : Before order i j) (hnodup : order.Nodup) :
    remaining order j < remaining order i := by
  obtain ⟨l₁, l₂, rfl, hi, hj⟩ := List.cons_sublist_iff.1 h
  rw [List.singleton_sublist] at hj
  have hnot : j ∉ l₁ := fun hmem => (List.nodup_append.1 hnodup).2.2 j hmem j hj rfl
  have hlt := List.idxOf_lt_length_of_mem hi
  rw [remaining, remaining, List.idxOf_append_of_mem hi, List.idxOf_append_of_notMem hnot,
    List.length_append]
  omega

/-! ### Fuel -/

/-- In a world as `P` says, nothing in the host raises what is left of the budget, and `ask`
    spends a unit of it when it answers something else than zero. -/
structure Host.Budgets (host : Host σ) (ask : String) (P : σ → Prop) (left : σ → Nat) : Prop where
  keeps : ∀ n, host.Keeps (fun s => P s ∧ left s ≤ n) fun _ => True
  spends : ∀ fn, host.function? ask = some fn → ∀ s w s', P s → fn [] s = .ok [w] s' → w ≠ 0 →
    left s' < left s

theorem admits_any : Admits fun _ => True :=
  ⟨trivial, fun _ => trivial, fun _ _ _ _ => trivial, fun _ => trivial, fun _ => trivial,
    fun _ _ _ => trivial, fun _ _ _ => trivial, fun _ _ _ _ => trivial⟩

namespace Program

/-- Runs from the start of a block on, and stops with `out` when no fuel is left.  A run that
    has enough fuel is the same whatever `out` is, which one that goes on forever is not. -/
def runFromOr (out : Fault) (host : Host σ) (p : Program) :
    Nat → Int → Frame → Run σ (List UInt64)
  | 0, _, _ => throw (.fault out)
  | fuel + 1, cur, f => do
    match p.block? cur with
    | none => throw (.fault .outOfBounds)
    | some b =>
      match ← mapStop (.inBlock p.name b.name) (execAll host p b.code.toList f) with
      | .done ws => return ws
      | .onward _ => stop .trap
      | .jump f target =>
        match p.block? target with
        | none => throw (.fault .outOfBounds)
        | some next =>
          let incoming ← sound (f.phiWords cur next.phis.toList)
          runFromOr out host p fuel target (← sound (f.setAll incoming))

/-- Runs a program, and stops with `out` when no fuel is left. -/
def runOr (out : Fault) (host : Host σ) (p : Program) (fuel : Nat) : Run σ (List UInt64) := do
  p.runFromOr out host fuel 0 (← sound (Frame.create p))

theorem runFrom_eq_or (host : Host σ) (p : Program) (fuel : Nat) (cur : Int) (f : Frame) :
    p.runFrom host fuel cur f = p.runFromOr .endless host fuel cur f := by
  induction fuel generalizing cur f with
  | zero => rfl
  | succ fuel ih =>
    rw [runFrom, runFromOr]
    cases p.block? cur with
    | none => rfl
    | some b =>
      refine bind_congr fun next => ?_
      cases next with
      | done ws => rfl
      | onward f' => rfl
      | jump f' target =>
        dsimp only
        cases p.block? target with
        | none => rfl
        | some b' => exact bind_congr fun incoming => bind_congr fun f'' => ih target f''

theorem run_eq_or (host : Host σ) (p : Program) (fuel : Nat) :
    p.run host fuel = p.runOr .endless host fuel := by
  simp only [run, runOr, runFrom_eq_or]

end Program

namespace LaidOut

variable {i fuel fuel' : Nat} {b : Block} {out out' : Fault}

/-- A block leads on to a later one, or there is less left of the budget. -/
theorem jump (h : LaidOut ask p.blocks order) (hhost : host.Budgets ask P left)
    (hb : p.blocks[i]? = some b) (hs : P s)
    (hrun : execAll host p b.code.toList f s = .ok (.jump f' target) s') :
    P s' ∧ left s' ≤ left s ∧ (Ahead order i target ∨ left s' < left s) := by
  have hkeeps := hhost.keeps (left s)
  have hs : P s ∧ left s ≤ left s := ⟨hs, Nat.le_refl _⟩
  obtain ⟨hP, hle⟩ := (keeps_execAll hkeeps admits_any p _ f s hs).ok hrun
  refine ⟨hP, hle, ?_⟩
  rcases h.leads i b hb with hall | ⟨granted, denied, hasks, hdenied⟩
  · obtain ⟨x, hx, ht⟩ := execAll_jump hrun
    exact Or.inl (hall x hx target ht)
  · rcases asks_jump hkeeps admits_any hasks hs hrun with
      rfl | ⟨fn, s₁, w, hfn, ⟨hs₁, hle₁⟩, hanswer, hw⟩
    · exact Or.inl hdenied
    · exact Or.inr (Nat.lt_of_lt_of_le (hhost.spends fn hfn s₁ w s' hs₁ hanswer hw) hle₁)

/-- From a block on, a run enters no more blocks than come after it and, for each unit of the
    budget, no more than there are. -/
theorem runFromOr_eq (h : LaidOut ask p.blocks order) (hhost : host.Budgets ask P left) (hs : P s)
    (hfuel : p.blocks.size * left s + remaining order i < fuel)
    (hfuel' : p.blocks.size * left s + remaining order i < fuel') :
    p.runFromOr out host fuel i f s = p.runFromOr out' host fuel' i f s := by
  induction fuel generalizing fuel' i f s with
  | zero => exact absurd hfuel (Nat.not_lt_zero _)
  | succ fuel ih =>
    obtain ⟨fuel', rfl⟩ : ∃ n, fuel' = n + 1 := ⟨fuel' - 1, by omega⟩
    rw [Program.runFromOr, Program.runFromOr, Program.block?_natCast]
    cases hb : p.blocks[i]? with
    | none => rfl
    | some b =>
      refine bind_congr_ok fun next s₁ hblock => ?_
      cases next with
      | done ws => rfl
      | onward f₁ => rfl
      | jump f₁ t =>
        obtain ⟨hs₁, hle, hlower⟩ := h.jump hhost hb hs (mapStop_eq_ok_iff.1 hblock)
        dsimp only
        cases hnext : p.block? t with
        | none => rfl
        | some next =>
          obtain ⟨j, rfl, hj⟩ := Program.block?_eq_some hnext
          have hless : p.blocks.size * left s₁ + remaining order j
              < p.blocks.size * left s + remaining order i := by
            rcases hlower with ⟨k, hk, hbefore⟩ | hspent
            · obtain rfl : j = k := by exact_mod_cast hk
              have hlater := hbefore.remaining_lt h.nodup
              have := Nat.mul_le_mul_left p.blocks.size hle
              omega
            · -- A unit of the budget pays for all the blocks there are.
              have hpos := remaining_pos ((h.mem_iff i).2 (Array.getElem?_eq_some_iff.1 hb).1)
              have hall := remaining_le order j
              rw [h.length_eq] at hall
              have hunit := Nat.mul_le_mul_left p.blocks.size (Nat.succ_le_of_lt hspent)
              rw [Nat.mul_succ] at hunit
              omega
          refine bind_congr_ok fun incoming s₂ hincoming => bind_congr_ok fun f₂ s₃ hset => ?_
          have hs₂ := (sound_eq_ok_iff.1 hincoming).2
          have hs₃ := (sound_eq_ok_iff.1 hset).2
          rw [hs₃, hs₂]
          exact ih hs₁ (by omega) (by omega)

/-- A run enters no more blocks than there are, and as many again for each unit of the budget
    that is left at its start.  So with more fuel than that it never gets to the end of it. -/
theorem runOr_eq (h : LaidOut ask p.blocks order) (hhost : host.Budgets ask P left) (hs : P s)
    (hfuel : p.blocks.size * (left s + 1) < fuel) (hfuel' : p.blocks.size * (left s + 1) < fuel') :
    p.runOr out host fuel s = p.runOr out' host fuel' s := by
  have hfirst : p.blocks.size * left s + remaining order 0 ≤ p.blocks.size * (left s + 1) := by
    have hle := remaining_le order 0
    rw [h.length_eq] at hle
    rw [Nat.mul_succ]
    omega
  unfold Program.runOr
  refine bind_congr_ok fun frame s₁ hframe => ?_
  rw [(sound_eq_ok_iff.1 hframe).2]
  exact h.runFromOr_eq (i := 0) hhost hs (by omega) (by omega)

end LaidOut

end TreeMachine.Code
