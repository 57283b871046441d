import TreeMachine.Proofs.Compile.Site

/-! # Literals and arithmetic

  Main statements: literals, zero and the operations on words leave the value of the
  expression in one register, provided that their operands have one word.
-/

namespace TreeMachine.Compile

open Code (Module Value Program Frame Stands wrap BinaryOp)
open Code.Module (Emits)

variable {X : Type} {W : List Record} {node : X → Node} {place : X → Location}
  {g g' : Generator} {c c' : Catalogue} {R R' w : Nat} {site : Site}

/-! ### Constants -/

/-- An expression that is one constant word. -/
theorem constant_outcome {e : Expr X} {v : UInt64} (h : AtSite W node place g c R site [])
    (he : e.width = some 1) (heval : ∀ env, e.eval env = [v]) (hvol : e.volume = 3) {t : Ty}
    (ht : t = g.heap.types.scalars.integer) :
    Outcome W place e [site.node] site.degree.inner site.storage g c R
      (do finishPlain site (← build (Module.const [v])) t) g := by
  obtain ⟨m, hconst, hslots, hcode⟩ :=
    Module.const_emits h.ready.opened h.ready.count (show 0 < [v].length by simp)
  refine Yields.bind_ok (build_eq_ok hconst) ?_
  have hsame : Moves g c [] g c := .refl h.ready.standard.toInterned
  have hm := hsame.setModule m
  refine h.finish hm h.ready.room he ht rfl (by simp [hvol]) (Nat.le_refl R) (Nat.le_refl _) ?_ ?_
  · refine hcode.imp ?_
    intro p S f f' hcon hf hsets
    refine ⟨hsets.keeps (Nat.le_refl R) _ _ _, ?_⟩
    intro env _
    rw [heval env]
    exact hsets.stands
  · refine ⟨[], ?_, ?_⟩
    · show m.slots.toList = _
      rw [hslots, List.append_nil]
    · rw [hvol]
      split <;> decide

/-! ### Operands -/

theorem valueOf_temporary {info : Info} (h : info.addressable = false) (g : Generator) :
    valueOf info g = .ok info.value g := by
  rw [valueOf, if_neg (by simp [h])]
  rfl

/-- An operand that must be an integer is generated as a value of one word, or its width is
    another one. -/
theorem operands_checked {gen : SubGen} {a : Expr X} {n n₁ : Node} {ns₁ : List Node} {i : Nat}
    {rest : List Param} {Q : Option (List Info) → Generator → Prop}
    {E : Stop CompileError → Generator → Prop} (hwork : Works W node place gen a n₁ ns₁)
    (hready : Ready W node place g c R) (hspell : Expr.Spells g.heap node a n₁ ns₁)
    (hfresh : Fresh g ns₁) (hW : ∀ r ∈ a.types g.heap.types.scalars.integer, r ∈ W)
    (hchild : child n i g = .ok n₁ g)
    (hnext : ∀ info g' c' R', Settled W place a ns₁ .value nowhere g c R info g' 1 c' R' →
      Yields (do return (← operands gen n (i + 1) rest).map (info :: ·)) g' Q E)
    (herr : a.width ≠ some 1 → ∀ f s, E f s) :
    Yields (operands gen n i (.checked .integer :: rest)) g Q E := by
  unfold operands
  refine Yields.bind_ok hchild ?_
  by_cases hzero : n₁ = 0
  · rw [if_pos hzero]
    have hnull := hspell.eq_null hzero
    exact herr (by rw [hnull]; simp [Expr.width]) _ _
  · rw [if_neg hzero]
    refine Yields.bind ((hwork g c R .value nowhere hready hspell hfresh hW
      fun h => by cases h).mono ?_ fun f s hnone => herr (by rw [hnone]; simp) f s)
    intro info g' hset
    obtain ⟨w, c', R', hset⟩ := hset
    have hs' : g'.heap.Standard c' := hready.standard.extends hset.moves.ext
    refine Yields.bind_ok (doesNotReturn_eq g') ?_
    rw [if_neg (hs'.integers_returns hset.type)]
    have hfits : look (fun h => do h.fits info.type (← h.scalar Kind.integer.word)) g'
        = .ok (decide (w = 1)) g' := look_eq_ok (hs'.fits_integer hset.type)
    refine Yields.bind_ok hfits ?_
    by_cases hw : w = 1
    · subst hw
      exact hnext info g' c' R' hset
    · rw [decide_eq_false hw]
      exact herr (by rw [hset.width]; simpa using hw) _ _

/-! ### Operations -/

/-- The code leaves two words in registers. -/
def LeavesWords (place : X → Location) (u v : (X → UInt64) → UInt64) (m : Module) (R : Nat)
    (m' : Module) (R' a b : Nat) : Prop :=
  Emits m R m' R' fun p f f' => f.Keeps f' R (p.start m.slots.size) 0 0 ∧
    ∀ env, Env place p f env → f'.regs[a]? = some (u env) ∧ f'.regs[b]? = some (v env)

/-- An operation on two words. -/
theorem LeavesWords.binary {e : Expr X} {u v : (X → UInt64) → UInt64} {m m₁ : Module} {R₁ a b : Nat}
    (h : LeavesWords place u v m R m₁ R₁ a b) (op : BinaryOp) (ha : a < R₁) (hb : b < R₁)
    (heval : ∀ env, e.eval env = [op.eval (u env) (v env)]) :
    ∃ m', Module.binary op (Value.run a 1) (Value.run b 1) m₁ = (Value.run R₁ 1, m') ∧
      m'.slots = m₁.slots ∧ LeavesRegisters place e m R m' (R₁ + 1) R₁ := by
  obtain ⟨m', hrun, hslots, hcode⟩ := Module.binary_emits h.opened h.count op ha hb
  refine ⟨m', hrun, hslots, (h.trans hcode).imp ?_⟩
  intro p S f f' hcon hf hdone
  obtain ⟨f₁, -, ⟨hkeeps, hwords⟩, x, y, hx, hy, hsets⟩ := hdone
  refine ⟨hkeeps.trans_same (hsets.keeps h.le _ _ _), ?_⟩
  intro env henv
  obtain ⟨hu, hv⟩ := hwords env henv
  cases hu.symm.trans hx
  cases hv.symm.trans hy
  rw [heval env]
  exact hsets.stands

/-- A value of one word is in its register. -/
theorem stands_word {e : Expr X} {xs : Array UInt64} {r : Nat} {env : X → UInt64}
    (he : e.width = some 1) (h : Stands xs r (e.eval env)) :
    xs[r]? = some (Expr.wordOf (e.eval env)) := by
  rw [Expr.eval_eq_word he] at h
  exact Stands.single.1 h

def StepOp.op : StepOp → BinaryOp
  | .increment => .add
  | .decrement => .sub

def ArithOp.op : ArithOp → BinaryOp
  | .add => .add
  | .subtract => .sub
  | .multiply => .mul
  | .udiv => .udiv
  | .urem => .urem

theorem StepOp.op_eval (op : StepOp) (x : UInt64) : op.op.eval x 1 = op.apply x := by
  cases op <;> rfl

theorem ArithOp.op_eval (op : ArithOp) (x y : UInt64) : op.op.eval x y = op.apply x y := by
  cases op <;> rfl

theorem StepOp.dispatch_eq (op : StepOp) (gen : SubGen) (site : Site) (a : Info) :
    dispatch gen site op.tag [a] = stepByOne site op.op a := by
  cases op <;> rfl

theorem ArithOp.dispatch_eq (op : ArithOp) (gen : SubGen) (site : Site) (a b : Info) :
    dispatch gen site op.tag [a, b] = arithmetic site op.op a b := by
  cases op <;> rfl

theorem StepOp.params_eq (op : StepOp) : op.tag.schema.params = [.checked .integer] := by
  cases op <;> rfl

theorem ArithOp.params_eq (op : ArithOp) :
    op.tag.schema.params = [.checked .integer, .checked .integer] := by
  cases op <;> rfl

theorem StepOp.fields_eq (op : StepOp) : op.tag.fields = 1 := by
  cases op <;> rfl

theorem ArithOp.fields_eq (op : ArithOp) : op.tag.fields = 2 := by
  cases op <;> rfl

/-- An operation on a word and one. -/
theorem step_outcome {gen : SubGen} {op : StepOp} {a : Expr X} {n₁ : Node} {ns₁ : List Node}
    (h : AtSite W node place g c R site ns₁)
    (hn : g.heap.arena.Owns site.node [op.tag.word, 0, n₁])
    (hspell : Expr.Spells g.heap node a n₁ ns₁) (hwork : Works W node place gen a n₁ ns₁)
    (hW : ∀ r ∈ (Expr.step op a).types g.heap.types.scalars.integer, r ∈ W) :
    Outcome W place (.step op a) (site.node :: ns₁) site.degree.inner site.storage g c R
      (body gen site op.tag) g := by
  have hchild : child site.node 0 g = .ok n₁ g :=
    child_eq h.ready.standard.sized hn (by rw [op.fields_eq]; rfl) rfl
  have hnone : a.width ≠ some 1 → (Expr.step op a).width = none := by
    intro hne
    rw [Expr.width, if_neg hne]
  unfold body
  rw [op.params_eq]
  refine Yields.bind (operands_checked hwork h.ready hspell h.fresh hW hchild ?_
    fun hne _ _ => hnone hne)
  intro info g₁ c₁ R₁ hset
  refine Yields.of_ok (show _ = EStateM.Result.ok (some [info]) g₁ from rfl) ?_
  dsimp only
  rw [op.dispatch_eq]
  obtain ⟨htemp, ⟨r, hlo, hhi, hvalue, hcode⟩, new, hnew, hsum⟩ := hset.delivered
  obtain ⟨m₂, hconst, hslots₂, hcode₂⟩ :=
    Module.const_emits hcode.opened hcode.count (show 0 < [(1 : UInt64)].length by simp)
  have hwords : LeavesWords place (fun env => Expr.wordOf (a.eval env)) (fun _ => 1) g.module R m₂
      (R₁ + 1) r R₁ := by
    refine (hcode.trans hcode₂).imp ?_
    intro p S f f' hcon hf hdone
    obtain ⟨f₁, -, ⟨hkeeps, hstands⟩, hsets⟩ := hdone
    refine ⟨hkeeps.trans_same (hsets.keeps hcode.le _ _ _), ?_⟩
    intro env henv
    refine ⟨?_, Stands.single.1 hsets.stands⟩
    rw [hsets.others r (by omega)]
    exact stands_word hset.width (hstands env henv)
  obtain ⟨m₃, hbinary, hslots₃, hcode₃⟩ := hwords.binary (e := .step op a) op.op (by omega)
    (by omega) fun env => by rw [Expr.eval, op.op_eval]
  have hm := hset.moves
  refine Yields.bind_ok (valueOf_temporary htemp g₁) ?_
  refine Yields.bind_ok (build_eq_ok hconst) ?_
  have hbuild : build (Module.binary op.op info.value (Value.run R₁ [(1 : UInt64)].length))
      { g₁ with module := m₂ } = .ok (Value.run (R₁ + 1) 1) { g₁ with module := m₃ } := by
    rw [hvalue]
    exact build_eq_ok hbinary
  refine Yields.bind_ok hbuild (Yields.bind_ok (integer_eq _) ?_)
  have hvol : (Expr.step op a).volume = 3 + a.volume := by rw [Expr.volume]
  have hfew := hset.few
  refine h.finish (hm.setModule m₃) hset.room (Expr.width_step.2 ⟨hset.width, rfl⟩) rfl rfl ?_ ?_
    (Nat.le_refl _) hcode₃ ?_
  · omega
  · omega
  · refine ⟨new, ?_, ?_⟩
    · show m₃.slots.toList = _
      rw [hslots₃, hslots₂, hnew]
    · rw [hvol]
      split <;> omega

/-- The code of two expressions, one after the other, leaves both words. -/
theorem LeavesRegisters.words {a b : Expr X} {m₁ m₂ : Module} {R₁ R₂ r₁ r₂ : Nat}
    (hready : Ready W node place g c R) (ha : a.width = some 1) (hb : b.width = some 1)
    (hcode₁ : LeavesRegisters place a g.module R m₁ R₁ r₁) (hr₁ : r₁ + 1 ≤ R₁)
    (hcode₂ : LeavesRegisters place b m₁ R₁ m₂ R₂ r₂) :
    LeavesWords place (fun env => Expr.wordOf (a.eval env)) (fun env => Expr.wordOf (b.eval env))
      g.module R m₂ R₂ r₁ r₂ := by
  refine (hcode₁.trans hcode₂).imp ?_
  intro p S f f' hcon hf hdone
  obtain ⟨f₁, -, ⟨hkeeps₁, hstands₁⟩, hkeeps₂, hstands₂⟩ := hdone
  have hcon₁ := hcon.below (hcode₂.grows.below S) hcode₂.le
  have hcon₀ := hcon₁.below (hcode₁.grows.below S) hcode₁.le
  have hle := hcon.start_mono hcode₁.grows.slots_le
  refine ⟨hkeeps₁.trans hkeeps₂ hcode₁.le hle (by omega), ?_⟩
  intro env henv
  refine ⟨?_, stands_word hb (hstands₂ env (hready.env_keeps_zero hcon₀ henv hkeeps₁))⟩
  rw [hkeeps₂.regs r₁ (by omega)]
  exact stands_word ha (hstands₁ env henv)

/-- An operation on two words. -/
theorem arith_outcome {gen : SubGen} {op : ArithOp} {a b : Expr X} {n₁ n₂ : Node}
    {ns₁ ns₂ : List Node} (h : AtSite W node place g c R site (ns₁ ++ ns₂))
    (hnodup : (ns₁ ++ ns₂).Nodup) (hn : g.heap.arena.Owns site.node [op.tag.word, 0, n₁, n₂])
    (hspell₁ : Expr.Spells g.heap node a n₁ ns₁) (hspell₂ : Expr.Spells g.heap node b n₂ ns₂)
    (hwork₁ : Works W node place gen a n₁ ns₁) (hwork₂ : Works W node place gen b n₂ ns₂)
    (hW : ∀ r ∈ (Expr.arith op a b).types g.heap.types.scalars.integer, r ∈ W) :
    Outcome W place (.arith op a b) (site.node :: (ns₁ ++ ns₂)) site.degree.inner site.storage g c R
      (body gen site op.tag) g := by
  have hfields : ([n₁, n₂] : List Node).length = op.tag.fields := by
    rw [op.fields_eq]
    rfl
  have hchild₁ : child site.node 0 g = .ok n₁ g :=
    child_eq h.ready.standard.sized hn hfields rfl
  have hnone : ¬ (a.width = some 1 ∧ b.width = some 1) → (Expr.arith op a b).width = none := by
    intro hne
    rw [Expr.width, if_neg hne]
  rw [Expr.types] at hW
  unfold body
  rw [op.params_eq]
  refine Yields.bind (operands_checked hwork₁ h.ready hspell₁ h.fresh.left
    (fun r hr => hW r (List.mem_append_left _ hr)) hchild₁ ?_
    fun hne _ _ => hnone fun hboth => hne hboth.1)
  intro info₁ g₁ c₁ R₁ hset₁
  -- The second operand, in the state that the first one leaves.
  obtain ⟨htemp₁, ⟨r₁, hlo₁, hhi₁, hvalue₁, hcode₁⟩, new₁, hnew₁, hsum₁⟩ := hset₁.delivered
  have hm₁ := hset₁.moves
  have hready₁ := h.ready.next h.fresh.left hm₁ hset₁.room hcode₁
  have hchild₂ : child site.node 1 g₁ = .ok n₂ g₁ :=
    child_eq hready₁.standard.sized (hn.grows hm₁.ext.grows) hfields rfl
  refine Yields.bind (operands_checked hwork₂ hready₁ (hspell₂.extends hm₁.ext)
    (h.fresh.after hnodup hm₁) ?_ hchild₂ ?_ fun hne _ _ => hnone fun hboth => hne hboth.2)
  · intro r hr
    rw [hm₁.ext.scalars_eq] at hr
    exact hW r (List.mem_append_right _ hr)
  intro info₂ g₂ c₂ R₂ hset₂
  refine Yields.of_ok (show _ = EStateM.Result.ok (some [info₂]) g₂ from rfl) ?_
  show Yields (dispatch gen site op.tag [info₁, info₂]) g₂ _ _
  rw [op.dispatch_eq]
  obtain ⟨htemp₂, ⟨r₂, hlo₂, hhi₂, hvalue₂, hcode₂⟩, new₂, hnew₂, hsum₂⟩ := hset₂.delivered
  have hm₂ := hset₂.moves
  have hwords := LeavesRegisters.words h.ready hset₁.width hset₂.width hcode₁ hhi₁ hcode₂
  obtain ⟨m₃, hbinary, hslots₃, hcode₃⟩ := hwords.binary (e := .arith op a b) op.op
    (by have := hcode₂.le; omega) (by omega) fun env => by rw [Expr.eval, op.op_eval]
  refine Yields.bind_ok (valueOf_temporary htemp₁ g₂) ?_
  refine Yields.bind_ok (valueOf_temporary htemp₂ g₂) ?_
  have hbuild : build (Module.binary op.op info₁.value info₂.value) g₂
      = .ok (Value.run R₂ 1) { g₂ with module := m₃ } := by
    rw [hvalue₁, hvalue₂]
    exact build_eq_ok hbinary
  refine Yields.bind_ok hbuild (Yields.bind_ok (integer_eq _) ?_)
  have hvol : (Expr.arith op a b).volume = 3 + a.volume + b.volume := by rw [Expr.volume]
  have hfew₁ := hset₁.few
  have hfew₂ := hset₂.few
  refine h.finish ((hm₁.append hm₂).setModule m₃) hset₂.room
    (Expr.width_arith.2 ⟨hset₁.width, hset₂.width, rfl⟩) rfl rfl ?_ ?_ (Nat.le_refl _) hcode₃ ?_
  · omega
  · have := hcode₁.le
    have := hcode₂.le
    omega
  · refine ⟨new₁ ++ new₂, ?_, ?_⟩
    · show m₃.slots.toList = _
      rw [hslots₃, hnew₂, hnew₁, List.append_assoc]
    · rw [hvol, List.sum_append]
      split <;> omega

end TreeMachine.Compile
