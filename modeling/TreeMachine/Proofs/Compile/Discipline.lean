import TreeMachine.Proofs.Compile.Cutback
import TreeMachine.Proofs.Compile.Descent

/-! # The discipline of the shadow stack

  Generating a node pushes results on the shadow stack and takes none away that were there.
  Positions in the order of generation are numbers of 64 bits; as long as they do not run
  over, every recorded position is below the clock.  Main statement: generation from a
  consistent state ends in a consistent state, with what was recorded in slots still there.
-/

namespace TreeMachine.Compile

open Code (Module Value BinaryOp)

variable {N : Node → Tag → Prop} {p : Prop} {b g g' : Generator} {c c' : Catalogue}
  {gen : SubGen} {site : Site} {tag : Tag} {info a a' : Info} {n : Node}

/-! ### Operations -/

/-- A value of a scalar type is delivered. -/
theorem deliverScalar_records {v : Value} {ct : Contract} {w : Nat} (h : Standing N p b g c)
    (hsite : site.Opens N tag p b g) (hv : v.words = w) (pick : Scalars → Ty)
    (hpick : ∀ (heap : Heap) (c : Catalogue), heap.Standard c →
      c.Knows (pick heap.types.scalars) ∧ heap.width (pick heap.types.scalars) = w) :
    Leaves p (do finish site v (pick (← get).heap.types.scalars) ct true) g c
      (Recorded N p b site.node site.degree) := by
  obtain ⟨hknows, hwidth⟩ := hpick g.heap c h.standard
  refine .read (x := get) rfl (finish_records h hsite hknows fun _ => ?_)
  rw [hv, hwidth]

theorem deliverInteger_records {v : Value} (h : Standing N p b g c)
    (hsite : site.Opens N tag p b g) (hv : v.words = 1) :
    Leaves p (do finishPlain site v (← integer)) g c (Recorded N p b site.node site.degree) :=
  deliverScalar_records h hsite hv (·.integer) fun _ _ hs =>
    ⟨Heap.knows_of_mem hs.integer, hs.width_integer⟩

theorem deliverDynamic_records {v : Value} {ct : Contract} (h : Standing N p b g c)
    (hsite : site.Opens N tag p b g) (hv : v.words = 2) :
    Leaves p (do finish site v (← get).heap.types.scalars.dynamic ct true) g c
      (Recorded N p b site.node site.degree) :=
  deliverScalar_records h hsite hv (·.dynamic) fun _ _ hs =>
    ⟨Heap.knows_of_mem hs.dynamic, hs.width_dynamic⟩

theorem reference_records (h : Standing N p b g c) (hsite : site.Opens N tag p b g)
    (hfield : 0 < tag.schema.nodeFields) (copy : Bool) :
    Leaves p (reference site copy) g c (Recorded N p b site.node site.degree) := by
  obtain ⟨k, hk, -⟩ := h.child_eq hsite.node hfield
  unfold reference
  refine .read hk ?_
  dsimp only
  split
  · exact .fail_bind rfl
  refine .read (x := get) rfl ?_
  cases hmemo : g.memo.get? k with
  | some info =>
    have hplaced := h.tracked.memo k info hmemo
    -- A slot can be read, and it has an address.
    dsimp only
    split
    · exact .value h hplaced.sized fun v g₁ hg₁ h₁ hv =>
        finish_records_after hg₁ h.interned h₁ hsite hplaced.knows hv
    · refine .build h (Module.address_spares _ _) fun v g₁ hg₁ h₁ hv => ?_
      refine .makes h₁ (h₁.interned.pointerTo_yields hplaced.knows) fun t g₂ c₂ hg₂ h₂ ht => ?_
      refine finish_records h₂ (hsite.proceeds (hg₁.trans hg₂)) (Heap.knows_of_mem ht) fun _ => ?_
      rw [hv, h₂.interned.width_pointer ht]
      rfl
  | none =>
    cases htemp : g.temps.get? k with
    | none => exact .fail rfl
    | some info =>
      have hheld := h.tracked.temps k info htemp
      -- Registers have no address, so there is only the copy.
      dsimp only
      split
      · exact finish_records h hsite hheld.knows fun _ => hheld.words
      · exact .fail rfl

/-- A store through a pointer node widens the contract of the slot that the node names. -/
theorem storedInto_leaves (h : Standing N p b g c) (dest : Node) (ct : Contract) :
    Leaves p (storedInto dest ct) g c fun _ g' c' => Standing N p b g' c' := by
  unfold storedInto
  refine .look fun t _ => ?_
  split
  · unfold child
    refine .look fun target _ => ?_
    refine .modify ?_ ?_
    · cases g.memo.get? target with
      | none => exact .refl h.interned
      | some info => exact .of_eq h.interned rfl rfl rfl
    · cases hmemo : g.memo.get? target with
      | none => exact h
      | some info => exact h.setContract hmemo (.merge _ _)
  · exact .pure h.interned h

theorem loadThrough_records (h : Standing N p b g c) (hsite : site.Opens N tag p b g)
    (ha : a.Sized g c) :
    Leaves p (loadThrough site a) g c (Recorded N p b site.node site.degree) := by
  unfold loadThrough
  refine .look fun k hk => ?_
  split
  · exact .fail_bind rfl
  rename_i hkind
  rw [not_not] at hkind
  subst hkind
  obtain ⟨elem, -, helem, hknows, -⟩ := h.interned.pointer_of_kind ha.knows hk
  refine .read (look_eq_ok helem) (.value h ha fun addr g₁ hg₁ h₁ _ => ?_)
  refine .read (sizeOf_known h₁.interned hknows) ?_
  refine .build h₁ (Module.loadIndirect_spares _ _) fun v g₂ hg₂ h₂ hv => .look fun holds _ => ?_
  exact finish_records_after hg₂ h₁.interned h₂ (hsite.proceeds hg₁) hknows hv

theorem storeThrough_records (h : Standing N p b g c) (hsite : site.Opens N tag p b g)
    (hfield : 0 < tag.schema.nodeFields) (ha : a.Sized g c) (ha' : a'.Sized g c) :
    Leaves p (storeThrough site a a') g c (Recorded N p b site.node site.degree) := by
  -- What follows the write itself.
  have hrest {g₁ : Generator} (hg₁ : Proceeds p g c g₁ c) (h₁ : Standing N p b g₁ c) :
      Leaves p (do
        storedInto (← child site.node 0) a'.contract
        finishVoid site 0) g₁ c (Recorded N p b site.node site.degree) := by
    obtain ⟨k, hk, -⟩ := h₁.child_eq hsite.node hfield
    refine .read hk ((storedInto_leaves h₁ k a'.contract).bind fun _ g₂ c₂ hg₂ h₂ => ?_)
    exact finishVoid_records h₂ (hsite.proceeds (hg₁.trans hg₂))
  unfold storeThrough
  refine .look fun k _ => ?_
  dsimp only
  split
  · exact .fail_bind rfl
  refine .look fun fits _ => ?_
  split
  · exact .fail_bind rfl
  split
  · exact .fail_bind rfl
  refine .read (sizeOf_known h.interned ha'.knows) ?_
  split
  · refine .value h ha fun addr g₁ hg₁ h₁ _ => ?_
    refine .value h₁ (hg₁.sized h.interned ha') fun v g₂ hg₂ h₂ _ => ?_
    refine .build h₂ (Module.storeIndirect_spares _ _) fun _ g₃ hg₃ h₃ _ => ?_
    exact hrest ((hg₁.trans hg₂).trans hg₃) h₃
  · exact hrest (.refl h.interned) h

theorem arithmetic_records (h : Standing N p b g c) (hsite : site.Opens N tag p b g) (op : BinaryOp)
    (ha : a.Sized g c) (ha' : a'.Sized g c) :
    Leaves p (arithmetic site op a a') g c (Recorded N p b site.node site.degree) := by
  unfold arithmetic
  refine .value h ha fun x g₁ hg₁ h₁ _ => ?_
  refine .value h₁ (hg₁.sized h.interned ha') fun y g₂ hg₂ h₂ _ => ?_
  refine .build h₂ (Module.binary_spares _ _ _) fun v g₃ hg₃ h₃ hv => ?_
  exact deliverInteger_records h₃ (hsite.proceeds ((hg₁.trans hg₂).trans hg₃)) hv

theorem stepByOne_records (h : Standing N p b g c) (hsite : site.Opens N tag p b g) (op : BinaryOp)
    (ha : a.Sized g c) :
    Leaves p (stepByOne site op a) g c (Recorded N p b site.node site.degree) := by
  unfold stepByOne
  refine .value h ha fun x g₁ hg₁ h₁ _ => ?_
  refine .build h₁ (Module.const_spares _) fun one g₂ hg₂ h₂ _ => ?_
  refine .build h₂ (Module.binary_spares _ _ _) fun v g₃ hg₃ h₃ hv => ?_
  exact deliverInteger_records h₃ (hsite.proceeds ((hg₁.trans hg₂).trans hg₃)) hv

theorem dynamify_records (h : Standing N p b g c) (hsite : site.Opens N tag p b g)
    (ha : a.Sized g c) : Leaves p (dynamify site a) g c (Recorded N p b site.node site.degree) := by
  unfold dynamify
  refine .read (sizeOf_known h.interned ha.knows) ?_
  dsimp only
  split
  · refine .build h (Module.const_spares _) fun v g₁ hg₁ h₁ hv => ?_
    exact deliverDynamic_records h₁ (hsite.proceeds hg₁) hv
  · refine .build h (Module.const_spares _) fun t g₁ hg₁ h₁ _ => ?_
    refine .value h₁ (hg₁.sized h.interned ha) fun x g₂ hg₂ h₂ _ => ?_
    refine .build h₂ (Module.call_spares _ _ _) fun v g₃ hg₃ h₃ hv => ?_
    exact deliverDynamic_records h₃ (hsite.proceeds ((hg₁.trans hg₂).trans hg₃)) hv

/-- The answer of a host to one value is delivered. -/
theorem answer_records (h : Standing N p b g c) (hsite : site.Opens N tag p b g) (ha : a.Sized g c)
    (host : HostName) {pick : Scalars → Ty} {w : Nat}
    (hpick : ∀ (heap : Heap) (c : Catalogue), heap.Standard c →
      c.Knows (pick heap.types.scalars) ∧ heap.width (pick heap.types.scalars) = w) :
    Leaves p (do
        let x ← valueOf a
        let v ← build (Module.call host.text [x] w)
        finishPlain site v (pick (← get).heap.types.scalars)) g c
      (Recorded N p b site.node site.degree) := by
  refine .value h ha fun x g₁ hg₁ h₁ _ => ?_
  refine .build h₁ (Module.call_spares _ _ _) fun v g₂ hg₂ h₂ hv => ?_
  exact deliverScalar_records h₂ (hsite.proceeds (hg₁.trans hg₂)) hv pick hpick

theorem literal_records (h : Standing N p b g c) (hsite : site.Opens N .literal p b g)
    (infos : List Info) :
    Leaves p (dispatch gen site .literal infos) g c (Recorded N p b site.node site.degree) := by
  unfold dispatch
  refine .look fun value hvalue => ?_
  obtain ⟨t, object⟩ := value
  refine .look fun ws hws => ?_
  have ht := h.closed.literal_known h.interned.sized hsite.node hvalue
  have hlen := h.interned.length_literalWords hvalue ht hws
  refine .build h (Module.const_spares _) fun v g₁ hg₁ h₁ hv => ?_
  rw [hlen] at hv
  exact finish_records_after hg₁ h.interned h₁ hsite ht hv

/-! ### Nodes -/

theorem operands_leave (hgen : SubGen.Tracks gen N p) (hn : N n tag) {i : Nat}
    {params : List Param} (hi : i + params.length ≤ tag.schema.nodeFields)
    (h : Standing N p b g c) :
    Leaves p (operands gen n i params) g c fun infos g' c' =>
      Standing N p b g' c' ∧
        ∀ l, infos = some l → List.Forall₂ (fun _ info => info.Sized g' c') params l := by
  induction params generalizing i g c with
  | nil =>
    refine .pure h.interned ⟨h, fun l hl => ?_⟩
    cases hl
    exact .nil
  | cons param rest ih =>
    rw [List.length_cons] at hi
    unfold operands
    obtain ⟨k, hk, hN⟩ := h.child_eq hn (i := i) (by omega)
    refine .read hk ?_
    dsimp only
    split
    · exact .fail_bind rfl
    refine (hgen.inside h hN fun hd => by cases hd).bind ?_
    rintro info g₁ c₁ - ⟨h₁, hinfo, -⟩
    refine .read (doesNotReturn_eq g₁) ?_
    split
    · -- Behind an operand that does not return there are no others.
      exact .pure h₁.interned ⟨h₁, fun l hl => by cases hl⟩
    have hrest : Leaves p (do return (← operands gen n (i + 1) rest).map (info :: ·)) g₁ c₁
        fun infos g' c' => Standing N p b g' c' ∧ ∀ l, infos = some l →
          List.Forall₂ (fun _ info => info.Sized g' c') (param :: rest) l := by
      refine (ih (by omega) h₁).bind ?_
      rintro infos g₂ c₂ hg₂ ⟨h₂, hinfos⟩
      refine .pure h₂.interned ⟨h₂, fun l hl => ?_⟩
      cases infos with
      | none => cases hl
      | some infos =>
        cases hl
        exact .cons (hg₂.sized h₁.interned hinfo) (hinfos infos rfl)
    cases param with
    | unchecked => exact hrest
    | checked want =>
      refine .look fun fits _ => ?_
      split
      · exact .fail_bind rfl
      · exact hrest

theorem dispatch_records (hgen : SubGen.Tracks gen N p) (h : Standing N p b g c)
    (hsite : site.Opens N tag p b g) {infos : List Info}
    (hinfos : List.Forall₂ (fun _ info => info.Sized g c) tag.schema.params infos) :
    Leaves p (dispatch gen site tag infos) g c (Recorded N p b site.node site.degree) := by
  cases tag with
  | literal => exact literal_records h hsite infos
  | zero =>
    exact .build h (Module.const_spares _) fun _ _ hg₁ h₁ hv =>
      deliverInteger_records h₁ (hsite.proceeds hg₁) hv
  | increment =>
    obtain ⟨a, rfl, ha⟩ := one_operand hinfos
    exact stepByOne_records h hsite .add ha
  | decrement =>
    obtain ⟨a, rfl, ha⟩ := one_operand hinfos
    exact stepByOne_records h hsite .sub ha
  | add =>
    obtain ⟨a, a', rfl, ha, ha'⟩ := two_operands hinfos
    exact arithmetic_records h hsite .add ha ha'
  | subtract =>
    obtain ⟨a, a', rfl, ha, ha'⟩ := two_operands hinfos
    exact arithmetic_records h hsite .sub ha ha'
  | multiply =>
    obtain ⟨a, a', rfl, ha, ha'⟩ := two_operands hinfos
    exact arithmetic_records h hsite .mul ha ha'
  | udiv =>
    obtain ⟨a, a', rfl, ha, ha'⟩ := two_operands hinfos
    exact arithmetic_records h hsite .udiv ha ha'
  | urem =>
    obtain ⟨a, a', rfl, ha, ha'⟩ := two_operands hinfos
    exact arithmetic_records h hsite .urem ha ha'
  | random =>
    exact .build h (Module.call_spares _ _ _) fun _ _ hg₁ h₁ hv =>
      deliverInteger_records h₁ (hsite.proceeds hg₁) hv
  | cond => exact choice_records hgen h hsite
  | pointer => exact reference_records h hsite (by decide) false
  | copy => exact reference_records h hsite (by decide) true
  | load =>
    obtain ⟨a, rfl, ha⟩ := one_operand hinfos
    exact loadThrough_records h hsite ha
  | store =>
    obtain ⟨a, a', rfl, ha, ha'⟩ := two_operands hinfos
    exact storeThrough_records h hsite (by decide) ha ha'
  | concatenate => exact concatenation_records hgen h hsite
  | dynamify =>
    obtain ⟨a, rfl, ha⟩ := one_operand hinfos
    exact dynamify_records h hsite ha
  | compile =>
    obtain ⟨a, rfl, ha⟩ := one_operand hinfos
    exact answer_records h hsite ha .compile fun _ _ hs =>
      ⟨Heap.knows_of_mem hs.function, hs.width_function⟩
  | run =>
    obtain ⟨a, rfl, ha⟩ := one_operand hinfos
    exact answer_records h hsite ha .run fun _ _ hs =>
      ⟨Heap.knows_of_mem hs.dynamic, hs.width_dynamic⟩
  | label => exact label_records hgen h hsite
  | goto => exact jump_records hgen h hsite
  | block => exact block_records hgen h hsite

theorem body_records (hgen : SubGen.Tracks gen N p) (h : Standing N p b g c)
    (hsite : site.Opens N tag p b g) :
    Leaves p (body gen site tag) g c (Recorded N p b site.node site.degree) := by
  have hfew : 0 + tag.schema.params.length ≤ tag.schema.nodeFields := by
    cases tag <;> decide
  unfold body
  refine (operands_leave hgen hsite.node hfew h).bind ?_
  rintro infos g₁ c₁ hg₁ ⟨h₁, hinfos⟩
  have hsite₁ := hsite.proceeds hg₁
  cases infos with
  | some infos => exact dispatch_records hgen h₁ hsite₁ (hinfos infos rfl)
  | none => exact .read (doesNotReturn_eq g₁) (finishNever_records h₁ hsite₁ rfl)

/-- If it has not run over, the clock is one ahead of the last position. -/
theorem Generator.last_succ (hclock : g.clock ≠ 0) : g.last.toNat + 1 = g.clock.toNat :=
  Arena.toNat_pred hclock

/-- A clock that has not run over goes on, and the position it gave is the last one then. -/
theorem tick_proceeds (hi : g.heap.Interned c) (hclock : p → g.clock ≠ 0) :
    Proceeds p g c { g with clock := g.clock + 1 } c ∧
      Generator.last { g with clock := g.clock + 1 } = g.clock := by
  have hlast : Generator.last { g with clock := g.clock + 1 } = g.clock :=
    UInt64.add_sub_cancel _ _
  refine ⟨⟨.of_eq hi rfl rfl, fun hp => ?_⟩, hlast⟩
  have hsucc := Generator.last_succ (hclock hp)
  rw [hlast, UInt64.le_iff_toNat_le]
  omega

/-- Once what comes before it is generated, the node takes the next position. -/
theorem nodeRest_records (hgen : SubGen.Tracks gen N p) (h : Standing N p g g c) (hn : N n tag)
    (hclock : p → g.clock ≠ 0) {degree : Degree} {storage : Location}
    (hslot : degree = .storeInto → storage.slot < g.module.slots.size) :
    Leaves p (nodeRest gen n degree storage) g c (Recorded N p g n degree) := by
  unfold nodeRest
  refine .read (x := get) rfl (.read (x := shadowDepth) rfl ?_)
  obtain ⟨hg₁, hlast⟩ := tick_proceeds (p := p) h.interned hclock
  have h₁ : Standing N p g { g with clock := g.clock + 1 } c := h.proceeds hg₁ rfl rfl rfl
  refine .step (a := ()) rfl hg₁ ?_
  -- The body of the node, wherever its result goes.
  have hbody {g₂ : Generator} (hg₂ : Proceeds p { g with clock := g.clock + 1 } c g₂ c)
      (h₂ : Standing N p g g₂ c) {place : Location}
      (hplace : degree ≠ .value → place.slot < g₂.module.slots.size) :
      Leaves p (do body gen ⟨n, degree, place, g.clock, g.shadow.length⟩ (← look (·.tag n))) g₂ c
        (Recorded N p g n degree) := by
    refine .read (look_eq_ok (h₂.closed.tag_eq h₂.interned.sized hn)) ?_
    refine body_records hgen h₂ ⟨hn, rfl, hplace, fun hp => ?_⟩
    rw [← hlast]
    exact hg₂.last hp
  dsimp only
  split
  · exact .alloca h₁ fun slot g₂ hg₂ h₂ hslot₂ => hbody hg₂ h₂ fun _ => hslot₂
  · rename_i hown
    refine hbody (.refl h₁.interned) h₁ fun hd => hslot ?_
    cases degree with
    | value => exact absurd rfl hd
    | storeInto => rfl
    | ownSlot => exact absurd rfl hown

/-- A node without nodes before it. -/
theorem Recorded.generated {degree : Degree} (h : Recorded N p b n degree info g c) :
    Generated N p b n degree info g c := by
  refine ⟨h.standing, h.sized, h.value, fun hd => ?_⟩
  rcases h.own hd with hshadow | hshadow
  · exact ⟨[], hshadow, fun e he => absurd he List.not_mem_nil⟩
  · refine ⟨[⟨n, true⟩], hshadow, fun e he => ?_⟩
    rw [List.mem_singleton.1 he]
    exact ⟨rfl, .self n⟩

/-- The result of a node is above those of the nodes before it. -/
theorem Generated.next {k : Node} {degree : Degree} {info' : Info}
    (hk : b.heap.preceding n = .ok k) (hne : k ≠ 0) (h : Generated N p b k .ownSlot info g c)
    (h' : Recorded N p g n degree info' g' c') : Generated N p b n degree info' g' c' := by
  refine ⟨h'.standing.lower h.standing.above, h'.sized, h'.value, fun hd => ?_⟩
  obtain ⟨added, hadd, hall⟩ := h.own rfl
  have hchain : ∀ e ∈ added, e.addressable = true ∧ OnChain b.heap n e.node := fun e he =>
    ⟨(hall e he).1, .before hk hne (hall e he).2⟩
  rcases h'.own hd with hshadow | hshadow
  · exact ⟨added, hshadow.trans hadd, hchain⟩
  · refine ⟨⟨n, true⟩ :: added, hshadow.trans (congrArg _ hadd), ?_⟩
    exact List.forall_mem_cons.2 ⟨⟨rfl, .self n⟩, hchain⟩

/-- A node leaves what the nodes before it leave, and its own result above that. -/
theorem generateNode_generates (hgen : SubGen.Tracks gen N p) (h : Standing N p g g c)
    (hn : N n tag) (hclock : p → g.clock ≠ 0) {degree : Degree} {storage : Location}
    (hslot : degree = .storeInto → storage.slot < g.module.slots.size) :
    Leaves p (generateNode gen n degree storage) g c (Generated N p g n degree) := by
  obtain ⟨before, hbefore, hN⟩ := h.closed.preceding_eq h.interned.sized hn
  unfold generateNode
  refine .read (look_eq_ok hbefore) ?_
  dsimp only
  split
  · -- The state before the nodes before this one is the one to compare with in the end.
    rename_i hne
    refine (hgen g c before .ownSlot nowhere hN h fun hd => by cases hd).bind ?_
    rintro info₁ g₁ c₁ hg₁ ⟨hr₁, hclock₁⟩
    have hrest : Leaves p (nodeRest gen n degree storage) g₁ c₁ (Recorded N p g₁ n degree) :=
      nodeRest_records hgen hr₁.standing.rebase hn (fun hp => hclock₁ hp hne)
        fun hd => Nat.lt_of_lt_of_le (hslot hd) hg₁.slots.size_le
    exact hrest.imp fun info g₂ c₂ _ hr₂ => hr₁.next hbefore hne hr₂
  · exact (nodeRest_records hgen h hn hclock hslot).imp fun _ _ _ _ hr => hr.generated

/-- Which nodes are in progress does not count. -/
theorem whileActive_generates {x : Gen Info} {degree : Degree} {S : Generator → Prop}
    (h : Standing N p g g c) (hS : ∀ g' active, S g' → S { g' with active })
    (hx : ∀ g₁, g₁ = { g with active := n :: g.active } → Standing N p g₁ g₁ c →
      Leaves p x g₁ c fun info g' c' => Generated N p g₁ n degree info g' c' ∧ S g') :
    Leaves p (whileActive n x) g c fun info g' c' =>
      Generated N p g n degree info g' c' ∧ S g' := by
  have h₁ : Standing N p g { g with active := n :: g.active } c :=
    h.proceeds (.of_eq h.interned rfl rfl rfl) rfl rfl rfl
  have hrun := hx _ rfl h₁.rebase
  unfold Leaves Yields at hrun ⊢
  unfold whileActive
  cases heq : x { g with active := n :: g.active } with
  | error e g₂ => trivial
  | ok info g₂ =>
    rw [heq] at hrun
    obtain ⟨c₂, hg, hr, hs⟩ := hrun
    have hback : Proceeds p g₂ c₂ { g₂ with active := g₂.active.erase n } c₂ :=
      .of_eq hr.standing.interned rfl rfl rfl
    refine ⟨c₂, ⟨⟨hg.ext, hg.slots⟩, hg.last⟩, ⟨?_, ?_, hr.value, hr.own⟩, hS _ _ hs⟩
    · exact (hr.standing.proceeds hback rfl rfl rfl).lower (.of_eq h.tracked rfl rfl)
    · exact hback.sized hr.standing.interned hr.sized

/-! ### Runs -/

/-- A node is looked at before it is generated: null has no result, and a node in progress is
    an infinite loop. -/
theorem guarded_generates (h : Standing N p g g c) (hn : OrNull N n) {degree : Degree}
    {x : Gen Info}
    (hx : ∀ tag, N n tag → Leaves p x g c fun info g' c' =>
      Generated N p g n degree info g' c' ∧ (p → n ≠ 0 → g'.clock ≠ 0)) :
    Leaves p (do
        if n = 0 then return .none
        if (← get).active.contains n then reject .infiniteLoop n
        x) g c fun info g' c' =>
      Generated N p g n degree info g' c' ∧ (p → n ≠ 0 → g'.clock ≠ 0) := by
  split
  · rename_i hnull
    refine .pure h.interned ⟨⟨h, ⟨Or.inl rfl, fun _ => rfl⟩, fun _ => rfl, fun _ => ?_⟩,
      fun _ hne => absurd hnull hne⟩
    exact ⟨[], rfl, fun e he => absurd he List.not_mem_nil⟩
  rename_i hne
  refine .read (x := get) rfl ?_
  dsimp only
  split
  · exact .fail_bind rfl
  · obtain ⟨tag, htag⟩ := hn.resolve_left hne
    exact hx tag htag

/-- Generation keeps the shadow stack, down to any depth. -/
theorem generate_tracks (depth : Nat) : SubGen.Tracks (generate depth) N False := by
  induction depth with
  | zero =>
    intro g c n degree storage hn h _
    unfold generate
    exact guarded_generates h hn fun _ _ => .fail rfl
  | succ depth ih =>
    intro g c n degree storage hn h hslot
    unfold generate
    refine guarded_generates h hn fun tag htag => ?_
    refine whileActive_generates h (fun _ _ hs => hs) fun g₁ hg₁ h₁ => ?_
    subst hg₁
    exact (generateNode_generates ih h₁ htag False.elim hslot).imp fun _ _ _ _ hr =>
      ⟨hr, False.elim⟩

/-- Stops if the clock has run over. -/
def checkClock : Gen Unit := do
  if (← get).clock = 0 then throw (.fault .endless)

/-- Generation that stops when the clock has run over. -/
def generateInTime : Nat → SubGen
  | depth, n, degree, storage => do
    if n = 0 then return .none
    if (← get).active.contains n then reject .infiniteLoop n
    match depth with
    | 0 => throw (.fault .endless)
    | depth + 1 => whileActive n do
      checkClock
      let info ← generateNode (generateInTime depth) n degree storage
      checkClock
      return info

theorem checkClock_eq (hclock : g.clock ≠ 0) : checkClock g = .ok () g := by
  show (if g.clock = 0 then throw (.fault .endless) else pure () : Gen Unit) g = _
  rw [if_neg hclock]
  rfl

theorem checkClock_eq_error (hclock : g.clock = 0) :
    checkClock g = .error (.fault .endless) g := by
  show (if g.clock = 0 then throw (.fault .endless) else pure () : Gen Unit) g = _
  rw [if_pos hclock]
  rfl

/-- What goes on if the clock has not run over. -/
theorem Leaves.check {β : Type} {f : Unit → Gen β} {R : β → Generator → Catalogue → Prop}
    (hf : g.clock ≠ 0 → Leaves p (f ()) g c R) : Leaves p (checkClock >>= f) g c R := by
  by_cases hclock : g.clock = 0
  · exact .fail_bind (checkClock_eq_error hclock)
  · exact .read (checkClock_eq hclock) (hf hclock)

/-- As long as the clock does not run over, the positions that are recorded are below it. -/
theorem generateInTime_tracks (depth : Nat) : SubGen.Tracks (generateInTime depth) N True := by
  induction depth with
  | zero =>
    intro g c n degree storage hn h _
    unfold generateInTime
    exact guarded_generates h hn fun _ _ => .fail rfl
  | succ depth ih =>
    intro g c n degree storage hn h hslot
    unfold generateInTime
    refine guarded_generates h hn fun tag htag => ?_
    refine whileActive_generates h (fun _ _ hs => hs) fun g₁ hg₁ h₁ => .check fun hclock => ?_
    subst hg₁
    refine (generateNode_generates ih h₁ htag (fun _ => hclock) hslot).bind ?_
    rintro info g₂ c₂ - hr
    exact .check fun hclock₂ => .pure hr.standing.interned ⟨hr, fun _ _ => hclock₂⟩

/-- Unless the clock runs over, generation is the same without the check. -/
theorem generateInTime_follows (depth : Nat) :
    SubGen.Follows (· = .fault .endless) (generateInTime depth) (generate depth) := by
  induction depth with
  | zero =>
    intro n degree storage
    unfold generate generateInTime
    exact .refl _
  | succ depth ih =>
    intro n degree storage
    unfold generate generateInTime
    -- The two differ only where one of the two checks fails.
    refine .ite (.refl _) (.step fun g => .optional (.refl _) (whileActive_follows n fun g => ?_))
    by_cases hclock : g.clock = 0
    · exact Or.inr ⟨_, g, bind_eq_error (checkClock_eq_error hclock), rfl⟩
    rw [bind_eq_ok (checkClock_eq hclock)]
    rcases generateNode_follows ih n degree storage g with heq | ⟨e, g', hrun, he⟩
    swap
    · exact Or.inr ⟨e, g', bind_eq_error hrun, he⟩
    cases hrun : generateNode (generateInTime depth) n degree storage g with
    | error e g' => exact Or.inl ((heq.trans hrun).trans (bind_eq_error hrun).symm)
    | ok info g' =>
      rw [bind_eq_ok hrun]
      by_cases hclock' : g'.clock = 0
      · exact Or.inr ⟨_, g', bind_eq_error (checkClock_eq_error hclock'), rfl⟩
      · rw [bind_eq_ok (checkClock_eq hclock')]
        exact Or.inl (heq.trans hrun)

/-- What is known of a consistent state between two steps. -/
theorem Generator.Consistent.standing (h : g.Consistent c) (hs : g.heap.Standard c) (p : Prop) :
    Standing (g.heap.WellFormedAs c) p g g c where
  standard := hs
  closed := Heap.closed_wellFormedAs g.heap c
  tracked := h.toTracked
  timely _ n info hn := by
    have hlt := UInt64.lt_iff_toNat_lt.1 (h.lifetimes n info hn)
    have hclock : g.clock ≠ 0 := by
      intro h0
      rw [h0] at hlt
      exact absurd hlt (Nat.not_lt_zero _)
    have hsucc := Generator.last_succ hclock
    rw [UInt64.le_iff_toNat_le]
    omega
  above := .refl h.toTracked

/-- A clock that does not run over is above all positions that are recorded. -/
theorem generateInTime_lifetimes {depth : Nat} {degree : Degree} {storage : Location}
    (hs : g.heap.Standard c) (hg : g.Consistent c) (hn : OrNull (g.heap.WellFormedAs c) n)
    (hslot : degree = .storeInto → storage.slot < g.module.slots.size)
    (hrun : generateInTime depth n degree storage g = .ok info g') (k : Node) (old : Info)
    (hold : g'.Records k old) : old.lifetime < g'.clock := by
  by_cases hnull : n = 0
  · have hsame : generateInTime depth n degree storage g = .ok .none g := by
      unfold generateInTime
      rw [if_pos hnull]
      rfl
    cases hsame.symm.trans hrun
    exact hg.lifetimes k old hold
  · obtain ⟨c₁, -, hr, hclock⟩ :=
      (generateInTime_tracks depth g c n degree storage hn (hg.standing hs True) hslot).ok hrun
    have hle := UInt64.le_iff_toNat_le.1 (hr.standing.timely trivial k old hold)
    have hsucc := Generator.last_succ (hclock trivial hnull)
    rw [UInt64.lt_iff_toNat_lt]
    omega

/-- Generating a node from a consistent state ends in a consistent state, unless the clock has
    run over on the way; then all but the positions is as it should be.  The shadow stack has
    grown by new entries on top.  Results in slots that were recorded before are recorded
    still, but for contracts that promise less.  At the degree of a slot of its own, all new
    entries are of results in slots, of the node or of nodes before it. -/
theorem generate_consistent {depth : Nat} {degree : Degree} {storage : Location}
    (hs : g.heap.Standard c) (hg : g.Consistent c) (hn : OrNull (g.heap.WellFormedAs c) n)
    (hslot : degree = .storeInto → storage.slot < g.module.slots.size)
    (hrun : generate depth n degree storage g = .ok info g') :
    ∃ c' added, Heap.Extends g.heap c g'.heap c' ∧ g'.Tracked c' ∧
      (g'.Consistent c' ∨
        ∃ g'', generateInTime depth n degree storage g = .error (.fault .endless) g'') ∧
      g'.shadow = added ++ g.shadow ∧
      (∀ k old, g.memo.get? k = some old → ∃ new, g'.memo.get? k = some new ∧ new.Weakens old) ∧
      (degree = .ownSlot → ∀ e ∈ added, e.addressable = true ∧ OnChain g.heap n e.node) := by
  obtain ⟨c', hproceeds, hr, -⟩ :=
    (generate_tracks depth g c n degree storage hn (hg.standing hs False) hslot).ok hrun
  have htracked := hr.standing.tracked
  obtain ⟨added, hadd⟩ := hr.standing.above.shadow
  refine ⟨c', added, hproceeds.ext, htracked, ?_, hadd, hr.standing.above.memo, fun hd => ?_⟩
  · rcases generateInTime_follows depth n degree storage g with heq | ⟨e, g'', hlate, rfl⟩
    · exact Or.inl ⟨htracked, generateInTime_lifetimes hs hg hn hslot (heq.symm.trans hrun)⟩
    · exact Or.inr ⟨g'', hlate⟩
  · obtain ⟨added', hadd', hall⟩ := hr.own hd
    rw [hadd', List.append_cancel_right_eq] at hadd
    exact hadd ▸ hall

/-- A variable, a write to it and a copy of it. -/
def writeThenCopy : List UInt8 := Text.toBytes "_c 0 [store [pointer c] 1] [copy c]"

/-- As a value, the block leaves itself and the copy in registers, above the variable in its
    slot. -/
theorem generate_consistent_copy : ∃ image root h info g' c',
    Image.create 64 1 = .ok image ∧ Source.read writeThenCopy image.heap = .ok root h ∧
      generate h.depthBound root .value nowhere (.start h "f") = .ok info g' ∧
      g'.Consistent c' ∧ g'.shadow.map (·.addressable) = [false, false, true] := by
  -- What is read and generated is evaluated; that the end is consistent follows.
  have heval : ((Image.create 64 1).toOption.any fun image => !image.heap.arena.collecting &&
      (answer? (Source.read writeThenCopy image.heap)).any fun p =>
        (answer? (generateInTime p.2.depthBound p.1 .value nowhere (.start p.2 "f"))).isSome &&
          (answer? (generate p.2.depthBound p.1 .value nowhere (.start p.2 "f"))).any fun r =>
            r.2.shadow.map (·.addressable) = [false, false, true]) = true := by decide +kernel
  simp only [Option.any_eq_true, Bool.and_eq_true, Bool.not_eq_true', Option.isSome_iff_exists,
    answer?_eq_some, toOption_eq_some, decide_eq_true_eq] at heval
  obtain ⟨image, himage, hidle, ⟨root, h⟩, hread, ⟨r, htime⟩, ⟨info, g'⟩, hrun, hshadow⟩ := heval
  obtain ⟨c, hs⟩ := Image.create_standard himage
  obtain ⟨F, hmade, -⟩ := Source.read_made hs hidle hread
  have hroot := Source.read_wellFormed hs hidle hread
  obtain ⟨c', added, -, -, hconsistent, -⟩ := generate_consistent (g := .start h "f")
    (hmade.1.standard hs) (consistent_start h "f" c) hroot (fun hd => by cases hd) hrun
  refine ⟨image, root, h, info, g', c', himage, hread, hrun, ?_, hshadow⟩
  refine hconsistent.resolve_right ?_
  rintro ⟨g'', hlate⟩
  cases htime.symm.trans hlate

end TreeMachine.Compile
