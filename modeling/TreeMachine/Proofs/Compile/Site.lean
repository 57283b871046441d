import TreeMachine.Proofs.Compile.Deliver

/-! # Generating one node

  A node is generated in a state in which it counts as active, after its slot has been made
  if it has one of its own.  Main statements: what is settled in that state is settled for
  the node, and operands are generated one after the other or the expression has no width.
-/

namespace TreeMachine.Compile

open Code (Module Value Program Frame Stands wrap)
open Code.Module (Emits)

variable {X : Type} {W : List Record} {node : X → Node} {place : X → Location}
  {g g' : Generator} {c c' : Catalogue} {R R' w : Nat} {ns : List Node} {e : Expr X}

/-- A place that a result may be written to: it exists and is no variable. -/
def Writable (place : X → Location) (g : Generator) (at_ : Location) : Prop :=
  at_.slot < g.module.slots.size ∧ ∀ x, (place x).slot ≠ at_.slot

/-- The outcome of generating an expression: it is settled, or it has no width. -/
def Outcome (W : List Record) (place : X → Location) (e : Expr X) (ns : List Node) (d : Degree)
    (at_ : Location) (g : Generator) (c : Catalogue) (R : Nat) (x : Gen Info) (g₁ : Generator) :
    Prop :=
  Yields x g₁ (fun info g' => ∃ w c' R', Settled W place e ns d at_ g c R info g' w c' R')
    fun _ _ => e.width = none

/-- The generator of sub-nodes works for an expression that stands in the heap. -/
def Works (W : List Record) (node : X → Node) (place : X → Location) (gen : SubGen) (e : Expr X)
    (n : Node) (ns : List Node) : Prop :=
  ∀ (g : Generator) (c : Catalogue) (R : Nat) (d : Degree) (at_ : Location),
    Ready W node place g c R → Expr.Spells g.heap node e n ns → Fresh g ns →
    (∀ r ∈ e.types g.heap.types.scalars.integer, r ∈ W) →
    (d = .storeInto → Writable place g at_) →
    Outcome W place e ns d at_ g c R (gen n d at_) g

/-- The state in which a node is generated; `sub` are the nodes below it. -/
structure AtSite (W : List Record) (node : X → Node) (place : X → Location) (g : Generator)
    (c : Catalogue) (R : Nat) (site : Site) (sub : List Node) : Prop where
  ready : Ready W node place g c R
  fresh : Fresh g sub
  memo : g.memo.get? site.node = none
  new : site.node ∉ sub
  depth : site.depth = g.shadow.length
  slot : site.degree ≠ .value → Writable place g site.storage

/-! ### Nodes of expressions -/

theorem Expr.Spells.eq_null {h : Heap} {n : Node} (hs : Expr.Spells h node e n ns) (hn : n = 0) :
    e = .null := by
  subst hn
  cases e with
  | null => rfl
  | literal w =>
    obtain ⟨-, object, hn, -⟩ := hs
    exact absurd rfl (Heap.owns_ne_zero hn)
  | zero => exact absurd rfl (Heap.owns_ne_zero hs.2)
  | step op a =>
    obtain ⟨n₁, ns₁, -, hn, -⟩ := hs
    exact absurd rfl (Heap.owns_ne_zero hn)
  | arith op a b =>
    obtain ⟨n₁, n₂, ns₁, ns₂, -, hn, -⟩ := hs
    exact absurd rfl (Heap.owns_ne_zero hn)
  | cond c t e =>
    obtain ⟨n₁, n₂, n₃, ns₁, ns₂, ns₃, -, hn, -⟩ := hs
    exact absurd rfl (Heap.owns_ne_zero hn)
  | concat a b =>
    obtain ⟨n₁, n₂, ns₁, ns₂, -, hn, -⟩ := hs
    exact absurd rfl (Heap.owns_ne_zero hn)
  | block es =>
    obtain ⟨vec, elems, ns₁, -, hn, -⟩ := hs
    exact absurd rfl (Heap.owns_ne_zero hn)
  | copy x => exact absurd rfl (Heap.owns_ne_zero hs.2)
  | load x =>
    obtain ⟨q, -, hn, -⟩ := hs
    exact absurd rfl (Heap.owns_ne_zero hn)

/-! ### Entering a node -/

/-- The body of a node, once its slot is there. -/
def body (gen : SubGen) (site : Site) (tag : Tag) : Gen Info := do
  match ← operands gen site.node 0 tag.schema.params with
  | some infos => dispatch gen site tag infos
  | none => finishVoid site (← doesNotReturn)

/-- The state in which the body of a node is generated. -/
def entered (n : Node) (d : Degree) (g : Generator) : Generator :=
  { g with
    active := n :: g.active
    clock := g.clock + 1
    module := if d = .ownSlot then { g.module with slots := g.module.slots.push 0 } else g.module }

/-- The place of the result of a node. -/
def storageOf (d : Degree) (at_ : Location) (g : Generator) : Location :=
  if d = .ownSlot then ⟨g.module.slots.size, 0⟩ else at_

theorem generate_enters {depth : Nat} {n : Node} {d : Degree} {at_ : Location} {tag : Tag}
    {fields : List UInt64} (hs : g.heap.arena.Sized)
    (hn : g.heap.arena.Owns n (tag.word :: 0 :: fields)) (hactive : n ∉ g.active) :
    generate (depth + 1) n d at_ g = whileActive n (fun _ =>
      body (generate depth) ⟨n, d, storageOf d at_ g, g.clock, g.shadow.length⟩ tag
        (entered n d g)) g := by
  have hcontains : ¬ (g.active.contains n = true) := by simpa using hactive
  have hbefore : look (·.preceding n) { g with active := n :: g.active }
      = .ok 0 { g with active := n :: g.active } := look_eq_ok (Heap.preceding_eq hs hn)
  have htag : look (·.tag n) (entered n d g) = .ok tag (entered n d g) :=
    look_eq_ok (Heap.tag_eq hs hn)
  have hnode : generateNode (generate depth) n d at_ { g with active := n :: g.active }
      = body (generate depth) ⟨n, d, storageOf d at_ g, g.clock, g.shadow.length⟩ tag
          (entered n d g) := by
    unfold generateNode
    rw [bind_eq_ok hbefore, if_neg fun hne => hne rfl]
    refine Eq.trans ?_ (bind_eq_ok (f := body (generate depth)
      ⟨n, d, storageOf d at_ g, g.clock, g.shadow.length⟩) htag)
    cases d <;> rfl
  rw [generate, if_neg (Heap.owns_ne_zero hn)]
  show (if g.active.contains n = true then _ else _ : Gen Info) g = _
  rw [if_neg hcontains]
  show whileActive n (generateNode (generate depth) n d at_) g = _
  rw [whileActive, hnode]
  rfl

/-- Below a node that is entered everything is as fresh as before. -/
theorem Fresh.enter {n : Node} {sub : List Node} (h : Fresh g (n :: sub)) (hnew : n ∉ sub)
    (d : Degree) : Fresh (entered n d g) sub := by
  intro n' hn'
  obtain ⟨hactive, hmemo⟩ := h n' (List.mem_cons_of_mem _ hn')
  refine ⟨?_, hmemo⟩
  show n' ∉ n :: g.active
  rw [List.mem_cons, not_or]
  exact ⟨fun heq => hnew (heq ▸ hn'), hactive⟩

/-- Entering a node makes its slot and no code. -/
theorem entered_emits (h : Ready W node place g c R) (n : Node) (d : Degree) :
    Emits g.module R (entered n d g).module R fun _ f f' => f' = f := by
  unfold entered
  dsimp only
  split
  · exact Module.alloca_emits h.opened h.count
  · exact .refl h.opened h.count

theorem Ready.enter (h : Ready W node place g c R) (n : Node) (d : Degree) :
    Ready W node place (entered n d g) c R := by
  have hcode := entered_emits h n d
  refine ⟨h.standard, h.idle, h.room, hcode.opened, hcode.count, ?_⟩
  intro x
  obtain ⟨size, hsize, hle⟩ := (h.vars x).room
  obtain ⟨size', hsize', hle'⟩ := hcode.grows.slots _ size hsize
  exact ⟨(h.vars x).real, (h.vars x).memo, size', hsize', Int.le_trans hle hle'⟩

theorem Ready.slot_lt (h : Ready W node place g c R) (x : X) :
    (place x).slot < g.module.slots.size := by
  obtain ⟨size, hsize, -⟩ := (h.vars x).room
  exact (Array.getElem?_eq_some_iff.1 hsize).1

/-- A slot of its own is no variable. -/
theorem Ready.writable (h : Ready W node place g c R) (n : Node) {d : Degree} {at_ : Location}
    (hat : d = .storeInto → Writable place g at_) (hd : d ≠ .value) :
    Writable place (entered n d g) (storageOf d at_ g) := by
  cases d with
  | value => exact absurd rfl hd
  | storeInto => exact hat rfl
  | ownSlot =>
    refine ⟨?_, ?_⟩
    · show g.module.slots.size < (g.module.slots.push 0).size
      simp
    · exact fun x => Nat.ne_of_lt (h.slot_lt x)

/-- What is settled in the new slot of a node is settled in a slot of its own. -/
theorem InSlot.own {m m₁ m' : Module} {info : Info} (hm₁ : m₁.slots = m.slots.push 0)
    (halloca : Emits m R m₁ R fun _ f f' => f' = f)
    (h : InSlot place e m₁ R m' R' ⟨m.slots.size, 0⟩ w info) :
    InOwnSlot place e m R m' R' w info := by
  obtain ⟨new, hnew, hsum⟩ := h.slots
  have hsize : m.slots.size < m₁.slots.size := by
    rw [hm₁]
    simp
  refine ⟨?_, h.empty, ?_, ?_⟩
  · intro hw
    obtain ⟨haddr, hloc⟩ := h.located hw
    obtain ⟨size, hk, hle⟩ := @enlarge_room m₁.slots ⟨m.slots.size, 0⟩ w hsize hw
    refine ⟨haddr, hloc, size, getElem?_of_append hnew hk, ?_⟩
    dsimp only at hle
    omega
  · refine (halloca.trans h.code).imp ?_
    intro p S f f' hcon hf hdone
    obtain ⟨f₁, -, rfl, hkeeps, hstands⟩ := hdone
    have hstart := hcon.start_mono (Nat.le_of_lt hsize)
    exact ⟨hkeeps.weaken (Nat.le_refl _) hstart fun j _ hlo hhi => ⟨hlo, hhi⟩, hstands⟩
  · rw [hm₁, enlarge_new] at hnew
    refine ⟨(w : Int) :: new, ?_, ?_⟩
    · rw [hnew, List.append_assoc]
      rfl
    · rw [List.sum_cons]
      omega

/-- What is settled for the body of a node is settled for the node. -/
theorem generate_outcome {depth : Nat} {n : Node} {d : Degree} {at_ : Location} {tag : Tag}
    {fields : List UInt64} {sub : List Node} (hready : Ready W node place g c R)
    (hfresh : Fresh g (n :: sub)) (hnew : n ∉ sub)
    (hn : g.heap.arena.Owns n (tag.word :: 0 :: fields))
    (hat : d = .storeInto → Writable place g at_)
    (hbody : ∀ g₁ site, AtSite W node place g₁ c R site sub → site.node = n →
      g₁.heap = g.heap → Outcome W place e (n :: sub) site.degree.inner site.storage g₁ c R
        (body (generate depth) site tag) g₁) :
    Outcome W place e (n :: sub) d at_ g c R (generate (depth + 1) n d at_) g := by
  have hsite : AtSite W node place (entered n d g) c R
      ⟨n, d, storageOf d at_ g, g.clock, g.shadow.length⟩ sub :=
    ⟨hready.enter n d, hfresh.enter hnew d, (hfresh n List.mem_cons_self).2, hnew, rfl,
      hready.writable n hat⟩
  have hout := hbody _ _ hsite rfl rfl
  refine Yields.congr (generate_enters hready.standard.sized hn (hfresh n List.mem_cons_self).1) ?_
  unfold Outcome Yields at hout
  unfold Yields whileActive
  dsimp only at hout ⊢
  cases hrun : body (generate depth) ⟨n, d, storageOf d at_ g, g.clock, g.shadow.length⟩ tag
      (entered n d g) with
  | error err g' =>
    rw [hrun] at hout
    exact hout
  | ok info g' =>
    rw [hrun] at hout
    obtain ⟨w, c', R', hset⟩ := hout
    refine ⟨w, c', R', hset.width, ?_, hset.room, hset.type, hset.plain, hset.few, ?_⟩
    · have hm := hset.moves
      refine ⟨hm.ext, ?_, hm.labels, hm.memo, hm.shadow⟩
      show g'.active.erase n = g.active
      rw [show g'.active = n :: g.active from hm.active, List.erase_cons_head]
    · have hdel := hset.delivered
      cases d with
      | value => exact hdel
      | storeInto => exact hdel
      | ownSlot => exact InSlot.own rfl (entered_emits hready n .ownSlot) hdel

/-! ### Variables stay as they are -/

section Variables

variable {p : Program} {S : List Nat} {f f' : Frame} {lo n : Nat} {env : X → UInt64}

/-- The word of a variable is inside its slot, and so below the slots that are made later. -/
theorem Ready.cell_lt (h : Ready W node place g c R) (hcon : Code.Contains p S g.module R) (x : X) :
    p.start (place x).slot + (place x).off < p.start ((place x).slot + 1) ∧
      p.start ((place x).slot + 1) ≤ p.start g.module.slots.size := by
  obtain ⟨size, hsize, hle⟩ := (h.vars x).room
  have hroom := hcon.slot_room hsize hle
  have hlt := (Array.getElem?_eq_some_iff.1 hsize).1
  exact ⟨by omega, hcon.start_mono (by omega)⟩

theorem Ready.env_keeps (h : Ready W node place g c R) (hcon : Code.Contains p S g.module R)
    (henv : Env place p f env) (hkeeps : f.Keeps f' R (p.start g.module.slots.size) lo n)
    (hout : ∀ x, ¬ (lo ≤ p.start (place x).slot + (place x).off ∧
      p.start (place x).slot + (place x).off < lo + n)) : Env place p f' env := by
  intro x
  obtain ⟨hin, hbelow⟩ := h.cell_lt hcon x
  rw [hkeeps.words _ (by omega) (hout x), henv x]

/-- Code that writes to no slot of `g`. -/
theorem Ready.env_keeps_zero (h : Ready W node place g c R) (hcon : Code.Contains p S g.module R)
    (henv : Env place p f env) (hkeeps : f.Keeps f' R (p.start g.module.slots.size) 0 0) :
    Env place p f' env :=
  h.env_keeps hcon henv hkeeps fun x => by omega

/-- Code that writes to a place that is no variable. -/
theorem Ready.env_keeps_slot (h : Ready W node place g c R) (hcon : Code.Contains p S g.module R)
    (henv : Env place p f env) {at_ : Location} (hw : Writable place g at_)
    (hend : p.start at_.slot + at_.off + n ≤ p.start (at_.slot + 1))
    (hkeeps : f.Keeps f' R (p.start g.module.slots.size) (p.start at_.slot + at_.off) n) :
    Env place p f' env := by
  refine h.env_keeps hcon henv hkeeps ?_
  intro x
  obtain ⟨hin, -⟩ := h.cell_lt hcon x
  rcases Nat.lt_or_gt_of_ne (hw.2 x) with hlt | hgt
  · have := hcon.start_mono (show (place x).slot + 1 ≤ at_.slot by omega)
    omega
  · have := hcon.start_mono (show at_.slot + 1 ≤ (place x).slot by omega)
    omega

end Variables

/-! ### Leaving a node -/

section Leaving

variable {site : Site} {sub : List Node}

/-- A value in registers is what the node asks for. -/
theorem AtSite.finish (h : AtSite W node place g c R site sub) (hm : Moves g c sub g' c')
    (hroom : g'.heap.arena.Room (c'.lacking W)) (he : e.width = some w) {t : Ty} {ct : Contract}
    (ht : c'.Integers g'.heap.types.scalars.integer w t) (hplain : ct.validity = 0)
    (hfew : R' ≤ R + e.volume) {r : Nat} (hlo : R ≤ r) (hhi : r + w ≤ R')
    (hcode : LeavesRegisters place e g.module R g'.module R' r)
    (hslots : ∃ new, g'.module.slots.toList = g.module.slots.toList ++ new ∧
      new.sum + (if site.degree = .value then 0 else w : Nat) ≤ e.volume) :
    Outcome W place e (site.node :: sub) site.degree.inner site.storage g c R
      (finish site (Value.run r w) t ct true) g' := by
  have hm' : Moves g c (site.node :: sub) g' c' := hm.weaken fun n hn => List.mem_cons_of_mem _ hn
  have hmemo : g'.memo.get? site.node = none := (hm.memo _ h.new).trans h.memo
  obtain ⟨info, g'', hrun, hset⟩ := finish_registers hm' (h.ready.standard.extends hm.ext) hroom he
    ht hplain hfew hlo hhi hcode hslots List.mem_cons_self h.depth hmemo
    fun hd => (h.slot hd).1
  exact Yields.of_ok hrun ⟨w, c', R', hset⟩

/-- A result that stands at its place already. -/
theorem AtSite.finishPlaced (h : AtSite W node place g c R site sub) (hm : Moves g c sub g' c')
    (hroom : g'.heap.arena.Room (c'.lacking W)) (he : e.width = some w) {t : Ty} {ct : Contract}
    (ht : c'.Integers g'.heap.types.scalars.integer w t) (hplain : ct.validity = 0)
    (hfew : R' ≤ R + e.volume) (hd : site.degree ≠ .value) {v : Value}
    (hcode : LeavesSlot place e g.module R g'.module R' site.storage w)
    (hslots : ∃ new, g'.module.slots.toList
      = (enlarge g.module.slots site.storage w).toList ++ new ∧ new.sum + w ≤ e.volume) :
    Outcome W place e (site.node :: sub) site.degree.inner site.storage g c R
      (Compile.finish site v t ct false) g' := by
  have hm' : Moves g c (site.node :: sub) g' c' := hm.weaken fun n hn => List.mem_cons_of_mem _ hn
  have hmemo : g'.memo.get? site.node = none := (hm.memo _ h.new).trans h.memo
  obtain ⟨info, g'', hrun, hset⟩ := finish_placed hm' (h.ready.standard.extends hm.ext) hroom he
    ht hplain hfew hcode hslots List.mem_cons_self h.depth hmemo hd (h.slot hd).1
  exact Yields.of_ok hrun ⟨w, c', R', hset⟩

end Leaving

end TreeMachine.Compile
