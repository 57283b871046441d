import TreeMachine.Proofs.Code.Jumps
import TreeMachine.Proofs.Compile.Trees
import TreeMachine.Proofs.Loop.Program

/-! # Generating the statements of a loop

  The elements of a block but the last are generated for what they do, each in a slot of its
  own.  Main statements: a literal becomes a variable with a known slot, a label becomes a
  block that can be jumped to, and an assignment writes the value of its expression to the
  slot of its variable.
-/

namespace TreeMachine

open Code (Module Value Program Frame Stands wrap Contains Leads)
open Code.Module (Emits)
open Source (IsNumber)

namespace Compile

variable {X : Type} {W : List Record} {node : X → Node} {place : X → Location} {g : Generator}
  {c : Catalogue} {R : Nat}

/-! ### Nodes that are generated -/

/-- A node whose body is generated is generated. -/
theorem generate_eq_ok {depth : Nat} {n : Node} {d : Degree} {at_ : Location} {tag : Tag}
    {fields : List UInt64} {info : Info} {g' : Generator} (hs : g.heap.arena.Sized)
    (hn : g.heap.arena.Owns n (tag.word :: 0 :: fields)) (hactive : n ∉ g.active)
    (hbody : body (generate depth) ⟨n, d, storageOf d at_ g, g.clock, g.shadow.length⟩ tag
      (entered n d g) = .ok info g') :
    generate (depth + 1) n d at_ g = .ok info { g' with active := g'.active.erase n } := by
  rw [generate_enters hs hn hactive]
  unfold whileActive
  rw [hbody]

/-- Cutting the shadow stack back to its height changes nothing. -/
theorem clear_same (g : Generator) : clear g.shadow.length g = g := by
  simp [clear]

/-! ### Variables -/

/-- A literal in a slot of its own becomes a variable. -/
theorem number_generates {depth : Nat} {n : Node} {v : UInt64} (hready : Ready W node place g c R)
    (hfresh : Fresh g [n]) (hn : IsNumber g.heap v n) :
    ∃ info g', generate (depth + 1) n .ownSlot nowhere g = .ok info g' ∧ Moves g c [n] g' c ∧
      g'.heap = g.heap ∧ Slotted g' n ⟨g.module.slots.size, 0⟩ ∧
      g'.module.slots.toList = g.module.slots.toList ++ [1] ∧
      Emits g.module R g'.module (R + 1) fun p f f' =>
        f.Keeps f' R (p.start g.module.slots.size) 0 0 ∧
          f'.words[p.start g.module.slots.size]? = some v := by
  obtain ⟨object, hnode, hobject⟩ := hn
  have hs := hready.standard
  obtain ⟨hvalue, hwords⟩ := Heap.literal_eq hs hnode hobject
  have hmemo := (hfresh n List.mem_cons_self).2
  let g₁ := entered n .ownSlot g
  let site : Site := ⟨n, .ownSlot, ⟨g.module.slots.size, 0⟩, g.clock, g.shadow.length⟩
  have hready₁ := hready.enter n .ownSlot
  obtain ⟨m₁, hconst, hslots₁, hcode₁⟩ :=
    Module.const_emits hready₁.opened hready₁.count (show 0 < [v].length from Nat.one_pos)
  have hleaves : LeavesRegisters (Empty.elim : Empty → Location) (.literal v) g₁.module R m₁ (R + 1)
      R := by
    refine hcode₁.imp ?_
    intro p S f f' hcon hf hsets
    refine ⟨hsets.keeps (Nat.le_refl R) _ _ _, ?_⟩
    intro env _
    rw [Expr.eval]
    exact hsets.stands
  have hsize : g.module.slots.size < m₁.slots.size := by
    rw [hslots₁]
    show _ < (g.module.slots.push 0).size
    simp
  obtain ⟨m₂, m₃, hreserve, hstore, hslots₃, hslot⟩ := @store_leaves Empty Empty.elim R (R + 1) 1 R
    (.literal v) g₁.module m₁ ⟨g.module.slots.size, 0⟩ hleaves (by rw [Expr.width]) Nat.one_pos
    (Nat.le_refl _) hsize
  have hkeep : dropped site { g₁ with module := m₃ } = { g₁ with module := m₃ } := clear_same _
  have hfinish := @finish_slot { g₁ with module := m₁ } c site (Value.run R 1)
    g.heap.types.scalars.integer .unbounded true 1 m₂ m₃ hs rfl Nat.one_pos (fun hd => by cases hd)
    hreserve hstore (by rw [hkeep]; exact hmemo)
  rw [hkeep] at hfinish
  let info : Info :=
    ⟨.void, ⟨g.module.slots.size, 0⟩, g.heap.types.scalars.integer, g.clock, true, .unbounded⟩
  let g₄ : Generator := { g₁ with
    module := m₃, memo := g₁.memo.set n info, shadow := ⟨n, true⟩ :: g₁.shadow }
  have hbody : body (generate depth) site .literal g₁ = .ok info g₄ := by
    have hlook : look (·.literalValue n) g₁ = .ok (g.heap.types.scalars.integer, object) g₁ :=
      look_eq_ok hvalue
    have hlook' : look (·.literalWords n) g₁ = .ok [v] g₁ := look_eq_ok hwords
    have hbuild : build (Module.const [v]) g₁ = .ok (Value.run R 1) { g₁ with module := m₁ } :=
      build_eq_ok hconst
    exact (bind_eq_ok hlook).trans ((bind_eq_ok hlook').trans ((bind_eq_ok hbuild).trans hfinish))
  have hnew : m₃.slots.toList = g.module.slots.toList ++ [1] := by
    rw [hslots₃, hslots₁]
    exact enlarge_new g.module.slots 1
  have hemits := (entered_emits hready n .ownSlot).trans hslot
  have hm : Moves g₁ c [n] g₁ c := .refl hs.toInterned
  have hm₄ := @Moves.recorded g₁ { g₁ with module := m₃ } c c [n] site (hm.setModule m₃)
    List.mem_cons_self (g₁.memo.set n info) g₁.temps true fun n' hne => Dict.get?_set_ne _ _ hne
  refine ⟨info, { g₄ with active := g₄.active.erase n }, ?_, ⟨hm₄.ext, ?_, hm₄.labels, hm₄.memo,
    hm₄.shadow⟩, rfl, ⟨Heap.owns_ne_zero hnode,
      ⟨info, Dict.get?_set_self _ _ _, rfl, rfl, rfl, rfl⟩, 1, ?_, Int.le_refl _⟩, hnew,
    hemits.imp ?_⟩
  · exact generate_eq_ok hs.sized hnode (hfresh n List.mem_cons_self).1 hbody
  · show (n :: g.active).erase n = g.active
    rw [List.erase_cons_head]
  · show m₃.slots[g.module.slots.size]? = some 1
    rw [← Array.getElem?_toList, hnew, List.getElem?_append_right (by simp)]
    simp
  · intro p S f f' hcon hf hdone
    obtain ⟨f₁, -, rfl, hkeeps, hstands⟩ := hdone
    have hstart : p.start g.module.slots.size ≤ p.start g₁.module.slots.size := hcon.start_mono (by
      show _ ≤ (g.module.slots.push 0).size
      simp)
    refine ⟨hkeeps.weaken (Nat.le_refl _) hstart ?_, ?_⟩
    · intro j hj hlo _
      dsimp only at hlo
      omega
    · have hword := hstands Empty.elim fun x => x.elim
      rw [Expr.eval] at hword
      exact Stands.single.1 hword

/-- Literals, each in a slot of its own, become variables in slots one after the other. -/
theorem numbers_generate {ns : List Node} {vs : List UInt64}
    (hready : Ready W node place g c R) (hfresh : Fresh g ns) (hnodup : ns.Nodup)
    (hns : List.Forall₂ (IsNumber g.heap) vs ns) (depth : Nat) :
    ∃ g', statements (generate (depth + 1)) ns g = .ok () g' ∧ Moves g c ns g' c ∧
      g'.heap = g.heap ∧
      (∀ i n, ns[i]? = some n → Slotted g' n ⟨g.module.slots.size + i, 0⟩) ∧
      g'.module.slots.toList = g.module.slots.toList ++ List.replicate ns.length 1 ∧
      Emits g.module R g'.module (R + ns.length) fun p f f' =>
        f.Keeps f' R (p.start g.module.slots.size) 0 0 ∧
          ∀ i v, vs[i]? = some v → f'.words[p.start (g.module.slots.size + i)]? = some v := by
  obtain ⟨h, hh⟩ : ∃ h, g.heap = h := ⟨_, rfl⟩
  rw [hh] at hns
  induction hns generalizing g R with
  | nil =>
    refine ⟨g, rfl, .refl hready.standard.toInterned, rfl, fun i n hi => ?_, by simp,
      (Emits.refl hready.opened hready.count).imp ?_⟩
    · simp at hi
    · intro p S f f' hcon hf hsame
      subst hsame
      exact ⟨.refl _ _ _ _ _, fun i v hi => by simp at hi⟩
  | @cons v n vs ns hn hns ih =>
    obtain ⟨hnot, hnodup'⟩ := List.nodup_cons.1 hnodup
    have hfresh' : Fresh g ([n] ++ ns) := hfresh
    obtain ⟨info, g₁, hrun, hm₁, hheap₁, hslot₁, hslots₁, hcode₁⟩ :=
      @number_generates X W node place g c R depth n v hready hfresh'.left (hh ▸ hn)
    have hready₁ : Ready W node place g₁ c (R + 1) :=
      hready.next hfresh'.left hm₁ (by rw [hheap₁]; exact hready.room) hcode₁
    have hfresh₂ : Fresh g₁ ns := hfresh'.after hnodup hm₁
    obtain ⟨g₂, hrest, hm₂, hheap₂, hslot₂, hslots₂, hcode₂⟩ :=
      ih hready₁ hfresh₂ hnodup' (hheap₁.trans hh)
    have hsize : g₁.module.slots.size = g.module.slots.size + 1 := by
      rw [← Array.length_toList, hslots₁, List.length_append, Array.length_toList]
      rfl
    refine ⟨g₂, ?_, hm₁.append hm₂, hheap₂.trans hheap₁, ?_, ?_, ?_⟩
    · rw [statements]
      exact (bind_eq_ok hrun).trans hrest
    · intro i n' hi
      cases i with
      | zero =>
        rw [List.getElem?_cons_zero, Option.some.injEq] at hi
        subst hi
        exact hslot₁.moves hm₂ hcode₂.grows hnot
      | succ i =>
        have := hslot₂ i n' hi
        rw [hsize, Nat.add_assoc, Nat.add_comm 1] at this
        exact this
    · rw [hslots₂, hslots₁, List.append_assoc]
      rfl
    · rw [List.length_cons, Nat.add_comm ns.length, ← Nat.add_assoc]
      refine (hcode₁.trans hcode₂).imp ?_
      intro p S f f' hcon hf hdone
      obtain ⟨f₁, hf₁, ⟨hkeeps₁, hword₁⟩, hkeeps₂, hwords₂⟩ := hdone
      rw [hsize] at hkeeps₂ hwords₂
      refine ⟨hkeeps₁.trans hkeeps₂ (Nat.le_succ R) (hcon.mono _) (by omega), ?_⟩
      intro i v' hi
      cases i with
      | zero =>
        rw [List.getElem?_cons_zero, Option.some.injEq] at hi
        subst hi
        obtain ⟨size, hsize', hle⟩ := (hslot₁.moves hm₂ hcode₂.grows hnot).room
        have hroom := hcon.slot_room hsize' hle
        rw [Nat.add_zero, hkeeps₂.words _ (by dsimp only at hroom; omega) (by omega)]
        exact hword₁
      | succ i =>
        have := hwords₂ i v' hi
        rw [Nat.add_assoc, Nat.add_comm 1] at this
        exact this

/-! ### Passing statements -/

/-- Generation has gone on past statements of at most `v` words.  Of the nodes other than the
    variables only those in `ns` may have got results or labels. -/
structure Passes (W : List Record) (node : X → Node) (place : X → Location) (ns : List Node)
    (v : Nat) (g : Generator) (c : Catalogue) (R : Nat) (g' : Generator) (c' : Catalogue)
    (R' : Nat) : Prop where
  ready : Ready W node place g' c' R'
  ext : Heap.Extends g.heap c g'.heap c'
  active : g'.active = g.active
  memo : ∀ n, n ∉ ns → (∀ x, n ≠ node x) → g'.memo.get? n = g.memo.get? n
  labels : ∀ n, n ∉ ns → g'.labels.get? n = g.labels.get? n
  few : R' ≤ R + v
  slots : ∃ new, g'.module.slots.toList = g.module.slots.toList ++ new ∧ new.sum ≤ v

namespace Passes

variable {g' g'' : Generator} {c' c'' : Catalogue} {R' R'' v v' : Nat} {ns ns' : List Node}

theorem refl (h : Ready W node place g c R) : Passes W node place [] 0 g c R g c R :=
  ⟨h, .refl h.standard.toInterned, rfl, fun _ _ _ => rfl, fun _ _ => rfl, Nat.le_refl _, [],
    by simp, by simp⟩

theorem trans (h : Passes W node place ns v g c R g' c' R')
    (h' : Passes W node place ns' v' g' c' R' g'' c'' R'') :
    Passes W node place (ns ++ ns') (v + v') g c R g'' c'' R'' where
  ready := h'.ready
  ext := h.ext.trans h'.ext
  active := h'.active.trans h.active
  memo n hn hvar := by
    rw [List.mem_append, not_or] at hn
    exact (h'.memo n hn.2 hvar).trans (h.memo n hn.1 hvar)
  labels n hn := by
    rw [List.mem_append, not_or] at hn
    exact (h'.labels n hn.2).trans (h.labels n hn.1)
  few := by
    have := h.few
    have := h'.few
    omega
  slots := by
    obtain ⟨new, hnew, hsum⟩ := h.slots
    obtain ⟨new', hnew', hsum'⟩ := h'.slots
    refine ⟨new ++ new', by rw [hnew', hnew, List.append_assoc], ?_⟩
    rw [List.sum_append]
    omega

/-- What the nodes passed leave to be generated. -/
theorem fresh (h : Passes W node place ns v g c R g' c' R') (hready : Ready W node place g c R)
    (hfresh : Fresh g (ns ++ ns')) (hnodup : (ns ++ ns').Nodup) : Fresh g' ns' := by
  intro n hn
  have hmem : n ∈ ns ++ ns' := List.mem_append_right _ hn
  have hnot : n ∉ ns := fun hn' => (List.nodup_append.1 hnodup).2.2 n hn' n hn rfl
  obtain ⟨hactive, hmemo⟩ := hfresh n hmem
  refine ⟨by rw [h.active]; exact hactive, ?_⟩
  rw [h.memo n hnot fun x heq => hready.var_not_mem hfresh x (heq ▸ hmem)]
  exact hmemo

end Passes

/-! ### Labels -/

/-- Generating a label without a body. -/
theorem label_eq {depth : Nat} {site : Site} (hs : g.heap.Standard c) (ho : g.module.Open)
    (hl : g.heap.arena.Owns site.node [Tag.label.word, 0, 0])
    (hnew : g.labels.get? site.node = none) (hdegree : site.degree = .ownSlot)
    (hdepth : site.depth = g.shadow.length) :
    label (generate depth) site g
      = .ok ⟨.void, ⟨0, 0⟩, 0, site.lifetime, false, .unbounded⟩ { g with
        module := g.module.fallInto "label"
        labels := (g.labels.set site.node ⟨g.module.blocks.size, true⟩).set site.node
          ⟨g.module.blocks.size, false⟩ } := by
  let t := g.module.blocks.size
  let gA : Generator := { g with module := g.module.addBlock "label" }
  let gB : Generator := { gA with labels := g.labels.set site.node ⟨t, true⟩ }
  let gC : Generator := { gB with labels := gB.labels.set site.node ⟨t, false⟩ }
  let gD : Generator := { gC with module := g.module.fallInto "label" }
  have hcontains : ¬ (g.labels.contains site.node = true) := by
    rw [Dict.contains, hnew]
    decide
  have ht : t < (gC.module.add (.branch t)).blocks.size := by
    rw [Module.size_add, Module.size_addBlock]
    exact Nat.lt_succ_self _
  have hblock : build (Module.newBlock "label") g = .ok t gA :=
    build_eq_ok (Module.newBlock_eq _ _)
  have hset : setLabel site.node ⟨t, true⟩ gA = .ok () gB := rfl
  have hchild : child site.node 0 gB = .ok 0 gB :=
    @child_eq gB site.node .label 0 [0] hs.sized hl rfl 0 0 rfl
  have hset' : setLabel site.node ⟨t, false⟩ gB = .ok () gC := rfl
  have hbranch : build (Module.branch t) gC
      = .ok () { gC with module := gC.module.add (.branch t) } :=
    build_eq_ok (Module.emit_eq (Module.addBlock_open ho) _)
  have hpoint : build (Module.setInsertPoint t) { gC with module := gC.module.add (.branch t) }
      = .ok () gD := build_eq_ok (Module.setInsertPoint_eq ht)
  have hkeep : dropped site gD = gD := by
    rw [dropped, if_pos hdegree, hdepth]
    exact clear_same gD
  have hfinish := @finish_zero gD c site .void 0 .unbounded false hs rfl
  rw [hkeep] at hfinish
  unfold label
  show (if g.labels.contains site.node = true then _ else _ : Gen Info) g = _
  rw [if_neg hcontains]
  refine (bind_eq_ok hblock).trans ((bind_eq_ok hset).trans ((bind_eq_ok hchild).trans ?_))
  rw [if_neg (fun hne => hne rfl)]
  exact (bind_eq_ok hset').trans ((bind_eq_ok hbranch).trans ((bind_eq_ok hpoint).trans hfinish))

/-- A label without a body becomes a block that can be jumped to. -/
theorem label_generates {depth : Nat} {l : Node} (hready : Ready W node place g c R)
    (hfresh : Fresh g [l]) (hl : g.heap.arena.Owns l [Tag.label.word, 0, 0])
    (hnew : g.labels.get? l = none) :
    ∃ info g', generate (depth + 1) l .ownSlot nowhere g = .ok info g' ∧
      Passes W node place [l] 0 g c R g' c R ∧
      g'.labels.get? l = some ⟨g.module.blocks.size, false⟩ ∧
      g'.module.here = ⟨g.module.blocks.size, 0⟩ ∧
      g'.module.blocks[g.module.blocks.size]? = some (Module.emptyBlock "label") ∧
      Emits g.module R g'.module R fun _ f f' => f' = f := by
  have hs := hready.standard
  let g₁ := entered l .ownSlot g
  have hready₁ : Ready W node place g₁ c R := hready.enter l .ownSlot
  have hopen := hready₁.opened
  let t := g.module.blocks.size
  let site : Site := ⟨l, .ownSlot, ⟨g.module.slots.size, 0⟩, g.clock, g.shadow.length⟩
  let info : Info := ⟨.void, ⟨0, 0⟩, 0, g.clock, false, .unbounded⟩
  let g₃ : Generator := { g₁ with
    module := g₁.module.fallInto "label"
    labels := (g.labels.set l ⟨t, true⟩).set l ⟨t, false⟩ }
  have hbody : body (generate depth) site .label g₁ = .ok info g₃ :=
    @label_eq g₁ c depth site hs hopen hl hnew rfl rfl
  have hcode : Emits g.module R g₃.module R fun _ f f' => f' = f := by
    refine ((entered_emits hready l .ownSlot).trans
      (Module.fallInto_emits hopen hready₁.count)).imp ?_
    intro p S f f' _ _ hdone
    obtain ⟨f₁, -, rfl, rfl⟩ := hdone
    rfl
  refine ⟨info, { g₃ with active := g₃.active.erase l }, ?_, ⟨⟨hs, hready.idle, hready.room,
      hcode.opened, hcode.count, ?_⟩, .refl hs.toInterned, ?_, fun _ _ _ => rfl, ?_, Nat.le_refl _,
      [0], ?_, by simp⟩, Dict.get?_set_self _ _ _, Module.fallInto_here hopen, ?_, hcode⟩
  · exact generate_eq_ok hs.sized hl (hfresh l List.mem_cons_self).1 hbody
  · intro x
    exact ⟨(hready₁.vars x).real, (hready₁.vars x).memo, (hready₁.vars x).room⟩
  · show (l :: g.active).erase l = g.active
    rw [List.erase_cons_head]
  · intro n hn
    have hne : n ≠ l := fun heq => hn (heq ▸ List.mem_cons_self)
    exact (Dict.get?_set_ne _ _ hne).trans (Dict.get?_set_ne _ _ hne)
  · show (g.module.slots.push 0).toList = _
    rw [Array.toList_push]
  · exact Module.fallInto_new hopen

/-! ### Assignments -/

/-- Recording another result of a node that is no part of the way. -/
theorem Moves.setMemo {g' : Generator} {c' : Catalogue} {ns : List Node} (h : Moves g c ns g' c')
    (n : Node) (info : Info) : Moves { g with memo := g.memo.set n info } c ns
      { g' with memo := g'.memo.set n info } c' where
  ext := h.ext
  active := h.active
  labels := h.labels
  memo n' hn' := by
    by_cases heq : n' = n
    · subst heq
      exact (Dict.get?_set_self _ _ _).trans (Dict.get?_set_self _ _ _).symm
    · rw [Dict.get?_set_ne _ _ heq, Dict.get?_set_ne _ _ heq]
      exact h.memo n' hn'
  shadow := h.shadow

/-- A variable may get another contract that bounds nothing. -/
theorem Ready.setContract (h : Ready W node place g c R) {x : X} {info : Info} {ct : Contract}
    (hinfo : g.memo.get? (node x) = some info) (hct : ct.validity = 0) :
    Ready W node place { g with memo := g.memo.set (node x) { info with contract := ct } } c R where
  standard := h.standard
  idle := h.idle
  room := h.room
  opened := h.opened
  count := h.count
  vars y := by
    refine ⟨(h.vars y).real, ?_, (h.vars y).room⟩
    obtain ⟨info', hmemo, haddr, hloc, htype, hplain⟩ := (h.vars y).memo
    by_cases heq : node y = node x
    · rw [heq, hinfo, Option.some.injEq] at hmemo
      subst hmemo
      rw [heq]
      exact ⟨_, Dict.get?_set_self _ _ _, haddr, hloc, htype, hct⟩
    · exact ⟨info', (Dict.get?_set_ne _ _ heq).trans hmemo, haddr, hloc, htype, hplain⟩

/-- Another result of a variable makes no node less fresh. -/
theorem Fresh.setVariable {ns : List Node} (h : Fresh g ns) (hready : Ready W node place g c R)
    (x : X) (info : Info) : Fresh { g with memo := g.memo.set (node x) info } ns := by
  intro n hn
  have hne : n ≠ node x := fun heq => hready.var_not_mem h x (heq ▸ hn)
  exact ⟨(h n hn).1, (Dict.get?_set_ne _ _ hne).trans (h n hn).2⟩

/-- Storing through a pointer to a variable widens its contract and nothing else. -/
theorem storedInto_eq {n q : Node} {info : Info} {ct : Contract}
    (hs : g.heap.arena.Sized) (hq : g.heap.arena.Owns q [Tag.pointer.word, 0, n])
    (hinfo : g.memo.get? n = some info) :
    storedInto q ct g = .ok () { g with
      memo := g.memo.set n { info with contract := info.contract.merge ct } } := by
  have htag : look (·.tag q) g = .ok .pointer g := look_eq_ok (Heap.tag_eq hs hq)
  have hchild : child q 0 g = .ok n g := child_eq hs hq rfl rfl
  unfold storedInto
  refine (bind_eq_ok htag).trans ?_
  rw [if_pos rfl]
  refine (bind_eq_ok hchild).trans ?_
  refine congrArg (EStateM.Result.ok ()) ?_
  simp only [hinfo]

/-- Storing an integer through a pointer to a variable adds the code of the store. -/
theorem storeThrough_eq {site : Site} {a b info : Info} {n q n₁ : Node} {m : Module}
    (hs : g.heap.Standard c) (ha : (a.type, .pointer g.heap.types.scalars.integer) ∈ c)
    (hb : c.Integers g.heap.types.scalars.integer 1 b.type) (htempa : a.addressable = false)
    (htempb : b.addressable = false) (hplain : b.contract.validity = 0)
    (hstore : Module.storeIndirect a.value b.value g.module = ((), m))
    (hn : g.heap.arena.Owns site.node [Tag.store.word, 0, q, n₁])
    (hq : g.heap.arena.Owns q [Tag.pointer.word, 0, n]) (hinfo : g.memo.get? n = some info) :
    storeThrough site a b g = .ok ⟨.void, ⟨0, 0⟩, 0, site.lifetime, false, .unbounded⟩
      (dropped site { g with
        module := m
        memo := g.memo.set n { info with contract := info.contract.merge b.contract } }) := by
  let g₁ : Generator := { g with module := m }
  have hkind : look (·.kind a.type) g = .ok (some .pointer) g := look_eq_ok (hs.kind_eq ha)
  have hfits : look (fun h => do h.fits b.type (← h.elem a.type)) g = .ok true g := by
    refine look_eq_ok ?_
    rw [except_bind_ok (hs.elem_eq ha)]
    exact hs.fits_integer hb
  have hmay : a.contract.mayStore b.contract = true := by
    rw [Contract.mayStore, hplain]
    simp
  have hbuild : build (Module.storeIndirect a.value b.value) g = .ok () g₁ := build_eq_ok hstore
  have hchild : child site.node 0 g₁ = .ok q g₁ := @child_eq g₁ _ _ _ _ hs.sized hn rfl _ _ rfl
  have hstored := @storedInto_eq g₁ n q info b.contract hs.sized hq hinfo
  unfold storeThrough
  refine (bind_eq_ok hkind).trans ?_
  rw [if_neg (fun hne => hne rfl)]
  refine (bind_eq_ok hfits).trans ?_
  rw [if_neg (by decide), hmay, if_neg (by decide)]
  refine (bind_eq_ok (sizeOf_eq hs hb)).trans ?_
  rw [if_pos Nat.one_pos]
  refine (bind_eq_ok (valueOf_temporary htempa g)).trans
    ((bind_eq_ok (valueOf_temporary htempb g)).trans ((bind_eq_ok hbuild).trans ?_))
  refine (bind_eq_ok hchild).trans ((bind_eq_ok hstored).trans ?_)
  exact @finish_zero { g₁ with memo := _ } c site .void 0 .unbounded false hs rfl

section Assignment

variable {x : X} {e : WordExpr X}

/-- The operands of an assignment are generated one after the other. -/
theorem assign_operands {depth : Nat} {n q n₁ : Node} {ns : List Node}
    (hready : Ready W node place g c R) (hfresh : Fresh g (q :: ns)) (hnodup : (q :: ns).Nodup)
    (hlen : (q :: ns).length ≤ depth) (hn : g.heap.arena.Owns n [Tag.store.word, 0, q, n₁])
    (hq : g.heap.arena.Owns q [Tag.pointer.word, 0, node x])
    (hspell : Expr.Spells g.heap node e.expr n₁ ns)
    (hW : .pointer g.heap.types.scalars.integer ∈ W) :
    ∃ a b g₁ c₁ g₂ c₂ R₂, operands (generate depth) n 0 Tag.store.schema.params g
        = .ok (some [a, b]) g₂ ∧ Moves g c [q] g₁ c₁ ∧ Ready W node place g₁ c₁ (R + 1) ∧
      g₁.module.slots = g.module.slots ∧
      (a.type, .pointer g.heap.types.scalars.integer) ∈ c₁ ∧ a.addressable = false ∧
      a.value = Value.run R 1 ∧
      (Emits g.module R g₁.module (R + 1) fun p f f' =>
        f.Sets f' R [Code.frameAddress (p.start (place x).slot + (place x).off)]) ∧
      Settled W place e.expr ns .value nowhere g₁ c₁ (R + 1) b g₂ 1 c₂ R₂ := by
  have hs := hready.standard
  obtain ⟨depth, rfl, hsub, hnot, hnodup'⟩ := depth_cases hlen hnodup
  have hfresh' : Fresh g ([q] ++ ns) := hfresh
  obtain ⟨a, g₁, c₁, hgen₁, hm₁, hroom₁, hslots₁, hmem, htemp, hvalue, hcode₁⟩ :=
    @pointer_generates X W node place g c R depth q x nowhere hready hfresh'.left hq hW
  have hready₁ := hready.next hfresh'.left hm₁ hroom₁ hcode₁
  have hs₁ := hready₁.standard
  have hreturns : a.type ≠ g₁.heap.types.scalars.doesNotReturn := by
    intro heq
    rw [heq] at hmem
    cases hs₁.valid.record_unique hmem hs₁.doesNotReturn
  -- The value, in the state after the pointer.
  have hfresh₂ : Fresh g₁ ns := hfresh'.after hnodup hm₁
  have hspell₁ := hspell.extends hm₁.ext
  have hW₁ : ∀ r ∈ e.expr.types g₁.heap.types.scalars.integer, r ∈ W := by
    intro r hr
    rw [WordExpr.types_expr _ e r hr, hm₁.ext.scalars_eq]
    exact hW
  have hwork := works e.expr (Nat.le_succ_of_le hsub) hnodup' g₁ c₁ (R + 1) .value nowhere hready₁
    hspell₁ hfresh₂ hW₁ fun hd => by cases hd
  have hwidth := e.expr_width
  obtain ⟨b, g₂, hgen₂, w, c₂, R₂, hset⟩ := (hwork.mono (fun _ _ h => h) fun _ _ hnone => by
    rw [hwidth] at hnone
    cases hnone).exists_ok
  cases hwidth.symm.trans hset.width
  have hs₂ : g₂.heap.Standard c₂ := hs₁.extends hset.moves.ext
  have hchild : child n 0 g = .ok q g := child_eq hs.sized hn rfl rfl
  have hn₁ : g₁.heap.arena.Owns n [Tag.store.word, 0, q, n₁] := hn.grows hm₁.ext.grows
  have hchild₁ : child n 1 g₁ = .ok n₁ g₁ := child_eq hs₁.sized hn₁ rfl rfl
  have hne : n₁ ≠ 0 := by
    intro heq
    have hnull := hspell.eq_null heq
    rw [hnull, Expr.width] at hwidth
    cases hwidth
  refine ⟨a, b, g₁, c₁, g₂, c₂, R₂, ?_, hm₁, hready₁, hslots₁, hmem, htemp, hvalue, hcode₁, hset⟩
  have hsecond : operands (generate (depth + 1)) n 1 [.unchecked] g₁ = _ :=
    operands_unchecked hchild₁ hne hgen₂ (hs₂.integers_returns hset.type)
  refine (operands_unchecked hchild (Heap.owns_ne_zero hq) hgen₁ hreturns).trans ?_
  exact bind_eq_ok hsecond

variable [DecidableEq X]

/-- A write to the slot of a variable changes no other variable. -/
theorem Ready.env_update (h : Ready W node place g c R)
    (hplace : Function.Injective fun x => (place x).slot) {p : Program} {S : List Nat}
    (hcon : Contains p S g.module R) {f f' : Frame} {env : X → UInt64} (henv : Env place p f env)
    {v : UInt64} (hstores : f.Stores f' (p.start (place x).slot + (place x).off) [v]) :
    Env place p f' (Function.update env x v) := by
  intro y
  by_cases heq : y = x
  · subst heq
    rw [Function.update_self]
    exact Stands.single.1 hstores.stands
  · rw [Function.update_of_ne heq, ← henv y]
    refine hstores.others _ ?_
    obtain ⟨hx, -⟩ := h.cell_lt hcon x
    obtain ⟨hy, -⟩ := h.cell_lt hcon y
    rw [List.length_singleton]
    rcases Nat.lt_or_gt_of_ne (fun hslot => heq (hplace hslot)) with hlt | hgt
    · have := hcon.start_mono (show (place y).slot + 1 ≤ (place x).slot from hlt)
      omega
    · have := hcon.start_mono (show (place x).slot + 1 ≤ (place y).slot from hgt)
      omega

/-- The code of an assignment: the address of the variable, the value, and the store. -/
theorem store_emits {g₂ : Generator} {c₂ : Catalogue} {m : Module} {R' r : Nat}
    (hplace : Function.Injective fun x => (place x).slot) (hready : Ready W node place g c R)
    (hready₂ : Ready W node place g₂ c₂ (R + 1))
    (hcode₁ : Emits g.module R g₂.module (R + 1) fun p f f' =>
      f.Sets f' R [Code.frameAddress (p.start (place x).slot + (place x).off)])
    (hcode₂ : LeavesRegisters place e.expr g₂.module (R + 1) m R' r) (hr : r + 1 ≤ R') :
    ∃ m', Module.storeIndirect (Value.run R 1) (Value.run r 1) m = ((), m') ∧ m'.slots = m.slots ∧
      Emits g.module R m' R' fun p f f' => ∀ env, Env place p f env →
        Env place p f' (Function.update env x (e.value env)) := by
  have hboth := hcode₁.trans hcode₂
  obtain ⟨m', hstore, hslots, hcode⟩ := @Module.storeIndirect_emits m g.module R' R _ hboth R r
    (fun p => p.start (place x).slot + (place x).off) hr (by
      intro p S f f' hcon hf hdone
      obtain ⟨f₁, hf₁, hsets, hkeeps, -⟩ := hdone
      have hcon₂ := hcon.below (hcode₂.grows.below S) hcode₂.le
      obtain ⟨hcell, -⟩ := hready₂.cell_lt hcon₂ x
      have htop := hcon.top ((place x).slot + 1)
      have hwords := hf.words
      refine ⟨?_, by omega⟩
      rw [hkeeps.regs R (Nat.lt_succ_self R)]
      exact Stands.single.1 hsets.stands)
  refine ⟨m', hstore, hslots, hcode.imp ?_⟩
  intro p S f f' hcon hf hdone env henv
  obtain ⟨f₂, v, ⟨f₁, hf₁, hsets, hkeeps, hvalue⟩, hv, hstores⟩ := hdone
  have hcon₀ := hcon.below (hcode.grows.below S) hcode.le
  have hlimit := hcon.start_mono hcode₁.grows.slots_le
  -- Neither the address nor the value is written to a variable.
  have henv₁ : Env place p f₁ env := by
    intro y
    rw [hsets.words]
    exact henv y
  have henv₂ : Env place p f₂ env :=
    hready.env_keeps_zero hcon₀ henv₁ (hkeeps.weaken (Nat.le_succ R) hlimit (by omega))
  have hword := hvalue env henv₁
  rw [WordExpr.expr_eval, Stands.single, hv, Option.some.injEq] at hword
  subst hword
  exact hready.env_update hplace hcon₀ henv₂ hstores

/-- What the body of an assignment leaves, but for the temporaries that it drops. -/
structure Assigned (W : List Record) (place : X → Location) (x : X) (e : WordExpr X)
    (sub : List Node) (info : Info) (ct : Contract) (g : Generator) (c : Catalogue) (R : Nat)
    (g' : Generator) (m : Module) (c' : Catalogue) (R' : Nat) : Prop where
  plain : (info.contract.merge ct).validity = 0
  moves : Moves g c sub g' c'
  room : g'.heap.arena.Room (c'.lacking W)
  few : R' ≤ R + 1 + e.expr.volume
  slots : ∃ new, m.slots.toList = g.module.slots.toList ++ new ∧ new.sum ≤ e.expr.volume
  code : Emits g.module R m R' fun p f f' => ∀ env, Env place p f env →
    Env place p f' (Function.update env x (e.value env))

/-- The body of an assignment generates its operands and the store. -/
theorem assign_body {depth : Nat} {site : Site} {q n₁ : Node} {ns : List Node} {info : Info}
    (hplace : Function.Injective fun x => (place x).slot) (hready : Ready W node place g c R)
    (hfresh : Fresh g (q :: ns)) (hnodup : (q :: ns).Nodup) (hlen : (q :: ns).length ≤ depth)
    (hn : g.heap.arena.Owns site.node [Tag.store.word, 0, q, n₁])
    (hq : g.heap.arena.Owns q [Tag.pointer.word, 0, node x])
    (hspell : Expr.Spells g.heap node e.expr n₁ ns)
    (hW : .pointer g.heap.types.scalars.integer ∈ W) (hinfo : g.memo.get? (node x) = some info) :
    ∃ ct g' m c' R', Assigned W place x e (q :: ns) info ct g c R g' m c' R' ∧
      body (generate depth) site .store g
        = .ok ⟨.void, ⟨0, 0⟩, 0, site.lifetime, false, .unbounded⟩ (dropped site { g' with
            module := m
            memo := g'.memo.set (node x) { info with contract := info.contract.merge ct } }) := by
  obtain ⟨a, b, g₁, c₁, g₂, c₂, R₂, hoperands, hm₁, hready₁, hslots₁, hmem, htempa, hvaluea, hcode₁,
    hset⟩ := assign_operands hready hfresh hnodup hlen hn hq hspell hW
  obtain ⟨htempb, ⟨r, hlo, hhi, hvalueb, hcode₂⟩, new, hnew, hsum⟩ := hset.delivered
  obtain ⟨m, hstore, hslots, hcode⟩ := store_emits hplace hready hready₁ hcode₁ hcode₂ hhi
  have hm : Moves g c ([q] ++ ns) g₂ c₂ := hm₁.append hset.moves
  have hs₂ : g₂.heap.Standard c₂ := hready.standard.extends hm.ext
  have hinfo₂ : g₂.memo.get? (node x) = some info :=
    (hm.memo _ (hready.var_not_mem hfresh x)).trans hinfo
  refine ⟨b.contract, g₂, m, c₂, R₂, ⟨?_, hm, hset.room, hset.few, ⟨new, ?_, hsum⟩, hcode⟩, ?_⟩
  · obtain ⟨info', hinfo', -, -, -, hplain⟩ := (hready.vars x).memo
    cases hinfo.symm.trans hinfo'
    show max info.contract.validity b.contract.validity = 0
    rw [hplain, hset.plain]
    rfl
  · rw [hslots, hnew, hslots₁]
  · have hmem₂ := hset.moves.ext.mem hmem
    rw [← hm.ext.scalars_eq] at hmem₂
    unfold body
    refine (bind_eq_ok hoperands).trans ?_
    exact storeThrough_eq hs₂ hmem₂ hset.type htempa htempb hset.plain
      (by rw [hvaluea, hvalueb]; exact hstore) (hn.grows hm.ext.grows) (hq.grows hm.ext.grows)
      hinfo₂

/-- An assignment writes the value of its expression to the slot of its variable. -/
theorem assign_generates {depth : Nat} {n q n₁ : Node} {ns : List Node}
    (hplace : Function.Injective fun x => (place x).slot) (hready : Ready W node place g c R)
    (hfresh : Fresh g (n :: q :: ns)) (hnodup : (n :: q :: ns).Nodup)
    (hlen : (q :: ns).length ≤ depth) (hn : g.heap.arena.Owns n [Tag.store.word, 0, q, n₁])
    (hq : g.heap.arena.Owns q [Tag.pointer.word, 0, node x])
    (hspell : Expr.Spells g.heap node e.expr n₁ ns)
    (hW : .pointer g.heap.types.scalars.integer ∈ W) :
    ∃ info g' c' R', generate (depth + 1) n .ownSlot nowhere g = .ok info g' ∧
      Passes W node place (n :: q :: ns) (1 + e.expr.volume) g c R g' c' R' ∧
      Emits g.module R g'.module R' fun p f f' => ∀ env, Env place p f env →
        Env place p f' (Function.update env x (e.value env)) := by
  obtain ⟨hnot, hnodup'⟩ := List.nodup_cons.1 hnodup
  let g₀ := entered n .ownSlot g
  have hready₀ : Ready W node place g₀ c R := hready.enter n .ownSlot
  have hfresh₀ : Fresh g₀ (q :: ns) := hfresh.enter hnot .ownSlot
  obtain ⟨info, hinfo, -⟩ := (hready₀.vars x).memo
  let site : Site := ⟨n, .ownSlot, ⟨g.module.slots.size, 0⟩, g.clock, g.shadow.length⟩
  obtain ⟨ct, g₂, m, c₂, R₂, hassigned, hbody⟩ :=
    @assign_body X W node place g₀ c R x e _ depth site q n₁ ns info hplace hready₀ hfresh₀ hnodup'
      hlen hn hq hspell hW hinfo
  -- Dropping the temporaries touches no variable.
  obtain ⟨hm, -, hmodule, hheap, -⟩ := ((hassigned.moves.setModule m).setMemo (node x)
    { info with contract := info.contract.merge ct }).clear
  let g₃ : Generator := dropped site { g₂ with
    module := m
    memo := g₂.memo.set (node x) { info with contract := info.contract.merge ct } }
  have hmodule₃ : g₃.module = m := hmodule
  have hcode := hassigned.code
  rw [← hmodule₃] at hcode
  have hroom : g₃.heap.arena.Room (c₂.lacking W) := by
    rw [show g₃.heap = g₂.heap from hheap]
    exact hassigned.room
  have hready₃ : Ready W node place g₃ c₂ R₂ := (hready₀.setContract hinfo hassigned.plain).next
    (hfresh₀.setVariable hready₀ x _) hm hroom hcode
  obtain ⟨new, hnew, hsum⟩ := hassigned.slots
  refine ⟨_, { g₃ with active := g₃.active.erase n }, c₂, R₂,
    generate_eq_ok hready.standard.sized hn (hfresh n List.mem_cons_self).1 hbody,
    ⟨hready₃.setActive _, hm.ext, ?_, ?_, ?_, ?_, 0 :: new, ?_, ?_⟩, ?_⟩
  · show g₃.active.erase n = g.active
    rw [show g₃.active = n :: g.active from hm.active, List.erase_cons_head]
  · intro n' hn' hvar
    refine (hm.memo n' fun hmem' => hn' (List.mem_cons_of_mem _ hmem')).trans ?_
    exact Dict.get?_set_ne _ _ (hvar x)
  · intro n' _
    exact congrArg (·.get? n') hm.labels
  · have := hassigned.few
    omega
  · show g₃.module.slots.toList = _
    rw [hmodule₃, hnew]
    show (g.module.slots.push 0).toList ++ new = _
    rw [Array.toList_push, List.append_assoc]
    rfl
  · rw [List.sum_cons]
    omega
  · refine ((entered_emits hready n .ownSlot).trans hcode).imp ?_
    intro p S f f' hcon hf hdone
    obtain ⟨f₁, -, rfl, hdone⟩ := hdone
    exact hdone

end Assignment

end Compile

end TreeMachine
