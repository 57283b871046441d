import TreeMachine.Proofs.Compile.Ending
import TreeMachine.Proofs.Compile.Root
import TreeMachine.Proofs.Source.Graphs

/-! # The depth of generation

  A node that is in progress is not entered again, so there are no more nodes on the way down
  than in the graph, also if the graph has cycles.  Two generators that differ only where one
  of them ends badly have the same result otherwise.  Main statement: generation ends within
  that depth and leaves the nodes in progress as they were, and what would happen deeper down
  or at a node that is entered again is of no account.
-/

namespace TreeMachine.Compile

open Code (Module Value Build)

variable {α β : Type} {N : Node → Tag → Prop} {A : List Node} {g : Generator} {c : Catalogue}
  {gen gen' : SubGen} {bad : Stop CompileError → Prop}

/-! ### Generators that differ in bad ends only -/

/-- Where `x` does not end badly, `y` does the same. -/
def Follows (bad : Stop CompileError → Prop) (x y : Gen α) : Prop :=
  ∀ g, y g = x g ∨ ∃ e g', x g = .error e g' ∧ bad e

namespace Follows

theorem refl (x : Gen α) : Follows bad x x := fun _ => Or.inl rfl

theorem bind {x y : Gen α} {f k : α → Gen β} (hx : Follows bad x y)
    (hf : ∀ a, Follows bad (f a) (k a)) : Follows bad (x >>= f) (y >>= k) := by
  intro g
  rcases hx g with heq | ⟨e, g', hrun, he⟩
  · cases hrun : x g with
    | ok a g' =>
      rw [bind_eq_ok hrun, bind_eq_ok (heq.trans hrun)]
      exact hf a g'
    | error e g' =>
      rw [bind_eq_error hrun, bind_eq_error (heq.trans hrun)]
      exact Or.inl rfl
  · exact Or.inr ⟨e, g', bind_eq_error hrun, he⟩

/-- The same first step. -/
theorem step {x : Gen α} {f k : α → Gen β} (hf : ∀ a, Follows bad (f a) (k a)) :
    Follows bad (x >>= f) (x >>= k) :=
  bind (refl x) hf

theorem ite {p : Prop} [Decidable p] {x x' y y' : Gen α} (h : Follows bad x y)
    (h' : Follows bad x' y') :
    Follows bad (if p then x else x') (if p then y else y') := by
  split
  · exact h
  · exact h'

/-- The same condition for a first step that may be left out. -/
theorem optional {p : Prop} [Decidable p] {x y : Gen α} {z w : Gen β} (hx : Follows bad x y)
    (hz : Follows bad z w) :
    Follows bad (if p then x >>= fun _ => z else z) (if p then y >>= fun _ => w else w) :=
  ite (bind hx fun _ => hz) hz

end Follows

def SubGen.Follows (bad : Stop CompileError → Prop) (gen gen' : SubGen) : Prop :=
  ∀ n degree storage, Compile.Follows bad (gen n degree storage) (gen' n degree storage)

theorem choiceBranch_follows (h : SubGen.Follows bad gen gen') (site : Site)
    (start merge i depth : Nat) :
    Follows bad (choiceBranch gen site start merge i depth)
      (choiceBranch gen' site start merge i depth) := by
  unfold choiceBranch
  refine .step fun _ => .step fun k => .bind (h k _ _) fun r => .refl _
  
theorem choice_follows (h : SubGen.Follows bad gen gen') (site : Site) :
    Follows bad (choice gen site) (choice gen' site) := by
  unfold choice
  refine .step fun k => .optional (.refl _) (.bind (h k _ _) fun cond => .step fun never => ?_)
  refine .ite (.refl _) (.step fun fits => .optional (.refl _) ?_)
  refine .step fun thenBlock => .step fun elseBlock => .step fun merge => .step fun tested => ?_
  refine .step fun zero => .step fun differs => .step fun _ => .step fun depth => ?_
  refine .bind (choiceBranch_follows h site thenBlock merge 1 depth) fun r₁ => ?_
  exact .bind (choiceBranch_follows h site elseBlock merge 2 depth) fun r₂ => .refl _

theorem concatenation_follows (h : SubGen.Follows bad gen gen') (site : Site) :
    Follows bad (concatenation gen site) (concatenation gen' site) := by
  have hrest (storage : Location) : Follows bad (concatAt gen site storage)
      (concatAt gen' site storage) := by
    unfold concatAt
    refine .step fun never => .step fun k => .bind (h k _ _) fun left => .ite (.refl _) ?_
    exact .step fun size => .step fun k' => .bind (h k' _ _) fun right => .refl _
  unfold concatenation
  exact .ite (.step fun slot => hrest _) (hrest _)

theorem label_follows (h : SubGen.Follows bad gen gen') (site : Site) :
    Follows bad (label gen site) (label gen' site) := by
  unfold label
  refine .step fun g => .optional (.refl _) (.step fun target => .step fun _ => .step fun k => ?_)
  exact .optional (h k _ _) (.refl _)

theorem jump_follows (h : SubGen.Follows bad gen gen') (site : Site) :
    Follows bad (jump gen site) (jump gen' site) := by
  unfold jump
  refine .step fun k => .optional (.refl _) (.step fun g => ?_)
  split
  · exact .refl _
  refine .ite (.refl _) (.step fun again => .step fun exhausted => .step fun granted => ?_)
  refine .step fun _ => .step fun _ => .step fun depth => .step fun success => ?_
  refine .optional (h success _ _) (.step fun _ => .step fun _ => .step fun _ => .step fun k' => ?_)
  exact .bind (h k' _ _) fun failure => .refl _

theorem statements_follows (h : SubGen.Follows bad gen gen') (elems : List Node) :
    Follows bad (statements gen elems) (statements gen' elems) := by
  induction elems with
  | nil => exact .refl _
  | cons n rest ih => exact .bind (h n _ _) fun _ => ih

theorem block_follows (h : SubGen.Follows bad gen gen') (site : Site) :
    Follows bad (block gen site) (block gen' site) := by
  unfold block
  refine .step fun elems => ?_
  split
  · exact .refl _
  · exact .bind (statements_follows h _) fun _ => .bind (h _ _ _) fun last => .refl _

theorem operands_follow (h : SubGen.Follows bad gen gen') (n : Node) (i : Nat)
    (params : List Param) : Follows bad (operands gen n i params) (operands gen' n i params) := by
  induction params generalizing i with
  | nil => exact .refl _
  | cons p rest ih =>
    unfold operands
    refine .step fun k => .optional (.refl _) (.bind (h k _ _) fun f => .step fun never => ?_)
    refine .ite (.refl _) ?_
    have hrest : Follows bad (do return (← operands gen n (i + 1) rest).map (f :: ·))
        (do return (← operands gen' n (i + 1) rest).map (f :: ·)) :=
      .bind (ih (i + 1)) fun _ => .refl _
    cases p with
    | unchecked => exact hrest
    | checked want => exact .step fun fits => .optional (.refl _) hrest

theorem dispatch_follows (h : SubGen.Follows bad gen gen') (site : Site) (tag : Tag)
    (infos : List Info) :
    Follows bad (dispatch gen site tag infos) (dispatch gen' site tag infos) := by
  cases tag with
  | cond => exact choice_follows h site
  | concatenate => exact concatenation_follows h site
  | label => exact label_follows h site
  | goto => exact jump_follows h site
  | block => exact block_follows h site
  | _ =>
    -- The other nodes have operands only, which are there already.
    rcases infos with _ | ⟨a, _ | ⟨b, _ | ⟨d, rest⟩⟩⟩ <;> exact .refl _

theorem generateNode_follows (h : SubGen.Follows bad gen gen') (n : Node) (degree : Degree)
    (storage : Location) :
    Follows bad (generateNode gen n degree storage) (generateNode gen' n degree storage) := by
  have hbody (site : Site) (tag : Tag) : Follows bad (body gen site tag) (body gen' site tag) := by
    unfold body
    refine .bind (operands_follow h site.node 0 _) fun infos => ?_
    split
    · exact dispatch_follows h site tag _
    · exact .refl _
  unfold generateNode
  refine .step fun before => .optional (h before _ _) (.step fun g => .step fun depth => ?_)
  refine .step fun _ => .ite (.step fun slot => ?_) ?_
  · exact .step fun place => .step fun tag => hbody ⟨n, degree, place, g.clock, depth⟩ tag
  · exact .step fun place => .step fun tag => hbody ⟨n, degree, place, g.clock, depth⟩ tag

theorem whileActive_follows (n : Node) {x y : Gen α} (h : Follows bad x y) :
    Follows bad (whileActive n x) (whileActive n y) := by
  intro g
  rcases h { g with active := n :: g.active } with heq | ⟨e, g', hrun, he⟩
  · refine Or.inl ?_
    unfold whileActive
    rw [heq]
  · refine Or.inr ⟨e, { g' with active := g'.active.erase n }, ?_, he⟩
    unfold whileActive
    rw [hrun]

/-! ### Depth -/

/-- What is done at a node that is in progress. -/
def inLoop : SubGen := fun n _ _ => reject .infiniteLoop n

/-- What is done where the depth ends. -/
def tooDeep : SubGen := fun _ _ _ => throw (.fault .endless)

/-- Generation with `again` for a node that is in progress, and with `deeper` for a node that
    would have to be entered below the depth. -/
def generateWith (again deeper : SubGen) : Nat → SubGen
  | depth, n, degree, storage => do
    if n = 0 then return .none
    if (← get).active.contains n then again n degree storage
    else match depth with
    | 0 => deeper n degree storage
    | depth + 1 => whileActive n (generateNode (generateWith again deeper depth) n degree storage)

/-- What follows a rejected node is of no account. -/
theorem reject_eq (n : Node) (x : Gen Info) : (do
      if n = 0 then return .none
      if (← get).active.contains n then reject .infiniteLoop n
      x : Gen Info) = (do
      if n = 0 then return .none
      if (← get).active.contains n then reject .infiniteLoop n else x : Gen Info) := by
  funext g
  split
  · rfl
  rw [get_bind_eq, get_bind_eq]
  dsimp only
  split <;> rfl

theorem generate_eq (depth : Nat) : generate depth = generateWith inLoop tooDeep depth := by
  induction depth with
  | zero =>
    funext n degree storage
    unfold generate generateWith
    exact reject_eq n (tooDeep n degree storage)
  | succ depth ih =>
    funext n degree storage
    unfold generate generateWith
    dsimp only
    rw [ih]
    exact reject_eq n (whileActive n
      (generateNode (generateWith inLoop tooDeep depth) n degree storage))

/-- If running out of depth is bad, then more depth changes no other results. -/
theorem generateWith_follows {again again' deeper : SubGen} (hbad : bad (.fault .endless))
    (hagain : SubGen.Follows bad again again') {depth depth' : Nat} (hle : depth ≤ depth') :
    SubGen.Follows bad (generateWith again tooDeep depth) (generateWith again' deeper depth') := by
  induction depth generalizing depth' with
  | zero =>
    intro n degree storage
    unfold generateWith
    refine .ite (.refl _) (.step fun g => .ite (hagain n degree storage) ?_)
    exact fun g => Or.inr ⟨_, g, rfl, hbad⟩
  | succ depth ih =>
    obtain ⟨depth', rfl⟩ : ∃ k, depth' = k + 1 := ⟨depth' - 1, by omega⟩
    have hsub := ih (Nat.le_of_succ_le_succ hle)
    intro n degree storage
    unfold generateWith
    refine .ite (.refl _) (.step fun g => .ite (hagain n degree storage) ?_)
    exact whileActive_follows n (generateNode_follows hsub n degree storage)

/-- If there is depth for all nodes that are not in progress, generation ends. -/
theorem generate_halts {S : Finset Node} (hS : ∀ n t, N n t → n ∈ S) {depth : Nat}
    (hdepth : (S \ A.toFinset).card ≤ depth) : SubGen.Halts (generate depth) N A := by
  induction depth generalizing A with
  | zero =>
    intro g c n degree storage hN h
    unfold generate
    split
    · exact .pure h.interned ⟨h, Or.inl rfl⟩
    rename_i hne
    obtain ⟨t, ht⟩ := hN.resolve_left hne
    -- All nodes are in progress.
    have hactive : g.active.contains n = true := by
      rw [h.active_eq, List.contains_iff_mem, ← List.mem_toFinset]
      have hempty := Finset.card_eq_zero.1 (Nat.le_zero.1 hdepth)
      exact Finset.sdiff_eq_empty_iff_subset.1 hempty (hS n t ht)
    refine .read (x := get) rfl ?_
    dsimp only
    rw [if_pos hactive]
    exact .rejected_bind h.interned rfl
  | succ depth ih =>
    intro g c n degree storage hN h
    unfold generate
    split
    · exact .pure h.interned ⟨h, Or.inl rfl⟩
    rename_i hne
    obtain ⟨t, ht⟩ := hN.resolve_left hne
    refine .read (x := get) rfl ?_
    dsimp only
    split
    · exact .rejected_bind h.interned rfl
    rename_i hactive
    have hfewer : (S \ (n :: A).toFinset).card ≤ depth := by
      rw [h.active_eq, List.contains_iff_mem, ← List.mem_toFinset] at hactive
      have hmem : n ∈ S \ A.toFinset := Finset.mem_sdiff.2 ⟨hS n t ht, hactive⟩
      rw [List.toFinset_cons, Finset.sdiff_insert, Finset.card_erase_of_mem hmem]
      omega
    exact whileActive_halts h n fun g₁ h₁ => generateNode_halts (ih hfewer) h₁ ht degree storage

/-- A closed set has finitely many nodes. -/
theorem exists_nodes {h : Heap} (hN : h.Closed c N) :
    ∃ S : Finset Node, ∀ n, n ∈ S ↔ ∃ t, N n t := by
  classical
  let words : Finset Node := (Finset.range h.arena.words.size).image UInt64.ofNat
  refine ⟨words.filter fun n => ∃ t, N n t, fun n => ?_⟩
  refine Finset.mem_filter.trans (and_iff_right_of_imp ?_)
  rintro ⟨t, ht⟩
  obtain ⟨before, fields, hnode⟩ := hN n t ht
  have hin := hnode.owns.inside
  rw [List.length_cons] at hin
  exact Finset.mem_image.2 ⟨n.toNat, Finset.mem_range.2 (by omega), UInt64.ofNat_toNat⟩

/-- The nodes of a closed set own different words. -/
theorem card_le_depthBound {h : Heap} (hN : h.Closed c N) {S : Finset Node}
    (hS : ∀ n ∈ S, ∃ t, N n t) : S.card ≤ h.depthBound := by
  rw [← Finset.length_toList]
  refine length_le_depthBound (fun n hn => ?_) S.nodup_toList
  obtain ⟨t, ht⟩ := hS n (Finset.mem_toList.1 hn)
  obtain ⟨before, fields, hnode⟩ := hN n t ht
  exact ⟨_, _, hnode.owns⟩

section Settled

variable {S : Finset Node} {root : Node}

/-- There is depth enough for as many nodes as there are. -/
theorem generate_card_halts (h : Typed N g.active g c) (hS : ∀ n, n ∈ S ↔ ∃ t, N n t)
    (hroot : OrNull N root) (degree : Degree) (storage : Location) :
    Halts (generate S.card root degree storage) g c (Delivers N g.active) :=
  generate_halts (fun n t ht => (hS n).2 ⟨t, ht⟩) (Finset.card_le_card Finset.sdiff_subset) g c root
    degree storage hroot h

/-- What would happen below that depth is of no account. -/
theorem generateWith_deeper (h : Typed N g.active g c) (hS : ∀ n, n ∈ S ↔ ∃ t, N n t)
    (hroot : OrNull N root) (degree : Degree) (storage : Location) (deeper : SubGen) {depth : Nat}
    (hdepth : S.card ≤ depth) :
    generateWith inLoop deeper depth root degree storage g
      = generate S.card root degree storage g := by
  have hfollows : SubGen.Follows (· = .fault .endless) (generateWith inLoop tooDeep S.card)
      (generateWith inLoop deeper depth) := by
    refine generateWith_follows ?_ (fun n degree storage => .refl _) hdepth
    rfl
  rw [← generate_eq] at hfollows
  refine (hfollows root degree storage g).resolve_right ?_
  rintro ⟨e, g', hrun, he⟩
  exact ((generate_card_halts h hS hroot degree storage).error hrun).1 he

/-- Unless a loop is reported, what would happen at a node in progress is of no account. -/
theorem generateWith_again (h : Typed N g.active g c) (hS : ∀ n, n ∈ S ↔ ∃ t, N n t)
    (hroot : OrNull N root) (degree : Degree) (storage : Location) :
    (∃ n g', generate S.card root degree storage g
      = .error (.error (.rejected .infiniteLoop n none)) g') ∨
      ∀ again deeper depth, S.card ≤ depth → generateWith again deeper depth root degree storage g
        = generate S.card root degree storage g := by
  by_cases hloop : ∃ n g', generate S.card root degree storage g
      = .error (.error (.rejected .infiniteLoop n none)) g'
  · exact Or.inl hloop
  refine Or.inr fun again deeper depth hdepth => ?_
  -- A loop is bad as well now, so it may be replaced by anything else.
  have hfollows : SubGen.Follows
      (fun e => e = .fault .endless ∨ ∃ n, e = .error (.rejected .infiniteLoop n none))
      (generateWith inLoop tooDeep S.card) (generateWith again deeper depth) :=
    generateWith_follows (Or.inl rfl)
      (fun n degree storage g => Or.inr ⟨_, g, rfl, Or.inr ⟨n, rfl⟩⟩) hdepth
  rw [← generate_eq] at hfollows
  refine (hfollows root degree storage g).resolve_right ?_
  rintro ⟨e, g', hrun, he | ⟨n, rfl⟩⟩
  · exact ((generate_card_halts h hS hroot degree storage).error hrun).1 he
  · exact hloop ⟨n, g', hrun⟩

/-- Generation has one result `r`, whatever would happen below as many nodes as there are: the
    depth of the descent is at most the number of nodes and one for null.  It is no descent
    without an end, and the nodes in progress are those from before.  Unless it reports a loop,
    no node has been met that was in progress, since whatever would happen there is of no
    account. -/
theorem generate_settles (h : Typed N g.active g c) (hS : ∀ n, n ∈ S ↔ ∃ t, N n t)
    (hroot : OrNull N root) (degree : Degree) (storage : Location) :
    ∃ r, (∀ depth, S.card ≤ depth → generate depth root degree storage g = r ∧
        ∀ deeper, generateWith inLoop deeper depth root degree storage g = r) ∧
      generate g.heap.depthBound root degree storage g = r ∧
      (∀ g', r ≠ .error (.fault .endless) g') ∧ (stateAfter r).active = g.active ∧
      ((∃ n g', r = .error (.error (.rejected .infiniteLoop n none)) g') ∨
        ∀ again deeper depth, S.card ≤ depth →
          generateWith again deeper depth root degree storage g = r) := by
  have hhalts := generate_card_halts h hS hroot degree storage
  have hdeep {depth : Nat} (hdepth : S.card ≤ depth) :
      generate depth root degree storage g = generate S.card root degree storage g := by
    rw [generate_eq depth]
    exact generateWith_deeper h hS hroot degree storage tooDeep hdepth
  refine ⟨generate S.card root degree storage g, fun depth hdepth => ⟨hdeep hdepth, fun deeper =>
    generateWith_deeper h hS hroot degree storage deeper hdepth⟩,
    hdeep (card_le_depthBound h.closed fun n hn => (hS n).1 hn),
    fun g' hrun => (hhalts.error hrun).1 rfl, ?_, generateWith_again h hS hroot degree storage⟩
  refine Yields.stateAfter (P := fun g' => g'.active = g.active) (hhalts.mono ?_ ?_)
  · rintro info g' ⟨c', hg, -⟩
    exact hg.active_eq
  · rintro e g' ⟨-, c', hg⟩
    exact hg.active_eq

end Settled

/-- A label whose body jumps to it. -/
def selfJump : List UInt8 := Text.toBytes "_l [label [goto l nil nil]]"

/-- A label whose body jumps to it is a cycle.  It is generated without meeting a node that is
    in progress. -/
theorem generate_settles_label : ∃ image root body h info g',
    Image.create 64 1 = .ok image ∧ Source.read selfJump image.heap = .ok root h ∧
      h.field root 0 = .ok body ∧ h.field body 0 = .ok root ∧
      generate h.depthBound root .ownSlot nowhere (.start h "f") = .ok info g' ∧ g'.active = [] ∧
      ∀ again deeper, generateWith again deeper h.depthBound root .ownSlot nowhere (.start h "f")
        = .ok info g' := by
  have heval : ((Image.create 64 1).toOption.any fun image => !image.heap.arena.collecting &&
      (answer? (Source.read selfJump image.heap)).any fun p =>
        (p.2.field p.1 0).toOption.any fun body => decide (p.2.field body 0 = .ok p.1) &&
          (answer? (generate p.2.depthBound p.1 .ownSlot nowhere (.start p.2 "f"))).isSome)
      = true := by decide +kernel
  simp only [Option.any_eq_true, Bool.and_eq_true, Bool.not_eq_true', Option.isSome_iff_exists,
    answer?_eq_some, toOption_eq_some, decide_eq_true_eq] at heval
  obtain ⟨image, himage, hidle, ⟨root, h⟩, hread, body, hbody, hcycle, ⟨info, g'⟩, hrun⟩ := heval
  obtain ⟨c, hs⟩ := Image.create_standard himage
  obtain ⟨F, hmade, -⟩ := Source.read_made hs hidle hread
  have hroot := Source.read_wellFormed hs hidle hread
  have hclosed := Heap.closed_wellFormedAs h c
  obtain ⟨S, hS⟩ := exists_nodes hclosed
  obtain ⟨r, -, hr, -, hactive, hagain⟩ := generate_settles (g := .start h "f")
    (.start (hmade.1.standard hs) hclosed "f") hS hroot .ownSlot nowhere
  cases hrun.symm.trans hr
  refine ⟨image, root, body, h, info, g', himage, hread, hbody, hcycle, hrun, hactive, ?_⟩
  rcases hagain with ⟨n, g'', hloop⟩ | hagain
  · cases hloop
  · exact fun again deeper =>
      hagain again deeper _ (card_le_depthBound hclosed fun n hn => (hS n).1 hn)

end TreeMachine.Compile
