import TreeMachine.Proofs.Compile.Site

/-! # Concatenations

  The halves of a concatenation are written next to each other in one slot: the one that the
  node has to fill, or a new one from which the value is loaded.  Main statement: a
  concatenation leaves the words of its halves one after the other.
-/

namespace TreeMachine.Compile

open Code (Module Value Program Frame Stands wrap)
open Code.Module (Emits)

variable {X : Type} {W : List Record} {node : X → Node} {place : X → Location}
  {g g' : Generator} {c c' : Catalogue} {R R' w : Nat} {site : Site} {a b : Expr X}

/-- Two halves next to each other are the whole. -/
theorem LeavesSlot.halves {m₁ m₂ : Module} {R₁ R₂ w₁ w₂ : Nat} {at_ : Location}
    (hready : Ready W node place g c R) (hat : Writable place g at_) (ha : a.width = some w₁)
    (hroom : 0 < w₁ → ∃ size, m₁.slots[at_.slot]? = some size ∧ (at_.off + w₁ : Nat) ≤ size)
    (h₁ : LeavesSlot place a g.module R m₁ R₁ at_ w₁)
    (h₂ : LeavesSlot place b m₁ R₁ m₂ R₂ ⟨at_.slot, at_.off + w₁⟩ w₂) :
    LeavesSlot place (.concat a b) g.module R m₂ R₂ at_ (w₁ + w₂) := by
  refine (h₁.trans h₂).imp ?_
  intro p S f f' hcon hf hdone
  obtain ⟨f₁, -, ⟨hkeeps₁, hstands₁⟩, hkeeps₂, hstands₂⟩ := hdone
  have hcon₁ := hcon.below (h₂.grows.below S) h₂.le
  have hcon₀ := hcon₁.below (h₁.grows.below S) h₁.le
  have hlimit := hcon.start_mono h₁.grows.slots_le
  have hslot := hcon.start_mono (show at_.slot + 1 ≤ m₁.slots.size by
    have := h₁.grows.slots_le
    have := hat.1
    omega)
  dsimp only at hkeeps₂ hstands₂
  have hmiddle : p.start at_.slot + (at_.off + w₁) = p.start at_.slot + at_.off + w₁ := by omega
  rw [hmiddle] at hkeeps₂ hstands₂
  have hkeeps : f.Keeps f₁ R (p.start g.module.slots.size) (p.start at_.slot + at_.off) (w₁ + w₂) :=
    hkeeps₁.weaken (Nat.le_refl _) (Nat.le_refl _) (by omega)
  refine ⟨hkeeps.trans hkeeps₂ h₁.le hlimit (by omega), ?_⟩
  intro env henv
  have hlen := Expr.length_eval env a ha
  -- The first half is inside its slot, so the second one leaves it and the variables alone.
  have hend : 0 < w₁ → p.start at_.slot + at_.off + w₁ ≤ p.start (at_.slot + 1) := by
    intro hpos
    obtain ⟨size, hsize, hle⟩ := hroom hpos
    have := hcon₁.slot_room hsize hle
    omega
  have henv₁ : Env place p f₁ env := by
    by_cases hpos : 0 < w₁
    · exact hready.env_keeps_slot hcon₀ henv hat (hend hpos) hkeeps₁
    · exact hready.env_keeps hcon₀ henv hkeeps₁ fun x => by omega
  rw [Expr.eval]
  refine Stands.append ?_ (by rw [hlen]; exact hstands₂ env henv₁)
  by_cases hpos : 0 < w₁
  · have := hend hpos
    exact hkeeps₂.stands_words (hstands₁ env henv) (by omega) (by omega)
  · rw [List.eq_nil_of_length_eq_zero (by omega : (a.eval env).length = 0)]
    exact Stands.nil _ _

/-- Generates the halves and delivers them, from a given place on. -/
def concatAt (gen : SubGen) (site : Site) (storage : Location) : Gen Info := do
  let never ← doesNotReturn
  let left ← gen (← child site.node 0) .storeInto storage
  if left.type = never then return ← finishVoid site left.type
  let middle := storage.off + (← sizeOf left.type)
  let right ← gen (← child site.node 1) .storeInto ⟨storage.slot, middle⟩
  if right.type = never then return ← finishVoid site right.type
  let stop := middle + (← sizeOf right.type)
  let t ← onHeap (Heap.concatenate [left.type, right.type])
  let c := left.contract.merge right.contract
  if site.degree = .value then
    let v ← build (Module.load storage.slot storage.off (stop - storage.off))
    finish site v t c true
  else finish site .void t c false

theorem concatenation_slot (gen : SubGen) (hd : site.degree ≠ .value) :
    concatenation gen site = concatAt gen site site.storage := by
  unfold concatenation
  rw [if_neg hd]
  rfl

theorem concatenation_value (gen : SubGen) (hd : site.degree = .value) (g : Generator) :
    concatenation gen site g = concatAt gen site ⟨g.module.slots.size, 0⟩
      { g with module := { g.module with slots := g.module.slots.push 0 } } := by
  unfold concatenation
  rw [if_pos hd]
  rfl

/-- The state after both halves: they stand at their place, and their type is made. -/
structure Halved (W : List Record) (place : X → Location) (a b : Expr X) (sub : List Node)
    (at_ : Location) (g : Generator) (c : Catalogue) (R : Nat) (t : Ty) (ct : Contract)
    (g' : Generator) (w : Nat) (c' : Catalogue) (R' : Nat) : Prop where
  width : (Expr.concat a b).width = some w
  moves : Moves g c sub g' c'
  room : g'.heap.arena.Room (c'.lacking W)
  type : c'.Integers g'.heap.types.scalars.integer w t
  plain : ct.validity = 0
  few : R' ≤ R + a.volume + b.volume
  code : LeavesSlot place (.concat a b) g.module R g'.module R' at_ w
  slots : ∃ new, g'.module.slots.toList = (enlarge g.module.slots at_ w).toList ++ new ∧
    new.sum + w ≤ (a.volume + b.volume : Nat)

/-- How the result of the halves is delivered. -/
def deliverHalves (site : Site) (storage : Location) (w : Nat) (t : Ty) (ct : Contract) :
    Gen Info := do
  if site.degree = .value then
    let v ← build (Module.load storage.slot storage.off w)
    finish site v t ct true
  else finish site .void t ct false

/-- Halves that have been generated one after the other have a type together. -/
theorem halves_make {info₁ info₂ : Info} {g₁ g₂ : Generator} {c₁ c₂ : Catalogue}
    {ns₁ ns₂ : List Node} {at_ : Location} {w₁ w₂ R₁ R₂ : Nat} (hready : Ready W node place g c R)
    (hat : Writable place g at_)
    (hset₁ : Settled W place a ns₁ .storeInto at_ g c R info₁ g₁ w₁ c₁ R₁)
    (hset₂ : Settled W place b ns₂ .storeInto ⟨at_.slot, at_.off + w₁⟩ g₁ c₁ R₁ info₂ g₂ w₂ c₂ R₂)
    (hready₂ : Ready W node place g₂ c₂ R₂)
    (hW : ∀ r ∈ (Expr.concat a b).types g.heap.types.scalars.integer, r ∈ W) :
    ∃ t h c', Heap.concatenate [info₁.type, info₂.type] g₂.heap = .ok t h ∧
      Halved W place a b (ns₁ ++ ns₂) at_ g c R t (info₁.contract.merge info₂.contract)
        { g₂ with heap := h } (w₁ + w₂) c' R₂ := by
  have hm₁ := hset₁.moves
  have hm₂ := hset₂.moves
  have hs₂ := hready₂.standard
  obtain ⟨-, -, hcode₁, new₁, hnew₁, hsum₁⟩ := hset₁.delivered
  obtain ⟨-, -, hcode₂, new₂, hnew₂, hsum₂⟩ := hset₂.delivered
  have hscalars : g₂.heap.types.scalars = g.heap.types.scalars :=
    hm₂.ext.scalars_eq.trans hm₁.ext.scalars_eq
  have hwidth : (Expr.concat a b).width = some (w₁ + w₂) :=
    Expr.width_concat.2 ⟨w₁, w₂, hset₁.width, hset₂.width, rfl⟩
  have htype₁ : c₂.Integers g₂.heap.types.scalars.integer w₁ info₁.type := by
    have := hm₂.ext.integers hset₁.type
    rwa [hm₂.ext.scalars_eq]
  have hrecord : ∀ n, w₁ + w₂ = n + 2 →
      .concat (List.replicate (n + 2) g₂.heap.types.scalars.integer) ∈ W := by
    intro n heq
    rw [hscalars]
    refine hW _ ?_
    rw [Expr.types, hwidth, heq]
    exact List.mem_append_right _ List.mem_cons_self
  obtain ⟨t, h, c', hconcat, hext, htype, hroom⟩ :=
    hs₂.concatenate_room hready₂.idle hset₂.room htype₁ hset₂.type hrecord
  have hm : Moves g c (ns₁ ++ ns₂) g₂ c₂ :=
    hm₁.append hm₂
  have hplain : (info₁.contract.merge info₂.contract).validity = 0 := by
    rw [Contract.merge, hset₁.plain, hset₂.plain]
    rfl
  have hfew₁ := hset₁.few
  have hfew₂ := hset₂.few
  refine ⟨t, h, c', hconcat, hwidth, hm.setHeap hext, hroom, ?_, hplain, by omega, ?_, ?_⟩
  · show c'.Integers h.types.scalars.integer (w₁ + w₂) t
    rw [hext.scalars_eq]
    exact htype
  · refine LeavesSlot.halves hready hat hset₁.width ?_ hcode₁ hcode₂
    intro hpos
    obtain ⟨size, hsize, hle⟩ := enlarge_room hat.1 hpos
    exact ⟨size, getElem?_of_append hnew₁ hsize, hle⟩
  · refine ⟨new₁ ++ new₂, ?_, ?_⟩
    · show g₂.module.slots.toList = _
      rw [hnew₂, enlarge_append hnew₁ (by rw [size_enlarge]; exact hat.1), enlarge_enlarge,
        List.append_assoc]
    · rw [List.sum_append]
      omega

/-- The halves are generated one after the other and then delivered, or the whole has no
    width. -/
theorem concatAt_yields {gen : SubGen} {n₁ n₂ : Node} {ns₁ ns₂ : List Node} {at_ : Location}
    {Q : Info → Generator → Prop} {E : Stop CompileError → Generator → Prop}
    (hready : Ready W node place g c R) (hfresh : Fresh g (ns₁ ++ ns₂))
    (hnodup : (ns₁ ++ ns₂).Nodup)
    (hn : g.heap.arena.Owns site.node [Tag.concatenate.word, 0, n₁, n₂])
    (hspell₁ : Expr.Spells g.heap node a n₁ ns₁) (hspell₂ : Expr.Spells g.heap node b n₂ ns₂)
    (hwork₁ : Works W node place gen a n₁ ns₁) (hwork₂ : Works W node place gen b n₂ ns₂)
    (hW : ∀ r ∈ (Expr.concat a b).types g.heap.types.scalars.integer, r ∈ W)
    (hat : Writable place g at_)
    (hnext : ∀ t ct g' w c' R', Halved W place a b (ns₁ ++ ns₂) at_ g c R t ct g' w c' R' →
      Yields (deliverHalves site at_ w t ct) g' Q E)
    (herr : (Expr.concat a b).width = none → ∀ f s, E f s) :
    Yields (concatAt gen site at_) g Q E := by
  have hchild₁ : child site.node 0 g = .ok n₁ g := child_eq hready.standard.sized hn rfl rfl
  unfold concatAt
  refine Yields.bind_ok (doesNotReturn_eq g) (Yields.bind_ok hchild₁ (Yields.bind ?_))
  have hW₁ : ∀ r ∈ a.types g.heap.types.scalars.integer, r ∈ W := fun r hr =>
    hW r (List.mem_append_left _ (List.mem_append_left _ hr))
  have hW₂ : ∀ r ∈ b.types g.heap.types.scalars.integer, r ∈ W := fun r hr =>
    hW r (List.mem_append_left _ (List.mem_append_right _ hr))
  refine (hwork₁ g c R .storeInto at_ hready hspell₁ hfresh.left hW₁ fun _ => hat).mono ?_ ?_
  rotate_left
  · intro f s hnone
    refine herr ?_ f s
    rw [Expr.width, hnone]
  intro info₁ g₁ hset₁
  obtain ⟨w₁, c₁, R₁, hset₁⟩ := hset₁
  have hm₁ := hset₁.moves
  obtain ⟨-, -, hcode₁, -⟩ := hset₁.delivered
  have hready₁ := hready.next hfresh.left hm₁ hset₁.room hcode₁
  have hfresh₁ : Fresh g₁ ns₂ := hfresh.after hnodup hm₁
  have hs₁ := hready₁.standard
  have hreturns₁ := hs₁.integers_returns hset₁.type
  rw [hm₁.ext.scalars_eq] at hreturns₁
  rw [if_neg hreturns₁]
  refine Yields.bind_ok (sizeOf_eq hs₁ hset₁.type) ?_
  have hchild₂ : child site.node 1 g₁ = .ok n₂ g₁ :=
    child_eq hs₁.sized (hn.grows hm₁.ext.grows) rfl rfl
  refine Yields.bind_ok hchild₂ (Yields.bind ?_)
  have hsize₁ : g.module.slots.size ≤ g₁.module.slots.size := hcode₁.grows.slots_le
  have hat₁ : Writable place g₁ ⟨at_.slot, at_.off + w₁⟩ :=
    ⟨show at_.slot < g₁.module.slots.size by have := hat.1; omega, hat.2⟩
  refine (hwork₂ g₁ c₁ R₁ .storeInto ⟨at_.slot, at_.off + w₁⟩ hready₁ (hspell₂.extends hm₁.ext)
    hfresh₁ ?_ fun _ => hat₁).mono ?_ ?_
  · intro r hr
    rw [hm₁.ext.scalars_eq] at hr
    exact hW₂ r hr
  rotate_left
  · intro f s hnone
    refine herr ?_ f s
    rw [Expr.width, hset₁.width, hnone]
  intro info₂ g₂ hset₂
  obtain ⟨w₂, c₂, R₂, hset₂⟩ := hset₂
  have hm₂ := hset₂.moves
  obtain ⟨-, -, hcode₂, -⟩ := hset₂.delivered
  have hready₂ := hready₁.next hfresh₁ hm₂ hset₂.room hcode₂
  have hs₂ := hready₂.standard
  have hscalars : g₂.heap.types.scalars = g.heap.types.scalars :=
    hm₂.ext.scalars_eq.trans hm₁.ext.scalars_eq
  have hreturns₂ := hs₂.integers_returns hset₂.type
  rw [hscalars] at hreturns₂
  rw [if_neg hreturns₂]
  refine Yields.bind_ok (sizeOf_eq hs₂ hset₂.type) ?_
  obtain ⟨t, h₃, c₃, hconcat, hhalved⟩ := halves_make hready hat hset₁ hset₂ hready₂ hW
  refine Yields.bind_ok (onHeap_eq_ok hconcat) ?_
  have hsub : (((at_.off + w₁ + w₂ : Nat) : Int) - (at_.off : Int)) = (w₁ + w₂ : Nat) := by omega
  rw [hsub]
  exact hnext t _ _ _ c₃ R₂ hhalved

/-- The halves in a new slot, loaded from there. -/
theorem LeavesSlot.load {e : Expr X} {m m₁ m₂ : Module} (hm₁ : m₁.slots = m.slots.push 0)
    (halloca : Emits m R m₁ R fun _ f f' => f' = f) (he : e.width = some w)
    (h : LeavesSlot place e m₁ R m₂ R' ⟨m.slots.size, 0⟩ w)
    (hroom : 0 < w → ∃ size, m₂.slots[m.slots.size]? = some size ∧ (0 + w : Nat) ≤ size) :
    ∃ m₃, Module.load m.slots.size 0 w m₂ = (Value.run R' w, m₃) ∧ m₃.slots = m₂.slots ∧
      LeavesRegisters place e m R m₃ (R' + w) R' := by
  have hsize : m.slots.size < m₁.slots.size := by
    rw [hm₁]
    simp
  have hcode : Emits m R m₂ R' fun p f f' => f.Keeps f' R (p.start m.slots.size) 0 0 ∧
      ∀ env, Env place p f env → Stands f'.words (p.start m.slots.size + 0) (e.eval env) := by
    refine (halloca.trans h).imp ?_
    intro p S f f' hcon hf hdone
    obtain ⟨f₁, -, rfl, hkeeps, hstands⟩ := hdone
    have hstart := hcon.start_mono (Nat.le_of_lt hsize)
    refine ⟨hkeeps.weaken (Nat.le_refl _) hstart fun j hj hlo _ => ?_, hstands⟩
    dsimp only at hlo
    omega
  by_cases hw : w = 0
  · subst hw
    refine ⟨m₂, rfl, rfl, hcode.imp ?_⟩
    intro p S f f' hcon hf hdone
    refine ⟨hdone.1, ?_⟩
    intro env _
    rw [List.eq_nil_of_length_eq_zero (e.length_eval env he)]
    exact Stands.nil _ _
  · obtain ⟨size, hsize', hle⟩ := hroom (by omega)
    obtain ⟨m₃, hload, hslots, hload'⟩ :=
      Module.load_emits hcode.opened hcode.count hsize' hle (by omega)
    refine ⟨m₃, hload, hslots, (hcode.trans hload').imp ?_⟩
    intro p S f f' hcon hf hdone
    obtain ⟨f₁, -, ⟨hkeeps, hstands⟩, ws, hlen, hat, hsets⟩ := hdone
    refine ⟨hkeeps.trans_same (hsets.keeps hcode.le _ _ _), ?_⟩
    intro env henv
    have heq := (hstands env henv).eq hat (by rw [hlen]; exact e.length_eval env he)
    rw [heq]
    exact hsets.stands

/-- A concatenation. -/
theorem concat_outcome {gen : SubGen} {n₁ n₂ : Node} {ns₁ ns₂ : List Node}
    (h : AtSite W node place g c R site (ns₁ ++ ns₂)) (hnodup : (ns₁ ++ ns₂).Nodup)
    (hn : g.heap.arena.Owns site.node [Tag.concatenate.word, 0, n₁, n₂])
    (hspell₁ : Expr.Spells g.heap node a n₁ ns₁) (hspell₂ : Expr.Spells g.heap node b n₂ ns₂)
    (hwork₁ : Works W node place gen a n₁ ns₁) (hwork₂ : Works W node place gen b n₂ ns₂)
    (hW : ∀ r ∈ (Expr.concat a b).types g.heap.types.scalars.integer, r ∈ W) :
    Outcome W place (.concat a b) (site.node :: (ns₁ ++ ns₂)) site.degree.inner site.storage g c R
      (body gen site .concatenate) g := by
  have hbody : body gen site .concatenate g = concatenation gen site g := rfl
  have hvolume : ∀ w, (Expr.concat a b).width = some w →
      (Expr.concat a b).volume = 2 + w + a.volume + b.volume := by
    intro w hw
    rw [Expr.volume, hw]
    rfl
  by_cases hd : site.degree = .value
  · -- The halves get a slot for themselves.
    have halloca := Module.alloca_emits h.ready.opened h.ready.count
    let m₁ : Module := { g.module with slots := g.module.slots.push 0 }
    have hm : Moves g c [] g c := .refl h.ready.standard.toInterned
    have hm₁ := hm.setModule m₁
    have hready₁ := h.ready.next (Fresh.nil g) hm₁ h.ready.room halloca
    have hat : Writable place { g with module := m₁ } ⟨g.module.slots.size, 0⟩ := by
      refine ⟨?_, fun x => Nat.ne_of_lt (h.ready.slot_lt x)⟩
      show g.module.slots.size < (g.module.slots.push 0).size
      simp
    refine Yields.congr (hbody.trans (concatenation_value gen hd g)) ?_
    refine concatAt_yields hready₁ h.fresh hnodup hn hspell₁ hspell₂ hwork₁ hwork₂ hW hat ?_
      fun hnone _ _ => hnone
    intro t ct g' w c' R' hhalved
    obtain ⟨new, hnew, hsum⟩ := hhalved.slots
    obtain ⟨m₃, hload, hslots, hcode⟩ := LeavesSlot.load rfl halloca hhalved.width hhalved.code (by
      intro hpos
      obtain ⟨size, hsize, hle⟩ := enlarge_room hat.1 hpos
      exact ⟨size, getElem?_of_append hnew hsize, hle⟩)
    unfold deliverHalves
    rw [if_pos hd]
    refine Yields.bind_ok (build_eq_ok hload) ?_
    have hm' : Moves g c (ns₁ ++ ns₂) g' c' := hhalved.moves.ofModule
    have hvol := hvolume w hhalved.width
    have hfew := hhalved.few
    refine h.finish (hm'.setModule m₃) hhalved.room hhalved.width hhalved.type hhalved.plain ?_
      hhalved.code.le (Nat.le_refl _) hcode ?_
    · omega
    · rw [enlarge_new] at hnew
      refine ⟨(w : Int) :: new, ?_, ?_⟩
      · show m₃.slots.toList = _
        rw [hslots, hnew, List.append_assoc]
        rfl
      · rw [if_pos hd, List.sum_cons]
        omega
  · refine Yields.congr (hbody.trans (congrFun (concatenation_slot gen hd) g)) ?_
    refine concatAt_yields h.ready h.fresh hnodup hn hspell₁ hspell₂ hwork₁ hwork₂ hW (h.slot hd)
      ?_ fun hnone _ _ => hnone
    intro t ct g' w c' R' hhalved
    obtain ⟨new, hnew, hsum⟩ := hhalved.slots
    have hvol := hvolume w hhalved.width
    have hfew := hhalved.few
    unfold deliverHalves
    rw [if_neg hd]
    refine h.finishPlaced hhalved.moves hhalved.room hhalved.width hhalved.type hhalved.plain ?_ hd
      hhalved.code ⟨new, hnew, ?_⟩
    · omega
    · omega

end TreeMachine.Compile
