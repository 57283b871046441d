import TreeMachine.Proofs.Compile.Site

/-! # Blocks

  All elements of a block but the last are generated for what they do, each in a slot of its
  own; the last one is the result.  Main statement: a block leaves the words of its last
  element.
-/

namespace TreeMachine.Compile

open Code (Module Value Program Frame Stands wrap)
open Code.Module (Emits)

variable {X : Type} {W : List Record} {node : X → Node} {place : X → Location}
  {g g' : Generator} {c c' : Catalogue} {R R' w : Nat} {site : Site}

/-- Generates the elements of a block that is not empty. -/
def toLast (gen : SubGen) : Node → List Node → Gen Info
  | n, [] => gen n .value nowhere
  | n, n' :: rest => do
    let _ ← gen n .ownSlot nowhere
    toLast gen n' rest

theorem statements_toLast (gen : SubGen) (n : Node) (rest : List Node) :
    (statements gen (n :: rest).dropLast >>= fun _ =>
      gen ((n :: rest).getLast (List.cons_ne_nil n rest)) .value nowhere) = toLast gen n rest := by
  induction rest generalizing n with
  | nil => rfl
  | cons n' rest ih =>
    rw [List.dropLast_cons_of_ne_nil (List.cons_ne_nil n' rest),
      List.getLast_cons (List.cons_ne_nil n' rest), statements, toLast, bind_assoc]
    exact congrArg (gen n .ownSlot nowhere >>= ·) (funext fun _ => ih n')

/-- All generators of the elements work. -/
def WorkAll (W : List Record) (node : X → Node) (place : X → Location) (gen : SubGen)
    (ns : List Node) (es : List (Expr X)) : Prop :=
  ∀ e ∈ es, ∀ n ns', (∀ k ∈ ns', k ∈ ns) → ns'.Nodup → Works W node place gen e n ns'

/-- The elements have been generated, and the value of the last one is in registers. -/
structure LastSettled (W : List Record) (place : X → Location) (es : List (Expr X))
    (ns : List Node) (g : Generator) (c : Catalogue) (R : Nat) (info : Info) (g' : Generator)
    (w : Nat) (c' : Catalogue) (R' : Nat) : Prop where
  width : Expr.widthLast es = some w
  moves : Moves g c ns g' c'
  room : g'.heap.arena.Room (c'.lacking W)
  type : c'.Integers g'.heap.types.scalars.integer w info.type
  plain : info.contract.validity = 0
  few : R' ≤ R + Expr.volumeAll es
  temporary : info.addressable = false
  code : ∃ r, R ≤ r ∧ r + w ≤ R' ∧ info.value = Value.run r w ∧
    LeavesRegisters place (.block es) g.module R g'.module R' r
  slots : ∃ new, g'.module.slots.toList = g.module.slots.toList ++ new ∧
    new.sum ≤ Expr.volumeAll es

/-- An element that is generated for what it does changes nothing that was there. -/
theorem InOwnSlot.keeps {e : Expr X} {m m' : Module} {info : Info}
    (h : InOwnSlot place e m R m' R' w info) :
    Emits m R m' R' fun p f f' => f.Keeps f' R (p.start m.slots.size) 0 0 := by
  refine h.code.imp ?_
  intro p S f f' hcon hf hdone
  refine hdone.1.weaken (Nat.le_refl _) (Nat.le_refl _) ?_
  intro j hj hlo _
  dsimp only at hlo
  omega

/-- The value of the only element. -/
theorem LastSettled.single {e : Expr X} {ns : List Node} {at_ : Location} {info : Info}
    (h : Settled W place e ns .value at_ g c R info g' w c' R') :
    LastSettled W place [e] ns g c R info g' w c' R' := by
  have hvolume : Expr.volumeAll [e] = e.volume := by
    rw [Expr.volumeAll, Expr.volumeAll, Nat.add_zero]
  obtain ⟨htemp, ⟨r, hlo, hhi, hvalue, hcode⟩, new, hnew, hsum⟩ := h.delivered
  refine ⟨?_, h.moves, h.room, h.type, h.plain, by rw [hvolume]; exact h.few, htemp,
    ⟨r, hlo, hhi, hvalue, hcode.imp ?_⟩, new, hnew, by rw [hvolume]; exact hsum⟩
  · rw [Expr.widthLast_cons]
    exact ⟨w, 0, h.width, by rw [Expr.widthLast], rfl⟩
  · intro p S f f' hcon hf hdone
    refine ⟨hdone.1, ?_⟩
    intro env henv
    rw [Expr.eval, Expr.evalLast]
    exact hdone.2 env henv

/-- An element that was generated for what it does, before the others. -/
theorem LastSettled.cons {e e' : Expr X} {es : List (Expr X)} {ns₁ ns₂ : List Node}
    {at_ : Location} {info₁ info : Info} {g₁ : Generator} {c₁ : Catalogue} {R₁ w₁ : Nat}
    (hready : Ready W node place g c R)
    (h₁ : Settled W place e ns₁ .ownSlot at_ g c R info₁ g₁ w₁ c₁ R₁)
    (h : LastSettled W place (e' :: es) ns₂ g₁ c₁ R₁ info g' w c' R') :
    LastSettled W place (e :: e' :: es) (ns₁ ++ ns₂) g c R info g' w c' R' := by
  have hown : InOwnSlot place e g.module R g₁.module R₁ w₁ info₁ := h₁.delivered
  have hcode₁ := hown.keeps
  have hle₁ := hcode₁.le
  have hvolume : Expr.volumeAll (e :: e' :: es) = e.volume + Expr.volumeAll (e' :: es) := by
    rw [Expr.volumeAll]
  have hfew₁ := h₁.few
  have hfew := h.few
  obtain ⟨r, hlo, hhi, hvalue, hcode⟩ := h.code
  obtain ⟨new₁, hnew₁, hsum₁⟩ := hown.slots
  obtain ⟨new, hnew, hsum⟩ := h.slots
  refine ⟨?_, ?_, h.room, h.type, h.plain, by omega, h.temporary,
    ⟨r, by omega, hhi, hvalue, (hcode₁.trans hcode).imp ?_⟩, new₁ ++ new, ?_, ?_⟩
  · rw [Expr.widthLast_cons]
    exact ⟨w₁, w, h₁.width, h.width, rfl⟩
  · exact h₁.moves.append h.moves
  · intro p S f f' hcon hf hdone
    obtain ⟨f₁, -, hkeeps₁, hkeeps, hstands⟩ := hdone
    have hcon₀ := hcon.below ((hcode₁.grows.trans hcode.grows).below S)
      (Nat.le_trans hcode₁.le hcode.le)
    have hlimit := hcon.start_mono hcode₁.grows.slots_le
    refine ⟨hkeeps₁.trans hkeeps hcode₁.le hlimit (by omega), ?_⟩
    intro env henv
    have hlast := hstands env (hready.env_keeps_zero hcon₀ henv hkeeps₁)
    rw [Expr.eval] at hlast ⊢
    rw [Expr.evalLast]
    exact hlast
  · rw [hnew, hnew₁, List.append_assoc]
  · rw [List.sum_append]
    omega

theorem toLast_yields {gen : SubGen} {e : Expr X} {es : List (Expr X)} {n : Node}
    {rest ns : List Node} (hready : Ready W node place g c R) (hfresh : Fresh g ns)
    (hnodup : ns.Nodup) (hspell : Expr.SpellsAll g.heap node (e :: es) (n :: rest) ns)
    (hwork : WorkAll W node place gen ns (e :: es))
    (hW : ∀ r ∈ Expr.typesAll g.heap.types.scalars.integer (e :: es), r ∈ W) :
    Yields (toLast gen n rest) g
      (fun info g' => ∃ w c' R', LastSettled W place (e :: es) ns g c R info g' w c' R')
      fun _ _ => Expr.widthLast (e :: es) = none := by
  induction es generalizing g c R e n rest ns with
  | nil =>
    obtain ⟨n', rest', ns₁, ns₂, helems, rfl, hspell₁, hrest, rfl⟩ := hspell
    cases helems
    subst hrest
    rw [List.append_nil] at *
    rw [Expr.typesAll, Expr.typesAll, List.append_nil] at hW
    refine (hwork e List.mem_cons_self n ns₁ (fun _ hk => hk) hnodup g c R .value nowhere hready
      hspell₁ hfresh hW fun h => by cases h).mono ?_ ?_
    · intro info g' hset
      obtain ⟨w, c', R', hset⟩ := hset
      exact ⟨w, c', R', .single hset⟩
    · intro f s hnone
      rw [Expr.widthLast, hnone]
  | cons e' es ih =>
    obtain ⟨n₀, rest₀, ns₁, ns₂, helems, rfl, hspell₁, hspell₂⟩ := hspell
    cases helems
    obtain ⟨n', rest', -, -, hrest, -⟩ := id hspell₂
    subst hrest
    rw [Expr.typesAll] at hW
    obtain ⟨hnodup₁, hnodup₂, -⟩ := List.nodup_append.1 hnodup
    rw [toLast]
    refine Yields.bind ((hwork e List.mem_cons_self n ns₁ (fun _ hk => List.mem_append_left _ hk)
      hnodup₁ g c R .ownSlot nowhere hready hspell₁ hfresh.left
      (fun r hr => hW r (List.mem_append_left _ hr)) fun h => by cases h).mono ?_ ?_)
    rotate_left
    · intro f s hnone
      rw [Expr.widthLast, hnone]
    intro info₁ g₁ hset₁
    obtain ⟨w₁, c₁, R₁, hset₁⟩ := hset₁
    have hm₁ := hset₁.moves
    have hown : InOwnSlot place e g.module R g₁.module R₁ w₁ info₁ := hset₁.delivered
    have hready₁ := hready.next hfresh.left hm₁ hset₁.room hown.keeps
    refine (ih hready₁ (hfresh.after hnodup hm₁) hnodup₂ (hspell₂.extends hm₁.ext)
      (fun e he n ns' hsub => hwork e (List.mem_cons_of_mem _ he) n ns'
        fun k hk => List.mem_append_right _ (hsub k hk)) ?_).mono ?_ ?_
    · intro r hr
      rw [hm₁.ext.scalars_eq] at hr
      exact hW r (List.mem_append_right _ hr)
    · intro info g' hset
      obtain ⟨w, c', R', hset⟩ := hset
      exact ⟨w, c', R', hset.cons hready hset₁⟩
    · intro f s hnone
      rw [Expr.widthLast, hset₁.width, hnone]

/-- A block. -/
theorem block_outcome {gen : SubGen} {es : List (Expr X)} {vec : Addr} {elems ns : List Node}
    (h : AtSite W node place g c R site ns) (hnodup : ns.Nodup)
    (hn : g.heap.arena.Owns site.node [Tag.block.word, 0, vec])
    (hspell : Expr.SpellsAll g.heap node es elems ns)
    (hvec : vec = 0 ∧ elems = [] ∨ ∃ capacity,
      g.heap.arena.Owns vec (UInt64.ofNat elems.length :: capacity :: elems))
    (hwork : WorkAll W node place gen ns es)
    (hW : ∀ r ∈ (Expr.block es).types g.heap.types.scalars.integer, r ∈ W) :
    Outcome W place (.block es) (site.node :: ns) site.degree.inner site.storage g c R
      (body gen site .block) g := by
  have hbody : body gen site .block g = block gen site g := rfl
  have helems : look (·.elements site.node) g = .ok elems g :=
    look_eq_ok (Heap.elements_eq h.ready.standard.sized hn hvec)
  have hvolume : ∀ w, Expr.widthLast es = some w →
      (Expr.block es).volume = 2 + w + Expr.volumeAll es := by
    intro w hw
    rw [Expr.volume, hw]
    rfl
  refine Yields.congr hbody ?_
  unfold block
  refine Yields.bind_ok helems ?_
  cases es with
  | nil =>
    obtain ⟨rfl, rfl⟩ := hspell
    have hs := h.ready.standard
    have hwidth : (Expr.block ([] : List (Expr X))).width = some 0 := by
      rw [Expr.width, Expr.widthLast]
    have hcode := Emits.refl h.ready.opened h.ready.count
    -- There is nothing to move, so it does not matter whether it is moved.
    have hsame : finishVoid site 0 g = finish site (Value.run R 0) 0 .unbounded true g :=
      (finish_zero hs rfl).trans (finish_zero hs rfl).symm
    refine Yields.congr hsame ?_
    refine h.finish (.refl hs.toInterned) h.ready.room hwidth rfl rfl (Nat.le_add_right _ _)
      (Nat.le_refl R) (Nat.le_refl R) (hcode.imp ?_) ⟨[], by rw [List.append_nil], ?_⟩
    · intro p S f f' hcon hf hdone
      subst hdone
      refine ⟨.refl _ _ _ _ _, ?_⟩
      intro env _
      rw [Expr.eval, Expr.evalLast]
      exact Stands.nil _ _
    · split <;> simp
  | cons e es =>
    obtain ⟨n, rest, ns₁, ns₂, rfl, -⟩ := id hspell
    have hlast : (n :: rest).getLast? = some ((n :: rest).getLast (List.cons_ne_nil n rest)) :=
      List.getLast?_eq_some_getLast (List.cons_ne_nil n rest)
    rw [Expr.types] at hW
    rw [hlast]
    dsimp only
    rw [← bind_assoc, statements_toLast]
    refine Yields.bind ((toLast_yields h.ready h.fresh hnodup hspell hwork hW).mono ?_
      fun _ _ hnone => by rw [Expr.width, hnone])
    intro info g' hset
    obtain ⟨w, c', R', hset⟩ := hset
    obtain ⟨r, hlo, hhi, hvalue, hcode⟩ := hset.code
    obtain ⟨new, hnew, hsum⟩ := hset.slots
    have hs' : g'.heap.Standard c' := h.ready.standard.extends hset.moves.ext
    have hvol := hvolume w hset.width
    have hfew := hset.few
    have hfinish : Outcome W place (.block (e :: es)) (site.node :: ns) site.degree.inner
        site.storage g c R (finish site (Value.run r w) info.type info.contract true) g' := by
      refine h.finish hset.moves hset.room (by rw [Expr.width]; exact hset.width) hset.type
        hset.plain (by omega) hlo hhi hcode ⟨new, hnew, ?_⟩
      split <;> omega
    refine Yields.bind_ok (doesNotReturn_eq g') ?_
    rw [if_pos (hs'.integers_returns hset.type)]
    refine Yields.bind_ok (sizeOf_eq hs' hset.type) ?_
    by_cases hw : 0 < w
    · rw [if_pos hw, hvalue]
      exact hfinish
    · have hzero : Value.run r w = Value.void := by rw [show w = 0 by omega]; rfl
      rw [if_neg hw, ← hzero]
      exact hfinish

end TreeMachine.Compile
