import TreeMachine.Proofs.Code.Stepping

/-! # Modules that grow into programs

  Construction adds code at the end of the current block, adds blocks and enlarges slots.  A
  finished program contains every stage of its construction, so what the code of a stage
  does can be said of all programs that contain it.

  Registers are counted modulo the word size.  The true count goes along with a stage, and
  a program that runs has a frame for all of it.
-/

namespace TreeMachine.Code

open Arena (writeFrom)

/-! ### Stages -/

/-- Code has been added to the block. -/
structure Block.Grows (b b' : Block) : Prop where
  code : b.code.toList <+: b'.code.toList
  phis : b'.phis = b.phis

theorem Block.Grows.refl (b : Block) : b.Grows b := ⟨List.prefix_rfl, rfl⟩

theorem Block.Grows.trans {b b' b'' : Block} (h : b.Grows b') (h' : b'.Grows b'') : b.Grows b'' :=
  ⟨h.code.trans h'.code, h'.phis.trans h.phis⟩

namespace Module

/-- Instructions can be added to the current block. -/
structure Open (m : Module) : Prop where
  here : ∃ b, m.blocks[m.cur]? = some b ∧ b.terminated = false
  closed : m.closed = false
  error : m.error = none
  returns : m.returns = none
  sizes : ∀ (k : Nat) (size : Int), m.slots[k]? = some size → 0 ≤ size

/-- The place where the next instruction goes. -/
def here (m : Module) : Point := ⟨m.cur, (m.blocks[m.cur]?.map (·.code.size)).getD 0⟩

theorem here_eq {m : Module} {b : Block} (hb : m.blocks[m.cur]? = some b) :
    m.here = ⟨m.cur, b.code.size⟩ := by
  rw [here, hb]
  rfl

/-- Every slot of `m` is still there in `m'`, and it is no smaller. -/
def SlotsLe (m m' : Module) : Prop :=
  ∀ (k : Nat) (size : Int), m.slots[k]? = some size →
    ∃ size', m'.slots[k]? = some size' ∧ size ≤ size'

namespace SlotsLe

variable {m m' m'' : Module}

theorem of_eq (heq : m'.slots = m.slots) : m.SlotsLe m' :=
  fun _ size hk => ⟨size, heq ▸ hk, Int.le_refl _⟩

theorem refl (m : Module) : m.SlotsLe m := of_eq rfl

theorem trans (h : m.SlotsLe m') (h' : m'.SlotsLe m'') : m.SlotsLe m'' := by
  intro k size hk
  obtain ⟨s₁, hs₁, hle⟩ := h k size hk
  obtain ⟨s₂, hs₂, hle'⟩ := h' k s₁ hs₁
  exact ⟨s₂, hs₂, Int.le_trans hle hle'⟩

theorem size_le (h : m.SlotsLe m') : m.slots.size ≤ m'.slots.size := by
  by_contra hlt
  have hk : m'.slots.size < m.slots.size := by omega
  obtain ⟨size', hsize', -⟩ := h m'.slots.size _ (Array.getElem?_eq_getElem hk)
  rw [Array.getElem?_eq_none (Nat.le_refl _)] at hsize'
  cases hsize'

end SlotsLe

/-- Every block of `m`, apart from those in `S`, and every slot is still there in `m'`. -/
structure Below (S : List Nat) (m m' : Module) : Prop where
  blocks : ∀ (i : Nat) (b : Block), i ∉ S → m.blocks[i]? = some b →
    ∃ b', m'.blocks[i]? = some b' ∧ b.Grows b'
  slots : ∀ (k : Nat) (size : Int), m.slots[k]? = some size →
    ∃ size', m'.slots[k]? = some size' ∧ size ≤ size'

theorem Below.trans {S : List Nat} {m m' m'' : Module} (h : Below S m m') (h' : Below S m' m'') :
    Below S m m'' where
  blocks i b hi hb := by
    obtain ⟨b₁, hb₁, hg⟩ := h.blocks i b hi hb
    obtain ⟨b₂, hb₂, hg'⟩ := h'.blocks i b₁ hi hb₁
    exact ⟨b₂, hb₂, hg.trans hg'⟩
  slots := SlotsLe.trans h.slots h'.slots

/-- Construction has gone on from `m` to `m'`: of the blocks of `m` only the current one has
    changed. -/
structure Grows (m m' : Module) : Prop where
  size_le : m.blocks.size ≤ m'.blocks.size
  other : ∀ i, i < m.blocks.size → i ≠ m.cur → m'.blocks[i]? = m.blocks[i]?
  here : ∀ b, m.blocks[m.cur]? = some b → ∃ b', m'.blocks[m.cur]? = some b' ∧ b.Grows b'
  moved : m'.cur = m.cur ∨ m.blocks.size ≤ m'.cur
  slots : ∀ (k : Nat) (size : Int), m.slots[k]? = some size →
    ∃ size', m'.slots[k]? = some size' ∧ size ≤ size'

namespace Grows

variable {m m' m'' : Module}

theorem below (h : m.Grows m') (S : List Nat) : Below S m m' where
  blocks i b _ hb := by
    by_cases hi : i = m.cur
    · subst hi
      exact h.here b hb
    · have hlt := (Array.getElem?_eq_some_iff.1 hb).1
      exact ⟨b, (h.other i hlt hi).trans hb, .refl b⟩
  slots := h.slots

theorem refl (m : Module) : m.Grows m :=
  ⟨Nat.le_refl _, fun _ _ _ => rfl, fun b hb => ⟨b, hb, .refl b⟩, Or.inl rfl,
    fun _ size hk => ⟨size, hk, Int.le_refl _⟩⟩

theorem trans (h : m.Grows m') (h' : m'.Grows m'') : m.Grows m'' where
  size_le := Nat.le_trans h.size_le h'.size_le
  other i hi hne := by
    have hle := h.size_le
    have hcur : i ≠ m'.cur := by
      rcases h.moved with heq | hnew
      · rw [heq]
        exact hne
      · omega
    rw [h'.other i (by omega) hcur, h.other i hi hne]
  here b hb := by
    obtain ⟨b', hb', hg⟩ := h.here b hb
    obtain ⟨b'', hb'', hg'⟩ := (h'.below []).blocks _ b' (List.not_mem_nil) hb'
    exact ⟨b'', hb'', hg.trans hg'⟩
  moved := by
    have hle := h.size_le
    rcases h'.moved with heq | hnew
    · rw [heq]
      exact h.moved
    · exact Or.inr (by omega)
  slots := SlotsLe.trans h.slots h'.slots

theorem slots_le (h : m.Grows m') : m.slots.size ≤ m'.slots.size := SlotsLe.size_le h.slots

end Grows

end Module

/-! ### Programs that contain a stage -/

/-- The program contains the code and the slots of the module; the phis of the blocks in `S`
    are still to come. -/
structure Contains (p : Program) (S : List Nat) (m : Module) (R : Nat) : Prop where
  blocks : ∀ (i : Nat) (b : Block), i ∉ S → m.blocks[i]? = some b →
    ∃ b', p.blocks[i]? = some b' ∧ b.Grows b'
  registers : R ≤ p.registers.toNat
  slots : ∀ (k : Nat) (size : Int), m.slots[k]? = some size →
    p.slotOffsets[k]? = some (p.start k : Int) ∧ p.start k + size.toNat ≤ p.start (k + 1)
  mono : ∀ k, p.start k ≤ p.start (k + 1)
  top : ∀ k, p.start k ≤ p.frameWords.toNat

namespace Contains

variable {p : Program} {S : List Nat} {m m' : Module} {R R' : Nat}

theorem below (h : Contains p S m' R') (hb : Module.Below S m m') (hR : R ≤ R') :
    Contains p S m R where
  blocks i b hi hmb := by
    obtain ⟨b₁, hb₁, hg⟩ := hb.blocks i b hi hmb
    obtain ⟨b₂, hb₂, hg'⟩ := h.blocks i b₁ hi hb₁
    exact ⟨b₂, hb₂, hg.trans hg'⟩
  registers := Nat.le_trans hR h.registers
  slots k size hk := by
    obtain ⟨size', hk', hle⟩ := hb.slots k size hk
    obtain ⟨hoff, hend⟩ := h.slots k size' hk'
    have hnat := Int.toNat_le_toNat hle
    exact ⟨hoff, by omega⟩
  mono := h.mono
  top := h.top

/-- More phis may be missing. -/
theorem weaken (h : Contains p S m R) {S' : List Nat} (hS : ∀ i ∈ S, i ∈ S') :
    Contains p S' m R :=
  ⟨fun i b hi => h.blocks i b fun hmem => hi (hS i hmem), h.registers, h.slots, h.mono, h.top⟩

theorem start_mono (h : Contains p S m R) {k k' : Nat} (hle : k ≤ k') : p.start k ≤ p.start k' := by
  induction hle with
  | refl => exact Nat.le_refl _
  | step _ ih => exact Nat.le_trans ih (h.mono _)

/-- An instruction of the module is in the program. -/
theorem instr (h : Contains p S m R) {i j : Nat} {b : Block} {x : Instr} (hi : i ∉ S)
    (hb : m.blocks[i]? = some b) (hx : b.code[j]? = some x) : p.instr? ⟨i, j⟩ = some x := by
  obtain ⟨b', hb', hg⟩ := h.blocks i b hi hb
  have hx' : b'.code[j]? = some x := by
    rw [← Array.getElem?_toList] at hx ⊢
    obtain ⟨rest, hrest⟩ := hg.code
    have hlt := (List.getElem?_eq_some_iff.1 hx).1
    rw [← hrest, List.getElem?_append_left hlt]
    exact hx
  exact Option.bind_eq_some_iff.2 ⟨b', hb', hx'⟩

/-- The registers that were handed out are there. -/
theorem regs_le (h : Contains p S m R) {f : Frame} (hf : f.Fits p) : R ≤ f.regs.size := by
  rw [hf.regs]
  exact h.registers

/-- The room of a slot. -/
theorem slot_room (h : Contains p S m R) {k n : Nat} {size : Int} (hk : m.slots[k]? = some size)
    (hn : (n : Int) ≤ size) : p.start k + n ≤ p.start (k + 1) := by
  have hend := (h.slots k size hk).2
  omega

end Contains

/-! ### What the code of a stage does -/

/-- The registers below `R` and the words below `limit` are as before, apart from the `n`
    words from `lo` on. -/
structure Frame.Keeps (f f' : Frame) (R limit lo n : Nat) : Prop where
  regs : ∀ j, j < R → f'.regs[j]? = f.regs[j]?
  words : ∀ j, j < limit → ¬ (lo ≤ j ∧ j < lo + n) → f'.words[j]? = f.words[j]?

namespace Frame.Keeps

variable {f f' f'' : Frame} {R R' limit limit' lo n lo' n' : Nat}

theorem refl (f : Frame) (R limit lo n : Nat) : f.Keeps f R limit lo n :=
  ⟨fun _ _ => rfl, fun _ _ _ => rfl⟩

/-- Two steps of which the second may change what lies outside the first one's limits. -/
theorem trans (h : f.Keeps f' R limit lo n) (h' : f'.Keeps f'' R' limit' lo' n') (hR : R ≤ R')
    (hlimit : limit ≤ limit') (hn : ∀ j, j < limit → lo' ≤ j → j < lo' + n' → lo ≤ j ∧ j < lo + n) :
    f.Keeps f'' R limit lo n where
  regs j hj := by rw [h'.regs j (by omega), h.regs j hj]
  words j hj hout := by
    have hout' : ¬ (lo' ≤ j ∧ j < lo' + n') := fun hin => hout (hn j hj hin.1 hin.2)
    rw [h'.words j (by omega) hout', h.words j hj hout]

/-- Less is kept than is known. -/
theorem weaken (h : f.Keeps f' R' limit' lo' n') (hR : R ≤ R') (hlimit : limit ≤ limit')
    (hn : ∀ j, j < limit → lo' ≤ j → j < lo' + n' → lo ≤ j ∧ j < lo + n) :
    f.Keeps f' R limit lo n :=
  (Frame.Keeps.refl f R limit lo n).trans h hR hlimit hn

/-- Two steps that keep the same. -/
theorem trans_same (h : f.Keeps f' R limit lo n) (h' : f'.Keeps f'' R limit lo n) :
    f.Keeps f'' R limit lo n :=
  h.trans h' (Nat.le_refl _) (Nat.le_refl _) fun _ _ hlo hhi => ⟨hlo, hhi⟩

theorem stands_words (h : f.Keeps f' R limit lo n) {i : Nat} {ws : List UInt64}
    (hs : Stands f.words i ws) (hi : i + ws.length ≤ limit)
    (hout : i + ws.length ≤ lo ∨ lo + n ≤ i ∨ n = 0) : Stands f'.words i ws :=
  hs.congr fun k hk hk' => h.words k (by omega) (by omega)

end Frame.Keeps

/-- The registers from `r` on have become `ws`, and nothing else has changed. -/
structure Frame.Sets (f f' : Frame) (r : Nat) (ws : List UInt64) : Prop where
  words : f'.words = f.words
  others : ∀ j, ¬ (r ≤ j ∧ j < r + ws.length) → f'.regs[j]? = f.regs[j]?
  stands : Stands f'.regs r ws

/-- The words of the frame from `i` on have become `ws`, and nothing else has changed. -/
structure Frame.Stores (f f' : Frame) (i : Nat) (ws : List UInt64) : Prop where
  regs : f'.regs = f.regs
  others : ∀ j, ¬ (i ≤ j ∧ j < i + ws.length) → f'.words[j]? = f.words[j]?
  stands : Stands f'.words i ws

theorem Frame.sets_writeFrom {f : Frame} {r : Nat} {ws : List UInt64}
    (hr : r + ws.length ≤ f.regs.size) :
    f.Sets { f with regs := writeFrom f.regs r ws } r ws :=
  ⟨rfl, fun _ hj => getElem?_writeFrom_of_not hr hj, Stands.write hr⟩

theorem Frame.stores_writeFrom {f : Frame} {i : Nat} {ws : List UInt64}
    (hi : i + ws.length ≤ f.words.size) :
    f.Stores { f with words := writeFrom f.words i ws } i ws :=
  ⟨rfl, fun _ hj => getElem?_writeFrom_of_not hi hj, Stands.write hi⟩

theorem Frame.Sets.keeps {f f' : Frame} {r R : Nat} {ws : List UInt64} (h : f.Sets f' r ws)
    (hR : R ≤ r) (limit lo n : Nat) : f.Keeps f' R limit lo n :=
  ⟨fun j hj => h.others j (by omega), fun _ _ _ => by rw [h.words]⟩

theorem Frame.Stores.keeps {f f' : Frame} {i : Nat} {ws : List UInt64} (h : f.Stores f' i ws)
    (R limit : Nat) : f.Keeps f' R limit i ws.length :=
  ⟨fun _ _ => by rw [h.regs], fun j _ hj => h.others j hj⟩

namespace Module

/-- The blocks that wait for their phis are blocks of `m` other than the current one. -/
def Waiting (m : Module) (S : List Nat) : Prop := ∀ i ∈ S, i < m.blocks.size ∧ i ≠ m.cur

theorem Waiting.grows {m m' : Module} {S : List Nat} (h : m.Waiting S) (hg : m.Grows m') :
    m'.Waiting S := by
  intro i hi
  have hle := hg.size_le
  obtain ⟨hlt, hne⟩ := h i hi
  refine ⟨by omega, ?_⟩
  rcases hg.moved with heq | hnew
  · rw [heq]
    exact hne
  · omega

theorem Waiting.cur {m : Module} {S : List Nat} (h : m.Waiting S) : m.cur ∉ S :=
  fun hmem => (h _ hmem).2 rfl

/-- Construction goes on from `m`, which has handed out `R` registers, to `m'`, and in every
    program that contains `m'` the code between them does what `P` says. -/
structure Emits (m : Module) (R : Nat) (m' : Module) (R' : Nat)
    (P : Program → Frame → Frame → Prop) : Prop where
  grows : m.Grows m'
  opened : m'.Open
  count : m'.registers = wrap R'
  le : R ≤ R'
  does : ∀ {σ : Type} (host : Host σ) (p : Program) (S : List Nat), m.Waiting S →
    Contains p S m' R' → ∀ (f : Frame) (s : σ), f.Fits p → ∃ f', f'.Fits p ∧
      Leads host p (m'.blocks.size - m.blocks.size) ⟨m.here, f, s⟩ ⟨m'.here, f', s⟩ ∧ P p f f'

namespace Emits

variable {m m' m'' : Module} {R R' R'' : Nat} {P Q : Program → Frame → Frame → Prop}

theorem refl (ho : m.Open) (hc : m.registers = wrap R) : Emits m R m R fun _ f f' => f' = f where
  grows := .refl m
  opened := ho
  count := hc
  le := Nat.le_refl R
  does host p S hw hcon f s hf := ⟨f, hf, by rw [Nat.sub_self]; exact .refl _, rfl⟩

theorem trans (h : Emits m R m' R' P) (h' : Emits m' R' m'' R'' Q) :
    Emits m R m'' R'' fun p f f'' => ∃ f', f'.Fits p ∧ P p f f' ∧ Q p f' f'' where
  grows := h.grows.trans h'.grows
  opened := h'.opened
  count := h'.count
  le := Nat.le_trans h.le h'.le
  does host p S hw hcon f s hf := by
    have hcon' := hcon.below (h'.grows.below S) h'.le
    obtain ⟨f₁, hf₁, hlead, hP⟩ := h.does host p S hw hcon' f s hf
    obtain ⟨f₂, hf₂, hlead', hQ⟩ := h'.does host p S (hw.grows h.grows) hcon f₁ s hf₁
    have hle := h.grows.size_le
    have hle' := h'.grows.size_le
    exact ⟨f₂, hf₂, (hlead.trans hlead').mono (by omega), f₁, hf₁, hP, hQ⟩

theorem imp (h : Emits m R m' R' P)
    (hPQ : ∀ p S f f', Contains p S m' R' → f.Fits p → P p f f' → Q p f f') :
    Emits m R m' R' Q where
  grows := h.grows
  opened := h.opened
  count := h.count
  le := h.le
  does host p S hw hcon f s hf := by
    obtain ⟨f', hf', hlead, hP⟩ := h.does host p S hw hcon f s hf
    exact ⟨f', hf', hlead, hPQ p S f f' hcon hf hP⟩

end Emits

end Module

end TreeMachine.Code
