import TreeMachine.Proofs.Code.Underway

/-! # Calls of the builder

  A module is built by calls, in any order.  Slots grow while there is already code that uses
  them, so code that was in bounds when it was added stays in bounds.  Main statement: in a
  module built by calls that name slots that are there, at offsets that are not negative, and
  whose sizes can be counted, every direct access lies inside its slot, and the registers that
  it uses have been handed out.
-/

namespace TreeMachine.Code

/-! ### Calls -/

/-- A call that adds to a module. -/
inductive Call where
  | const (ws : List UInt64)
  | binary (code : UInt8) (a b : Value)
  | newBlock (name : String)
  | setInsertPoint (block : Int)
  | branch (target : Int)
  | branchIf (cond : Value) (target alt : Int)
  | phi (a : Value) (fromA : Int) (b : Value) (fromB : Int)
  | alloca
  | reserve (slot words : Int)
  | store (slot off : Int) (v : Value)
  | load (slot off words : Int)
  | address (slot off : Int)
  | storeIndirect (addr v : Value)
  | loadIndirect (addr : Value) (words : Int)
  | call (host : String) (args : List Value) (results : Int)
  | ret (v : Value)
deriving DecidableEq, Repr

namespace Call

/-- What a call does.  A call that makes no value answers the void one. -/
def perform : Call → Build Value
  | const ws => Module.const ws
  | binary code a b => Module.binaryOfCode code a b
  | newBlock name => do
    let _ ← Module.newBlock name
    return .void
  | setInsertPoint block => do
    Module.setInsertPoint block
    return .void
  | branch target => do
    Module.branch target
    return .void
  | branchIf cond target alt => do
    Module.branchIf cond target alt
    return .void
  | phi a fromA b fromB => Module.phi a fromA b fromB
  | alloca => do
    let _ ← Module.alloca
    return .void
  | reserve slot words => do
    Module.reserve slot words
    return .void
  | store slot off v => do
    Module.store slot off v
    return .void
  | load slot off words => Module.load slot off words
  | address slot off => Module.address slot off
  | storeIndirect addr v => do
    Module.storeIndirect addr v
    return .void
  | loadIndirect addr words => Module.loadIndirect addr words
  | call host args results => Module.call host args results
  | ret v => do
    Module.ret v
    return .void

/-- The width of the value that a call makes. -/
def words : Call → Int
  | const ws => ws.length
  | binary .. | address .. => 1
  | phi a _ _ _ => a.words
  | load _ _ words | loadIndirect _ words => words
  | call _ _ results => results
  | _ => 0

/-- The size that a slot must have for the access that a call makes. -/
def reach : Call → Int
  | store _ off v => off + v.words
  | load _ off words => off + words
  | _ => 0

end Call

namespace Module

/-- The slot is there. -/
def HasSlot (m : Module) (slot : Int) : Prop := 0 ≤ slot ∧ slot < m.slots.size

/-- The value is void, or its registers have been handed out. -/
def HasValue (m : Module) (v : Value) : Prop :=
  v.isVoid = true ∨ 0 ≤ v.reg ∧ 0 < v.words ∧ v.reg + v.words ≤ m.registers

instance (m : Module) (slot : Int) : Decidable (m.HasSlot slot) :=
  inferInstanceAs (Decidable (_ ∧ _))

instance (m : Module) (v : Value) : Decidable (m.HasValue v) :=
  inferInstanceAs (Decidable (_ ∨ _))

end Module

namespace Call

/-- The slots that the call names are there, its offset is not negative, and the value that
    it stores is one that has been made. -/
def InRange (c : Call) (m : Module) : Prop :=
  match c with
  | reserve slot _ => m.HasSlot slot
  | store slot off v => m.HasSlot slot ∧ 0 ≤ off ∧ m.HasValue v
  | load slot off _ | address slot off => m.HasSlot slot ∧ 0 ≤ off
  | _ => True

/-- No width is negative, and the registers and the words that the call asks for can be
    counted. -/
structure Counts (c : Call) (m : Module) : Prop where
  width : 0 ≤ c.words
  registers : m.registers + c.words < 2 ^ 63
  reach : c.reach < 2 ^ 63

instance (c : Call) (m : Module) : Decidable (c.InRange m) :=
  match c with
  | reserve slot _ => inferInstanceAs (Decidable (m.HasSlot slot))
  | store slot off v => inferInstanceAs (Decidable (m.HasSlot slot ∧ 0 ≤ off ∧ m.HasValue v))
  | load slot off _ | address slot off => inferInstanceAs (Decidable (m.HasSlot slot ∧ 0 ≤ off))
  | const _ | binary .. | newBlock _ | setInsertPoint _ | branch _ | branchIf .. | phi .. | alloca
  | storeIndirect .. | loadIndirect .. | call .. | ret _ => inferInstanceAs (Decidable True)

instance (c : Call) (m : Module) : Decidable (c.Counts m) :=
  decidable_of_iff (0 ≤ c.words ∧ m.registers + c.words < 2 ^ 63 ∧ c.reach < 2 ^ 63)
    ⟨fun h => ⟨h.1, h.2.1, h.2.2⟩, fun h => ⟨h.width, h.registers, h.reach⟩⟩

/-- The call is in range, and what it asks for can be counted. -/
def Sized (c : Call) (m : Module) : Prop := c.InRange m ∧ c.Counts m

instance (c : Call) (m : Module) : Decidable (c.Sized m) := inferInstanceAs (Decidable (_ ∧ _))

end Call

namespace Module

/-- The module after more calls. -/
def after (m : Module) : List Call → Module
  | [] => m
  | c :: cs => after (c.perform m).2 cs

/-- Each of the calls is as `C` says where it is made. -/
def Allows (C : Call → Module → Prop) (m : Module) : List Call → Prop
  | [] => True
  | c :: cs => C c m ∧ Allows C (c.perform m).2 cs

instance decidableAllows (C : Call → Module → Prop) [∀ c m, Decidable (C c m)] (m : Module) :
    (cs : List Call) → Decidable (m.Allows C cs)
  | [] => inferInstanceAs (Decidable True)
  | c :: cs =>
    have := decidableAllows C (c.perform m).2 cs
    inferInstanceAs (Decidable (C c m ∧ Allows C (c.perform m).2 cs))

/-- The value has `n` registers, which have been handed out. -/
def Made (m : Module) (v : Value) (n : Nat) : Prop :=
  ∃ r : Nat, v = Value.run r n ∧ (r + n : Nat) ≤ m.registers

/-- The slot has `n` words from `off` on. -/
def Room (m : Module) (slot off n : Nat) : Prop :=
  ∃ size : Int, m.slots[slot]? = some size ∧ (off + n : Nat) ≤ size

end Module

/-! ### Code that stays in bounds -/

/-- An instruction that uses slots uses words that are there, and registers that have been
    handed out. -/
def Instr.Settled (m : Module) : Instr → Prop
  | .load dst slot off => ∃ k o n : Nat, slot = k ∧ off = o ∧ 0 < n ∧ m.Made dst n ∧ m.Room k o n
  | .store slot off src => ∃ k o n : Nat, slot = k ∧ off = o ∧ m.Made src n ∧ m.Room k o n
  | .address dst slot off => ∃ k o : Nat, slot = k ∧ off = o ∧ m.Made dst 1 ∧ m.Room k 0 0
  | .loadIndirect dst _ => ∃ n, 0 < n ∧ m.Made dst n
  | _ => True

namespace Module

/-- Registers and slots can be counted, and all instructions are settled. -/
structure Settled (m : Module) : Prop where
  registers : 0 ≤ m.registers ∧ m.registers < 2 ^ 63
  sizes : ∀ (k : Nat) (size : Int), m.slots[k]? = some size → 0 ≤ size
  instrs : ∀ (i : Nat) (b : Block), m.blocks[i]? = some b → ∀ x ∈ b.code.toList, x.Settled m

theorem SlotsLe.room {m m' : Module} (h : m.SlotsLe m') {k o n : Nat} (hk : m.Room k o n) :
    m'.Room k o n := by
  obtain ⟨size, hsize, hle⟩ := hk
  obtain ⟨size', hsize', hle'⟩ := h k size hsize
  exact ⟨size', hsize', Int.le_trans hle hle'⟩

/-- There are more registers and larger slots. -/
structure Enlarges (m m' : Module) : Prop where
  registers : m.registers ≤ m'.registers
  slots : ∀ (k : Nat) (size : Int), m.slots[k]? = some size →
    ∃ size', m'.slots[k]? = some size' ∧ size ≤ size'

namespace Enlarges

variable {m m' m'' : Module}

theorem refl (m : Module) : m.Enlarges m :=
  ⟨Int.le_refl _, fun _ size hk => ⟨size, hk, Int.le_refl _⟩⟩

theorem trans (h : m.Enlarges m') (h' : m'.Enlarges m'') : m.Enlarges m'' where
  registers := Int.le_trans h.registers h'.registers
  slots := SlotsLe.trans h.slots h'.slots

theorem made (h : m.Enlarges m') {v : Value} {n : Nat} (hv : m.Made v n) : m'.Made v n := by
  obtain ⟨r, hv, hle⟩ := hv
  exact ⟨r, hv, Int.le_trans hle h.registers⟩

theorem room (h : m.Enlarges m') {k o n : Nat} (hk : m.Room k o n) : m'.Room k o n :=
  SlotsLe.room h.slots hk

theorem hasSlot (h : m.Enlarges m') {slot : Int} (hk : m.HasSlot slot) : m'.HasSlot slot := by
  have hle := SlotsLe.size_le h.slots
  obtain ⟨hlo, hhi⟩ := hk
  exact ⟨hlo, by omega⟩

/-- Instructions stay settled. -/
theorem settled (h : m.Enlarges m') {x : Instr} (hx : x.Settled m) : x.Settled m' := by
  cases x with
  | load dst slot off =>
    obtain ⟨k, o, n, hk, ho, hpos, hdst, hroom⟩ := hx
    exact ⟨k, o, n, hk, ho, hpos, h.made hdst, h.room hroom⟩
  | store slot off src =>
    obtain ⟨k, o, n, hk, ho, hsrc, hroom⟩ := hx
    exact ⟨k, o, n, hk, ho, h.made hsrc, h.room hroom⟩
  | address dst slot off =>
    obtain ⟨k, o, hk, ho, hdst, hroom⟩ := hx
    exact ⟨k, o, hk, ho, h.made hdst, h.room hroom⟩
  | loadIndirect dst addr =>
    obtain ⟨n, hpos, hdst⟩ := hx
    exact ⟨n, hpos, h.made hdst⟩
  | _ => trivial

end Enlarges

/-! ### Single steps -/

/-- The step leads from `m` to a larger settled module, and `Q` holds of its answer. -/
structure Goes {α : Type} (m : Module) (x : Build α) (Q : α → Module → Prop) : Prop where
  settled : (x m).2.Settled
  grows : m.Enlarges (x m).2
  answers : Q (x m).1 (x m).2

section Steps

variable {α β : Type} {m m' : Module} {x : Build α} {f : α → Build β} {a : α} {slot off words : Int}

theorem Goes.pure {Q : α → Module → Prop} (h : m.Settled) (hq : Q a m) :
    m.Goes (Pure.pure a) Q :=
  ⟨h, .refl m, hq⟩

theorem Goes.bind {R : α → Module → Prop} {Q : β → Module → Prop} (hx : m.Goes x R)
    (hf : ∀ a m', m'.Settled → m.Enlarges m' → R a m' → m'.Goes (f a) Q) :
    m.Goes (x >>= f) Q := by
  have hrest := hf _ _ hx.settled hx.grows hx.answers
  exact ⟨hrest.settled, hx.grows.trans hrest.grows, hrest.answers⟩

theorem Goes.mono {Q Q' : α → Module → Prop} (hx : m.Goes x Q)
    (hq : ∀ a m', m.Enlarges m' → Q a m' → Q' a m') : m.Goes x Q' :=
  ⟨hx.settled, hx.grows, hq _ _ hx.grows hx.answers⟩

/-- Changing anything but the code, and that so that registers and slots grow. -/
theorem Settled.enlarge (h : m.Settled) (hg : m.Enlarges m') (hlt : m'.registers < 2 ^ 63)
    (hsizes : ∀ (k : Nat) (size : Int), m'.slots[k]? = some size → 0 ≤ size)
    (hcode : ∀ (i : Nat) (b' : Block), m'.blocks[i]? = some b' → ∀ x ∈ b'.code.toList,
      ∃ (j : Nat) (b : Block), m.blocks[j]? = some b ∧ x ∈ b.code.toList) : m'.Settled where
  registers := ⟨Int.le_trans h.registers.1 hg.registers, hlt⟩
  sizes := hsizes
  instrs i b' hb' x hx := by
    obtain ⟨j, b, hb, hx⟩ := hcode i b' hb' x hx
    exact hg.settled (h.instrs j b hb x hx)

/-- A step that leaves registers, slots and code as they are. -/
theorem Settled.leaves (h : m.Settled) (hregs : m'.registers = m.registers)
    (hslots : m'.slots = m.slots) (hcode : ∀ (i : Nat) (b' : Block), m'.blocks[i]? = some b' →
      ∀ x ∈ b'.code.toList, ∃ (j : Nat) (b : Block), m.blocks[j]? = some b ∧ x ∈ b.code.toList) :
    m'.Settled ∧ m.Enlarges m' := by
  have hg : m.Enlarges m' := by
    constructor
    · rw [hregs]
    · rw [hslots]
      exact (Enlarges.refl m).slots
  refine ⟨h.enlarge hg ?_ ?_ hcode, hg⟩
  · rw [hregs]
    exact h.registers.2
  · rw [hslots]
    exact h.sizes

theorem fail_goes (h : m.Settled) (e : BuildError) :
    m.Goes (fail e) fun _ m' => m'.registers = m.registers ∧ m'.slots = m.slots := by
  have hstep : ((fail e m).2).Settled ∧ m.Enlarges (fail e m).2 :=
    h.leaves rfl rfl fun i b hb x hx => ⟨i, b, hb, hx⟩
  exact ⟨hstep.1, hstep.2, rfl, rfl⟩

theorem fresh_goes (h : m.Settled) (hw : 0 ≤ words) (hlt : m.registers + words < 2 ^ 63) :
    m.Goes (fresh words) fun v m' => m'.Made v words.toNat ∧ m'.slots = m.slots := by
  obtain ⟨n, rfl⟩ := Int.eq_ofNat_of_zero_le hw
  -- The count does not wrap around, so the new registers come after all others.
  obtain ⟨R, hR⟩ := Int.eq_ofNat_of_zero_le h.registers.1
  have hcount : m.registers = wrap R := by rw [hR, wrap_of_lt (by omega)]
  obtain ⟨registers, hregs, hfresh⟩ := fresh_eq hcount n
  rw [wrap_of_lt (by omega)] at hregs
  have hg : m.Enlarges { m with registers } := by
    refine ⟨?_, (Enlarges.refl m).slots⟩
    show m.registers ≤ registers
    omega
  constructor
  · rw [hfresh]
    refine h.enlarge hg ?_ h.sizes fun i b hb x hx => ⟨i, b, hb, hx⟩
    show registers < 2 ^ 63
    omega
  · rw [hfresh]
    exact hg
  · rw [hfresh]
    refine ⟨⟨R, rfl, ?_⟩, rfl⟩
    show _ ≤ registers
    rw [hregs]
    rfl

/-- An instruction that is settled may be added, to a block that goes on. -/
theorem emit_goes (h : m.Settled) {i : Instr} (hi : i.Settled m) :
    m.Goes (emit i) fun _ _ => True := by
  by_cases hclosed : m.closed = true
  · have hemit : emit i m = fail .emitAfterFinalize m := by
      show (if m.closed = true then fail .emitAfterFinalize else _ : Build Unit) m = _
      rw [if_pos hclosed]
    have hfail := fail_goes h .emitAfterFinalize
    exact ⟨hemit ▸ hfail.settled, hemit ▸ hfail.grows, trivial⟩
  · have hemit : emit i m = ((), m.add i) := by
      show (if m.closed = true then fail .emitAfterFinalize else _ : Build Unit) m = _
      rw [if_neg hclosed]
      rfl
    have hg : m.Enlarges (m.add i) := ⟨Int.le_refl _, (Enlarges.refl m).slots⟩
    refine ⟨?_, hemit ▸ hg, trivial⟩
    rw [hemit]
    refine ⟨h.registers, h.sizes, ?_⟩
    intro j b hb x hx
    rw [add, Array.getElem?_modify] at hb
    split at hb
    · obtain ⟨b₀, hb₀, rfl⟩ := Option.map_eq_some_iff.1 hb
      unfold pushInstr at hx
      -- A block that has ended takes no more instructions.
      split at hx
      · exact hg.settled (h.instrs j b₀ hb₀ x hx)
      · rw [Array.toList_push, List.mem_append, List.mem_singleton] at hx
        rcases hx with hx | rfl
        · exact hg.settled (h.instrs j b₀ hb₀ x hx)
        · exact hg.settled hi
    · exact hg.settled (h.instrs j b hb x hx)

theorem reserve_goes (h : m.Settled) (hk : m.HasSlot slot) :
    m.Goes (reserve slot words) fun _ m' =>
      ∀ o n : Nat, (o + n : Nat) ≤ words ∨ (o = 0 ∧ n = 0) → m'.Room slot.toNat o n := by
  have hreserve : reserve slot words m
      = ((), { m with slots := m.slots.modify slot.toNat (max · words) }) := by
    show (if 0 ≤ slot ∧ slot < m.slots.size then _
      else fail (.slotOutOfRange slot) : Build Unit) m = _
    rw [if_pos (show 0 ≤ slot ∧ slot < m.slots.size from hk)]
    rfl
  -- Each slot of the new module is an old one, with as many words or more.
  have hget : ∀ (k : Nat) (size' : Int),
      (m.slots.modify slot.toNat (max · words))[k]? = some size' →
      ∃ size, m.slots[k]? = some size ∧ size ≤ size' := by
    intro k size' hsize
    rw [Array.getElem?_modify] at hsize
    split at hsize
    · obtain ⟨size, hold, rfl⟩ := Option.map_eq_some_iff.1 hsize
      exact ⟨size, hold, Int.le_max_left _ _⟩
    · exact ⟨size', hsize, Int.le_refl _⟩
  have hg : m.Enlarges { m with slots := m.slots.modify slot.toNat (max · words) } := by
    refine ⟨Int.le_refl _, ?_⟩
    intro k size hsize
    show ∃ size', (m.slots.modify slot.toNat (max · words))[k]? = some size' ∧ _
    rw [Array.getElem?_modify]
    split
    · rw [hsize]
      exact ⟨_, rfl, Int.le_max_left _ _⟩
    · exact ⟨size, hsize, Int.le_refl _⟩
  refine ⟨?_, hreserve ▸ hg, ?_⟩
  · rw [hreserve]
    refine h.enlarge hg h.registers.2 ?_ fun i b hb x hx => ⟨i, b, hb, hx⟩
    intro k size' hsize'
    obtain ⟨size, hsize, hle⟩ := hget k size' hsize'
    exact Int.le_trans (h.sizes k size hsize) hle
  · rw [hreserve]
    intro o n hn
    obtain ⟨hlo, hhi⟩ := hk
    have hlt : slot.toNat < m.slots.size := by omega
    have hsize := Array.getElem?_eq_getElem hlt
    -- The slot has the words that were asked for, or had more.
    refine ⟨max m.slots[slot.toNat] words, ?_, ?_⟩
    · show (m.slots.modify slot.toNat (max · words))[slot.toNat]? = _
      rw [Array.getElem?_modify, if_pos rfl, hsize]
      rfl
    · have hnonneg := h.sizes _ _ hsize
      rcases hn with hn | ⟨rfl, rfl⟩ <;> omega

end Steps

/-! ### What calls keep -/

section Calls

variable {m : Module} {slot off words : Int}

/-- A check that only remembers a mistake. -/
theorem check_goes {β : Type} (h : m.Settled) {p : Prop} [Decidable p] (e : BuildError)
    {k : PUnit → Build β} {Q : β → Module → Prop}
    (hk : ∀ m' : Module, m'.Settled → m'.registers = m.registers → m'.Goes (k ⟨⟩) Q) :
    m.Goes (if p then fail e >>= k else k ⟨⟩) Q := by
  split
  · exact (fail_goes h e).bind fun _ m' hm' _ hsame => hk m' hm' hsame.1
  · exact hk m h rfl

/-- A value that is not void has registers. -/
theorem Made.pos {v : Value} {n : Nat} (hv : m.Made v n) (hnonvoid : (!v.isVoid) = true) :
    0 < n := by
  obtain ⟨r, rfl, -⟩ := hv
  rw [Value.isVoid_run] at hnonvoid
  simp only [Bool.not_eq_true', decide_eq_false_iff_not] at hnonvoid
  omega

/-- An instruction that sets a new value, unless that is void. -/
theorem setFresh_goes (h : m.Settled) (hw : 0 ≤ words) (hlt : m.registers + words < 2 ^ 63)
    (i : Value → Instr) (hi : ∀ v m', 0 < words → m'.Made v words.toNat → (i v).Settled m') :
    m.Goes (setFresh words i) fun v m' => m'.Made v words.toNat := by
  apply (fresh_goes h hw hlt).bind
  intro v m' hm' _ hv
  dsimp only
  split
  · rename_i hnonvoid
    have hpos := hv.1.pos hnonvoid
    apply (emit_goes hm' (hi v m' (by omega) hv.1)).bind
    intro _ m'' hm'' hg' _
    exact .pure hm'' (hg'.made hv.1)
  · exact .pure hm' hv.1

theorem binary_goes (h : m.Settled) (op : BinaryOp) (a b : Value)
    (hlt : m.registers + 1 < 2 ^ 63) : m.Goes (binary op a b) fun v m' => m'.Made v 1 := by
  unfold binary
  apply check_goes h
  intro m' hm' hregs
  apply (fresh_goes hm' (by decide) (by omega)).bind
  intro v m₁ hm₁ _ hv
  apply (emit_goes hm₁ (show (Instr.binary op v a b).Settled m₁ from trivial)).bind
  intro _ m₂ hm₂ hg _
  exact .pure hm₂ (hg.made hv.1)

theorem binaryOfCode_goes (h : m.Settled) (code : UInt8) (a b : Value)
    (hlt : m.registers + 1 < 2 ^ 63) : m.Goes (binaryOfCode code a b) fun v m' => m'.Made v 1 := by
  unfold binaryOfCode
  split
  · exact binary_goes h _ a b hlt
  · apply (fail_goes h _).bind
    intro _ m' hm' _ hsame
    apply (fresh_goes hm' (by decide) (by omega)).mono
    intro v m'' _ hv
    exact hv.1

theorem newBlock_goes (h : m.Settled) (name : String) :
    m.Goes (newBlock name) fun _ _ => True := by
  have hstep : (newBlock name m).2.Settled ∧ m.Enlarges (newBlock name m).2 := by
    refine h.leaves rfl rfl ?_
    intro i b hb x hx
    change (m.blocks.push (emptyBlock name))[i]? = some b at hb
    rw [Array.getElem?_push] at hb
    split at hb
    · -- The new block has no code.
      cases hb
      cases hx
    · exact ⟨i, b, hb, hx⟩
  exact ⟨hstep.1, hstep.2, trivial⟩

theorem setInsertPoint_goes (h : m.Settled) (block : Int) :
    m.Goes (setInsertPoint block) fun _ _ => True := by
  by_cases hblock : 0 ≤ block ∧ block < m.blocks.size
  · have hset : setInsertPoint block m = ((), { m with cur := block.toNat }) := by
      show (if 0 ≤ block ∧ block < m.blocks.size then _
        else fail (.insertPoint block) : Build Unit) m = _
      rw [if_pos hblock]
      rfl
    have hstep := @Settled.leaves m { m with cur := block.toNat } h rfl rfl
      fun i b hb x hx => ⟨i, b, hb, hx⟩
    exact ⟨hset ▸ hstep.1, hset ▸ hstep.2, trivial⟩
  · have hset : setInsertPoint block m = fail (.insertPoint block) m := by
      show (if 0 ≤ block ∧ block < m.blocks.size then _
        else fail (.insertPoint block) : Build Unit) m = _
      rw [if_neg hblock]
    have hfail := fail_goes h (.insertPoint block)
    exact ⟨hset ▸ hfail.settled, hset ▸ hfail.grows, trivial⟩

/-- A phi adds no instruction. -/
theorem phi_goes (h : m.Settled) (a : Value) (fromA : Int) (b : Value) (fromB : Int)
    (hw : 0 ≤ a.words) (hlt : m.registers + a.words < 2 ^ 63) :
    m.Goes (phi a fromA b fromB) fun v m' => m'.Made v a.words.toNat := by
  unfold phi
  apply check_goes h
  intro m' hm' hregs
  apply (fresh_goes hm' hw (by omega)).bind
  intro v m₁ hm₁ _ hv
  dsimp only
  split
  · refine Goes.bind (R := fun _ m₂ => m₂.Made v a.words.toNat) ?_
      fun _ _ hm₂ _ hv' => .pure hm₂ hv'
    have hstep := @Settled.leaves m₁ { m₁ with blocks := m₁.blocks.modify m₁.cur fun blk =>
      { blk with phis := blk.phis.push ⟨v, [(fromA, a), (fromB, b)]⟩ } } hm₁ rfl rfl
    refine ⟨(hstep ?_).1, (hstep ?_).2, hv.1⟩
    all_goals
      intro i b' hb' x hx
      dsimp only at hb'
      rw [Array.getElem?_modify] at hb'
      split at hb'
      · obtain ⟨b₀, hb₀, rfl⟩ := Option.map_eq_some_iff.1 hb'
        exact ⟨i, b₀, hb₀, hx⟩
      · exact ⟨i, b', hb', hx⟩
  · exact .pure hm₁ hv.1

theorem alloca_goes (h : m.Settled) : m.Goes alloca fun _ _ => True := by
  have hg : m.Enlarges (alloca m).2 := by
    refine ⟨Int.le_refl _, ?_⟩
    intro k size hsize
    have hlt := (Array.getElem?_eq_some_iff.1 hsize).1
    refine ⟨size, ?_, Int.le_refl _⟩
    show (m.slots.push 0)[k]? = some size
    rw [Array.getElem?_push, if_neg (by omega)]
    exact hsize
  refine ⟨h.enlarge hg h.registers.2 ?_ fun i b hb x hx => ⟨i, b, hb, hx⟩, hg, trivial⟩
  intro k size hsize
  change (m.slots.push 0)[k]? = some size at hsize
  rw [Array.getElem?_push] at hsize
  split at hsize
  · cases hsize
    exact Int.le_refl _
  · exact h.sizes k size hsize

/-- A value that is not void has been made if its registers have been handed out. -/
theorem HasValue.made (h : m.Settled) {v : Value} (hv : m.HasValue v) (hvoid : v.isVoid = false) :
    m.Made v v.words.toNat := by
  rcases hv with hv | ⟨hreg, hpos, hle⟩
  · rw [hv] at hvoid
    cases hvoid
  · obtain ⟨r, hr⟩ := Int.eq_ofNat_of_zero_le hreg
    have hlt := h.registers.2
    refine ⟨r, ?_, by omega⟩
    rw [Value.run, if_neg (by omega), wrap_of_lt (by omega), ← hr, Int.toNat_of_nonneg (by omega)]

/-- A store lies inside its slot from then on. -/
theorem store_goes (h : m.Settled) (hk : m.HasSlot slot) (hoff : 0 ≤ off) {v : Value}
    (hv : m.HasValue v) (hlt : off + v.words < 2 ^ 63) :
    m.Goes (store slot off v) fun _ _ => True := by
  unfold store
  split
  · exact .pure h trivial
  · rename_i hvoid
    have hmade := hv.made h (by simpa using hvoid)
    have hwords : v.words = v.words.toNat := by
      obtain ⟨r, hrun, -⟩ := hmade
      conv_lhs => rw [hrun, Value.words_run]
    obtain ⟨k, rfl⟩ := Int.eq_ofNat_of_zero_le hk.1
    obtain ⟨o, rfl⟩ := Int.eq_ofNat_of_zero_le hoff
    -- The slot has room for the store before it is added.
    apply (reserve_goes h hk).bind
    intro _ m' hm' hg hroom
    refine emit_goes hm' ⟨k, o, _, rfl, rfl, hg.made hmade, hroom o _ (Or.inl ?_)⟩
    rw [hwords, ← Int.natCast_add, wrap_of_lt (by omega)]
    exact Int.le_refl _

/-- A load lies inside its slot from then on. -/
theorem load_goes (h : m.Settled) (hk : m.HasSlot slot) (hoff : 0 ≤ off) (hw : 0 ≤ words)
    (hregs : m.registers + words < 2 ^ 63) (hlt : off + words < 2 ^ 63) :
    m.Goes (load slot off words) fun v m' => m'.Made v words.toNat := by
  apply (fresh_goes h hw hregs).bind
  intro v m₁ hm₁ hg₁ hv
  dsimp only
  split
  · rename_i hnonvoid
    have hpos := hv.1.pos hnonvoid
    obtain ⟨k, rfl⟩ := Int.eq_ofNat_of_zero_le hk.1
    obtain ⟨o, rfl⟩ := Int.eq_ofNat_of_zero_le hoff
    obtain ⟨n, rfl⟩ := Int.eq_ofNat_of_zero_le hw
    apply (reserve_goes hm₁ (hg₁.hasSlot hk)).bind
    intro _ m₂ hm₂ hg₂ hroom
    have hload : (Instr.load v k o).Settled m₂ := by
      refine ⟨k, o, n, rfl, rfl, hpos, hg₂.made hv.1, hroom o n (Or.inl ?_)⟩
      rw [← Int.natCast_add, wrap_of_lt (by omega)]
    apply (emit_goes hm₂ hload).bind
    intro _ m₃ hm₃ hg₃ _
    exact .pure hm₃ (hg₃.made (hg₂.made hv.1))
  · exact .pure hm₁ hv.1

theorem address_goes (h : m.Settled) (hk : m.HasSlot slot) (hoff : 0 ≤ off)
    (hlt : m.registers + 1 < 2 ^ 63) : m.Goes (address slot off) fun v m' => m'.Made v 1 := by
  apply (fresh_goes h (by decide) hlt).bind
  intro v m₁ hm₁ hg hv
  obtain ⟨hlo, hhi⟩ := hg.hasSlot hk
  obtain ⟨k, rfl⟩ := Int.eq_ofNat_of_zero_le hlo
  obtain ⟨o, rfl⟩ := Int.eq_ofNat_of_zero_le hoff
  -- Nothing is reserved, so all that is known is that there is such a slot.
  have hroom : m₁.Room k 0 0 := by
    have hsize := Array.getElem?_eq_getElem (show k < m₁.slots.size by omega)
    exact ⟨_, hsize, hm₁.sizes k _ hsize⟩
  have haddress : (Instr.address v k o).Settled m₁ := ⟨k, o, rfl, rfl, hv.1, hroom⟩
  apply (emit_goes hm₁ haddress).bind
  intro _ m₂ hm₂ hg₂ _
  exact .pure hm₂ (hg₂.made hv.1)

theorem call_goes (h : m.Settled) (host : String) (args : List Value) (hw : 0 ≤ words)
    (hlt : m.registers + words < 2 ^ 63) :
    m.Goes (call host args words) fun v m' => m'.Made v words.toNat := by
  apply (fresh_goes h hw hlt).bind
  intro v m₁ hm₁ _ hv
  apply (emit_goes hm₁ (show (Instr.call v host args).Settled m₁ from trivial)).bind
  intro _ m₂ hm₂ hg _
  exact .pure hm₂ (hg.made hv.1)

theorem ret_goes (h : m.Settled) (v : Value) : m.Goes (ret v) fun _ _ => True := by
  have hemit : ∀ m' : Module, m'.Settled → m'.Goes (do
      modify fun m => { m with returns := if 0 ≤ v.words then some v.words else none }
      emit (.ret v)) fun _ _ => True := by
    intro m' hm'
    refine Goes.bind (R := fun _ _ => True) ?_ fun _ m₁ hm₁ _ _ => emit_goes hm₁ trivial
    have hstep := @Settled.leaves m'
      { m' with returns := if 0 ≤ v.words then some v.words else none } hm' rfl rfl
      fun i b hb x hx => ⟨i, b, hb, hx⟩
    exact ⟨hstep.1, hstep.2, trivial⟩
  have hget : (get : Build Module) m = (m, m) := rfl
  unfold ret
  refine Goes.bind (R := fun m₀ m' => m₀ = m ∧ m' = m) ⟨h, .refl m, rfl, rfl⟩ ?_
  intro m₀ m' hm' _ _
  dsimp only
  split
  · exact check_goes hm' _ fun m₁ hm₁ _ => hemit m₁ hm₁
  · exact hemit m' hm'

/-- What every call keeps: the module stays settled, and the value that the call makes has
    registers of its own. -/
theorem perform_goes (h : m.Settled) {c : Call} (hr : c.InRange m) (hc : c.Counts m) :
    m.Goes c.perform fun v m' => m'.Made v c.words.toNat := by
  -- A call without a value answers the void one.
  have hplain : ∀ {α : Type} {x : Build α}, m.Goes x (fun _ _ => True) →
      m.Goes (do let _ ← x; return .void) fun v m' => m'.Made v (0 : Int).toNat := by
    intro α x hx
    apply hx.bind
    intro _ m' hm' _ _
    exact .pure hm' ⟨0, rfl, hm'.registers.1⟩
  obtain ⟨hw, hlt, hreach⟩ := hc
  cases c with
  | const ws => exact setFresh_goes h hw hlt (fun v => .const v ws) fun _ _ _ _ => trivial
  | binary code a b => exact binaryOfCode_goes h code a b hlt
  | newBlock name => exact hplain (newBlock_goes h name)
  | setInsertPoint block => exact hplain (setInsertPoint_goes h block)
  | branch target => exact hplain (emit_goes h trivial)
  | branchIf cond target alt =>
    apply hplain
    unfold Module.branchIf
    apply check_goes h
    intro m' hm' _
    exact emit_goes hm' trivial
  | phi a fromA b fromB => exact phi_goes h a fromA b fromB hw hlt
  | alloca => exact hplain (alloca_goes h)
  | reserve slot words => exact hplain ((reserve_goes h hr).mono fun _ _ _ _ => trivial)
  | store slot off v =>
    exact hplain (store_goes h hr.1 hr.2.1 hr.2.2 hreach)
  | load slot off words => exact load_goes h hr.1 hr.2 hw hlt hreach
  | address slot off => exact address_goes h hr.1 hr.2 hlt
  | storeIndirect addr v =>
    apply hplain
    unfold storeIndirect
    split
    · exact emit_goes h trivial
    · exact .pure h trivial
  | loadIndirect addr words =>
    exact setFresh_goes h hw hlt (.loadIndirect · addr) fun v m' hpos hv => ⟨_, by omega, hv⟩
  | call host args results => exact call_goes h host args hw hlt
  | ret v => exact hplain (ret_goes h v)

theorem settled_create (name : String) : (create name).Settled where
  registers := ⟨Int.le_refl 0, show (0 : Int) < 2 ^ 63 by decide⟩
  sizes k size hk := nomatch hk
  instrs i b hb x hx := by
    cases i with
    | zero =>
      cases hb
      cases hx
    | succ i => cases hb

/-- After any calls in range whose sizes can be counted, all instructions are settled. -/
theorem Settled.after (h : m.Settled) {cs : List Call} (hcs : m.Allows Call.Sized cs) :
    (m.after cs).Settled := by
  induction cs generalizing m with
  | nil => exact h
  | cons c cs ih => exact ih (perform_goes h hcs.1.1 hcs.1.2).settled hcs.2

end Calls

end Module

end TreeMachine.Code
