import TreeMachine.Proofs.Code.Calls
import TreeMachine.Proofs.Code.Paths

/-! # Slots apart from one another

  A program has one frame for all its slots.  Main statement: in the program of a module that
  is built by calls in range, and whose sizes can be counted, each word of the frame belongs to
  one slot; direct accesses succeed and stay in their slot, and so do accesses through the
  address of a place with room for them; and what is stored in a slot is read from it again,
  whatever is stored in other slots in between.  Sizes that cannot be counted wrap around, and
  then two slots may share their words.
-/

namespace TreeMachine.Code

open Relation (ReflTransGen)

/-! ### Accesses to slots -/

/-- The word of the frame belongs to the slot. -/
def Module.Owns (m : Module) (p : Program) (k i : Nat) : Prop :=
  ∃ size : Int, m.slots[k]? = some size ∧ p.start k ≤ i ∧ (i : Int) < p.start k + size

section

variable {σ : Type}

/-- The next instruction stores the words in the slot, directly or through the address of the
    place. -/
inductive WritesTo (p : Program) (c : Config σ) (k off : Nat) (ws : List UInt64) : Prop where
  | direct {src : Value} : p.instr? c.point = some (.store k off src) →
    c.frame.get src = .ok ws → WritesTo p c k off ws
  | indirect {addr src : Value} : p.instr? c.point = some (.storeIndirect addr src) →
    c.frame.word addr = .ok (frameAddress (p.start k + off)) → c.frame.get src = .ok ws →
    WritesTo p c k off ws

/-- The next instruction reads a place of the slot, directly or through its address. -/
inductive ReadsFrom (p : Program) (c : Config σ) (k off : Nat) (dst : Value) : Prop where
  | direct : p.instr? c.point = some (.load dst k off) → ReadsFrom p c k off dst
  | indirect {addr : Value} : p.instr? c.point = some (.loadIndirect dst addr) →
    c.frame.word addr = .ok (frameAddress (p.start k + off)) → ReadsFrom p c k off dst

/-- The next instruction stores nothing, or it stores in another slot, or not in the frame. -/
def Spares (m : Module) (p : Program) (k : Nat) (c : Config σ) : Prop :=
  ∀ i, p.instr? c.point = some i → match i with
    | .store slot _ _ => slot ≠ k
    | .storeIndirect addr _ =>
      (∃ k' off ws, k' ≠ k ∧ WritesTo p c k' off ws ∧ m.Room k' off ws.length) ∨
        ∃ a, c.frame.word addr = .ok a ∧ a &&& frameBit = 0
    | _ => True

/-- The run goes on from the one to the other, and spares the slot all the way. -/
def PathBeside (host : Host σ) (m : Module) (p : Program) (k : Nat) :
    Config σ → Config σ → Prop :=
  ReflTransGen fun c c' => Spares m p k c ∧ Step host p c c'

/-- The slots of the module are isolated in the frame of its program. -/
structure Isolated (host : Host σ) (m : Module) (p : Program) : Prop where
  apart : ∀ k k' i, m.Owns p k i → m.Owns p k' i → k = k'
  covers : ∀ i : Nat, i < p.frameWords ↔ ∃ k, m.Owns p k i
  frame : ∀ s c, Reaches host p s c → c.frame.words.size = p.frameWords
  /-- The words of a place with room for them belong to its slot. -/
  place : ∀ k o n, m.Room k o n → ∀ j < n, m.Owns p k (p.start k + o + j)
  /-- A direct store is one of words that there are, to a place with room for them. -/
  store : ∀ s c slot off src, Reaches host p s c →
    p.instr? c.point = some (.store slot off src) →
    ∃ k o ws, slot = (k : Nat) ∧ off = (o : Nat) ∧ WritesTo p c k o ws ∧ m.Room k o ws.length
  /-- A direct load is one from a place with room for it. -/
  load : ∀ s c dst slot off, Reaches host p s c → p.instr? c.point = some (.load dst slot off) →
    ∃ k o n, slot = (k : Nat) ∧ off = (o : Nat) ∧ dst.words = (n : Nat) ∧ ReadsFrom p c k o dst ∧
      m.Room k o n
  /-- The address of a place is made. -/
  address : ∀ s c dst slot off, Reaches host p s c →
    p.instr? c.point = some (.address dst slot off) →
    ∃ k o f', slot = (k : Nat) ∧ off = (o : Nat) ∧
      Step host p c ⟨c.point.next, f', c.world⟩ ∧
      c.frame.Sets f' dst.reg.toNat [frameAddress (p.start k + o)]
  /-- A store to a place with room for it succeeds and changes only that place. -/
  writes : ∀ s c k o ws, Reaches host p s c → WritesTo p c k o ws → m.Room k o ws.length →
    ∃ f', Step host p c ⟨c.point.next, f', c.world⟩ ∧ c.frame.Stores f' (p.start k + o) ws
  /-- A load from a place with room for it succeeds and gives the words that stand there. -/
  reads : ∀ s c k o dst n, Reaches host p s c → ReadsFrom p c k o dst → dst.words = (n : Nat) →
    m.Room k o n → ∃ ws f', ws.length = n ∧ Stands c.frame.words (p.start k + o) ws ∧
      Step host p c ⟨c.point.next, f', c.world⟩ ∧ c.frame.Sets f' dst.reg.toNat ws
  /-- A load gives what was stored last in its place, whatever was stored in other slots. -/
  lasts : ∀ s c c₁ c₂ k o ws dst, Reaches host p s c → WritesTo p c k o ws →
    m.Room k o ws.length → Step host p c c₁ → PathBeside host m p k c₁ c₂ →
    ReadsFrom p c₂ k o dst → dst.words = ws.length →
    ∃ f', Step host p c₂ ⟨c₂.point.next, f', c₂.world⟩ ∧ f'.get dst = .ok ws
  /-- A run with an answer goes this way, to a return of the answer. -/
  answers : ∀ fuel s ws s', p.run host fuel s = .ok ws s' →
    ∃ c v, Reaches host p s c ∧ p.instr? c.point = some (.ret v) ∧ c.frame.get v = .ok ws ∧
      c.world = s'

end

namespace Module

variable {m : Module}

/-! ### The layout -/

section Layout

theorem Settled.sizes_mem (h : m.Settled) : ∀ size ∈ m.slots.toList, 0 ≤ size := by
  intro size hmem
  obtain ⟨k, hk⟩ := List.mem_iff_getElem?.1 hmem
  exact h.sizes k size (by rw [← Array.getElem?_toList]; exact hk)

/-- The program contains the module. -/
theorem Settled.contains (h : m.Settled) (hsum : m.slots.toList.sum < 2 ^ 63) :
    Contains m.finished [] m m.registers.toNat := by
  obtain ⟨hlo, hhi⟩ := h.registers
  apply contains_finished _ (by omega) h.sizes_mem hsum
  rw [wrap_of_lt (by omega), Int.toNat_of_nonneg hlo]

/-- An instruction of the program is one of the module, or a trap. -/
theorem Settled.instr (h : m.Settled) {pt : Point} {x : Instr}
    (hx : m.finished.instr? pt = some x) : x.Settled m := by
  obtain ⟨b', hb', hcode⟩ := Option.bind_eq_some_iff.1 hx
  change (m.blocks.map endWithTrap)[pt.block]? = some b' at hb'
  rw [Array.getElem?_map, Option.map_eq_some_iff] at hb'
  obtain ⟨b, hb, rfl⟩ := hb'
  have hmem : x ∈ (endWithTrap b).code.toList := by
    rw [← Array.getElem?_toList] at hcode
    exact List.mem_of_getElem? hcode
  unfold endWithTrap at hmem
  -- Only a block without an end gets the trap.
  split at hmem
  · exact h.instrs _ b hb x hmem
  · rw [Array.toList_push, List.mem_append, List.mem_singleton] at hmem
    rcases hmem with hmem | rfl
    · exact h.instrs _ b hb x hmem
    · trivial

/-- The place lies in the frame, before the next slot. -/
theorem Room.le {p : Program} {R k o n : Nat} (hcon : Contains p [] m R) (h : m.Room k o n) :
    p.slotOffsets[k]? = some (p.start k : Int) ∧ p.start k + o + n ≤ p.start (k + 1) ∧
      p.start (k + 1) ≤ p.frameWords.toNat := by
  obtain ⟨size, hsize, hle⟩ := h
  obtain ⟨hoff, hend⟩ := hcon.slots k size hsize
  exact ⟨hoff, by omega, hcon.top _⟩

/-- Places of different slots are apart. -/
theorem Room.apart {p : Program} {R k o n k' o' n' : Nat} (hcon : Contains p [] m R)
    (h : m.Room k o n) (h' : m.Room k' o' n') (hne : k ≠ k') :
    p.start k + o + n ≤ p.start k' + o' ∨ p.start k' + o' + n' ≤ p.start k + o := by
  obtain ⟨-, hend, -⟩ := h.le hcon
  obtain ⟨-, hend', -⟩ := h'.le hcon
  rcases Nat.lt_or_gt_of_ne hne with hlt | hlt
  · have hmono := hcon.start_mono (show k + 1 ≤ k' from hlt)
    omega
  · have hmono := hcon.start_mono (show k' + 1 ≤ k from hlt)
    omega

/-- A word that belongs to a slot is a place with room for one word. -/
theorem Owns.room {p : Program} {k i : Nat} (h : m.Owns p k i) :
    ∃ o, i = p.start k + o ∧ m.Room k o 1 := by
  obtain ⟨size, hsize, hlo, hhi⟩ := h
  exact ⟨i - p.start k, by omega, size, hsize, by omega⟩

/-- The first slots take the words up to where the next one starts. -/
theorem Settled.owner (h : m.Settled) (hsum : m.slots.toList.sum < 2 ^ 63) {n i : Nat}
    (hn : n ≤ m.slots.toList.length) (hi : i < (m.slots.toList.take n).sum) :
    ∃ k, m.Owns m.finished k i := by
  induction n with
  | zero =>
    simp only [List.take_zero, List.sum_nil] at hi
    omega
  | succ n ih =>
    by_cases hbefore : (i : Int) < (m.slots.toList.take n).sum
    · exact ih (by omega) hbefore
    · -- The word belongs to the last of these slots.
      have hlt : n < m.slots.toList.length := hn
      have hstart := start_finished h.sizes_mem hsum n
      have hsize := h.sizes_mem _ (List.getElem_mem hlt)
      have hnonneg := @sum_nonneg_of_sizes (m.slots.toList.take n)
        fun s hs => h.sizes_mem s (List.mem_of_mem_take hs)
      rw [List.take_succ_eq_append_getElem hlt, List.sum_append, List.sum_singleton] at hi
      refine ⟨n, m.slots.toList[n], ?_, by omega, by omega⟩
      rw [← Array.getElem?_toList]
      exact List.getElem?_eq_getElem hlt

end Layout

/-! ### Single accesses -/

section Steps

variable {σ : Type} {host : Host σ} {c c' : Config σ} {k o n : Nat} {dst src addr : Value}
  {ws : List UInt64} {slot off : Int}

/-- A value that has been made has its registers in the frame. -/
theorem Made.regs (h : m.Made dst n) (hf : c.frame.Fits m.finished) :
    ∃ r, dst = Value.run r n ∧ r + n ≤ c.frame.regs.size ∧ (0 < n → dst.reg.toNat = r) := by
  obtain ⟨r, rfl, hle⟩ := h
  have hsize : c.frame.regs.size = m.registers.toNat := hf.regs
  have hfew := hf.fewRegs
  have hmax := Arena.maxWords_toNat
  refine ⟨r, rfl, by omega, ?_⟩
  intro hpos
  rw [Value.reg_run hpos, wrap_of_lt (by omega), Int.toNat_natCast]

theorem Made.get (h : m.Made src n) (hf : c.frame.Fits m.finished) :
    ∃ r ws, src = Value.run r ws.length ∧ ws.length = n ∧ Stands c.frame.regs r ws ∧
      c.frame.get src = .ok ws := by
  obtain ⟨r, rfl, hle, -⟩ := h.regs hf
  obtain ⟨ws, rfl, hws⟩ := Stands.exists_of_le hle
  exact ⟨r, ws, rfl, rfl, hws, Frame.get_run hws hf.fewRegs⟩

/-- What an instruction reads into has been made with the width of the access. -/
theorem Settled.reads_made (h : m.Settled) (hr : ReadsFrom m.finished c k o dst)
    (hn : dst.words = (n : Nat)) : 0 < n ∧ m.Made dst n := by
  -- The width that the instruction was made with is that of its value.
  have hmade : ∃ w, 0 < w ∧ m.Made dst w := by
    cases hr with
    | direct hi =>
      obtain ⟨_, _, w, -, -, hpos, hdst, -⟩ := h.instr hi
      exact ⟨w, hpos, hdst⟩
    | indirect hi _ => exact h.instr hi
  obtain ⟨w, hpos, r, rfl, hle⟩ := hmade
  rw [Value.words_run] at hn
  cases Int.ofNat.inj hn
  exact ⟨hpos, r, rfl, hle⟩

section

variable (h : m.Settled) (hcon : Contains m.finished [] m m.registers.toNat)
  (hf : c.frame.Fits m.finished)

include h hf

theorem Settled.store (hi : m.finished.instr? c.point = some (.store slot off src)) :
    ∃ k o ws, slot = (k : Nat) ∧ off = (o : Nat) ∧ WritesTo m.finished c k o ws ∧
      m.Room k o ws.length := by
  obtain ⟨k, o, n, rfl, rfl, hsrc, hroom⟩ := h.instr hi
  obtain ⟨r, ws, -, rfl, -, hget⟩ := hsrc.get hf
  exact ⟨k, o, ws, rfl, rfl, .direct hi hget, hroom⟩

include hcon

theorem Settled.writes (hw : WritesTo m.finished c k o ws) (hroom : m.Room k o ws.length) :
    ∃ f', Step host m.finished c ⟨c.point.next, f', c.world⟩ ∧
      c.frame.Stores f' (m.finished.start k + o) ws := by
  obtain ⟨hoff, hend, htop⟩ := hroom.le hcon
  have hsize := hf.words
  have hin : m.finished.start k + o + ws.length ≤ c.frame.words.size := by omega
  refine ⟨_, ?_, Frame.stores_writeFrom hin⟩
  -- Both ways of storing come to the same place.
  cases hw with
  | @direct src hi hget =>
    obtain ⟨_, _, n, -, -, hsrc, -⟩ := h.instr hi
    obtain ⟨r, ws', rfl, -, hstands, hget'⟩ := hsrc.get hf
    cases hget.symm.trans hget'
    exact .onward hi (exec_store hf hstands hoff hin)
  | indirect hi haddr hget => exact .onward hi (exec_storeIndirect hf haddr hget hin)

theorem Settled.reads (hr : ReadsFrom m.finished c k o dst) (hn : dst.words = (n : Nat))
    (hroom : m.Room k o n) : ∃ ws f', ws.length = n ∧
      Stands c.frame.words (m.finished.start k + o) ws ∧
      Step host m.finished c ⟨c.point.next, f', c.world⟩ ∧ c.frame.Sets f' dst.reg.toNat ws := by
  obtain ⟨hoff, hend, htop⟩ := hroom.le hcon
  have hsize := hf.words
  obtain ⟨hpos, hmade⟩ := h.reads_made hr hn
  obtain ⟨r, rfl, hregs, hreg⟩ := hmade.regs hf
  obtain ⟨ws, rfl, hws⟩ := Stands.exists_of_le
    (show m.finished.start k + o + n ≤ c.frame.words.size by omega)
  rw [hreg hpos]
  refine ⟨ws, _, rfl, hws, ?_, Frame.sets_writeFrom hregs⟩
  cases hr with
  | direct hi => exact .onward hi (exec_load hf hregs hpos hoff hws)
  | indirect hi haddr => exact .onward hi (exec_loadIndirect hf hregs hpos haddr hws)

theorem Settled.address (hi : m.finished.instr? c.point = some (.address dst slot off)) :
    ∃ k o f', slot = (k : Nat) ∧ off = (o : Nat) ∧
      Step host m.finished c ⟨c.point.next, f', c.world⟩ ∧
      c.frame.Sets f' dst.reg.toNat [frameAddress (m.finished.start k + o)] := by
  obtain ⟨k, o, rfl, rfl, hdst, hroom⟩ := h.instr hi
  obtain ⟨hoff, -⟩ := hroom.le hcon
  obtain ⟨r, rfl, hregs, hreg⟩ := hdst.regs hf
  rw [hreg Nat.one_pos]
  exact ⟨k, o, _, rfl, rfl, .onward hi (exec_address hf (by omega) hoff),
    Frame.sets_writeFrom hregs⟩

/-! ### What stands in a slot -/

/-- A step that spares the slot leaves what stands in it. -/
theorem Settled.spared (hroom : m.Room k o ws.length)
    (hws : Stands c.frame.words (m.finished.start k + o) ws) (hspares : Spares m m.finished k c)
    (hstep : Step host m.finished c c') :
    Stands c'.frame.words (m.finished.start k + o) ws := by
  -- A store in another slot is one to a place apart.
  have hother : ∀ k' o' ws', k' ≠ k → WritesTo m.finished c k' o' ws' →
      m.Room k' o' ws'.length → Stands c'.frame.words (m.finished.start k + o) ws := by
    intro k' o' ws' hne hw hroom'
    obtain ⟨f', hnext, hstores⟩ : ∃ f', Step host m.finished c ⟨c.point.next, f', c.world⟩ ∧
        c.frame.Stores f' (m.finished.start k' + o') ws' := h.writes hcon hf hw hroom'
    rw [hstep.unique hnext]
    have hapart := hroom.apart hcon hroom' hne.symm
    exact hws.congr fun i hlo hhi => hstores.others i (by omega)
  by_cases hwrites : ∀ i, m.finished.instr? c.point = some i → i.writes = false
  · rw [hstep.words hwrites]
    exact hws
  · simp only [not_forall, Bool.not_eq_false] at hwrites
    obtain ⟨i, hi, hi'⟩ := hwrites
    have hspare := hspares i hi
    -- Only the two stores write to the frame.
    cases i with
    | store slot off src =>
      obtain ⟨k', o', ws', rfl, rfl, hw, hroom'⟩ := h.store hf hi
      exact hother k' o' ws' (fun heq => hspare (congrArg _ heq)) hw hroom'
    | storeIndirect addr src =>
      rcases hspare with ⟨k', o', ws', hne, hw, hroom'⟩ | ⟨a, ha, houtside⟩
      · exact hother k' o' ws' hne hw hroom'
      · rw [hstep.words_outside hi ha houtside]
        exact hws
    | _ => cases hi'

end

/-- What stands in a slot stands there at the end of a path beside it. -/
theorem Settled.spared_path {s : σ} (h : m.Settled)
    (hcon : Contains m.finished [] m m.registers.toNat) (hroom : m.Room k o ws.length)
    (hc : Reaches host m.finished s c)
    (hws : Stands c.frame.words (m.finished.start k + o) ws)
    (hpath : PathBeside host m m.finished k c c') :
    Reaches host m.finished s c' ∧ Stands c'.frame.words (m.finished.start k + o) ws := by
  induction hpath with
  | refl => exact ⟨hc, hws⟩
  | tail _ hstep ih =>
    obtain ⟨hreach, hstands⟩ := ih
    exact ⟨hreach.step hstep.2, h.spared hcon hreach.fits hroom hstands hstep.1 hstep.2⟩

end Steps

/-! ### Closed modules -/

theorem finalize_cases {p : Program} {m' : Module} (hfin : m.finalize = .ok (p, m')) :
    p = m.finished := by
  unfold finalize at hfin
  split at hfin
  · cases hfin
  · split at hfin
    · cases hfin
    · cases hfin
      rfl

theorem Settled.isolated {σ : Type} (h : m.Settled) (hsum : m.slots.toList.sum < 2 ^ 63)
    (host : Host σ) : Isolated host m m.finished := by
  have hcon := h.contains hsum
  have hnonneg := sum_nonneg_of_sizes h.sizes_mem
  have hwords := frameWords_finished h.sizes_mem hsum
  constructor
  case apart =>
    intro k k' i hk hk'
    obtain ⟨o, rfl, hroom⟩ := hk.room
    obtain ⟨o', heq, hroom'⟩ := hk'.room
    by_contra hne
    have hapart := hroom.apart hcon hroom' hne
    omega
  case covers =>
    intro i
    constructor
    · intro hi
      apply h.owner hsum (Nat.le_refl _)
      rw [List.take_length, ← hwords]
      exact hi
    · intro ⟨k, hk⟩
      obtain ⟨o, rfl, hroom⟩ := hk.room
      obtain ⟨-, hend, htop⟩ := hroom.le hcon
      omega
  case frame =>
    intro s c hc
    have hsize := hc.fits.words
    omega
  case place =>
    intro k o n hroom j hj
    obtain ⟨size, hsize, hle⟩ := hroom
    exact ⟨size, hsize, by omega, by omega⟩
  case store =>
    intro s c slot off src hc hi
    exact h.store hc.fits hi
  case load =>
    intro s c dst slot off hc hi
    obtain ⟨k, o, n, rfl, rfl, -, hdst, hroom⟩ := h.instr hi
    obtain ⟨r, rfl, -⟩ := hdst
    exact ⟨k, o, n, rfl, rfl, Value.words_run r n, .direct hi, hroom⟩
  case address =>
    intro s c dst slot off hc hi
    exact h.address hcon hc.fits hi
  case writes =>
    intro s c k o ws hc hw hroom
    exact h.writes hcon hc.fits hw hroom
  case reads =>
    intro s c k o dst n hc hr hn hroom
    exact h.reads hcon hc.fits hr hn hroom
  case lasts =>
    intro s c c₁ c₂ k o ws dst hc hw hroom hstep hpath hr hn
    obtain ⟨f₁, hnext, hstores⟩ : ∃ f', Step host m.finished c ⟨c.point.next, f', c.world⟩ ∧
        c.frame.Stores f' (m.finished.start k + o) ws := h.writes hcon hc.fits hw hroom
    cases hstep.unique hnext
    -- What was stored is still there at the end of the path.
    obtain ⟨hc₂, hstands⟩ := h.spared_path hcon hroom (hc.step hnext) hstores.stands hpath
    obtain ⟨ws', f', hlen, hws', hload, hsets⟩ := h.reads hcon hc₂.fits hr hn hroom
    cases hstands.eq hws' hlen.symm
    -- The load has set the registers of the value, and then they are read.
    have hf' := (hc₂.step hload).fits
    obtain ⟨hpos, hmade⟩ := h.reads_made hr hn
    obtain ⟨r, rfl, -, hreg⟩ := hmade.regs hc₂.fits
    rw [hreg hpos] at hsets
    exact ⟨f', hload, Frame.get_run hsets.stands hf'.fewRegs⟩
  case answers =>
    intro fuel s ws s' hrun
    exact run_reaches hrun

/-- In the program of a module that is built by calls in range, and whose registers and words
    can be counted, the slots are isolated. -/
theorem finalize_isolates {name : String} {cs : List Call} {p : Program} {m' : Module}
    (hcs : (create name).Allows Call.Sized cs)
    (hsum : ((create name).after cs).slots.toList.sum < 2 ^ 63)
    (hfin : ((create name).after cs).finalize = .ok (p, m')) {σ : Type} (host : Host σ) :
    Isolated host ((create name).after cs) p := by
  rw [finalize_cases hfin]
  exact ((settled_create name).after hcs).isolated hsum host

/-- A host without functions and without memory. -/
def bareHost : Host Unit := ⟨fun _ => none, none⟩

/-- Two slots, of which the first grows after code that uses it. -/
def twoSlots : List Call :=
  [.alloca, .alloca, .const [1, 2], .store 0 0 ⟨0, 2⟩, .address 0 1, .const [9],
    .storeIndirect ⟨2, 1⟩ ⟨3, 1⟩, .const [5], .store 1 3 ⟨4, 1⟩, .reserve 0 4, .load 0 0 2,
    .ret ⟨5, 2⟩]

theorem twoSlots_isolated : (create "two").Allows Call.Sized twoSlots ∧
    ((create "two").after twoSlots).slots.toList.sum < 2 ^ 63 ∧
    ∃ p m', ((create "two").after twoSlots).finalize = .ok (p, m') ∧
      answer? (p.run bareHost 1 ()) = some ([1, 9], ()) ∧
      Isolated bareHost ((create "two").after twoSlots) p := by
  have hcs : (create "two").Allows Call.Sized twoSlots := by decide +kernel
  have hsum : ((create "two").after twoSlots).slots.toList.sum < 2 ^ 63 := by decide +kernel
  obtain ⟨m', hfin⟩ := @finalize_eq ((create "two").after twoSlots) (by decide +kernel)
    (by decide +kernel)
  exact ⟨hcs, hsum, _, m', hfin, by decide +kernel, finalize_isolates hcs hsum hfin bareHost⟩

/-! ### Sizes that cannot be counted -/

/-- The first four slots are so large together that their sum wraps around to zero, where the
    last slot begins, too. -/
def crowded : List Call :=
  [.alloca, .alloca, .alloca, .alloca, .alloca, .reserve 0 (2 ^ 62), .reserve 1 (2 ^ 62),
    .reserve 2 (2 ^ 62), .reserve 3 (2 ^ 62), .const [7], .store 0 0 ⟨0, 1⟩, .const [9],
    .store 4 0 ⟨1, 1⟩, .load 0 0 1, .ret ⟨2, 1⟩]

/-- A load of fewer than no words. -/
def narrow : List Call :=
  [.alloca, .reserve 0 4, .const [1, 2], .load 0 1 (-1), .const [3], .ret .void]

/-- Calls in range are not enough.  What is stored in one slot is read from another if their
    sizes cannot be counted, and a load of a negative width faults: the run has neither an
    answer nor an error. -/
theorem crowded_not_isolated :
    ((create "crowded").Allows Call.InRange crowded ∧
      ∃ p m', ((create "crowded").after crowded).finalize = .ok (p, m') ∧
        answer? (p.run bareHost 1 ()) = some ([9], ()) ∧
        ¬ Isolated bareHost ((create "crowded").after crowded) p) ∧
    (create "narrow").Allows Call.InRange narrow ∧
      ∃ p m', ((create "narrow").after narrow).finalize = .ok (p, m') ∧
        answer? (p.run bareHost 1 ()) = none ∧ error? (p.run bareHost 1 ()) = none := by
  constructor
  · obtain ⟨m', hfin⟩ := @finalize_eq ((create "crowded").after crowded) (by decide +kernel)
      (by decide +kernel)
    refine ⟨by decide +kernel, _, m', hfin, by decide +kernel, ?_⟩
    intro hisolated
    have hfirst : ((create "crowded").after crowded).Owns
        ((create "crowded").after crowded).finished 0 0 :=
      ⟨2 ^ 62, by decide +kernel, by decide +kernel, by decide +kernel⟩
    have hlast : ((create "crowded").after crowded).Owns
        ((create "crowded").after crowded).finished 4 0 :=
      ⟨1, by decide +kernel, by decide +kernel, by decide +kernel⟩
    exact absurd (hisolated.apart 0 4 0 hfirst hlast) (by decide)
  · obtain ⟨m', hfin⟩ := @finalize_eq ((create "narrow").after narrow) (by decide +kernel)
      (by decide +kernel)
    exact ⟨by decide +kernel, _, m', hfin, by decide +kernel, by decide +kernel⟩

end Module

end TreeMachine.Code
