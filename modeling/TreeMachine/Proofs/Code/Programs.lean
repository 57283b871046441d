import TreeMachine.Proofs.Code.Builder

/-! # Finished programs

  Closing a module lays its slots out one after the other and ends every block.  Main
  statements: the program contains the module it was made from, and what the code of the
  module leads to is what the program returns.
-/

namespace TreeMachine.Code

/-! ### The layout of slots -/

section Layout

variable {l : List Int} {start : Int}

theorem sum_nonneg_of_sizes (hsizes : ∀ size ∈ l, 0 ≤ size) : 0 ≤ l.sum := by
  induction l with
  | nil => exact Int.le_refl 0
  | cons size rest ih =>
    rw [List.sum_cons]
    have hsize := hsizes size List.mem_cons_self
    have hrest := ih fun s hs => hsizes s (List.mem_cons_of_mem _ hs)
    omega

/-- The slots stand one after the other. -/
theorem layout_eq (hsizes : ∀ size ∈ l, 0 ≤ size) (hstart : 0 ≤ start)
    (hsum : start + l.sum < 2 ^ 63) :
    (Module.layout l start).2 = start + l.sum ∧ (Module.layout l start).1.length = l.length ∧
      ∀ k, k < l.length → (Module.layout l start).1[k]? = some (start + (l.take k).sum) := by
  induction l generalizing start with
  | nil => exact ⟨by simp [Module.layout], rfl, fun k hk => absurd hk (by simp)⟩
  | cons size rest ih =>
    have hsize := hsizes size List.mem_cons_self
    have hsizes' : ∀ s ∈ rest, 0 ≤ s := fun s hs => hsizes s (List.mem_cons_of_mem _ hs)
    have hrest := sum_nonneg_of_sizes hsizes'
    rw [List.sum_cons] at hsum
    have hwrap : wrap (start + size) = start + size := by
      obtain ⟨n, hn⟩ := Int.eq_ofNat_of_zero_le (show 0 ≤ start + size by omega)
      rw [hn]
      exact wrap_of_lt (by omega)
    obtain ⟨hend, hlen, hat⟩ := ih hsizes' (show 0 ≤ start + size by omega) (by omega)
    rw [Module.layout, hwrap]
    refine ⟨?_, ?_, ?_⟩
    · rw [hend, List.sum_cons]
      omega
    · rw [List.length_cons, List.length_cons, hlen]
    · intro k hk
      cases k with
      | zero => simp
      | succ k =>
        rw [List.length_cons] at hk
        rw [List.getElem?_cons_succ, hat k (by omega), List.take_succ_cons, List.sum_cons]
        congr 1
        omega

/-- The first slots take less room than all of them. -/
theorem sum_take_le (hsizes : ∀ size ∈ l, 0 ≤ size) (k : Nat) :
    (l.take k).sum ≤ (l.take (k + 1)).sum := by
  by_cases hk : k < l.length
  · rw [List.take_succ_eq_append_getElem hk, List.sum_append]
    have hsize := hsizes l[k] (List.getElem_mem hk)
    simp only [List.sum_cons, List.sum_nil]
    omega
  · refine Int.le_of_eq ?_
    rw [List.take_of_length_le (by omega), List.take_of_length_le (by omega)]

/-- The first slots take no more room than all of them. -/
theorem sum_take_le_sum (hsizes : ∀ size ∈ l, 0 ≤ size) (k : Nat) : (l.take k).sum ≤ l.sum := by
  have hrest := @sum_nonneg_of_sizes (l.drop k) fun s hs => hsizes s (List.mem_of_mem_drop hs)
  have hsplit : (l.take k).sum + (l.drop k).sum = l.sum := by
    rw [← List.sum_append, List.take_append_drop]
  omega

end Layout

/-! ### Closing a module -/

namespace Module

/-- The program of a module. -/
def finished (m : Module) : Program :=
  ⟨m.name, m.blocks.map endWithTrap, m.registers, (layout m.slots.toList 0).1.toArray,
    (layout m.slots.toList 0).2⟩

variable {m m₀ : Module} {R R₀ : Nat}

theorem finalize_eq (hclosed : m.closed = false) (herror : m.error = none) :
    ∃ m', m.finalize = .ok (m.finished, m') := by
  refine ⟨{ m with
    blocks := m.blocks.map endWithTrap, closed := true, returns := some (m.returns.getD 0) }, ?_⟩
  unfold finalize
  rw [hclosed, herror]
  rfl

theorem endWithTrap_grows (b : Block) : b.Grows (endWithTrap b) := by
  unfold endWithTrap
  split
  · exact .refl b
  · exact ⟨by simp, rfl⟩

/-- Where the slots of a program start. -/
theorem start_finished (hsizes : ∀ size ∈ m.slots.toList, 0 ≤ size)
    (hsum : m.slots.toList.sum < 2 ^ 63) (k : Nat) :
    m.finished.start k = ((m.slots.toList.take k).sum).toNat := by
  obtain ⟨hend, hlen, hat⟩ := layout_eq hsizes (Int.le_refl 0) (by omega)
  unfold Program.start finished
  dsimp only
  by_cases hk : k < m.slots.toList.length
  · rw [List.getElem?_toArray, hat k hk, Option.getD_some, Int.zero_add]
  · rw [List.getElem?_toArray, List.getElem?_eq_none (by omega), Option.getD_none, hend,
      List.take_of_length_le (by omega), Int.zero_add]

/-- A program contains the module that it was made from. -/
theorem contains_finished (hcount : m.registers = wrap R) (hR : R < 2 ^ 63)
    (hsizes : ∀ size ∈ m.slots.toList, 0 ≤ size) (hsum : m.slots.toList.sum < 2 ^ 63) :
    Contains m.finished [] m R := by
  obtain ⟨hend, hlen, hat⟩ := layout_eq hsizes (Int.le_refl 0) (by omega)
  have hstart := start_finished hsizes hsum
  have hnonneg := fun k => @sum_nonneg_of_sizes (m.slots.toList.take k) fun s hs =>
    hsizes s (List.mem_of_mem_take hs)
  refine ⟨?_, ?_, ?_, ?_, ?_⟩
  · intro i b _ hb
    refine ⟨endWithTrap b, ?_, endWithTrap_grows b⟩
    show (m.blocks.map endWithTrap)[i]? = _
    rw [Array.getElem?_map, hb]
    rfl
  · show R ≤ m.registers.toNat
    rw [hcount, wrap_of_lt hR]
    exact Nat.le_refl R
  · intro k size hk
    have hlt : k < m.slots.toList.length := by
      rw [Array.length_toList]
      exact (Array.getElem?_eq_some_iff.1 hk).1
    have hget : m.slots.toList[k] = size := by
      rw [← Array.getElem?_toList] at hk
      exact (List.getElem?_eq_some_iff.1 hk).2
    have hnonneg' := hnonneg k
    refine ⟨?_, ?_⟩
    · show (layout m.slots.toList 0).1.toArray[k]? = _
      rw [List.getElem?_toArray, hat k hlt, hstart k, Int.zero_add]
      congr 1
      omega
    · rw [hstart k, hstart (k + 1), List.take_succ_eq_append_getElem hlt, List.sum_append, hget]
      have hsize := hsizes size (hget ▸ List.getElem_mem hlt)
      simp only [List.sum_cons, List.sum_nil]
      omega
  · intro k
    rw [hstart k, hstart (k + 1)]
    exact Int.toNat_le_toNat (sum_take_le hsizes k)
  · intro k
    show _ ≤ (layout m.slots.toList 0).2.toNat
    rw [hstart k, hend, Int.zero_add]
    exact Int.toNat_le_toNat (sum_take_le_sum hsizes k)

/-- The words of a program's frame are those of its slots. -/
theorem frameWords_finished (hsizes : ∀ size ∈ m.slots.toList, 0 ≤ size)
    (hsum : m.slots.toList.sum < 2 ^ 63) : m.finished.frameWords = m.slots.toList.sum := by
  obtain ⟨hend, -⟩ := layout_eq hsizes (Int.le_refl 0) (by omega)
  rw [Int.zero_add] at hend
  exact hend

/-- A program has a frame, if the memory has room for it. -/
theorem create_finished (hcount : m.registers = wrap R) (hR : R ≤ Arena.maxWords.toNat)
    (hsizes : ∀ size ∈ m.slots.toList, 0 ≤ size)
    (hsum : m.slots.toList.sum ≤ Arena.maxWords.toNat) :
    ∃ f, Frame.create m.finished = .ok f := by
  have hmax := Arena.maxWords_toNat
  -- There is a register for each one handed out, and there are the words of all slots.
  have hregs : m.finished.registers = (R : Int) := hcount.trans (wrap_of_lt (by omega))
  have hwords : m.finished.frameWords = m.slots.toList.sum.toNat := by
    have := sum_nonneg_of_sizes hsizes
    rw [frameWords_finished hsizes (by omega)]
    omega
  refine ⟨⟨Array.replicate R 0, Array.replicate m.slots.toList.sum.toNat 0⟩, ?_⟩
  unfold Frame.create
  rw [hregs, hwords, Frame.zeros_eq_ok hR, Frame.zeros_eq_ok (by omega)]
  rfl

end Module

/-! ### Running a program -/

theorem Frame.zeros_cases {count : Int} {xs : Array UInt64} (h : Frame.zeros count = .ok xs) :
    xs.size = count.toNat ∧ xs.size ≤ Arena.maxWords.toNat := by
  unfold Frame.zeros at h
  split at h
  · cases h
    rw [Array.size_replicate]
    omega
  · cases h

/-- A frame that could be made has the size that the program asks for. -/
theorem Frame.fits_create {p : Program} {f : Frame} (h : Frame.create p = .ok f) : f.Fits p := by
  unfold Frame.create at h
  obtain ⟨regs, hregs, h⟩ := of_except_bind_eq_ok h
  obtain ⟨words, hwords, h⟩ := of_except_bind_eq_ok h
  cases h
  obtain ⟨hr, hr'⟩ := Frame.zeros_cases hregs
  obtain ⟨hw, hw'⟩ := Frame.zeros_cases hwords
  exact ⟨hr, hw, hr', hw'⟩

namespace Module

/-- The module that ends with a return. -/
def returning (v : Value) (m : Module) : Module := { m.add (.ret v) with returns := some v.words }

variable {m m₀ : Module} {R R₀ w r : Nat}

theorem ret_eq (ho : m.Open) : ret (Value.run r w) m = ((), m.returning (Value.run r w)) := by
  have hget : (get : Build Module) m = (m, m) := rfl
  have hwords : (0 : Int) ≤ (Value.run r w).words := by
    rw [Value.words_run]
    omega
  unfold ret
  rw [bind_eq hget, ho.returns]
  show emit (.ret (Value.run r w)) { m with
    returns := if 0 ≤ (Value.run r w).words then some (Value.run r w).words else none } = _
  rw [if_pos hwords]
  show (if m.closed = true then _ else _ : Build Unit) _ = _
  rw [if_neg (by rw [ho.closed]; decide)]
  rfl

/-- The program of a module that returns contains the module before. -/
theorem contains_returning (ho : m.Open) (hcount : m.registers = wrap R) (hR : R < 2 ^ 63)
    (hsum : m.slots.toList.sum < 2 ^ 63) (v : Value) :
    Contains (m.returning v).finished [] m R ∧
      (m.returning v).finished.instr? m.here = some (.ret v) := by
  have hsizes : ∀ size ∈ m.slots.toList, 0 ≤ size := by
    intro size hmem
    obtain ⟨k, hk⟩ := List.mem_iff_getElem?.1 hmem
    exact ho.sizes k size (by rw [← Array.getElem?_toList]; exact hk)
  have hcon : Contains (m.returning v).finished [] (m.returning v) R :=
    contains_finished hcount hR hsizes hsum
  have hgrows : m.Grows { m.add (.ret v) with registers := m.registers, slots := m.slots } :=
    add_grows ho ho.keepsSlots
  have hbelow : Below [] m (m.returning v) := ⟨(hgrows.below []).blocks, (hgrows.below []).slots⟩
  obtain ⟨b, hb, ht⟩ := ho.here
  refine ⟨hcon.below hbelow (Nat.le_refl R), ?_⟩
  rw [here_eq hb]
  exact hcon.instr List.not_mem_nil (@add_here m (.ret v) b hb ht) (by simp)

/-- A program that returns has a frame, if the memory has room for it. -/
theorem create_returning (ho : m.Open) (hcount : m.registers = wrap R)
    (hR : R ≤ Arena.maxWords.toNat) (hsum : m.slots.toList.sum ≤ Arena.maxWords.toNat)
    (v : Value) : ∃ f, Frame.create (m.returning v).finished = .ok f := by
  have hsizes : ∀ size ∈ m.slots.toList, 0 ≤ size := by
    intro size hmem
    obtain ⟨k, hk⟩ := List.mem_iff_getElem?.1 hmem
    exact ho.sizes k size (by rw [← Array.getElem?_toList]; exact hk)
  exact create_finished (m := m.returning v) hcount hR hsizes hsum

end Module

/-- A way from the start of a program to a return. -/
theorem Leads.run {σ : Type} {host : Host σ} {p : Program} {n fuel r : Nat} {f f' : Frame}
    {s s' : σ}
    {pt : Point} {ws : List UInt64} (h : Leads host p n ⟨⟨0, 0⟩, f, s⟩ ⟨pt, f', s'⟩)
    (hcreate : Frame.create p = .ok f) (hret : p.instr? pt = some (.ret (Value.run r ws.length)))
    (hf' : f'.Fits p) (hws : Stands f'.regs r ws) (hfuel : n < fuel) :
    p.run host fuel s = .ok ws s' := by
  obtain ⟨k, hk, hrun⟩ := h
  have hexec : (Instr.ret (Value.run r ws.length)).exec host p f' s' = .ok (.done ws) s' :=
    exec_ret hf' hws
  have hend := resume_done hret hexec (fuel - 1 - k)
  have hframe : (sound (Frame.create p) : Run σ Frame) s = .ok f s := sound_eq_ok hcreate
  have hstart := @Program.runFrom_succ σ host p (fuel - 1) 0 f s
  rw [Nat.sub_add_cancel (by omega)] at hstart
  have hrun' := hrun (fuel - 1 - k)
  rw [Nat.sub_add_cancel (by omega)] at hrun'
  unfold Program.run
  rw [bind_eq_ok hframe]
  exact hstart.trans (hrun'.trans hend)

end TreeMachine.Code
