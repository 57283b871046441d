import TreeMachine.Proofs.Compile.State

/-! # Delivering results

  A node leaves its result in registers or at a place in a slot.  `Settled` says what holds
  once the result of an expression is delivered: its type, the code that makes it, and the
  registers and slots that were used.  Main statements: a value in registers is delivered as
  asked, and so is a result that stands in its slot already.
-/

namespace TreeMachine.Compile

open Code (Module Value Program Frame Stands wrap)
open Code.Module (Emits)

variable {X : Type}

/-- The variables have the given values in the frame. -/
def Env (place : X → Location) (p : Program) (f : Frame) (env : X → UInt64) : Prop :=
  ∀ x, f.words[p.start (place x).slot + (place x).off]? = some (env x)

/-- The slots with room for `w` words at a place. -/
def enlarge (slots : Array Int) (at_ : Location) (w : Nat) : Array Int :=
  if 0 < w then slots.modify at_.slot (max · (at_.off + w : Nat)) else slots

/-- The code between two modules leaves the words of an expression in the registers from `r`
    on. -/
def LeavesRegisters (place : X → Location) (e : Expr X) (m : Module) (R : Nat) (m' : Module)
    (R' r : Nat) : Prop :=
  Emits m R m' R' fun p f f' => f.Keeps f' R (p.start m.slots.size) 0 0 ∧
    ∀ env, Env place p f env → Stands f'.regs r (e.eval env)

/-- The code between two modules leaves the words of an expression at a place in a slot. -/
def LeavesSlot (place : X → Location) (e : Expr X) (m : Module) (R : Nat) (m' : Module)
    (R' : Nat) (at_ : Location) (w : Nat) : Prop :=
  Emits m R m' R' fun p f f' =>
    f.Keeps f' R (p.start m.slots.size) (p.start at_.slot + at_.off) w ∧
      ∀ env, Env place p f env → Stands f'.words (p.start at_.slot + at_.off) (e.eval env)

/-- The result is in registers. -/
structure InRegisters (place : X → Location) (e : Expr X) (m : Module) (R : Nat) (m' : Module)
    (R' w : Nat) (info : Info) : Prop where
  temporary : info.addressable = false
  code : ∃ r, R ≤ r ∧ r + w ≤ R' ∧ info.value = Value.run r w ∧
    LeavesRegisters place e m R m' R' r
  slots : ∃ new, m'.slots.toList = m.slots.toList ++ new ∧ new.sum ≤ e.volume

/-- The result is at a place that there was room for. -/
structure InSlot (place : X → Location) (e : Expr X) (m : Module) (R : Nat) (m' : Module)
    (R' : Nat) (at_ : Location) (w : Nat) (info : Info) : Prop where
  located : 0 < w → info.addressable = true ∧ info.loc = at_
  empty : w = 0 → info.addressable = false
  code : LeavesSlot place e m R m' R' at_ w
  slots : ∃ new, m'.slots.toList = (enlarge m.slots at_ w).toList ++ new ∧
    new.sum + w ≤ e.volume

/-- The result is in a slot of its own. -/
structure InOwnSlot (place : X → Location) (e : Expr X) (m : Module) (R : Nat) (m' : Module)
    (R' w : Nat) (info : Info) : Prop where
  located : 0 < w → info.addressable = true ∧ info.loc = ⟨m.slots.size, 0⟩ ∧
    ∃ size, m'.slots[m.slots.size]? = some size ∧ (w : Int) ≤ size
  empty : w = 0 → info.addressable = false
  code : LeavesSlot place e m R m' R' ⟨m.slots.size, 0⟩ w
  slots : ∃ new, m'.slots.toList = m.slots.toList ++ new ∧ new.sum ≤ e.volume

/-- The result is where its degree asks for it. -/
def Delivered (place : X → Location) (e : Expr X) (d : Degree) (at_ : Location) (m : Module)
    (R : Nat) (m' : Module) (R' w : Nat) (info : Info) : Prop :=
  match d with
  | .value => InRegisters place e m R m' R' w info
  | .storeInto => InSlot place e m R m' R' at_ w info
  | .ownSlot => InOwnSlot place e m R m' R' w info

/-- Wherever the result is, code has been made for it. -/
theorem Delivered.emits {place : X → Location} {e : Expr X} {d : Degree} {at_ : Location}
    {m m' : Module} {R R' w : Nat} {info : Info}
    (h : Delivered place e d at_ m R m' R' w info) : ∃ P, Emits m R m' R' P := by
  cases d with
  | value =>
    obtain ⟨-, ⟨r, -, -, -, hcode⟩, -⟩ := h
    exact ⟨_, hcode⟩
  | storeInto => exact ⟨_, InSlot.code h⟩
  | ownSlot => exact ⟨_, InOwnSlot.code h⟩

/-- The expression has been generated, with results recorded for the nodes `ns` at most. -/
structure Settled (W : List Record) (place : X → Location) (e : Expr X) (ns : List Node)
    (d : Degree) (at_ : Location) (g : Generator) (c : Catalogue) (R : Nat) (info : Info)
    (g' : Generator) (w : Nat) (c' : Catalogue) (R' : Nat) : Prop where
  width : e.width = some w
  moves : Moves g c ns g' c'
  room : g'.heap.arena.Room (c'.lacking W)
  type : c'.Integers g'.heap.types.scalars.integer w info.type
  plain : info.contract.validity = 0
  few : R' ≤ R + e.volume
  delivered : Delivered place e d at_ g.module R g'.module R' w info

/-- A variable has a slot that is known. -/
structure Slotted (g : Generator) (n : Node) (at_ : Location) : Prop where
  real : n ≠ 0
  memo : ∃ info, g.memo.get? n = some info ∧ info.addressable = true ∧ info.loc = at_ ∧
    info.type = g.heap.types.scalars.integer ∧ info.contract.validity = 0
  room : ∃ size, g.module.slots[at_.slot]? = some size ∧ (at_.off + 1 : Nat) ≤ size

/-- Generation can go on: there is room for the types in `W`, and the variables have their
    slots. -/
structure Ready (W : List Record) (node : X → Node) (place : X → Location) (g : Generator)
    (c : Catalogue) (R : Nat) : Prop where
  standard : g.heap.Standard c
  idle : g.heap.arena.collecting = false
  room : g.heap.arena.Room (c.lacking W)
  opened : g.module.Open
  count : g.module.registers = wrap R
  vars : ∀ x, Slotted g (node x) (place x)

/-- The nodes are neither being generated nor do they have results. -/
def Fresh (g : Generator) (ns : List Node) : Prop :=
  ∀ n ∈ ns, n ∉ g.active ∧ g.memo.get? n = none

theorem Fresh.nil (g : Generator) : Fresh g [] := fun _ hn => by cases hn

theorem Fresh.left {g : Generator} {ns ns' : List Node} (h : Fresh g (ns ++ ns')) : Fresh g ns :=
  fun n hn => h n (List.mem_append_left _ hn)

/-! ### Going on -/

section GoingOn

variable {W : List Record} {node : X → Node} {place : X → Location} {g g' : Generator}
  {c c' : Catalogue} {R R' : Nat} {ns ns' : List Node} {P : Program → Frame → Frame → Prop}

theorem Slotted.moves {n : Node} {at_ : Location} (h : Slotted g n at_) (hm : Moves g c ns g' c')
    (hg : g.module.Grows g'.module) (hn : n ∉ ns) : Slotted g' n at_ := by
  obtain ⟨info, hmemo, hinfo⟩ := h.memo
  obtain ⟨size, hsize, hle⟩ := h.room
  obtain ⟨size', hsize', hle'⟩ := hg.slots _ size hsize
  refine ⟨h.real, ⟨info, (hm.memo n hn).trans hmemo, ?_⟩, size', hsize', Int.le_trans hle hle'⟩
  rw [hm.ext.scalars_eq]
  exact hinfo

/-- A variable is no fresh node. -/
theorem Ready.var_not_mem (h : Ready W node place g c R) (hf : Fresh g ns) (x : X) :
    node x ∉ ns := by
  intro hmem
  obtain ⟨info, hmemo, -⟩ := (h.vars x).memo
  rw [(hf _ hmem).2] at hmemo
  cases hmemo

theorem Ready.next (h : Ready W node place g c R) (hf : Fresh g ns) (hm : Moves g c ns g' c')
    (hroom : g'.heap.arena.Room (c'.lacking W)) (hcode : Emits g.module R g'.module R' P) :
    Ready W node place g' c' R' where
  standard := h.standard.extends hm.ext
  idle := hm.ext.grows.collecting_eq.trans h.idle
  room := hroom
  opened := hcode.opened
  count := hcode.count
  vars x := (h.vars x).moves hm hcode.grows (h.var_not_mem hf x)

/-- It does not count which nodes are being generated. -/
theorem Ready.setActive (h : Ready W node place g c R) (active : List Node) :
    Ready W node place { g with active } c R :=
  ⟨h.standard, h.idle, h.room, h.opened, h.count, fun x =>
    ⟨(h.vars x).real, (h.vars x).memo, (h.vars x).room⟩⟩

/-- What generating the nodes `ns` leaves to be generated. -/
theorem Fresh.after (h : Fresh g (ns ++ ns')) (hnodup : (ns ++ ns').Nodup)
    (hm : Moves g c ns g' c') : Fresh g' ns' := by
  intro n hn
  obtain ⟨hactive, hmemo⟩ := h n (List.mem_append_right _ hn)
  have hnot : n ∉ ns := fun hn' => (List.nodup_append.1 hnodup).2.2 n hn' n hn rfl
  refine ⟨?_, ?_⟩
  · rw [hm.active]
    exact hactive
  · rw [hm.memo n hnot]
    exact hmemo

end GoingOn

/-! ### Slots that are made room in -/

theorem modify_append {l l' : List Int} {i : Nat} (f : Int → Int) (hi : i < l.length) :
    (l ++ l').modify i f = l.modify i f ++ l' := by
  induction l generalizing i with
  | nil => simp at hi
  | cons x rest ih =>
    cases i with
    | zero => rfl
    | succ i =>
      rw [List.cons_append, List.modify_succ_cons, List.modify_succ_cons, List.cons_append,
        ih (by simpa using hi)]

theorem modify_last (l : List Int) (x : Int) (f : Int → Int) :
    (l ++ [x]).modify l.length f = l ++ [f x] := by
  induction l with
  | nil => rfl
  | cons y rest ih =>
    rw [List.cons_append, List.length_cons, List.modify_succ_cons, ih]
    rfl

section Enlarge

variable {slots slots' : Array Int} {at_ : Location} {w : Nat} {new : List Int}

@[simp] theorem size_enlarge (slots : Array Int) (at_ : Location) (w : Nat) :
    (enlarge slots at_ w).size = slots.size := by
  unfold enlarge
  split
  · exact Array.size_modify
  · rfl

theorem enlarge_append (h : slots'.toList = slots.toList ++ new) (hat : at_.slot < slots.size) :
    (enlarge slots' at_ w).toList = (enlarge slots at_ w).toList ++ new := by
  unfold enlarge
  split
  · rw [Array.toList_modify, Array.toList_modify, h, modify_append _ (by simpa using hat)]
  · exact h

theorem enlarge_room (hat : at_.slot < slots.size) (hw : 0 < w) :
    ∃ size, (enlarge slots at_ w)[at_.slot]? = some size ∧ (at_.off + w : Nat) ≤ size := by
  rw [enlarge, if_pos hw, Array.getElem?_modify, if_pos rfl, Array.getElem?_eq_getElem hat]
  exact ⟨_, rfl, Int.le_max_right _ _⟩

/-- Two halves next to each other. -/
theorem enlarge_enlarge (slots : Array Int) (at_ : Location) (w₁ w₂ : Nat) :
    enlarge (enlarge slots at_ w₁) ⟨at_.slot, at_.off + w₁⟩ w₂ = enlarge slots at_ (w₁ + w₂) := by
  unfold enlarge
  by_cases h₁ : 0 < w₁
  · rw [if_pos h₁, if_pos (show 0 < w₁ + w₂ by omega)]
    by_cases h₂ : 0 < w₂
    · rw [if_pos h₂]
      apply Array.ext_getElem?
      intro i
      simp only [Array.getElem?_modify]
      split
      · rw [Option.map_map]
        refine congrArg (Option.map · _) ?_
        funext x
        simp only [Function.comp]
        omega
      · rfl
    · rw [if_neg h₂, show w₂ = 0 by omega, Nat.add_zero]
  · rw [if_neg h₁, show w₁ = 0 by omega, Nat.add_zero, Nat.zero_add]

/-- Two times the same. -/
theorem enlarge_self (slots : Array Int) (at_ : Location) (w : Nat) :
    enlarge (enlarge slots at_ w) at_ w = enlarge slots at_ w := by
  unfold enlarge
  split
  · apply Array.ext_getElem?
    intro i
    simp only [Array.getElem?_modify]
    split
    · rw [Option.map_map]
      refine congrArg (Option.map · _) ?_
      funext x
      simp only [Function.comp]
      omega
    · rfl
  · rfl

/-- Room in a new slot. -/
theorem enlarge_new (slots : Array Int) (w : Nat) :
    (enlarge (slots.push 0) ⟨slots.size, 0⟩ w).toList = slots.toList ++ [(w : Int)] := by
  unfold enlarge
  split
  · have hlen : slots.toList.length = slots.size := Array.length_toList
    rw [Array.toList_modify, Array.toList_push, ← hlen, modify_last]
    simp
  · rw [Array.toList_push, show w = 0 by omega]
    rfl

theorem getElem?_of_append (h : slots'.toList = slots.toList ++ new) {k : Nat} {size : Int}
    (hk : slots[k]? = some size) : slots'[k]? = some size := by
  have hlt := (Array.getElem?_eq_some_iff.1 hk).1
  rw [← Array.getElem?_toList, h, List.getElem?_append_left (by simpa using hlt),
    Array.getElem?_toList, hk]

theorem size_of_append (h : slots'.toList = slots.toList ++ new) : slots.size ≤ slots'.size := by
  rw [← Array.length_toList, ← Array.length_toList, h, List.length_append]
  omega

end Enlarge

/-! ### Delivering -/

/-- Where a sub-node puts a result that becomes the node's own. -/
def Degree.inner : Degree → Degree
  | .value => .value
  | _ => .storeInto

theorem Degree.inner_of_ne {d : Degree} (h : d ≠ .value) : d.inner = .storeInto := by
  cases d with
  | value => exact absurd rfl h
  | storeInto => rfl
  | ownSlot => rfl

section Finish

variable {W : List Record} {place : X → Location} {g g' : Generator} {c c' : Catalogue}
  {R R' w r : Nat} {ns : List Node} {e : Expr X} {site : Site} {t : Ty} {ct : Contract}

/-- The results of a node are those of its tree. -/
theorem Moves.recorded (h : Moves g c ns g' c') (hn : site.node ∈ ns) (memo : Dict Node Info)
    (temps : Dict Node Info) (b : Bool)
    (hmemo : ∀ n, n ≠ site.node → memo.get? n = g'.memo.get? n) :
    Moves g c ns { g' with memo, temps, shadow := ⟨site.node, b⟩ :: g'.shadow } c' where
  ext := h.ext
  active := h.active
  labels := h.labels
  memo n hout := by
    have hne : n ≠ site.node := fun heq => hout (heq ▸ hn)
    exact (hmemo n hne).trans (h.memo n hout)
  shadow := by
    obtain ⟨added, hadd, hmem⟩ := h.shadow
    refine ⟨⟨site.node, b⟩ :: added, by rw [hadd]; rfl, ?_⟩
    intro e he
    rcases List.mem_cons.1 he with rfl | he
    · exact hn
    · exact hmem e he

/-- The code that writes a value in registers to its place. -/
theorem store_leaves {m m₁ : Module} {at_ : Location} (hcode : LeavesRegisters place e m R m₁ R' r)
    (he : e.width = some w) (hw : 0 < w) (hr : r + w ≤ R') (hat : at_.slot < m₁.slots.size) :
    ∃ m₂ m₃, Module.reserve at_.slot (at_.off + w) m₁ = ((), m₂) ∧
      Module.store at_.slot at_.off (Value.run r w) m₂ = ((), m₃) ∧
      m₃.slots = enlarge m₁.slots at_ w ∧ LeavesSlot place e m R m₃ R' at_ w := by
  have hreserve := Module.reserve_emits hcode.opened hcode.count at_.slot (at_.off + w : Nat)
  obtain ⟨size, hsize, hle⟩ := enlarge_room hat hw
  rw [enlarge, if_pos hw] at hsize
  obtain ⟨m₃, hstore, hslots, hemits⟩ :=
    Module.store_emits hreserve.opened hreserve.count hsize hle hw hr
  refine ⟨_, m₃, Module.reserve_eq hat _, hstore, ?_, ?_⟩
  · rw [hslots, enlarge, if_pos hw]
  · refine ((hcode.trans hreserve).trans hemits).imp ?_
    intro p S f f' hcon hf hdone
    obtain ⟨f₁, hf₁, ⟨f₂, hf₂, ⟨hkeeps, hvalue⟩, rfl⟩, ws, hlen, hat', hstores⟩ := hdone
    refine ⟨?_, ?_⟩
    · have hwrite := hstores.keeps R (p.start m.slots.size)
      rw [hlen] at hwrite
      exact (hkeeps.weaken (Nat.le_refl _) (Nat.le_refl _) (by omega)).trans_same hwrite
    · intro env henv
      have heq := (hvalue env henv).eq hat' (by rw [hlen]; exact e.length_eval env he)
      rw [heq]
      exact hstores.stands

/-- A value in registers is delivered as its degree asks. -/
theorem finish_registers (hm : Moves g c ns g' c') (hs : g'.heap.Standard c')
    (hroom : g'.heap.arena.Room (c'.lacking W)) (he : e.width = some w)
    (ht : c'.Integers g'.heap.types.scalars.integer w t) (hplain : ct.validity = 0)
    (hfew : R' ≤ R + e.volume) (hlo : R ≤ r) (hhi : r + w ≤ R')
    (hcode : LeavesRegisters place e g.module R g'.module R' r)
    (hslots : ∃ new, g'.module.slots.toList = g.module.slots.toList ++ new ∧
      new.sum + (if site.degree = .value then 0 else w : Nat) ≤ e.volume)
    (hnode : site.node ∈ ns) (hdepth : site.depth = g.shadow.length)
    (hmemo : g'.memo.get? site.node = none) (hat : site.degree ≠ .value →
      site.storage.slot < g.module.slots.size) :
    ∃ info g'', finish site (Value.run r w) t ct true g' = .ok info g'' ∧
      Settled W place e ns site.degree.inner site.storage g c R info g'' w c' R' := by
  obtain ⟨new, hnew, hsum⟩ := hslots
  by_cases hd : site.degree = .value
  · -- The result stays in its registers.
    rw [if_pos hd] at hsum
    have hresult : ∀ info : Info, info.addressable = false → info.value = Value.run r w →
        InRegisters place e g.module R g'.module R' w info := fun info htemp hvalue =>
      ⟨htemp, ⟨r, hlo, hhi, hvalue, hcode⟩, new, hnew, by omega⟩
    by_cases hw : w = 0
    · subst hw
      refine ⟨_, _, finish_zero hs ht, ?_⟩
      have hkeep : dropped site g' = g' := by
        rw [dropped, hd]
        rfl
      rw [hkeep, hd]
      exact ⟨he, hm, hroom, ht, hplain, hfew, hresult _ rfl rfl⟩
    · refine ⟨_, _, finish_value (sizeOf_eq hs ht) (by omega) hd, ?_⟩
      rw [hd]
      exact ⟨he, hm.recorded hnode _ _ _ fun _ _ => rfl, hroom, ht, hplain, hfew,
        hresult _ rfl rfl⟩
  · rw [if_neg hd] at hsum
    have hslot := hat hd
    rw [Degree.inner_of_ne hd]
    by_cases hw : w = 0
    · subst hw
      refine ⟨_, _, finish_zero hs ht, ?_⟩
      obtain ⟨hm', hmodule, hheap, -⟩ := dropped_moves hm hdepth
      refine ⟨he, hm', by rw [hheap]; exact hroom, by rw [hheap]; exact ht, hplain, hfew, ?_⟩
      show InSlot _ _ _ _ _ _ _ _ _
      rw [hmodule]
      refine ⟨fun hpos => absurd hpos (by omega), fun _ => rfl, ?_, new, hnew, by omega⟩
      refine hcode.imp ?_
      intro p S f f' hcon hf hdone
      refine ⟨hdone.1.weaken (Nat.le_refl _) (Nat.le_refl _) (by omega), ?_⟩
      intro env _
      rw [List.eq_nil_of_length_eq_zero (e.length_eval env he)]
      exact Stands.nil _ _
    · have hle := size_of_append hnew
      obtain ⟨m₂, m₃, hreserve, hstore, hslots, hleaves⟩ :=
        store_leaves hcode he (by omega) hhi (show site.storage.slot < _ by omega)
      have hm₃ := hm.setModule m₃
      obtain ⟨hm', hmodule, hheap, hnone⟩ := dropped_moves hm₃ hdepth
      have hfinish := @finish_slot g' c' site (Value.run r w) t ct true w m₂ m₃ hs ht (by omega) hd
        hreserve hstore (hnone _ hmemo)
      refine ⟨_, _, hfinish, he, ?_, by rw [hheap]; exact hroom, by rw [hheap]; exact ht, hplain,
        hfew, ?_⟩
      · exact hm'.recorded hnode _ _ _ fun n hn => Dict.get?_set_ne _ _ hn
      · show InSlot _ _ _ _ _ _ _ _ _
        rw [show (dropped site { g' with module := m₃ }).module = m₃ from hmodule]
        refine ⟨fun _ => ⟨rfl, rfl⟩, fun hzero => absurd hzero hw, hleaves, new, ?_, hsum⟩
        rw [hslots]
        exact enlarge_append hnew hslot

/-- A result that stands at its place already is delivered there. -/
theorem finish_placed (hm : Moves g c ns g' c') (hs : g'.heap.Standard c')
    (hroom : g'.heap.arena.Room (c'.lacking W)) (he : e.width = some w)
    (ht : c'.Integers g'.heap.types.scalars.integer w t) (hplain : ct.validity = 0)
    (hfew : R' ≤ R + e.volume) {v : Value}
    (hcode : LeavesSlot place e g.module R g'.module R' site.storage w)
    (hslots : ∃ new, g'.module.slots.toList
      = (enlarge g.module.slots site.storage w).toList ++ new ∧ new.sum + w ≤ e.volume)
    (hnode : site.node ∈ ns) (hdepth : site.depth = g.shadow.length)
    (hmemo : g'.memo.get? site.node = none) (hd : site.degree ≠ .value)
    (hat : site.storage.slot < g.module.slots.size) :
    ∃ info g'', finish site v t ct false g' = .ok info g'' ∧
      Settled W place e ns site.degree.inner site.storage g c R info g'' w c' R' := by
  obtain ⟨new, hnew, hsum⟩ := hslots
  rw [Degree.inner_of_ne hd]
  by_cases hw : w = 0
  · subst hw
    refine ⟨_, _, finish_zero hs ht, ?_⟩
    obtain ⟨hm', hmodule, hheap, -⟩ := dropped_moves hm hdepth
    refine ⟨he, hm', by rw [hheap]; exact hroom, by rw [hheap]; exact ht, hplain, hfew, ?_⟩
    show InSlot _ _ _ _ _ _ _ _ _
    rw [hmodule]
    exact ⟨fun hpos => absurd hpos (by omega), fun _ => rfl, hcode, new, hnew, hsum⟩
  · obtain ⟨size, hsize, hle⟩ := enlarge_room hat (show 0 < w by omega)
    have hreserve := Module.reserve_of_le (getElem?_of_append hnew hsize) hle
    obtain ⟨hm', hmodule, hheap, hnone⟩ := dropped_moves hm hdepth
    have hfinish := @finish_slot g' c' site v t ct false w g'.module g'.module hs ht (by omega) hd
      hreserve rfl (hnone _ hmemo)
    refine ⟨_, _, hfinish, he, ?_, by rw [hheap]; exact hroom, by rw [hheap]; exact ht, hplain,
      hfew, ?_⟩
    · exact hm'.recorded hnode _ _ _ fun n hn => Dict.get?_set_ne _ _ hn
    · show InSlot _ _ _ _ _ _ _ _ _
      rw [show (dropped site g').module = g'.module from hmodule]
      exact ⟨fun _ => ⟨rfl, rfl⟩, fun hzero => absurd hzero hw, hcode, new, hnew, hsum⟩

end Finish

end TreeMachine.Compile
