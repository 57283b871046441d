import TreeMachine.Proofs.Code.Slots
import TreeMachine.Proofs.Compile.Steady

/-! # The shadow stack

  The shadow stack names the results that are recorded.  Those in slots are recorded while
  they have an entry, and they have one entry each; those in registers may have more than
  one.  Main statements: recording a result, widening the contract of one and cutting the
  stack back to an earlier height keep this so.
-/

namespace TreeMachine.Compile

open Code (Module Value Build)

variable {g g' g'' b b' : Generator} {c c' : Catalogue} {n : Node} {info : Info}

/-! ### Contracts -/

/-- The contract promises no more than an earlier one: what the value points into may be
    younger, and the place it points to may be gone sooner. -/
structure Contract.Weakens (ct old : Contract) : Prop where
  validity : old.validity ≤ ct.validity
  hit : ct.hit ≤ old.hit

namespace Contract.Weakens

variable {ct old older : Contract}

theorem refl (ct : Contract) : ct.Weakens ct := ⟨UInt64.le_refl _, UInt64.le_refl _⟩

theorem trans (h : ct.Weakens old) (h' : old.Weakens older) : ct.Weakens older :=
  ⟨UInt64.le_trans h'.validity h.validity, UInt64.le_trans h.hit h'.hit⟩

theorem merge (ct other : Contract) : (ct.merge other).Weakens ct := by
  constructor
  · show ct.validity ≤ if ct.validity ≤ other.validity then other.validity else ct.validity
    split
    · assumption
    · exact UInt64.le_refl _
  · show (if ct.hit ≤ other.hit then ct.hit else other.hit) ≤ ct.hit
    split
    · exact UInt64.le_refl _
    · exact (UInt64.le_total ct.hit other.hit).resolve_left ‹_›

end Contract.Weakens

/-- The result is an earlier one, but for a contract that promises no more. -/
def Info.Weakens (info old : Info) : Prop :=
  ∃ ct, info = { old with contract := ct } ∧ ct.Weakens old.contract

namespace Info.Weakens

variable {old older : Info}

theorem refl (info : Info) : info.Weakens info := ⟨info.contract, rfl, .refl _⟩

theorem trans (h : info.Weakens old) (h' : old.Weakens older) : info.Weakens older := by
  obtain ⟨ct, rfl, hct⟩ := h
  obtain ⟨ct', rfl, hct'⟩ := h'
  exact ⟨ct, rfl, hct.trans hct'⟩

end Info.Weakens

/-! ### Consistent states -/

/-- The nodes whose results live in slots, newest first. -/
def placed (shadow : List ShadowEntry) : List Node := (shadow.filter (·.addressable)).map (·.node)

theorem placed_append (l l' : List ShadowEntry) : placed (l ++ l') = placed l ++ placed l' := by
  simp [placed]

@[simp] theorem placed_cons_true (n : Node) (l : List ShadowEntry) :
    placed (⟨n, true⟩ :: l) = n :: placed l := rfl

@[simp] theorem placed_cons_false (n : Node) (l : List ShadowEntry) :
    placed (⟨n, false⟩ :: l) = placed l := rfl

/-- The result lives in a slot that has room for it. -/
structure Info.Placed (info : Info) (g : Generator) (c : Catalogue) : Prop where
  addressable : info.addressable = true
  knows : c.Knows info.type
  pos : 0 < g.heap.width info.type
  room : g.module.Room info.loc.slot info.loc.off (g.heap.width info.type)

/-- The value of the result is as wide as its type. -/
structure Info.Held (info : Info) (g : Generator) (c : Catalogue) : Prop where
  knows : c.Knows info.type
  words : info.value.words = g.heap.width info.type

/-- The result is as wide as its type if it is in registers. -/
structure Info.Sized (info : Info) (g : Generator) (c : Catalogue) : Prop where
  knows : c.Knows info.type
  words : info.addressable = false → info.value.words = g.heap.width info.type

theorem Info.Placed.sized (h : info.Placed g c) : info.Sized g c :=
  ⟨h.knows, fun ha => by rw [h.addressable] at ha; cases ha⟩

/-- The shadow stack names what is recorded: the results in slots by one entry each, which
    they keep as long as they are recorded, and the results in registers by at least one.
    What is recorded is where it says, and as wide as its type. -/
structure Generator.Tracked (g : Generator) (c : Catalogue) : Prop where
  memo_keys : ∀ n, g.memo.contains n = true ↔ n ∈ placed g.shadow
  placed_nodup : (placed g.shadow).Nodup
  temps_keys : ∀ n, g.temps.contains n = true → ⟨n, false⟩ ∈ g.shadow
  memo : ∀ n info, g.memo.get? n = some info → info.Placed g c
  temps : ∀ n info, g.temps.get? n = some info → info.Held g c

/-- The result is recorded for the node. -/
def Generator.Records (g : Generator) (n : Node) (info : Info) : Prop :=
  g.memo.get? n = some info ∨ g.temps.get? n = some info

/-- The shadow stack names what is recorded, and all of that has been generated before. -/
structure Generator.Consistent (g : Generator) (c : Catalogue) : Prop
    extends g.Tracked c where
  lifetimes : ∀ n info, g.Records n info → info.lifetime < g.clock

/-- The state before the first node. -/
theorem consistent_start (h : Heap) (name : String) (c : Catalogue) :
    (Generator.start h name).Consistent c where
  memo_keys _ := by simp [Generator.start, Dict.contains, placed]
  placed_nodup := List.nodup_nil
  temps_keys _ hn := by cases hn
  memo _ _ hn := by cases hn
  temps _ _ hn := by cases hn
  lifetimes _ _ hn := by rcases hn with hn | hn <;> cases hn

/-! ### Growth -/

/-- The heap has grown by types, and the slots by words. -/
structure Grows (g : Generator) (c : Catalogue) (g' : Generator) (c' : Catalogue) : Prop where
  ext : Heap.Extends g.heap c g'.heap c'
  slots : g.module.SlotsLe g'.module

namespace Grows

theorem of_eq (hi : g.heap.Interned c) (hheap : g'.heap = g.heap) (hmodule : g'.module = g.module) :
    Grows g c g' c := by
  refine ⟨?_, .of_eq (congrArg _ hmodule)⟩
  rw [hheap]
  exact .refl hi

theorem refl (hi : g.heap.Interned c) : Grows g c g c := of_eq hi rfl rfl

theorem trans {c'' : Catalogue} (h : Grows g c g' c') (h' : Grows g' c' g'' c'') :
    Grows g c g'' c'' :=
  ⟨h.ext.trans h'.ext, h.slots.trans h'.slots⟩

theorem placed (h : Grows g c g' c') (hi : g.heap.Interned c) (hf : info.Placed g c) :
    info.Placed g' c' where
  addressable := hf.addressable
  knows := h.ext.knows hf.knows
  pos := by
    rw [h.ext.width_eq hi hf.knows]
    exact hf.pos
  room := by
    rw [h.ext.width_eq hi hf.knows]
    exact h.slots.room hf.room

theorem held (h : Grows g c g' c') (hi : g.heap.Interned c) (hf : info.Held g c) :
    info.Held g' c' where
  knows := h.ext.knows hf.knows
  words := by
    rw [h.ext.width_eq hi hf.knows]
    exact hf.words

theorem sized (h : Grows g c g' c') (hi : g.heap.Interned c) (hf : info.Sized g c) :
    info.Sized g' c' where
  knows := h.ext.knows hf.knows
  words ha := by
    rw [h.ext.width_eq hi hf.knows]
    exact hf.words ha

end Grows

/-- What was recorded in `b` for slots is still recorded, and the shadow stack has entries
    above those of `b` only. -/
structure Above (b g : Generator) : Prop where
  keys : ∀ n, b.memo.contains n = true → n ∈ placed b.shadow
  shadow : ∃ added, g.shadow = added ++ b.shadow
  memo : ∀ n old, b.memo.get? n = some old → ∃ info, g.memo.get? n = some info ∧ info.Weakens old

namespace Above

theorem of_eq (hg : g.Tracked c) (hshadow : g'.shadow = g.shadow) (hmemo : g'.memo = g.memo) :
    Above g g' where
  keys _ := (hg.memo_keys _).1
  shadow := ⟨[], hshadow⟩
  memo _ old hn := ⟨old, hmemo ▸ hn, .refl old⟩

theorem refl (hg : g.Tracked c) : Above g g := of_eq hg rfl rfl

theorem trans (h : Above b g) (h' : Above g g') : Above b g' where
  keys := h.keys
  shadow := by
    obtain ⟨added, hadd⟩ := h.shadow
    obtain ⟨added', hadd'⟩ := h'.shadow
    exact ⟨added' ++ added, by rw [hadd', hadd, List.append_assoc]⟩
  memo n old hn := by
    obtain ⟨info, hinfo, hw⟩ := h.memo n old hn
    obtain ⟨info', hinfo', hw'⟩ := h'.memo n info hinfo
    exact ⟨info', hinfo', hw'.trans hw⟩

/-- Only the shadow stack and the results in slots count. -/
theorem congr (h : Above b g) (hb : b'.shadow = b.shadow ∧ b'.memo = b.memo)
    (hg : g'.shadow = g.shadow ∧ g'.memo = g.memo) : Above b' g' where
  keys := by
    rw [hb.1, hb.2]
    exact h.keys
  shadow := by
    rw [hb.1, hg.1]
    exact h.shadow
  memo := by
    rw [hb.2, hg.2]
    exact h.memo

end Above

/-! ### Recording -/

namespace Generator.Tracked

/-- Everything but the shadow stack and the results may change, if it grows. -/
theorem grows (h : g.Tracked c) (hi : g.heap.Interned c) (hg : Grows g c g' c')
    (hshadow : g'.shadow = g.shadow) (hmemo : g'.memo = g.memo) (htemps : g'.temps = g.temps) :
    g'.Tracked c' where
  memo_keys := by
    rw [hshadow, hmemo]
    exact h.memo_keys
  placed_nodup := hshadow ▸ h.placed_nodup
  temps_keys := by
    rw [hshadow, htemps]
    exact h.temps_keys
  memo n info hn := hg.placed hi (h.memo n info (hmemo ▸ hn))
  temps n info hn := hg.held hi (h.temps n info (htemps ▸ hn))

/-- A result in a slot is recorded for a node that has none. -/
theorem setMemo (h : g.Tracked c) (hnew : g.memo.get? n = none) (hinfo : info.Placed g c) :
    Tracked { g with memo := g.memo.set n info, shadow := ⟨n, true⟩ :: g.shadow } c where
  memo_keys n' := by
    have hkey := h.memo_keys n'
    simp only [Dict.contains, Dict.get?_set, placed_cons_true, List.mem_cons] at hkey ⊢
    by_cases hn : n' = n
    · simp [hn]
    · simp [hn, hkey]
  placed_nodup := by
    -- An entry of the node that was there before would name a result that it has not.
    refine List.nodup_cons.2 ⟨fun hmem => ?_, h.placed_nodup⟩
    have hkey := (h.memo_keys n).2 hmem
    rw [Dict.contains, hnew] at hkey
    cases hkey
  temps_keys n' hn' := List.mem_cons_of_mem _ (h.temps_keys n' hn')
  memo n' info' hn' := by
    rcases Dict.get?_of_set hn' with rfl | hold
    · exact ⟨hinfo.addressable, hinfo.knows, hinfo.pos, hinfo.room⟩
    · have hf := h.memo n' info' hold
      exact ⟨hf.addressable, hf.knows, hf.pos, hf.room⟩
  temps n' info' hn' := by
    have hf := h.temps n' info' hn'
    exact ⟨hf.knows, hf.words⟩

/-- A result in registers is recorded, perhaps in place of an earlier one. -/
theorem setTemp (h : g.Tracked c) (n : Node) (hinfo : info.Held g c) :
    Tracked { g with temps := g.temps.set n info, shadow := ⟨n, false⟩ :: g.shadow } c where
  memo_keys := h.memo_keys
  placed_nodup := h.placed_nodup
  temps_keys n' hn' := by
    obtain ⟨info', hinfo'⟩ := Dict.contains_iff.1 hn'
    -- The node has the new entry, and every other one the entry that it had.
    rw [Dict.get?_set] at hinfo'
    split at hinfo'
    · rename_i heq
      rw [heq]
      exact List.mem_cons_self
    · exact List.mem_cons_of_mem _ (h.temps_keys n' (Dict.contains_iff.2 ⟨info', hinfo'⟩))
  memo n' info' hn' := by
    have hf := h.memo n' info' hn'
    exact ⟨hf.addressable, hf.knows, hf.pos, hf.room⟩
  temps n' info' hn' := by
    rcases Dict.get?_of_set hn' with rfl | hold
    · exact ⟨hinfo.knows, hinfo.words⟩
    · have hf := h.temps n' info' hold
      exact ⟨hf.knows, hf.words⟩

/-- The contract of a result in a slot may change. -/
theorem setContract (h : g.Tracked c) (hold : g.memo.get? n = some info) (ct : Contract) :
    Tracked { g with memo := g.memo.set n { info with contract := ct } } c where
  memo_keys n' := by
    have hkey := h.memo_keys n'
    simp only [Dict.contains, Dict.get?_set] at hkey ⊢
    by_cases hn : n' = n
    · subst hn
      rw [hold] at hkey
      simpa using hkey
    · simp [hn, hkey]
  placed_nodup := h.placed_nodup
  temps_keys := h.temps_keys
  memo n' info' hn' := by
    rcases Dict.get?_of_set hn' with rfl | hother
    · have hf := h.memo n info hold
      exact ⟨hf.addressable, hf.knows, hf.pos, hf.room⟩
    · have hf := h.memo n' info' hother
      exact ⟨hf.addressable, hf.knows, hf.pos, hf.room⟩
  temps n' info' hn' := by
    have hf := h.temps n' info' hn'
    exact ⟨hf.knows, hf.words⟩

end Generator.Tracked

namespace Above

theorem setMemo (h : Above b g) (hnew : g.memo.get? n = none) (info : Info) :
    Above b { g with memo := g.memo.set n info, shadow := ⟨n, true⟩ :: g.shadow } where
  keys := h.keys
  shadow := by
    obtain ⟨added, hadd⟩ := h.shadow
    exact ⟨⟨n, true⟩ :: added, by rw [hadd]; rfl⟩
  memo n' old hold := by
    obtain ⟨info', hinfo', hw⟩ := h.memo n' old hold
    refine ⟨info', ?_, hw⟩
    -- What has been there before is of another node.
    have hne : n' ≠ n := by
      rintro rfl
      rw [hnew] at hinfo'
      cases hinfo'
    exact (Dict.get?_set_ne _ info hne).trans hinfo'

theorem setTemp (h : Above b g) (n : Node) (info : Info) :
    Above b { g with temps := g.temps.set n info, shadow := ⟨n, false⟩ :: g.shadow } where
  keys := h.keys
  shadow := by
    obtain ⟨added, hadd⟩ := h.shadow
    exact ⟨⟨n, false⟩ :: added, by rw [hadd]; rfl⟩
  memo := h.memo

theorem setContract (h : Above b g) (hold : g.memo.get? n = some info) {ct : Contract}
    (hct : ct.Weakens info.contract) :
    Above b { g with memo := g.memo.set n { info with contract := ct } } where
  keys := h.keys
  shadow := h.shadow
  memo n' old hn' := by
    obtain ⟨info', hinfo', hw⟩ := h.memo n' old hn'
    by_cases hn : n' = n
    · subst hn
      cases hold.symm.trans hinfo'
      exact ⟨_, Dict.get?_set_self _ _ _, Info.Weakens.trans ⟨ct, rfl, hct⟩ hw⟩
    · exact ⟨info', (Dict.get?_set_ne _ _ hn).trans hinfo', hw⟩

end Above

/-! ### Cutting back -/

/-- Forgetting takes away the results in slots that the entries name. -/
theorem forget_memo_get? (l : List ShadowEntry) (g : Generator) (n : Node) :
    (l.foldl forget g).memo.get? n = if n ∈ placed l then none else g.memo.get? n := by
  induction l generalizing g with
  | nil => rfl
  | cons e rest ih =>
    obtain ⟨m, a⟩ := e
    rw [List.foldl_cons, ih]
    cases a with
    | false => rfl
    | true =>
      rw [placed_cons_true]
      show (if n ∈ placed rest then none else (g.memo.erase m).get? n) = _
      rw [Dict.get?_erase]
      by_cases hn : n = m
      · simp [hn]
      · simp [hn]

/-- Forgetting takes away the results in registers that the entries name. -/
theorem forget_temps_get? (l : List ShadowEntry) (g : Generator) (n : Node) :
    (l.foldl forget g).temps.get? n = if ⟨n, false⟩ ∈ l then none else g.temps.get? n := by
  induction l generalizing g with
  | nil => rfl
  | cons e rest ih =>
    obtain ⟨m, a⟩ := e
    rw [List.foldl_cons, ih]
    cases a with
    | true =>
      show (if _ then none else g.temps.get? n) = _
      simp
    | false =>
      show (if _ then none else (g.temps.erase m).get? n) = _
      rw [Dict.get?_erase]
      by_cases hn : n = m
      · simp [hn]
      · simp [hn]

/-- Forgetting touches no positions in the order of generation. -/
theorem forget_clock (l : List ShadowEntry) (g : Generator) :
    (l.foldl forget g).clock = g.clock := by
  induction l generalizing g with
  | nil => rfl
  | cons e rest ih =>
    rw [List.foldl_cons, ih]
    unfold forget
    split <;> rfl

/-- What is left when the shadow stack is cut back to where it was in `b`. -/
structure CutBack (b g g' : Generator) : Prop where
  heap : g'.heap = g.heap
  module : g'.module = g.module
  clock : g'.clock = g.clock
  shadow : g'.shadow = b.shadow
  memo : ∃ added, g.shadow = added ++ b.shadow ∧
    ∀ n, g'.memo.get? n = if n ∈ placed added then none else g.memo.get? n
  temps : ∃ added, g.shadow = added ++ b.shadow ∧
    ∀ n, g'.temps.get? n = if ⟨n, false⟩ ∈ added then none else g.temps.get? n

theorem Above.cutBack (h : Above b g) : CutBack b g (clear b.shadow.length g) := by
  obtain ⟨added, hadd⟩ := h.shadow
  have habove : g.shadow.length - b.shadow.length = added.length := by
    rw [hadd, List.length_append]
    omega
  have htake : g.shadow.take added.length = added := by rw [hadd, List.take_left]
  have hdrop : g.shadow.drop added.length = b.shadow := by rw [hadd, List.drop_left]
  obtain ⟨hheap, hmodule, -⟩ := forget_frame added g
  unfold clear
  simp only [habove, htake, hdrop]
  exact ⟨hheap, hmodule, forget_clock added g, rfl, ⟨added, hadd, forget_memo_get? added g⟩,
    added, hadd, forget_temps_get? added g⟩

namespace CutBack

theorem get?_memo (h : CutBack b g g') (hn : g'.memo.get? n = some info) :
    g.memo.get? n = some info := by
  obtain ⟨added, -, hmemo⟩ := h.memo
  rw [hmemo] at hn
  split at hn
  · cases hn
  · exact hn

theorem get?_temps (h : CutBack b g g') (hn : g'.temps.get? n = some info) :
    g.temps.get? n = some info := by
  obtain ⟨added, -, htemps⟩ := h.temps
  rw [htemps] at hn
  split at hn
  · cases hn
  · exact hn

/-- What is forgotten has its entry above those of `b`, and only there. -/
theorem tracked (h : CutBack b g g') (hg : g.Tracked c) : g'.Tracked c where
  memo_keys n := by
    obtain ⟨added, hadd, hmemo⟩ := h.memo
    have hkey := hg.memo_keys n
    have hnodup := hg.placed_nodup
    rw [hadd, placed_append] at hkey hnodup
    -- A node has its entry above those of `b` or among them, but not in both places.
    have hapart := List.nodup_append.1 hnodup
    rw [h.shadow, Dict.contains, hmemo]
    by_cases hn : n ∈ placed added
    · simp only [hn, if_true, Option.isSome_none, Bool.false_eq_true, false_iff]
      exact fun hold => hapart.2.2 n hn n hold rfl
    · simpa [hn, Dict.contains] using hkey
  placed_nodup := by
    obtain ⟨added, hadd, -⟩ := h.memo
    have hnodup := hg.placed_nodup
    rw [hadd, placed_append] at hnodup
    rw [h.shadow]
    exact (List.nodup_append.1 hnodup).2.1
  temps_keys n hn := by
    obtain ⟨added, hadd, htemps⟩ := h.temps
    obtain ⟨info, hinfo⟩ := Dict.contains_iff.1 hn
    have hmem := hg.temps_keys n (Dict.contains_iff.2 ⟨info, h.get?_temps hinfo⟩)
    rw [hadd, List.mem_append] at hmem
    rw [h.shadow]
    -- With an entry above, the result would have been forgotten.
    refine hmem.resolve_left fun hnew => ?_
    rw [htemps, if_pos hnew] at hinfo
    cases hinfo
  memo n info hn := by
    have hf := hg.memo n info (h.get?_memo hn)
    refine ⟨hf.addressable, hf.knows, ?_, ?_⟩
    · rw [h.heap]
      exact hf.pos
    · rw [h.heap, h.module]
      exact hf.room
  temps n info hn := by
    have hf := hg.temps n info (h.get?_temps hn)
    refine ⟨hf.knows, ?_⟩
    rw [h.heap]
    exact hf.words

/-- What was recorded in `b` is not forgotten. -/
theorem above (h : CutBack b g g') (hg : g.Tracked c) (hb : Above b g) : Above b g' where
  keys := hb.keys
  shadow := ⟨[], h.shadow⟩
  memo n old hold := by
    obtain ⟨info, hinfo, hw⟩ := hb.memo n old hold
    obtain ⟨added, hadd, hmemo⟩ := h.memo
    refine ⟨info, ?_, hw⟩
    have hnodup := hg.placed_nodup
    rw [hadd, placed_append] at hnodup
    -- The only entry of the node is one of `b`, so it is not among those that go.
    have hbelow := hb.keys n (Dict.contains_iff.2 ⟨old, hold⟩)
    rw [hmemo, if_neg fun hnew => (List.nodup_append.1 hnodup).2.2 n hnew n hbelow rfl]
    exact hinfo

end CutBack

end TreeMachine.Compile
