import TreeMachine.Proofs.Collect.Search

/-! # What a finished marking has seen

  In any heap, marking that comes to its end is a stretch of a search.  Nothing is asked of
  the heap: reads that fail end the marking.  Main statement: a marking within any depth that
  ends has seen its target.
-/

namespace TreeMachine.Collect

variable {h : Heap} {pool : Pool} {P : Item → Prop} {F F' : Found} {i j : Item}
  {mark : Target → MarkM Unit} {depth : Nat}

/-- References of items that satisfy `P` stay among them. -/
def Closed (h : Heap) (pool : Pool) (P : Item → Prop) : Prop :=
  ∀ {i j}, P i → Refers h pool i j → P j

/-- The target may be marked: all it refers to may be met. -/
def Permitted (h : Heap) (P : Item → Prop) : Target → Prop
  | .value ws t => ∀ i, ValueRefers h ws t i → P i
  | .object addr t => P (.object addr t)
  | .type t => t ≠ 0 → P (.type t)
  | .node n => n ≠ 0 → P (.node n)
  | .function id => P (.function id)

/-- All that the target refers to has been seen. -/
def Done (h : Heap) (pool : Pool) (F : Found) : Target → Prop
  | .value ws t => ∀ i, ValueRefers h ws t i → Seen h pool F i
  | .object addr t => Seen h pool F (.object addr t)
  | .type t => t ≠ 0 → Seen h pool F (.type t)
  | .node n => n ≠ 0 → Seen h pool F (.node n)
  | .function id => Seen h pool F (.function id)

/-- If the operation comes to its end, it has been a stretch of a search that ends with `T`. -/
def Walks (h : Heap) (pool : Pool) (P : Item → Prop) (x : MarkM Unit) (F : Found)
    (T : Found → Prop) : Prop :=
  Yields x F (fun _ F' => Search h pool P F F' ∧ T F') (fun _ _ => True)

/-- The operation marks every target that may be marked. -/
def Traverses (h : Heap) (pool : Pool) (P : Item → Prop) (mark : Target → MarkM Unit) : Prop :=
  ∀ (target : Target) (F : Found), F.Good h pool → Permitted h P target →
    Walks h pool P (mark target) F (Done h pool · target)

theorem Search.done (hs : Search h pool P F F') {target : Target} (hd : Done h pool F target) :
    Done h pool F' target := by
  cases target with
  | value ws t => exact fun i hi => hs.seen (hd i hi)
  | object addr t => exact hs.seen (i := .object addr t) hd
  | type t => exact fun h0 => hs.seen (i := .type t) (hd h0)
  | node n => exact fun h0 => hs.seen (i := .node n) (hd h0)
  | function id => exact hs.seen (i := .function id) hd

theorem Walks.nothing (hF : F.Good h pool) {T : Found → Prop} (hT : T F) :
    Walks h pool P (pure ()) F T :=
  ⟨.refl hF, hT⟩

/-- What holds at the end holds if something else does. -/
theorem Walks.guarded {x : MarkM Unit} {T : Found → Prop} {q : Prop}
    (hx : Walks h pool P x F T) : Walks h pool P x F (fun F' => q → T F') := by
  refine Yields.imp hx ?_
  rintro _ F' ⟨hs, hT⟩
  exact ⟨hs, fun _ => hT⟩

/-- One stretch after the other. -/
theorem Walks.andThen {x y : MarkM Unit} {T U : Found → Prop} (hx : Walks h pool P x F T)
    (hy : ∀ F', Search h pool P F F' → T F' → Walks h pool P y F' U) :
    Walks h pool P (do x; y) F U := by
  refine Yields.bind (hx.imp ?_)
  rintro _ F' ⟨hs, hT⟩
  exact (hy F' hs hT).imp fun _ F'' ⟨hs', hU⟩ => ⟨hs.trans hs', hU⟩

/-- A stateless step that may end the marking. -/
theorem Walks.read {α : Type} {x : Except Fault α} {f : α → MarkM Unit} {T : Found → Prop}
    (hf : ∀ a, x = .ok a → Walks h pool P (f a) F T) : Walks h pool P (liftM x >>= f) F T :=
  Yields.bind_read hf fun _ _ => trivial

theorem Walks.throw {f : Fault} {T : Found → Prop} :
    Walks h pool P (MonadExcept.throw f) F T :=
  trivial

theorem markAll_walks (hm : Traverses h pool P mark) (targets : List Target)
    (hF : F.Good h pool) (hok : ∀ t ∈ targets, Permitted h P t) :
    Walks h pool P (markAll mark targets) F (fun F' => ∀ t ∈ targets, Done h pool F' t) := by
  induction targets generalizing F with
  | nil => exact Walks.nothing hF fun t ht => (nomatch ht)
  | cons target rest ih =>
    refine (hm target F hF (hok target List.mem_cons_self)).andThen fun F₁ hs hdone => ?_
    refine (ih hs.good fun t ht => hok t (List.mem_cons_of_mem _ ht)).imp ?_
    rintro _ F' ⟨hs', hall⟩
    refine ⟨hs', fun t ht => ?_⟩
    rcases List.mem_cons.1 ht with rfl | ht
    · exact hs'.done hdone
    · exact hall t ht

/-! ### Values -/

/-- Only the reference that the kind of a type asks for can be there. -/
theorem ValueRefers.of_plain {ws : List UInt64} {t : Ty} {k : Kind}
    (hk : h.kind t = .ok (some k)) (hplain : k = .integer ∨ k = .doesNotReturn) :
    ¬ ValueRefers h ws t i := by
  intro hv
  rcases hplain with rfl | rfl <;> cases hv <;> simp_all

theorem ValueRefers.of_concat {ws : List UInt64} {t : Ty}
    (hk : h.kind t = .ok (some .concatenation)) (hv : ValueRefers h ws t i) :
    ∃ before m after, h.members t = .ok (before ++ m :: after) ∧
      ValueRefers h ((ws.drop (before.map h.width).sum).take (h.width m)) m i := by
  cases hv with
  | member _ hm hv => exact ⟨_, _, _, hm, hv⟩
  | _ => simp_all

theorem ValueRefers.of_pointer {ws : List UInt64} {t elem : Ty} {addr : Addr}
    (hk : h.kind t = .ok (some .pointer)) (he : h.elem t = .ok elem) (hw : ws[0]? = some addr)
    (hv : ValueRefers h ws t i) :
    i = .object addr elem ∧ addr ≠ 0 ∧ addr &&& Code.frameBit = 0 := by
  cases hv <;> simp_all

theorem ValueRefers.of_dynamic {ws : List UInt64} {t u : Ty} {addr : Addr}
    (hk : h.kind t = .ok (some .dynamic)) (hw : ws[0]? = some u) (hw' : ws[1]? = some addr)
    (hv : ValueRefers h ws t i) :
    u ≠ 0 ∧ (i = .type u ∨ (i = .object addr u ∧ addr ≠ 0)) := by
  cases hv <;> simp_all

theorem ValueRefers.of_ast {ws : List UInt64} {t : Ty} {n : Node}
    (hk : h.kind t = .ok (some .ast)) (hw : ws[0]? = some n) (hv : ValueRefers h ws t i) :
    i = .node n ∧ n ≠ 0 := by
  cases hv <;> simp_all

theorem ValueRefers.of_type {ws : List UInt64} {t u : Ty}
    (hk : h.kind t = .ok (some .type)) (hw : ws[0]? = some u) (hv : ValueRefers h ws t i) :
    i = .type u ∧ u ≠ 0 := by
  cases hv <;> simp_all

theorem ValueRefers.of_function {ws : List UInt64} {t : Ty} {id : UInt64}
    (hk : h.kind t = .ok (some .function)) (hw : ws[0]? = some id)
    (hv : ValueRefers h ws t i) : i = .function id := by
  cases hv <;> simp_all

theorem of_wordAt {ws : List UInt64} {k : Nat} {w : UInt64} (hw : wordAt ws k = .ok w) :
    ws[k]? = some w := by
  unfold wordAt at hw
  split at hw
  · rename_i w' heq
    cases hw
    exact heq
  · cases hw

theorem markMembers_walks (hm : Traverses h pool P mark) {ts : List Ty} {ws : List UInt64}
    (hF : F.Good h pool)
    (hok : ∀ before m after, ts = before ++ m :: after → ∀ i,
      ValueRefers h ((ws.drop (before.map h.width).sum).take (h.width m)) m i → P i) :
    Walks h pool P (markMembers h mark ts ws) F (fun F' => ∀ before m after,
      ts = before ++ m :: after → ∀ i,
      ValueRefers h ((ws.drop (before.map h.width).sum).take (h.width m)) m i →
      Seen h pool F' i) := by
  induction ts generalizing ws F with
  | nil =>
    refine Walks.nothing hF fun before m after heq => ?_
    simp at heq
  | cons t rest ih =>
    refine Walks.read fun n hn => ?_
    rw [← Heap.width_of_size hn]
    by_cases hlen : ws.length < h.width t
    · rw [if_pos hlen]
      exact Yields.bind trivial
    · rw [if_neg hlen]
      refine (hm (.value (ws.take (h.width t)) t) F hF fun i hv => hok [] t rest rfl i hv).andThen
        fun F₁ hs hdone => ?_
      refine (@ih F₁ (ws.drop (h.width t)) hs.good fun before m after heq i hv => ?_).imp ?_
      · refine hok (t :: before) m after (by rw [heq]; rfl) i ?_
        rwa [List.map_cons, List.sum_cons, ← List.drop_drop]
      · rintro _ F' ⟨hs', hall⟩
        refine ⟨hs', fun before m after heq i hv => ?_⟩
        cases before with
        | nil =>
          cases heq
          exact hs'.seen (hdone i hv)
        | cons b before =>
          cases heq
          refine hall before m after rfl i ?_
          rwa [List.map_cons, List.sum_cons, ← List.drop_drop] at hv

theorem markDynamic_walks (hm : Traverses h pool P mark) {ws : List UInt64} {t : Ty}
    (hF : F.Good h pool) (hk : h.kind t = .ok (some .dynamic))
    (hok : Permitted h P (.value ws t)) :
    Walks h pool P (markValue h mark ws t) F (Done h pool · (.value ws t)) := by
  refine Yields.read_ok hk (Walks.read fun u hu => Walks.read fun addr haddr => ?_)
  have hw := of_wordAt hu
  have hw' := of_wordAt haddr
  by_cases hu0 : u = 0
  · rw [if_pos hu0]
    by_cases ha : addr = 0
    · rw [if_neg (not_not_intro ha)]
      exact Walks.nothing hF fun i hv => absurd hu0 (hv.of_dynamic hk hw hw').1
    · rw [if_pos ha]
      exact Walks.throw
  · rw [if_neg hu0]
    refine (hm (.type u) F hF fun _ => hok _ (.dynamicType hk hw hu0)).andThen
      fun F₁ hs hdone => ?_
    by_cases ha : addr = 0
    · rw [if_neg (not_not_intro ha)]
      refine Walks.nothing hs.good fun i hv => ?_
      rcases (hv.of_dynamic hk hw hw').2 with rfl | ⟨rfl, h0⟩
      · exact hdone hu0
      · exact absurd ha h0
    · rw [if_pos ha]
      refine (hm (.object addr u) F₁ hs.good (hok _ (.dynamicObject hk hw hu0 hw' ha))).imp ?_
      rintro _ F' ⟨hs', hseen⟩
      refine ⟨hs', fun i hv => ?_⟩
      rcases (hv.of_dynamic hk hw hw').2 with rfl | ⟨rfl, -⟩
      · exact hs'.seen (hdone hu0)
      · exact hseen

theorem markPointer_walks (hm : Traverses h pool P mark) {ws : List UInt64} {t : Ty}
    (hF : F.Good h pool) (hk : h.kind t = .ok (some .pointer))
    (hok : Permitted h P (.value ws t)) :
    Walks h pool P (markValue h mark ws t) F (Done h pool · (.value ws t)) := by
  refine Yields.read_ok hk (Walks.read fun addr haddr => ?_)
  have hw := of_wordAt haddr
  split
  · rename_i hcond
    refine Walks.read fun elem he => ?_
    refine (hm (.object addr elem) F hF (hok _ (.pointer hk hw hcond.1 hcond.2 he))).imp ?_
    rintro _ F' ⟨hs, hseen⟩
    refine ⟨hs, fun i hv => ?_⟩
    rw [(hv.of_pointer hk he hw).1]
    exact hseen
  · rename_i hcond
    refine Walks.nothing hF fun i hv => ?_
    cases hv <;> simp_all

/-- Marking a value, whatever the kind of its type. -/
theorem markValue_walks (hm : Traverses h pool P mark) {ws : List UInt64} {t : Ty}
    (hF : F.Good h pool) (hok : Permitted h P (.value ws t)) :
    Walks h pool P (markValue h mark ws t) F (Done h pool · (.value ws t)) := by
  cases hk : h.kind t with
  | error f =>
    refine Walks.read fun k hk' => ?_
    rw [hk] at hk'
    cases hk'
  | ok kind =>
    cases kind with
    | none =>
      refine Yields.read_ok hk (Walks.nothing hF fun i hv => ?_)
      cases hv <;> simp_all
    | some k =>
      cases k with
      | integer => exact Yields.read_ok hk (Walks.nothing hF fun i hv =>
          absurd hv (ValueRefers.of_plain hk (Or.inl rfl)))
      | doesNotReturn => exact Yields.read_ok hk (Walks.nothing hF fun i hv =>
          absurd hv (ValueRefers.of_plain hk (Or.inr rfl)))
      | pointer => exact markPointer_walks hm hF hk hok
      | dynamic => exact markDynamic_walks hm hF hk hok
      | concatenation =>
        refine Yields.read_ok hk (Walks.read fun ms hms => ?_)
        refine (markMembers_walks hm hF fun before m after heq i hv =>
          hok i (.member hk (hms.trans (congrArg _ heq)) hv)).imp ?_
        rintro _ F' ⟨hs, hall⟩
        refine ⟨hs, fun i hv => ?_⟩
        obtain ⟨before, m, after, hm', hv'⟩ := hv.of_concat hk
        rw [hms] at hm'
        exact hall before m after (Except.ok.inj hm') i hv'
      | ast =>
        refine Yields.read_ok hk (Walks.read fun n hn => ?_)
        have hw := of_wordAt hn
        refine (hm (.node n) F hF fun h0 => hok _ (.ast hk hw h0)).imp ?_
        rintro _ F' ⟨hs, hdone⟩
        refine ⟨hs, fun i hv => ?_⟩
        obtain ⟨rfl, h0⟩ := hv.of_ast hk hw
        exact hdone h0
      | type =>
        refine Yields.read_ok hk (Walks.read fun u hu => ?_)
        have hw := of_wordAt hu
        refine (hm (.type u) F hF fun h0 => hok _ (.type hk hw h0)).imp ?_
        rintro _ F' ⟨hs, hdone⟩
        refine ⟨hs, fun i hv => ?_⟩
        obtain ⟨rfl, h0⟩ := hv.of_type hk hw
        exact hdone h0
      | function =>
        refine Yields.read_ok hk (Walks.read fun id hid => ?_)
        have hw := of_wordAt hid
        refine (hm (.function id) F hF (hok _ (.function hk hw))).imp ?_
        rintro _ F' ⟨hs, hdone⟩
        refine ⟨hs, fun i hv => ?_⟩
        cases hv.of_function hk hw
        exact hdone

/-! ### Entering items -/

theorem lt_of_word {addr : Addr} {w : UInt64} (hw : h.word addr = .ok w) :
    addr ≠ 0 ∧ addr.toNat < h.arena.words.size := by
  obtain ⟨_, hcheck, hw⟩ := of_except_bind_eq_ok (show h.arena.word addr = .ok w from hw)
  refine ⟨?_, ?_⟩
  · rintro rfl
    rw [Arena.check, if_pos (Or.inl rfl)] at hcheck
    cases hcheck
  · by_contra hge
    rw [Array.getElem?_eq_none (by omega)] at hw
    cases hw

theorem lt_of_kind {t : Ty} {kind : Option Kind} (h0 : t ≠ 0) (hk : h.kind t = .ok kind) :
    t.toNat < h.arena.words.size := by
  rw [Heap.kind, if_neg h0] at hk
  obtain ⟨w, hw, -⟩ := of_except_bind_eq_ok hk
  exact (lt_of_word hw).2

theorem lt_of_tag {n : Node} {tag : Tag} (ht : h.tag n = .ok tag) :
    n.toNat < h.arena.words.size := by
  obtain ⟨w, hw, -⟩ := of_except_bind_eq_ok ht
  exact (lt_of_word hw).2

theorem lt_of_slice {addr : Addr} {n : UInt64} {ws : List UInt64} (h0 : n ≠ 0)
    (hws : h.slice addr n = .ok ws) : addr.toNat < h.arena.words.size := by
  obtain ⟨_, hcheck, hws⟩ := of_except_bind_eq_ok (show h.arena.slice addr n = .ok ws from hws)
  have hpos := Arena.toNat_pos_iff.2 h0
  unfold Arena.check at hcheck
  split at hcheck
  · cases hcheck
  rename_i hnot
  split at hws
  · -- The sum does not wrap, and it does not pass the limit.
    rename_i hle
    rw [not_or, UInt64.lt_iff_toNat_lt, Arena.limit, UInt64.toNat_ofNat'] at hnot
    rw [UInt64.le_iff_toNat_le, UInt64.toNat_add] at hle
    rw [UInt64.toNat_add] at hnot
    have := Nat.mod_le h.arena.words.size (2 ^ 64)
    have := addr.toNat_lt
    have := n.toNat_lt
    omega
  · cases hws

/-- Looking for the region of an item, and entering the item if the region is new. -/
theorem Walks.enter (hF : F.Good h pool) {r : Region} (hi : P i) (ho : Occupies h i r)
    {body : MarkM Unit}
    (hbody : (∀ x ∈ F.living.regions, x.addr ≠ r.addr) → Yields body (F.add r) (fun _ F' =>
      r.addr.toNat < h.arena.words.size ∧ Search h pool P (F.add r) F' ∧ i.Readable h ∧
        ∀ j, Refers h pool i j → Seen h pool F' j) (fun _ _ => True)) :
    Walks h pool P (do if ← foundBefore r.addr r.size then return () else body) F
      (Seen h pool · i) := by
  refine Yields.bind ((foundBefore_yields r.addr r.size F).mono ?_ fun _ _ _ => trivial)
  rintro known F₁ ⟨hmem, ⟨rfl, rfl⟩ | ⟨rfl, hnew, rfl⟩⟩
  · exact ⟨.refl hF, ho.seen hmem⟩
  · rw [if_neg Bool.false_ne_true]
    refine (hbody hnew).imp ?_
    rintro _ F' ⟨hstart, hs, hread, hall⟩
    refine ⟨hs.enter hF hi ho hread hnew hstart hall, ?_⟩
    exact ho.seen (hs.kept _ (Found.mem_add.2 (Or.inl rfl)))

/-- The same for an item that starts at a word of the arena. -/
theorem Walks.enter_at (hF : F.Good h pool) {r : Region} (hi : P i) (ho : Occupies h i r)
    (hstart : r.addr.toNat < h.arena.words.size) {body : MarkM Unit}
    (hbody : (F.add r).Good h pool → Walks h pool P body (F.add r) fun F' =>
      i.Readable h ∧ ∀ j, Refers h pool i j → Seen h pool F' j) :
    Walks h pool P (do if ← foundBefore r.addr r.size then return () else body) F
      (Seen h pool · i) :=
  .enter hF hi ho fun hnew =>
    (hbody (hF.add hnew hstart).1).imp fun _ _ ⟨hs, hall⟩ => ⟨hstart, hs, hall⟩

theorem markObject_walks (hm : Traverses h pool P mark) (hx : Closed h pool P)
    (hF : F.Good h pool) {addr : Addr} {t : Ty} (hp : P (.object addr t)) :
    Walks h pool P (markObject h mark addr t) F (Seen h pool · (.object addr t)) := by
  refine Walks.read fun n hn => ?_
  by_cases h0 : n = 0
  · rw [if_pos h0]
    refine Walks.nothing hF fun r ho => ?_
    cases ho with
    | object hn' h0' => cases hn.symm.trans hn'; exact absurd h0 h0'
  · rw [if_neg h0]
    refine Walks.enter hF hp (.object hn h0) fun hnew => ?_
    refine Yields.bind_read (fun ws hws => ?_) fun _ _ => trivial
    have hstart := lt_of_slice h0 hws
    have hgood := (hF.add hnew hstart).1
    refine (hm (.value ws t) _ hgood fun i hv => hx hp (.object hn h0 hws hv)).imp ?_
    rintro _ F' ⟨hs, hdone⟩
    refine ⟨hstart, hs, ⟨n, ws, hn, hws⟩, fun j hij => ?_⟩
    cases hij with
    | object hn' _ hws' hv =>
      cases hn.symm.trans hn'
      cases hws.symm.trans hws'
      exact hdone j hv

theorem markType_walks (hm : Traverses h pool P mark) (hx : Closed h pool P)
    (hF : F.Good h pool) {t : Ty} (hp : t ≠ 0 → P (.type t)) :
    Walks h pool P (markType h mark t) F (fun F' => t ≠ 0 → Seen h pool F' (.type t)) := by
  by_cases h0 : t = 0
  · rw [markType, if_pos h0]
    exact Walks.nothing hF fun hne => absurd h0 hne
  rw [markType, if_neg h0]
  have hpt := hp h0
  refine Walks.read fun n hn => ?_
  obtain ⟨kind, hk, -⟩ := of_except_bind_eq_ok hn
  have hstart := lt_of_kind h0 hk
  refine Walks.guarded (Walks.enter_at hF hpt (.type hn) hstart fun hgood => ?_)
  refine Yields.read_ok hk ?_
  by_cases hpointer : kind = some .pointer
  · subst hpointer
    refine Walks.read fun elem he => ?_
    refine (hm (.type elem) _ hgood fun h0 => hx hpt (.elem hk he h0)).imp ?_
    rintro _ F' ⟨hs, hdone⟩
    have hread : Item.Readable h (.type t) := by
      intro hk'
      cases hk.symm.trans hk'
    refine ⟨hs, hread, fun j hij => ?_⟩
    cases hij with
    | elem _ he' h0 => cases he.symm.trans he'; exact hdone h0
    | member hk' _ _ _ => cases hk.symm.trans hk'
  by_cases hconcat : kind = some .concatenation
  · subst hconcat
    refine Walks.read fun ms hms => ?_
    refine (markAll_walks hm (ms.map .type) hgood ?_).imp ?_
    · intro target htarget
      obtain ⟨m, hmem, rfl⟩ := List.mem_map.1 htarget
      exact fun h0 => hx hpt (.member hk hms hmem h0)
    · rintro _ F' ⟨hs, hdone⟩
      refine ⟨hs, fun _ => ⟨ms, hms⟩, fun j hij => ?_⟩
      cases hij with
      | elem hk' _ _ => cases hk.symm.trans hk'
      | member _ hms' hmem h0 =>
        cases hms.symm.trans hms'
        exact hdone _ (List.mem_map_of_mem hmem) h0
  -- Other types refer to nothing.
  have hnone : ∀ j, ¬ Refers h pool (.type t) j := by
    intro j hij
    cases hij with
    | elem hk' _ _ => cases hk.symm.trans hk'; exact hpointer rfl
    | member hk' _ _ _ => cases hk.symm.trans hk'; exact hconcat rfl
  split
  · exact absurd rfl hpointer
  · exact absurd rfl hconcat
  · refine Walks.nothing hgood ⟨fun hk' => ?_, fun j hij => absurd hij (hnone j)⟩
    cases hk.symm.trans hk'
    exact absurd rfl hconcat

/-! ### Nodes -/

theorem markFields_walks (hm : Traverses h pool P mark) {n : Node} {k count : Nat}
    (hF : F.Good h pool)
    (hok : ∀ m : Nat, k ≤ m → m < k + count → ∀ e, h.field n m = .ok e → e ≠ 0 → P (.node e)) :
    Walks h pool P (markFields h mark n k count) F (fun F' => ∀ m : Nat, k ≤ m → m < k + count →
      ∀ e, h.field n m = .ok e → e ≠ 0 → Seen h pool F' (.node e)) := by
  induction count generalizing k F with
  | zero => exact Walks.nothing hF fun m hle hlt => absurd hlt (by omega)
  | succ count ih =>
    refine Walks.read fun e he => ?_
    refine (hm (.node e) F hF (hok k (Nat.le_refl _) (by omega) e he)).andThen
      fun F₁ hs hdone => ?_
    refine (ih hs.good fun m hle hlt => hok m (by omega) (by omega)).imp ?_
    rintro _ F' ⟨hs', hall⟩
    refine ⟨hs', fun m hle hlt e' he' h0 => ?_⟩
    by_cases hmk : m = k
    · subst hmk
      cases he.symm.trans he'
      exact hs'.seen (hdone h0)
    · exact hall m (by omega) (by omega) e' he' h0

/-- All that a node refers to has been seen, apart from the node before it. -/
def PayloadSeen (h : Heap) (pool : Pool) (n : Node) (F : Found) : Prop :=
  ∀ j, Refers h pool (.node n) j →
    (∃ before, h.preceding n = .ok before ∧ before ≠ 0 ∧ j = .node before) ∨ Seen h pool F j

theorem markLiteral_walks (hm : Traverses h pool P mark) (hx : Closed h pool P)
    (hF : F.Good h pool) {n : Node} (hp : P (.node n)) (ht : h.tag n = .ok .literal) :
    Walks h pool P (do
      let (t, object) ← h.literalValue n
      mark (.type t)
      if object ≠ 0 then mark (.object object t)) F (PayloadSeen h pool n) := by
  refine Walks.read fun value hv => ?_
  obtain ⟨t, object⟩ := value
  -- The references of a literal are its type and its object.
  have hall : ∀ F', (t ≠ 0 → Seen h pool F' (.type t)) →
      (object ≠ 0 → Seen h pool F' (.object object t)) → PayloadSeen h pool n F' := by
    intro F' hseen hseen' j hij
    cases hij with
    | preceding _ hb h0 => exact Or.inl ⟨_, hb, h0, rfl⟩
    | literalType _ hv' h0 => cases hv.symm.trans hv'; exact Or.inr (hseen h0)
    | literalObject _ hv' h0 => cases hv.symm.trans hv'; exact Or.inr (hseen' h0)
    | vector ht' _ _ => cases ht.symm.trans ht'
    | field ht' hl _ _ _ _ => cases ht.symm.trans ht'; exact absurd rfl hl
  refine (hm (.type t) F hF fun h0 => hx hp (.literalType ht hv h0)).andThen
    fun F₁ hs hdone => ?_
  by_cases h0 : object = 0
  · rw [if_neg (not_not_intro h0)]
    exact Walks.nothing hs.good (hall F₁ hdone fun hne => absurd h0 hne)
  · rw [if_pos h0]
    refine (hm (.object object t) F₁ hs.good (hx hp (.literalObject ht hv h0))).imp ?_
    rintro _ F' ⟨hs', hseen⟩
    exact ⟨hs', hall F' (fun hne => hs'.seen (hdone hne)) fun _ => hseen⟩

theorem lt_of_vectorWords {vec : Addr} {n : UInt64} (hn : h.vectorWords vec = .ok n) :
    vec.toNat < h.arena.words.size := by
  obtain ⟨w, hw, -⟩ := of_except_bind_eq_ok hn
  obtain ⟨h0, hlt⟩ := lt_of_word hw
  have hpos := Arena.toNat_pos_iff.2 h0
  rw [UInt64.toNat_add] at hlt hpos
  have := vec.toNat_lt
  have hone : (1 : UInt64).toNat = 1 := rfl
  omega

theorem markBlock_walks (hm : Traverses h pool P mark) (hx : Closed h pool P)
    (hF : F.Good h pool) {n : Node} (hp : P (.node n)) (ht : h.tag n = .ok .block) :
    Walks h pool P (do
      let vec ← h.vector n
      if vec = 0 then return ()
      if ← foundBefore vec (← h.vectorWords vec) then return ()
      markAll mark ((← h.elements n).map .node)) F (PayloadSeen h pool n) := by
  refine Walks.read fun vec hv => ?_
  have hall : ∀ F', (vec ≠ 0 → Seen h pool F' (.vector vec)) → PayloadSeen h pool n F' := by
    intro F' hseen j hij
    cases hij with
    | preceding _ hb h0 => exact Or.inl ⟨_, hb, h0, rfl⟩
    | literalType ht' _ _ => cases ht.symm.trans ht'
    | literalObject ht' _ _ => cases ht.symm.trans ht'
    | vector _ hv' h0 => cases hv.symm.trans hv'; exact Or.inr (hseen h0)
    | field ht' _ hb _ _ _ => cases ht.symm.trans ht'; exact absurd rfl hb
  by_cases h0 : vec = 0
  · rw [if_pos h0]
    exact Walks.nothing hF (hall F fun hne => absurd h0 hne)
  rw [if_neg h0]
  have hpv : P (.vector vec) := hx hp (.vector ht hv h0)
  refine Walks.read fun size hsize => ?_
  refine (Walks.enter_at hF hpv (.vector hsize) (lt_of_vectorWords hsize) fun hgood => ?_).imp
    fun _ F' ⟨hs, hseen⟩ => ⟨hs, hall F' fun _ => hseen⟩
  refine Walks.read fun es helements => ?_
  obtain ⟨length, hlength, hes⟩ : ∃ length, h.word vec = .ok length ∧
      h.slice (vec + Heap.vectorHeader) length = .ok es := by
    rw [Heap.elements, except_bind_ok hv, if_neg h0] at helements
    obtain ⟨length, hlength, hes⟩ := of_except_bind_eq_ok helements
    split at hes
    · cases hes
    · exact ⟨length, hlength, hes⟩
  refine (markAll_walks hm (es.map .node) hgood ?_).imp ?_
  · intro target htarget
    obtain ⟨e, he, rfl⟩ := List.mem_map.1 htarget
    exact fun h0 => hx hpv (.element hsize hlength hes he h0)
  · rintro _ F' ⟨hs, hdone⟩
    refine ⟨hs, trivial, fun j hij => ?_⟩
    cases hij with
    | element _ hl' hes' he h0 =>
      cases hlength.symm.trans hl'
      cases hes.symm.trans hes'
      exact hdone _ (List.mem_map_of_mem he) h0

/-- Marking the payload of a node, whatever its tag. -/
theorem markPayload_walks (hm : Traverses h pool P mark) (hx : Closed h pool P)
    (hF : F.Good h pool) {n : Node} (hp : P (.node n)) {tag : Tag} (ht : h.tag n = .ok tag) :
    Walks h pool P (do
      match ← h.tag n with
      | .literal =>
        let (t, object) ← h.literalValue n
        mark (.type t)
        if object ≠ 0 then mark (.object object t)
      | .block =>
        let vec ← h.vector n
        if vec = 0 then return ()
        if ← foundBefore vec (← h.vectorWords vec) then return ()
        markAll mark ((← h.elements n).map .node)
      | tag => markFields h mark n 0 tag.schema.nodeFields) F (PayloadSeen h pool n) := by
  refine Yields.read_ok ht ?_
  by_cases hl : tag = .literal
  · subst hl
    exact markLiteral_walks hm hx hF hp ht
  by_cases hb : tag = .block
  · subst hb
    exact markBlock_walks hm hx hF hp ht
  have hgoal : Walks h pool P (markFields h mark n 0 tag.schema.nodeFields) F
      (PayloadSeen h pool n) := by
    refine (markFields_walks hm hF fun m _ hlt e he h0 =>
      hx hp (.field ht hl hb (by omega) he h0)).imp ?_
    rintro _ F' ⟨hs, hdone⟩
    refine ⟨hs, fun j hij => ?_⟩
    cases hij with
    | preceding _ hb h0 => exact Or.inl ⟨_, hb, h0, rfl⟩
    | literalType ht' _ _ => cases ht.symm.trans ht'; exact absurd rfl hl
    | literalObject ht' _ _ => cases ht.symm.trans ht'; exact absurd rfl hl
    | vector ht' _ _ => cases ht.symm.trans ht'; exact absurd rfl hb
    | field ht' _ _ hlt he h0 =>
      cases ht.symm.trans ht'
      exact Or.inr (hdone _ (Nat.zero_le _) (by omega) _ he h0)
  cases tag with
  | literal => exact absurd rfl hl
  | block => exact absurd rfl hb
  | _ => exact hgoal

theorem markNode_walks (hm : Traverses h pool P mark) (hx : Closed h pool P)
    (hF : F.Good h pool) {n : Node} (hp : n ≠ 0 → P (.node n)) :
    Walks h pool P (markNode h mark n) F (fun F' => n ≠ 0 → Seen h pool F' (.node n)) := by
  by_cases h0 : n = 0
  · rw [markNode, if_pos h0]
    exact Walks.nothing hF fun hne => absurd h0 hne
  rw [markNode, if_neg h0]
  have hpn := hp h0
  refine Walks.read fun size hsize => ?_
  obtain ⟨tag, ht, -⟩ := of_except_bind_eq_ok hsize
  refine Walks.guarded (Walks.enter_at hF hpn (.node hsize) (lt_of_tag ht) fun hgood => ?_)
  refine Walks.read fun before hbefore => ?_
  refine (hm (.node before) _ hgood fun h0 => hx hpn (.preceding ht hbefore h0)).andThen
    fun F₂ hs hdone => ?_
  refine (markPayload_walks hm hx hs.good hpn ht).imp ?_
  rintro _ F' ⟨hs', hpayload⟩
  refine ⟨hs', trivial, fun j hij => ?_⟩
  rcases hpayload j hij with ⟨before', hb', h0', rfl⟩ | hseen
  · cases hbefore.symm.trans hb'
    exact hs'.seen (hdone h0')
  · exact hseen

/-! ### Functions -/

theorem markFunction_walks (hm : Traverses h pool P mark) (hx : Closed h pool P)
    (hF : F.Good h pool) {id : UInt64} (hp : P (.function id)) :
    Walks h pool P (markFunction pool mark id) F (Seen h pool · (.function id)) := by
  refine Yields.bind ((visitFunction_yields hF id).mono ?_ fun _ _ _ => trivial)
  rintro enter F₁ (⟨rfl, rfl, hmarked⟩ | ⟨rfl, rfl, hsome, hnew⟩)
  · exact ⟨.refl hF, hmarked⟩
  rw [if_pos rfl]
  obtain ⟨hgood, -⟩ := hF.mark hsome hnew
  obtain ⟨f, hf⟩ := Option.isSome_iff_exists.1 hsome
  rw [hf]
  have hbody : Walks h pool P (do
      mark (.node f.ast)
      mark (.type f.returnType)
      mark (.type f.paramType)) (F.mark id) (fun F' => Done h pool F' (.node f.ast) ∧
        Done h pool F' (.type f.returnType) ∧ Done h pool F' (.type f.paramType)) := by
    refine (hm (.node f.ast) _ hgood fun h0 => hx hp (.ast hf h0)).andThen
      fun F₁ hs₁ hdone₁ => ?_
    refine (hm (.type f.returnType) _ hs₁.good fun h0 => hx hp (.returnType hf h0)).andThen
      fun F₂ hs₂ hdone₂ => ?_
    refine (hm (.type f.paramType) _ hs₂.good fun h0 => hx hp (.paramType hf h0)).imp ?_
    rintro _ F' ⟨hs₃, hdone₃⟩
    exact ⟨hs₃, hs₃.done (hs₂.done hdone₁), hs₃.done hdone₂, hdone₃⟩
  refine hbody.imp ?_
  rintro _ F' ⟨hs, hast, hreturn, hparam⟩
  refine ⟨hs.enterFunction hF hp hsome hnew fun j hij => ?_, fun _ => hs.marked _ ?_⟩
  · cases hij with
    | ast hf' h0 => cases hf.symm.trans hf'; exact hast h0
    | returnType hf' h0 => cases hf.symm.trans hf'; exact hreturn h0
    | paramType hf' h0 => cases hf.symm.trans hf'; exact hparam h0
  · rw [Found.getElem?_mark (by rw [hF.slots]; exact (slot_lt hsome).2), if_pos rfl]

/-- Marking within any depth that comes to its end has seen its target. -/
theorem markWithin_walks (hx : Closed h pool P) (depth : Nat) :
    Traverses h pool P (markWithin h pool depth) := by
  induction depth with
  | zero => exact fun _ _ _ _ => Walks.throw
  | succ depth ih =>
    intro target F hF hok
    cases target with
    | value ws t => exact markValue_walks ih hF hok
    | object addr t => exact markObject_walks ih hx hF hok
    | type t => exact markType_walks ih hx hF hok
    | node n => exact markNode_walks ih hx hF hok
    | function id => exact markFunction_walks ih hx hF hok

end TreeMachine.Collect
