import TreeMachine.Proofs.Collect.Traversal

/-! # The depth of a marking

  Where the words of everything that is met lie in the arena, whatever marking reads can be
  read, and the depth suffices: every third level of a descent enters something new.  Main
  statement: marking ends, or it stops at a broken invariant.
-/

namespace TreeMachine.Collect

variable {h : Heap} {c : Catalogue} {pool : Pool} {P : Item → Prop} {F : Found}
  {mark : Target → MarkM Unit} {depth : Nat}

/-- The target may be marked: its type is known and all it refers to may be met. -/
def Allowed (h : Heap) (c : Catalogue) (P : Item → Prop) : Target → Prop
  | .value ws t =>
    (t = 0 ∨ t ∈ c.handles) ∧ ws.length = h.width t ∧ ∀ i, ValueRefers h ws t i → P i
  | .object addr t => P (.object addr t)
  | .type t => t ≠ 0 → P (.type t)
  | .node n => n ≠ 0 → P (.node n)
  | .function id => P (.function id)

theorem Allowed.permitted {target : Target} (hok : Allowed h c P target) :
    Permitted h P target := by
  cases target with
  | value ws t => exact hok.2.2
  | _ => exact hok

/-- The depth that a target takes when there are at most `n` things to find. -/
def depthFor (h : Heap) (n : Nat) : Target → Nat
  | .value _ t => if h.kind t = .ok (some .concatenation) then 3 * n + 3 else 3 * n + 2
  | _ => 3 * n + 1

theorem depthFor_mono {m n : Nat} (hmn : m ≤ n) (target : Target) :
    depthFor h m target ≤ depthFor h n target := by
  cases target with
  | value ws t =>
    simp only [depthFor]
    split <;> omega
  | _ =>
    simp only [depthFor]
    omega

/-- From `F` the operation stops at nothing but a broken invariant. -/
def Ends (x : MarkM Unit) (F : Found) : Prop :=
  Yields x F (fun _ _ => True) (fun f _ => ∃ v, f = .broken v)

/-- Within the depth the operation marks every target: each time it ends it has been a stretch
    of a search, and it stops at nothing but a broken invariant. -/
def Marks (h : Heap) (c : Catalogue) (pool : Pool) (P : Item → Prop) (depth : Nat)
    (mark : Target → MarkM Unit) : Prop :=
  ∀ (target : Target) (F : Found), F.Good h pool → Allowed h c P target →
    depthFor h (F.left h) target ≤ depth →
    Yields (mark target) F (fun _ F' => Search h pool P F F') (fun f _ => ∃ v, f = .broken v)

theorem Ends.nothing : Ends (pure ()) F := trivial

/-- A stateless step whose answer is known. -/
theorem Ends.read {α : Type} {x : Except Fault α} {f : α → MarkM Unit} {a : α}
    (hx : x = .ok a) (hf : Ends (f a) F) : Ends (liftM x >>= f) F :=
  Yields.read_ok hx hf

/-- A stateless step that may stop at a broken invariant. -/
theorem Ends.readOr {α : Type} {x : Except Fault α} {f : α → MarkM Unit}
    (hx : ∀ e, x = .error e → ∃ v, e = .broken v) (hf : ∀ a, x = .ok a → Ends (f a) F) :
    Ends (liftM x >>= f) F :=
  Yields.bind_read hf hx

/-- Looking for a region that starts in the arena, and going on if it is new. -/
theorem Ends.enter {addr : Addr} {size : UInt64} (hF : F.Good h pool)
    (hstart : addr.toNat < h.arena.words.size) {body : MarkM Unit}
    (hbody : (F.add ⟨addr, size⟩).Good h pool → (F.add ⟨addr, size⟩).left h + 1 ≤ F.left h →
      Ends body (F.add ⟨addr, size⟩)) :
    Ends (do if ← foundBefore addr size then return () else body) F := by
  refine Yields.bind ((foundBefore_yields addr size F).imp ?_)
  rintro known F₁ ⟨-, ⟨rfl, rfl⟩ | ⟨rfl, hnew, rfl⟩⟩
  · exact Ends.nothing
  · have hadd := hF.add (r := ⟨addr, size⟩) hnew hstart
    rw [if_neg Bool.false_ne_true]
    exact hbody hadd.1 hadd.2

section Steps

variable (hm : Marks h c pool P depth mark)
include hm

/-- Marking a target as the last step. -/
theorem Marks.ends {target : Target} (hF : F.Good h pool) (hok : Allowed h c P target)
    (hd : depthFor h (F.left h) target ≤ depth) : Ends (mark target) F :=
  (hm target F hF hok hd).imp fun _ _ _ => trivial

/-- Marking a target before something else. -/
theorem Marks.andThen {target : Target} {y : MarkM Unit} (hF : F.Good h pool)
    (hok : Allowed h c P target) (hd : depthFor h (F.left h) target ≤ depth)
    (hy : ∀ F', F'.Good h pool → F'.left h ≤ F.left h → Ends y F') :
    Ends (do mark target; y) F :=
  Yields.bind ((hm target F hF hok hd).imp fun _ F' hs => hy F' hs.good hs.left_le)

theorem markAll_ends (targets : List Target) (hF : F.Good h pool)
    (hok : ∀ t ∈ targets, Allowed h c P t)
    (hd : ∀ t ∈ targets, depthFor h (F.left h) t ≤ depth) : Ends (markAll mark targets) F := by
  induction targets generalizing F with
  | nil => exact Ends.nothing
  | cons target rest ih =>
    refine hm.andThen hF (hok target List.mem_cons_self) (hd target List.mem_cons_self) ?_
    intro F₁ hgood hleft
    refine ih hgood (fun t ht => hok t (List.mem_cons_of_mem _ ht)) fun t ht => ?_
    exact Nat.le_trans (depthFor_mono hleft t) (hd t (List.mem_cons_of_mem _ ht))

end Steps

/-! ### Values -/

theorem wordAt_ok {ws : List UInt64} {k : Nat} (hk : k < ws.length) :
    ∃ w, ws[k]? = some w ∧ wordAt ws k = .ok w := by
  refine ⟨ws[k], List.getElem?_eq_getElem hk, ?_⟩
  rw [wordAt, List.getElem?_eq_getElem hk]

theorem markMembers_ends (hm : Marks h c pool P depth mark) (hi : h.Interned c) {ts : List Ty}
    {ws : List UInt64} (hF : F.Good h pool)
    (hts : ∀ m ∈ ts, ∃ r, (m, r) ∈ c ∧ r.isMember = true)
    (hlen : ws.length = (ts.map h.width).sum) (hd : 3 * F.left h + 2 ≤ depth)
    (hok : ∀ before m after, ts = before ++ m :: after → ∀ i,
      ValueRefers h ((ws.drop (before.map h.width).sum).take (h.width m)) m i → P i) :
    Ends (markMembers h mark ts ws) F := by
  induction ts generalizing ws F with
  | nil => exact Ends.nothing
  | cons t rest ih =>
    obtain ⟨r, hr, hmem⟩ := hts t List.mem_cons_self
    have hwidth : (UInt64.ofNat (h.width t)).toNat = h.width t := by
      have := hi.width_lt hr
      rw [UInt64.toNat_ofNat']
      omega
    rw [List.map_cons, List.sum_cons] at hlen
    refine Ends.read (hi.size_eq hr) ?_
    rw [hwidth, if_neg (by omega)]
    have hallowed : Allowed h c P (.value (ws.take (h.width t)) t) := by
      refine ⟨Or.inr (Catalogue.mem_handles hr), ?_, fun i hv => hok [] t rest rfl i hv⟩
      rw [List.length_take]
      omega
    -- A member is not a concatenation, so it takes one level less.
    have hdepth : depthFor h (F.left h) (.value (ws.take (h.width t)) t) ≤ depth := by
      simp only [depthFor]
      rw [hi.kind_eq hr, if_neg (hi.kind_ne_concat hr (Heap.isMember_ne_concat hmem))]
      exact hd
    refine hm.andThen hF hallowed hdepth fun F₁ hgood hleft => ?_
    refine @ih F₁ (ws.drop (h.width t)) hgood (fun m hm => hts m (List.mem_cons_of_mem _ hm)) ?_
      (by omega) fun before m after heq i hv => ?_
    · rw [List.length_drop]
      omega
    · refine hok (t :: before) m after (by rw [heq]; rfl) i ?_
      rwa [List.map_cons, List.sum_cons, ← List.drop_drop]

section Value

variable {t : Ty} {ws : List UInt64}

theorem markPointer_ends (hm : Marks h c pool P depth mark) (hi : h.Interned c) {elem : Ty}
    (hr : (t, .pointer elem) ∈ c) (hF : F.Good h pool)
    (hok : Allowed h c P (.value ws t)) (hd : 3 * F.left h + 2 ≤ depth + 1) :
    Ends (markValue h mark ws t) F := by
  obtain ⟨-, hlen, hrefs⟩ := hok
  have hk := hi.kind_eq hr
  have he := hi.elem_eq hr
  have hwidth : h.width t = 1 := Heap.width_of_size (hi.size_member hr fun ms h => (nomatch h))
  obtain ⟨addr, hw, hat⟩ := wordAt_ok (show 0 < ws.length by omega)
  refine Ends.read hk (Ends.read hat ?_)
  split
  · rename_i hcond
    refine Ends.read he (hm.ends hF ?_ (by simp only [depthFor]; omega))
    exact hrefs _ (.pointer hk hw hcond.1 hcond.2 he)
  · exact Ends.nothing

theorem markDynamic_ends (hm : Marks h c pool P depth mark) (hi : h.Interned c)
    (hr : (t, .scalar .dynamic) ∈ c) (hF : F.Good h pool)
    (hok : Allowed h c P (.value ws t)) (hd : 3 * F.left h + 2 ≤ depth + 1) :
    Ends (markValue h mark ws t) F := by
  obtain ⟨-, hlen, hrefs⟩ := hok
  have hk := hi.kind_eq hr
  have hwidth : h.width t = 2 := Heap.width_of_size (hi.size_member hr fun ms h => (nomatch h))
  obtain ⟨u, hw, hat⟩ := wordAt_ok (show 0 < ws.length by omega)
  obtain ⟨addr, hw', hat'⟩ := wordAt_ok (show 1 < ws.length by omega)
  refine Ends.read hk (Ends.read hat (Ends.read hat' ?_))
  by_cases hu : u = 0
  · rw [if_pos hu]
    by_cases ha : addr = 0
    · rw [if_neg (not_not_intro ha)]
      exact Ends.nothing
    · rw [if_pos ha]
      exact ⟨_, rfl⟩
  · rw [if_neg hu]
    refine hm.andThen hF (fun _ => hrefs _ (.dynamicType hk hw hu))
      (by simp only [depthFor]; omega) fun F₁ hgood hleft => ?_
    by_cases ha : addr = 0
    · rw [if_neg (not_not_intro ha)]
      exact Ends.nothing
    · rw [if_pos ha]
      refine hm.ends hgood ?_ (by simp only [depthFor]; omega)
      exact hrefs _ (.dynamicObject hk hw hu hw' ha)

/-- Marking a value ends, whatever its type. -/
theorem markValue_ends (hm : Marks h c pool P depth mark) (hi : h.Interned c)
    (hF : F.Good h pool) (hok : Allowed h c P (.value ws t))
    (hd : depthFor h (F.left h) (.value ws t) ≤ depth + 1) :
    Ends (markValue h mark ws t) F := by
  obtain ⟨ht, hlen, hrefs⟩ := hok
  rcases ht with rfl | ht
  · exact Ends.read (Heap.kind_zero h) Ends.nothing
  obtain ⟨r, hr⟩ := Catalogue.exists_record ht
  have hk := hi.kind_eq hr
  simp only [depthFor] at hd
  cases r with
  | pointer elem =>
    rw [hk, if_neg (hi.kind_ne_concat hr fun ms h => (nomatch h))] at hd
    exact markPointer_ends hm hi hr hF ⟨Or.inr ht, hlen, hrefs⟩ hd
  | concat ms =>
    have hwidth := (hi.size_concat hr).2.1
    have hms := hi.members_eq hr
    rw [hk, if_pos (by rfl)] at hd
    refine Ends.read hk (Ends.read hms ?_)
    exact markMembers_ends hm hi hF (hi.valid.admits hr).2 (hlen.trans hwidth) (by omega)
      fun before m after heq i hv => hrefs i (.member hk (hms.trans (congrArg _ heq)) hv)
  | scalar k =>
    rw [hk, if_neg (hi.kind_ne_concat hr fun ms h => (nomatch h))] at hd
    have hadm := hi.valid.admits hr
    have hsize := Heap.width_of_size (hi.size_member hr fun ms h => (nomatch h))
    -- All other scalars have one word.
    have hone : k ≠ .dynamic → k ≠ .doesNotReturn → 0 < ws.length := by
      intro h₁ h₂
      rw [hlen, hsize]
      cases k <;> first | decide | exact absurd rfl h₁ | exact absurd rfl h₂
    cases k with
    | integer | doesNotReturn => exact Ends.read hk Ends.nothing
    | dynamic => exact markDynamic_ends hm hi hr hF ⟨Or.inr ht, hlen, hrefs⟩ hd
    | ast =>
      obtain ⟨n, hw, hat⟩ := wordAt_ok (hone (by decide) (by decide))
      refine Ends.read hk (Ends.read hat (hm.ends hF ?_ (by simp only [depthFor]; omega)))
      exact fun h0 => hrefs _ (.ast hk hw h0)
    | type =>
      obtain ⟨u, hw, hat⟩ := wordAt_ok (hone (by decide) (by decide))
      refine Ends.read hk (Ends.read hat (hm.ends hF ?_ (by simp only [depthFor]; omega)))
      exact fun h0 => hrefs _ (.type hk hw h0)
    | function =>
      obtain ⟨id, hw, hat⟩ := wordAt_ok (hone (by decide) (by decide))
      refine Ends.read hk (Ends.read hat (hm.ends hF ?_ (by simp only [depthFor]; omega)))
      exact hrefs _ (.function hk hw)
    | pointer => simp [Catalogue.Admits, Kind.isScalar] at hadm
    | concatenation => simp [Catalogue.Admits, Kind.isScalar] at hadm

end Value

/-! ### Objects and types -/

theorem markObject_ends (hm : Marks h c pool P depth mark) (hx : Explorable h c pool P)
    (hF : F.Good h pool) {addr : Addr} {t : Ty} (hp : P (.object addr t))
    (hd : 3 * F.left h + 1 ≤ depth + 1) : Ends (markObject h mark addr t) F := by
  have hi := hx.interned
  rcases hx.object_mem hp with rfl | ht
  · exact Ends.read (Heap.size_zero h) Ends.nothing
  obtain ⟨r, hr⟩ := Catalogue.exists_record ht
  have hsize := hi.size_eq hr
  refine Ends.read hsize ?_
  by_cases h0 : UInt64.ofNat (h.width t) = 0
  · -- Without words there is nothing to find.
    rw [if_pos h0]
    exact Ends.nothing
  rw [if_neg h0]
  obtain ⟨hpos, hin⟩ := hx.inside hp (.object hsize h0)
  have hwords := Arena.toNat_pos_iff.2 h0
  dsimp only at hpos hin
  refine Ends.enter hF (by omega) fun hgood hleft => ?_
  obtain ⟨ws, hws⟩ := Arena.exists_slice hi.sized hpos hin
  have hlen := ((Arena.slice_eq_ok_iff hi.sized).1 hws).2
  have hwidth := hi.width_lt hr
  have hallowed : Allowed h c P (.value ws t) := by
    refine ⟨Or.inr ht, ?_, fun i hv => hx.closed hp (.object hsize h0 hws hv)⟩
    rw [hlen, UInt64.toNat_ofNat']
    omega
  refine Ends.read hws (hm.ends hgood hallowed ?_)
  simp only [depthFor]
  split <;> omega

theorem markType_ends (hm : Marks h c pool P depth mark) (hx : Explorable h c pool P)
    (hF : F.Good h pool) {t : Ty} (hp : t ≠ 0 → P (.type t))
    (hd : 3 * F.left h + 1 ≤ depth + 1) : Ends (markType h mark t) F := by
  have hi := hx.interned
  by_cases h0 : t = 0
  · rw [markType, if_pos h0]
    exact Ends.nothing
  rw [markType, if_neg h0]
  have hpt := hp h0
  obtain ⟨r, hr⟩ := Catalogue.exists_record (hx.type_mem hpt)
  have hk := hi.kind_eq hr
  refine Ends.read (hi.recordWords_eq hr) (Ends.enter hF (lt_of_kind h0 hk) fun hgood hleft => ?_)
  refine Ends.read hk ?_
  cases r with
  | scalar k =>
    have hadm := hi.valid.admits hr
    cases k <;> first
      | exact Ends.nothing
      | simp [Catalogue.Admits, Kind.isScalar] at hadm
  | pointer elem =>
    have he := hi.elem_eq hr
    refine Ends.read he (hm.ends hgood ?_ (by simp only [depthFor]; omega))
    exact fun h0 => hx.closed hpt (.elem hk he h0)
  | concat ms =>
    have hms := hi.members_eq hr
    refine Ends.read hms (markAll_ends hm (ms.map .type) hgood ?_ ?_)
    · intro target htarget
      obtain ⟨m, hmem, rfl⟩ := List.mem_map.1 htarget
      exact fun h0 => hx.closed hpt (.member hk hms hmem h0)
    · intro target htarget
      obtain ⟨m, -, rfl⟩ := List.mem_map.1 htarget
      simp only [depthFor]
      omega

/-! ### Nodes -/

/-- The words of a node that lies in the arena can be read. -/
theorem node_reads (hs : h.arena.Sized) {n : Node} {tag : Tag} (ht : h.tag n = .ok tag)
    (hpos : 0 < n.toNat) (hin : n.toNat + 2 + tag.fields ≤ h.arena.words.size) :
    (∃ before, h.preceding n = .ok before) ∧
      ∀ k : Nat, k < tag.fields → ∃ w, h.field n k = .ok w := by
  have hlt := hs.lt
  have hone : (1 : UInt64).toNat = 1 := rfl
  have htwo : Heap.headerWords.toNat = 2 := rfl
  constructor
  · have hsum : (n + 1).toNat = n.toNat + 1 :=
      Arena.toNat_add_of_le hs (by omega)
    exact Arena.exists_word hs (by omega) (by omega)
  · intro k hk
    have hkw : (UInt64.ofNat k).toNat = k := by
      rw [UInt64.toNat_ofNat']
      omega
    have hsum : (n + Heap.headerWords).toNat = n.toNat + 2 :=
      Arena.toNat_add_of_le hs (by omega)
    have hsum' : (n + Heap.headerWords + UInt64.ofNat k).toNat = n.toNat + 2 + k := by
      rw [Arena.toNat_add_of_le hs (by omega)]
      omega
    obtain ⟨w, hw⟩ := Arena.exists_word hs
      (show 0 < (n + Heap.headerWords + UInt64.ofNat k).toNat by omega) (by omega)
    refine ⟨w, ?_⟩
    rw [Heap.field, except_bind_ok ht]
    have hrange : ¬ ((k : Int) < 0 ∨ (tag.fields : Int) ≤ (k : Int)) := by omega
    simp only [hrange, if_false]
    exact hw

theorem nodeFields_le (tag : Tag) : tag.schema.nodeFields ≤ tag.fields := by
  cases tag <;> decide

/-- Reading the tag of a node in the arena can only show a broken record. -/
theorem tag_error (hs : h.arena.Sized) {n : Node} (h0 : n ≠ 0)
    (hlt : n.toNat < h.arena.words.size) {e : Fault} (he : h.tag n = .error e) :
    ∃ v, e = .broken v := by
  obtain ⟨w, hw⟩ := Arena.exists_word hs (Arena.toNat_pos_iff.2 h0) hlt
  rw [Heap.tag, except_bind_ok (show h.word n = .ok w from hw)] at he
  split at he
  · cases he
  · cases he
    exact ⟨_, rfl⟩

theorem markFields_ends (hm : Marks h c pool P depth mark) {n : Node} {k count : Nat}
    (hF : F.Good h pool)
    (hread : ∀ m : Nat, k ≤ m → m < k + count → ∃ e, h.field n m = .ok e ∧ (e ≠ 0 → P (.node e)))
    (hd : 3 * F.left h + 1 ≤ depth) : Ends (markFields h mark n k count) F := by
  induction count generalizing k F with
  | zero => exact Ends.nothing
  | succ count ih =>
    obtain ⟨e, he, hp⟩ := hread k (Nat.le_refl _) (by omega)
    refine Ends.read he (hm.andThen hF hp hd fun F₁ hgood hleft => ?_)
    exact ih hgood (fun m hle hlt => hread m (by omega) (by omega)) (by omega)

theorem markLiteral_ends (hm : Marks h c pool P depth mark) (hx : Explorable h c pool P)
    (hF : F.Good h pool) {n : Node} (hp : P (.node n)) (ht : h.tag n = .ok .literal)
    (hfields : ∀ k : Nat, k < 2 → ∃ w, h.field n k = .ok w) (hd : 3 * F.left h + 1 ≤ depth) :
    Ends (do
      let (t, object) ← h.literalValue n
      mark (.type t)
      if object ≠ 0 then mark (.object object t)) F := by
  obtain ⟨t, htype⟩ : ∃ t, h.field n 0 = .ok t := hfields 0 (by omega)
  obtain ⟨object, hobject⟩ : ∃ object, h.field n 1 = .ok object := hfields 1 (by omega)
  have hv : h.literalValue n = .ok (t, object) := by
    have hexpect : h.expectTag n .literal = .ok () := by
      rw [Heap.expectTag, except_bind_ok ht]
      rfl
    rw [Heap.literalValue, except_bind_ok hexpect, except_bind_ok htype, except_bind_ok hobject]
    rfl
  refine Ends.read hv (hm.andThen hF (fun h0 => hx.closed hp (.literalType ht hv h0)) hd ?_)
  intro F₁ hgood hleft
  by_cases h0 : object = 0
  · rw [if_neg (not_not_intro h0)]
    exact Ends.nothing
  · rw [if_pos h0]
    refine hm.ends hgood ?_ (by simp only [depthFor]; omega)
    exact hx.closed hp (.literalObject ht hv h0)

/-- Reading the size of a vector in the arena can only go past its end. -/
theorem vectorWords_error (hs : h.arena.Sized) {vec : Addr} (hlt : vec.toNat < h.arena.words.size)
    {e : Fault} (he : h.vectorWords vec = .error e) : ∃ v, e = .broken v := by
  have hlimit := Arena.limit_toNat hs
  have hsmall := hs.lt
  have hone : (1 : UInt64).toNat = 1 := rfl
  by_cases hend : vec.toNat + 1 < h.arena.words.size
  · have hsum : (vec + 1).toNat = vec.toNat + 1 := Arena.toNat_add_of_le hs (by omega)
    obtain ⟨w, hw⟩ := Arena.exists_word hs (show 0 < (vec + 1).toNat by omega) (by omega)
    rw [Heap.vectorWords, except_bind_ok (show h.word (vec + 1) = .ok w from hw)] at he
    cases he
  · have hpast : h.arena.limit < vec + 1 + 1 := by
      rw [UInt64.lt_iff_toNat_lt, hlimit, UInt64.toNat_add, UInt64.toNat_add]
      omega
    have hcheck : h.arena.check (vec + 1) 1
        = .error (.broken (.outOfRange (vec + 1) (vec + 1 + 1) h.arena.limit)) :=
      if_pos (Or.inr hpast)
    rw [Heap.vectorWords, Heap.word, Arena.word, hcheck] at he
    cases he
    exact ⟨_, rfl⟩

theorem elements_ok (hx : Explorable h c pool P) {n : Node} {vec : Addr}
    (hp : P (.vector vec)) (hv : h.vector n = .ok vec) (h0 : vec ≠ 0) :
    ∃ length es, h.word vec = .ok length ∧
      h.slice (vec + Heap.vectorHeader) length = .ok es ∧ h.elements n = .ok es := by
  have hs := hx.interned.sized
  have hmax := hs
  rw [Arena.Sized] at hmax
  have htwo : Heap.vectorHeader.toNat = 2 := rfl
  have hpos := Arena.toNat_pos_iff.2 h0
  obtain ⟨length, hlength⟩ := Arena.exists_word hs hpos (hx.vector_lt hp).2
  have hin := hx.elements_le hp hlength
  have hsum : (vec + Heap.vectorHeader).toNat = vec.toNat + 2 :=
    Arena.toNat_add_of_le hs (by omega)
  obtain ⟨es, hes⟩ := Arena.exists_slice hs
    (show 0 < (vec + Heap.vectorHeader).toNat by omega)
    (show (vec + Heap.vectorHeader).toNat + length.toNat ≤ _ by omega)
  refine ⟨length, es, hlength, hes, ?_⟩
  have hshort : ¬ Arena.maxWords < length := by
    rw [UInt64.lt_iff_toNat_lt]
    omega
  rw [Heap.elements, except_bind_ok hv, if_neg h0,
    except_bind_ok (show h.word vec = .ok length from hlength), if_neg hshort]
  exact hes

theorem markBlock_ends (hm : Marks h c pool P depth mark) (hx : Explorable h c pool P)
    (hF : F.Good h pool) {n : Node} (hp : P (.node n)) (ht : h.tag n = .ok .block)
    (hfields : ∀ k : Nat, k < 1 → ∃ w, h.field n k = .ok w) (hd : 3 * F.left h + 1 ≤ depth) :
    Ends (do
      let vec ← h.vector n
      if vec = 0 then return ()
      if ← foundBefore vec (← h.vectorWords vec) then return ()
      markAll mark ((← h.elements n).map .node)) F := by
  obtain ⟨vec, hfield⟩ := hfields 0 (by omega)
  have hv : h.vector n = .ok vec := by
    have hexpect : h.expectTag n .block = .ok () := by
      rw [Heap.expectTag, except_bind_ok ht]
      rfl
    rw [Heap.vector, except_bind_ok hexpect]
    exact hfield
  refine Ends.read hv ?_
  by_cases h0 : vec = 0
  · rw [if_pos h0]
    exact Ends.nothing
  rw [if_neg h0]
  have hpv : P (.vector vec) := hx.closed hp (.vector ht hv h0)
  have hstart := (hx.vector_lt hpv).2
  refine Ends.readOr (fun e he => vectorWords_error hx.interned.sized hstart he) ?_
  intro size hsize
  refine Ends.enter hF hstart fun hgood hleft => ?_
  obtain ⟨length, es, hlength, hes, helements⟩ := elements_ok hx hpv hv h0
  refine Ends.read helements (markAll_ends hm (es.map .node) hgood ?_ ?_)
  · intro target htarget
    obtain ⟨e, he, rfl⟩ := List.mem_map.1 htarget
    exact fun h0 => hx.closed hpv (.element hsize hlength hes he h0)
  · intro target htarget
    obtain ⟨e, -, rfl⟩ := List.mem_map.1 htarget
    simp only [depthFor]
    omega

/-- Marking the payload of a node ends, whatever its tag. -/
theorem markPayload_ends (hm : Marks h c pool P depth mark) (hx : Explorable h c pool P)
    (hF : F.Good h pool) {n : Node} (hp : P (.node n)) {tag : Tag} (ht : h.tag n = .ok tag)
    (hfields : ∀ k : Nat, k < tag.fields → ∃ w, h.field n k = .ok w)
    (hd : 3 * F.left h + 1 ≤ depth) :
    Ends (do
      match ← h.tag n with
      | .literal =>
        let (t, object) ← h.literalValue n
        mark (.type t)
        if object ≠ 0 then mark (.object object t)
      | .block =>
        let vec ← h.vector n
        if vec = 0 then return ()
        if ← foundBefore vec (← h.vectorWords vec) then return ()
        markAll mark ((← h.elements n).map .node)
      | tag => markFields h mark n 0 tag.schema.nodeFields) F := by
  refine Ends.read ht ?_
  by_cases hl : tag = .literal
  · subst hl
    exact markLiteral_ends hm hx hF hp ht hfields hd
  by_cases hb : tag = .block
  · subst hb
    exact markBlock_ends hm hx hF hp ht hfields hd
  have hread : ∀ m : Nat, 0 ≤ m → m < 0 + tag.schema.nodeFields →
      ∃ e, h.field n m = .ok e ∧ (e ≠ 0 → P (.node e)) := by
    intro m _ hlt
    rw [Nat.zero_add] at hlt
    obtain ⟨e, he⟩ := hfields m (Nat.lt_of_lt_of_le hlt (nodeFields_le tag))
    exact ⟨e, he, fun h0 => hx.closed hp (.field ht hl hb hlt he h0)⟩
  have hmark : Ends (markFields h mark n 0 tag.schema.nodeFields) F :=
    markFields_ends hm hF hread hd
  cases tag with
  | literal => exact absurd rfl hl
  | block => exact absurd rfl hb
  | _ => exact hmark

theorem markNode_ends (hm : Marks h c pool P depth mark) (hx : Explorable h c pool P)
    (hF : F.Good h pool) {n : Node} (hp : n ≠ 0 → P (.node n))
    (hd : 3 * F.left h + 1 ≤ depth + 1) : Ends (markNode h mark n) F := by
  have hsized := hx.interned.sized
  by_cases h0 : n = 0
  · rw [markNode, if_pos h0]
    exact Ends.nothing
  rw [markNode, if_neg h0]
  have hpn := hp h0
  have hstart := (hx.node_lt hpn).2
  refine Ends.readOr (fun e he => ?_) fun size hsize => ?_
  · cases htag : h.tag n with
    | ok tag =>
      rw [Heap.nodeWords, except_bind_ok htag] at he
      cases he
    | error f =>
      rw [Heap.nodeWords, htag] at he
      cases he
      exact tag_error hsized h0 hstart htag
  obtain ⟨tag, ht, hsize'⟩ := of_except_bind_eq_ok hsize
  obtain ⟨hpos, hin⟩ := hx.inside hpn (.node hsize)
  have hwords : size.toNat = 2 + tag.fields := by
    cases hsize'
    cases tag <;> rfl
  dsimp only at hpos hin
  obtain ⟨⟨before, hbefore⟩, hfields⟩ := node_reads hsized ht hpos (by omega)
  refine Ends.enter hF hstart fun hgood hleft => ?_
  refine Ends.read hbefore (hm.andThen hgood ?_ (by simp only [depthFor]; omega) ?_)
  · exact fun h0 => hx.closed hpn (.preceding ht hbefore h0)
  · intro F₂ hgood₂ hleft₂
    exact markPayload_ends hm hx hgood₂ hpn ht hfields (by omega)

/-! ### Functions -/

theorem markFunction_ends (hm : Marks h c pool P depth mark) (hx : Explorable h c pool P)
    (hF : F.Good h pool) {id : UInt64} (hp : P (.function id))
    (hd : 3 * F.left h + 1 ≤ depth + 1) : Ends (markFunction pool mark id) F := by
  refine Yields.bind ((visitFunction_yields hF id).mono ?_ fun _ _ hfalse => hfalse.elim)
  rintro enter F₁ (⟨rfl, rfl, hmarked⟩ | ⟨rfl, rfl, hsome, hnew⟩)
  · exact Ends.nothing
  rw [if_pos rfl]
  obtain ⟨hgood, hleft⟩ := hF.mark hsome hnew
  obtain ⟨f, hf⟩ := Option.isSome_iff_exists.1 hsome
  rw [hf]
  refine hm.andThen hgood (fun h0 => hx.closed hp (.ast hf h0))
    (by simp only [depthFor]; omega) fun F₁ hgood₁ hleft₁ => ?_
  refine hm.andThen hgood₁ (fun h0 => hx.closed hp (.returnType hf h0))
    (by simp only [depthFor]; omega) fun F₂ hgood₂ hleft₂ => ?_
  exact hm.ends hgood₂ (fun h0 => hx.closed hp (.paramType hf h0))
    (by simp only [depthFor]; omega)

/-- Marking within a depth does what it says. -/
theorem markWithin_marks (hx : Explorable h c pool P) (depth : Nat) :
    Marks h c pool P depth (markWithin h pool depth) := by
  induction depth with
  | zero =>
    intro target F _ _ hd
    cases target with
    | value ws t =>
      simp only [depthFor] at hd
      split at hd <;> omega
    | _ =>
      simp only [depthFor] at hd
      omega
  | succ depth ih =>
    intro target F hF hok hd
    have hends : Ends (markWithin h pool (depth + 1) target) F := by
      cases target with
      | value ws t => exact markValue_ends ih hx.interned hF hok hd
      | object addr t => exact markObject_ends ih hx hF hok hd
      | type t => exact markType_ends ih hx hF hok hd
      | node n => exact markNode_ends ih hx hF hok hd
      | function id => exact markFunction_ends ih hx hF hok hd
    -- If it comes to its end, it has been a search, as in any heap.
    have hwalks := markWithin_walks hx.closed (depth + 1) target F hF hok.permitted
    cases hrun : markWithin h pool (depth + 1) target F with
    | ok _ F' => exact Yields.of_ok hrun (hwalks.ok hrun).1
    | error f F' => exact Yields.of_error hrun (hends.error hrun)

end TreeMachine.Collect
