import TreeMachine.Proofs.Types.Interning
import TreeMachine.Types.Rebuild

/-! # Rebuilding the type index

  What a list of addresses has to be for the index to be rebuilt from it.  Each address is
  checked on its own: a record of a known kind stands there and refers to addresses of the
  list.  The records must differ, and where nothing is free all scalar types must be among
  them, since a missing one could not be made.  Nothing else is asked for, and the index is
  that of the list in its order.
-/

namespace TreeMachine

namespace Heap

variable {h h' : Heap} {c rest : Catalogue} {known all : List Ty} {t : Ty} {r : Record}

/-! ### Checking records -/

/-- The record `r` at `t` passes the check: it refers to known types, and a concatenation has
    at least two members. -/
structure Passes (h : Heap) (known : List Ty) (t : Ty) (r : Record) : Prop extends
    h.Stands t r where
  parts : ∀ p ∈ r.parts, p ∈ known
  thick : ∀ ms, r = .concat ms → 2 ≤ ms.length

section Checked

variable {α β : Type} {b : β} {f : α → Checked β}

theorem sound_bind_eq_ok {x : Except Fault α} :
    (sound x >>= f) = .ok b ↔ ∃ a, x = .ok a ∧ f a = .ok b := by
  cases x <;> simp [sound, bind, Except.bind]

/-- A step behind a condition that refuses. -/
theorem refuse_if_eq_ok {p : Prop} [Decidable p] {e : RebuildError} {x : Checked β} :
    (if p then refuse e >>= f else x) = .ok b ↔ ¬ p ∧ x = .ok b := by
  by_cases hp : p <;> simp [hp, refuse, bind, Except.bind]

end Checked

/-- What passes the check is a record, which the words in place determine. -/
theorem exists_passes (hs : h.arena.Sized) (hc : h.checkRecord known t = .ok ()) :
    ∃ r, h.Passes known t r := by
  unfold checkRecord at hc
  simp only [refuse_if_eq_ok, sound_bind_eq_ok] at hc
  obtain ⟨-, w, hw, hc⟩ := hc
  have hholds := Arena.holds_of_word hs hw
  split at hc
  · cases hc
  · -- a pointer: two words, the second of which is a known type
    rename_i hk
    obtain rfl := Kind.word_of_ofWord? hk
    simp only [refuse_if_eq_ok, sound_bind_eq_ok] at hc
    obtain ⟨-, elem, helem, hc⟩ := hc
    split at hc
    · cases hc
    · rename_i hknown
      refine ⟨.pointer elem, ⟨?_, fun k hk => by cases hk⟩, ?_, fun ms hms => by cases hms⟩
      · exact hholds.append hs rfl (Arena.holds_of_word hs helem)
      · intro p hp
        rw [List.mem_singleton.1 hp]
        simpa using hknown
  · -- a concatenation: the slice that is checked and the two words before it
    rename_i hk
    obtain rfl := Kind.word_of_ofWord? hk
    simp only [refuse_if_eq_ok, sound_bind_eq_ok] at hc
    obtain ⟨-, n, hn, hrange, ms, hms, hc⟩ := hc
    split at hc
    · cases hc
    · rename_i hknown
      obtain ⟨hms, hlen⟩ := (Arena.slice_eq_ok_iff hs).1 hms
      refine ⟨.concat ms, ⟨?_, fun k hk => by cases hk⟩, ?_, ?_⟩
      · have hn' := Arena.holds_of_word hs hn
        have hhead := hholds.append hs rfl hn'
        have hwhole := hhead.append hs rfl hms
        rwa [Record.words, hlen, UInt64.ofNat_toNat]
      · intro p hp
        simpa using List.find?_eq_none.1 hknown p hp
      · rintro ms' heq
        cases heq
        rw [not_or, UInt64.not_lt, UInt64.le_iff_toNat_le] at hrange
        rw [hlen]
        exact hrange.1
  · rename_i k hne hne' hk
    obtain rfl := Kind.word_of_ofWord? hk
    refine ⟨.scalar k, ⟨hholds, ?_⟩, List.forall_mem_nil _, fun ms hms => by cases hms⟩
    rintro k' hk'
    cases hk'
    cases k <;> first | rfl | exact absurd rfl hne | exact absurd rfl hne'

theorem Stands.le_capacity (hs : h.arena.Sized) (hr : h.Stands t r) {n : UInt64}
    (hn : n.toNat < r.words.length) : ¬ h.arena.capacity < t + n := by
  have hin := hr.holds.inside
  have hcap := Arena.capacity_toNat hs (by omega)
  have hsum := Arena.toNat_add_of_le hs (x := t) (y := n) (by omega)
  rw [UInt64.lt_iff_toNat_lt]
  omega

theorem Passes.check (hs : h.arena.Sized) (hr : h.Passes known t r) :
    h.checkRecord known t = .ok () := by
  obtain ⟨w, hw⟩ := r.head_words
  have hholds := hr.holds
  rw [hw] at hholds
  have hcap : ¬ h.arena.capacity < t := by
    simpa using hr.le_capacity hs (n := 0) (List.length_pos_iff.2 r.words_ne_nil)
  unfold checkRecord
  simp only [refuse_if_eq_ok, sound_bind_eq_ok]
  refine ⟨not_or.2 ⟨hr.ne_zero, hcap⟩, r.kind.word, hholds.head hs, ?_⟩
  rw [Kind.ofWord?_word]
  cases r with
  | scalar k =>
    have hk := hr.scalar k rfl
    cases k <;> first | rfl | exact absurd hk (by decide)
  | pointer elem =>
    have hknown := hr.parts elem (List.mem_singleton_self _)
    simp only [Record.kind, refuse_if_eq_ok, sound_bind_eq_ok]
    refine ⟨hr.le_capacity hs (by simp [Record.words]), elem, hr.word_one hs rfl, ?_⟩
    rw [if_neg (by simpa using hknown)]
    rfl
  | concat ms =>
    have hthick := hr.thick ms rfl
    have hin := hr.holds.inside
    have hlt := hs.lt
    simp only [Record.words, List.length_cons] at hin
    have hlen : (UInt64.ofNat ms.length).toNat = ms.length := by
      rw [UInt64.toNat_ofNat']
      omega
    have hcap := Arena.capacity_toNat hs (by omega)
    have hmembers : h.slice (t + 2) (UInt64.ofNat ms.length) = .ok ms :=
      (hr.holds.drop hs (k := 2) (by simp [Record.words])).slice hs hlen.symm
    simp only [Record.kind, refuse_if_eq_ok, sound_bind_eq_ok]
    refine ⟨hr.le_capacity hs (by simp [Record.words]), UInt64.ofNat ms.length,
      hr.word_one hs rfl, ?_, ms, hmembers, ?_⟩
    · rw [not_or, not_or, UInt64.lt_iff_toNat_lt, UInt64.lt_iff_toNat_lt, UInt64.add_assoc, hcap,
        hlen]
      have hpos := hr.holds.pos
      refine ⟨Nat.not_lt.2 hthick, by omega, hr.le_capacity hs ?_⟩
      rw [Arena.toNat_add_of_le hs (by rw [hlen]; simp only [UInt64.reduceToNat]; omega), hlen]
      simp only [Record.words, List.length_cons, UInt64.reduceToNat]
      omega
    · have hnone : ms.find? (fun m => !known.contains m) = none := by
        rw [List.find?_eq_none]
        intro m hm
        simpa using hr.parts m hm
      rw [hnone]
      rfl

theorem checkRecords_eq_ok_iff :
    h.checkRecords known all = .ok () ↔ ∀ t ∈ all, h.checkRecord known t = .ok () := by
  induction all with
  | nil => simp [checkRecords]
  | cons t rest ih =>
    rw [checkRecords, List.forall_mem_cons, ← ih]
    cases h.checkRecord known t <;> simp [bind, Except.bind]

/-- A list of addresses passes the checks exactly if a record that does stands at each. -/
theorem checkRecords_eq_ok_iff_passes (hs : h.arena.Sized) :
    h.checkRecords all all = .ok () ↔
      ∃ c : Catalogue, c.handles = all ∧ ∀ e ∈ c, h.Passes c.handles e.1 e.2 := by
  rw [checkRecords_eq_ok_iff]
  constructor
  · intro hc
    have key (ts : List Ty) (hsub : ts ⊆ all) :
        ∃ c : Catalogue, c.handles = ts ∧ ∀ e ∈ c, h.Passes all e.1 e.2 := by
      induction ts with
      | nil => exact ⟨[], rfl, fun e he => (nomatch he)⟩
      | cons t rest ih =>
        rw [List.cons_subset] at hsub
        obtain ⟨r, hr⟩ := exists_passes hs (hc t hsub.1)
        obtain ⟨c, hc, hpasses⟩ := ih hsub.2
        refine ⟨(t, r) :: c, congrArg (t :: ·) hc, ?_⟩
        rw [List.forall_mem_cons]
        exact ⟨hr, hpasses⟩
    obtain ⟨c, rfl, hpasses⟩ := key all (List.Subset.refl _)
    exact ⟨c, rfl, hpasses⟩
  · rintro ⟨c, rfl, hpasses⟩ t ht
    obtain ⟨r, hr⟩ := Catalogue.exists_record ht
    exact (hpasses _ hr).check hs

/-! ### Indexing records -/

/-- The heap with the index of another catalogue. -/
def indexed (h : Heap) (c : Catalogue) : Heap :=
  ⟨h.arena, { h.types with entries := c.map fun e => (hashWords e.2.words, e.1) }⟩

theorem Stands.congr (hr : h.Stands t r) (ha : h'.arena = h.arena) : h'.Stands t r :=
  ⟨by rw [ha]; exact hr.holds, hr.scalar⟩

theorem Passes.congr (hr : h.Passes known t r) (ha : h'.arena = h.arena) :
    h'.Passes known t r :=
  ⟨hr.toStands.congr ha, hr.parts, hr.thick⟩

theorem peek_lift_eq_ok {ε α : Type} {f : Heap → Except Fault α} {a : α} (hf : f h = .ok a) :
    (liftM (peek f) : EStateM (Stop ε) Heap α) h = .ok a h :=
  lift_eq_ok (inspect_eq_ok hf)

section Step

variable {ws : List UInt64} {ts : List Ty} (hread : h.typeRecord t = .ok ws)

include hread

theorem indexRecords_known {first : Ty} (hl : h.lookup ws = .ok (some first)) :
    indexRecords (t :: ts) h = .error (.error (.duplicate t first)) h := by
  rw [indexRecords]
  refine (bind_eq_ok (peek_lift_eq_ok (f := (·.typeRecord t)) hread)).trans ?_
  exact bind_eq_ok (peek_lift_eq_ok (f := (·.lookup ws)) hl)

theorem indexRecords_new (hl : h.lookup ws = .ok none) :
    indexRecords (t :: ts) h = indexRecords ts
      ⟨h.arena, { h.types with entries := h.types.entries ++ [(hashWords ws, t)] }⟩ := by
  rw [indexRecords]
  refine (bind_eq_ok (peek_lift_eq_ok (f := (·.typeRecord t)) hread)).trans ?_
  exact bind_eq_ok (peek_lift_eq_ok (f := (·.lookup ws)) hl)

end Step

/-- Records are indexed as long as they differ from all that are indexed already. -/
theorem indexRecords_eq_ok_iff (hs : h.arena.Sized) (hnodup : c.records.Nodup)
    (hstands : ∀ e ∈ c ++ rest, h.Stands e.1 e.2) :
    indexRecords rest.handles (h.indexed c) = .ok () h' ↔
      (Catalogue.records (c ++ rest)).Nodup ∧ h' = h.indexed (c ++ rest) := by
  induction rest generalizing c with
  | nil =>
    rw [List.append_nil]
    refine ⟨fun hrun => ?_, ?_⟩
    · cases hrun
      exact ⟨hnodup, rfl⟩
    · rintro ⟨-, rfl⟩
      rfl
  | cons e rest ih =>
    have hread : ∀ e' ∈ c ++ e :: rest, (h.indexed c).typeRecord e'.1 = .ok e'.2.words :=
      fun e' he => Stands.typeRecord_eq (h := h.indexed c) hs ((hstands e' he).congr rfl)
    have hhead := hread e (by simp)
    show indexRecords (e.1 :: Catalogue.handles rest) (h.indexed c) = _ ↔ _
    rcases lookup_cases (fun e he => hread e (List.mem_append_left _ he)) rfl e.2 with
      ⟨t, hl, ht⟩ | ⟨hl, hnew⟩
    · rw [indexRecords_known hhead hl]
      refine ⟨fun h => (nomatch h), fun ⟨hnd, _⟩ => ?_⟩
      rw [Catalogue.records, List.map_append, List.nodup_append] at hnd
      exact absurd rfl (hnd.2.2 e.2 (Catalogue.mem_records ht) e.2 (by simp))
    · have hsplit : c ++ e :: rest = c ++ [e] ++ rest := by simp
      have hnext : (⟨(h.indexed c).arena, { (h.indexed c).types with
          entries := (h.indexed c).types.entries ++ [(hashWords e.2.words, e.1)] }⟩ : Heap) =
          h.indexed (c ++ [e]) := by
        simp [indexed]
      rw [indexRecords_new hhead hl, hnext, hsplit]
      rw [hsplit] at hstands
      refine ih ?_ hstands
      rw [Catalogue.records, List.map_append, List.nodup_append]
      refine ⟨hnodup, List.nodup_singleton _, ?_⟩
      intro r hr r' hr'
      rw [List.mem_singleton.1 hr']
      rintro rfl
      exact hnew hr

/-! ### Finding the scalar types -/

/-- The index of the heap is that of the catalogue, whose records differ. -/
structure Indexes (h : Heap) (c : Catalogue) : Prop where
  entries_eq : h.types.entries = c.map fun e => (hashWords e.2.words, e.1)
  stands : ∀ e ∈ c, h.Stands e.1 e.2
  nodup : c.records.Nodup

/-- The heap with other handles for the scalar types. -/
def withScalars (h : Heap) (s : Scalars) : Heap := ⟨h.arena, { h.types with scalars := s }⟩

theorem Indexes.withScalars (hi : h.Indexes c) (s : Scalars) : (h.withScalars s).Indexes c :=
  ⟨hi.entries_eq, fun e he => (hi.stands e he).congr rfl, hi.nodup⟩

/-- Nothing can be made where nothing is free. -/
theorem insertType_eq_error (hfree : h.arena.free = []) (ws : List UInt64) :
    ∃ f, insertType ws h = .error f h := by
  have halloc : ∃ f, Arena.allocate (UInt64.ofNat ws.length) h.arena = .error f h.arena := by
    unfold Arena.allocate
    rw [hfree]
    split
    · exact ⟨_, rfl⟩
    · split <;> exact ⟨_, rfl⟩
  obtain ⟨f, halloc⟩ := halloc
  exact ⟨f, bind_eq_error (onArena_error halloc)⟩

/-- Where nothing is free, a scalar type is found or missing for good. -/
theorem Indexes.intern_plain_eq_ok_iff (hi : h.Indexes c) (hs : h.arena.Sized)
    (hfree : h.arena.free = []) {k : Kind} (hk : k.isScalar = true) :
    intern (.plain k.word) h = .ok t h' ↔ (t, .scalar k) ∈ c ∧ h' = h := by
  have hread : ∀ e ∈ c, h.typeRecord e.1 = .ok e.2.words :=
    fun e he => (hi.stands e he).typeRecord_eq hs
  have hintern : intern (.plain k.word) h =
      (do return (← internRecord false [k.word]).1 : HeapM Ty) h := by
    simp only [intern, Model.depth, internWithin, Kind.ofWord?_word, hk, if_true]
  rw [hintern]
  rcases lookup_cases hread hi.entries_eq (.scalar k) with ⟨t', hl, ht'⟩ | ⟨hl, hnew⟩
  · have hpeek : peek (·.lookup [k.word]) h = .ok (some t') h := inspect_eq_ok hl
    have hrun : internRecord false [k.word] h = .ok (t', false) h := bind_eq_ok hpeek
    rw [bind_eq_ok hrun]
    constructor
    · intro hrun
      cases hrun
      exact ⟨ht', rfl⟩
    · rintro ⟨ht, rfl⟩
      cases List.inj_on_of_nodup_map hi.nodup ht ht' rfl
      rfl
  · have hpeek : peek (·.lookup [k.word]) h = .ok none h := inspect_eq_ok hl
    obtain ⟨f, hinsert⟩ := insertType_eq_error hfree [k.word]
    have hrun : internRecord false [k.word] h = .error f h :=
      (bind_eq_ok hpeek).trans (bind_eq_error hinsert)
    rw [bind_eq_error hrun]
    constructor
    · intro hrun
      cases hrun
    · rintro ⟨ht, -⟩
      exact absurd (Catalogue.mem_records ht) hnew

theorem Indexes.internScalar_eq_ok_iff (hi : h.Indexes c) (hs : h.arena.Sized)
    (hfree : h.arena.free = []) {k : Kind} (hk : k.isScalar = true)
    {set : Scalars → Ty → Scalars} {s : Scalars} :
    internScalar k set (h.withScalars s) = .ok () h' ↔
      ∃ t, (t, .scalar k) ∈ c ∧ h' = h.withScalars (set s t) := by
  have hintern {t : Ty} {h' : Heap} : intern (.plain k.word) (h.withScalars s) = .ok t h' ↔
      (t, .scalar k) ∈ c ∧ h' = h.withScalars s :=
    (hi.withScalars s).intern_plain_eq_ok_iff hs hfree hk
  constructor
  · intro hrun
    obtain ⟨t, h₁, hrun₁, hrun⟩ := of_bind_eq_ok hrun
    obtain ⟨ht, rfl⟩ := hintern.1 hrun₁
    cases hrun
    exact ⟨t, ht, rfl⟩
  · rintro ⟨t, ht, rfl⟩
    exact bind_eq_ok (hintern.2 ⟨ht, rfl⟩)

/-- Every scalar type has a record where the index says. -/
def NamesScalars (h : Heap) (c : Catalogue) : Prop :=
  ∀ k : Kind, k.isScalar = true → ∃ t, h.scalar k.word = .ok t ∧ (t, .scalar k) ∈ c

theorem Indexes.internScalars_eq_ok_iff (hi : h.Indexes c) (hs : h.arena.Sized)
    (hfree : h.arena.free = []) :
    internScalars h = .ok () h' ↔ h'.NamesScalars c ∧ ∃ s, h' = h.withScalars s := by
  have hstep {k : Kind} (hk : k.isScalar = true) {set : Scalars → Ty → Scalars} {s : Scalars}
      {h' : Heap} : internScalar k set (h.withScalars s) = .ok () h' ↔
        ∃ t, (t, .scalar k) ∈ c ∧ h' = h.withScalars (set s t) :=
    hi.internScalar_eq_ok_iff hs hfree hk
  constructor
  · intro hrun
    obtain ⟨_, _, hrun₁, hrun⟩ := of_bind_eq_ok hrun
    obtain ⟨t₁, ht₁, rfl⟩ := (hstep (s := h.types.scalars) rfl).1 hrun₁
    obtain ⟨_, _, hrun₂, hrun⟩ := of_bind_eq_ok hrun
    obtain ⟨t₂, ht₂, rfl⟩ := (hstep rfl).1 hrun₂
    obtain ⟨_, _, hrun₃, hrun⟩ := of_bind_eq_ok hrun
    obtain ⟨t₃, ht₃, rfl⟩ := (hstep rfl).1 hrun₃
    obtain ⟨_, _, hrun₄, hrun⟩ := of_bind_eq_ok hrun
    obtain ⟨t₄, ht₄, rfl⟩ := (hstep rfl).1 hrun₄
    obtain ⟨_, _, hrun₅, hrun⟩ := of_bind_eq_ok hrun
    obtain ⟨t₅, ht₅, rfl⟩ := (hstep rfl).1 hrun₅
    obtain ⟨t₆, ht₆, rfl⟩ := (hstep rfl).1 hrun
    refine ⟨fun k hk => ?_, _, rfl⟩
    cases k with
    | integer => exact ⟨t₁, rfl, ht₁⟩
    | doesNotReturn => exact ⟨t₂, rfl, ht₂⟩
    | dynamic => exact ⟨t₃, rfl, ht₃⟩
    | ast => exact ⟨t₄, rfl, ht₄⟩
    | type => exact ⟨t₅, rfl, ht₅⟩
    | function => exact ⟨t₆, rfl, ht₆⟩
    | pointer | concatenation => cases hk
  · rintro ⟨hnames, s, rfl⟩
    have hmem {k : Kind} (hk : k.isScalar = true) {t : Ty}
        (ht : (h.withScalars s).scalar k.word = .ok t) : (t, .scalar k) ∈ c := by
      obtain ⟨t', ht', hmem⟩ := hnames k hk
      cases ht.symm.trans ht'
      exact hmem
    refine (bind_eq_ok ((hstep (s := h.types.scalars) rfl).2
      ⟨s.integer, hmem rfl rfl, rfl⟩)).trans ?_
    refine (bind_eq_ok ((hstep rfl).2 ⟨s.doesNotReturn, hmem rfl rfl, rfl⟩)).trans ?_
    refine (bind_eq_ok ((hstep rfl).2 ⟨s.dynamic, hmem rfl rfl, rfl⟩)).trans ?_
    refine (bind_eq_ok ((hstep rfl).2 ⟨s.ast, hmem rfl rfl, rfl⟩)).trans ?_
    refine (bind_eq_ok ((hstep rfl).2 ⟨s.type, hmem rfl rfl, rfl⟩)).trans ?_
    exact (hstep rfl).2 ⟨s.function, hmem rfl rfl, rfl⟩

/-! ### Rebuilding -/

/-- The index of the heap is that of records which pass the checks. -/
structure Rebuilt (h : Heap) (c : Catalogue) : Prop where
  entries_eq : h.types.entries = c.map fun e => (hashWords e.2.words, e.1)
  passes : ∀ e ∈ c, h.Passes c.handles e.1 e.2
  nodup : c.records.Nodup
  names : h.NamesScalars c

/-- Where nothing is free, as in an arena whose words were just restored, rebuilding ends in
    the heap of the same words that has the given types in their order, and it ends so exactly
    if each record passes its check, no two are equal, and no scalar type is missing. -/
theorem rebuild_eq_ok_iff (hs : h.arena.Sized) (hfree : h.arena.free = []) :
    rebuild all h = .ok () h' ↔
      h'.arena = h.arena ∧ ∃ c : Catalogue, c.handles = all ∧ h'.Rebuilt c := by
  have hindexes {c : Catalogue} (hpasses : ∀ e ∈ c, h.Passes c.handles e.1 e.2)
      (hnodup : c.records.Nodup) : (h.indexed c).Indexes c :=
    ⟨rfl, fun e he => (hpasses e he).toStands.congr rfl, hnodup⟩
  have hcleared : (modify fun x : Heap => ⟨x.arena, { x.types with entries := [] }⟩ :
      EStateM (Stop RebuildError) Heap Unit) h = .ok () (h.indexed []) := rfl
  constructor
  · intro hrun
    obtain ⟨_, h₁, hcheck, hrun₁⟩ := of_bind_eq_ok hrun
    obtain ⟨hcheck, heq⟩ := inspect_eq_ok_iff.1 hcheck
    rw [heq, bind_eq_ok hcleared] at hrun₁
    obtain ⟨c, rfl, hpasses⟩ := (checkRecords_eq_ok_iff_passes hs).1 hcheck
    obtain ⟨_, h₂, hindex, hrun₂⟩ := of_bind_eq_ok hrun₁
    obtain ⟨hnodup, rfl⟩ := (indexRecords_eq_ok_iff (c := []) hs List.nodup_nil
      fun e he => (hpasses e he).toStands).1 hindex
    obtain ⟨hnames, s, rfl⟩ := ((hindexes hpasses hnodup).internScalars_eq_ok_iff hs hfree).1
      (lift_eq_ok_iff.1 hrun₂)
    exact ⟨rfl, c, rfl, rfl, fun e he => (hpasses e he).congr rfl, hnodup, hnames⟩
  · rintro ⟨harena, c, rfl, hc⟩
    have hpasses : ∀ e ∈ c, h.Passes c.handles e.1 e.2 :=
      fun e he => (hc.passes e he).congr harena.symm
    have hcheck : h.checkRecords c.handles c.handles = .ok () :=
      (checkRecords_eq_ok_iff_passes hs).2 ⟨c, rfl, hpasses⟩
    have hindex : indexRecords c.handles (h.indexed []) = .ok () (h.indexed c) :=
      (indexRecords_eq_ok_iff (c := []) hs List.nodup_nil
        fun e he => (hpasses e he).toStands).2 ⟨hc.nodup, rfl⟩
    have hend : h' = (h.indexed c).withScalars h'.types.scalars := by
      obtain ⟨a, ⟨entries, s⟩⟩ := h'
      cases harena
      cases hc.entries_eq
      rfl
    have hscalars : internScalars (h.indexed c) = .ok () h' :=
      ((hindexes hpasses hc.nodup).internScalars_eq_ok_iff hs hfree).2 ⟨hc.names, _, hend⟩
    have hinspect : inspect (fun h : Heap => h.checkRecords c.handles c.handles) h = .ok () h :=
      inspect_eq_ok hcheck
    refine (bind_eq_ok hinspect).trans ((bind_eq_ok hcleared).trans ?_)
    refine (bind_eq_ok hindex).trans ?_
    exact lift_eq_ok hscalars

/-! ### What the checks leave open -/

/-- A concatenation whose first member is the type itself has no size, although its record
    passes the check. -/
theorem Stands.size_selfMember {ms : List Ty} (hs : h.arena.Sized)
    (hr : h.Stands t (.concat (t :: ms))) : h.size t = .error .endless := by
  have hdepth (depth : Nat) : h.sizeWithin depth t = .error .endless := by
    induction depth with
    | zero => rfl
    | succ depth ih =>
      rw [sizeWithin, except_bind_ok (hr.kind_eq hs)]
      show (do sumWords (h.sizeWithin depth) (← h.members t) 0 : Except Fault UInt64) = _
      rw [except_bind_ok (hr.members_eq hs)]
      show (do sumWords (h.sizeWithin depth) ms (0 + (← h.sizeWithin depth t)) :
        Except Fault UInt64) = _
      rw [ih]
      rfl
  exact hdepth _

example : (answer? (rebuild [1, 2, 3, 4, 5, 6, 7]
    ⟨⟨#[0, 1, 3, 4, 5, 6, 7, 8, 2, 7, 7], [], 0, false⟩, .empty⟩)).map (·.2.size 7) =
      some (.error .endless) := by
  decide +kernel

end Heap

end TreeMachine
