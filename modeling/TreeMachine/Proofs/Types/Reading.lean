import Mathlib.Data.UInt
import TreeMachine.Proofs.Types.Record

/-! # Reading types

  Where a record stands, it can be read, and in an interned heap nothing that is asked about
  a type fails; the answers are those of its record.  Members of a concatenation are no
  concatenations, so sizes are found one level down; pointers nest, and their texts are found
  within the number of types.
-/

namespace TreeMachine

open Arena (toNat_pos_iff)

namespace Heap

variable {h : Heap} {c : Catalogue} {t : Ty} {r : Record}

/-! ### Records -/

/-- The record `r` stands at `t`. -/
structure Stands (h : Heap) (t : Ty) (r : Record) : Prop where
  holds : h.arena.Holds t r.words
  scalar : ∀ k, r = .scalar k → k.isScalar = true

/-- The members of a type with the given record. -/
def memberList (t : Ty) : Record → List Ty
  | .concat members => members
  | _ => [t]

namespace Stands

variable (hs : h.arena.Sized) (hr : h.Stands t r)

include hr in
theorem ne_zero : t ≠ 0 :=
  toNat_pos_iff.1 hr.holds.pos

include hr in
/-- Only a concatenation has the kind of one. -/
theorem kind_ne_concat (hne : ∀ ms, r ≠ .concat ms) : r.kind ≠ .concatenation := by
  cases r with
  | scalar k =>
    rintro rfl
    exact absurd (hr.scalar _ rfl) (by decide)
  | pointer elem => exact fun heq => by cases heq
  | concat ms => exact absurd rfl (hne ms)

include hs hr

/-- The number of words of a record fits a word. -/
theorem length_words : (UInt64.ofNat r.words.length).toNat = r.words.length := by
  have hin := hr.holds.inside
  have hlt := hs.lt
  rw [UInt64.toNat_ofNat']
  omega

theorem kind_eq : h.kind t = .ok (some r.kind) := by
  obtain ⟨rest, hrest⟩ := r.head_words
  have hholds := hr.holds
  rw [hrest] at hholds
  have hw : h.word t = .ok r.kind.word := hholds.head hs
  rw [kind, if_neg hr.ne_zero, except_bind_ok hw, Kind.ofWord?_word]
  rfl

theorem word_one {w : UInt64} (hw : r.words[1]? = some w) : h.word (t + 1) = .ok w :=
  hr.holds.word_add hs hw

theorem recordWords_eq : h.recordWords t = .ok (UInt64.ofNat r.words.length) := by
  have hlen := hr.length_words hs
  rw [recordWords, except_bind_ok (hr.kind_eq hs)]
  cases r with
  | scalar k =>
    have hk := hr.scalar k rfl
    cases k <;> first | rfl | exact absurd hk (by decide)
  | pointer elem => rfl
  | concat members =>
    have hw : h.word (t + 1) = .ok (UInt64.ofNat members.length) := hr.word_one hs rfl
    show (do return 2 + (← h.word (t + 1)) : Except Fault UInt64) = _
    rw [except_bind_ok hw]
    show Except.ok _ = Except.ok _
    congr 1
    apply UInt64.toNat.inj
    simp only [Record.words, List.length_cons] at hlen ⊢
    rw [hlen, UInt64.toNat_add, UInt64.toNat_ofNat']
    rw [UInt64.toNat_ofNat'] at hlen
    simp only [UInt64.reduceToNat]
    omega

theorem typeRecord_eq : h.typeRecord t = .ok r.words := by
  rw [typeRecord, except_bind_ok (hr.recordWords_eq hs)]
  exact hr.holds.slice hs (hr.length_words hs).symm

theorem members_eq : h.members t = .ok (memberList t r) := by
  rw [members, except_bind_ok (hr.kind_eq hs)]
  cases r with
  | scalar k =>
    have hk := hr.scalar k rfl
    cases k <;> first | rfl | exact absurd hk (by decide)
  | pointer elem => rfl
  | concat members =>
    have hw : h.word (t + 1) = .ok (UInt64.ofNat members.length) := hr.word_one hs rfl
    show (do h.slice (t + 2) (← h.word (t + 1)) : Except Fault (List Ty)) = _
    rw [except_bind_ok hw]
    have hlen := hr.length_words hs
    have hdrop := hr.holds.drop hs (k := 2) (by simp [Record.words])
    refine hdrop.slice hs ?_
    simp only [Record.words, List.length_cons, UInt64.toNat_ofNat'] at hlen
    simp only [Record.words, UInt64.reduceToNat, List.drop_succ_cons, List.drop_zero]
    rw [UInt64.toNat_ofNat']
    omega

end Stands

theorem Interned.sized (hi : h.Interned c) : h.arena.Sized := hi.sound.sized

/-- The records of an interned heap stand where its index says. -/
theorem Interned.stands (hi : h.Interned c) (he : (t, r) ∈ c) : h.Stands t r where
  holds := (hi.owns _ he).toHolds
  scalar := by
    rintro k rfl
    exact hi.valid.admits he

theorem Interned.ne_zero (hi : h.Interned c) (he : (t, r) ∈ c) : t ≠ 0 :=
  (hi.stands he).ne_zero

theorem Interned.zero_not_mem (hi : h.Interned c) : (0 : Ty) ∉ c.handles := by
  intro hmem
  obtain ⟨r, hr⟩ := Catalogue.exists_record hmem
  exact hi.ne_zero hr rfl

@[simp] theorem kind_zero (h : Heap) : h.kind 0 = .ok none := rfl

@[simp] theorem size_zero (h : Heap) : h.size 0 = .ok 0 := rfl

@[simp] theorem members_zero (h : Heap) : h.members 0 = .ok [] := rfl

theorem Interned.kind_eq (hi : h.Interned c) (he : (t, r) ∈ c) :
    h.kind t = .ok (some r.kind) :=
  (hi.stands he).kind_eq hi.sized

/-- Only a concatenation has the kind of one. -/
theorem Interned.kind_ne_concat (hi : h.Interned c) (he : (t, r) ∈ c)
    (hr : ∀ ms, r ≠ .concat ms) :
    (.ok (some r.kind) : Except Fault (Option Kind)) ≠ .ok (some .concatenation) := by
  intro heq
  rw [Except.ok.injEq, Option.some.injEq] at heq
  exact (hi.stands he).kind_ne_concat hr heq

/-- The number of words of a record fits a word. -/
theorem Interned.length_words (hi : h.Interned c) (he : (t, r) ∈ c) :
    (UInt64.ofNat r.words.length).toNat = r.words.length :=
  (hi.stands he).length_words hi.sized

theorem Interned.recordWords_eq (hi : h.Interned c) (he : (t, r) ∈ c) :
    h.recordWords t = .ok (UInt64.ofNat r.words.length) :=
  (hi.stands he).recordWords_eq hi.sized

theorem Interned.typeRecord_eq (hi : h.Interned c) (he : (t, r) ∈ c) :
    h.typeRecord t = .ok r.words :=
  (hi.stands he).typeRecord_eq hi.sized

theorem Interned.members_eq (hi : h.Interned c) (he : (t, r) ∈ c) :
    h.members t = .ok (memberList t r) :=
  (hi.stands he).members_eq hi.sized

theorem Interned.elem_eq (hi : h.Interned c) {elem : Ty} (he : (t, .pointer elem) ∈ c) :
    h.elem t = .ok elem := by
  rw [Heap.elem, except_bind_ok (hi.kind_eq he)]
  exact (hi.stands he).word_one hi.sized rfl

/-! ### Sizes -/

/-- The number of words of a value; nothing for what is no type. -/
def width (h : Heap) (t : Ty) : Nat :=
  match h.size t with
  | .ok s => s.toNat
  | .error _ => 0

theorem width_of_size {s : UInt64} (hs : h.size t = .ok s) : h.width t = s.toNat := by
  rw [width, hs]

/-- A heap that owns something has words. -/
theorem Interned.size_pos (hi : h.Interned c) (he : (t, r) ∈ c) : 2 ≤ h.arena.words.size := by
  have howns := hi.owns _ he
  have hpos := howns.pos
  have hin := howns.inside
  have hne := List.length_pos_iff.2 r.words_ne_nil
  dsimp only at hpos hin
  omega

/-- The size of what is no concatenation is that of its kind, at any depth. -/
theorem Interned.sizeWithin_member (hi : h.Interned c) (he : (t, r) ∈ c)
    (hr : ∀ ms, r ≠ .concat ms) (depth : Nat) :
    h.sizeWithin (depth + 1) t = .ok r.memberSize := by
  rw [sizeWithin, except_bind_ok (hi.kind_eq he)]
  cases r with
  | scalar k =>
    have ha := hi.valid.admits he
    cases k <;> first | rfl | (simp [Catalogue.Admits, Kind.isScalar] at ha)
  | pointer elem => rfl
  | concat members => exact absurd rfl (hr members)

theorem Interned.size_member (hi : h.Interned c) (he : (t, r) ∈ c)
    (hr : ∀ ms, r ≠ .concat ms) : h.size t = .ok r.memberSize :=
  hi.sizeWithin_member he hr _

/-- Adding up sizes that are known. -/
theorem sumWords_eq {f : Ty → Except Fault UInt64} {g : Ty → UInt64} {ts : List Ty}
    (hf : ∀ t ∈ ts, f t = .ok (g t)) (n : UInt64) :
    sumWords f ts n = .ok (n + (ts.map g).sum) := by
  induction ts generalizing n with
  | nil => simp [sumWords]
  | cons t rest ih =>
    rw [sumWords, except_bind_ok (hf t List.mem_cons_self),
      ih (fun t ht => hf t (List.mem_cons_of_mem _ ht)), List.map_cons, List.sum_cons,
      UInt64.add_assoc]

theorem memberSize_le (r : Record) : r.memberSize.toNat ≤ 2 := by
  unfold Record.memberSize
  split <;> decide

theorem memberSize_pos (hr : r.isMember = true) : 0 < r.memberSize.toNat := by
  unfold Record.memberSize
  split
  · cases hr
  · decide
  · decide

theorem isMember_ne_concat (hr : r.isMember = true) (ms : List Ty) : r ≠ .concat ms := by
  rintro rfl
  cases hr

/-- A member of a concatenation has one or two words. -/
theorem Interned.width_member (hi : h.Interned c) (he : (t, r) ∈ c) (hr : r.isMember = true) :
    h.size t = .ok (UInt64.ofNat (h.width t)) ∧ 0 < h.width t ∧ h.width t ≤ 2 := by
  have hsize := hi.size_member he (isMember_ne_concat hr)
  rw [width_of_size hsize, UInt64.ofNat_toNat]
  exact ⟨hsize, memberSize_pos hr, memberSize_le r⟩

/-- The sum of words that do not wrap. -/
theorem toNat_sum_ofNat {α : Type} (f : α → Nat) (l : List α) (hlt : (l.map f).sum < 2 ^ 64) :
    ((l.map fun x => UInt64.ofNat (f x)).sum).toNat = (l.map f).sum := by
  induction l with
  | nil => rfl
  | cons x rest ih =>
    simp only [List.map_cons, List.sum_cons] at hlt ⊢
    rw [UInt64.toNat_add, ih (by omega), UInt64.toNat_ofNat']
    omega

theorem sum_map_le {α : Type} (f : α → Nat) {l : List α} {k : Nat} (hf : ∀ x ∈ l, f x ≤ k) :
    (l.map f).sum ≤ l.length * k := by
  induction l with
  | nil => simp
  | cons x rest ih =>
    have hx := hf x List.mem_cons_self
    have hrest := ih fun y hy => hf y (List.mem_cons_of_mem _ hy)
    simp only [List.map_cons, List.sum_cons, List.length_cons, Nat.add_mul, Nat.one_mul]
    omega

/-- The size of a concatenation is the sum of the sizes of its members. -/
theorem Interned.size_concat (hi : h.Interned c) {ms : List Ty} (he : (t, .concat ms) ∈ c) :
    h.size t = .ok (UInt64.ofNat (ms.map h.width).sum) ∧
      h.width t = (ms.map h.width).sum ∧ (ms.map h.width).sum ≤ 2 * ms.length := by
  have hadm := (hi.valid.admits he).2
  have hsize2 := hi.size_pos he
  have hin := (hi.owns _ he).inside
  have hlt := hi.sized.lt
  simp only [Record.words, List.length_cons] at hin
  have hle : (ms.map h.width).sum ≤ ms.length * 2 := by
    refine sum_map_le _ fun m hm => ?_
    obtain ⟨r, hr, hmem⟩ := hadm m hm
    exact (hi.width_member hr hmem).2.2
  have hdepth : h.depthBound = (h.arena.words.size - 1 + 1) + 1 := by
    unfold depthBound
    omega
  have hmembers : ∀ m ∈ ms, h.sizeWithin (h.arena.words.size - 1 + 1) m
      = .ok (UInt64.ofNat (h.width m)) := by
    intro m hm
    obtain ⟨r, hr, hmem⟩ := hadm m hm
    have hwidth := (hi.width_member hr hmem).1
    rw [size, depthBound, hi.sizeWithin_member hr (isMember_ne_concat hmem)] at hwidth
    rw [hi.sizeWithin_member hr (isMember_ne_concat hmem), hwidth]
  have hsum := toNat_sum_ofNat h.width ms (by omega)
  have hsize : h.size t = .ok (UInt64.ofNat (ms.map h.width).sum) := by
    rw [size, hdepth, sizeWithin, except_bind_ok (hi.kind_eq he)]
    show (do sumWords (h.sizeWithin _) (← h.members t) 0 : Except Fault UInt64) = _
    rw [except_bind_ok (hi.members_eq he)]
    show sumWords _ ms 0 = _
    rw [sumWords_eq hmembers, UInt64.zero_add]
    congr 1
    apply UInt64.toNat.inj
    rw [hsum, UInt64.toNat_ofNat']
    omega
  refine ⟨hsize, ?_, by omega⟩
  rw [width_of_size hsize, UInt64.toNat_ofNat']
  omega

/-- Every type has a size. -/
theorem Interned.size_eq (hi : h.Interned c) (he : (t, r) ∈ c) :
    h.size t = .ok (UInt64.ofNat (h.width t)) := by
  by_cases hr : ∃ ms, r = .concat ms
  · obtain ⟨ms, rfl⟩ := hr
    obtain ⟨hsize, hwidth, -⟩ := hi.size_concat he
    rw [hwidth, hsize]
  · have hsize := hi.size_member he fun ms hms => hr ⟨ms, hms⟩
    rw [width_of_size hsize, UInt64.ofNat_toNat, hsize]

/-- The size of a type is small. -/
theorem Interned.width_lt (hi : h.Interned c) (he : (t, r) ∈ c) : h.width t < 2 ^ 47 := by
  by_cases hr : ∃ ms, r = .concat ms
  · obtain ⟨ms, rfl⟩ := hr
    obtain ⟨-, hwidth, hle⟩ := hi.size_concat he
    have hin := (hi.owns _ he).inside
    have hlt := hi.sized.lt
    simp only [Record.words, List.length_cons] at hin
    omega
  · have hsize := hi.size_member he fun ms hms => hr ⟨ms, hms⟩
    have := memberSize_le r
    rw [width_of_size hsize]
    omega

/-! ### Pointers -/

theorem anyTy_ok {f : Ty → Except Fault Bool} {ts : List Ty}
    (hf : ∀ t ∈ ts, ∃ b, f t = .ok b) : ∃ b, anyTy f ts = .ok b := by
  induction ts with
  | nil => exact ⟨false, rfl⟩
  | cons t rest ih =>
    obtain ⟨b, hb⟩ := hf t List.mem_cons_self
    obtain ⟨b', hb'⟩ := ih fun t ht => hf t (List.mem_cons_of_mem _ ht)
    rw [anyTy, except_bind_ok hb]
    cases b with
    | true => exact ⟨true, rfl⟩
    | false => exact ⟨b', hb'⟩

theorem Interned.holdsPointersWithin_member (hi : h.Interned c) (he : (t, r) ∈ c)
    (hr : ∀ ms, r ≠ .concat ms) (depth : Nat) :
    ∃ b, h.holdsPointersWithin (depth + 1) t = .ok b := by
  rw [holdsPointersWithin, except_bind_ok (hi.kind_eq he)]
  cases r with
  | scalar k =>
    have ha := hi.valid.admits he
    cases k <;> first | exact ⟨_, rfl⟩ | (simp [Catalogue.Admits, Kind.isScalar] at ha)
  | pointer elem => exact ⟨true, rfl⟩
  | concat ms => exact absurd rfl (hr ms)

/-- Whether values of a type hold addresses can always be said. -/
theorem Interned.holdsPointers_ok (hi : h.Interned c) (ht : t = 0 ∨ t ∈ c.handles) :
    ∃ b, h.holdsPointers t = .ok b := by
  rcases ht with rfl | ht
  · exact ⟨false, rfl⟩
  obtain ⟨r, hr⟩ := Catalogue.exists_record ht
  by_cases hconcat : ∃ ms, r = .concat ms
  · obtain ⟨ms, rfl⟩ := hconcat
    have hsize2 := hi.size_pos hr
    have hdepth : h.depthBound = (h.arena.words.size - 1 + 1) + 1 := by
      unfold depthBound
      omega
    rw [holdsPointers, hdepth, holdsPointersWithin, except_bind_ok (hi.kind_eq hr)]
    show ∃ b, (do anyTy (h.holdsPointersWithin _) (← h.members t) : Except Fault Bool) = .ok b
    rw [except_bind_ok (hi.members_eq hr)]
    refine anyTy_ok fun m hm => ?_
    obtain ⟨rm, hrm, hmem⟩ := (hi.valid.admits hr).2 m hm
    exact hi.holdsPointersWithin_member hrm (isMember_ne_concat hmem) _
  · exact hi.holdsPointersWithin_member hr (fun ms hms => hconcat ⟨ms, hms⟩) _

/-! ### Texts -/

theorem textsOf_eq {f : Ty → Except Fault String} {ts : List Ty}
    (hf : ∀ t ∈ ts, ∃ s, f t = .ok s) : ∃ ss, textsOf f ts = .ok ss := by
  induction ts with
  | nil => exact ⟨[], rfl⟩
  | cons t rest ih =>
    obtain ⟨s, hs⟩ := hf t List.mem_cons_self
    obtain ⟨ss, hss⟩ := ih fun t ht => hf t (List.mem_cons_of_mem _ ht)
    refine ⟨s :: ss, ?_⟩
    rw [textsOf, except_bind_ok hs, except_bind_ok hss]
    rfl

/-- Each type refers to older ones, so its text is found within the number of types. -/
theorem Interned.typeTextWithin_ok {c' rest : Catalogue} (hi : h.Interned c)
    (hc : c = c' ++ rest) (he : (t, r) ∈ c') {depth : Nat} (hd : c'.length ≤ depth) :
    ∃ s, h.typeTextWithin depth t = .ok s := by
  have hvalid : c'.Valid := Catalogue.Valid.of_append (hc ▸ hi.valid)
  induction hvalid generalizing rest t r depth with
  | nil => cases he
  | @snoc c₁ t₁ r₁ hc₁ ht₁ hr₁ ha ih =>
    rw [List.length_append, List.length_singleton] at hd
    rw [List.append_assoc] at hc
    obtain ⟨depth, rfl⟩ : ∃ d, depth = d + 1 := ⟨depth - 1, by omega⟩
    rcases List.mem_append.1 he with he | he
    · exact ih hc he (by omega)
    · cases List.mem_singleton.1 he
      have hmem : (t₁, r₁) ∈ c := by rw [hc]; simp
      have hparts : ∀ p ∈ r₁.parts, ∃ s, h.typeTextWithin depth p = .ok s := by
        intro p hp
        obtain ⟨rp, hrp⟩ := Catalogue.exists_record (ha.parts p hp)
        exact ih hc hrp (by omega)
      rw [typeTextWithin, except_bind_ok (hi.kind_eq hmem)]
      cases r₁ with
      | scalar k =>
        cases k <;> first | exact ⟨_, rfl⟩ | (simp [Catalogue.Admits, Kind.isScalar] at ha)
      | pointer elem =>
        obtain ⟨s, hs⟩ := hparts elem (List.mem_singleton_self _)
        have hw : h.word (t₁ + 1) = .ok elem := (hi.stands hmem).word_one hi.sized rfl
        refine ⟨"pointer(" ++ s ++ ")", ?_⟩
        show (do return "pointer(" ++ (← h.typeTextWithin depth (← h.word (t₁ + 1))) ++ ")"
          : Except Fault String) = _
        rw [except_bind_ok hw, except_bind_ok hs]
        rfl
      | concat members =>
        obtain ⟨ss, hss⟩ : ∃ ss, textsOf (h.typeTextWithin depth) members = .ok ss :=
          textsOf_eq hparts
        refine ⟨"concat(" ++ ", ".intercalate ss ++ ")", ?_⟩
        show (do
          let parts ← textsOf (h.typeTextWithin depth) (← h.members t₁)
          return "concat(" ++ ", ".intercalate parts ++ ")" : Except Fault String) = _
        rw [except_bind_ok (hi.members_eq hmem)]
        show (do
          let parts ← textsOf (h.typeTextWithin depth) members
          return "concat(" ++ ", ".intercalate parts ++ ")" : Except Fault String) = _
        rw [except_bind_ok hss]
        rfl

/-- There are fewer types than words. -/
theorem Interned.length_le (hi : h.Interned c) : c.length ≤ h.arena.words.size := by
  have hnodup : (c.handles.map UInt64.toNat).Nodup :=
    hi.valid.nodup_handles.map fun a b => UInt64.toNat.inj
  have hsub : (c.handles.map UInt64.toNat).Subperm (List.range h.arena.words.size) := by
    refine List.subperm_of_subset hnodup ?_
    intro i hmem
    obtain ⟨t, ht, rfl⟩ := List.mem_map.1 hmem
    obtain ⟨r, hr⟩ := Catalogue.exists_record ht
    have hin := (hi.owns _ hr).inside
    have hne := List.length_pos_iff.2 r.words_ne_nil
    dsimp only at hin
    rw [List.mem_range]
    omega
  have := hsub.length_le
  simpa [Catalogue.handles] using this

/-- Every type has a text. -/
theorem Interned.typeText_ok (hi : h.Interned c) (ht : t = 0 ∨ t ∈ c.handles) :
    ∃ s, h.typeText t = .ok s := by
  rcases ht with rfl | ht
  · exact ⟨"nil", rfl⟩
  · obtain ⟨r, hr⟩ := Catalogue.exists_record ht
    have hle := hi.length_le
    exact hi.typeTextWithin_ok (List.append_nil c).symm hr (by unfold depthBound; omega)

end Heap

end TreeMachine
