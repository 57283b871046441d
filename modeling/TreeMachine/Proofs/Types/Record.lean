import Mathlib.Data.List.Induction
import TreeMachine.Proofs.Arena.Growth
import TreeMachine.Proofs.Outcome
import TreeMachine.Types.Intern

/-! # Type records and catalogues

  A catalogue lists the types of a heap with their records, oldest first.  It is valid when
  records and handles are distinct and each record refers to older types only.  A heap is
  interned by a catalogue when its index is that of the catalogue and the arena owns the
  records.  Everything that can be asked about a type is then read off the catalogue.
-/

namespace TreeMachine

/-- The record of a type. -/
inductive Record where
  /-- A kind and nothing else. -/
  | scalar (k : Kind)
  | pointer (elem : Ty)
  | concat (members : List Ty)
deriving DecidableEq

namespace Record

/-- The words of a record. -/
def words : Record → List UInt64
  | scalar k => [k.word]
  | pointer elem => [Kind.pointer.word, elem]
  | concat members => Kind.concatenation.word :: UInt64.ofNat members.length :: members

/-- The kind of a record. -/
def kind : Record → Kind
  | scalar k => k
  | pointer _ => .pointer
  | concat _ => .concatenation

/-- The types that a record refers to. -/
def parts : Record → List Ty
  | scalar _ => []
  | pointer elem => [elem]
  | concat members => members

/-- Whether a type with this record can be a member of a concatenation: it has words and is
    no concatenation itself. -/
def isMember : Record → Bool
  | scalar k => k ≠ .doesNotReturn
  | pointer _ => true
  | concat _ => false

/-- The number of words of a value that is no concatenation. -/
def memberSize : Record → UInt64
  | scalar .doesNotReturn => 0
  | scalar .dynamic => 2
  | _ => 1

theorem words_ne_nil (r : Record) : r.words ≠ [] := by
  cases r <;> simp [words]

theorem head_words (r : Record) : ∃ rest, r.words = r.kind.word :: rest := by
  cases r with
  | scalar k => exact ⟨[], rfl⟩
  | pointer elem => exact ⟨[elem], rfl⟩
  | concat members => exact ⟨UInt64.ofNat members.length :: members, rfl⟩

end Record

/-- Types with their records, oldest first. -/
abbrev Catalogue := List (Ty × Record)

namespace Catalogue

/-- The handles of a catalogue. -/
def handles (c : Catalogue) : List Ty := c.map (·.1)

/-- The records of a catalogue. -/
def records (c : Catalogue) : List Record := c.map (·.2)

theorem mem_handles {c : Catalogue} {t : Ty} {r : Record} (h : (t, r) ∈ c) : t ∈ c.handles :=
  List.mem_map_of_mem h

theorem mem_records {c : Catalogue} {t : Ty} {r : Record} (h : (t, r) ∈ c) : r ∈ c.records :=
  List.mem_map_of_mem h

theorem exists_record {c : Catalogue} {t : Ty} (h : t ∈ c.handles) : ∃ r, (t, r) ∈ c := by
  obtain ⟨⟨t', r⟩, hmem, rfl⟩ := List.mem_map.1 h
  exact ⟨r, hmem⟩

/-- The record may follow the catalogue: it is well formed and refers to types of it. -/
def Admits (c : Catalogue) : Record → Prop
  | .scalar k => k.isScalar = true
  | .pointer elem => elem ∈ c.handles
  | .concat members =>
    2 ≤ members.length ∧ ∀ m ∈ members, ∃ r, (m, r) ∈ c ∧ r.isMember = true

/-- Each record is new and refers to older types only. -/
inductive Valid : Catalogue → Prop where
  | nil : Valid []
  | snoc {c : Catalogue} {t : Ty} {r : Record} (hc : Valid c) (ht : t ∉ c.handles)
      (hr : r ∉ c.records) (ha : c.Admits r) : Valid (c ++ [(t, r)])

theorem Admits.append {c : Catalogue} {r : Record} (h : c.Admits r) (rest : Catalogue) :
    Admits (c ++ rest) r := by
  cases r with
  | scalar k => exact h
  | pointer elem =>
    show elem ∈ (c ++ rest).handles
    rw [handles, List.map_append]
    exact List.mem_append_left _ h
  | concat members =>
    refine ⟨h.1, fun m hm => ?_⟩
    obtain ⟨r, hr, hmem⟩ := h.2 m hm
    exact ⟨r, List.mem_append_left _ hr, hmem⟩

theorem Admits.parts {c : Catalogue} {r : Record} (h : c.Admits r) :
    ∀ p ∈ r.parts, p ∈ c.handles := by
  intro p hp
  cases r with
  | scalar k => cases hp
  | pointer elem =>
    rw [List.mem_singleton.1 hp]
    exact h
  | concat members =>
    obtain ⟨r, hr, -⟩ := h.2 p hp
    exact mem_handles hr

namespace Valid

/-- Every record of a valid catalogue is one that the whole catalogue admits. -/
theorem admits {c : Catalogue} (hc : Valid c) {t : Ty} {r : Record} (h : (t, r) ∈ c) :
    c.Admits r := by
  induction hc with
  | nil => cases h
  | snoc _ _ _ ha ih =>
    rcases List.mem_append.1 h with h | h
    · exact (ih h).append _
    · cases List.mem_singleton.1 h
      exact ha.append _

theorem nodup_handles {c : Catalogue} (hc : Valid c) : c.handles.Nodup := by
  induction hc with
  | nil => exact List.nodup_nil
  | snoc _ ht _ _ ih =>
    rw [handles, List.map_append, List.nodup_append]
    refine ⟨ih, List.nodup_singleton _, ?_⟩
    intro a ha b hb
    rw [List.mem_singleton.1 hb]
    rintro rfl
    exact ht ha

theorem nodup_records {c : Catalogue} (hc : Valid c) : c.records.Nodup := by
  induction hc with
  | nil => exact List.nodup_nil
  | snoc _ _ hr _ ih =>
    rw [records, List.map_append, List.nodup_append]
    refine ⟨ih, List.nodup_singleton _, ?_⟩
    intro a ha b hb
    rw [List.mem_singleton.1 hb]
    rintro rfl
    exact hr ha

/-- A handle has one record. -/
theorem record_unique {c : Catalogue} (hc : Valid c) {t : Ty} {r r' : Record} (h : (t, r) ∈ c)
    (h' : (t, r') ∈ c) : r = r' :=
  congrArg Prod.snd (List.inj_on_of_nodup_map hc.nodup_handles h h' rfl)

/-- A record has one handle. -/
theorem handle_unique {c : Catalogue} (hc : Valid c) {t t' : Ty} {r : Record} (h : (t, r) ∈ c)
    (h' : (t', r) ∈ c) : t = t' :=
  congrArg Prod.fst (List.inj_on_of_nodup_map hc.nodup_records h h' rfl)

/-- The newest type is not part of any record. -/
theorem newest_not_part {c : Catalogue} {t : Ty} {r : Record} (hc : Valid (c ++ [(t, r)]))
    {t' : Ty} {r' : Record} (h : (t', r') ∈ c ++ [(t, r)]) : t ∉ r'.parts := by
  generalize heq : c ++ [(t, r)] = whole at hc h
  cases hc with
  | nil => simp at heq
  | snoc hc ht _ ha =>
    obtain ⟨rfl, hlast⟩ := List.append_inj' heq rfl
    cases hlast
    intro hp
    rcases List.mem_append.1 h with h | h
    · exact ht ((hc.admits h).parts t hp)
    · cases List.mem_singleton.1 h
      exact ht (ha.parts t hp)

/-- Any prefix of a valid catalogue is valid. -/
theorem of_append {c rest : Catalogue} (h : Valid (c ++ rest)) : Valid c := by
  induction rest using List.reverseRecOn with
  | nil => simpa using h
  | append_singleton rest e ih =>
    refine ih ?_
    rw [← List.append_assoc] at h
    generalize heq : c ++ rest ++ [e] = whole at h
    cases h with
    | nil => simp at heq
    | snoc hc _ _ _ =>
      obtain ⟨rfl, -⟩ := List.append_inj' heq rfl
      exact hc

end Valid

end Catalogue

/-- The index of the heap is that of the catalogue, and the arena owns its records. -/
structure Heap.Interned (h : Heap) (c : Catalogue) : Prop where
  sound : h.arena.Sound
  entries_eq : h.types.entries = c.map fun e => (hashWords e.2.words, e.1)
  owns : ∀ e ∈ c, h.arena.Owns e.1 e.2.words
  valid : c.Valid

/-- The handles of all types, oldest first. -/
def Heap.handles (h : Heap) : List Ty := h.types.entries.map (·.2)

theorem Heap.Interned.handles_eq {h : Heap} {c : Catalogue} (hi : h.Interned c) :
    h.handles = c.handles := by
  rw [handles, hi.entries_eq, List.map_map]
  rfl

end TreeMachine
