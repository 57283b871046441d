import Mathlib.Logic.Relation
import TreeMachine.Proofs.Collect.Orderly
import TreeMachine.Proofs.Types.Concatenation

/-! # Canonical types through the history of an image

  Types are interned between allocations, writes and collections, and some of these
  operations fail half way.  Main statement: whatever happens, equal types have equal
  handles, and the handle of a type stays the same.
-/

namespace TreeMachine

/-- The state that an operation leaves, whether it has an answer or not. -/
def stateAfter {ε σ α : Type} : EStateM.Result ε σ α → σ
  | .ok _ s => s
  | .error _ s => s

theorem Yields.stateAfter {ε σ α : Type} {x : EStateM ε σ α} {s : σ} {P : σ → Prop}
    (hx : Yields x s (fun _ s' => P s') (fun _ s' => P s')) : P (stateAfter (x s)) := by
  cases hrun : x s with
  | ok a s' => exact hx.ok hrun
  | error e s' => exact hx.error hrun

namespace Image

/-- The model refers to known types only, and its concatenations can be counted. -/
def Describes (image : Image) (m : Model) : Prop :=
  m.RefsIn (· ∈ image.heap.handles) ∧ (m.normal image.heap.shape?).Countable

/-- Nothing but words outside the type records, functions, programs and roots differs. -/
structure SameTypes (image image' : Image) : Prop where
  types_eq : image'.heap.types = image.heap.types
  free_eq : image'.heap.arena.free = image.heap.arena.free
  freeWords_eq : image'.heap.arena.freeWords = image.heap.arena.freeWords
  collecting_eq : image'.heap.arena.collecting = image.heap.arena.collecting
  size_eq : image'.heap.arena.words.size = image.heap.arena.words.size
  record_eq : ∀ t ∈ image.heap.handles, image'.heap.typeRecord t = image.heap.typeRecord t

/-- One step in the history of an image.  Operations that fail are steps as well. -/
inductive Step : Image → Image → Prop where
  | intern {image : Image} (m : Model) (hm : image.Describes m) :
      Step image (stateAfter (onHeap (Heap.intern m) image))
  | pointerTo {image : Image} (t : Ty) (ht : t = 0 ∨ t ∈ image.heap.handles) :
      Step image (stateAfter (onHeap (Heap.pointerTo t) image))
  | concatenate {image : Image} (ts : List Ty) (hts : ∀ t ∈ ts, t = 0 ∨ t ∈ image.heap.handles)
      (hcount : ((Model.concat (ts.map .canonical)).normal image.heap.shape?).Countable) :
      Step image (stateAfter (onHeap (Heap.concatenate ts) image))
  | allocate {image : Image} (n : UInt64) :
      Step image (stateAfter (onArena (Arena.allocate n) image))
  /-- The words of values and nodes change; so may anything outside the heap. -/
  | write {image image' : Image} (hsame : image.SameTypes image') : Step image image'
  /-- Without registered values a collection is always a step.  With them, whatever they are,
      no vector that is reached may claim words around the end of the address space. -/
  | collect {image : Image} (hfit : image.collector.roots ≠ [] → image.VectorsFit) :
      Step image (stateAfter (collect image))

/-- What several steps can lead to. -/
abbrev Steps : Image → Image → Prop := Relation.ReflTransGen Step

end Image

namespace Heap

variable {h : Heap} {c : Catalogue}

/-- The shapes read off the arena are those of the catalogue. -/
theorem Interned.normal_eq (hi : h.Interned c) {m : Model} (hm : m.RefsIn (· ∈ c.handles)) :
    m.normal h.shape? = m.normal c.shapes :=
  Model.normal_congr (fun _ ht => hi.shape?_eq ht) m hm

/-- Each type has a record of its own, and records refer to types of the index only. -/
structure Canonical (h : Heap) : Prop where
  nodup : h.handles.Nodup
  readable : ∀ t ∈ h.handles, ∃ ws, h.typeRecord t = .ok ws
  distinct : ∀ t ∈ h.handles, ∀ t' ∈ h.handles, h.typeRecord t = h.typeRecord t' → t = t'
  elem_mem : ∀ t ∈ h.handles, h.kind t = .ok (some .pointer) →
    ∃ elem ∈ h.handles, h.elem t = .ok elem
  members_mem : ∀ t ∈ h.handles, ∃ ms, h.members t = .ok ms ∧ ∀ m ∈ ms, m ∈ h.handles

theorem Interned.canonical (hi : h.Interned c) : h.Canonical := by
  have hrecord : ∀ t ∈ h.handles, ∃ r, (t, r) ∈ c := fun t ht =>
    Catalogue.exists_record (hi.handles_eq ▸ ht)
  refine ⟨?_, fun t ht => ?_, fun t ht t' ht' heq => ?_, fun t ht hk => ?_, fun t ht => ?_⟩
  · rw [hi.handles_eq]
    exact hi.valid.nodup_handles
  · obtain ⟨r, hr⟩ := hrecord t ht
    exact ⟨_, hi.typeRecord_eq hr⟩
  · obtain ⟨r, hr⟩ := hrecord t ht
    obtain ⟨r', hr'⟩ := hrecord t' ht'
    rw [hi.typeRecord_eq hr, hi.typeRecord_eq hr', Except.ok.injEq] at heq
    cases Record.words_injective heq
    exact hi.valid.handle_unique hr hr'
  · obtain ⟨r, hr⟩ := hrecord t ht
    have hadm := hi.valid.admits hr
    rw [hi.kind_eq hr] at hk
    cases r with
    | scalar k =>
      cases hk
      exact absurd hadm (by simp [Catalogue.Admits, Kind.isScalar])
    | pointer elem => exact ⟨elem, hi.handles_eq ▸ hadm, hi.elem_eq hr⟩
    | concat ms => cases hk
  · obtain ⟨r, hr⟩ := hrecord t ht
    refine ⟨_, hi.members_eq hr, fun m hm => ?_⟩
    cases r with
    | concat ms =>
      rw [hi.handles_eq]
      exact (hi.valid.admits hr).parts m hm
    | _ => exact List.mem_singleton.1 hm ▸ ht

theorem Interned.normal_eq_of_null (hi : h.Interned c) {m : Model}
    (hm : m.RefsIn fun t => t = 0 ∨ t ∈ c.handles) : m.normal h.shape? = m.normal c.shapes := by
  refine Model.normal_congr (fun t ht => ?_) m hm
  rcases ht with rfl | ht
  · rw [Catalogue.shapes_of_not_mem hi.zero_not_mem]
    rfl
  · exact hi.shape?_eq ht

theorem Interned.length_lt (hi : h.Interned c) {e : Ty × Record} (he : e ∈ c) :
    e.2.words.length < 2 ^ 64 := by
  have hin := (hi.owns e he).inside
  have hlt := hi.sound.sized.lt
  omega

/-- The records stay where they are as long as their words are not freed. -/
theorem Standard.withArena (hs : h.Standard c) {a : Arena} (hsound : a.Sound)
    (hwords : a.words = h.arena.words)
    (htaken : ∀ e ∈ c, ∀ i, i < e.2.words.length → ¬ a.Free (e.1.toNat + i)) :
    Standard ⟨a, h.types⟩ c where
  sound := hsound
  entries_eq := hs.entries_eq
  owns e he := by
    have howns := hs.owns e he
    refine ⟨⟨howns.pos, ?_, ?_⟩, htaken e he⟩ <;> dsimp only <;> rw [hwords]
    · exact howns.inside
    · exact howns.same
  valid := hs.valid
  integer := hs.integer
  doesNotReturn := hs.doesNotReturn
  dynamic := hs.dynamic
  ast := hs.ast
  type := hs.type
  function := hs.function

end Heap

namespace Image

variable {image image' : Image} {c : Catalogue}

/-- Marking the types of a standard heap finds their records. -/
theorem mark_types {found : Collect.Found} (hs : image.heap.Standard c)
    (hm : image.mark = .ok found) {e : Ty × Record} (he : e ∈ c) :
    ∃ n : UInt64, n.toNat = e.2.words.length ∧ ⟨e.1, n⟩ ∈ found.living.regions := by
  have hmem : Collect.Target.type e.1 ∈ image.rootTargets := by
    refine List.mem_append_left _ (List.mem_map_of_mem ?_)
    rw [TypeTable.all, List.mem_mergeSort, hs.entries_eq, List.map_map]
    exact List.mem_map_of_mem he
  have hdone := (searched_of_mark hm).done _ hmem (hs.ne_zero he)
  exact ⟨_, hs.length_words he, hdone _ (.type (hs.recordWords_eq he))⟩

/-- Ending a collection keeps the types it has found. -/
theorem endCollection_yields {found : Collect.Found} (hs : image.heap.Standard c)
    (hc : image.heap.arena.collecting = true) (hm : image.mark = .ok found)
    (hbounded : ∀ r ∈ found.living.regions, r.addr.toNat + r.size.toNat < 2 ^ 64) :
    Yields (onArena (Arena.endCollection found.living)) image
      (fun _ image' => image'.heap.Standard c) (fun _ image' => image'.heap.Standard c) := by
  have hgood := (searched_of_mark hm).search.good
  have hend := Arena.endCollection_yields hs.sound.sized hc hgood.ordered
    fun r hr => ⟨Nat.le_of_lt (hgood.starts r hr), hbounded r hr⟩
  -- The words of the records are in living regions, so they are not free.
  have hkept : ∀ a : Arena, a.Sound → a.words = image.heap.arena.words →
      (∀ r ∈ found.living.regions, ∀ i, r.Has i → ¬ a.Free i) →
      Heap.Standard ⟨a, image.heap.types⟩ c := by
    intro a hsound hwords hnot
    refine hs.withArena hsound hwords fun e he i hi => ?_
    obtain ⟨n, hn, hr⟩ := mark_types hs hm he
    exact hnot _ hr _ ⟨Nat.le_add_right _ _, by dsimp only; omega⟩
  refine (onHeap_yields (Heap.onArena_yields hend)).mono ?_ ?_
  · rintro _ image' ⟨hswept, htypes⟩
    have hnew := hkept _ hswept.sound hswept.words_eq fun r hr i hi hfree =>
      ((hswept.free_iff i).1 hfree).2.2 r hr hi
    rwa [← htypes] at hnew
  · rintro _ image' ⟨⟨-, hsound, hwords, -, hnot⟩, htypes⟩
    have hnew := hkept _ hsound hwords hnot
    rwa [← htypes] at hnew

/-- A collection keeps all types, also where it stops half way. -/
theorem collect_yields (hs : image.heap.Standard c) (hfit : image.VectorsFit) :
    Yields collect image (fun _ image' => image'.heap.Standard c)
      (fun _ image' => image'.heap.Standard c) := by
  refine Yields.bind (Yields.bind ?_)
  cases hc : image.heap.arena.collecting with
  | true => exact Yields.of_error (beginCollection_running hc) hs
  | false =>
    have hbegin := beginCollection_eq hc
    have hs' : image.begun.heap.Standard c := by
      refine hs.withArena ⟨hs.sound.sized, hs.sound.inside, hs.sound.apart, hs.sound.counted⟩
        rfl fun e he i hi => (hs.owns e he).taken i hi
    refine Yields.of_ok hbegin (Yields.bind (Yields.inspect ?_ fun _ _ => hs'))
    intro found hm
    have hbounded : ∀ r ∈ found.living.regions, r.addr.toNat + r.size.toNat < 2 ^ 64 :=
      fun r hr => hfit.bounded hs.sound.sized (image.mark_begun.symm.trans hm) hr
    refine Yields.bind ((endCollection_yields hs' rfl hm hbounded).imp ?_)
    exact fun _ image' hs' => hs'

/-! ### Steps -/

/-- The types of `c` are there, and possibly more. -/
def HasTypes (image : Image) (c : Catalogue) : Prop :=
  ∃ c' : Catalogue, c <+: c' ∧ image.heap.Standard c'

theorem HasTypes.of_extends (hs : image.heap.Standard c) {h : Heap} {c' : Catalogue}
    (he : Heap.Extends image.heap c h c') (heq : image'.heap = h) : image'.HasTypes c :=
  ⟨c', he.older, by rw [heq]; exact hs.extends he⟩

/-- Interning anything that can be described keeps the types. -/
theorem intern_hasTypes (hs : image.heap.Standard c) {m : Model}
    (hrefs : m.RefsIn (· ∈ c.handles)) (hcount : (m.normal c.shapes).Countable) :
    Yields (onHeap (Heap.intern m)) image (fun _ image' => image'.HasTypes c)
      (fun _ image' => image'.HasTypes c) := by
  refine (onHeap_yields (hs.intern_yields hs.records hrefs hcount)).mono ?_ ?_
  · rintro t image' ⟨c', he, -⟩
    exact .of_extends hs he rfl
  · rintro f image' ⟨c', he⟩
    exact .of_extends hs he rfl

theorem concatenate_hasTypes (hs : image.heap.Standard c) {ts : List Ty}
    (hts : ∀ t ∈ ts, t = 0 ∨ t ∈ c.handles)
    (hcount : ((Model.concat (ts.map .canonical)).normal c.shapes).Countable) :
    Yields (onHeap (Heap.concatenate ts)) image (fun _ image' => image'.HasTypes c)
      (fun _ image' => image'.HasTypes c) := by
  obtain ⟨wss, hw⟩ : ∃ wss, List.Forall₂ c.WideOf ts wss := Heap.exists_wideOfAll hts
  have hlen : wss.flatten.length + 2 < 2 ^ 64 := by
    rw [hs.length_wideOf hw]
    exact hcount.1
  refine (onHeap_yields (hs.concatenate_yields hs.records hw hlen)).mono ?_ ?_
  · rintro t image' ⟨c', he, -⟩
    exact .of_extends hs he rfl
  · rintro f image' ⟨heq, -⟩
    exact .of_extends hs (.refl hs.toInterned) heq

theorem allocate_hasTypes (hs : image.heap.Standard c) (n : UInt64) :
    Yields (onArena (Arena.allocate n)) image (fun _ image' => image'.HasTypes c)
      (fun _ image' => image'.HasTypes c) := by
  have hy : Yields (Heap.onArena (Arena.allocate n)) image.heap
      (fun _ h => Heap.Extends image.heap c h c) (fun _ h => h = image.heap) := by
    rcases Arena.allocate_cases hs.sound n with ⟨addr, a, hrun, hal⟩ | ⟨v, hrun⟩
    · refine Yields.of_ok (Heap.onArena_ok hrun) ⟨⟨hal.sound, hs.entries_eq, ?_, hs.valid⟩,
        hal.grows, rfl, List.prefix_rfl⟩
      exact fun e he => (hs.owns e he).grows hal.grows
    · exact Yields.of_error (Heap.onArena_error hrun) rfl
  refine (onHeap_yields hy).mono ?_ ?_
  · exact fun _ image' he => .of_extends hs he rfl
  · exact fun _ image' heq => .of_extends hs (.refl hs.toInterned) heq

/-- Words outside the type records may change. -/
theorem SameTypes.standard (hsame : image.SameTypes image') (hs : image.heap.Standard c) :
    image'.heap.Standard c := by
  have hsized : image'.heap.arena.Sized := by
    rw [Arena.Sized, hsame.size_eq]
    exact hs.sound.sized
  have howns : ∀ e ∈ c, image'.heap.arena.Owns e.1 e.2.words := by
    intro e he
    have hrec := hsame.record_eq e.1 (by
      rw [hs.handles_eq]
      exact List.mem_map_of_mem he)
    rw [hs.typeRecord_eq he] at hrec
    obtain ⟨n, -, hslice⟩ := of_except_bind_eq_ok hrec
    refine ⟨((Arena.slice_eq_ok_iff hsized).1 hslice).1, fun i hi => ?_⟩
    rw [Arena.Free, hsame.free_eq]
    exact (hs.owns e he).taken i hi
  have hsound : image'.heap.arena.Sound := by
    refine ⟨hsized, ?_, ?_, ?_⟩
    · rw [hsame.free_eq, hsame.size_eq]
      exact hs.sound.inside
    · rw [hsame.free_eq]
      exact hs.sound.apart
    · rw [hsame.free_eq, hsame.freeWords_eq]
      exact hs.sound.counted
  refine ⟨⟨hsound, ?_, howns, hs.valid⟩, ?_, ?_, ?_, ?_, ?_, ?_⟩ <;> rw [hsame.types_eq]
  · exact hs.entries_eq
  · exact hs.integer
  · exact hs.doesNotReturn
  · exact hs.dynamic
  · exact hs.ast
  · exact hs.type
  · exact hs.function

theorem Step.of_allocate {n : UInt64} {addr : Addr}
    (hrun : onArena (Arena.allocate n) image = .ok addr image') : Step image image' := by
  have hstep : Step image (stateAfter (onArena (Arena.allocate n) image)) := .allocate n
  rwa [hrun] at hstep

/-- A collection of an image without registered values. -/
theorem Step.of_collect {stats : CollectStats} (hroots : image.collector.roots = [])
    (hrun : Image.collect image = .ok stats image') : Step image image' := by
  have hstep : Step image (stateAfter (Image.collect image)) :=
    .collect fun h => absurd hroots h
  rwa [hrun] at hstep

/-- Each step keeps all types and their handles. -/
theorem Step.hasTypes (hstep : Step image image') (hs : image.heap.Standard c) :
    image'.HasTypes c := by
  have hhandles := hs.handles_eq
  cases hstep with
  | intern m hm =>
    obtain ⟨hrefs, hcount⟩ := hm
    rw [hhandles] at hrefs
    rw [hs.normal_eq hrefs] at hcount
    exact (intern_hasTypes hs hrefs hcount).stateAfter
  | pointerTo t ht =>
    rw [hhandles] at ht
    refine (intern_hasTypes (m := .pointer (.ofTy t)) hs ?_ ?_).stateAfter
    · rcases ht with rfl | ht
      · trivial
      · rw [hs.ofTy_eq ht]
        exact ht
    · rcases ht with rfl | ht
      · trivial
      · obtain ⟨s, hshape⟩ := hs.valid.shapes_isSome ht
        rw [hs.ofTy_eq ht, Model.normal, Model.normal, hshape]
        have hcount := hs.valid.countable (fun e he => hs.length_lt he) ht hshape
        exact hcount
  | concatenate ts hts hcount =>
    rw [hhandles] at hts
    refine (concatenate_hasTypes hs hts ?_).stateAfter
    have hrefs : (Model.concat (ts.map .canonical)).RefsIn fun t => t = 0 ∨ t ∈ c.handles :=
      Heap.allRefsIn_canonical hts
    rwa [hs.normal_eq_of_null hrefs] at hcount
  | allocate n => exact (allocate_hasTypes hs n).stateAfter
  | write hsame => exact ⟨c, List.prefix_rfl, hsame.standard hs⟩
  | collect hfit =>
    have hvectors : image.VectorsFit := by
      by_cases hroots : image.collector.roots = []
      · exact vectorsFit_of_no_roots hs.toInterned hroots
      · exact hfit hroots
    exact ⟨c, List.prefix_rfl, (collect_yields hs hvectors).stateAfter⟩

/-- A whole history keeps all types and their handles. -/
theorem Steps.hasTypes (hsteps : Steps image image') (hs : image.heap.Standard c) :
    image'.HasTypes c := by
  induction hsteps with
  | refl => exact ⟨c, List.prefix_rfl, hs⟩
  | tail _ hstep ih =>
    obtain ⟨c', hle, hs'⟩ := ih
    obtain ⟨c'', hle', hs''⟩ := hstep.hasTypes hs'
    exact ⟨c'', hle.trans hle', hs''⟩

/-! ### Canonical types -/

theorem intern_denotes (hs : image.heap.Standard c) {m : Model} {t : Ty} (hm : image.Describes m)
    (hrun : onHeap (Heap.intern m) image = .ok t image') :
    ∃ c' : Catalogue, c <+: c' ∧ image'.heap.Standard c' ∧
      c'.Denotes t (m.normal image.heap.shape?) := by
  obtain ⟨hrefs, hcount⟩ := hm
  rw [hs.handles_eq] at hrefs
  rw [hs.normal_eq hrefs] at hcount ⊢
  obtain ⟨c', he, hd⟩ := (onHeap_yields (hs.intern_yields hs.records hrefs hcount)).ok hrun
  exact ⟨c', he.older, hs.extends he, hd⟩

/-- In every image that a history leads to, types are canonical; and when `m₁` has been
    interned, at any later time exactly the models with its normal form get its handle. -/
theorem types_canonical {words : UInt64} {functions : Nat} {image₀ image₁ : Image}
    (hcreate : Image.create words functions = .ok image₀) (hsteps : Steps image₀ image₁) :
    image₁.heap.Canonical ∧
      ∀ (m₁ m₂ : Model) (t : Ty) (image₂ image₃ : Image), image₁.Describes m₁ →
        onHeap (Heap.intern m₁) image₁ = .ok t image₂ → Steps image₂ image₃ →
        image₃.Describes m₂ →
        ((∃ image₄, onHeap (Heap.intern m₂) image₃ = .ok t image₄) ↔
          m₁.normal image₁.heap.shape? = m₂.normal image₃.heap.shape?) := by
  obtain ⟨c₀, hs₀⟩ := create_standard hcreate
  obtain ⟨c₁, -, hs₁⟩ := hsteps.hasTypes hs₀
  refine ⟨hs₁.canonical, fun m₁ m₂ t image₂ image₃ hm₁ hrun hlater hm₂ => ?_⟩
  obtain ⟨c₂, -, hs₂, hd⟩ := intern_denotes hs₁ hm₁ hrun
  obtain ⟨c₃, hle, hs₃⟩ := hlater.hasTypes hs₂
  have hd₃ := hd.of_prefix hs₃.valid hle
  constructor
  · rintro ⟨image₄, hrun'⟩
    obtain ⟨c₄, hle', hs₄, hd'⟩ := intern_denotes hs₃ hm₂ hrun'
    exact (hd₃.of_prefix hs₄.valid hle').unique hs₄.zero_not_mem hd'
  · intro heq
    have hrefs : m₂.RefsIn (· ∈ c₃.handles) := by
      rw [← hs₃.handles_eq]
      exact hm₂.1
    rw [heq, hs₃.normal_eq hrefs] at hd₃
    exact ⟨image₃, onHeap_ok (hs₃.intern_known hs₃.records hrefs hd₃)⟩

/-- The type of addresses of integers in a small image.  Two words are allocated, a collection
    frees them, and the record of the type takes them.  Two more words come and go before the
    type is interned again, and it has the handle that it had. -/
theorem types_canonical_pointer :
    ∃ image₀ addr image₁ stats₁ image₂ t image₃ addr' image₄ stats₂ image₅ image₆,
      Image.create 16 1 = .ok image₀ ∧ onArena (Arena.allocate 2) image₀ = .ok addr image₁ ∧
      collect image₁ = .ok stats₁ image₂ ∧ image₂.heap.Canonical ∧
      onHeap (Heap.intern (.pointer (.plain 1))) image₂ = .ok t image₃ ∧ t = addr ∧
      onArena (Arena.allocate 2) image₃ = .ok addr' image₄ ∧
      collect image₄ = .ok stats₂ image₅ ∧
      onHeap (Heap.intern (.pointer (.plain 1))) image₅ = .ok t image₆ := by
  have hruns : ((Image.create 16 1).toOption.any fun image₀ =>
      (answer? (onArena (Arena.allocate 2) image₀)).any fun (addr, image₁) =>
      image₁.collectInOrder.any fun (_, image₂) =>
      (answer? (onHeap (Heap.intern (.pointer (.plain 1))) image₂)).any fun (t, image₃) =>
        image₁.collector.roots.isEmpty && t == addr &&
        (answer? (onArena (Arena.allocate 2) image₃)).any fun (_, image₄) =>
          image₄.collector.roots.isEmpty && image₄.collectInOrder.isSome) = true := by
    decide +kernel
  simp only [Option.any_eq_true, Bool.and_eq_true, toOption_eq_some, answer?_eq_some,
    Prod.exists, List.isEmpty_iff, beq_iff_eq, Option.isSome_iff_exists] at hruns
  obtain ⟨image₀, hcreate, addr, image₁, hfirst, stats₁, image₂, hcollect, t, image₃, hintern,
    ⟨hnone, haddr⟩, addr', image₄, hsecond, hnone', stats₂, image₅, hcollect'⟩ := hruns
  have hcollect := collect_of_inOrder hcollect
  have hcollect' := collect_of_inOrder hcollect'
  -- Nothing is registered, so both collections are steps.
  have hbefore : Steps image₀ image₂ :=
    .tail (.single (.of_allocate hfirst)) (.of_collect hnone hcollect)
  have hbetween : Steps image₃ image₅ :=
    .tail (.single (.of_allocate hsecond)) (.of_collect hnone' hcollect')
  have hmodel : ∀ image : Image, image.Describes (.pointer (.plain 1)) :=
    fun image => ⟨trivial, trivial⟩
  obtain ⟨hcanonical, hsame⟩ := types_canonical hcreate hbefore
  obtain ⟨image₆, hagain⟩ :=
    (hsame _ _ t image₃ image₅ (hmodel _) hintern hbetween (hmodel _)).2 rfl
  exact ⟨image₀, addr, image₁, stats₁, image₂, t, image₃, addr', image₄, stats₂, image₅, image₆,
    hcreate, hfirst, hcollect, hcanonical, hintern, haddr, hsecond, hcollect', hagain⟩

end Image

end TreeMachine
