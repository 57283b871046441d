import TreeMachine.Proofs.Source.Counting
import TreeMachine.Proofs.Source.Forms
import TreeMachine.Proofs.Source.Rereading

/-! # The reader follows a draft

  A reader and a draft that read the same text go on together: what the draft has of a node
  stands in the heap, under the number that the draft gives it.  Main statements: one step of
  the reader is one step of the draft, unless the memory runs out, and so is a whole run.
-/

namespace TreeMachine.Source

open Draft (placeIn)

variable {h₀ h h' : Heap} {c : Catalogue} {M M' : NodeMemory} {ν ν' : Nat → Option Node}
  {r r' : Reader} {D D' : Draft} {forms F : Forest} {stack outer : List OpenForm}
  {frames : List Frame} {i b b' k : Nat} {m n : Node} {ns : List Node} {t : Tag}
  {name : Option String}

/-! ### Frames -/

/-- The fields of a node some of whose forms have been read. -/
def filled (t : Tag) (ns : List Node) : List Node :=
  ns.take t.fields ++ List.replicate (t.fields - ns.length) 0

theorem filled_eq (h : ns.length = t.fields) : filled t ns = ns := by
  simp [filled, h, List.take_of_length_le]

/-- One more field. -/
theorem filled_set (h : ns.length < t.fields) (n : Node) :
    (filled t ns).set ns.length n = filled t (ns ++ [n]) := by
  have hle : (ns ++ [n]).length ≤ t.fields := by
    rw [List.length_append]
    exact h
  obtain ⟨k, hk⟩ : ∃ k, t.fields - ns.length = k + 1 := ⟨t.fields - ns.length - 1, by omega⟩
  have hk' : t.fields - (ns ++ [n]).length = k := by
    rw [List.length_append, List.length_singleton]
    omega
  rw [filled, filled, List.take_of_length_le (Nat.le_of_lt h), List.take_of_length_le hle, hk, hk',
    List.replicate_succ, List.set_append_right _ _ (Nat.le_refl _), Nat.sub_self]
  simp

/-- Forms that are given beyond the fields are dropped. -/
theorem filled_full (h : t.fields ≤ ns.length) (n : Node) :
    filled t (ns ++ [n]) = filled t ns := by
  have hk : t.fields - (ns ++ [n]).length = t.fields - ns.length := by
    rw [List.length_append, List.length_singleton]
    omega
  rw [filled, filled, List.take_append_of_le_length h, hk]

/-- The complete forms come first. -/
theorem size_le_placeIn (forms : Forest) (frames : List Frame) :
    forms.size ≤ placeIn forms frames := by
  induction frames with
  | nil => exact Nat.le_refl _
  | cons f outer ih =>
    rw [placeIn]
    omega

/-- The open forms are those of the draft, and what has been read in them stands in the
    memory. -/
inductive Mirrors (M : NodeMemory) (ν : Nat → Option Node) (forms : Forest) :
    List OpenForm → List Frame → Prop
  | nil : Mirrors M ν forms [] []
  | node {opened : Position} {t : Tag} {n : Node} {done : Forest} {ns : List Node}
    {outer : List OpenForm} {frames : List Frame} : ν (placeIn forms frames) = some n →
    M n = some (.fields t (filled t ns)) → Stands M ν (placeIn forms frames + 1) done ns →
    Mirrors M ν forms outer frames →
    Mirrors M ν forms (.node opened t n ns.length :: outer) (⟨.fields t, done⟩ :: frames)
  | block {start : Position} {n : Node} {done : Forest} {ns : List Node} {outer : List OpenForm}
    {frames : List Frame} : ν (placeIn forms frames) = some n → M n = some (.block ns) →
    Stands M ν (placeIn forms frames + 1) done ns → Mirrors M ν forms outer frames →
    Mirrors M ν forms (.block start n :: outer) (⟨.block, done⟩ :: frames)
  /-- A quote is no node before it ends. -/
  | quote {start : Position} {name : Option String} {outer : List OpenForm}
    {frames : List Frame} : ν (placeIn forms frames) = none → Mirrors M ν forms outer frames →
    Mirrors M ν forms (.quote start name :: outer) (⟨.quote name, .nil⟩ :: frames)

/-- Open forms stay while the nodes that have begun before them and in them do. -/
theorem Mirrors.mono (hm : Mirrors M ν forms stack frames)
    (hν : ∀ k n, ν k = some n → ν' k = some n)
    (hnone : ∀ k, k < placeIn forms frames → ν k = none → ν' k = none)
    (hM : ∀ k n r, k < placeIn forms frames → ν k = some n → M n = some r → M' n = some r) :
    Mirrors M' ν' forms stack frames := by
  induction hm with
  | nil => exact .nil
  | node hn hr hst _ ih =>
    simp only [placeIn] at hnone hM
    refine .node (hν _ _ hn) (hM _ _ _ (by omega) hn hr) (hst.mono hν ?_) (ih ?_ ?_)
    · exact fun k n r _ hk => hM k n r (by omega)
    · exact fun k hk => hnone k (by omega)
    · exact fun k n r hk => hM k n r (by omega)
  | block hn hr hst _ ih =>
    simp only [placeIn] at hnone hM
    refine .block (hν _ _ hn) (hM _ _ _ (by omega) hn hr) (hst.mono hν ?_) (ih ?_ ?_)
    · exact fun k n r _ hk => hM k n r (by omega)
    · exact fun k hk => hnone k (by omega)
    · exact fun k n r hk => hM k n r (by omega)
  | quote hn _ ih =>
    simp only [placeIn] at hnone hM
    refine .quote (hnone _ (by omega) hn) (ih ?_ ?_)
    · exact fun k hk => hnone k (by omega)
    · exact fun k n r hk => hM k n r (by omega)

/-! ### States -/

/-- What there is stays when there is one thing more. -/
theorem update_keep {α β : Type} [DecidableEq α] {f : α → Option β} {a a' : α} {y z : β}
    (hnone : f a = none) (h : f a' = some y) : Function.update f a (some z) a' = some y := by
  have hne : a' ≠ a := by
    rintro rfl
    rw [hnone] at h
    cases h
  rw [Function.update_of_ne hne, h]

/-- The reader has what the draft has, and the numbers below `b` may stand for nodes. -/
structure Follows (M : NodeMemory) (ν : Nat → Option Node) (b : Nat) (r : Reader) (D : Draft) :
    Prop where
  names : ∀ s, r.names.get? s = (D.names.get? s).bind ν
  known : ∀ {s k}, D.names.get? s = some k → ∃ n, ν k = some n
  number : ∀ {k n}, ν k = some n → k < b
  cell : ∀ {k n}, ν k = some n → ∃ r, M n = some r
  unique : ∀ {j k n}, ν j = some n → ν k = some n → j = k
  forms : Stands M ν 0 D.forms r.forms.reverse
  frames : Mirrors M ν D.forms r.stack D.stack

/-- Between two tokens a reader and a draft wait for the same. -/
def Agrees (M : NodeMemory) (ν : Nat → Option Node) (r : Reader) (D : Draft) : Prop :=
  match r.expect with
  | .form => D.expect = .form ∧ Follows M ν D.place r D
  | .named s => D.expect = .named s ∧ Follows M ν D.place r D
  | .tagName _ name => D.expect = .tagName name ∧ Follows M ν D.place r D
  | .quoteEnd _ name q => D.expect = .form ∧ ∃ done frames,
    D.stack = ⟨.quote name, done⟩ :: frames ∧ ν (placeIn D.forms frames) = none ∧
    Stands M ν (placeIn D.forms frames + 1) done [q] ∧
    Follows M ν D.place r { D with stack := frames }

namespace Follows

/-- What is expected makes no difference. -/
theorem expecting (hf : Follows M ν b r D) (e : Expect) (e' : Awaited) :
    Follows M ν b { r with expect := e } { D with expect := e' } :=
  ⟨hf.names, hf.known, hf.number, hf.cell, hf.unique, hf.forms, hf.frames⟩

/-- A name is given to a node that has a number. -/
theorem bind (hf : Follows M ν b r D) (hn : ν k = some n) (name : Option String) :
    Follows M ν b (r.bind name n) (D.bind name k) := by
  cases name with
  | none => exact hf
  | some s =>
    refine ⟨?_, ?_, hf.number, hf.cell, hf.unique, hf.forms, hf.frames⟩
    · intro s'
      show (r.names.set s n).get? s' = ((D.names.set s k).get? s').bind ν
      by_cases hs : s' = s
      · rw [hs, Dict.get?_set_self, Dict.get?_set_self, Option.bind_some, hn]
      · rw [Dict.get?_set_ne _ _ hs, Dict.get?_set_ne _ _ hs, hf.names]
    · intro s' k' hk'
      change (D.names.set s k).get? s' = some k' at hk'
      by_cases hs : s' = s
      · rw [hs, Dict.get?_set_self] at hk'
        cases hk'
        exact ⟨n, hn⟩
      · rw [Dict.get?_set_ne _ _ hs] at hk'
        exact hf.known hk'

/-- A node is made under the next number. -/
theorem make (hf : Follows M ν b r D) (hnone : ν D.place = none) (hle : b ≤ b')
    (hlt : D.place < b') (hn : M n = none) (x : Cell) :
    Follows (Function.update M n (some x)) (Function.update ν D.place (some n)) b' r D := by
  have hν : ∀ k m, ν k = some m → Function.update ν D.place (some n) k = some m :=
    fun k m hm => update_keep hnone hm
  have hM : ∀ k m x', ν k = some m → M m = some x' → Function.update M n (some x) m = some x' :=
    fun k m x' _ hx' => update_keep hn hx'
  have hother : ∀ {k}, ν k ≠ some n := by
    intro k hk
    obtain ⟨x', hx'⟩ := hf.cell hk
    rw [hn] at hx'
    cases hx'
  -- A number is an old one or that of the new node.
  have hcases : ∀ {k m}, Function.update ν D.place (some n) k = some m →
      k = D.place ∧ m = n ∨ k ≠ D.place ∧ ν k = some m := by
    intro k m hm
    by_cases hk : k = D.place
    · rw [hk, Function.update_self] at hm
      cases hm
      exact Or.inl ⟨hk, rfl⟩
    · rw [Function.update_of_ne hk] at hm
      exact Or.inr ⟨hk, hm⟩
  -- Names, known numbers, bound, cells, numbers apart, complete forms, open forms.
  refine ⟨?_, ?_, ?_, ?_, ?_, ?_, ?_⟩
  · intro s
    rw [hf.names]
    cases hs : D.names.get? s with
    | none => rfl
    | some k =>
      obtain ⟨m, hm⟩ := hf.known hs
      rw [Option.bind_some, Option.bind_some, hm, hν k m hm]
  · intro s k hs
    obtain ⟨m, hm⟩ := hf.known hs
    exact ⟨m, hν k m hm⟩
  · intro k m hm
    rcases hcases hm with ⟨rfl, -⟩ | ⟨-, hm⟩
    · exact hlt
    · exact Nat.lt_of_lt_of_le (hf.number hm) hle
  · intro k m hm
    rcases hcases hm with ⟨-, rfl⟩ | ⟨-, hm⟩
    · exact ⟨x, Function.update_self ..⟩
    · obtain ⟨x', hx'⟩ := hf.cell hm
      exact ⟨x', hM k m x' hm hx'⟩
  · intro j k m hj hk
    rcases hcases hj with ⟨hj', rfl⟩ | ⟨-, hj'⟩
    · rcases hcases hk with ⟨hk', -⟩ | ⟨-, hk'⟩
      · exact hj'.trans hk'.symm
      · exact absurd hk' hother
    · rcases hcases hk with ⟨-, rfl⟩ | ⟨-, hk'⟩
      · exact absurd hj' hother
      · exact hf.unique hj' hk'
  · exact hf.forms.mono hν fun k m x' _ _ hm => hM k m x' hm
  · refine hf.frames.mono hν ?_ fun k m x' _ hm => hM k m x' hm
    intro k hk hk'
    have hne : k ≠ D.place := Nat.ne_of_lt hk
    rw [Function.update_of_ne hne, hk']

/-- One more node stands in the innermost open form, whose cell alone changes. -/
theorem grow {names : Dict String Node} {names' : Dict String Nat} {f f' : OpenForm}
    {fs : List Node} {e : Expect} {e' : Awaited} {head : Head} {done : Forest} {y : Cell}
    (hf : Follows M ν b ⟨names, f :: outer, e, fs⟩ ⟨names', ⟨head, done⟩ :: frames, e', forms⟩)
    (hb : b ≤ placeIn forms frames + 1 + done.size + F.size)
    (hm : ν (placeIn forms frames) = some m)
    (hst : Stands M ν (placeIn forms frames + 1) (done ++ F) ns)
    (hrest : Mirrors M ν forms outer frames)
    (hframe : ∀ {M'}, M' m = some y → Stands M' ν (placeIn forms frames + 1) (done ++ F) ns →
      Mirrors M' ν forms outer frames →
      Mirrors M' ν forms (f' :: outer) (⟨head, done ++ F⟩ :: frames)) :
    Agrees (Function.update M m (some y)) ν ⟨names, f' :: outer, .form, fs⟩
      ⟨names', ⟨head, done ++ F⟩ :: frames, .form, forms⟩ := by
  -- A node with another number is another node, so it keeps its cell.
  have hkeep : ∀ k m' x, k ≠ placeIn forms frames → ν k = some m' → M m' = some x →
      Function.update M m (some y) m' = some x := by
    intro k m' x hk hm' hx'
    have hne : m' ≠ m := by
      rintro rfl
      exact hk (hf.unique hm' hm)
    rw [Function.update_of_ne hne, hx']
  refine ⟨rfl, hf.names, hf.known, ?_, ?_, hf.unique, ?_, hframe (Function.update_self ..) ?_ ?_⟩
  · intro k m' hm'
    refine Nat.lt_of_lt_of_le (hf.number hm') (hb.trans ?_)
    show _ ≤ placeIn forms frames + 1 + (done ++ F).size
    rw [Forest.size_append, ← Nat.add_assoc]
  · intro k m' hm'
    by_cases hk : k = placeIn forms frames
    · rw [hk, hm] at hm'
      cases hm'
      exact ⟨y, Function.update_self ..⟩
    · obtain ⟨x, hx⟩ := hf.cell hm'
      exact ⟨x, hkeep k m' x hk hm' hx⟩
  · refine hf.forms.mono (fun _ _ hm => hm) fun k m x _ hk => hkeep k m x ?_
    have hle := size_le_placeIn forms frames
    dsimp only at hk
    omega
  · exact hst.mono (fun _ _ hm => hm) fun k m x hk _ => hkeep k m x (by omega)
  · exact hrest.mono (fun _ _ hm => hm) (fun _ _ hk => hk) fun k m x hk => hkeep k m x (by omega)

/-- A complete form is handed to what is around it. -/
theorem deliver (hf : Follows M ν b r D) (hp : h₀.Populated h M) (hb : b ≤ D.place + F.size)
    (hF : Stands M ν D.place F [n]) :
    Yields (r.deliver n) h
      (fun r' h' => ∃ M', h₀.Populated h' M' ∧ Agrees M' ν r' (D.add F))
      Heap.Starved := by
  obtain ⟨names, stack, e, fs⟩ := r
  obtain ⟨names', frames, e', forms⟩ := D
  have hframes := hf.frames
  dsimp only at hframes
  cases hframes with
  | nil =>
    refine Yields.pure ⟨M, hp, rfl, hf.names, hf.known, ?_, hf.cell, hf.unique, ?_, .nil⟩
    · intro k m hm
      rw [Draft.add_place]
      exact Nat.lt_of_lt_of_le (hf.number hm) hb
    · show Stands M ν 0 (forms ++ F) (n :: fs).reverse
      rw [List.reverse_cons]
      refine hf.forms.append ?_
      rw [Nat.zero_add]
      exact hF
  | @node opened t m done ns outer frames hm hx hst hrest =>
    have hall : Stands M ν (placeIn forms frames + 1) (done ++ F) (ns ++ [n]) := hst.append hF
    have hagrees : Agrees (Function.update M m (some (.fields t (filled t (ns ++ [n]))))) ν
        ⟨names, .node opened t m (ns ++ [n]).length :: outer, .form, fs⟩
        ⟨names', ⟨.fields t, done ++ F⟩ :: frames, .form, forms⟩ :=
      hf.grow hb hm hall hrest fun hx' => .node hm hx'
    rw [List.length_append] at hagrees
    unfold Reader.deliver
    dsimp only
    by_cases hlt : ns.length < t.fields
    · obtain ⟨h', hpatch, hp'⟩ := hp.patch hx hlt n
      rw [filled_set hlt] at hp'
      rw [if_pos hlt]
      exact Yields.bind_ok (lift_eq_ok hpatch) (Yields.pure ⟨_, hp', hagrees⟩)
    · -- The form is counted, but there is no field for it.
      rw [filled_full (Nat.le_of_not_lt hlt), ← hx, Function.update_eq_self] at hagrees
      rw [if_neg hlt]
      exact Yields.pure ⟨M, hp, hagrees⟩
  | @block start m done ns outer frames hm hx hst hrest =>
    have hall : Stands M ν (placeIn forms frames + 1) (done ++ F) (ns ++ [n]) := hst.append hF
    unfold Reader.deliver
    dsimp only
    refine Yields.bind ((Heap.yields_lift (hp.append hx n)).mono ?_ fun _ _ => .of_spent)
    rintro _ h' hp'
    exact Yields.pure ⟨_, hp', hf.grow hb hm hall hrest fun hx' => .block hm hx'⟩
  | @quote start name outer frames hnone hrest =>
    -- The reader only waits for the end of the quote, which has no node as yet.
    refine Yields.pure ⟨M, hp, rfl, F, frames, rfl, hnone, hF, hf.names, hf.known, ?_,
      hf.cell, hf.unique, hf.forms, hrest⟩
    intro k m hm
    rw [Draft.add_place]
    exact Nat.lt_of_lt_of_le (hf.number hm) hb

end Follows

/-! ### Steps -/

/-- What a token says. -/
def Token.sign? (tok : Token) : Option Sign :=
  match tok.kind with
  | .openBracket => some (.lexeme .opening)
  | .closeBracket => some (.lexeme .closing)
  | .name => some (.lexeme (.name tok.literal))
  | .define => some (.lexeme (.define tok.literal))
  | .integer =>
    match Text.readNumeral tok.literal with
    | .ok w => some (.lexeme (.number w))
    | .error _ => none
  | .openBrace => some .openBrace
  | .closeBrace => some .closeBrace
  | .endOfText | .invalid => none

theorem sign?_closing {tok : Token} :
    tok.sign? = some (.lexeme .closing) ↔ tok.kind = .closeBracket := by
  unfold Token.sign?
  cases tok.kind <;> simp
  split <;> simp

theorem sign?_closeBrace {tok : Token} :
    tok.sign? = some .closeBrace ↔ tok.kind = .closeBrace := by
  unfold Token.sign?
  cases tok.kind <;> simp
  split <;> simp

theorem sign?_define {tok : Token} {s : String} (h : tok.sign? = some (.lexeme (.define s))) :
    tok.kind = .define := by
  unfold Token.sign? at h
  cases hkind : tok.kind <;> rw [hkind] at h <;> dsimp only at h
  case integer => split at h <;> cases h
  all_goals cases h

/-- The reader goes on as the draft does. -/
def GoesOn (h₀ : Heap) (next : Option Draft) (r : Reader) (h : Heap) : Prop :=
  ∃ D M ν, next = some D ∧ h₀.Populated h M ∧ Agrees M ν r D

/-- The reader stops because the draft does, or because the memory has run out. -/
def Halts (next : Option Draft) (e : Stop ReadError) (h : Heap) : Prop :=
  Heap.Starved e h ∨ next = none

theorem halts_starved {α : Type} {x : ReadM α} {Q : α → Heap → Prop} {next : Option Draft}
    (hx : Yields x h Q Heap.Starved) : Yields x h Q (Halts next) :=
  hx.mono (fun _ _ => id) fun _ _ => Or.inl

namespace Follows

theorem next_place (hf : Follows M ν D.place r D) : ν D.place = none := by
  cases hn : ν D.place with
  | none => rfl
  | some n => exact absurd (hf.number hn) (Nat.lt_irrefl _)

theorem names_none (hf : Follows M ν b r D) {s : String} (hs : r.names.get? s = none) :
    D.names.get? s = none := by
  cases hk : D.names.get? s with
  | none => rfl
  | some k =>
    obtain ⟨n, hn⟩ := hf.known hk
    rw [hf.names, hk, Option.bind_some, hn] at hs
    cases hs

theorem names_some (hf : Follows M ν b r D) {s : String} (hs : r.names.get? s = some n) :
    ∃ k, D.names.get? s = some k ∧ ν k = some n := by
  rw [hf.names] at hs
  exact Option.bind_eq_some_iff.1 hs

/-- A node that has been made under the next number is handed over. -/
theorem deliver_new (hf : Follows M ν b r D) (hnone : ν D.place = none)
    (hb : b ≤ D.place + F.size) (hpos : 0 < F.size) (hn : M n = none) (x : Cell)
    (hp : h₀.Populated h (Function.update M n (some x)))
    (hF : Stands (Function.update M n (some x)) (Function.update ν D.place (some n)) D.place F [n])
    (name : Option String) :
    Yields ((r.bind name n).deliver n) h (GoesOn h₀ (some ((D.bind name D.place).add F)))
      Heap.Starved := by
  have hmake := (hf.make hnone hb (by omega) hn x).bind (Function.update_self ..) name
  refine (hmake.deliver (F := F) hp (by rw [Draft.bind_place]) ?_).imp ?_
  · rw [Draft.bind_place]
    exact hF
  · rintro r' h' ⟨M', hp', ha⟩
    exact ⟨_, M', _, rfl, hp', ha⟩

/-- A form is begun with a node that has been made under the next number. -/
theorem push (hf : Follows M ν D.place r D) (hn : M n = none) {x : Cell} {head : Head}
    {f : OpenForm} (hp : h₀.Populated h (Function.update M n (some x))) (name : Option String)
    (hframe : ∀ {M ν forms outer frames}, ν (placeIn forms frames) = some n → M n = some x →
      Mirrors M ν forms outer frames → Mirrors M ν forms (f :: outer) (⟨head, .nil⟩ :: frames)) :
    GoesOn h₀ (some ((D.bind name D.place).push head))
      ⟨(r.bind name n).names, f :: (r.bind name n).stack, .form, (r.bind name n).forms⟩ h := by
  have hmake := (hf.make hf.next_place (Nat.le_succ _) (Nat.lt_succ_self _) hn x).bind
    (Function.update_self ..) name
  refine ⟨_, _, _, rfl, hp, rfl, hmake.names, hmake.known, ?_, hmake.cell, hmake.unique,
    hmake.forms, hframe ?_ (Function.update_self ..) hmake.frames⟩
  · intro k m hm
    rw [Draft.push_place, Draft.bind_place]
    exact hmake.number hm
  · rw [show ((D.bind name D.place).push head).forms = D.forms from Draft.bind_forms ..,
      Draft.bind_stack]
    exact Function.update_self ..

/-- The first token of a form. -/
theorem atom (hf : Follows M ν D.place r D) (hp : h₀.Populated h M) (hs : h₀.Standard c)
    (name : Option String) (tok : Token) (after : Position) :
    Yields (r.atom name tok after) h (GoesOn h₀ (tok.sign?.bind (D.atom name)))
      (Halts (tok.sign?.bind (D.atom name))) := by
  obtain ⟨kind, literal, pos⟩ := tok
  unfold Reader.atom Token.sign?
  dsimp only
  cases kind with
  | integer =>
    dsimp only
    cases hnumeral : Text.readNumeral literal with
    | error e => exact Yields.of_error rfl (Or.inr rfl)
    | ok v =>
      refine halts_starved (Yields.bind ((Heap.yields_lift (hp.newInteger hs v)).mono ?_
        fun _ _ => .of_spent))
      rintro n h' ⟨hn, -, hp'⟩
      exact hf.deliver_new (F := .integer v .nil) hf.next_place (Nat.le_succ _) (Nat.succ_pos _)
        hn _ hp' (.integer (Function.update_self ..) (Function.update_self ..) .nil) name
  | name =>
    dsimp only
    rw [Option.bind_some, Draft.atom]
    by_cases hnil : literal = "nil"
    · rw [if_pos hnil, if_pos hnil]
      cases name with
      | some name => exact Yields.of_error rfl (Or.inr rfl)
      | none =>
        refine halts_starved ((hf.deliver (F := .null .nil) hp (Nat.le_add_right _ _)
          (.null .nil)).imp ?_)
        rintro r' h' ⟨M', hp', ha⟩
        exact ⟨_, M', ν, rfl, hp', ha⟩
    · rw [if_neg hnil, if_neg hnil]
      cases hget : r.names.get? literal with
      | none =>
        refine Yields.of_error rfl (Or.inr ?_)
        rw [hf.names_none hget]
        rfl
      | some n =>
        -- The draft knows the name by the number of the node, and writes how far back it is.
        obtain ⟨k, hk, hn⟩ := hf.names_some hget
        have hle := Nat.le_of_lt (hf.number hn)
        rw [hk, Option.map_some]
        have hF : Stands M ν (D.bind name k).place (.again (D.place - k) .nil) [n] := by
          rw [Draft.bind_place]
          refine .again (Nat.sub_le _ _) ?_ .nil
          rwa [Nat.sub_sub_self hle]
        refine halts_starved (((hf.bind hn name).deliver hp ?_ hF).imp ?_)
        · rw [Draft.bind_place]
          exact Nat.le_add_right _ _
        · rintro r' h' ⟨M', hp', ha⟩
          exact ⟨_, M', ν, rfl, hp', ha⟩
  | openBracket =>
    exact Yields.pure ⟨_, M, ν, rfl, hp, rfl, hf.expecting _ _⟩
  | openBrace =>
    have hfits : ([] : List Node).length + 2 < 2 ^ 64 := by simp
    refine halts_starved (Yields.bind ((Heap.yields_lift (hp.newBlock hfits)).mono ?_
      fun _ _ => .of_spent))
    rintro n h' ⟨hn, -, hp'⟩
    exact Yields.pure (hf.push hn hp' name fun hn' hx' => .block hn' hx' .nil)
  | closeBracket | closeBrace | define => exact Yields.of_error rfl (Or.inr rfl)
  | endOfText | invalid => exact Yields.of_error rfl (Or.inr rfl)

/-- The tag name after a bracket. -/
theorem tagName (hf : Follows M ν D.place r D) (hp : h₀.Populated h M) (opened : Position)
    (name : Option String) (tok : Token) (after : Position) :
    Yields (r.tagName opened name tok after) h (GoesOn h₀ (tok.sign?.bind (D.tagName name)))
      (Halts (tok.sign?.bind (D.tagName name))) := by
  obtain ⟨kind, literal, pos⟩ := tok
  unfold Reader.tagName
  dsimp only
  by_cases hkind : kind = .name
  · subst hkind
    rw [if_neg fun hne => hne rfl]
    show Yields _ h (GoesOn h₀ (D.tagName name (.lexeme (.name literal))))
      (Halts (D.tagName name (.lexeme (.name literal))))
    rw [Draft.tagName]
    by_cases hquote : literal = "quote"
    · rw [if_pos hquote, if_pos hquote]
      refine Yields.pure ⟨_, M, ν, rfl, hp, rfl, hf.names, hf.known, ?_, hf.cell, hf.unique,
        hf.forms, .quote hf.next_place hf.frames⟩
      intro k m hm
      rw [Draft.push_place]
      exact Nat.lt_succ_of_lt (hf.number hm)
    · rw [if_neg hquote, if_neg hquote]
      cases Tag.ofName? literal with
      | none => exact Yields.of_error rfl (Or.inr rfl)
      | some t =>
        dsimp only
        by_cases ht : t = .literal ∨ t = .block
        · rw [if_pos ht, if_pos ht]
          exact Yields.of_error rfl (Or.inr rfl)
        · rw [if_neg ht, if_neg ht]
          have hnew := Heap.yields_mapStop (f := fun e => ReadError.mk pos (.store e))
            (hp.newNode (not_or.1 ht))
          refine halts_starved (Yields.bind (hnew.mono ?_ fun _ _ => .of_spent))
          rintro n h' ⟨hn, -, hp'⟩
          refine Yields.pure (hf.push hn hp' name fun hn' hx' => .node hn' ?_ .nil)
          rwa [filled, List.take_nil, List.nil_append]
  · rw [if_pos hkind]
    refine Yields.of_error rfl (Or.inr ?_)
    cases kind with
    | name => exact absurd rfl hkind
    | integer =>
      unfold Token.sign?
      dsimp only
      cases Text.readNumeral literal <;> rfl
    | _ => rfl

/-- The end of a quote. -/
theorem closeQuote {frames : List Frame} {done : Forest} {q : Node}
    (hf : Follows M ν D.place r { D with stack := frames }) (hp : h₀.Populated h M)
    (hs : h₀.Standard c) (hexpect : D.expect = .form)
    (hstack : D.stack = ⟨.quote name, done⟩ :: frames) (hnone : ν (placeIn D.forms frames) = none)
    (hq : Stands M ν (placeIn D.forms frames + 1) done [q]) (start : Position) (tok : Token) :
    Yields (r.closeQuote start name q tok) h (GoesOn h₀ (tok.sign?.bind D.step))
      (Halts (tok.sign?.bind D.step)) := by
  have hlen : ¬ done.length = 0 := by
    rw [← hq.length_eq]
    exact Nat.one_ne_zero
  have hstep : ∀ s, D.step s = if s = .lexeme .closing then
      some (({ D with stack := frames }.bind name (placeIn D.forms frames)).add (.quote done .nil))
      else none := by
    intro s
    obtain ⟨names', stack', e', forms⟩ := D
    cases hexpect
    cases hstack
    unfold Draft.step
    dsimp only
    rw [if_neg hlen]
    cases name <;> rfl
  obtain ⟨kind, literal, pos⟩ := tok
  unfold Reader.closeQuote
  dsimp only
  by_cases hkind : kind = .closeBracket
  · subst hkind
    rw [if_neg fun hne => hne rfl]
    show Yields _ h (GoesOn h₀ (D.step (.lexeme .closing)))
      (Halts (D.step (.lexeme .closing)))
    rw [hstep, if_pos rfl]
    refine halts_starved (Yields.get_bind (Yields.bind
      ((Heap.yields_mapStop (hp.newQuote hs q)).mono ?_ fun _ _ => .of_spent)))
    rintro n h' ⟨hn, -, hp'⟩
    have hplace : D.place = placeIn D.forms frames + 1 + done.size := by
      rw [Draft.place, hstack]
      rfl
    refine hf.deliver_new (F := .quote done .nil) hnone ?_ (Nat.succ_pos _) hn _ hp' ?_ name
    · show D.place ≤ placeIn D.forms frames + (done.size + 0 + 1)
      omega
    · -- The quote gets the number that was kept free for it, below those of its form.
      refine .quote (Function.update_self ..) (Function.update_self ..) (hq.mono ?_ ?_) .nil
      · exact fun k m hm => update_keep hnone hm
      · exact fun k m x _ _ _ hx => update_keep hn hx
  · rw [if_pos hkind]
    refine Yields.of_error rfl (Or.inr ?_)
    cases hsign : Token.sign? ⟨kind, literal, pos⟩ with
    | none => rfl
    | some s =>
      rw [Option.bind_some, hstep, if_neg]
      rintro rfl
      exact hkind (sign?_closing.1 hsign)

/-- The start of a form. -/
theorem form (hf : Follows M ν D.place r D) (hp : h₀.Populated h M) (hs : h₀.Standard c)
    (tok : Token) (after : Position) :
    Yields (r.form tok after) h (GoesOn h₀ (tok.sign?.bind D.form))
      (Halts (tok.sign?.bind D.form)) := by
  unfold Reader.form
  by_cases hkind : tok.kind = .define
  · have hsign : tok.sign? = some (.lexeme (.define tok.literal)) := by
      unfold Token.sign?
      rw [hkind]
    have hcontains : r.names.contains tok.literal = D.names.contains tok.literal := by
      unfold Dict.contains
      cases hget : r.names.get? tok.literal with
      | none =>
        rw [hf.names_none hget]
        rfl
      | some n =>
        obtain ⟨k, hk, -⟩ := hf.names_some hget
        rw [hk]
        rfl
    rw [if_pos hkind, hsign, Option.bind_some, Draft.form, hcontains]
    by_cases hdefined : D.names.contains tok.literal = true
    · rw [if_pos hdefined, if_pos hdefined]
      exact Yields.of_error rfl (Or.inr rfl)
    · rw [if_neg hdefined, if_neg hdefined]
      exact Yields.pure ⟨_, M, ν, rfl, hp, rfl, hf.expecting _ _⟩
  · have hform : tok.sign?.bind D.form = tok.sign?.bind (D.atom none) := by
      cases hsign : tok.sign? with
      | none => rfl
      | some s =>
        rw [Option.bind_some, Option.bind_some]
        unfold Draft.form
        split
        · exact absurd (sign?_define hsign) hkind
        · rfl
    rw [if_neg hkind, hform]
    exact hf.atom hp hs none tok after

/-- A form that ends is handed to what is around it. -/
theorem deliver_end {names : Dict String Node} {names' : Dict String Nat} {f : OpenForm}
    {fs : List Node} {e : Expect} {e' : Awaited} {f' : Frame}
    (hf : Follows M ν (Draft.place ⟨names', f' :: frames, e', forms⟩)
      ⟨names, f :: outer, e, fs⟩ ⟨names', f' :: frames, e', forms⟩) (hp : h₀.Populated h M)
    (hrest : Mirrors M ν forms outer frames) (hF : Stands M ν (placeIn forms frames) F [n])
    (hsize : F.size = f'.done.size + 0 + 1) :
    Yields (Reader.deliver ⟨names, outer, e, fs⟩ n) h
      (GoesOn h₀ (some (Draft.pop ⟨names', f' :: frames, e', forms⟩ frames F)))
      (Halts (some (Draft.pop ⟨names', f' :: frames, e', forms⟩ frames F))) := by
  have hrests : Follows M ν (Draft.place ⟨names', f' :: frames, e', forms⟩) ⟨names, outer, e, fs⟩
      ⟨names', frames, e', forms⟩ :=
    ⟨hf.names, hf.known, hf.number, hf.cell, hf.unique, hf.forms, hrest⟩
  refine halts_starved ((hrests.deliver hp ?_ hF).imp ?_)
  · show placeIn forms frames + 1 + f'.done.size ≤ placeIn forms frames + F.size
    omega
  · rintro r' h' ⟨M', hp', ha⟩
    exact ⟨_, M', ν, rfl, hp', ha⟩

end Follows

/-- The end of a node or block; any other token begins a form in it. -/
theorem step_inside {stop : Sign} {kind : TokenKind} {x y : ReadM Reader} {next : Option Draft}
    {tok : Token} (hstop : tok.sign? = some stop ↔ tok.kind = kind)
    (hstep : ∀ s, D.step s = if s = stop then next else D.form s)
    (hx : Yields x h (GoesOn h₀ next) (Halts next))
    (hy : Yields y h (GoesOn h₀ (tok.sign?.bind D.form)) (Halts (tok.sign?.bind D.form))) :
    Yields (if tok.kind = kind then x else y) h (GoesOn h₀ (tok.sign?.bind D.step))
      (Halts (tok.sign?.bind D.step)) := by
  by_cases hkind : tok.kind = kind
  · rw [if_pos hkind, hstop.2 hkind, Option.bind_some, hstep, if_pos rfl]
    exact hx
  · have heq : tok.sign?.bind D.step = tok.sign?.bind D.form := by
      cases hsign : tok.sign? with
      | none => rfl
      | some s =>
        rw [Option.bind_some, Option.bind_some, hstep, if_neg]
        rintro rfl
        exact hkind (hstop.1 hsign)
    rw [if_neg hkind, heq]
    exact hy

/-- One step of the reader is one step of the draft. -/
theorem Agrees.step (ha : Agrees M ν r D) (hp : h₀.Populated h M) (hs : h₀.Standard c)
    (tok : Token) (after : Position) :
    Yields (r.step tok after) h (GoesOn h₀ (tok.sign?.bind D.step))
      (Halts (tok.sign?.bind D.step)) := by
  obtain ⟨names, stack, e, fs⟩ := r
  obtain ⟨names', frames, e', forms⟩ := D
  cases e with
  | named s =>
    obtain ⟨rfl, hf⟩ := ha
    exact hf.atom hp hs (some s) tok after
  | tagName opened name =>
    obtain ⟨rfl, hf⟩ := ha
    exact hf.tagName hp opened name tok after
  | quoteEnd start name q =>
    obtain ⟨hexpect, done, outer, hstack, hnone, hq, hf⟩ := ha
    exact hf.closeQuote hp hs hexpect hstack hnone hq start tok
  | form =>
    obtain ⟨rfl, hf⟩ := ha
    have hform := hf.form hp hs tok after
    have hframes := hf.frames
    dsimp only at hframes
    cases hframes with
    | nil => exact hform
    | @node opened t m done ns outer frames hm hx hst hrest =>
      refine step_inside sign?_closing (fun s => rfl) ?_ hform
      rw [← hst.length_eq]
      by_cases hlen : ns.length = t.fields
      · rw [if_pos hlen, if_pos hlen]
        rw [filled_eq hlen] at hx
        exact hf.deliver_end hp hrest (.fields hm hx hst .nil) rfl
      · rw [if_neg hlen, if_neg hlen]
        exact Yields.of_error rfl (Or.inr rfl)
    | @block start m done ns outer frames hm hx hst hrest =>
      refine step_inside sign?_closeBrace (fun s => rfl) ?_ hform
      exact hf.deliver_end hp hrest (.block hm hx hst .nil) rfl
    | quote hnone hrest => exact hform

/-! ### Runs -/

/-- Since `h₀` the heap has been filled with the form below a node. -/
def Made (h₀ h : Heap) (F : Forest) (n : Node) : Prop :=
  h₀.Fills h 0 ∧ ∃ M ν, Shows h M ν ∧ Stands M ν 0 F [n]

/-- What has been made stays while the heap is filled on. -/
theorem Made.later (hm : Made h₀ h F n) (hf : h.Fills h' 0) : Made h₀ h' F n := by
  obtain ⟨hfills, M, ν, hsh, hst⟩ := hm
  refine ⟨hfills.trans hf, M, ν, ⟨fun hx => ?_, hsh.cell, hsh.unique⟩, hst⟩
  obtain ⟨a, hl⟩ := hsh.laid hx
  refine ⟨a, ?_⟩
  rw [hf.types]
  exact hl.imp (fun _ hws => hws.grows hf.grows) (fun _ _ hws => hws.grows hf.grows)
    fun _ hws => Heap.owns_ne_zero hws rfl

/-- The node has the number zero, and the others have their numbers in `ν` plus one. -/
def putFirst (n : Node) (ν : Nat → Option Node) : Nat → Option Node
  | 0 => some n
  | k + 1 => ν k

/-- All forms of a text become the elements of a block, which comes first. -/
theorem Follows.gather (hf : Follows M ν b r D) (hp : h₀.Populated h M)
    (hrun : Heap.newBlock 0 r.forms.reverse h = .ok n h') :
    Made h₀ h' (.block D.forms .nil) n := by
  have hlt := hp.fills.sound.sized.lt
  have hlen := Heap.length_le_of_newBlock hp.fills.sound hrun
  obtain ⟨hn, -, hp'⟩ := (hp.newBlock (by omega)).ok hrun
  have hkeep : ∀ {m x}, M m = some x →
      Function.update M n (some (.block r.forms.reverse)) m = some x :=
    fun hx => update_keep hn hx
  have hother : ∀ {k}, ν k ≠ some n := by
    intro k hk
    obtain ⟨x, hx⟩ := hf.cell hk
    rw [hn] at hx
    cases hx
  refine ⟨hp'.fills, _, putFirst n ν, ⟨hp'.laid, ?_, ?_⟩,
    .block rfl (Function.update_self ..) ?_ .nil⟩
  · intro k m hm
    cases k with
    | zero =>
      cases hm
      exact ⟨_, Function.update_self ..⟩
    | succ k =>
      obtain ⟨x, hx⟩ := hf.cell hm
      exact ⟨x, hkeep hx⟩
  · intro j k m hj hk
    cases j with
    | zero =>
      cases hj
      cases k with
      | zero => rfl
      | succ k => exact absurd hk hother
    | succ j =>
      cases k with
      | zero =>
        cases hk
        exact absurd hj hother
      | succ k => exact congrArg Nat.succ (hf.unique hj hk)
  · exact (hf.forms.mono (fun _ _ hm => hm) fun _ _ _ _ _ _ hx => hkeep hx).shift fun _ => rfl

/-- The end of the text.  A block for many forms may be larger than any vector. -/
theorem Agrees.finish (ha : Agrees M ν r D) (hp : h₀.Populated h M) (tok : Token) :
    Yields (r.finish tok) h (fun n h' => ∃ F, D.finish = some F ∧ Made h₀ h' F n)
      (fun e h' => D.forms.length ≤ 1 → Heap.Starved e h' ∨ D.finish = none) := by
  obtain ⟨names, stack, e, fs⟩ := r
  obtain ⟨names', frames, e', forms⟩ := D
  cases e with
  | named s =>
    obtain ⟨rfl, -⟩ := ha
    exact Yields.of_error rfl fun _ => Or.inr rfl
  | tagName opened name =>
    obtain ⟨rfl, -⟩ := ha
    exact Yields.of_error rfl fun _ => Or.inr rfl
  | quoteEnd start name q =>
    obtain ⟨rfl, done, outer, rfl, -⟩ := ha
    exact Yields.of_error rfl fun _ => Or.inr rfl
  | form =>
    obtain ⟨rfl, hf⟩ := ha
    have hframes := hf.frames
    dsimp only at hframes
    cases hframes with
    | node | block | quote => exact Yields.of_error rfl fun _ => Or.inr rfl
    | nil =>
      have hst : Stands M ν 0 forms fs.reverse := hf.forms
      have hlen := hst.length_eq
      rw [List.length_reverse] at hlen
      unfold Reader.finish Draft.finish
      dsimp only
      match fs with
      | [] =>
        have hnone : forms.length = 0 := hlen.symm
        rw [if_pos hnone]
        exact Yields.of_error rfl fun _ => Or.inr rfl
      | [n] =>
        have hone : forms.length = 1 := hlen.symm
        rw [if_neg (by omega), if_pos hone]
        exact Yields.pure ⟨forms, rfl, hp.fills, M, ν, ⟨hp.laid, hf.cell, hf.unique⟩, hst⟩
      | n :: n' :: fs =>
        have hmany : 1 < forms.length := by
          rw [← hlen, List.length_cons, List.length_cons]
          omega
        rw [if_neg (by omega), if_neg (by omega)]
        cases hrun : Heap.newBlock 0 (n :: n' :: fs).reverse h with
        | ok b h' => exact Yields.of_ok (lift_eq_ok hrun) ⟨_, rfl, hf.gather hp hrun⟩
        | error e h' =>
          exact Yields.of_error (lift_eq_error hrun) fun hle => absurd hle (Nat.not_le_of_lt hmany)

/-- A draft reads what the tokens say. -/
def Draft.follow (D : Draft) : List Token → Option Draft
  | [] => some D
  | tok :: rest => (tok.sign?.bind D.step).bind fun D => D.follow rest

/-- A whole run of the reader is a run of the draft. -/
theorem Agrees.run (ha : Agrees M ν r D) (hp : h₀.Populated h M) (hs : h₀.Standard c)
    (toks : List Token) (last : Token) :
    Yields (r.run (toks ++ [last])) h
      (fun n h' => ∃ D' F, D.follow toks = some D' ∧ D'.finish = some F ∧ Made h₀ h' F n)
      (fun e h' => Heap.Starved e h' ∨
        ∀ D', D.follow toks = some D' → D'.forms.length ≤ 1 → D'.finish = none) := by
  -- The draft, the memory and the numbers go along with the reader.
  induction toks generalizing r D M ν h with
  | nil =>
    refine (ha.finish hp last).mono ?_ ?_
    · rintro n h' ⟨F, hfinish, hmade⟩
      exact ⟨D, F, rfl, hfinish, hmade⟩
    · intro e _ he
      by_cases hlen : D.forms.length ≤ 1
      · refine (he hlen).imp id ?_
        rintro hnone D' hD' -
        cases hD'
        exact hnone
      · right
        rintro D' hD' hle
        cases hD'
        exact absurd hle hlen
  | cons tok toks ih =>
    obtain ⟨after, hrun⟩ := r.run_cons tok (toks ++ [last]) (by simp)
    rw [List.cons_append, hrun]
    refine Yields.bind ((ha.step hp hs tok after).mono ?_ ?_)
    · rintro r' h' ⟨D', M', ν', hstep, hp', ha'⟩
      rw [Draft.follow, hstep]
      exact ih ha' hp'
    · rintro e _ (he | hnone)
      · exact Or.inl he
      · right
        intro D' hD'
        rw [Draft.follow, hnone] at hD'
        cases hD'

end TreeMachine.Source
