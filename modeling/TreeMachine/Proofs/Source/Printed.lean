import TreeMachine.Proofs.Source.Counting
import TreeMachine.Proofs.Source.Rereading

/-! # What is printed

  The printer labels the nodes that are met again with `n1`, `n2` and so on, in the order in
  which they begin.  Main statements: these labels tell the nodes apart, and the text of a
  node that stands for a form is the text of the form with these labels.
-/

namespace TreeMachine.Source

open Forest (gap marked)

/-! ### Labels -/

/-- How many of the numbers below `k` are shared. -/
def rank (shared : Nat → Bool) (k : Nat) : Nat := (List.range k).countP shared

/-- The label of a shared number says which one of them it is. -/
def labelOf (shared : Nat → Bool) (k : Nat) : Option String :=
  if shared k then some s!"n{rank shared k + 1}" else none

theorem rank_succ (shared : Nat → Bool) (k : Nat) :
    rank shared (k + 1) = rank shared k + if shared k then 1 else 0 := by
  rw [rank, List.range_succ, List.countP_append, List.countP_singleton]
  rfl

theorem rank_mono (shared : Nat → Bool) {j k : Nat} (hle : j ≤ k) :
    rank shared j ≤ rank shared k := by
  induction k, hle using Nat.le_induction with
  | base => exact Nat.le_refl _
  | succ k _ ih =>
    rw [rank_succ]
    omega

theorem toList_label (k : Nat) : (s!"n{k}").toList = 'n' :: Nat.toDigits 10 k := by
  rw [show s!"n{k}" = "n" ++ k.repr from rfl, String.toList_append, Nat.toList_repr]
  rfl

theorem labelOf_eq_some {shared : Nat → Bool} {k : Nat} {s : String}
    (h : labelOf shared k = some s) : shared k = true ∧ s = s!"n{rank shared k + 1}" := by
  unfold labelOf at h
  split at h
  · rename_i hk
    cases h
    exact ⟨hk, rfl⟩
  · cases h

/-- Labels can be written and tell nodes apart. -/
theorem labelling (shared : Nat → Bool) : Labelling (labelOf shared) where
  name k s hs := by
    obtain ⟨-, rfl⟩ := labelOf_eq_some hs
    rw [isName, toList_label]
    refine Bool.and_eq_true_iff.2 ⟨rfl, List.all_eq_true.2 fun c hc => ?_⟩
    have hdigit := Nat.isDigit_of_mem_toDigits (by decide) (by decide) hc
    rw [← Text.isDigit_iff] at hdigit
    simp [isWordChar, hdigit]
  ne_nil k s hs := by
    obtain ⟨-, rfl⟩ := labelOf_eq_some hs
    intro heq
    have hlist := congrArg String.toList heq
    rw [toList_label] at hlist
    have hmem : 'i' ∈ Nat.toDigits 10 (rank shared k + 1) := by
      rw [(List.cons.inj hlist).2]
      decide
    exact absurd (Nat.isDigit_of_mem_toDigits (by decide) (by decide) hmem) (by decide)
  unique j k s hj hk := by
    obtain ⟨hsj, rfl⟩ := labelOf_eq_some hj
    obtain ⟨hsk, heq⟩ := labelOf_eq_some hk
    have hlist := congrArg String.toList heq
    rw [toList_label, toList_label] at hlist
    have hrank := congrArg (Nat.ofDigitChars 10 · 0) (List.cons.inj hlist).2
    simp only [Nat.ofDigitChars_ten_toDigits] at hrank
    -- The number of shared ones goes up at each of them.
    rcases Nat.lt_trichotomy j k with hlt | rfl | hlt
    · have hmono := rank_mono shared (Nat.succ_le_of_lt hlt)
      rw [Nat.succ_eq_add_one, rank_succ, if_pos hsj] at hmono
      omega
    · rfl
    · have hmono := rank_mono shared (Nat.succ_le_of_lt hlt)
      rw [Nat.succ_eq_add_one, rank_succ, if_pos hsk] at hmono
      omega

/-! ### Steps of the printer -/

variable {h : Heap} {c : Catalogue} {M : NodeMemory} {ν : Nat → Option Node} {refs : References}
  {shared : Nat → Bool} {d i j : Nat} {n : Node} {F below rest : Forest} {ms ns : List Node}
  {p p' : Printer} {print : Node → PrintM Unit} {cs : List Char}

/-- The next label. -/
def Printer.next (p : Printer) : String := s!"n{p.names.pairs.length + 1}"

/-- The printer after the label of a node, if it gets one. -/
def Printer.begin (p : Printer) (refs : References) (n : Node) : Printer :=
  if 1 < refs.count n then ⟨p.names.set n p.next, p.text ++ s!"_{p.next} "⟩ else p

theorem printWithin_null :
    printWithin h refs (d + 1) 0 p = .ok () ⟨p.names, p.text ++ "nil"⟩ :=
  rfl

theorem printWithin_again {s : String} (h0 : n ≠ 0) (hname : p.names.get? n = some s) :
    printWithin h refs (d + 1) n p = .ok () ⟨p.names, p.text ++ s⟩ := by
  unfold printWithin
  rw [if_neg h0]
  refine get_bind_eq.trans ?_
  rw [hname]
  rfl

theorem printWithin_new {t : Tag} (h0 : n ≠ 0) (hnew : p.names.get? n = none)
    (htag : h.tag n = .ok t) :
    printWithin h refs (d + 1) n p
      = printInside h (printWithin h refs d) n t (p.begin refs n) := by
  unfold printWithin
  rw [if_neg h0]
  refine get_bind_eq.trans ?_
  rw [hnew]
  unfold Printer.begin References.count
  by_cases hcount : 1 < (Dict.get? refs n).getD 0
  · rw [if_pos hcount, ← printInside_eq htag]
    dsimp only
    rewrite [if_pos hcount]
    rfl
  · rw [if_neg hcount, ← printInside_eq htag]
    dsimp only
    rewrite [if_neg hcount]
    rfl

theorem write_run (s : String) : write s p = .ok () ⟨p.names, p.text ++ s⟩ := rfl

/-! ### Whole forests -/

/-- The nodes that have begun are named by their labels, the others not at all. -/
structure Named (shared : Nat → Bool) (ν : Nat → Option Node) (i : Nat) (p : Printer) :
    Prop where
  begun : ∀ {k n}, ν k = some n → k < i → p.names.get? n = labelOf shared k
  later : ∀ {k n}, ν k = some n → i ≤ k → p.names.get? n = none
  count : p.names.pairs.length = rank shared i

/-- The printer goes on from `p` to `p'` with the characters `cs`, and up to the number `j`. -/
structure Wrote (shared : Nat → Bool) (ν : Nat → Option Node) (p p' : Printer) (cs : List Char)
    (j : Nat) : Prop where
  text : p'.text.toList = p.text.toList ++ cs
  named : Named shared ν j p'

/-- Printing a node writes the characters `cs`. -/
def PrintsNode (shared : Nat → Bool) (ν : Nat → Option Node) (print : Node → PrintM Unit)
    (i j : Nat) (n : Node) (cs : List Char) : Prop :=
  ∀ p, Named shared ν i p → ∃ p', print n p = .ok () p' ∧ Wrote shared ν p p' cs j

/-- Printing nodes writes the characters of the forest. -/
def Prints (shared : Nat → Bool) (ν : Nat → Option Node) (print : Node → PrintM Unit)
    (i : Nat) (F : Forest) (ns : List Node) : Prop :=
  ∀ first p, Named shared ν i p →
    ∃ p', (if first then printList print ns else ns.forM (spaced print)) p = .ok () p' ∧
      Wrote shared ν p p' (F.chars (labelOf shared) first i) (i + F.size)

theorem Wrote.write (hw : Wrote shared ν p p' cs j) (s : String) :
    Wrote shared ν p ⟨p'.names, p'.text ++ s⟩ (cs ++ s.toList) j where
  text := by rw [String.toList_append, hw.text, List.append_assoc]
  named := ⟨hw.named.begun, hw.named.later, hw.named.count⟩

theorem Wrote.trans {p'' : Printer} {cs' : List Char} {k : Nat} (hw : Wrote shared ν p p' cs j)
    (hw' : Wrote shared ν p' p'' cs' k) : Wrote shared ν p p'' (cs ++ cs') k where
  text := by rw [hw'.text, hw.text, List.append_assoc]
  named := hw'.named

theorem Named.wrote (hp : Named shared ν i p) (s : String) :
    Wrote shared ν p ⟨p.names, p.text ++ s⟩ s.toList i where
  text := String.toList_append
  named := ⟨hp.begun, hp.later, hp.count⟩

theorem prints_nil : Prints shared ν print i .nil [] := by
  intro first p hp
  refine ⟨_, by cases first <;> rfl, ?_, hp⟩
  rw [Forest.chars, List.append_nil]

/-- A node and those that follow it. -/
theorem PrintsNode.cons (hn : PrintsNode shared ν print i j n cs)
    (hns : Prints shared ν print j rest ns)
    (hchars : ∀ first, F.chars (labelOf shared) first i
      = gap first (cs ++ rest.chars (labelOf shared) false j))
    (hsize : i + F.size = j + rest.size) : Prints shared ν print i F (n :: ns) := by
  intro first p hp
  rw [hchars, hsize]
  cases first with
  | true =>
    obtain ⟨p₁, hrun₁, hw₁⟩ := hn p hp
    obtain ⟨p₂, hrun₂, hw₂⟩ := hns false p₁ hw₁.named
    refine ⟨p₂, ?_, hw₁.trans hw₂⟩
    rw [if_pos rfl, printList_cons]
    exact (bind_eq_ok hrun₁).trans hrun₂
  | false =>
    have hspace := hp.wrote " "
    obtain ⟨p₁, hrun₁, hw₁⟩ := hn _ hspace.named
    obtain ⟨p₂, hrun₂, hw₂⟩ := hns false p₁ hw₁.named
    refine ⟨p₂, ?_, hspace.trans (hw₁.trans hw₂)⟩
    have hfirst : spaced print n p = .ok () p₁ := hrun₁
    exact (bind_eq_ok hfirst).trans hrun₂

theorem prints_null : PrintsNode shared ν (printWithin h refs (d + 1)) i i 0 "nil".toList :=
  fun _ hp => ⟨_, printWithin_null, hp.wrote "nil"⟩

theorem prints_again (hsh : Shows h M ν) {back : Nat} (hpos : 0 < back) (hle : back ≤ i)
    (hn : ν (i - back) = some n) (hlabel : labelOf shared (i - back) ≠ none) :
    PrintsNode shared ν (printWithin h refs (d + 1)) i i n
      ((labelOf shared (i - back)).getD "").toList := by
  intro p hp
  obtain ⟨s, hs⟩ := Option.ne_none_iff_exists'.1 hlabel
  have hname := hp.begun hn (by omega)
  rw [hs] at hname ⊢
  exact ⟨_, printWithin_again (hsh.ne_zero hn) hname, hp.wrote s⟩

theorem marked_append (label : Nat → Option String) (i : Nat) (cs : List Char) :
    marked label i cs = marked label i [] ++ cs := by
  unfold marked
  cases label i with
  | none => rfl
  | some s => simp

theorem length_pairs_set {names : Dict Node String} (hnew : names.get? n = none) (s : String) :
    (names.set n s).pairs.length = names.pairs.length + 1 := by
  have hkeep : names.pairs.filter (·.1 ≠ n) = names.pairs := by
    rw [List.filter_eq_self]
    intro e he
    rw [Dict.get?, Option.map_eq_none_iff, List.find?_eq_none] at hnew
    simpa using hnew e he
  rw [Dict.set, Dict.erase, hkeep, List.length_cons]

/-- A node that begins gets the next label if it is shared. -/
theorem Named.begin (hp : Named shared ν i p) (hsh : Shows h M ν) (hn : ν i = some n)
    (hshared : 1 < refs.count n ↔ shared i = true) :
    Wrote shared ν p (p.begin refs n) (marked (labelOf shared) i []) (i + 1) := by
  unfold Printer.begin
  by_cases hi : shared i = true
  · have hlabel : labelOf shared i = some p.next := by
      rw [labelOf, if_pos hi, ← hp.count]
      rfl
    rw [if_pos (hshared.2 hi)]
    have hother : ∀ {k m}, ν k = some m → k ≠ i → m ≠ n := by
      rintro k m hm hk rfl
      exact hk (hsh.unique hm hn)
    refine ⟨?_, ?_, ?_, ?_⟩
    · rw [marked, hlabel]
      simp [String.toList_append, toString]
    · intro k m hm hk
      by_cases hki : k = i
      · subst hki
        rw [hn] at hm
        cases hm
        rw [hlabel]
        exact Dict.get?_set_self ..
      · exact (Dict.get?_set_ne _ _ (hother hm hki)).trans (hp.begun hm (by omega))
    · intro k m hm hk
      exact (Dict.get?_set_ne _ _ (hother hm (by omega))).trans (hp.later hm (by omega))
    · rw [rank_succ, if_pos hi, ← hp.count]
      exact length_pairs_set (hp.later hn (Nat.le_refl _)) _
  · have hlabel : labelOf shared i = none := by rw [labelOf, if_neg hi]
    rw [if_neg fun hc => hi (hshared.1 hc)]
    refine ⟨?_, ?_, ?_, ?_⟩
    · rw [marked, hlabel, List.append_nil]
    · intro k m hm hk
      by_cases hki : k = i
      · subst hki
        rw [hlabel]
        exact hp.later hm (Nat.le_refl _)
      · exact hp.begun hm (by omega)
    · exact fun hm hk => hp.later hm (by omega)
    · rw [rank_succ, if_neg hi, hp.count, Nat.add_zero]

/-- A node that is met for the first time. -/
theorem prints_new (hs : h.Standard c) (hsh : Shows h M ν) (hn : ν i = some n) {r : Cell}
    (hM : M n = some r) (hshared : 1 < refs.count n ↔ shared i = true)
    (hinside : PrintsNode shared ν
      (fun n => printInside h (printWithin h refs d) n r.tag) (i + 1) j n cs) :
    PrintsNode shared ν (printWithin h refs (d + 1)) i j n (marked (labelOf shared) i cs) := by
  intro p hp
  obtain ⟨x, hl⟩ := hsh.laid hM
  have hbegin := hp.begin hsh hn hshared
  obtain ⟨p', hrun, hw⟩ := hinside _ hbegin.named
  refine ⟨p', ?_, ?_⟩
  · rw [printWithin_new (hsh.ne_zero hn) (hp.later hn (Nat.le_refl _)) (tag_laid hs.sized hl)]
    exact hrun
  · rw [marked_append]
    exact hbegin.trans hw

theorem prints_integer (hs : h.Standard c) (hsh : Shows h M ν) {v : UInt64}
    (hM : M n = some (.integer v)) :
    PrintsNode shared ν (fun n => printInside h print n .literal) i i n
      (Nat.toDigits 10 v.toNat) := by
  intro p hp
  obtain ⟨x, hl⟩ := hsh.laid hM
  have hprint : printInside h print n .literal p = write (toString v) p := by
    cases hl with
    | integer hr hx =>
      obtain ⟨hvalue, hwords⟩ := Heap.literal_eq hs hr hx
      show printLiteral h print n p = _
      unfold printLiteral
      rw [hvalue, hwords]
      refine (bind_eq_ok (a := (h.types.scalars.integer, x)) rfl).trans ?_
      refine (bind_eq_ok (a := [v]) rfl).trans ?_
      dsimp only
      rw [if_pos rfl]
  refine ⟨_, hprint, ?_⟩
  have hdigits : (toString v).toList = Nat.toDigits 10 v.toNat := Nat.toList_repr
  rw [← hdigits]
  exact hp.wrote _

theorem Forest.chars_false (label : Nat → Option String) (i : Nat) (hF : F ≠ .nil) :
    F.chars label false i = ' ' :: F.chars label true i := by
  cases F with
  | nil => exact absurd rfl hF
  | _ => rfl

theorem prints_quote (hs : h.Standard c) (hsh : Shows h M ν) {q : Node}
    (hM : M n = some (.quote q)) (hlen : below.length = 1)
    (hbelow : Prints shared ν print i below [q]) :
    PrintsNode shared ν (fun n => printInside h print n .literal) i (i + below.size) n
      ('[' :: ("quote".toList ++ (below.chars (labelOf shared) false i ++ [']']))) := by
  intro p hp
  obtain ⟨x, hl⟩ := hsh.laid hM
  -- The space belongs to the form below, and there is one.
  have hnil : below ≠ .nil := by
    rintro rfl
    cases hlen
  have hstart := hp.wrote "[quote "
  obtain ⟨p', hrun, hw⟩ := hbelow true _ hstart.named
  have hprint : printInside h print n .literal p
      = (do print q; write "]") (⟨p.names, p.text ++ "[quote "⟩ : Printer) := by
    cases hl with
    | quote hr hx =>
      obtain ⟨hvalue, hwords⟩ := Heap.quote_eq hs hr hx
      show printLiteral h print n p = _
      unfold printLiteral
      rw [hvalue, hwords]
      refine (bind_eq_ok (a := (h.types.scalars.ast, x)) rfl).trans ?_
      refine (bind_eq_ok (a := [q]) rfl).trans ?_
      dsimp only
      have hne : h.types.scalars.ast ≠ h.types.scalars.integer := by
        intro heq
        have hast := hs.ast
        rw [heq] at hast
        cases hs.valid.record_unique hs.integer hast
      rw [if_neg hne, if_pos rfl]
      rfl
  refine ⟨_, hprint.trans ((bind_eq_ok (show print q _ = _ from hrun)).trans rfl), ?_⟩
  have hall := (hstart.trans hw).write "]"
  rw [Forest.chars_false _ _ hnil]
  simpa using hall

theorem prints_fields (hs : h.Standard c) (hsh : Shows h M ν) {t : Tag}
    (hM : M n = some (.fields t ms)) (ht : t ≠ .literal ∧ t ≠ .block)
    (hbelow : Prints shared ν print i below ms) :
    PrintsNode shared ν (fun n => printInside h print n t) i (i + below.size) n
      ('[' :: (t.name.toList ++ (below.chars (labelOf shared) false i ++ [']']))) := by
  intro p hp
  obtain ⟨x, hl⟩ := hsh.laid hM
  have hstart := hp.wrote ("[" ++ t.name)
  obtain ⟨p', hrun, hw⟩ := hbelow false _ hstart.named
  refine ⟨⟨p'.names, p'.text ++ "]"⟩, ?_, ?_⟩
  · dsimp only
    rw [printInside_fields ht, children_laid hs hl]
    refine (bind_eq_ok (write_run _)).trans ?_
    refine (bind_eq_ok (a := ms) rfl).trans ?_
    exact (bind_eq_ok (show ms.forM (spaced print) _ = _ from hrun)).trans rfl
  · have hall := (hstart.trans hw).write "]"
    simpa using hall

theorem prints_block (hs : h.Standard c) (hsh : Shows h M ν)
    (hM : M n = some (.block ms)) (hbelow : Prints shared ν print i below ms) :
    PrintsNode shared ν (fun n => printInside h print n .block) i (i + below.size) n
      ('\x7b' :: (below.chars (labelOf shared) true i ++ ['\x7d'])) := by
  intro p hp
  obtain ⟨x, hl⟩ := hsh.laid hM
  have hstart := hp.wrote "\x7b"
  obtain ⟨p', hrun, hw⟩ := hbelow true _ hstart.named
  refine ⟨⟨p'.names, p'.text ++ "\x7d"⟩, ?_, ?_⟩
  · dsimp only
    rw [printInside, children_laid hs hl]
    refine (bind_eq_ok (write_run _)).trans ?_
    refine (bind_eq_ok (a := ms) rfl).trans ?_
    exact (bind_eq_ok (show printList print ms _ = _ from hrun)).trans rfl
  · have hall := (hstart.trans hw).write "\x7d"
    simpa using hall

theorem marked_append_append (label : Nat → Option String) (i : Nat) (cs cs' : List Char) :
    marked label i (cs ++ cs') = marked label i cs ++ cs' := by
  rw [marked_append, marked_append label i cs, List.append_assoc]

/-- Printing goes through every forest that stands in the heap. -/
theorem prints (hs : h.Standard c) (hsh : Shows h M ν) {Q : Nat → Prop}
    (hst : Stands M ν i F ns) (hF : F.Scoped Q i) (hd : F.height ≤ d)
    (hshared : ∀ k n, ν k = some n → (1 < refs.count n ↔ shared k = true))
    (hbacks : ∀ k, 0 < F.backs k i → shared k = true) :
    Prints shared ν (printWithin h refs d) i F ns := by
  -- The names and the text are those that the nodes before have left; only the number `i` of
  -- the next node has to be known of them.
  induction hst generalizing Q d with
  | nil => exact prints_nil
  | null _ ih =>
    simp only [Forest.height] at hd
    obtain ⟨d, rfl⟩ : ∃ k, d = k + 1 := ⟨d - 1, by omega⟩
    exact PrintsNode.cons prints_null (ih hF (by omega) hbacks) (fun _ => rfl) rfl
  | @again i back n rest ns hle hn _ ih =>
    simp only [Forest.height, Forest.backs] at hd hbacks
    obtain ⟨d, rfl⟩ : ∃ k, d = k + 1 := ⟨d - 1, by omega⟩
    obtain ⟨hpos, -, -, hrest⟩ := hF
    have hlabel : labelOf shared (i - back) ≠ none := by
      rw [labelOf, if_pos (hbacks _ (by rw [if_pos rfl]; omega))]
      exact Option.some_ne_none _
    exact PrintsNode.cons (prints_again hsh hpos hle hn hlabel)
      (ih hrest (by omega) fun k hk => hbacks k (by omega)) (fun _ => rfl) rfl
  | @integer i v n rest ns hn hM _ ih =>
    simp only [Forest.height, Forest.backs] at hd hbacks
    obtain ⟨d, rfl⟩ : ∃ k, d = k + 1 := ⟨d - 1, by omega⟩
    refine PrintsNode.cons (prints_new hs hsh hn hM (hshared i n hn) (prints_integer hs hsh hM))
      (ih hF (by omega) hbacks) (fun first => ?_) (by simp only [Forest.size]; omega)
    rw [Forest.chars, ← marked_append_append]
  | @fields i t n below rest ms ns hn hM _ _ ihb ih =>
    simp only [Forest.height, Forest.backs] at hd hbacks
    obtain ⟨d, rfl⟩ : ∃ k, d = k + 1 := ⟨d - 1, by omega⟩
    obtain ⟨ht, hlen, hbelow, hrest⟩ := hF
    have hinside := ihb hbelow (d := d) (by omega) fun k hk => hbacks k (by omega)
    have hnode := prints_fields hs hsh hM ht hinside
    refine PrintsNode.cons (prints_new hs hsh hn hM (hshared i n hn) hnode)
      (ih hrest (by omega) fun k hk => hbacks k (by omega)) (fun first => ?_)
      (by simp only [Forest.size]; omega)
    rw [Forest.chars, ← marked_append_append]
    simp
  | @block i n below rest ms ns hn hM _ _ ihb ih =>
    simp only [Forest.height, Forest.backs] at hd hbacks
    obtain ⟨d, rfl⟩ : ∃ k, d = k + 1 := ⟨d - 1, by omega⟩
    obtain ⟨hbelow, hrest⟩ := hF
    have hinside := ihb hbelow (d := d) (by omega) fun k hk => hbacks k (by omega)
    have hnode := prints_block hs hsh hM hinside
    refine PrintsNode.cons (prints_new hs hsh hn hM (hshared i n hn) hnode)
      (ih hrest (by omega) fun k hk => hbacks k (by omega)) (fun first => ?_)
      (by simp only [Forest.size]; omega)
    rw [Forest.chars, ← marked_append_append]
    simp
  | @quote i n m below rest ns hn hM _ _ ihb ih =>
    simp only [Forest.height, Forest.backs] at hd hbacks
    obtain ⟨d, rfl⟩ : ∃ k, d = k + 1 := ⟨d - 1, by omega⟩
    obtain ⟨hlen, hbelow, hrest⟩ := hF
    have hinside := ihb hbelow (d := d) (by omega) fun k hk => hbacks k (by omega)
    have hnode := prints_quote hs hsh hM hlen hinside
    refine PrintsNode.cons (prints_new hs hsh hn hM (hshared i n hn) hnode)
      (ih hrest (by omega) fun k hk => hbacks k (by omega)) (fun first => ?_)
      (by simp only [Forest.size]; omega)
    rw [Forest.chars, ← marked_append_append]
    simp

/-- The nodes of a form that are met again. -/
def Forest.repeated (F : Forest) (k : Nat) : Bool := decide (0 < F.backs k 0)

/-- The characters of a form as it is printed. -/
def Forest.printed (F : Forest) : List Char := F.chars (labelOf F.repeated) true 0

/-- A node is printed as the form that it stands for. -/
theorem print_form (hs : h.Standard c) (hsh : Shows h M ν) {Q : Nat → Prop}
    (hst : Stands M ν 0 F [n]) (hF : F.Scoped Q 0) (hd : F.height ≤ h.depthBound) :
    ∃ s, Source.print h n = .ok s ∧ s.toList = F.printed := by
  obtain ⟨refs, hrefs, hcount⟩ := references_form hs hsh hst hF hd
  have hshared : ∀ k m, ν k = some m → (1 < refs.count m ↔ F.repeated k = true) := by
    intro k m hm
    rw [hcount k m hm, Forest.repeated, decide_eq_true_iff]
    constructor
    · intro hlt
      split_ifs at hlt <;> omega
    · intro hpos
      have hlt := hF.backs_lt hpos
      rw [if_pos (by omega)]
      omega
  obtain ⟨p, hrun, hw⟩ := prints hs hsh hst hF hd hshared
    (fun k hk => decide_eq_true hk) true ⟨.empty, ""⟩
    ⟨fun _ hk => absurd hk (Nat.not_lt_zero _), fun _ _ => rfl, rfl⟩
  refine ⟨p.text, ?_, hw.text⟩
  rw [Source.print, except_bind_ok hrefs]
  rw [if_pos rfl] at hrun
  have hone : printWithin h refs h.depthBound n ⟨.empty, ""⟩ = .ok () p := hrun
  rw [hone]

/-! ### Bytes -/

/-- All characters are ASCII characters. -/
def Ascii (cs : List Char) : Prop := ∀ x ∈ cs, x.toNat < 128

theorem ascii_nil : Ascii [] := fun _ hx => absurd hx List.not_mem_nil

theorem Ascii.cons {x : Char} (hx : x.toNat < 128) (h : Ascii cs) : Ascii (x :: cs) :=
  List.forall_mem_cons.2 ⟨hx, h⟩

theorem Ascii.append {cs' : List Char} (h : Ascii cs) (h' : Ascii cs') : Ascii (cs ++ cs') :=
  List.forall_mem_append.2 ⟨h, h'⟩

theorem ascii_name {s : String} (hs : isName s = true) : Ascii s.toList := by
  obtain ⟨x, w, heq, -, hw⟩ := Cursor.isName_cases hs
  rw [heq]
  exact fun y hy => (Cursor.isWordChar_cases (hw y hy)).1

theorem Ascii.gap (h : Ascii cs) (first : Bool) : Ascii (gap first cs) := by
  cases first with
  | true => exact h
  | false => exact h.cons (by decide)

theorem Ascii.marked {label : Nat → Option String} (h : Ascii cs)
    (hlabel : ∀ k s, label k = some s → isName s = true) (i : Nat) :
    Ascii (marked label i cs) := by
  unfold Forest.marked
  cases hi : label i with
  | none => exact h
  | some s => exact ((ascii_name (hlabel i s hi)).append (h.cons (by decide))).cons (by decide)

theorem Forest.ascii_chars {label : Nat → Option String}
    (hlabel : ∀ k s, label k = some s → isName s = true) (F : Forest) (first : Bool) (i : Nat) :
    Ascii (F.chars label first i) := by
  induction F generalizing first i with
  | nil => exact ascii_nil
  | null rest ih => exact ((ascii_name (s := "nil") (by decide)).append (ih false i)).gap first
  | again back rest ih =>
    refine (Ascii.append ?_ (ih false i)).gap first
    cases hi : label (i - back) with
    | none => exact ascii_nil
    | some s => exact ascii_name (hlabel _ s hi)
  | integer v rest ih =>
    obtain ⟨x, ds, heq, -, hds⟩ := Cursor.number_cases v
    refine ((Ascii.append ?_ (ih false (i + 1))).marked hlabel i).gap first
    rw [heq]
    exact fun y hy => (Cursor.isWordChar_cases (hds y hy)).1
  | fields t below rest ihb ih =>
    have hrest := (ih false (i + 1 + below.size)).cons (x := ']') (by decide)
    have hbelow := (ihb false (i + 1)).append hrest
    exact ((((ascii_name (isName_tag t)).append hbelow).cons (by decide)).marked hlabel i).gap first
  | block below rest ihb ih =>
    have hrest := (ih false (i + 1 + below.size)).cons (x := '\x7d') (by decide)
    have hbelow := (ihb true (i + 1)).append hrest
    exact ((hbelow.cons (by decide)).marked hlabel i).gap first
  | quote below rest ihb ih =>
    have hrest := (ih false (i + 1 + below.size)).cons (x := ']') (by decide)
    have hbelow := (ihb false (i + 1)).append hrest
    have hquote := (ascii_name (s := "quote") (by decide)).append hbelow
    exact ((hquote.cons (by decide)).marked hlabel i).gap first

theorem toList_loop (bytes : ByteArray) (i : Nat) (acc : List UInt8) :
    ByteArray.toList.loop bytes i acc = acc.reverse ++ bytes.data.toList.drop i := by
  fun_induction ByteArray.toList.loop bytes i acc with
  | case1 i acc hlt ih =>
    have hi : i < bytes.data.toList.length := hlt
    have hget : bytes.get! i = bytes.data.toList[i] := by
      show bytes.data[i]! = _
      rw [getElem!_pos bytes.data i hlt]
      rfl
    rw [ih, List.drop_eq_getElem_cons hi, List.reverse_cons, List.append_assoc, hget]
    rfl
  | case2 i acc hge =>
    rw [List.drop_of_length_le (Nat.le_of_not_lt hge), List.append_nil]

/-- An ASCII character is one byte. -/
theorem toBytes_eq {s : String} (hs : Ascii s.toList) : Text.toBytes s = encode s.toList := by
  have hone : ∀ x ∈ s.toList, String.utf8EncodeChar x = [UInt8.ofNat x.toNat] := by
    intro x hx
    have hle : x.val.toNat ≤ 127 := Nat.le_of_lt_succ (hs x hx)
    exact if_pos hle
  rw [Text.toBytes, String.toUTF8, ← String.utf8Encode_toList, ByteArray.toList, toList_loop,
    List.utf8Encode, List.toList_data_toByteArray, encode, List.map_eq_flatMap]
  exact List.flatMap_congr hone

theorem toBytes_printed {s : String} (hs : s.toList = F.printed) :
    Text.toBytes s = encode F.printed := by
  have hascii : Ascii F.printed := Forest.ascii_chars (labelling F.repeated).name F true 0
  rw [← hs] at hascii ⊢
  exact toBytes_eq hascii

end TreeMachine.Source
