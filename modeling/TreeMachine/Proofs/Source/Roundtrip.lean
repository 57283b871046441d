import Mathlib.Data.Fintype.Card
import TreeMachine.Proofs.Source.Barren
import TreeMachine.Proofs.Source.Following
import TreeMachine.Proofs.Source.Printed
import TreeMachine.Proofs.Types.History

/-! # Printing and reading again

  What has been read is printed as a text that is read as the same graph of nodes, and that
  is printed as the same text.  The reader follows a draft both times, and both drafts end
  with the same form.  Main statement: so it is in every image that a history leads to,
  unless the memory runs out.
-/

namespace TreeMachine.Source

open List (Forall₂)

variable {h h' h₁ h₂ : Heap} {c : Catalogue} {M M' : NodeMemory} {ν ν' : Nat → Option Node}
  {F : Forest} {D D' : Draft} {i b k : Nat} {n n' m m' : Node} {ns ns' : List Node}
  {Q : Nat → Prop} {R : Node → Node → Prop} {toks : List Token} {ss : List Sign}

/-! ### The same graph -/

/-- The nodes have the same tag, and what the one refers to corresponds to what the other
    refers to, in the same order.  If they are literals they have the same type, and the same
    words unless they are quotes. -/
def Alike (R : Node → Node → Prop) (h h' : Heap) (n n' : Node) : Prop :=
  (∃ t ms ms', h.tag n = .ok t ∧ h'.tag n' = .ok t ∧ children h n = .ok ms ∧
    children h' n' = .ok ms' ∧ Forall₂ R ms ms') ∧
  (h.tag n = .ok .literal → ∃ t x x', h.literalValue n = .ok (t, x) ∧
    h'.literalValue n' = .ok (t, x') ∧
    (t ≠ h.types.scalars.ast → ∃ ws, h.literalWords n = .ok ws ∧ h'.literalWords n' = .ok ws))

/-- There is a correspondence, one to one, of all that can be reached from the nodes: null
    corresponds to null, and what corresponds is alike. -/
def Isomorphic (h h' : Heap) (n n' : Node) : Prop :=
  ∃ R : Node → Node → Prop, R n n' ∧ ∀ m m', R m m' →
    (m = 0 ↔ m' = 0) ∧ (m ≠ 0 → Alike R h h' m m') ∧
    (∀ a, R m a → a = m') ∧ ∀ a, R a m' → a = m

/-- Cells that hold the same up to the places of nodes. -/
inductive Like (R : Node → Node → Prop) : Cell → Cell → Prop
  | integer (v : UInt64) : Like R (.integer v) (.integer v)
  | quote {q q' : Node} : R q q' → Like R (.quote q) (.quote q')
  | fields {t : Tag} {ms ms' : List Node} : Forall₂ R ms ms' →
    Like R (.fields t ms) (.fields t ms')
  | block {ms ms' : List Node} : Forall₂ R ms ms' → Like R (.block ms) (.block ms')

namespace Like

variable {x y : Cell}

theorem tag_eq (hl : Like R x y) : x.tag = y.tag := by
  cases hl <;> rfl

theorem children (hl : Like R x y) : Forall₂ R x.children y.children := by
  cases hl with
  | integer v => exact .nil
  | quote hq => exact .cons hq .nil
  | fields hms | block hms => exact hms

/-- Nodes that hold the same are alike. -/
theorem alike (hl : Like R x y) (hs : h.Standard c) (hs' : h'.Standard c)
    (htypes : h'.types = h.types) {a a' : Addr}
    (hx : Heap.Laid h.types.scalars h.arena.Owns n a x)
    (hy : Heap.Laid h'.types.scalars h'.arena.Owns n' a' y) : Alike R h h' n n' := by
  have htag := tag_laid hs.sized hx
  refine ⟨⟨x.tag, x.children, y.children, htag, ?_, children_laid hs hx, children_laid hs' hy,
    hl.children⟩, ?_⟩
  · rw [hl.tag_eq]
    exact tag_laid hs'.sized hy
  · intro hliteral
    rw [htag] at hliteral
    cases hl with
    | integer v =>
      cases hx with
      | integer hr hp =>
        cases hy with
        | integer hr' hp' =>
          obtain ⟨hvalue, hwords⟩ := Heap.literal_eq hs hr hp
          obtain ⟨hvalue', hwords'⟩ := Heap.literal_eq hs' hr' hp'
          rw [htypes] at hvalue'
          exact ⟨_, _, _, hvalue, hvalue', fun _ => ⟨_, hwords, hwords'⟩⟩
    | quote hq =>
      cases hx with
      | quote hr hp =>
        cases hy with
        | quote hr' hp' =>
          obtain ⟨hvalue, -⟩ := Heap.quote_eq hs hr hp
          obtain ⟨hvalue', -⟩ := Heap.quote_eq hs' hr' hp'
          rw [htypes] at hvalue'
          exact ⟨_, _, _, hvalue, hvalue', fun hne => absurd rfl hne⟩
    | @fields t ms ms' _ =>
      obtain ⟨-, -, hlit, -⟩ := hx.of_fields
      exact absurd (Except.ok.inj hliteral) hlit
    | block => cases hliteral

end Like

/-- Nodes under the same number correspond, and so do null nodes. -/
def Under (ν ν' : Nat → Option Node) (b : Nat) (n n' : Node) : Prop :=
  (n = 0 ∧ n' = 0) ∨ ∃ k < b, ν k = some n ∧ ν' k = some n'

/-- The nodes with the number `k` hold the same. -/
def SameCell (M M' : NodeMemory) (ν ν' : Nat → Option Node) (b k : Nat) : Prop :=
  ∃ n n' x y, ν k = some n ∧ ν' k = some n' ∧ M n = some x ∧ M' n' = some y ∧
    Like (Under ν ν' b) x y

/-- A node, the `s` nodes below it, and `r` nodes after them. -/
theorem numbers_split {P : Nat → Prop} {s r : Nat} (hfirst : P i)
    (hbelow : ∀ k, i + 1 ≤ k → k < i + 1 + s → P k)
    (hrest : ∀ k, i + 1 + s ≤ k → k < i + 1 + s + r → P k) :
    ∀ k, i ≤ k → k < i + (s + r + 1) → P k := by
  intro k hlo hhi
  by_cases hk : k = i
  · rwa [hk]
  · by_cases hlt : k < i + 1 + s
    · exact hbelow k (by omega) hlt
    · exact hrest k (by omega) (by omega)

/-- A forest that stands in two memories has corresponding nodes, which hold the same. -/
theorem stands_like (hst : Stands M ν i F ns) (hst' : Stands M' ν' i F ns') (hF : F.Scoped Q i)
    (hb : i + F.size ≤ b) : Forall₂ (Under ν ν' b) ns ns' ∧
      ∀ k, i ≤ k → k < i + F.size → SameCell M M' ν ν' b k := by
  -- Both memories hold the same forest, so the rule for the second is that for the first.
  induction hst generalizing Q ns' with
  | nil =>
    cases hst'
    exact ⟨.nil, fun k hlo hhi => absurd hhi (Nat.not_lt_of_le hlo)⟩
  | null _ ih =>
    cases hst' with
    | null hrest' =>
      obtain ⟨hall, hcells⟩ := ih hrest' hF hb
      exact ⟨.cons (Or.inl ⟨rfl, rfl⟩) hall, hcells⟩
  | again hle hn _ ih =>
    obtain ⟨hpos, -, -, hrest⟩ := hF
    simp only [Forest.size] at hb ⊢
    cases hst' with
    | again _ hn' hrest' =>
      obtain ⟨hall, hcells⟩ := ih hrest' hrest hb
      exact ⟨.cons (Or.inr ⟨_, by omega, hn, hn'⟩) hall, hcells⟩
  | @integer i v n rest ns hn hx _ ih =>
    simp only [Forest.size] at hb ⊢
    cases hst' with
    | integer hn' hy hrest' =>
      obtain ⟨hall, hcells⟩ := ih hrest' hF (by omega)
      refine ⟨.cons (Or.inr ⟨i, by omega, hn, hn'⟩) hall, ?_⟩
      have hsplit := numbers_split (s := 0) (r := rest.size)
        (P := SameCell M M' ν ν' b) ⟨_, _, _, _, hn, hn', hx, hy, .integer v⟩
        (fun k hlo hhi => absurd hhi (Nat.not_lt_of_le hlo)) hcells
      rwa [Nat.zero_add] at hsplit
  | @fields i t n below rest ms ns hn hx _ _ ihb ih =>
    obtain ⟨-, -, hbelow, hrest⟩ := hF
    simp only [Forest.size] at hb ⊢
    cases hst' with
    | fields hn' hy hbelow' hrest' =>
      obtain ⟨hms, hcells⟩ := ihb hbelow' hbelow (by omega)
      obtain ⟨hall, hcells'⟩ := ih hrest' hrest (by omega)
      exact ⟨.cons (Or.inr ⟨i, by omega, hn, hn'⟩) hall,
        numbers_split ⟨_, _, _, _, hn, hn', hx, hy, .fields hms⟩ hcells hcells'⟩
  | @block i n below rest ms ns hn hx _ _ ihb ih =>
    obtain ⟨hbelow, hrest⟩ := hF
    simp only [Forest.size] at hb ⊢
    cases hst' with
    | block hn' hy hbelow' hrest' =>
      obtain ⟨hms, hcells⟩ := ihb hbelow' hbelow (by omega)
      obtain ⟨hall, hcells'⟩ := ih hrest' hrest (by omega)
      exact ⟨.cons (Or.inr ⟨i, by omega, hn, hn'⟩) hall,
        numbers_split ⟨_, _, _, _, hn, hn', hx, hy, .block hms⟩ hcells hcells'⟩
  | @quote i n m below rest ns hn hx _ _ ihb ih =>
    obtain ⟨-, hbelow, hrest⟩ := hF
    simp only [Forest.size] at hb ⊢
    cases hst' with
    | quote hn' hy hbelow' hrest' =>
      obtain ⟨hms, hcells⟩ := ihb hbelow' hbelow (by omega)
      obtain ⟨hall, hcells'⟩ := ih hrest' hrest (by omega)
      cases hms with
      | cons hm _ =>
        exact ⟨.cons (Or.inr ⟨i, by omega, hn, hn'⟩) hall,
          numbers_split ⟨_, _, _, _, hn, hn', hx, hy, .quote hm⟩ hcells hcells'⟩

/-- Two nodes that stand for the same form have the same graph. -/
theorem Made.isomorphic {h₀ h₀' : Heap} (hm : Made h₀ h F n) (hm' : Made h₀' h' F n')
    (hs : h.Standard c) (hs' : h'.Standard c) (htypes : h'.types = h.types) (hF : F.Scoped Q 0) :
    Isomorphic h h' n n' := by
  obtain ⟨-, M, ν, hsh, hst⟩ := hm
  obtain ⟨-, M', ν', hsh', hst'⟩ := hm'
  obtain ⟨hroot, hcells⟩ := stands_like hst hst' hF (b := F.size) (by omega)
  cases hroot with
  | cons hroot _ =>
    refine ⟨Under ν ν' F.size, hroot, fun m m' hmm => ?_⟩
    rcases hmm with ⟨rfl, rfl⟩ | ⟨k, hk, hn, hn'⟩
    · refine ⟨Iff.rfl, fun hne => absurd rfl hne, ?_, ?_⟩
      · rintro a (⟨-, ha⟩ | ⟨k, -, hn, -⟩)
        · exact ha
        · exact absurd rfl (hsh.ne_zero hn)
      · rintro a (⟨ha, -⟩ | ⟨k, -, -, hn⟩)
        · exact ha
        · exact absurd rfl (hsh'.ne_zero hn)
    · have hm0 := hsh.ne_zero hn
      have hm0' := hsh'.ne_zero hn'
      refine ⟨⟨fun h0 => absurd h0 hm0, fun h0 => absurd h0 hm0'⟩, fun _ => ?_, ?_, ?_⟩
      · obtain ⟨p, p', x, y, hp, hp', hx, hy, hlike⟩ := hcells k (Nat.zero_le k) (by omega)
        rw [hn] at hp
        rw [hn'] at hp'
        cases hp
        cases hp'
        obtain ⟨a, hlaid⟩ := hsh.laid hx
        obtain ⟨a', hlaid'⟩ := hsh'.laid hy
        exact hlike.alike hs hs' htypes hlaid hlaid'
      · rintro a (⟨ha, -⟩ | ⟨j, -, hj, hj'⟩)
        · exact absurd ha hm0
        · rw [hsh.unique hj hn, hn'] at hj'
          exact (Option.some.inj hj').symm
      · rintro a (⟨-, ha⟩ | ⟨j, -, hj, hj'⟩)
        · exact absurd ha hm0'
        · rw [hsh'.unique hj' hn', hn] at hj
          exact (Option.some.inj hj).symm

/-! ### The text of what was read -/

/-- A node that is laid out lies in the arena. -/
theorem lt_size_of_laid {s : Scalars} {a : Arena} {x : Addr} {r : Cell}
    (hl : Heap.Laid s a.Owns n x r) : n.toNat < a.words.size := by
  have hpos : ∀ {w : UInt64} {ws : List UInt64}, a.Owns n (w :: ws) → n.toNat < a.words.size := by
    intro w ws hws
    have hin := hws.inside
    rw [List.length_cons] at hin
    omega
  cases hl with
  | integer hr | quote hr | fields hr | empty hr | block hr => exact hpos hr

/-- Every number of a forest stands for a node. -/
theorem Stands.numbered (hst : Stands M ν i F ns) :
    ∀ k, i ≤ k → k < i + F.size → ∃ n, ν k = some n := by
  induction hst with
  | nil => exact fun k hlo hhi => absurd hhi (Nat.not_lt_of_le hlo)
  | null _ ih => exact ih
  | again _ _ _ ih => exact ih
  | @integer i v n rest ns hn _ _ ih =>
    have hsplit := numbers_split (s := 0) (r := rest.size) (P := fun k => ∃ n, ν k = some n)
      ⟨_, hn⟩ (fun k hlo hhi => absurd hhi (Nat.not_lt_of_le hlo)) ih
    rwa [Nat.zero_add] at hsplit
  | fields hn _ _ _ ihb ih => exact numbers_split ⟨_, hn⟩ ihb ih
  | block hn _ _ _ ihb ih => exact numbers_split ⟨_, hn⟩ ihb ih
  | quote hn _ _ _ ihb ih => exact numbers_split ⟨_, hn⟩ ihb ih

/-- There are no more nodes than words. -/
theorem Shows.size_le (hsh : Shows h M ν) (hst : Stands M ν 0 F ns) :
    F.size ≤ h.arena.words.size := by
  have hplace : ∀ k : Fin F.size, ∃ p : Fin h.arena.words.size,
      ∃ n, ν k = some n ∧ n.toNat = p := by
    intro k
    obtain ⟨n, hn⟩ := hst.numbered k (Nat.zero_le _) (by omega)
    obtain ⟨x, hx⟩ := hsh.cell hn
    obtain ⟨a, hl⟩ := hsh.laid hx
    exact ⟨⟨n.toNat, lt_size_of_laid hl⟩, n, hn, rfl⟩
  choose place hplace using hplace
  have hinj : Function.Injective place := by
    intro j k hjk
    obtain ⟨n, hn, hnp⟩ := hplace j
    obtain ⟨m, hm, hmp⟩ := hplace k
    rw [hjk, ← hmp] at hnp
    rw [UInt64.toNat_inj.1 hnp] at hn
    exact Fin.ext (hsh.unique hn hm)
  simpa using Fintype.card_le_of_injective place hinj

/-- A node that stands for a form is printed as the form. -/
theorem Made.print {h₀ : Heap} (hm : Made h₀ h F n) (hs : h.Standard c) (hF : F.Scoped Q 0) :
    ∃ s, Source.print h n = .ok s ∧ s.toList = F.printed := by
  obtain ⟨-, M, ν, hsh, hst⟩ := hm
  have hheight := F.height_le
  have hsize := hsh.size_le hst
  refine print_form hs hsh hst hF ?_
  show F.height ≤ h.arena.words.size + 1
  omega

/-! ### Reading -/

theorem sign?_of_matches {s : Sign} {tok : Token} (hs : s.Matches tok) : tok.sign? = some s := by
  unfold Token.sign?
  match s with
  | .lexeme .opening => rw [show tok.kind = .openBracket from hs]
  | .lexeme .closing => rw [show tok.kind = .closeBracket from hs]
  | .lexeme (.name l) =>
    obtain ⟨hkind, rfl⟩ := hs
    rw [hkind]
  | .lexeme (.define l) =>
    obtain ⟨hkind, rfl⟩ := hs
    rw [hkind]
  | .lexeme (.number v) =>
    obtain ⟨hkind, hv⟩ := hs
    rw [hkind]
    dsimp only
    rw [hv]
  | .openBrace => rw [show tok.kind = .openBrace from hs]
  | .closeBrace => rw [show tok.kind = .closeBrace from hs]

/-- What tokens say is read as the signs are. -/
theorem Draft.follow_eq_run (hall : Forall₂ Sign.Matches ss toks) (D : Draft) :
    D.follow toks = D.run ss := by
  induction hall generalizing D with
  | nil => rfl
  | cons hs _ ih =>
    rw [Draft.follow, Draft.run, sign?_of_matches hs, Option.bind_some]
    exact congrArg (Option.bind _) (funext ih)

theorem Draft.Scoped.follow (hD : D.Scoped) (hrun : D.follow toks = some D') : D'.Scoped := by
  induction toks generalizing D with
  | nil =>
    cases hrun
    exact hD
  | cons tok toks ih =>
    obtain ⟨D₁, hstep, hrest⟩ := Option.bind_eq_some_iff.1 hrun
    obtain ⟨s, -, hs⟩ := Option.bind_eq_some_iff.1 hstep
    exact ih (hD.step hs) hrest

/-- Nothing has been read. -/
theorem agrees_start : Agrees (fun _ => none) (fun _ => none) Reader.start Draft.start :=
  ⟨rfl, fun _ => rfl, fun hk => (by cases hk), fun hk => (by cases hk), fun hk => (by cases hk),
    fun hk => (by cases hk), .nil, .nil⟩

theorem tokens_ne_nil (text : List UInt8) : tokens text ≠ [] := by
  rw [tokens, Cursor.scan]
  split <;> simp

/-- What is read of any text stands for a form. -/
theorem read_made (hs : h.Standard c) (hidle : h.arena.collecting = false) {text : List UInt8}
    (hread : read text h = .ok n h') :
    ∃ F, Made h h' F n ∧ F.Scoped (fun _ => False) 0 ∧ F.length = 1 := by
  have htokens := List.dropLast_concat_getLast (tokens_ne_nil text)
  have hruns := agrees_start.run (.start hs.sound hidle) hs (tokens text).dropLast
    ((tokens text).getLast (tokens_ne_nil text))
  rw [htokens] at hruns
  obtain ⟨D, F, hfollow, hfinish, hmade⟩ := hruns.ok hread
  exact ⟨F, hmade, (Draft.start_scoped.follow hfollow).finish hfinish⟩

/-- The text of a form is read as the form, unless the memory runs out. -/
theorem read_printed (hs : h.Standard c) (hidle : h.arena.collecting = false)
    (hF : F.Scoped (fun _ => False) 0) (hlen : F.length = 1) :
    Yields (read (encode F.printed)) h (fun n h' => Made h h' F n) Heap.Starved := by
  have hlabels := labelling F.repeated
  have hbacks : ∀ k, 0 < F.backs k 0 → labelOf F.repeated k ≠ none := by
    intro k hk
    rw [labelOf, if_pos (show F.repeated k = true from decide_eq_true hk)]
    exact Option.some_ne_none _
  obtain ⟨toks, last, htokens, -, hall⟩ := (F.spells hlabels.name hbacks true).tokens
  obtain ⟨D, hrun, hfinish, hforms⟩ := Draft.run_signs hlabels hF hlen hbacks
  have hfollow : Draft.start.follow toks = some D := (Draft.follow_eq_run hall _).trans hrun
  have hruns := agrees_start.run (.start hs.sound hidle) hs toks last
  rw [← htokens] at hruns
  refine hruns.mono ?_ ?_
  · rintro n h' ⟨D', F', hfollow', hfinish', hmade⟩
    rw [hfollow] at hfollow'
    cases hfollow'
    rw [hfinish] at hfinish'
    cases hfinish'
    exact hmade
  · rintro e h' (he | hnone)
    · exact he
    · rw [hnone D hfollow (Nat.le_of_eq hforms)] at hfinish
      cases hfinish

/-! ### Every image -/

theorem Isomorphic.null (h h' : Heap) : Isomorphic h h' 0 0 := by
  refine ⟨fun m m' => m = 0 ∧ m' = 0, ⟨rfl, rfl⟩, ?_⟩
  rintro m m' ⟨rfl, rfl⟩
  exact ⟨Iff.rfl, fun hne => absurd rfl hne, fun _ ha => ha.2, fun _ ha => ha.1⟩

/-- What is read in an image that a history leads to is printed as a text that is read as the
    same graph, beside the one that it was printed from, and that graph is printed as the same
    text; unless no free region is as large as a piece that the second reading asks for. -/
theorem print_read_isomorphic {words : UInt64} {functions : Nat} {image₀ image₁ : Image}
    (hcreate : Image.create words functions = .ok image₀) (hsteps : Image.Steps image₀ image₁)
    {text : List UInt8} {n : Node} {h₁ : Heap} (hread : read text image₁.heap = .ok n h₁) :
    ∃ s, print h₁ n = .ok s ∧
      Yields (read (Text.toBytes s)) h₁
        (fun n' h₂ => Isomorphic h₁ h₂ n n' ∧ Isomorphic h₂ h₂ n n' ∧ print h₂ n' = .ok s)
        (fun e h₂ => ∃ size free, e = .fault (.broken (.outOfMemory size free)) ∧
          ∀ r ∈ h₂.arena.free, r.size < size) := by
  obtain ⟨c₀, hs₀⟩ := Image.create_standard hcreate
  obtain ⟨c, -, hs⟩ := hsteps.hasTypes hs₀
  cases hidle : image₁.heap.arena.collecting with
  | true =>
    -- Nothing can be made, so null was read.
    obtain ⟨rfl, rfl⟩ := read_collecting hidle hs hread
    exact ⟨"nil", rfl, Yields.of_ok (read_null _) ⟨.null _ _, .null _ _, rfl⟩⟩
  | false =>
    obtain ⟨F, hmade, hF, hlen⟩ := read_made hs hidle hread
    have hs₁ := hmade.1.standard hs
    obtain ⟨s, hprint, htext⟩ := hmade.print hs₁ hF
    refine ⟨s, hprint, ?_⟩
    -- The second reading ends with the form `F` again, in nodes of its own.
    rw [toBytes_printed htext]
    refine (read_printed hs₁ (hmade.1.idle hidle) hF hlen).mono ?_ ?_
    · intro n' h₂ hmade'
      have hs₂ := hmade'.1.standard hs₁
      obtain ⟨s', hprint', htext'⟩ := hmade'.print hs₂ hF
      refine ⟨hmade.isomorphic hmade' hs₁ hs₂ hmade'.1.types hF,
        (hmade.later hmade'.1).isomorphic hmade' hs₂ hs₂ rfl hF, ?_⟩
      rw [hprint', String.toList_inj.1 (htext'.trans htext.symm)]
    · rintro e h₂ ⟨f, rfl, size, free, rfl, hfree⟩
      exact ⟨size, free, rfl, hfree⟩

/-- A block that quotes itself, with a number in two places: it is read, printed with labels,
    and read again. -/
theorem print_read_isomorphic_cycle : ∃ image n h₁ n' h₂,
    Image.create 64 1 = .ok image ∧
      read (Text.toBytes "_b \x7b[add _x 1 x] nil [quote b]\x7d") image.heap = .ok n h₁ ∧
      print h₁ n = .ok "_n1 \x7b[add _n2 1 n2] nil [quote n1]\x7d" ∧
      read (Text.toBytes "_n1 \x7b[add _n2 1 n2] nil [quote n1]\x7d") h₁ = .ok n' h₂ ∧
      Isomorphic h₁ h₂ n n' ∧ Isomorphic h₂ h₂ n n' ∧
      print h₂ n' = .ok "_n1 \x7b[add _n2 1 n2] nil [quote n1]\x7d" := by
  have hruns : (match Image.create 64 1 with
      | .ok image =>
        match read (Text.toBytes "_b \x7b[add _x 1 x] nil [quote b]\x7d") image.heap with
        | .ok n h₁ =>
          match print h₁ n with
          | .ok s => s == "_n1 \x7b[add _n2 1 n2] nil [quote n1]\x7d" &&
            match read (Text.toBytes s) h₁ with
            | .ok _ _ => true
            | .error _ _ => false
          | .error _ => false
        | .error _ _ => false
      | .error _ => false) = true := by decide +kernel
  split at hruns
  · rename_i image hcreate
    split at hruns
    · rename_i n h₁ hread
      obtain ⟨s, hprint, hagain⟩ := print_read_isomorphic hcreate .refl hread
      rw [hprint] at hruns
      obtain ⟨hs, hruns⟩ := Bool.and_eq_true_iff.1 hruns
      cases eq_of_beq hs
      split at hruns
      · rename_i n' h₂ hread'
        obtain ⟨hiso, hiso', hprint'⟩ := hagain.ok hread'
        exact ⟨image, n, h₁, n', h₂, hcreate, hread, hprint, hread', hiso, hiso', hprint'⟩
      · cases hruns
    · cases hruns
  · cases hruns

end TreeMachine.Source
