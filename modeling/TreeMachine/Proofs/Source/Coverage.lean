import Mathlib.Logic.Function.Iterate
import TreeMachine.Proofs.Source.Extents

/-! # Tokens cover their text

  Tokens are asked for one after the other, also past the end of the text.  Main statement:
  the end is reached after at most one token for each byte and stays the end; the tokens
  before it stand apart in the order of the text, each is written as its kind demands, and
  what none of them takes is separators and comments.
-/

namespace TreeMachine.Source

/-! ### Tokens one after the other -/

/-- The cursor of a text after `n` tokens. -/
def cursorAt (text : List UInt8) (n : Nat) : Cursor := (fun c => c.next.2)^[n] (.start text)

/-- The token that is found after `n` others. -/
def nthToken (text : List UInt8) (n : Nat) : Token := (cursorAt text n).next.1

/-- Where the token starts. -/
def tokenStart (text : List UInt8) (n : Nat) : Nat := (nthToken text n).pos.offset

/-- Where the search for the token after it goes on. -/
def tokenStop (text : List UInt8) (n : Nat) : Nat := (cursorAt text (n + 1)).offset

/-- The byte at `i` belongs to the token. -/
def Takes (text : List UInt8) (n i : Nat) : Prop := tokenStart text n ≤ i ∧ i < tokenStop text n

/-- The byte at `i` separates tokens. -/
def IsSeparatorAt (text : List UInt8) (i : Nat) : Prop :=
  ∃ b, text[i]? = some b ∧ isSeparator (Char.ofNat b.toNat) = true

/-- The byte at `i` belongs to a comment: it runs from a semicolon, over bytes that none of
    the first `k` tokens takes, up to a newline or to `stop`, where the text ends. -/
def InComment (text : List UInt8) (k stop i : Nat) : Prop :=
  ∃ first last, first ≤ i ∧ i < last ∧ text[first]? = some 0x3B ∧
    (∀ m, first ≤ m → m < last → text[m]? ≠ some 0x0A ∧ ∀ n < k, ¬ Takes text n m) ∧
    (text[last]? = some 0x0A ∨ last = stop)

/-- The first `k` tokens cover the text. -/
structure Covers (text : List UInt8) (k : Nat) : Prop where
  few : k ≤ text.length
  end_iff : ∀ n, (nthToken text n).kind = .endOfText ↔ k ≤ n
  again : ∀ n, k ≤ n → nthToken text n = nthToken text k
  tokens_eq : tokens text = (List.range (k + 1)).map (nthToken text)
  increasing : ∀ m n, m < n → n < k → tokenStart text m < tokenStart text n
  apart : ∀ m n, m < n → n < k → ∀ i, Takes text m i → ¬ Takes text n i
  /-- A token takes at least one byte, and all that it takes come before the end. -/
  inside : ∀ n < k, tokenStart text n < tokenStop text n ∧ tokenStop text n ≤ tokenStart text k
  written : ∀ n < k, (nthToken text n).Written
    (text.extract (tokenStart text n) (tokenStop text n)) (text.drop (tokenStop text n))
  between : ∀ i < tokenStart text k, (∀ n < k, ¬ Takes text n i) →
    IsSeparatorAt text i ∨ InComment text k (tokenStart text k) i
  /-- The end stands at the first NUL byte, or after the last byte. -/
  end_eq : tokenStart text k = text.findIdx (· == 0)

/-! ### Blank bytes by position -/

/-- No byte from `first` up to `last` is a newline, and there a line ends or NUL follows or
    nothing. -/
structure RunsTo (follow bs : List UInt8) (first last : Nat) : Prop where
  le : last ≤ bs.length
  clear : ∀ m, first ≤ m → m < last → bs[m]? ≠ some 0x0A
  ends : ∀ b ∈ (bs ++ follow)[last]?, b = 0x0A ∨ b = 0

/-- The comment that the byte at `i` belongs to. -/
def CommentOf (follow bs : List UInt8) (i : Nat) : Prop :=
  ∃ first last, first ≤ i ∧ i < last ∧ bs[first]? = some 0x3B ∧ RunsTo follow bs first last

section

variable {follow bs : List UInt8} {b : UInt8} {inComment : Bool} {first last i : Nat}

theorem RunsTo.cons (h : RunsTo follow bs first last) :
    RunsTo follow (b :: bs) (first + 1) (last + 1) where
  le := Nat.succ_le_succ h.le
  clear m hle hlt := by
    cases m with
    | zero => omega
    | succ m => exact h.clear m (by omega) (by omega)
  ends := h.ends

/-- A run goes on to the front over another byte. -/
theorem RunsTo.back (h : RunsTo follow bs 0 last) (hb : b ≠ 0x0A) :
    RunsTo follow (b :: bs) 0 (last + 1) where
  le := Nat.succ_le_succ h.le
  clear m _ hlt := by
    cases m with
    | zero => simpa using hb
    | succ m => exact h.clear m (Nat.zero_le _) (by omega)
  ends := h.ends

theorem CommentOf.cons (h : CommentOf follow bs i) : CommentOf follow (b :: bs) (i + 1) := by
  obtain ⟨first, last, hle, hlt, hsemicolon, hruns⟩ := h
  exact ⟨first + 1, last + 1, by omega, by omega, hsemicolon, hruns.cons⟩

/-- The comment that the first byte stands in comes to an end. -/
theorem Blank.leading (h : Blank follow true bs) : ∃ last, RunsTo follow bs 0 last := by
  -- The flag is an index, which the induction needs as a variable.
  generalize hflag : true = flag at h
  induction h with
  | nil | separator | opens => cases hflag
  | inside hne _ _ ih =>
    obtain ⟨last, hruns⟩ := ih hflag
    exact ⟨last + 1, hruns.back hne⟩
  | closes hends _ _ =>
    refine ⟨0, Nat.zero_le _, ?_, ?_⟩
    · intro m _ hlt
      omega
    · rw [← List.head?_eq_getElem?]
      exact hends

/-- Every blank byte is a separator or belongs to a comment, which may have begun before. -/
theorem Blank.position (h : Blank follow inComment bs) : ∀ i < bs.length,
    IsSeparatorAt bs i ∨ CommentOf follow bs i ∨
      (inComment = true ∧ ∃ last, i < last ∧ RunsTo follow bs 0 last) := by
  induction h with
  | nil => simp
  | @separator b bs hsep _ ih =>
    intro i hi
    cases i with
    | zero => exact Or.inl ⟨b, rfl, hsep⟩
    | succ i =>
      rcases ih i (Nat.lt_of_succ_lt_succ hi) with hpos | hcomment | ⟨hfalse, -⟩
      · exact Or.inl hpos
      · exact Or.inr (Or.inl hcomment.cons)
      · cases hfalse
  | @opens bs hrest ih =>
    intro i hi
    cases i with
    | zero =>
      obtain ⟨last, hruns⟩ := hrest.leading
      exact Or.inr (Or.inl ⟨0, last + 1, Nat.le_refl _, by omega, rfl, hruns.back (by decide)⟩)
    | succ i =>
      rcases ih i (Nat.lt_of_succ_lt_succ hi) with hpos | hcomment | ⟨-, last, hlt, hruns⟩
      · exact Or.inl hpos
      · exact Or.inr (Or.inl hcomment.cons)
      · -- The byte is in the comment that begins here.
        exact Or.inr (Or.inl ⟨0, last + 1, Nat.zero_le _, by omega, rfl, hruns.back (by decide)⟩)
  | @inside b bs hne _ hrest ih =>
    intro i hi
    cases i with
    | zero =>
      obtain ⟨last, hruns⟩ := hrest.leading
      exact Or.inr (Or.inr ⟨rfl, last + 1, by omega, hruns.back hne⟩)
    | succ i =>
      rcases ih i (Nat.lt_of_succ_lt_succ hi) with hpos | hcomment | ⟨-, last, hlt, hruns⟩
      · exact Or.inl hpos
      · exact Or.inr (Or.inl hcomment.cons)
      · exact Or.inr (Or.inr ⟨rfl, last + 1, by omega, hruns.back hne⟩)
  | @closes bs _ _ ih =>
    intro i hi
    rcases ih i hi with hpos | hcomment | ⟨hfalse, -⟩
    · exact Or.inl hpos
    · exact Or.inr (Or.inl hcomment)
    · cases hfalse

/-- A NUL byte is not blank. -/
theorem Blank.ne_zero (h : Blank follow inComment bs) : ∀ b ∈ bs, b ≠ 0 := by
  induction h with
  | nil => simp
  | separator hsep _ ih =>
    rw [List.forall_mem_cons]
    refine ⟨?_, ih⟩
    intro hzero
    rw [hzero] at hsep
    exact absurd hsep (by decide)
  | opens _ ih =>
    rw [List.forall_mem_cons]
    exact ⟨by decide, ih⟩
  | inside _ hzero _ ih =>
    rw [List.forall_mem_cons]
    exact ⟨hzero, ih⟩
  | closes _ _ ih => exact ih

/-- Where no NUL byte stands, a run ends at a newline, or where nothing follows but NUL. -/
theorem RunsTo.newline_or_end (h : RunsTo follow bs first last) (hbs : ∀ b ∈ bs, b ≠ 0) :
    (bs ++ follow)[last]? = some 0x0A ∨ (last = bs.length ∧ ∀ b ∈ follow.head?, b = 0) := by
  rcases Nat.lt_or_eq_of_le h.le with hlt | rfl
  · left
    have hfound : (bs ++ follow)[last]? = some bs[last] := by
      rw [List.getElem?_append_left hlt, List.getElem?_eq_getElem hlt]
    rw [hfound]
    rcases h.ends _ hfound with hnewline | hzero
    · rw [hnewline]
    · exact absurd hzero (hbs _ (List.getElem_mem hlt))
  · have hends := h.ends
    rw [List.getElem?_append_right (Nat.le_refl _), Nat.sub_self,
      ← List.head?_eq_getElem?] at hends ⊢
    cases hhead : follow.head? with
    | none => simp
    | some b =>
      rcases hends b hhead with rfl | hzero
      · exact Or.inl rfl
      · simp [hzero]

end

/-- No token is written with a NUL byte. -/
theorem Token.Written.ne_zero {tok : Token} {bs follow : List UInt8}
    (h : tok.Written bs follow) : ∀ b ∈ bs, b ≠ 0 := by
  have hword : ∀ {first literal bs}, IsWord first literal bs follow → ∀ b ∈ bs, b ≠ 0 := by
    intro first literal bs hword b hb hzero
    have hbyte := hword.all b hb
    rw [hzero] at hbyte
    exact absurd hbyte (by decide)
  unfold Token.Written at h
  split at h
  · simp [h.1]
  · simp [h]
  · simp [h]
  · simp [h]
  · simp [h]
  · exact hword h
  · exact hword h
  · obtain ⟨word, rfl, h⟩ := h
    rw [List.forall_mem_cons]
    exact ⟨by decide, hword h⟩
  · intro b hb hzero
    apply h.2 b hb
    rw [hzero]
    decide

/-- Any other token than the end of the text is written with some byte. -/
theorem Token.Written.ne_nil {tok : Token} {bs follow : List UInt8} (h : tok.Written bs follow)
    (hkind : tok.kind ≠ .endOfText) : bs ≠ [] := by
  have hword : ∀ {first literal bs}, IsWord first literal bs follow → bs ≠ [] := by
    intro first literal bs hword hnil
    obtain ⟨b, hb, -⟩ := hword.starts
    rw [hnil] at hb
    cases hb
  unfold Token.Written at h
  split at h
  · exact absurd ‹_› hkind
  · simp [h]
  · simp [h]
  · simp [h]
  · simp [h]
  · exact hword h
  · exact hword h
  · obtain ⟨word, rfl, -⟩ := h
    exact List.cons_ne_nil _ _
  · exact h.1

/-- Where NUL stands or nothing, only the end of the text is found. -/
theorem Token.Written.endOfText {tok : Token} {bs follow : List UInt8}
    (h : tok.Written bs follow) (hhead : ∀ b ∈ (bs ++ follow).head?, b = 0) :
    tok.kind = .endOfText := by
  by_contra hkind
  obtain ⟨b, bs', rfl⟩ := List.exists_cons_of_ne_nil (h.ne_nil hkind)
  have hzero : b = 0 := hhead b rfl
  exact h.ne_zero b (List.mem_cons_self ..) hzero

/-! ### The steps of the cursor -/

/-- What lies behind the cursor in its text. -/
theorem Cursor.Passes.split {text pre : List UInt8} {c : Cursor}
    (h : (Cursor.start text).Passes pre c) : text = pre ++ c.rest ∧ c.offset = pre.length :=
  ⟨h.rest_eq, h.offset_eq.trans (Nat.zero_add _)⟩

section

variable (text : List UInt8) (n : Nat)

theorem cursorAt_succ : cursorAt text (n + 1) = (cursorAt text n).next.2 :=
  Function.iterate_succ_apply' ..

theorem tokenStart_eq : tokenStart text n = ((cursorAt text n).skip false).offset :=
  congrArg Position.offset (Cursor.token_pos _)

/-- One step: blank bytes, and then those of the token. -/
theorem cursorAt_passes : ∃ pre gap bs, text = pre ++ gap ++ bs ++ (cursorAt text (n + 1)).rest ∧
    (cursorAt text n).offset = pre.length ∧ tokenStart text n = (pre ++ gap).length ∧
    tokenStop text n = (pre ++ gap ++ bs).length ∧ (∀ b ∈ pre, b ≠ 0) ∧
    Blank (bs ++ (cursorAt text (n + 1)).rest) false gap ∧
    (nthToken text n).Written bs (cursorAt text (n + 1)).rest := by
  have hstep : ∀ n, ∀ pre, (Cursor.start text).Passes pre (cursorAt text n) →
      ∃ gap bs, (Cursor.start text).Passes (pre ++ gap) ((cursorAt text n).skip false) ∧
        (Cursor.start text).Passes (pre ++ gap ++ bs) (cursorAt text (n + 1)) ∧
        Blank (bs ++ (cursorAt text (n + 1)).rest) false gap ∧
        (nthToken text n).Written bs (cursorAt text (n + 1)).rest := by
    intro n pre hpre
    obtain ⟨gap, bs, hgap, hblank, hbs, hwritten⟩ := (cursorAt text n).next_passes
    rw [← cursorAt_succ] at hblank hbs hwritten
    exact ⟨gap, bs, hpre.trans hgap, (hpre.trans hgap).trans hbs, hblank, hwritten⟩
  -- All bytes before the cursor are blank or belong to tokens, so none of them is NUL.
  have hreach : ∃ pre, (Cursor.start text).Passes pre (cursorAt text n) ∧ ∀ b ∈ pre, b ≠ 0 := by
    induction n with
    | zero => exact ⟨[], .refl _, by simp⟩
    | succ n ih =>
      obtain ⟨pre, hpre, hzero⟩ := ih
      obtain ⟨gap, bs, -, hpass, hblank, hwritten⟩ := hstep n pre hpre
      refine ⟨_, hpass, ?_⟩
      rw [List.forall_mem_append, List.forall_mem_append]
      exact ⟨⟨hzero, hblank.ne_zero⟩, hwritten.ne_zero⟩
  obtain ⟨pre, hpre, hzero⟩ := hreach
  obtain ⟨gap, bs, hgap, hbs, hblank, hwritten⟩ := hstep n pre hpre
  refine ⟨pre, gap, bs, hbs.split.1, hpre.split.2, ?_, hbs.split.2, hzero, hblank, hwritten⟩
  rw [tokenStart_eq, hgap.split.2]

/-- The search for a token begins in front of it. -/
theorem offset_le_tokenStart : (cursorAt text n).offset ≤ tokenStart text n := by
  obtain ⟨pre, gap, bs, -, hoffset, hstart, -⟩ := cursorAt_passes text n
  rw [hoffset, hstart, List.length_append]
  omega

theorem tokenStart_le_stop : tokenStart text n ≤ tokenStop text n := by
  obtain ⟨pre, gap, bs, -, -, hstart, hstop, -⟩ := cursorAt_passes text n
  rw [hstart, hstop]
  simp only [List.length_append]
  omega

theorem tokenStop_le_length : tokenStop text n ≤ text.length := by
  obtain ⟨pre, gap, bs, htext, -, -, hstop, -⟩ := cursorAt_passes text n
  rw [hstop, htext]
  simp only [List.length_append]
  omega

/-- Any token but the end takes a byte. -/
theorem tokenStart_lt_stop (h : (nthToken text n).kind ≠ .endOfText) :
    tokenStart text n < tokenStop text n := by
  obtain ⟨pre, gap, bs, -, -, hstart, hstop, -, -, hwritten⟩ := cursorAt_passes text n
  have hpos := List.length_pos_iff.2 (hwritten.ne_nil h)
  rw [hstart, hstop]
  simp only [List.length_append]
  omega

theorem nthToken_kind_iff :
    (nthToken text n).kind = .endOfText ↔ ((cursorAt text n).skip false).char = '\x00' :=
  Cursor.token_kind_iff _

/-- At the end the cursor stays where it is. -/
theorem nthToken_succ_of_end (h : (nthToken text n).kind = .endOfText) :
    nthToken text (n + 1) = nthToken text n := by
  have hstay : cursorAt text (n + 1) = (cursorAt text n).skip false := by
    rw [cursorAt_succ, Cursor.next, Cursor.token]
    dsimp only
    rw [if_pos ((nthToken_kind_iff text n).1 h)]
  rw [nthToken, hstay, Cursor.next, Cursor.skip_skip]
  rfl

end

section

variable {text : List UInt8} {m n : Nat}

/-- After the end comes nothing else. -/
theorem nthToken_of_end (h : (nthToken text m).kind = .endOfText) (hmn : m ≤ n) :
    nthToken text n = nthToken text m := by
  induction n, hmn using Nat.le_induction with
  | base => rfl
  | succ n _ ih =>
    have hkind : (nthToken text n).kind = .endOfText := by
      rw [ih]
      exact h
    rw [nthToken_succ_of_end text n hkind, ih]

/-- Tokens follow one another. -/
theorem tokenStop_le_offset (h : m < n) : tokenStop text m ≤ (cursorAt text n).offset := by
  induction n, h using Nat.le_induction with
  | base => exact Nat.le_refl _
  | succ n _ ih =>
    calc tokenStop text m
      _ ≤ (cursorAt text n).offset := ih
      _ ≤ tokenStart text n := offset_le_tokenStart text n
      _ ≤ tokenStop text n := tokenStart_le_stop text n

theorem tokenStop_le_start (h : m < n) : tokenStop text m ≤ tokenStart text n :=
  Nat.le_trans (tokenStop_le_offset h) (offset_le_tokenStart text n)

/-- Tokens that are not the end take at least one byte each. -/
theorem le_tokenStart (h : ∀ m < n, (nthToken text m).kind ≠ .endOfText) :
    n ≤ tokenStart text n := by
  induction n with
  | zero => exact Nat.zero_le _
  | succ n ih =>
    have hbefore := ih fun m hm => h m (Nat.lt_succ_of_lt hm)
    have hlt := tokenStart_lt_stop text n (h n (Nat.lt_succ_self n))
    have hle : tokenStop text n ≤ tokenStart text (n + 1) := tokenStop_le_start (Nat.lt_add_one n)
    omega

/-- The end is reached. -/
theorem exists_end (text : List UInt8) :
    ∃ k ≤ text.length, ∀ n, (nthToken text n).kind = .endOfText ↔ k ≤ n := by
  -- Otherwise there were more tokens than bytes, each of them with a byte of its own.
  have hsome : ∃ n, n ≤ text.length ∧ (nthToken text n).kind = .endOfText := by
    by_contra hnone
    have hbytes : text.length + 1 ≤ tokenStart text (text.length + 1) := by
      apply le_tokenStart
      intro m hm hend
      exact hnone ⟨m, Nat.le_of_lt_succ hm, hend⟩
    have hle := tokenStart_le_stop text (text.length + 1)
    have hlength := tokenStop_le_length text (text.length + 1)
    omega
  refine ⟨Nat.find hsome, (Nat.find_spec hsome).1, ?_⟩
  intro n
  constructor
  · intro hend
    by_contra hlt
    have hfirst := Nat.find_min hsome (Nat.lt_of_not_le hlt)
    apply hfirst
    have hlength := (Nat.find_spec hsome).1
    exact ⟨by omega, hend⟩
  · intro hle
    rw [nthToken_of_end (Nat.find_spec hsome).2 hle]
    exact (Nat.find_spec hsome).2

/-! ### All tokens of a text -/

/-- What is scanned from a cursor on is what its steps find up to the end. -/
theorem Cursor.scan_eq {k : Nat} : ∀ {c : Cursor},
    (∀ n, ((fun c : Cursor => c.next.2)^[n] c).next.1.kind = .endOfText ↔ k ≤ n) →
    c.scan.1 = (List.range (k + 1)).map fun n => ((fun c : Cursor => c.next.2)^[n] c).next.1 := by
  induction k with
  | zero =>
    intro c h
    have hnul := (Cursor.token_kind_iff _).1 ((h 0).2 (Nat.le_refl 0))
    change (c.skip false).char = '\x00' at hnul
    rw [Cursor.scan]
    simp [hnul, Cursor.next]
  | succ k ih =>
    intro c h
    have hnul : (c.skip false).char ≠ '\x00' := by
      intro hnul
      have hle := (h 0).1 ((Cursor.token_kind_iff _).2 hnul)
      omega
    -- The tokens of the next cursor are those of this one without the first.
    have htail := ih (c := c.next.2) fun n => by
      have hsucc := h (n + 1)
      rw [Function.iterate_succ_apply, Nat.succ_le_succ_iff] at hsucc
      exact hsucc
    rw [Cursor.scan]
    simp only [hnul, dite_false]
    rw [List.range_succ_eq_map, List.map_cons, List.map_map]
    exact congrArg _ htail

/-! ### The bytes that no token takes -/

/-- A byte before the end is in front of some token or belongs to it. -/
theorem exists_step {k i : Nat} (hi : i < tokenStart text k) :
    ∃ n ≤ k, (cursorAt text n).offset ≤ i ∧ i < tokenStop text n := by
  have hlast : i < tokenStop text k := Nat.lt_of_lt_of_le hi (tokenStart_le_stop text k)
  have hsome : ∃ n, i < tokenStop text n := ⟨k, hlast⟩
  -- The first token that stops behind the byte.
  refine ⟨Nat.find hsome, Nat.find_min' hsome hlast, ?_, Nat.find_spec hsome⟩
  cases hfirst : Nat.find hsome with
  | zero => exact Nat.zero_le i
  | succ n =>
    have hbefore := Nat.find_min hsome (m := n) (by omega)
    exact Nat.le_of_not_lt hbefore

/-- No token takes the bytes in front of another. -/
theorem not_takes {i : Nat} (hle : (cursorAt text n).offset ≤ i) (hlt : i < tokenStart text n) :
    ¬ Takes text m i := by
  rintro ⟨hstart, hstop⟩
  rcases Nat.lt_trichotomy m n with h | rfl | h
  · have hoffset : tokenStop text m ≤ (cursorAt text n).offset := tokenStop_le_offset h
    omega
  · omega
  · have hsucc : tokenStop text n ≤ tokenStart text m := tokenStop_le_start h
    have hself := tokenStart_le_stop text n
    omega

/-- A byte in front of a token separates or stands in a comment. -/
theorem blank_between {k i : Nat} (hend : ∀ n, (nthToken text n).kind = .endOfText ↔ k ≤ n)
    (hnk : n ≤ k) (hle : (cursorAt text n).offset ≤ i) (hlt : i < tokenStart text n) :
    IsSeparatorAt text i ∨ InComment text k (tokenStart text k) i := by
  have hfree : ∀ j m, (cursorAt text n).offset ≤ j → j < tokenStart text n → ¬ Takes text m j :=
    fun _ _ => not_takes
  obtain ⟨pre, gap, bs, htext, hoffset, hstart, -, -, hblank, hwritten⟩ := cursorAt_passes text n
  rw [hoffset] at hle hfree
  rw [hstart, List.length_append] at hlt hfree
  obtain ⟨j, rfl⟩ := Nat.exists_eq_add_of_le hle
  have hj : j < gap.length := by omega
  -- The byte is in the gap; what the gap says of it holds as far behind `pre` in the text.
  have hafter : ∀ m, text[pre.length + m]? =
      (gap ++ (bs ++ (cursorAt text (n + 1)).rest))[m]? := by
    intro m
    conv_lhs => rw [htext]
    rw [List.append_assoc, List.append_assoc,
      List.getElem?_append_right (Nat.le_add_right _ _), Nat.add_sub_cancel_left]
  have hgap : ∀ m < gap.length, text[pre.length + m]? = gap[m]? := by
    intro m hm
    rw [hafter, List.getElem?_append_left hm]
  rcases hblank.position j hj with ⟨b, hb, hsep⟩ | ⟨first, last, hfirst, hlast, hopens, hruns⟩ |
    ⟨hfalse, -⟩
  · rw [← hgap j hj] at hb
    exact Or.inl ⟨b, hb, hsep⟩
  · right
    have hlastGap := hruns.le
    refine ⟨pre.length + first, pre.length + last, by omega, by omega, ?_, ?_, ?_⟩
    · rw [hgap first (by omega)]
      exact hopens
    · intro m hm hmlast
      obtain ⟨x, rfl⟩ := Nat.exists_eq_add_of_le (Nat.le_trans (Nat.le_add_right _ _) hm)
      constructor
      · rw [hgap x (by omega)]
        exact hruns.clear x (by omega) (by omega)
      · intro y _
        exact hfree _ y (by omega) (by omega)
    · rw [hafter]
      rcases hruns.newline_or_end hblank.ne_zero with hnewline | ⟨rfl, hnul⟩
      · exact Or.inl hnewline
      · -- The comment runs up to the end of the text.
        right
        have hkn := (hend n).1 (hwritten.endOfText hnul)
        rw [Nat.le_antisymm hkn hnk, hstart, List.length_append]
  · cases hfalse

/-! ### The extents of tokens -/

/-- A token is written with the bytes from its start to its stop. -/
theorem nthToken_written (text : List UInt8) (n : Nat) : (nthToken text n).Written
    (text.extract (tokenStart text n) (tokenStop text n)) (text.drop (tokenStop text n)) := by
  obtain ⟨pre, gap, bs, htext, -, hstart, hstop, -, -, hwritten⟩ := cursorAt_passes text n
  have hbs : text.extract (tokenStart text n) (tokenStop text n) = bs := by
    have hlength : (pre ++ gap ++ bs).length - (pre ++ gap).length = bs.length := by
      simp only [List.length_append]
      omega
    rw [List.extract_eq_take_drop, hstart, hstop, hlength]
    conv_lhs => rw [htext]
    rw [List.append_assoc (pre ++ gap), List.drop_left, List.take_left]
  have hfollow : text.drop (tokenStop text n) = (cursorAt text (n + 1)).rest := by
    rw [hstop]
    conv_lhs => rw [htext]
    rw [List.drop_left]
  rw [hbs, hfollow]
  exact hwritten

/-- The text ends at its first NUL byte. -/
theorem tokenStart_end (h : (nthToken text n).kind = .endOfText) :
    tokenStart text n = text.findIdx (· == 0) := by
  obtain ⟨pre, gap, bs, htext, -, hstart, -, hpre, hblank, hwritten⟩ := cursorAt_passes text n
  simp only [Token.Written, h] at hwritten
  obtain ⟨rfl, hnul⟩ := hwritten
  have hnone : (pre ++ gap).findIdx (· == 0) = (pre ++ gap).length := by
    apply List.findIdx_eq_length.2
    intro b hb
    rw [beq_eq_false_iff_ne]
    rcases List.mem_append.1 hb with hb | hb
    · exact hpre b hb
    · exact hblank.ne_zero b hb
  have hfirst : (cursorAt text (n + 1)).rest.findIdx (· == 0) = 0 := by
    cases hrest : (cursorAt text (n + 1)).rest with
    | nil => rfl
    | cons b rest =>
      rw [hrest] at hnul
      simp [List.findIdx_cons, hnul b rfl]
  conv_rhs => rw [htext]
  rw [List.append_nil, List.findIdx_append, hnone, if_neg (Nat.lt_irrefl _), hfirst, hstart,
    Nat.zero_add]

end

/-- The tokens of every text cover it. -/
theorem exists_covers (text : List UInt8) : ∃ k, Covers text k := by
  obtain ⟨k, hfew, hend⟩ := exists_end text
  have hbefore : ∀ n < k, tokenStart text n < tokenStop text n := by
    intro n hn
    apply tokenStart_lt_stop
    intro hkind
    exact Nat.not_lt.2 ((hend n).1 hkind) hn
  refine ⟨k, ?_⟩
  constructor
  case few => exact hfew
  case end_iff => exact hend
  case again =>
    intro n hn
    exact nthToken_of_end ((hend k).2 (Nat.le_refl k)) hn
  case tokens_eq => exact Cursor.scan_eq hend
  case increasing =>
    intro m n hmn hn
    exact Nat.lt_of_lt_of_le (hbefore m (Nat.lt_trans hmn hn)) (tokenStop_le_start hmn)
  case apart =>
    intro m n hmn _ i hm hn
    have hle : tokenStop text m ≤ tokenStart text n := tokenStop_le_start hmn
    exact Nat.lt_irrefl i (Nat.lt_of_lt_of_le hm.2 (Nat.le_trans hle hn.1))
  case inside =>
    intro n hn
    exact ⟨hbefore n hn, tokenStop_le_start hn⟩
  case written =>
    intro n _
    exact nthToken_written text n
  case between =>
    intro i hi hfree
    obtain ⟨n, hnk, hle, hlt⟩ := exists_step hi
    apply blank_between hend hnk hle
    rcases Nat.lt_or_eq_of_le hnk with hn | rfl
    · -- The token takes no byte in front of the end that is free.
      by_contra hge
      exact hfree n hn ⟨Nat.le_of_not_lt hge, hlt⟩
    · exact hi
  case end_eq => exact tokenStart_end ((hend k).2 (Nat.le_refl k))

end TreeMachine.Source
