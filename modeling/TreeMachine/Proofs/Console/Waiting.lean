import TreeMachine.Console.Repl
import TreeMachine.Files.Disk
import TreeMachine.Proofs.Source.Extents
import TreeMachine.Proofs.Source.Nesting

/-! # Waiting for a complete program

  The console counts the bytes of brackets and braces to tell whether a program is complete,
  and the reader opens and closes them token by token.  Main statement: as long as there is
  no NUL in a text, the console goes on when the reader can accept it, and waits when the
  reader finds a bracket or brace open at the end.
-/

namespace TreeMachine.Console

open Source

variable {o : Int} {bs follow rest : List UInt8} {b : UInt8} {tok : Token} {inComment : Bool}

/-! ### Bytes that do not count -/

theorem depthFrom_unmarked_cons (hb : Unmarked b) :
    depthFrom o false (b :: rest) = depthFrom o false rest := by
  simp only [Unmarked, marks, List.mem_cons, not_or] at hb
  simp [depthFrom, hb]

theorem depthFrom_unmarked (hbs : ∀ b ∈ bs, Unmarked b) :
    depthFrom o false (bs ++ rest) = depthFrom o false rest := by
  induction bs with
  | nil => rfl
  | cons b bs ih =>
    rw [List.forall_mem_cons] at hbs
    rw [List.cons_append, depthFrom_unmarked_cons hbs.1]
    exact ih hbs.2

theorem depthFrom_separator (hb : isSeparator (Char.ofNat b.toNat) = true) :
    depthFrom o false (b :: rest) = depthFrom o false rest := by
  by_cases hnewline : b = 0x0A
  · simp [depthFrom, hnewline]
  · apply depthFrom_unmarked_cons
    apply unmarked_of_class (p := fun b => isSeparator (Char.ofNat b.toNat) && b != 0x0A)
    · simp [hb, hnewline]
    · decide

/-- Separators and comments do not count. -/
theorem depthFrom_blank (h : Blank follow inComment bs) (hnul : 0 ∉ bs ++ follow) :
    depthFrom o inComment (bs ++ follow) = depthFrom o false follow := by
  induction h with
  | nil => rfl
  | separator hsep _ ih =>
    rw [List.cons_append, List.mem_cons, not_or] at hnul
    rw [List.cons_append, depthFrom_separator hsep]
    exact ih hnul.2
  | opens _ ih =>
    rw [List.cons_append, List.mem_cons, not_or] at hnul
    rw [← ih hnul.2]
    simp [depthFrom]
  | inside hne _ _ ih =>
    rw [List.cons_append, List.mem_cons, not_or] at hnul
    rw [← ih hnul.2]
    simp [depthFrom, hne]
  | @closes bs hends _ ih =>
    rw [← ih hnul]
    -- What follows the comment is a newline, where the flag is reset, or nothing.
    cases hrest : bs ++ follow with
    | nil => rfl
    | cons b rest =>
      rw [hrest] at hends hnul
      rcases hends b rfl with rfl | rfl
      · simp [depthFrom]
      · simp at hnul

/-- A token counts for what it opens or closes. -/
theorem depthFrom_token (h : tok.Written bs rest) :
    depthFrom o false (bs ++ rest) = depthFrom (o + tok.balance) false rest := by
  have hword : ∀ {first literal bs}, IsWord first literal bs rest →
      depthFrom o false (bs ++ rest) = depthFrom (o + 0) false rest := by
    intro first literal bs hword
    rw [Int.add_zero]
    exact depthFrom_unmarked fun b hb => unmarked_of_class (hword.all b hb) (by decide)
  unfold Token.Written at h
  unfold Token.balance
  cases hkind : tok.kind <;> simp only [hkind] at h ⊢
  case endOfText => simp [h.1]
  case invalid =>
    rw [Int.add_zero]
    exact depthFrom_unmarked h.2
  case integer => exact hword h
  case name => exact hword h
  case define =>
    obtain ⟨word, rfl, h⟩ := h
    rw [List.cons_append, depthFrom_unmarked_cons (by unfold Unmarked; decide)]
    exact hword h
  all_goals
    rw [h]
    simp [depthFrom, Int.sub_eq_add_neg]

/-- The bytes after a cursor count as much as its next token and the bytes after that. -/
theorem depthFrom_next (c : Cursor) (o : Int) (hnul : 0 ∉ c.rest) :
    depthFrom o false c.rest = depthFrom (o + c.next.1.balance) false c.next.2.rest ∧
      0 ∉ c.next.2.rest := by
  obtain ⟨gap, bs, hgap, hblank, hbs, hwritten⟩ := c.next_passes
  have hrest : c.rest = gap ++ (bs ++ c.next.2.rest) := by
    rw [hgap.rest_eq, hbs.rest_eq]
  rw [hrest] at hnul ⊢
  rw [depthFrom_blank hblank hnul, depthFrom_token hwritten]
  refine ⟨rfl, ?_⟩
  intro hmem
  apply hnul
  simp [hmem]

/-- At the end of a text no byte is left, or NUL. -/
theorem rest_of_end {c : Cursor} (hend : (c.skip false).char = '\x00') (hnul : 0 ∉ c.rest) :
    c.next.2.rest = [] := by
  obtain ⟨-, bs, -, -, -, hwritten⟩ := c.next_passes
  have hkind : c.next.1.kind = .endOfText := (Cursor.token_kind_iff _).2 hend
  simp only [Token.Written, hkind] at hwritten
  have hleft := (depthFrom_next c 0 hnul).2
  cases hrest : c.next.2.rest with
  | nil => rfl
  | cons b rest =>
    rw [hrest] at hwritten hleft
    simp [hwritten.2 b rfl] at hleft

/-- The bytes after a cursor count as much as all its tokens. -/
theorem depthFrom_scan (c : Cursor) (o : Int) (hnul : 0 ∉ c.rest) :
    depthFrom o false c.rest = o + balance c.scan.1 := by
  obtain ⟨hnext, hleft⟩ := depthFrom_next c o hnul
  rw [hnext, Cursor.scan]
  -- By the recursion of the scan: at the end nothing is left, else the rest is shorter.
  by_cases hend : (c.skip false).char = '\x00'
  · rw [rest_of_end hend hnul]
    simp [hend, depthFrom, Cursor.next]
  · have hlt : c.next.2.rest.length < c.rest.length :=
      Nat.lt_of_lt_of_le (Cursor.length_token_lt _ hend) (Cursor.length_skip_le false c)
    rw [depthFrom_scan c.next.2 _ hleft]
    simp [hend, Cursor.next, Int.add_assoc]
termination_by c.rest.length

/-- Brackets and braces count as the tokens do. -/
theorem depth_eq_balance {text : List UInt8} (hnul : 0 ∉ text) :
    depth text = balance (tokens text) := by
  rw [depth, tokens, ← Int.zero_add (balance _)]
  exact depthFrom_scan (.start text) 0 hnul

/-! ### The reader -/

/-- How a text is read tells how many brackets and braces it leaves open. -/
theorem read_depth {text : List UInt8} (hnul : 0 ∉ text) (h : Heap) :
    Yields (read text) h (fun _ _ => depth text = 0)
      fun err _ => Unclosed err → 0 < depth text := by
  obtain ⟨toks, last, htokens, hlast⟩ := (Cursor.start text).scan_last
  -- The end of the text opens and closes nothing.
  have hdepth : depth text = balance toks := by
    rw [depth_eq_balance hnul, tokens, htokens]
    simp [Token.balance, hlast]
  have hruns := run_balance .start toks last h
  have hnone : Reader.start.brackets = [] := rfl
  rw [← htokens, hnone, List.length_nil, Int.natCast_zero, Int.zero_add, ← hdepth] at hruns
  exact hruns

/-! ### The console -/

/-- The program that is entered with the line. -/
structure Enters (pending line program : List UInt8) : Prop where
  program_eq : program = if pending.isEmpty then line else pending ++ 0x0A :: line
  /-- The line does not end the console. -/
  stays : (pending.isEmpty && isExit line) = false
  /-- The line is no command. -/
  plain : (pending.isEmpty && line.head? == some 0x3A) = false

section

variable {m : Type → Type} [Monad m] [MonadFiles m] [MonadTerminal m]
  {pending line program : List UInt8}

/-- The console waits as long as brackets or braces are open. -/
theorem feed_waits (he : Enters pending line program) (hopen : 0 < depth program) :
    (feed pending line : ConsoleM m _) = return some program := by
  unfold feed
  simp only [he.stays, he.plain, ← he.program_eq, hopen, if_true, Bool.false_eq_true, if_false]

/-- Otherwise it evaluates the program. -/
theorem feed_evaluates (he : Enters pending line program) (hclosed : depth program ≤ 0) :
    (feed pending line : ConsoleM m _) = do
      unless (trimBytes program).isEmpty do
        let _ ← evaluate program
      return some [] := by
  unfold feed
  simp only [he.stays, he.plain, ← he.program_eq, Int.not_lt.2 hclosed, Bool.false_eq_true,
    if_false]

/-- Where there is no NUL, a text that is read is complete for the console, which evaluates it,
    and one that ends with a bracket or brace open is not, and the console waits. -/
theorem feed_agrees {text : List UInt8} (hnul : 0 ∉ text) (h : Heap) :
    (∀ n h', read text h = .ok n h' → depth text = 0 ∧
      ∀ pending line, Enters pending line text → (feed pending line : ConsoleM m _) = do
        unless (trimBytes text).isEmpty do
          let _ ← evaluate text
        return some []) ∧
    (∀ e h', read text h = .error (.error e) h' →
      e.problem = .unclosedBracket ∨ e.problem = .unclosedBrace → 0 < depth text ∧
      ∀ pending line, Enters pending line text →
        (feed pending line : ConsoleM m _) = return some text) := by
  have hread := read_depth hnul h
  constructor
  · intro n h' hok
    have hdepth : depth text = 0 := hread.ok hok
    exact ⟨hdepth, fun _ _ he => feed_evaluates he (Int.le_of_eq hdepth)⟩
  · intro e h' herror hproblem
    have hopen : 0 < depth text := hread.error herror ⟨e, rfl, hproblem⟩
    exact ⟨hopen, fun _ _ he => feed_waits he hopen⟩

end

/-- A bracket in a comment closes nothing, neither for the reader nor for the console. -/
theorem feed_agrees_comment : ∃ image n h' e h'', Image.create 64 1 = .ok image ∧
    read (Text.toBytes "[add 1 ; ]\n2]") image.heap = .ok n h' ∧
    depth (Text.toBytes "[add 1 ; ]\n2]") = 0 ∧
    read (Text.toBytes "[add 1 ; ]\n2") image.heap = .error (.error e) h'' ∧
    e.problem = .unclosedBracket ∧
    (feed (Text.toBytes "[add 1 ; ]") (Text.toBytes "2") : ConsoleM (StateM Workstation) _)
      = return some (Text.toBytes "[add 1 ; ]\n2") := by
  have hruns : ((Image.create 64 1).toOption.any fun image =>
      (answer? (read (Text.toBytes "[add 1 ; ]\n2]") image.heap)).isSome &&
      (error? (read (Text.toBytes "[add 1 ; ]\n2") image.heap)).any fun p =>
        decide (p.1.problem = .unclosedBracket)) = true := by
    decide +kernel
  simp only [Option.any_eq_true, Bool.and_eq_true, Option.isSome_iff_exists, decide_eq_true_eq,
    toOption_eq_some, answer?_eq_some, error?_eq_some] at hruns
  obtain ⟨image, hcreate, ⟨⟨n, h'⟩, hread⟩, ⟨e, h''⟩, herror, hproblem⟩ := hruns
  have hnul : (0 : UInt8) ∉ Text.toBytes "[add 1 ; ]\n2]" := by decide +kernel
  have hnul' : (0 : UInt8) ∉ Text.toBytes "[add 1 ; ]\n2" := by decide +kernel
  have henters : Enters (Text.toBytes "[add 1 ; ]") (Text.toBytes "2")
      (Text.toBytes "[add 1 ; ]\n2") := by
    constructor <;> decide +kernel
  have hclosed := (feed_agrees (m := StateM Workstation) hnul image.heap).1 n h' hread
  have hopen := (feed_agrees (m := StateM Workstation) hnul' image.heap).2 e h'' herror
    (Or.inl hproblem)
  exact ⟨image, n, h', e, h'', hcreate, hread, hclosed.1, herror, hproblem, hopen.2 _ _ henters⟩

end TreeMachine.Console
