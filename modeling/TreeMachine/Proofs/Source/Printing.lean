import TreeMachine.Proofs.Node.Reading
import TreeMachine.Source.Printer

/-! # Printing never fails on sound nodes

  Main statement: a node from which only complete records are reached, on ways that are
  shorter than the depth bound, is printed.
-/

namespace TreeMachine.Source

variable {h : Heap} {c : Catalogue} {d : Nat} {n : Node}

/-! ### Computations that never fail -/

/-- The computation succeeds in every state. -/
def Always {ε σ α : Type} (x : EStateM ε σ α) : Prop := ∀ s, ∃ a s', x s = .ok a s'

namespace Always

variable {ε σ α β : Type} {x : EStateM ε σ α}

theorem pure (a : α) : Always (Pure.pure a : EStateM ε σ α) := fun s => ⟨a, s, rfl⟩

theorem bind {f : α → EStateM ε σ β} (hx : Always x) (hf : ∀ a, Always (f a)) :
    Always (x >>= f) := by
  intro s
  obtain ⟨a, s₁, hrun⟩ := hx s
  obtain ⟨b, s₂, hrun'⟩ := hf a s₁
  exact ⟨b, s₂, (bind_eq_ok hrun).trans hrun'⟩

theorem forM {f : α → EStateM ε σ PUnit} {l : List α} (hf : ∀ a ∈ l, Always (f a)) :
    Always (l.forM f) := by
  induction l with
  | nil => exact pure _
  | cons a l ih =>
    exact bind (hf a List.mem_cons_self) fun _ => ih fun b hb => hf b (List.mem_cons_of_mem _ hb)

/-- A step that reads the heap and does not fault. -/
theorem read {y : Except ε α} {a : α} {f : α → EStateM ε σ β} (hy : y = .ok a)
    (hf : Always (f a)) : Always (liftM y >>= f) := by
  intro s
  obtain ⟨b, s', hrun⟩ := hf s
  subst hy
  exact ⟨b, s', hrun⟩

end Always

theorem always_write (s : String) : Always (write s) := fun _ => ⟨(), _, rfl⟩

theorem always_giveName (n : Node) : Always (giveName n) := fun _ => ⟨_, _, rfl⟩

theorem always_printList {print : Node → PrintM Unit} {ms : List Node}
    (hprint : ∀ m ∈ ms, Always (print m)) : Always (printList print ms) := by
  induction ms with
  | nil => exact .pure _
  | cons m ms ih =>
    have hrest := ih fun m' hm' => hprint m' (List.mem_cons_of_mem _ hm')
    have hfirst := hprint m List.mem_cons_self
    cases ms with
    | nil => exact hfirst
    | cons m' ms => exact hfirst.bind fun _ => (always_write " ").bind fun _ => hrest

/-! ### Nodes that can be printed -/

/-- From the node on there are only complete records, on ways of at most `d` steps. -/
inductive Printable (h : Heap) : Nat → Node → Prop
  | null (d : Nat) : Printable h d 0
  | number (d : Nat) {n object : Addr} {before w : UInt64} :
    h.arena.Owns n [Tag.literal.word, before, h.types.scalars.integer, object] →
    h.arena.Owns object [w] → Printable h d n
  | node {d : Nat} {n before : Node} {t : Tag} {fields : List Node} :
    h.arena.Owns n (t.word :: before :: fields) → fields.length = t.fields → t ≠ .literal →
    t ≠ .block → (∀ m ∈ fields, Printable h d m) → Printable h (d + 1) n
  | block {d : Nat} {n before vec : Node} {elems : List Node} :
    h.arena.Owns n [Tag.block.word, before, vec] → h.elements n = .ok elems →
    (∀ m ∈ elems, Printable h d m) → Printable h (d + 1) n

/-- Longer ways may be allowed. -/
theorem Printable.mono {d' : Nat} (hp : Printable h d n) (hle : d ≤ d') : Printable h d' n := by
  induction hp generalizing d' with
  | null => exact .null d'
  | number _ hn hobject => exact .number d' hn hobject
  | node hn hlen hlit hblock _ ih =>
    obtain ⟨k, rfl⟩ : ∃ k, d' = k + 1 := ⟨d' - 1, by omega⟩
    exact .node hn hlen hlit hblock fun m hm => ih m hm (by omega)
  | block hn helems _ ih =>
    obtain ⟨k, rfl⟩ : ∃ k, d' = k + 1 := ⟨d' - 1, by omega⟩
    exact .block hn helems fun m hm => ih m hm (by omega)

/-- What a record refers to. -/
theorem children_node (hs : h.arena.Sized) {t : Tag} {before : Node} {fields : List UInt64}
    (hn : h.arena.Owns n (t.word :: before :: fields)) (hlen : fields.length = t.fields)
    (hlit : t ≠ .literal) (hblock : t ≠ .block) : children h n = .ok fields := by
  have hfields := Heap.fieldsFrom_eq hs hn hlen 0
  rw [Nat.sub_zero, hlen, List.drop_zero] at hfields
  rw [children, except_bind_ok (Heap.tag_eq hs hn)]
  cases t <;> first | exact absurd rfl hlit | exact absurd rfl hblock | exact hfields

theorem children_block (hs : h.arena.Sized) {before vec : Node} {elems : List Node}
    (hn : h.arena.Owns n [Tag.block.word, before, vec]) (helems : h.elements n = .ok elems) :
    children h n = .ok elems := by
  rw [children, except_bind_ok (Heap.tag_eq hs hn)]
  exact helems

theorem children_number (hs : h.Standard c) {object : Addr} {before w : UInt64}
    (hn : h.arena.Owns n [Tag.literal.word, before, h.types.scalars.integer, object])
    (hobject : h.arena.Owns object [w]) : children h n = .ok [] := by
  have hne : h.types.scalars.integer ≠ h.types.scalars.ast := by
    intro heq
    have hast := hs.ast
    rw [← heq] at hast
    cases hs.valid.record_unique hs.integer hast
  have hquoted : quoted h n = .ok none := by
    rw [quoted, except_bind_ok (Heap.literal_eq hs hn hobject).1]
    dsimp only
    rw [if_pos hne]
    rfl
  rw [children, except_bind_ok (Heap.tag_eq hs.sized hn)]
  dsimp only
  rw [except_bind_ok hquoted]
  rfl

/-! ### The text of a node -/

section

variable {print : Node → PrintM Unit} {t : Tag}

/-- Prints a node behind a space. -/
def spaced (print : Node → PrintM Unit) (n : Node) : PrintM Unit := do
  write " "
  print n

theorem printList_cons (print : Node → PrintM Unit) (n : Node) (ns : List Node) :
    printList print (n :: ns) = (do print n; ns.forM (spaced print)) := by
  induction ns generalizing n with
  | nil => simp [printList]
  | cons m ns ih => simp only [printList, ih, List.forM_eq_forM, List.forM_cons, spaced, bind_assoc]

/-- Prints what stands between the label of a node and the next node. -/
def printInside (h : Heap) (print : Node → PrintM Unit) (n : Node) : Tag → PrintM Unit
  | .literal => printLiteral h print n
  | .block => do
    write "\x7b"
    printList print (← children h n)
    write "\x7d"
  | tag => do
    write ("[" ++ tag.name)
    (← children h n).forM (spaced print)
    write "]"

/-- What is printed of a node depends on its tag. -/
theorem printInside_eq (htag : h.tag n = .ok t) :
    (do
      match ← h.tag n with
      | .literal => printLiteral h print n
      | .block =>
        write "\x7b"
        printList print (← children h n)
        write "\x7d"
      | tag =>
        write ("[" ++ tag.name)
        match ← children h n with
        | [] => pure ()
        | fields =>
          write " "
          printList print fields
        write "]" : PrintM Unit) = printInside h print n t := by
  have hfields : ∀ ms : List Node, (match ms with
      | [] => write "]"
      | fields => do
        write " "
        printList print fields
        write "]") = (do ms.forM (spaced print); write "]") := by
    intro ms
    cases ms with
    | nil => rfl
    | cons m ms => 
      simp only [printList_cons, List.forM_eq_forM, List.forM_cons, spaced, bind_assoc]
  have hbody := congrArg (liftM (children h n) >>= · : _ → PrintM Unit) (funext hfields)
  rw [htag]
  cases t <;> first | rfl | exact congrArg (write _ >>= ·) (funext fun _ => hbody)

theorem printInside_fields (ht : t ≠ .literal ∧ t ≠ .block) :
    printInside h print n t = (do
      write ("[" ++ t.name)
      (← children h n).forM (spaced print)
      write "]") := by
  cases t <;> first | exact absurd rfl ht.1 | exact absurd rfl ht.2 | rfl

end

/-! ### Counting and printing -/

/-- A node is counted if the nodes that it refers to are. -/
theorem always_countWithin {depth : Nat} {ms : List Node} (hms : children h n = .ok ms)
    (hcount : ∀ m ∈ ms, Always (countWithin h depth m)) :
    Always (countWithin h (depth + 1) n) := by
  unfold countWithin
  split
  · exact .pure _
  · refine .bind (fun s => ⟨s, s, rfl⟩) fun refs => .bind (fun s => ⟨_, _, rfl⟩) fun _ => ?_
    split
    · exact .read hms (.forM hcount)
    · exact .pure _

/-- References are counted, down to a depth that the ways do not reach. -/
theorem Printable.counts (hp : Printable h d n) (hs : h.Standard c) {depth : Nat} (hd : d < depth) :
    Always (countWithin h depth n) := by
  obtain ⟨depth, rfl⟩ : ∃ k, depth = k + 1 := ⟨depth - 1, by omega⟩
  induction hp generalizing depth with
  | null => exact .pure _
  | number _ hn hobject =>
    exact always_countWithin (children_number hs hn hobject) fun m hm => by cases hm
  | node hn hlen hlit hblock _ ih =>
    obtain ⟨depth, rfl⟩ : ∃ k, depth = k + 1 := ⟨depth - 1, by omega⟩
    exact always_countWithin (children_node hs.sized hn hlen hlit hblock) fun m hm =>
      ih m hm depth (by omega)
  | block hn helems _ ih =>
    obtain ⟨depth, rfl⟩ : ∃ k, depth = k + 1 := ⟨depth - 1, by omega⟩
    exact always_countWithin (children_block hs.sized hn helems) fun m hm =>
      ih m hm depth (by omega)

/-- A node is printed if its tag is known and what stands for it is printed. -/
theorem always_printWithin {refs : References} {depth : Nat} {t : Tag} (htag : h.tag n = .ok t)
    (hinside : Always (printInside h (printWithin h refs depth) n t)) :
    Always (printWithin h refs (depth + 1) n) := by
  rw [← printInside_eq htag] at hinside
  unfold printWithin
  split
  · exact .bind (always_write _) fun _ => .pure _
  · refine .bind (fun s => ⟨s, s, rfl⟩) fun p => ?_
    cases p.names.get? n with
    | some name => exact .bind (always_write _) fun _ => .pure _
    | none =>
      dsimp only
      split
      · exact Always.bind (x := giveName n) (always_giveName n) fun name =>
          .bind (always_write _) fun _ => hinside
      · exact hinside

/-- A node is printed, down to a depth that the ways do not reach. -/
theorem Printable.prints (hp : Printable h d n) (hs : h.Standard c) {refs : References}
    {depth : Nat} (hd : d < depth) : Always (printWithin h refs depth n) := by
  obtain ⟨depth, rfl⟩ : ∃ k, depth = k + 1 := ⟨depth - 1, by omega⟩
  induction hp generalizing depth with
  | null => exact .bind (always_write _) fun _ => .pure _
  | number _ hn hobject =>
    obtain ⟨hvalue, hwords⟩ := Heap.literal_eq hs hn hobject
    refine always_printWithin (Heap.tag_eq hs.sized hn) ?_
    unfold printInside printLiteral
    refine .read hvalue (.read hwords ?_)
    dsimp only
    rw [if_pos rfl]
    exact always_write _
  | @node d n before t fields hn hlen hlit hblock _ ih =>
    obtain ⟨depth, rfl⟩ : ∃ k, depth = k + 1 := ⟨depth - 1, by omega⟩
    refine always_printWithin (Heap.tag_eq hs.sized hn) ?_
    rw [printInside_fields ⟨hlit, hblock⟩]
    refine .bind (always_write _) fun _ => .read (children_node hs.sized hn hlen hlit hblock) ?_
    refine .bind (.forM fun m hm => ?_) fun _ => always_write _
    exact .bind (always_write _) fun _ => ih m hm depth (by omega)
  | block hn helems _ ih =>
    obtain ⟨depth, rfl⟩ : ∃ k, depth = k + 1 := ⟨depth - 1, by omega⟩
    refine always_printWithin (Heap.tag_eq hs.sized hn) ?_
    exact .bind (always_write _) fun _ => .read (children_block hs.sized hn helems)
      (.bind (always_printList fun m hm => ih m hm depth (by omega)) fun _ => always_write _)

/-- A node from which all ways are shorter than the depth bound is printed. -/
theorem Printable.print_ok (hp : Printable h d n) (hs : h.Standard c) (hd : d < h.depthBound) :
    ∃ text, print h n = .ok text := by
  obtain ⟨u, refs, hcount⟩ := hp.counts hs hd .empty
  have hprints : Always (printWithin h refs h.depthBound n) := hp.prints hs hd
  obtain ⟨u, p, hprint⟩ := hprints ⟨.empty, ""⟩
  refine ⟨p.text, ?_⟩
  have hrefs : references h n = .ok refs := by
    rw [references, hcount]
  rw [print, except_bind_ok hrefs, hprint]

end TreeMachine.Source
