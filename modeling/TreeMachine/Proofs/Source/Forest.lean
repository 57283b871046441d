import TreeMachine.Proofs.Node.Cells

/-! # Forests

  A forest is a list of nodes as they are written, with the nodes below them.  Every node is
  numbered in the order in which the nodes begin, and a node that was met before is given by
  how many nodes ago it began, so a forest may stand anywhere in a larger one.  Main
  statements: forests that follow each other, and what it is for a forest to stand in a
  memory.
-/

namespace TreeMachine.Source

/-- Nodes one after the other: the first one, what is below it, and the rest. -/
inductive Forest where
  | nil
  /-- The null node. -/
  | null (rest : Forest)
  /-- The node that began `back` nodes ago. -/
  | again (back : Nat) (rest : Forest)
  | integer (v : UInt64) (rest : Forest)
  | fields (t : Tag) (below rest : Forest)
  | block (below rest : Forest)
  | quote (below rest : Forest)
deriving Repr

namespace Forest

/-- The number of nodes that begin in the forest. -/
def size : Forest → Nat
  | nil => 0
  | null rest | again _ rest => rest.size
  | integer _ rest => rest.size + 1
  | fields _ below rest | block below rest | quote below rest => below.size + rest.size + 1

/-- The number of nodes that follow each other. -/
def length : Forest → Nat
  | nil => 0
  | null rest | again _ rest | integer _ rest | fields _ _ rest | block _ rest | quote _ rest =>
    rest.length + 1

/-- How far down the nodes reach. -/
def height : Forest → Nat
  | nil => 0
  | null rest | again _ rest | integer _ rest => max 1 rest.height
  | fields _ below rest | block below rest | quote below rest =>
    max (below.height + 1) rest.height

/-- One forest after the other. -/
def append : Forest → Forest → Forest
  | nil, G => G
  | null rest, G => null (rest.append G)
  | again back rest, G => again back (rest.append G)
  | integer v rest, G => integer v (rest.append G)
  | fields t below rest, G => fields t below (rest.append G)
  | block below rest, G => block below (rest.append G)
  | quote below rest, G => quote below (rest.append G)

instance : Append Forest := ⟨append⟩

section

variable {F G : Forest} {back : Nat} {v : UInt64} {t : Tag} {below rest : Forest}

@[simp] theorem nil_append : nil ++ G = G := rfl
@[simp] theorem null_append : null rest ++ G = null (rest ++ G) := rfl
@[simp] theorem again_append : again back rest ++ G = again back (rest ++ G) := rfl
@[simp] theorem integer_append : integer v rest ++ G = integer v (rest ++ G) := rfl
@[simp] theorem fields_append : fields t below rest ++ G = fields t below (rest ++ G) := rfl
@[simp] theorem block_append : block below rest ++ G = block below (rest ++ G) := rfl
@[simp] theorem quote_append : quote below rest ++ G = quote below (rest ++ G) := rfl

@[simp] theorem append_nil (F : Forest) : F ++ nil = F := by
  induction F <;> simp [*]

@[simp] theorem append_assoc (F G H : Forest) : F ++ G ++ H = F ++ (G ++ H) := by
  induction F <;> simp [*]

@[simp] theorem size_append (F G : Forest) : (F ++ G).size = F.size + G.size := by
  induction F <;> simp [size, *] <;> omega

@[simp] theorem length_append (F G : Forest) : (F ++ G).length = F.length + G.length := by
  induction F <;> simp [length, *] <;> omega

theorem height_le (F : Forest) : F.height ≤ F.size + 1 := by
  induction F <;> simp only [height, size] <;> omega

end

/-! ### Well-scoped forests -/

/-- Nodes are met again only after they have begun and not inside themselves if they are
    quotes; `Q` are the quotes around the forest, and `i` is the number of its first node.
    Nodes have as many fields as their tags say. -/
def Scoped (Q : Nat → Prop) (i : Nat) : Forest → Prop
  | nil => True
  | null rest => rest.Scoped Q i
  | again back rest => 0 < back ∧ back ≤ i ∧ ¬ Q (i - back) ∧ rest.Scoped Q i
  | integer _ rest => rest.Scoped Q (i + 1)
  | fields t below rest => (t ≠ .literal ∧ t ≠ .block) ∧ below.length = t.fields ∧
    below.Scoped Q (i + 1) ∧ rest.Scoped Q (i + 1 + below.size)
  | block below rest => below.Scoped Q (i + 1) ∧ rest.Scoped Q (i + 1 + below.size)
  | quote below rest => below.length = 1 ∧ below.Scoped (fun k => k = i ∨ Q k) (i + 1) ∧
    rest.Scoped Q (i + 1 + below.size)

variable {Q Q' : Nat → Prop} {i : Nat}

theorem scoped_append {F G : Forest} :
    (F ++ G).Scoped Q i ↔ F.Scoped Q i ∧ G.Scoped Q (i + F.size) := by
  induction F generalizing i with
  | nil => simp [Scoped, size]
  | null rest ih => simpa [Scoped, size] using ih
  | again back rest ih => simp [Scoped, size, ih, and_assoc]
  | integer v rest ih => simp [Scoped, size, ih, Nat.add_assoc, Nat.add_comm 1]
  | fields t below rest _ ih =>
    simp [Scoped, size, ih, and_assoc, Nat.add_assoc, Nat.add_comm 1]
  | block below rest _ ih => simp [Scoped, size, ih, and_assoc, Nat.add_assoc, Nat.add_comm 1]
  | quote below rest _ ih => simp [Scoped, size, ih, and_assoc, Nat.add_assoc, Nat.add_comm 1]

/-- A forest may stand behind one more node. -/
theorem Scoped.shift {F : Forest} (h : F.Scoped Q i) (hQ : ∀ k, Q' (k + 1) → Q k) :
    F.Scoped Q' (i + 1) := by
  induction F generalizing Q Q' i with
  | nil => trivial
  | null rest ih => exact ih h hQ
  | again back rest ih =>
    obtain ⟨hpos, hle, hnot, hrest⟩ := h
    refine ⟨hpos, by omega, ?_, ih hrest hQ⟩
    intro hq
    rw [Nat.sub_add_comm hle] at hq
    exact hnot (hQ _ hq)
  | integer v rest ih => exact ih h hQ
  | fields t below rest ihb ih =>
    obtain ⟨ht, hlen, hbelow, hrest⟩ := h
    refine ⟨ht, hlen, ihb hbelow hQ, ?_⟩
    have := ih hrest hQ
    rwa [Nat.add_right_comm] at this
  | block below rest ihb ih =>
    obtain ⟨hbelow, hrest⟩ := h
    refine ⟨ihb hbelow hQ, ?_⟩
    have := ih hrest hQ
    rwa [Nat.add_right_comm] at this
  | quote below rest ihb ih =>
    obtain ⟨hlen, hbelow, hrest⟩ := h
    refine ⟨hlen, ihb hbelow ?_, ?_⟩
    · rintro k (hk | hk)
      · exact Or.inl (by omega)
      · exact Or.inr (hQ k hk)
    · have := ih hrest hQ
      rwa [Nat.add_right_comm] at this

end Forest

/-! ### Forests in a memory -/

/-- The nodes `ns` are those of the forest, and the memory holds what is written below them;
    `ν` says which nodes the numbers stand for. -/
inductive Stands (M : NodeMemory) (ν : Nat → Option Node) : Nat → Forest → List Node → Prop
  | nil {i : Nat} : Stands M ν i .nil []
  | null {i : Nat} {rest : Forest} {ns : List Node} : Stands M ν i rest ns →
    Stands M ν i (.null rest) (0 :: ns)
  | again {i back : Nat} {n : Node} {rest : Forest} {ns : List Node} : back ≤ i →
    ν (i - back) = some n → Stands M ν i rest ns → Stands M ν i (.again back rest) (n :: ns)
  | integer {i : Nat} {v : UInt64} {n : Node} {rest : Forest} {ns : List Node} :
    ν i = some n → M n = some (.integer v) → Stands M ν (i + 1) rest ns →
    Stands M ν i (.integer v rest) (n :: ns)
  | fields {i : Nat} {t : Tag} {n : Node} {below rest : Forest} {ms ns : List Node} :
    ν i = some n → M n = some (.fields t ms) → Stands M ν (i + 1) below ms →
    Stands M ν (i + 1 + below.size) rest ns → Stands M ν i (.fields t below rest) (n :: ns)
  | block {i : Nat} {n : Node} {below rest : Forest} {ms ns : List Node} :
    ν i = some n → M n = some (.block ms) → Stands M ν (i + 1) below ms →
    Stands M ν (i + 1 + below.size) rest ns → Stands M ν i (.block below rest) (n :: ns)
  | quote {i : Nat} {n m : Node} {below rest : Forest} {ns : List Node} :
    ν i = some n → M n = some (.quote m) → Stands M ν (i + 1) below [m] →
    Stands M ν (i + 1 + below.size) rest ns → Stands M ν i (.quote below rest) (n :: ns)

namespace Stands

variable {M M' : NodeMemory} {ν ν' : Nat → Option Node} {i : Nat} {F G : Forest} {ns ms : List Node}

theorem length_eq (h : Stands M ν i F ns) : ns.length = F.length := by
  induction h with
  | nil => rfl
  | null _ ih => simp [Forest.length, ih]
  | again _ _ _ ih => simp [Forest.length, ih]
  | integer _ _ _ ih => simp [Forest.length, ih]
  | fields _ _ _ _ _ ih => simp [Forest.length, ih]
  | block _ _ _ _ _ ih => simp [Forest.length, ih]
  | quote _ _ _ _ _ ih => simp [Forest.length, ih]

/-- One forest after the other. -/
theorem append (h : Stands M ν i F ns) (h' : Stands M ν (i + F.size) G ms) :
    Stands M ν i (F ++ G) (ns ++ ms) := by
  induction h with
  | nil => exact h'
  | null _ ih => exact .null (ih h')
  | again hle hn _ ih => exact .again hle hn (ih h')
  | @integer i v n rest ns hn hM _ ih =>
    refine .integer hn hM (ih ?_)
    rwa [Nat.add_right_comm]
  | @fields i t n below rest _ ns hn hM hbelow _ _ ih =>
    refine .fields hn hM hbelow (ih ?_)
    rwa [show i + 1 + below.size + rest.size = i + (Forest.fields t below rest).size by
      simp only [Forest.size]; omega]
  | @block i n below rest _ ns hn hM hbelow _ _ ih =>
    refine .block hn hM hbelow (ih ?_)
    rwa [show i + 1 + below.size + rest.size = i + (Forest.block below rest).size by
      simp only [Forest.size]; omega]
  | @quote i n m below rest ns hn hM hbelow _ _ ih =>
    refine .quote hn hM hbelow (ih ?_)
    rwa [show i + 1 + below.size + rest.size = i + (Forest.quote below rest).size by
      simp only [Forest.size]; omega]

/-- A forest goes on standing if its nodes keep what they hold. -/
theorem mono (h : Stands M ν i F ns) (hν : ∀ k n, ν k = some n → ν' k = some n)
    (hM : ∀ k n r, i ≤ k → k < i + F.size → ν k = some n → M n = some r → M' n = some r) :
    Stands M' ν' i F ns := by
  induction h with
  | nil => exact .nil
  | null _ ih => exact .null (ih hM)
  | again hle hn _ ih => exact .again hle (hν _ _ hn) (ih hM)
  | integer hn hc _ ih =>
    simp only [Forest.size] at hM
    refine .integer (hν _ _ hn) (hM _ _ _ (Nat.le_refl _) (by omega) hn hc) (ih ?_)
    exact fun k n r hlo hhi => hM k n r (by omega) (by omega)
  | fields hn hc _ _ ihb ih =>
    simp only [Forest.size] at hM
    refine .fields (hν _ _ hn) (hM _ _ _ (Nat.le_refl _) (by omega) hn hc) (ihb ?_) (ih ?_)
    · exact fun k n r hlo hhi => hM k n r (by omega) (by omega)
    · exact fun k n r hlo hhi => hM k n r (by omega) (by omega)
  | block hn hc _ _ ihb ih =>
    simp only [Forest.size] at hM
    refine .block (hν _ _ hn) (hM _ _ _ (Nat.le_refl _) (by omega) hn hc) (ihb ?_) (ih ?_)
    · exact fun k n r hlo hhi => hM k n r (by omega) (by omega)
    · exact fun k n r hlo hhi => hM k n r (by omega) (by omega)
  | quote hn hc _ _ ihb ih =>
    simp only [Forest.size] at hM
    refine .quote (hν _ _ hn) (hM _ _ _ (Nat.le_refl _) (by omega) hn hc) (ihb ?_) (ih ?_)
    · exact fun k n r hlo hhi => hM k n r (by omega) (by omega)
    · exact fun k n r hlo hhi => hM k n r (by omega) (by omega)

/-- A forest may stand behind one more node. -/
theorem shift (h : Stands M ν i F ns) (hν : ∀ k, ν' (k + 1) = ν k) :
    Stands M ν' (i + 1) F ns := by
  induction h with
  | nil => exact .nil
  | null _ ih => exact .null ih
  | @again i back n rest ns hle hn _ ih =>
    refine .again (by omega) ?_ ih
    rw [Nat.sub_add_comm hle, hν, hn]
  | integer hn hc _ ih => exact .integer (by rw [hν, hn]) hc ih
  | @fields i t n below rest ms ns hn hc _ _ ihb ih =>
    refine .fields (by rw [hν, hn]) hc ihb ?_
    rwa [Nat.add_right_comm]
  | @block i n below rest ms ns hn hc _ _ ihb ih =>
    refine .block (by rw [hν, hn]) hc ihb ?_
    rwa [Nat.add_right_comm]
  | @quote i n m below rest ns hn hc _ _ ihb ih =>
    refine .quote (by rw [hν, hn]) hc ihb ?_
    rwa [Nat.add_right_comm]

end Stands

end TreeMachine.Source
