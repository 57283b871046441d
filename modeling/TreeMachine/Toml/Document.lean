import TreeMachine.Toml.Statement

/-! # The contents of a settings file

  Statements build a tree of tables.  A key may be given once.  A table that was only implied,
  as a part of a longer key, may be given afterwards; it is then no longer implied.
-/

namespace TreeMachine.Toml

/-- A value in the tree. -/
inductive Value where
  /-- A scalar, or a list that is written as one value. -/
  | plain (e : Expr)
  | table (entries : List (String × Value))
  /-- A list of tables, of which the last is still open. -/
  | tables (elements : List (List (String × Value)))

/-- The entries of a table, in the order of their first mention. -/
abbrev Table := List (String × Value)

namespace Table

/-- Sets a key. -/
def put (k : String) (v : Value) : Table → Table
  | [] => [(k, v)]
  | (k', v') :: rest => if k' = k then (k, v) :: rest else (k', v') :: put k v rest

/-- The table at a path.  A list of tables stands for its last element. -/
def at? : List String → Table → Option Table
  | [], t => some t
  | k :: path, t =>
    match t.lookup k with
    | some (.table inner) => at? path inner
    | some (.tables elements) => elements.getLast?.bind (at? path)
    | _ => none

/-- Sets a key of the table at a path, and makes the tables on the path that are missing.
    Nothing else may stand on the path. -/
def graft? (k : String) (v : Value) : List String → Table → Option Table
  | [], t => some (t.put k v)
  | k' :: path, t =>
    match t.lookup k' with
    | none => (graft? k v path []).map fun inner => t.put k' (.table inner)
    | some (.table inner) => (graft? k v path inner).map fun inner => t.put k' (.table inner)
    | some _ => none

/-- Sets a key of the table at a path. -/
def putAt (k : String) (v : Value) : List String → Table → Table
  | [], t => t.put k v
  | k' :: path, t =>
    match t.lookup k' with
    | some (.table inner) => t.put k' (.table (putAt k v path inner))
    | some (.tables elements) =>
      match elements.getLast? with
      | some last => t.put k' (.tables (elements.dropLast ++ [putAt k v path last]))
      | none => t
    | _ => t

end Table

/-- A tree under construction. -/
structure Document where
  root : Table
  /-- The tables that were only implied. -/
  implied : List Key
  /-- The keys whose latest value is a list. -/
  lists : List Key
  /-- The keys in the order in which they were written. -/
  order : List Key

/-- A step of construction; it has no result if a key is given twice. -/
abbrev BuildM := StateT Document Option

namespace Document

/-- A tree without entries. -/
def empty : Document := ⟨[], [], [], []⟩

/-- Marks a table as implied. -/
def imply (key : Key) : BuildM Unit :=
  modify fun d => { d with implied := if d.implied.contains key then d.implied else key :: d.implied }

/-- Marks a table as given. -/
def settle (key : Key) : BuildM Unit :=
  modify fun d => { d with implied := d.implied.filter (· != key) }

/-- Notes whether the latest value of a key is a list.  A key without characters stands for
    the table that it is in. -/
def noteList (path : Key) (k : String) (isList : Bool) : BuildM Unit :=
  let key := if k = "" ∧ path ≠ [] then path else path ++ [k]
  modify fun d =>
    let others := d.lists.filter (· != key)
    { d with lists := if isList then key :: others else others }

/-- Notes that a key was written. -/
def noteKey (key : Key) : BuildM Unit :=
  modify fun d => { d with order := d.order ++ [key] }

/-- Gives a value to a key.  An implied table keeps its entries; an implied list gives way. -/
def define (path : Key) (k : String) (v : Value) : BuildM Unit := do
  let d ← get
  let key := path ++ [k]
  let t ← d.root.at? path
  let store : BuildM Unit := modify fun d => { d with root := d.root.putAt k v path }
  if (t.lookup k).isNone then store
  else if d.implied.contains key then
    if d.lists.contains key then store
    settle key
  else failure

/-- Makes sure that the tables on a path exist; `done` is the part that does. -/
def reach : Key → Key → BuildM Unit
  | _, [] => return ()
  | done, k :: rest => do
    let d ← get
    let key := done ++ [k]
    if ((← d.root.at? done).lookup k).isNone then
      imply key
      modify fun d => { d with root := d.root.putAt k (.table []) done }
    let _ ← (← get).root.at? key
    reach key rest

/-- Begins the table of a key. -/
def openTable (path : Key) (k : String) : BuildM Unit := do
  reach [] path
  define path k (.table [])

/-- Begins a new element of the list of tables of a key. -/
def openElement (path : Key) (k : String) : BuildM Unit := do
  reach [] path
  let d ← get
  let elements ← match (← d.root.at? path).lookup k with
    | none => pure []
    | some (.tables elements) => pure elements
    | some _ => failure
  set { d with root := d.root.putAt k (.tables (elements ++ [[]])) path }

/-- Begins the table or the element that a header names. -/
def openHeader (opening : Key → String → BuildM Unit) (key : Key) : BuildM Unit := do
  let some k := key.getLast? | failure
  opening key.dropLast k
  modify fun d => { d with lists := d.lists.filter (· != key) }
  noteKey key

/-- Begins the tables that the first parts of a dotted key imply; the answer is the path to
    the last part. -/
def openImplied : Key → Key → BuildM Key
  | path, [] => return path
  | path, k :: rest => do
    imply (path ++ [k])
    openTable path k
    openImplied (path ++ [k]) rest

mutual

/-- Sets a key within the table at a path; the answer is its value. -/
def assign (path : Key) (key : Key) : Expr → BuildM Value
  | e => do
    let some k := key.getLast? | failure
    let path ← openImplied path key.dropLast
    noteKey (path ++ [k])
    let v ← evaluate false path k e
    define path k v
    noteList path k (match e with | .list _ => true | _ => false)
    return v
termination_by e => (sizeOf e, 1)

/-- The value of an expression.  The tables in it are built in the place of its key. -/
def evaluate (inList : Bool) (path : Key) (k : String) : Expr → BuildM Value
  | .scalar s => return .plain (.scalar s)
  | .list items => do
    noteList path k true
    evaluateAll path k items
    return .plain (.list items)
  | .table entries => do
    imply (path ++ [k])
    if inList then openElement path k else openTable path k
    return .table (← assignAll (path ++ [k]) [] entries)
termination_by e => (sizeOf e, 0)

/-- Builds the tables of the items of a list. -/
def evaluateAll (path : Key) (k : String) : List Expr → BuildM Unit
  | [] => return ()
  | e :: rest => do
    let _ ← evaluate true path k e
    evaluateAll path k rest
termination_by es => (sizeOf es, 0)

/-- Sets the entries of a table in braces; `own` is what the entries before them give. -/
def assignAll (path : Key) (own : Table) : List (Key × Expr) → BuildM Table
  | [] => return own
  | (key, e) :: rest => do
    let v ← assign path key e
    let some k := key.getLast? | failure
    assignAll path (← own.graft? k v key.dropLast) rest
termination_by es => (sizeOf es, 0)

end

/-- Carries out the statements in order; settings go to the table at `path`. -/
def perform (path : Key) : List Statement → BuildM Unit
  | [] => return ()
  | .table key :: rest => do
    openHeader openTable key
    perform key rest
  | .element key :: rest => do
    openHeader openElement key
    perform key rest
  | .setting key value :: rest => do
    let _ ← assign path key value
    perform path rest

/-- The contents of a settings file, or nothing if its text is malformed or gives a key
    twice. -/
def parse? (bytes : List UInt8) : Option Document := do
  let statements ← read? bytes
  let (_, d) ← perform [] statements empty
  some d

end Document

end TreeMachine.Toml
