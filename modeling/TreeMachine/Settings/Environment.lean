import TreeMachine.Settings.Load

/-! # Settings from the environment

  Five environment variables override the settings file.
-/

namespace TreeMachine.Settings

/-- A decimal whole number with an optional sign, within the range of whole numbers. -/
def integer? (text : String) : Option Int := do
  let (sign, cs) := Toml.splitSign text.toList
  let n := sign * (← Text.decimal? cs)
  if Toml.inRange n then some n else none

/-- The words that mean "yes", in lower case. -/
def affirmations : List String :=
  ["yes", "true", "enable", "enabled", "positive", "affirmative", "absolutely"]

/-- A text that means "yes": a short form, or a word in lower case, in upper case or with a
    capital. -/
def isAffirmative (text : String) : Bool :=
  ["1", "t", "T", "y", "Y"].contains text ||
    affirmations.any fun word =>
      text == word || text == word.toUpper || text == word.capitalize

/-- Changes the settings by the value of a variable.  An empty value counts as none. -/
def byVariable (value : Option String)
    (change : String → Settings → Except SettingsError Settings) (s : Settings) :
    Except SettingsError Settings :=
  match value with
  | none => return s
  | some text => if text = "" then return s else change text s

/-- A variable whose value is a positive number. -/
def positive (name : String) (f : Int → Settings → Settings) (text : String) (s : Settings) :
    Except SettingsError Settings :=
  match integer? text with
  | some n => if 0 < n then return f n s else throw (.notPositive name text)
  | none => throw (.notPositive name text)

/-- A variable whose value is a duration. -/
def spanning (name : String) (text : String) (s : Settings) : Except SettingsError Settings :=
  match Duration.parse text with
  | .ok interval => return { s with interval }
  | .error e => throw (.badDuration name e)

/-- The variables that override settings, in the order in which they are looked at. -/
def overrides : List (String × (String → Settings → Except SettingsError Settings)) := [
  ("ARBOR_ARENA_WORDS",
    positive "ARBOR_ARENA_WORDS" fun n s => { s with arenaWords := wordOf n }),
  ("ARBOR_FUNCTIONS", positive "ARBOR_FUNCTIONS" fun n s => { s with functions := n }),
  ("ARBOR_FINITENESS",
    positive "ARBOR_FINITENESS" fun n s => { s with finiteness := wordOf n }),
  ("ARBOR_VERBOSE", fun text s => return { s with verbose := isAffirmative text }),
  ("ARBOR_GC_INTERVAL", spanning "ARBOR_GC_INTERVAL")]

/-- Changes the settings by the environment.  The first bad variable decides the error. -/
def applyVariables (value : String → Option String) (s : Settings) :
    Except SettingsError Settings := do
  let s ← overrides.foldlM (fun s (name, change) => byVariable (value name) change s) s
  match s.invalid? with
  | some why => throw (.invalid why)
  | none => return s

/-- Changes the settings by the environment. -/
def applyEnvironment {m : Type → Type} [Monad m] [MonadTerminal m] (s : Settings) :
    m (Except SettingsError Settings) := do
  let values ← overrides.mapM fun (name, _) => return (name, ← environment name)
  return s.applyVariables fun name => (values.lookup name).join

end TreeMachine.Settings
