import TreeMachine.Engine
import TreeMachine.Settings.Duration

/-! # Settings

  The sizes and switches that a settings file or the environment can change.
-/

namespace TreeMachine

/-- The settings of a run. -/
structure Settings where
  arenaWords : UInt64
  /-- The number of function slots; a file may give any number, and only a positive one is
      valid. -/
  functions : Int
  finiteness : UInt64
  verbose : Bool
  trace : Bool
  /-- The time between two collections; zero means that there are none. -/
  interval : Duration
  /-- The directory of the settings file, or nothing. -/
  directory : String
deriving DecidableEq, Repr

/-- A setting that no run can use. -/
inductive InvalidSetting where
  | arenaWords
  | functions
  | finiteness
  | interval
deriving DecidableEq, Repr

/-- The wording of a failure. -/
def InvalidSetting.message : InvalidSetting → String
  | arenaWords => "arena.words must be positive"
  | functions => "functions.capacity must be positive"
  | finiteness => "run.finiteness must be positive"
  | interval => "gc.interval must not be negative"

namespace Settings

/-- The settings where nothing else is said. -/
def default : Settings where
  arenaWords := EngineOptions.defaultArenaWords
  functions := EngineOptions.defaultFunctions
  finiteness := EngineOptions.defaultFiniteness
  verbose := false
  trace := false
  interval := ⟨0⟩
  directory := ""

/-- The first setting that no run can use. -/
def invalid? (s : Settings) : Option InvalidSetting :=
  if s.arenaWords = 0 then some .arenaWords
  else if s.functions ≤ 0 then some .functions
  else if s.finiteness = 0 then some .finiteness
  else if s.interval.nanoseconds < 0 then some .interval
  else none

/-- The options of an engine with these settings. -/
def options (s : Settings) (seed : UInt64) : EngineOptions :=
  ⟨s.arenaWords, s.functions.toNat, s.finiteness, seed, s.trace⟩

end Settings

end TreeMachine
