import TreeMachine.Engine

/-! # Periodic collection

  A timer collects at a fixed interval while it is running and enabled.  When a tick is due
  is not decided here; this is the record of a timer and what happens to it.
-/

namespace TreeMachine

/-- The record of a timer. -/
structure Timer where
  /-- The time between two collections, in nanoseconds. -/
  interval : Int
  running : Bool
  /-- A disabled timer goes on ticking but does not collect. -/
  enabled : Bool
  /-- The number of collections this timer has run. -/
  sweeps : UInt64
  last : Option CollectStats
deriving DecidableEq, Repr, Inhabited

namespace Timer

/-- The interval where none is given: thirty seconds. -/
def defaultInterval : Int := 30000000000

/-- A timer that has not started.  An interval that is not positive means the default. -/
def create (interval : Int) : Timer :=
  ⟨if interval ≤ 0 then defaultInterval else interval, false, true, 0, none⟩

/-- Starts the timer; a running one goes on. -/
def start (t : Timer) : Timer := { t with running := true }

/-- Stops the timer, if it is running. -/
def stop (t : Timer) : Timer := { t with running := false }

/-- Enables or disables collection. -/
def setEnabled (t : Timer) (enabled : Bool) : Timer := { t with enabled }

/-- Counts a collection. -/
def record (stats : CollectStats) (t : Timer) : Timer :=
  { t with sweeps := t.sweeps + 1, last := some stats }

/-- Collects at once. -/
def sweep (t : Timer) : EStateM Fault Engine Timer := do
  let stats ← Engine.collect
  return t.record stats

end Timer

/-- The timers of one engine; at most one of them belongs to the engine itself. -/
structure Schedule where
  timers : Array Timer
  own : Option Nat
deriving Inhabited

namespace Schedule

/-- No timers. -/
def empty : Schedule := ⟨#[], none⟩

/-- Adds a timer that has not started; the answer is its number. -/
def add (interval : Int) (s : Schedule) : Nat × Schedule :=
  (s.timers.size, { s with timers := s.timers.push (.create interval) })

/-- Changes the timer with a given number. -/
def update (i : Nat) (f : Timer → Timer) (s : Schedule) : Schedule :=
  { s with timers := s.timers.modify i f }

/-- Starts the engine's own timer, which is made if there is none; the answer is its
    number. -/
def startOwn (interval : Int) (s : Schedule) : Nat × Schedule :=
  match s.own with
  | some i => (i, s.update i Timer.start)
  | none =>
    let (i, s) := s.add interval
    (i, { s.update i Timer.start with own := some i })

/-- Stops the engine's own timer and lets go of it. -/
def shutdown (s : Schedule) : Schedule :=
  match s.own with
  | some i => { s.update i Timer.stop with own := none }
  | none => s

end Schedule

end TreeMachine
