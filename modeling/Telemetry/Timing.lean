import Telemetry.Word

/-!
Durations, and how often named operations ran and for how long.
-/

namespace Telemetry

def Duration.nanosPerSecond : Nat := 1000000000

/-- A span of time in nanoseconds, of which the whole seconds fit a word. -/
@[ext]
structure Duration where
  nanos : Nat
  nanos_lt : nanos < Word.size * Duration.nanosPerSecond := by decide
  deriving DecidableEq, Repr

namespace Duration

def zero : Duration where
  nanos := 0

/-- Nanoseconds beyond a second are carried, up to the longest span there is. -/
def ofParts (secs nanos : Nat) : Duration where
  nanos := min (secs * nanosPerSecond + nanos) (Word.size * nanosPerSecond - 1)
  nanos_lt := Nat.lt_of_le_of_lt (Nat.min_le_right _ _) (by decide)

def secs (d : Duration) : Nat :=
  d.nanos / nanosPerSecond

def subsecNanos (d : Duration) : Nat :=
  d.nanos % nanosPerSecond

def add (a b : Duration) : Except Overflow Duration :=
  if h : a.nanos + b.nanos < Word.size * nanosPerSecond then .ok ⟨a.nanos + b.nanos, h⟩
  else .error .duration

theorem add_eq_ok_iff {a b c : Duration} : a.add b = .ok c ↔ c.nanos = a.nanos + b.nanos := by
  have hc := c.nanos_lt
  unfold add
  split
  · rw [Except.ok.injEq, Duration.ext_iff, eq_comm]
  · next h =>
    constructor
    · intro heq
      cases heq
    · intro heq
      exact absurd (heq ▸ hc) h

/-- Rounded down to a nanosecond. -/
def divide (d : Duration) (n : Nat) : Duration where
  nanos := d.nanos / n
  nanos_lt := Nat.lt_of_le_of_lt (Nat.div_le_self _ _) d.nanos_lt

/-- The digits of `n`, padded with zeros to `width`. -/
def padded (width n : Nat) : List Char :=
  let digits := Nat.toDigits 10 n
  List.replicate (width - digits.length) '0' ++ digits

def trimZeros (digits : List Char) : List Char :=
  (digits.reverse.dropWhile (· == '0')).reverse

/-- `n` over ten to the power `places`, without trailing zeros, and a unit. -/
def decimal (n places : Nat) (unit : String) : String :=
  let whole := toString (n / Nat.pow 10 places)
  match trimZeros (padded places (n % Nat.pow 10 places)) with
  | [] => whole ++ unit
  | fraction => whole ++ "." ++ String.ofList fraction ++ unit

/-- In the largest unit of which there is at least one. -/
def text (d : Duration) : String :=
  if nanosPerSecond ≤ d.nanos then decimal d.nanos 9 "s"
  else if 1000000 ≤ d.nanos then decimal d.nanos 6 "ms"
  else if 1000 ≤ d.nanos then decimal d.nanos 3 "µs"
  else decimal d.nanos 0 "ns"

end Duration

namespace Timing

structure Tally where
  count : Nat := 0
  total : Duration := .zero
  deriving DecidableEq, Repr

/-- Named tallies in ascending order of their names. -/
abbrev Tallies := List (String × Tally)

/-- The summary of one operation. -/
structure Summary where
  name : String
  count : Nat
  total : Duration
  average : Duration
  deriving DecidableEq, Repr

/-- Counts are divided by in 32 bits. -/
def divisorSize : Nat := UInt32.size

def Tally.average (t : Tally) : Duration :=
  if t.count = 0 then .zero else t.total.divide (max 1 (t.count % divisorSize))

/-- Changes the tally of `name`, which starts at zero. -/
def update (name : String) (f : Tally → Tally) : Tallies → Tallies
  | [] => [(name, f {})]
  | (other, tally) :: rest =>
    if name < other then (name, f {}) :: (other, tally) :: rest
    else if name = other then (name, f tally) :: rest
    else (other, tally) :: update name f rest

def find (name : String) (tallies : Tallies) : Tally :=
  (tallies.lookup name).getD {}

end Timing

/-- Counts and sums the runs of named operations. -/
inductive Tracker where
  | running (tallies : Timing.Tallies)
  /-- A sum overflowed; nothing is told or taken any more. -/
  | broken
  deriving DecidableEq, Repr

namespace Tracker

def empty : Tracker := running []

/-- Adds one run. A sum that overflows breaks the tracker. -/
def add (t : Tracker) (name : String) (d : Duration) : Except Overflow Unit × Tracker :=
  match t with
  | broken => (.ok (), broken)
  | running tallies =>
    match (Timing.find name tallies).total.add d with
    | .error o => (.error o, broken)
    | .ok total => (.ok (), running (Timing.update name (fun c => ⟨c.count + 1, total⟩) tallies))

/-- Counts a run whose duration is not measured. -/
def track (t : Tracker) (name : String) : Tracker :=
  (t.add name .zero).2

def tallies : Tracker → Timing.Tallies
  | running tallies => tallies
  | broken => []

/-- In ascending order of the names. -/
def snapshot (t : Tracker) : List Timing.Summary :=
  t.tallies.map fun (name, tally) => ⟨name, tally.count, tally.total, tally.average⟩

def Timing.Summary.line (s : Timing.Summary) : String :=
  s.name ++ " cnt=" ++ toString s.count ++ " dur.sum=" ++ s.total.text ++ " dur.avg=" ++
    s.average.text ++ "\n"

def text (t : Tracker) : String :=
  "tracks:\n" ++ String.join (t.snapshot.map Timing.Summary.line)

end Tracker

end Telemetry
