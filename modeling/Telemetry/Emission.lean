import Telemetry.Clock
import Telemetry.Record

/-!
The order in which records are emitted. A record is held back until the next one shows whether it
has to come first, so each swap exchanges two neighbours of the stream.
-/

namespace Telemetry

/-- A record with its reconstructed time. -/
structure Timed where
  record : Record
  ns : Nat
  order : Clock.Order
  deriving DecidableEq, Repr

/-- How often, and how far, the order of the stream had to be corrected. -/
structure Corrections where
  swaps : Nat := 0
  maxSwapTicks : UInt16 := 0
  clamped : Nat := 0
  ambiguous : Nat := 0
  deriving DecidableEq, Repr

namespace Corrections

def observe (c : Corrections) : Clock.Order → Corrections
  | .inOrder => c
  | .swapWithPrevious ticks =>
    { c with swaps := c.swaps + 1, maxSwapTicks := max c.maxSwapTicks ticks }
  | .clamped _ => { c with clamped := c.clamped + 1 }
  | .ambiguous _ => { c with ambiguous := c.ambiguous + 1 }

def ofList (records : List Timed) : Corrections :=
  records.foldl (fun c t => c.observe t.order) {}

end Corrections

/-- At most one record is held back. -/
structure Queue where
  held : Option Timed := none
  deriving DecidableEq, Repr

namespace Queue

/-- Takes a record in and lets go of those whose place is settled. -/
def push (q : Queue) (t : Timed) : Queue × List Timed :=
  match t.order with
  | .swapWithPrevious _ => (⟨none⟩, t :: q.held.toList)
  | _ => (⟨some t⟩, q.held.toList)

/-- Lets go of the held record. -/
def flush (q : Queue) : Queue × List Timed :=
  (⟨none⟩, q.held.toList)

theorem length_push (q : Queue) (t : Timed) :
    (q.push t).1.held.toList.length + (q.push t).2.length = q.held.toList.length + 1 := by
  unfold push
  split
  · simp
  · simp [Nat.add_comm]

end Queue

end Telemetry
