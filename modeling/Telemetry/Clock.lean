import Telemetry.Word

/-!
Absolute time from 16-bit time stamps.

A stamp less than half a turn ahead of the last one moves the clock forward. One that lags behind
belongs before the previous record if the lag fits the reorder window, and is taken for a turn of
the counter otherwise. A record without a stamp comes one nanosecond after what was before it.
-/

namespace Telemetry.Clock

/-- The turn of the tick counter. -/
def period : Nat := 65536

structure Config where
  /-- The length of a tick in nanoseconds. -/
  tickNs : Nat := 2000
  /-- The greatest lag, in ticks, that counts as a delay of the recorder. -/
  window : UInt16 := 4096
  deriving DecidableEq, Repr

/-- What decoding needs to know of the records so far. -/
structure State where
  /-- The stamp that the clock last moved to. -/
  lastRaw : UInt16 := 0
  now : Nat := 0
  /-- The records without a stamp since then. -/
  untimed : Nat := 0
  /-- A stamp has been seen. -/
  anchored : Bool := false
  /-- The previous record moved the clock and can be emitted after the next one. -/
  swappable : Bool := false
  /-- The time before the clock last moved to a stamp. -/
  floor : Nat := 0
  deriving DecidableEq, Repr

/-- How a record is placed among its neighbours. -/
inductive Order where
  | inOrder
  /-- The stamp lags by `ticks`: the record is emitted before the previous one. -/
  | swapWithPrevious (ticks : UInt16)
  /-- The stamp lags by `ticks`, but the previous record cannot be moved. -/
  | clamped (ticks : UInt16)
  /-- The stamp lags by `ticks`, more than the window, and counts as a turn of the counter. -/
  | ambiguous (ticks : UInt16)
  deriving DecidableEq, Repr

structure Advance where
  state : State
  ns : Nat
  order : Order
  deriving DecidableEq, Repr

namespace State

/-- The ticks from the last stamp forward to `raw`. -/
def ahead (s : State) (raw : UInt16) : Nat :=
  (raw - s.lastRaw).toNat

/-- Moves the clock to a stamp. -/
def anchor (s : State) (raw : UInt16) (ns : Nat) (order : Order) : Advance where
  state := {
    lastRaw := raw
    now := ns
    untimed := 0
    anchored := true
    swappable := true
    floor := s.now }
  ns
  order

/-- A record without a stamp. -/
def untimedStep (s : State) : Except Overflow Advance := do
  let ns ← Word.add s.now 1
  let untimed ← Word.add s.untimed 1
  return ⟨{ s with now := ns, untimed, swappable := false }, ns, .inOrder⟩

end State

namespace Config

/-- The time `ticks` after `s.now`. -/
def forward (c : Config) (s : State) (ticks : Nat) : Except Overflow Nat := do
  let ns ← Word.mul ticks c.tickNs
  Word.add s.now ns

/-- The time `ticks` before `s.now`, but not before the clock's previous anchor. -/
def backward (c : Config) (s : State) (ticks : Nat) : Except Overflow Nat := do
  let ns ← Word.mul ticks c.tickNs
  return max (s.now - ns) s.floor

/-- A stamp that lags by `back` ticks. -/
def lateStep (c : Config) (s : State) (back : Nat) : Except Overflow Advance := do
  let next := { s with swappable := false }
  if s.swappable then
    let ns ← c.backward s back
    return ⟨next, ns, .swapWithPrevious (UInt16.ofNat back)⟩
  else
    return ⟨next, s.now, .clamped (UInt16.ofNat back)⟩

def timedStep (c : Config) (s : State) (raw : UInt16) : Except Overflow Advance :=
  if s.anchored then
    let ahead := s.ahead raw
    let back := period - ahead
    if ahead < period / 2 then do
      return s.anchor raw (← c.forward s ahead) .inOrder
    else if c.window.toNat < back then do
      return s.anchor raw (← c.forward s ahead) (.ambiguous (UInt16.ofNat back))
    else c.lateStep s back
  else
    return s.anchor raw s.now .inOrder

/-- The time and place of a record with the stamp `raw?`, and the state after it. -/
def advance (c : Config) (s : State) (raw? : Option UInt16) : Except Overflow Advance :=
  match raw? with
  | none => s.untimedStep
  | some raw => c.timedStep s raw

end Config

end Telemetry.Clock
