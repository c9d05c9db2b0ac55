import Telemetry.Clock
import Telemetry.Emission
import Telemetry.Json.Fields

/-!
The JSON form of clocks, their states and what they found.
-/

namespace Telemetry

open Json

namespace Clock

def Config.toJson (c : Config) : Json :=
  struct [("tick_ns", nat c.tickNs), ("reorder_window_ticks", nat c.window.toNat)]

/-- A missing setting has its default. -/
def Config.ofFields? (f : Fields) : Option Config := do
  let defaults : Config := {}
  let tickNs ← f.withDefault "tick_ns" defaults.tickNs word64?
  let window ← f.withDefault "reorder_window_ticks" defaults.window word16?
  return ⟨tickNs, window⟩

def Config.ofJson? (j : Json) : Option Config := do
  Config.ofFields? (← j.fields? ["tick_ns", "reorder_window_ticks"])

def State.toJson (s : State) : Json :=
  struct [
    ("last_raw_ticks", nat s.lastRaw.toNat),
    ("absolute_ns", nat s.now),
    ("untimed_counter", nat s.untimed),
    ("anchored", bool s.anchored),
    ("swap_candidate", bool s.swappable),
    ("floor_ns", nat s.floor)]

def State.ofJson? (j : Json) : Option State := do
  let f ← j.fields? ["last_raw_ticks", "absolute_ns", "untimed_counter", "anchored",
    "swap_candidate", "floor_ns"]
  return {
    lastRaw := ← f.required "last_raw_ticks" word16?
    now := ← f.required "absolute_ns" word64?
    untimed := ← f.required "untimed_counter" word64?
    anchored := ← f.required "anchored" bool?
    swappable := ← f.required "swap_candidate" bool?
    floor := ← f.required "floor_ns" word64? }

def Order.toJson : Order → Json
  | .inOrder => text "InOrder"
  | .swapWithPrevious ticks => variant "SwapWithPrevious" [("ticks", nat ticks.toNat)]
  | .clamped ticks => variant "Clamped" [("ticks", nat ticks.toNat)]
  | .ambiguous ticks => variant "Ambiguous" [("ticks", nat ticks.toNat)]

def Order.ofJson? (j : Json) : Option Order := do
  let (name, content) ← j.variant?
  match name with
  | "InOrder" => if isUnit content then some .inOrder else none
  | "SwapWithPrevious" => return .swapWithPrevious (← ticks? content)
  | "Clamped" => return .clamped (← ticks? content)
  | "Ambiguous" => return .ambiguous (← ticks? content)
  | _ => none
where
  ticks? (content : Option Json) : Option UInt16 := do
    (← variantFields? ["ticks"] content).required "ticks" word16?

end Clock

namespace Corrections

def toJson (c : Corrections) : Json :=
  struct [
    ("corrections", nat c.swaps),
    ("max_corrected_ticks", nat c.maxSwapTicks.toNat),
    ("clamped", nat c.clamped),
    ("ambiguous", nat c.ambiguous)]

def ofJson? (j : Json) : Option Corrections := do
  let f ← j.fields? ["corrections", "max_corrected_ticks", "clamped", "ambiguous"]
  return {
    swaps := ← f.required "corrections" word64?
    maxSwapTicks := ← f.required "max_corrected_ticks" word16?
    clamped := ← f.required "clamped" word64?
    ambiguous := ← f.required "ambiguous" word64? }

end Corrections

end Telemetry
