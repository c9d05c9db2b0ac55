import Telemetry.Codec.Clock
import Telemetry.Index

/-!
The JSON form of an index and its parts.
-/

namespace Telemetry

open Json

namespace Mark

def toJson (m : Mark) : Json :=
  struct [("ordinal", nat m.ordinal), ("byte_offset", nat m.offset)]

def ofJson? (j : Json) : Option Mark := do
  let f ← j.fields? ["ordinal", "byte_offset"]
  return {
    ordinal := ← f.required "ordinal" word64?
    offset := ← f.required "byte_offset" word64? }

end Mark

namespace StreamEnd

def toJson : StreamEnd → Json
  | .eof => text "Eof"
  | .truncated offset trailing =>
    variant "Truncated" [("offset", nat offset), ("trailing_bytes", nat trailing)]
  | .lostSync ordinal offset tag lastGood =>
    variant "LostSync" [
      ("ordinal", nat ordinal),
      ("offset", nat offset),
      ("tag", nat tag.toNat),
      ("last_good", ofOption Mark.toJson lastGood)]
  | .limit ordinal => variant "Limit" [("ordinal", nat ordinal)]

def ofJson? (j : Json) : Option StreamEnd := do
  let (name, content) ← j.variant?
  match name with
  | "Eof" => if isUnit content then some .eof else none
  | "Truncated" =>
    let f ← variantFields? ["offset", "trailing_bytes"] content
    return .truncated (← f.required "offset" word64?) (← f.required "trailing_bytes" word64?)
  | "LostSync" =>
    let f ← variantFields? ["ordinal", "offset", "tag", "last_good"] content
    return .lostSync (← f.required "ordinal" word64?) (← f.required "offset" word64?)
      (← f.required "tag" byte?) (← f.optional "last_good" Mark.ofJson?)
  | "Limit" =>
    let f ← variantFields? ["ordinal"] content
    return .limit (← f.required "ordinal" word64?)
  | _ => none

end StreamEnd

namespace Checkpoint

def toJson (c : Checkpoint) : Json :=
  struct [
    ("ordinal", nat c.ordinal),
    ("byte_offset", nat c.offset),
    ("state", c.state.toJson)]

def ofJson? (j : Json) : Option Checkpoint := do
  let f ← j.fields? ["ordinal", "byte_offset", "state"]
  return {
    ordinal := ← f.required "ordinal" word64?
    offset := ← f.required "byte_offset" word64?
    state := ← f.required "state" Clock.State.ofJson? }

end Checkpoint

namespace Anomaly

def toJson (a : Anomaly) : Json :=
  struct [
    ("ordinal", nat a.ordinal),
    ("byte_offset", nat a.offset),
    ("back_ticks", nat a.backTicks.toNat)]

def ofJson? (j : Json) : Option Anomaly := do
  let f ← j.fields? ["ordinal", "byte_offset", "back_ticks"]
  return {
    ordinal := ← f.required "ordinal" word64?
    offset := ← f.required "byte_offset" word64?
    backTicks := ← f.required "back_ticks" word16? }

end Anomaly

namespace Index

def toJson (i : Index) : Json :=
  struct [
    ("entries", list Checkpoint.toJson i.checkpoints),
    ("total_records", nat i.totalRecords),
    ("total_bytes", nat i.totalBytes),
    ("decoded_bytes", nat i.decodedBytes),
    ("end", i.finish.toJson),
    ("stats", i.corrections.toJson),
    ("anomalies", list Anomaly.toJson i.anomalies),
    ("anomalies_dropped", nat i.anomaliesDropped),
    ("checkpoint_interval", nat i.interval)]

end Index

end Telemetry
