import Telemetry.Codec.Clock

/-!
The JSON form of records.
-/

namespace Telemetry

open Json

namespace Record

def Kind.toJson : Kind → Json
  | .fixed => Json.text "Fixed"
  | .text terminated => variant "Text" [("terminated", bool terminated)]

def Kind.ofJson? (j : Json) : Option Kind := do
  let (name, content) ← j.variant?
  match name with
  | "Fixed" => if isUnit content then some .fixed else none
  | "Text" =>
    return .text (← (← variantFields? ["terminated"] content).required "terminated" bool?)
  | _ => none

def toJson (r : Record) : Json :=
  struct [
    ("ordinal", nat r.ordinal),
    ("tag", nat r.tag.toNat),
    ("kind", r.kind.toJson),
    ("payload", list (fun b => nat b.toNat) r.payload),
    ("byte_offset", nat r.offset),
    ("byte_length", nat r.length),
    ("raw_ticks", ofOption (fun t => nat t.toNat) r.rawTicks)]

def ofJson? (j : Json) : Option Record := do
  let f ← j.fields? ["ordinal", "tag", "kind", "payload", "byte_offset", "byte_length",
    "raw_ticks"]
  return {
    ordinal := ← f.required "ordinal" word64?
    tag := ← f.required "tag" byte?
    kind := ← f.required "kind" Kind.ofJson?
    payload := ← f.required "payload" (list? byte?)
    offset := ← f.required "byte_offset" word64?
    length := ← f.required "byte_length" word32?
    rawTicks := ← f.optional "raw_ticks" word16? }

end Record

namespace Timed

def toJson (t : Timed) : Json :=
  struct [
    ("record", t.record.toJson),
    ("absolute_ns", nat t.ns),
    ("order", t.order.toJson)]

def ofJson? (j : Json) : Option Timed := do
  let f ← j.fields? ["record", "absolute_ns", "order"]
  return {
    record := ← f.required "record" Record.ofJson?
    ns := ← f.required "absolute_ns" word64?
    order := ← f.required "order" Clock.Order.ofJson? }

end Timed

end Telemetry
