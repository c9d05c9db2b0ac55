import Telemetry.Json.Fields
import Telemetry.Tag.Table

/-!
The JSON form of tags: one object holds the fields of the tag and those of its layout. So what is
read first is set aside until the layout is known, and has to be readable.
-/

namespace Telemetry

open Json

/-- The fields of an object that are read by name, and those that are set aside. -/
def Json.setAside? (room : Nat) (names : List String) :
    Json → Option (Fields × List (String × Json))
  | object fields => do
    let named ← namedFields fields
    let (known, other) := named.partition (·.1 ∈ names)
    if (known.map (·.1)).Nodup ∧ other.all (isReadable room ·.2) then some (⟨known, true⟩, other)
    else none
  | _ => none

/-- Among fields that were set aside, those with these names, each at most once. -/
def Json.chosen? (names : List String) (other : List (String × Json)) : Option Fields :=
  let known := other.filter (·.1 ∈ names)
  if (known.map (·.1)).Nodup then some ⟨known, true⟩ else none

namespace Tag

namespace Layout

def fields : Layout → List (String × Json)
  | .fixed length timestamp =>
    [("kind", Json.text "fixed"), ("len", nat length)] ++
      (timestamp.map fun position => ("timestamp_at", nat position)).toList
  | .text => [("kind", Json.text "text")]

/-- Layouts are named, or numbered from zero. -/
inductive Case where
  | fixed
  | text

def Case.ofJson? (j : Json) : Option Case :=
  match j.text?, word64? j with
  | some "fixed", _ => some .fixed
  | some "text", _ => some .text
  | _, some 0 => some .fixed
  | _, some 1 => some .text
  | _, _ => none

/-- Only a fixed layout looks at the other fields. -/
def ofFields? (other : List (String × Json)) : Option Layout := do
  match ← (← chosen? ["kind"] other).required "kind" Case.ofJson? with
  | .fixed =>
    let f ← chosen? ["len", "timestamp_at"] other
    return .fixed (← f.required "len" word64?) (← f.optional "timestamp_at" word64?)
  | .text => return .text

end Layout

def toJson (t : Tag) : Json :=
  struct ([("tag", nat t.byte.toNat), ("name", Json.text t.name)] ++ t.layout.fields)

/-- A tag that stands `depth` levels deep. -/
def ofJsonAt? (depth : Nat) (j : Json) : Option Tag := do
  let (f, other) ← j.setAside? (maxDepth - (depth + 1)) ["tag", "name"]
  return {
    byte := ← f.required "tag" byte?
    name := ← f.required "name" text?
    layout := ← Layout.ofFields? other }

def ofJson? (j : Json) : Option Tag :=
  ofJsonAt? 0 j

end Tag

end Telemetry
