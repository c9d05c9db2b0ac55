import Telemetry.Record
import Telemetry.Tag.Table
import Telemetry.Text.Quoted
import Telemetry.Text.Utf8

/-!
The text of a record: its tag, its time stamp and its bytes. What the bytes mean is not looked at.
-/

namespace Telemetry.Record

/-- Where a record holds its time stamp, if it has the length that the table tells. -/
def timestampAt (table : Tag.Table) (r : Record) : Option Nat :=
  match (table.get? r.tag).map Tag.layout with
  | some (.fixed length timestamp) => if r.payload.length = length then timestamp else none
  | _ => none

/-- The payload without the two bytes of the time stamp. -/
def unstamped (table : Tag.Table) (r : Record) : Bytes :=
  match r.timestampAt table with
  | some position => r.payload.take position ++ r.payload.drop (position + 2)
  | none => []

/-- Behind a space, if there are any bytes. -/
def spacedHex (bytes : Bytes) : String :=
  if bytes.isEmpty then "" else " " ++ Bytes.hex bytes

def tagName (table : Tag.Table) (r : Record) : String :=
  match table.get? r.tag with
  | some t => t.name
  | none => "tag " ++ Tag.code r.tag

/-- The four digits of a time stamp. -/
def ticksHex (ticks : UInt16) : String :=
  Bytes.hex [UInt8.ofNat (ticks.toNat / 256), UInt8.ofNat ticks.toNat]

/-- An ellipsis follows a text that was cut short. -/
def display (table : Tag.Table) (r : Record) : String :=
  let name := r.tagName table
  match r.kind, r.rawTicks with
  | .text terminated, _ =>
    name ++ " " ++ Text.quote (Text.decode r.payload) ++ if terminated then "" else "…"
  | .fixed, some ticks => name ++ " ts=0x" ++ ticksHex ticks ++ spacedHex (r.unstamped table)
  | .fixed, none => name ++ spacedHex r.payload

end Telemetry.Record
