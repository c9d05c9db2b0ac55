import Telemetry.Random
import Telemetry.Record
import Telemetry.Tag.Table

/-!
Plausible streams for demonstration: time stamps grow by varying steps, and now and then two
neighbours are exchanged as if an interrupt had been late.
-/

namespace Telemetry.Synthesis

/-- What is written at random: a record, or two whose time stamps are in the wrong order. -/
inductive Item where
  | fixed (tag : UInt8) (payload : Bytes)
  | text (tag : UInt8) (message : String)
  | inverted (tag : UInt8) (later earlier : Bytes)
  deriving DecidableEq, Repr

namespace Item

def encode : Item → Bytes
  | fixed tag payload => Record.Writer.untimed tag payload
  | text tag message => Record.Writer.text tag message
  | inverted tag later earlier =>
    Record.Writer.untimed tag later ++ Record.Writer.untimed tag earlier

/-- The number of records. -/
def size : Item → Nat
  | inverted .. => 2
  | _ => 1

end Item

/-- What texts say. -/
def messages : List String :=
  ["boot", "sd mounted", "gps fix", "low battery", "sample rate 1kHz", "sync"]

variable {γ : Type} [RandomSource γ]

/-- Random bytes with a time stamp at `position`. -/
def stampedPayload (length position : Nat) (ticks : UInt16) (g : γ) : Bytes × γ :=
  let (bytes, g) := RandomSource.bytes g length
  (bytes.take position ++ Bytes.ofWord16 ticks ++ bytes.drop (position + 2), g)

/-- One of a list, or `default` if the list is empty. -/
def choose {α : Type} (default : α) (items : List α) (g : γ) : α × γ :=
  let (k, g) := RandomSource.below g items.length
  ((items[k]?).getD default, g)

/-- A record with a time stamp, or two of them if there is `room`. -/
def stampedItem (tag : UInt8) (length position : Nat) (room : Bool) (ticks : UInt16) (g : γ) :
    Item × UInt16 × γ :=
  let (step, g) := RandomSource.between g 1 2000
  let ticks := ticks + UInt16.ofNat step
  let (inverted, g) := if room then RandomSource.oneInFifty g else (false, g)
  if inverted then
    let (ahead, g) := RandomSource.between g 1 8
    let first := ticks + UInt16.ofNat ahead
    let (later, g) := stampedPayload length position first g
    let (earlier, g) := stampedPayload length position ticks g
    (.inverted tag later earlier, first, g)
  else
    let (payload, g) := stampedPayload length position ticks g
    (.fixed tag payload, ticks, g)

/-- The next item; at most two records are written, and one if there is no `room`. -/
def item (first : Tag) (tags : List Tag) (room : Bool) (ticks : UInt16) (g : γ) :
    Item × UInt16 × γ :=
  let (tag, g) := choose first tags g
  match tag.layout with
  | .fixed length (some position) => stampedItem tag.byte length position room ticks g
  | .fixed length none =>
    let (payload, g) := RandomSource.bytes g length
    (.fixed tag.byte payload, ticks, g)
  | .text =>
    let (message, g) := choose "" messages g
    (.text tag.byte message, ticks, g)

/-- Items of `count` records in all, behind those already written, which are in reverse. -/
def itemsAfter (written : List Item) (first : Tag) (tags : List Tag) (count : Nat) (ticks : UInt16)
    (g : γ) : List Item × γ :=
  match count with
  | 0 => (written.reverse, g)
  | n + 1 =>
    let (i, ticks, g) := item first tags (0 < n) ticks g
    itemsAfter (i :: written) first tags (n + 1 - i.size) ticks g
termination_by count
decreasing_by
  rename Item => i
  cases i <;> simp only [Item.size] <;> omega

/-- Items of `count` records with tags of the table; none if the table is empty. -/
def items (table : Tag.Table) (count : Nat) (g : γ) : List Item × γ :=
  match table.toList with
  | [] => ([], g)
  | first :: rest =>
    let (ticks, g) := RandomSource.word16 g
    itemsAfter [] first (first :: rest) count ticks g

/-- The bytes of a stream of `count` records. -/
def generate (table : Tag.Table) (count : Nat) (g : γ) : Bytes × γ :=
  let (items, g) := items table count g
  (items.flatMap Item.encode, g)

end Telemetry.Synthesis
