import Telemetry.Word
import Telemetry.Bytes

/-!
Records of a stream, the bytes that carry them, and the pieces of a stream as a recorder writes them.
-/

namespace Telemetry

namespace Record

inductive Kind where
  | fixed
  /-- A text that is not `terminated` was cut short by a record of another tag or by its length. -/
  | text (terminated : Bool)
  deriving DecidableEq, Repr

/-- The longest length that is told exactly. -/
def maxLength : Nat := UInt32.size - 1

/-- The characters of a text, each behind the tag. -/
def pairs (tag : UInt8) (chars : Bytes) : Bytes :=
  chars.flatMap fun c => [tag, c]

end Record

structure Record where
  /-- The place in the stream, counted from zero. -/
  ordinal : Nat
  tag : UInt8
  kind : Record.Kind
  /-- The bytes after the tag; of a text, its characters without the closing zero. -/
  payload : Bytes
  /-- Where the first byte of the record stands in the stream. -/
  offset : Nat
  /-- The number of bytes that the record takes in the stream. -/
  length : Nat
  /-- The time stamp, in ticks of a 16-bit counter. -/
  rawTicks : Option UInt16
  deriving DecidableEq, Repr

namespace Record

/-- The position right after the record. -/
def endOffset (r : Record) : Except Overflow Nat :=
  Word.add r.offset r.length

def isTimed (r : Record) : Bool :=
  r.rawTicks.isSome

/-- The bytes of the record in a stream. -/
def encode (r : Record) : Bytes :=
  match r.kind with
  | .fixed => r.tag :: r.payload
  | .text terminated => pairs r.tag r.payload ++ if terminated then [r.tag, 0] else []

/-! ## Writing -/

namespace Writer

/-- A fixed record that starts with its time stamp. -/
def timed (tag : UInt8) (ticks : UInt16) (rest : Bytes) : Bytes :=
  tag :: (Bytes.ofWord16 ticks ++ rest)

def untimed (tag : UInt8) (payload : Bytes) : Bytes :=
  tag :: payload

/-- The characters that a text can carry: all but the zero that would close it. -/
def textBytes (s : String) : Bytes :=
  (Bytes.ofText s).filter (· != 0)

/-- A terminated text. -/
def text (tag : UInt8) (s : String) : Bytes :=
  pairs tag (textBytes s) ++ [tag, 0]

end Writer

end Record

end Telemetry
