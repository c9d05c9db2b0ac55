import Telemetry.Bytes

/-!
Tags: the byte that opens a record says how the record goes on.
-/

namespace Telemetry

namespace Tag

/-- How the bytes after a tag are laid out. -/
inductive Layout where
  /-- `length` bytes, which hold the 16-bit time stamp at `timestamp` if there is one. -/
  | fixed (length : Nat) (timestamp : Option Nat)
  /-- Pairs of the tag and a character, closed by the tag and a zero. -/
  | text
  deriving DecidableEq, Repr

end Tag

structure Tag where
  byte : UInt8
  name : String
  layout : Tag.Layout
  deriving DecidableEq, Repr

namespace Tag

def fixed (byte : UInt8) (name : String) (length : Nat) : Tag :=
  ⟨byte, name, .fixed length none⟩

def timed (byte : UInt8) (name : String) (length timestamp : Nat) : Tag :=
  ⟨byte, name, .fixed length (some timestamp)⟩

def text (byte : UInt8) (name : String) : Tag :=
  ⟨byte, name, .text⟩

def isTimed (t : Tag) : Bool :=
  match t.layout with
  | .fixed _ (some _) => true
  | _ => false

/-- A tag byte as it is shown in messages. -/
def code (byte : UInt8) : String :=
  "0x" ++ String.ofList (Bytes.hexOfByte byte)

/-- The longest fixed payload. -/
def maxLength : Nat := 65535

namespace Layout

/-- The payload is no longer than allowed and the time stamp lies inside it. -/
def Valid : Layout → Prop
  | fixed length none => length ≤ maxLength
  | fixed length (some position) => length ≤ maxLength ∧ position + 2 ≤ length
  | text => True

instance (l : Layout) : Decidable l.Valid :=
  match l with
  | fixed _ none => inferInstanceAs (Decidable (_ ≤ _))
  | fixed _ (some _) => inferInstanceAs (Decidable (_ ∧ _))
  | text => inferInstanceAs (Decidable True)

end Layout

end Tag

end Telemetry
