import Telemetry.Text.Numeral
import Telemetry.Text.Utf8

/-!
Queries: numbers that a request gives by name. Names and values are percent-encoded, and a plus
stands for a space.
-/

namespace Telemetry.Service.Query

/-- The byte that two hexadecimal digits tell. -/
def escapedByte? (hi lo : UInt8) : Option UInt8 := do
  let hi ← Bytes.hexValue? (Char.ofNat hi.toNat)
  let lo ← Bytes.hexValue? (Char.ofNat lo.toNat)
  return UInt8.ofNat (16 * hi + lo)

/-- Replaces each well-formed percent escape by its byte, unless that is to be kept as it is. -/
def percentDecode (keep : UInt8 → Bool) : Bytes → Bytes
  | [] => []
  | c :: hi :: lo :: tail =>
    match if c == 0x25 then escapedByte? hi lo else none with
    | some b =>
      if keep b then c :: hi :: lo :: percentDecode keep tail else b :: percentDecode keep tail
    | none => c :: percentDecode keep (hi :: lo :: tail)
  | c :: rest => c :: percentDecode keep rest

/-- The text of a name or a value. -/
def decodeText (bytes : Bytes) : String :=
  let spaced := bytes.map fun b => if b == 0x2B then 0x20 else b
  Text.decode (percentDecode (fun _ => false) spaced)

/-- The names and values of a query. -/
def pairs (query : String) : List (String × String) :=
  let parts := ((Bytes.ofText query).splitOn 0x26).filter (!·.isEmpty)
  parts.map fun part =>
    let name := part.takeWhile (· != 0x3D)
    (decodeText name, decodeText (part.drop (name.length + 1)))

inductive Error where
  | missing (name : String)
  | duplicate (name : String)
  | number (e : Text.Decimal.Error)
  deriving DecidableEq, Repr

/-- A name as it is quoted in messages. -/
private def ticked (name : String) : String :=
  "\x60" ++ name ++ "\x60"

def Error.message : Error → String
  | missing name => "Query deserialize error: missing field " ++ ticked name
  | duplicate name => "Query deserialize error: duplicate field " ++ ticked name
  | number e => "Query deserialize error: " ++ e.message

/-- Takes one pair in; names that are not asked for are passed over. -/
def step (names : List String) (found : List (String × Nat)) (pair : String × String) :
    Except Error (List (String × Nat)) :=
  let (name, value) := pair
  if name ∉ names then .ok found
  else if (found.lookup name).isSome then .error (.duplicate name)
  else match Text.Decimal.read UInt64.size value with
    | .error e => .error (.number e)
    | .ok n => .ok ((name, n) :: found)

/-- The numbers of these names. What is wrong first, from the left, is told. -/
def numbers (names : List String) (query : String) : Except Error (List (String × Nat)) :=
  (pairs query).foldlM (step names) []

def required (found : List (String × Nat)) (name : String) : Except Error Nat :=
  match found.lookup name with
  | some n => .ok n
  | none => .error (.missing name)

end Telemetry.Service.Query
