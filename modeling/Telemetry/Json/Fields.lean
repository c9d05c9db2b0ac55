import Telemetry.Json.Double
import Telemetry.Text.Numeral

/-!
Reads values out of a tree. The fields of a structure stand in an object, in any order and among
others, or in an array in their own order.

Values that are set aside before it is known whether anyone wants them have to make sense by
themselves: texts of whole characters, numbers within the range of a double, and no more levels
than there is room for (`isReadable`).
-/

namespace Telemetry.Json

def text? : Json → Option String
  | string raw => (unescape raw).map String.ofList
  | _ => none

/-- A whole number below `limit`, written in digits alone. -/
def nat? (limit : Nat) : Json → Option Nat
  | number lexeme => (Text.Decimal.readDigits limit 0 lexeme).toOption
  | _ => none

def bool? : Json → Option Bool
  | bool b => some b
  | _ => none

def byte? (j : Json) : Option UInt8 :=
  (j.nat? 256).map UInt8.ofNat

def word16? (j : Json) : Option UInt16 :=
  (j.nat? 65536).map UInt16.ofNat

def word32? (j : Json) : Option Nat :=
  j.nat? UInt32.size

def word64? (j : Json) : Option Nat :=
  j.nat? UInt64.size

/-- Nothing, written as `null`, or a value. -/
def option? {α : Type} (read : Json → Option α) : Json → Option (Option α)
  | null => some none
  | j => (read j).map some

def list? {α : Type} (read : Json → Option α) : Json → Option (List α)
  | array items => items.mapM read
  | _ => none

/-- The fields of an object with their names; none if a name is no text. -/
def namedFields (fields : List (List Char × Json)) : Option (List (String × Json)) :=
  fields.mapM fun (key, value) => do return (String.ofList (← unescape key), value)

/-- The fields that were found, and whether they were found by name. -/
structure Fields where
  values : List (String × Json)
  named : Bool

/-- The fields with these names, each at most once. An array may end early but not late. -/
def fields? (names : List String) : Json → Option Fields
  | object fields => do
    let known := (← namedFields fields).filter (·.1 ∈ names)
    if (known.map (·.1)).Nodup then some ⟨known, true⟩ else none
  | array items => if items.length ≤ names.length then some ⟨names.zip items, false⟩ else none
  | _ => none

namespace Fields

variable {α : Type}

def get? (f : Fields) (name : String) : Option Json :=
  f.values.lookup name

def required (f : Fields) (name : String) (read : Json → Option α) : Option α :=
  f.get? name >>= read

def withDefault (f : Fields) (name : String) (default : α) (read : Json → Option α) : Option α :=
  match f.get? name with
  | some j => read j
  | none => some default

/-- A field that may be `null`; where fields are named it may also be missing. -/
def optional (f : Fields) (name : String) (read : Json → Option α) : Option (Option α) :=
  match f.get? name with
  | some j => option? read j
  | none => if f.named then some none else none

end Fields

/-- The name of a case, and what stands beside it if it is not a name alone. -/
def variant? : Json → Option (String × Option Json)
  | string raw => (unescape raw).map fun name => (String.ofList name, none)
  | object [(key, value)] => (unescape key).map fun name => (String.ofList name, some value)
  | _ => none

/-- What stands beside the name of a case without fields: nothing, or `null`. -/
def isUnit : Option Json → Bool
  | none => true
  | some null => true
  | some _ => false

/-- The fields of a case. -/
def variantFields? (names : List String) (content : Option Json) : Option Fields :=
  content >>= fields? names

/-! ## Values that are set aside -/

/-- The deepest nesting of arrays and objects. -/
def maxDepth : Nat := 127

mutual

def isReadable (room : Nat) : Json → Bool
  | null => true
  | bool _ => true
  | number lexeme => Double.isFiniteLexeme lexeme
  | string raw => (unescape raw).isSome
  | array items => 0 < room && areReadable (room - 1) items
  | object fields => 0 < room && areReadableFields (room - 1) fields

def areReadable (room : Nat) : List Json → Bool
  | [] => true
  | j :: rest => isReadable room j && areReadable room rest

def areReadableFields (room : Nat) : List (List Char × Json) → Bool
  | [] => true
  | f :: rest => isReadableField room f && areReadableFields room rest

def isReadableField (room : Nat) : List Char × Json → Bool
  | (key, value) => (unescape key).isSome && isReadable room value

end

end Telemetry.Json
