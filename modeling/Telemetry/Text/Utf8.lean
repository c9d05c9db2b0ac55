import Telemetry.Bytes

/-!
Text from bytes that may be no UTF-8: what is no character reads as the replacement character.
-/

namespace Telemetry.Text

def replacement : Char := '\uFFFD'

/-- A byte after the first of a character. -/
def isTrailing (b : UInt8) : Bool :=
  0x80 ≤ b && b ≤ 0xBF

/-- Which second bytes may follow the first byte of a character of three bytes. -/
def isSecondOfThree (first b : UInt8) : Bool :=
  if first == 0xE0 then 0xA0 ≤ b && b ≤ 0xBF
  else if first == 0xED then 0x80 ≤ b && b ≤ 0x9F
  else isTrailing b

/-- Which second bytes may follow the first byte of a character of four bytes. -/
def isSecondOfFour (first b : UInt8) : Bool :=
  if first == 0xF0 then 0x90 ≤ b && b ≤ 0xBF
  else if first == 0xF4 then 0x80 ≤ b && b ≤ 0x8F
  else isTrailing b

/-- Adds six bits. -/
def shiftIn (code : Nat) (b : UInt8) : Nat :=
  code * 64 + b.toNat % 64

/-- What is left of a character whose code so far is `code`: `count` trailing bytes. A byte that is
none of them is not consumed. -/
def takeTrailing (code count : Nat) (bytes : Bytes) : Char × Bytes :=
  match count, bytes with
  | 0, rest => (Char.ofNat code, rest)
  | _ + 1, [] => (replacement, [])
  | n + 1, b :: rest =>
    if isTrailing b then takeTrailing (shiftIn code b) n rest else (replacement, b :: rest)

/-- A character whose second byte has to satisfy `second`, with `count` bytes after that one. -/
def takeSecond (second : UInt8 → Bool) (code count : Nat) (bytes : Bytes) : Char × Bytes :=
  match bytes with
  | [] => (replacement, [])
  | b :: rest =>
    if second b then takeTrailing (shiftIn code b) count rest else (replacement, b :: rest)

/-- The character that begins with `first`, or a replacement for as much of one as there is. -/
def takeChar (first : UInt8) (rest : Bytes) : Char × Bytes :=
  if first < 0x80 then (Char.ofNat first.toNat, rest)
  else if 0xC2 ≤ first && first ≤ 0xDF then takeSecond isTrailing (first.toNat % 32) 0 rest
  else if 0xE0 ≤ first && first ≤ 0xEF then
    takeSecond (isSecondOfThree first) (first.toNat % 16) 1 rest
  else if 0xF0 ≤ first && first ≤ 0xF4 then
    takeSecond (isSecondOfFour first) (first.toNat % 8) 2 rest
  else (replacement, rest)

theorem length_takeTrailing (code count : Nat) (bytes : Bytes) :
    (takeTrailing code count bytes).2.length ≤ bytes.length := by
  induction bytes generalizing code count with
  | nil => cases count <;> simp [takeTrailing]
  | cons b rest ih =>
    cases count with
    | zero => simp [takeTrailing]
    | succ n =>
      unfold takeTrailing
      split
      · exact Nat.le_succ_of_le (ih _ _)
      · simp

theorem length_takeSecond (second : UInt8 → Bool) (code count : Nat) (bytes : Bytes) :
    (takeSecond second code count bytes).2.length ≤ bytes.length := by
  unfold takeSecond
  split
  · simp
  · split
    · exact Nat.le_succ_of_le (length_takeTrailing _ _ _)
    · simp

theorem length_takeChar (first : UInt8) (rest : Bytes) :
    (takeChar first rest).2.length ≤ rest.length := by
  unfold takeChar
  repeat' split
  · simp
  · exact length_takeSecond _ _ _ _
  · exact length_takeSecond _ _ _ _
  · exact length_takeSecond _ _ _ _
  · simp

def decodeChars : Bytes → List Char
  | [] => []
  | first :: rest =>
    let next := takeChar first rest
    next.1 :: decodeChars next.2
termination_by bytes => bytes.length
decreasing_by exact Nat.lt_succ_of_le (length_takeChar first rest)

def decode (bytes : Bytes) : String :=
  String.ofList (decodeChars bytes)

/-- The text of bytes that are UTF-8 throughout. -/
def decodeStrict? (bytes : Bytes) : Option String :=
  String.fromUTF8? ⟨bytes.toArray⟩

end Telemetry.Text
