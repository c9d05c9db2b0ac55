import Telemetry.Bytes

/-!
Numerals: the digits of a number, without leading zeros, and reading a decimal number that has a
limit. What is wrong with it first, from the left, is told.
-/

namespace Telemetry.Text

/-- The digits of `n`, the greatest first; bases up to 16 have digits. -/
def numeral (base n : Nat) : List Char :=
  if n < base ∨ base < 2 then [Bytes.hexDigit (n % 16)]
  else numeral base (n / base) ++ [Bytes.hexDigit (n % base)]
termination_by n
decreasing_by
  rename_i h
  rw [not_or] at h
  exact Nat.div_lt_self (by omega) (by omega)

def decimal (n : Nat) : List Char :=
  numeral 10 n

/-- Every digit is one. -/
theorem mem_numeral {base n : Nat} {c : Char} (hb : base ≤ 16) (h : c ∈ numeral base n) :
    ∃ k < 16, c = Bytes.hexDigit k := by
  fun_induction numeral base n with
  | case1 n hlt =>
    simp only [List.mem_singleton] at h
    exact ⟨n % 16, Nat.mod_lt _ (by omega), h⟩
  | case2 n hge ih =>
    rcases List.mem_append.1 h with h | h
    · exact ih h
    · simp only [List.mem_singleton] at h
      rw [not_or] at hge
      have := Nat.mod_lt n (show 0 < base by omega)
      exact ⟨n % base, by omega, h⟩

namespace Decimal

inductive Error where
  | empty
  | invalidDigit
  | tooLarge
  deriving DecidableEq, Repr

def Error.message : Error → String
  | empty => "cannot parse integer from empty string"
  | invalidDigit => "invalid digit found in string"
  | tooLarge => "number too large to fit in target type"

def digit? (c : Char) : Option Nat :=
  if '0' ≤ c ∧ c ≤ '9' then some (c.toNat - 48) else none

/-- Reads on after digits worth `value`. -/
def readDigits (limit value : Nat) : List Char → Except Error Nat
  | [] => .ok value
  | c :: rest =>
    match digit? c with
    | none => .error .invalidDigit
    | some d =>
      if value * 10 + d < limit then readDigits limit (value * 10 + d) rest else .error .tooLarge

/-- A number below `limit`. One plus sign may stand before the digits. -/
def readChars (limit : Nat) : List Char → Except Error Nat
  | [] => .error .empty
  | ['+'] => .error .invalidDigit
  | '+' :: digits => readDigits limit 0 digits
  | digits => readDigits limit 0 digits

def read (limit : Nat) (s : String) : Except Error Nat :=
  readChars limit s.toList

end Decimal

end Telemetry.Text
