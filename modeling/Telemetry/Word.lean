/-!
Arithmetic on 64-bit words. Positions, ordinals and times are natural numbers below `2 ^ 64`; an
operation whose result is no such number stops with the cause.
-/

namespace Telemetry

/-- What made a result leave its range. -/
inductive Overflow where
  | addition
  | subtraction
  | multiplication
  | duration
  deriving DecidableEq, Repr

namespace Overflow

def message : Overflow → String
  | addition => "attempt to add with overflow"
  | subtraction => "attempt to subtract with overflow"
  | multiplication => "attempt to multiply with overflow"
  | duration => "overflow when adding durations"

end Overflow

namespace Word

/-- The number of values of a word. -/
abbrev size : Nat := UInt64.size

def add (a b : Nat) : Except Overflow Nat :=
  if a + b < size then .ok (a + b) else .error .addition

def sub (a b : Nat) : Except Overflow Nat :=
  if b ≤ a then .ok (a - b) else .error .subtraction

def mul (a b : Nat) : Except Overflow Nat :=
  if a * b < size then .ok (a * b) else .error .multiplication

/-- The sum, or the greatest word. -/
def addSat (a b : Nat) : Nat :=
  min (a + b) (size - 1)

theorem add_eq_ok_iff {a b c : Nat} : add a b = .ok c ↔ a + b < size ∧ c = a + b := by
  unfold add
  split <;> grind

theorem sub_eq_ok_iff {a b c : Nat} : sub a b = .ok c ↔ b ≤ a ∧ c = a - b := by
  unfold sub
  split <;> grind

theorem mul_eq_ok_iff {a b c : Nat} : mul a b = .ok c ↔ a * b < size ∧ c = a * b := by
  unfold mul
  split <;> grind

end Word

end Telemetry
