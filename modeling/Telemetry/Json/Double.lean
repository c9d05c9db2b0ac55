import Telemetry.Json.Parser
import Telemetry.Word

/-!
Whether a numeral is in the range of doubles. It is read as a word times a power of ten: digits
count as long as they fit the word, and those after them only by their number. The word, the power
and their product are each rounded to a double, so the last bit of a number may be off, and with it
the border of the range.
-/

namespace Telemetry.Json.Double

/-- The binary digits of a double's significand. -/
def precision : Nat := 53

/-- Doubles are below this. -/
def limit : Nat := Nat.pow 2 1024

/-- The greatest power of ten among the doubles. -/
def maxPower : Int := 308

/-- Rounds to a multiple of `unit`; a half goes to the even neighbour. -/
def roundTo (unit n : Nat) : Nat :=
  let below := n / unit
  let excess := 2 * (n % unit)
  if unit < excess ∨ unit = excess ∧ below % 2 = 1 then (below + 1) * unit else below * unit

/-- The nearest double to a natural number, however great. -/
def round (n : Nat) : Nat :=
  roundTo (Nat.pow 2 (n.log2 + 1 - precision)) n

theorem round_eq_self {n : Nat} (h : n < Nat.pow 2 precision) : round n = n := by
  have hexp : n.log2 + 1 - precision = 0 := by
    by_cases hn : n = 0
    · simp [hn, precision]
    · have := (Nat.log2_lt hn).2 h
      omega
  simp [round, roundTo, hexp, Nat.mod_one]

/-- Whether `word` times ten to the power `e` rounds to a double. -/
def isFinite (word : Nat) (e : Int) : Bool :=
  if word = 0 ∨ e < 0 then true
  else if maxPower < e then false
  else round (round word * round (Nat.pow 10 e.toNat)) < limit

def digitValue (c : Char) : Nat :=
  c.toNat - 48

/-- Appends digits to a word as long as it stays one; the digits from the first that does not fit
are left. -/
def absorb (word : Nat) : List Char → Nat × List Char
  | [] => (word, [])
  | c :: rest =>
    let next := word * 10 + digitValue c
    if next < Word.size then absorb next rest else (word, c :: rest)

/-- Reads digits without a limit. -/
def digitsValue (ds : List Char) : Nat :=
  ds.foldl (fun n c => n * 10 + digitValue c) 0

/-- The power of ten that the end of a numeral tells. -/
def exponentValue : List Char → Int
  | _ :: '-' :: ds => -(digitsValue ds : Int)
  | _ :: '+' :: ds => digitsValue ds
  | _ :: ds => digitsValue ds
  | [] => 0

/-- Whether the numeral with these parts is in the range. -/
def isFiniteNumeral (whole fraction exponent : List Char) : Bool :=
  let (word, beyond) := absorb 0 whole
  let (word, ignored) := absorb word fraction
  let places : Int := fraction.length - ignored.length
  isFinite word (beyond.length - places + exponentValue exponent)

def isFiniteLexeme (lexeme : List Char) : Bool :=
  let (whole, rest) := Parser.digits (Parser.minus lexeme).2
  let (fraction, exponent) := match rest with
    | '.' :: rest => Parser.digits rest
    | _ => ([], rest)
  isFiniteNumeral whole fraction exponent

end Telemetry.Json.Double
