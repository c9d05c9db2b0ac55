import Mathlib.Data.List.TakeWhile
import Mathlib.Tactic.Common
import Telemetry.Json.Double
import Telemetry.Text.Numeral

/-!
# Numerals

The words that are read as numbers are those that spell one, with a plus sign or without
(`read_eq_ok_iff`), and the digits of a number spell it (`spelled_decimal`).  They are also a number
in JSON, up to a character that may follow a value there (`number_decimal`), since none of them is
anything but a digit and the first is a zero only of zero; and a word is in the range of doubles
(`isFiniteLexeme_decimal`).
-/

namespace Telemetry

namespace Text

namespace Decimal

/-- The digits of a number are those of its tenth and one more. -/
theorem decimal_induction {motive : Nat → List Char → Prop}
    (single : ∀ d < 10, motive d [Bytes.hexDigit d])
    (append : ∀ n d, 0 < n → d < 10 → motive n (decimal n) →
      motive (n * 10 + d) (decimal n ++ [Bytes.hexDigit d])) (n : Nat) : motive n (decimal n) := by
  induction n using Nat.strongRecOn with
  | _ n ih =>
    rw [decimal, numeral]
    split_ifs with hsmall
    · rw [Nat.mod_eq_of_lt (by omega)]
      exact single n (by omega)
    · have hsum : n / 10 * 10 + n % 10 = n := by omega
      have happend := append (n / 10) (n % 10) (by omega) (Nat.mod_lt n (by decide))
        (ih (n / 10) (by omega))
      rw [hsum] at happend
      exact happend

theorem digit?_hexDigit : ∀ {n : Nat}, n < 10 → digit? (Bytes.hexDigit n) = some n := by
  decide

/-- Digits that are worth a number. -/
inductive Spelled : List Char → Nat → Prop where
  | digit {d : Nat} (hd : d < 10) : Spelled [Bytes.hexDigit d] d
  | append {digits : List Char} {n d : Nat} (h : Spelled digits n) (hd : d < 10) :
    Spelled (digits ++ [Bytes.hexDigit d]) (n * 10 + d)

theorem spelled_decimal (n : Nat) : Spelled (decimal n) n := by
  induction n using decimal_induction with
  | single d hd => exact .digit hd
  | append n d _ hd ih => exact .append ih hd

theorem readDigits_append {limit n : Nat} {digits : List Char} (hs : Spelled digits n)
    (h : n < limit) (rest : List Char) :
    readDigits limit 0 (digits ++ rest) = readDigits limit n rest := by
  induction hs generalizing rest with
  | digit hd =>
    simp only [List.cons_append, List.nil_append, readDigits, digit?_hexDigit hd,
      Nat.zero_mul, Nat.zero_add, if_pos h]
  | append _ hd ih =>
    rw [List.append_assoc, ih (by omega)]
    simp only [List.cons_append, List.nil_append, readDigits, digit?_hexDigit hd, if_pos h]

theorem readDigits_decimal {limit n : Nat} (h : n < limit) (rest : List Char) :
    readDigits limit 0 (decimal n ++ rest) = readDigits limit n rest :=
  readDigits_append (spelled_decimal n) h rest

theorem isDigit_of_mem_decimal {n : Nat} {c : Char} (h : c ∈ decimal n) :
    Json.Parser.isDigit c = true := by
  have hdigit : ∀ d < 10, Json.Parser.isDigit (Bytes.hexDigit d) = true := by decide
  induction n using decimal_induction with
  | single d hd =>
    rw [List.mem_singleton.1 h]
    exact hdigit d hd
  | append n d _ hd ih =>
    rcases List.mem_append.1 h with h | h
    · exact ih h
    · rw [List.mem_singleton.1 h]
      exact hdigit d hd

/-- A number starts with a digit, and only zero with a zero. -/
theorem decimal_eq_cons (n : Nat) : ∃ c cs, decimal n = c :: cs ∧ Json.Parser.isDigit c = true ∧
    (c = '0' → n = 0 ∧ cs = []) := by
  have hdigit : ∀ d < 10, Json.Parser.isDigit (Bytes.hexDigit d) = true := by decide
  have hzero : ∀ d < 10, Bytes.hexDigit d = '0' → d = 0 := by decide
  induction n using decimal_induction with
  | single d hd => exact ⟨_, [], rfl, hdigit d hd, fun h => ⟨hzero d hd h, rfl⟩⟩
  | append n d hn _ ih =>
    obtain ⟨c, cs, hcs, hc, hlead⟩ := ih
    refine ⟨c, cs ++ [Bytes.hexDigit d], by rw [hcs]; rfl, hc, fun h => ?_⟩
    exact absurd (hlead h).1 (by omega)

theorem Spelled.ne_nil {digits : List Char} {n : Nat} (h : Spelled digits n) : digits ≠ [] := by
  cases h <;> simp

theorem Spelled.digit?_of_mem {digits : List Char} {n : Nat} (h : Spelled digits n) {c : Char}
    (hc : c ∈ digits) : ∃ d, digit? c = some d := by
  induction h with
  | @digit d hd =>
    rw [List.mem_singleton.1 hc]
    exact ⟨d, digit?_hexDigit hd⟩
  | @append digits n d _ hd ih =>
    rcases List.mem_append.1 hc with hc | hc
    · exact ih hc
    · rw [List.mem_singleton.1 hc]
      exact ⟨d, digit?_hexDigit hd⟩

theorem hexDigit_of_digit? {c : Char} {d : Nat} (h : digit? c = some d) :
    d < 10 ∧ c = Bytes.hexDigit d := by
  unfold digit? at h
  split at h
  · next hc =>
    obtain ⟨hlow, hhigh⟩ := hc
    have hlow' : 48 ≤ c.toNat := hlow
    have hhigh' : c.toNat ≤ 57 := hhigh
    obtain rfl : c.toNat - 48 = d := Option.some.inj h
    have hsum : 48 + (c.toNat - 48) = c.toNat := by omega
    have hlt : c.toNat - 48 < 10 := by omega
    refine ⟨hlt, ?_⟩
    rw [Bytes.hexDigit, if_pos hlt, hsum, Char.ofNat_toNat]
  · cases h

/-- What is read after some digits goes on from their number, and stays within the limit. -/
theorem spelled_of_readDigits {limit m n : Nat} {digits rest : List Char} (hs : Spelled digits m)
    (hm : m < limit) (h : readDigits limit m rest = .ok n) :
    Spelled (digits ++ rest) n ∧ n < limit := by
  induction rest generalizing digits m with
  | nil =>
    obtain rfl : m = n := Except.ok.inj h
    rw [List.append_nil]
    exact ⟨hs, hm⟩
  | cons c rest ih =>
    rw [readDigits] at h
    rcases hc : digit? c with _ | d
    · rw [hc] at h
      cases h
    · rw [hc] at h
      dsimp only at h
      split at h
      · next hlt =>
        obtain ⟨hd, rfl⟩ := hexDigit_of_digit? hc
        rw [List.append_cons]
        exact ih (.append hs hd) hlt h
      · cases h

theorem readDigits_eq_ok_iff {limit n : Nat} {digits : List Char} (hne : digits ≠ []) :
    readDigits limit 0 digits = .ok n ↔ Spelled digits n ∧ n < limit := by
  constructor
  · intro h
    obtain ⟨c, rest, rfl⟩ := List.exists_cons_of_ne_nil hne
    rw [readDigits] at h
    rcases hc : digit? c with _ | d
    · rw [hc] at h
      cases h
    · rw [hc] at h
      dsimp only at h
      split at h
      · next hlt =>
        obtain ⟨hd, rfl⟩ := hexDigit_of_digit? hc
        rw [Nat.zero_mul, Nat.zero_add] at h hlt
        exact spelled_of_readDigits (.digit hd) hlt h
      · cases h
  · rintro ⟨hs, hn⟩
    have hread := readDigits_append hs hn []
    rwa [List.append_nil] at hread

/-- The word spells the number: digits, before which one plus sign may stand. -/
def Spells (word : String) (n : Nat) : Prop :=
  ∃ digits, Spelled digits n ∧ (word.toList = digits ∨ word.toList = '+' :: digits)

theorem spells_decimal (n : Nat) : Spells (String.ofList (decimal n)) n :=
  ⟨decimal n, spelled_decimal n, .inl String.toList_ofList⟩

/-- The words that are read as numbers are those that spell one below the limit. -/
theorem read_eq_ok_iff {limit n : Nat} {word : String} :
    read limit word = .ok n ↔ Spells word n ∧ n < limit := by
  have hsign : ∀ {digits}, Spelled digits n → '+' ∉ digits := by
    intro digits hs hmem
    obtain ⟨d, hd⟩ := hs.digit?_of_mem hmem
    cases hd
  unfold read readChars Spells
  split
  · next hword =>
    refine iff_of_false (fun h => by cases h) ?_
    rintro ⟨⟨digits, hs, h | h⟩, -⟩
    · exact hs.ne_nil (h.symm.trans hword)
    · rw [hword] at h
      cases h
  · next hword =>
    refine iff_of_false (fun h => by cases h) ?_
    rintro ⟨⟨digits, hs, h | h⟩, -⟩
    · exact hsign hs (by simp [← h, hword])
    · rw [hword] at h
      exact hs.ne_nil (List.cons.inj h).2.symm
  · next digits hne hword =>
    rw [readDigits_eq_ok_iff (by rintro rfl; exact hne rfl)]
    refine and_congr_left fun _ => ⟨fun hs => ⟨digits, hs, .inr hword⟩, ?_⟩
    rintro ⟨digits', hs, h | h⟩
    · exact absurd (by simp [← h, hword]) (hsign hs)
    · rw [hword] at h
      rwa [(List.cons.inj h).2]
  · next hne _ hplus =>
    rw [readDigits_eq_ok_iff hne]
    refine and_congr_left fun _ => ⟨fun hs => ⟨_, hs, .inl rfl⟩, ?_⟩
    rintro ⟨digits', hs, h | h⟩
    · rwa [h]
    · exact absurd h (hplus digits')

theorem read_decimal {limit n : Nat} (h : n < limit) :
    read limit (String.ofList (decimal n)) = .ok n :=
  read_eq_ok_iff.2 ⟨spells_decimal n, h⟩

end Decimal

end Text

namespace Json

open Text (decimal)
open Text.Decimal (decimal_induction isDigit_of_mem_decimal decimal_eq_cons)

namespace Parser

/-- What may follow a value: the end of the text, or of an entry of an array or an object. -/
inductive Ends : List Char → Prop where
  | nil : Ends []
  | comma (rest : List Char) : Ends (',' :: rest)
  | bracket (rest : List Char) : Ends (']' :: rest)
  | brace (rest : List Char) : Ends ('\x7d' :: rest)

theorem digits_ends {rest : List Char} (h : Ends rest) : digits rest = ([], rest) := by
  cases h <;> rfl

theorem fraction_ends {rest : List Char} (h : Ends rest) : fraction rest = some ([], rest) := by
  cases h <;> rfl

theorem exponent_ends {rest : List Char} (h : Ends rest) : exponent rest = some ([], rest) := by
  cases h <;> rfl

theorem digits_append {ds rest : List Char} (hds : ∀ c ∈ ds, isDigit c = true) (h : Ends rest) :
    digits (ds ++ rest) = (ds, rest) := by
  obtain ⟨htake, hdrop⟩ := Prod.mk.inj (digits_ends h)
  rw [digits, List.takeWhile_append_of_pos hds, List.dropWhile_append_of_pos hds, htake, hdrop,
    List.append_nil]

theorem minus_decimal (n : Nat) (rest : List Char) :
    minus (decimal n ++ rest) = ([], decimal n ++ rest) := by
  obtain ⟨c, cs, hcs, hdigit, -⟩ := decimal_eq_cons n
  rw [hcs, List.cons_append, minus]
  rintro rest' heq
  cases heq
  exact absurd hdigit (by decide)

theorem whole_decimal (n : Nat) {rest : List Char} (h : Ends rest) :
    whole (decimal n ++ rest) = some (decimal n, rest) := by
  have hdigits := digits_append (fun _ => isDigit_of_mem_decimal (n := n)) h
  obtain ⟨c, cs, hcs, -, hzero⟩ := decimal_eq_cons n
  have hfound : digits1 (decimal n ++ rest) = some (decimal n, rest) := by
    rw [digits1, hdigits, hcs]
  rw [whole, hfound, hcs]
  split
  · next heq =>
    cases heq
    cases (hzero rfl).2
  · rfl

theorem number_decimal (n : Nat) {rest : List Char} (h : Ends rest) :
    number (decimal n ++ rest) = some (decimal n, rest) := by
  simp only [number, minus_decimal, whole_decimal n h, fraction_ends h, exponent_ends h,
    Option.bind_eq_bind, Option.bind_some, List.nil_append, List.append_nil, Option.pure_def]

end Parser

namespace Double

theorem digitValue_hexDigit : ∀ d < 10, digitValue (Bytes.hexDigit d) = d := by
  decide

/-- Every digit of a word counts. -/
theorem absorb_decimal {n : Nat} (h : n < Word.size) (rest : List Char) :
    absorb 0 (decimal n ++ rest) = absorb n rest := by
  induction n using decimal_induction generalizing rest with
  | single d hd =>
    simp only [List.cons_append, List.nil_append, absorb, digitValue_hexDigit d hd, Nat.zero_mul,
      Nat.zero_add, if_pos h]
  | append n d _ hd ih =>
    rw [List.append_assoc, ih (by omega)]
    simp only [List.cons_append, List.nil_append, absorb, digitValue_hexDigit d hd, if_pos h]

theorem roundTo_le (unit n : Nat) : roundTo unit n ≤ n + unit := by
  have hbelow : n / unit * unit ≤ n := Nat.div_mul_le_self n unit
  rw [roundTo]
  split_ifs
  · rw [Nat.add_mul, Nat.one_mul]
    omega
  · omega

/-- Rounding at most doubles a number, since the unit is no greater than the number. -/
theorem round_le (n : Nat) : round n ≤ 2 * n := by
  rcases Nat.eq_zero_or_pos n with rfl | hpos
  · decide
  · have hunit : 2 ^ (n.log2 + 1 - precision) ≤ n :=
      (Nat.pow_le_pow_right (by decide) (by rw [precision]; omega)).trans
        (Nat.log2_self_le (by omega))
    have hround := roundTo_le (2 ^ (n.log2 + 1 - precision)) n
    exact hround.trans (by omega)

theorem size_lt_limit : 4 * Word.size < limit := by
  have hpow : ∀ m, 66 < m → 2 ^ 66 < Nat.pow 2 m := fun _ => Nat.pow_lt_pow_right Nat.one_lt_two
  unfold limit
  -- The power is too great to be written out.
  generalize hm : 1024 = m
  exact hpow m (by omega)

theorem isFinite_word {n : Nat} (h : n < Word.size) : isFinite n 0 = true := by
  have hpower : round (Nat.pow 10 (0 : Int).toNat) = 1 := round_eq_self (by decide)
  have hword := round_le n
  have hproduct := round_le (round n)
  have hlimit := size_lt_limit
  rw [isFinite, hpower, Nat.mul_one, if_neg (by decide : ¬ maxPower < 0)]
  split_ifs
  · rfl
  · rw [decide_eq_true_eq]
    exact lt_of_le_of_lt hproduct (by omega)

theorem isFiniteLexeme_decimal {n : Nat} (h : n < Word.size) :
    isFiniteLexeme (decimal n) = true := by
  have hminus := Parser.minus_decimal n []
  have hdigits := Parser.digits_append (fun _ => isDigit_of_mem_decimal (n := n)) Parser.Ends.nil
  have habsorb := absorb_decimal h []
  rw [List.append_nil] at hminus hdigits habsorb
  simp only [isFiniteLexeme, hminus, hdigits, isFiniteNumeral, habsorb, absorb]
  exact isFinite_word h

end Double

end Json

end Telemetry
