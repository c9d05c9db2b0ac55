import Mathlib.Tactic.Common
import Telemetry.Json.Parser
import Telemetry.Proofs.Numerals

/-!
# The text of a tree

A tree whose names and texts are escaped and whose numbers are whole (`Json.Plain`) is read back
from its text as it was (`parse_print`): an escaped text is read to its closing quote and no further
(`Parser.stringRest_escape`) and stands for the text that was escaped (`unescape_escape`), a number
ends where its digits do, and every entry ends at a comma or a bracket.
-/

namespace Telemetry.Json

/-! ## Escaped texts -/

theorem hex4_hexOfByte : ∀ n < 0x20, ∃ h l, Bytes.hexOfByte (UInt8.ofNat n) = [h, l] ∧
    unescape.hex4 '0' '0' h l = some n := by
  have hdigits : ∀ n < 0x20, unescape.hex4 '0' '0' (Bytes.hexDigit (n / 16))
      (Bytes.hexDigit (n % 16)) = some n := by
    decide +kernel
  intro n hn
  have hn' : (UInt8.ofNat n).toNat = n := by
    rw [UInt8.toNat_ofNat']
    omega
  refine ⟨_, _, rfl, ?_⟩
  rw [hn']
  exact hdigits n hn

/-- How a character can be written. -/
inductive Escaped (c : Char) : List Char → Prop where
  | simple {e : Char} (h : unescape.simpleEscape e = some c) : Escaped c ['\\', e]
  | unit {h l : Char} (hlt : c.toNat < 0x20) (hunit : unescape.hex4 '0' '0' h l = some c.toNat) :
    Escaped c ['\\', 'u', '0', '0', h, l]
  | itself (hbackslash : c ≠ '\\') (hquote : c ≠ '"') (hle : 0x20 ≤ c.toNat) : Escaped c [c]

theorem escaped_escapeChar (c : Char) : Escaped c (escapeChar c) := by
  unfold escapeChar
  split
  case h_8 hquote hbackslash _ _ _ _ _ =>
    split_ifs with hsmall
    · obtain ⟨h, l, hbytes, hunit⟩ := hex4_hexOfByte c.toNat hsmall
      rw [hbytes]
      exact .unit hsmall hunit
    · exact .itself hbackslash hquote (Nat.le_of_not_lt hsmall)
  all_goals exact .simple rfl

theorem unescape_simpleEscape {e c : Char} (h : unescape.simpleEscape e = some c)
    (rest : List Char) : unescape ('\\' :: e :: rest) = (unescape rest).map (c :: ·) := by
  rw [unescape, h]
  · cases unescape rest <;> rfl
  · rintro a b c d rest' rfl rfl
    cases h

theorem unescape_of_ne {c : Char} (h : c ≠ '\\') (rest : List Char) :
    unescape (c :: rest) = (unescape rest).map (c :: ·) := by
  rw [unescape]
  · cases unescape rest <;> rfl
  · rintro a b c d rest' rfl
    exact absurd rfl h
  · rintro e rest' rfl
    exact absurd rfl h

theorem Escaped.unescape {c : Char} {raw : List Char} (h : Escaped c raw) (rest : List Char) :
    unescape (raw ++ rest) = (unescape rest).map (c :: ·) := by
  cases h with
  | simple h => exact unescape_simpleEscape h rest
  | unit hlt hunit =>
    have hrange : c.toNat < 0xD800 := by omega
    simp only [List.cons_append, List.nil_append, Json.unescape, hunit, Option.bind_eq_bind,
      Option.bind_some, if_pos (Or.inl hrange), Char.ofNat_toNat]
    cases Json.unescape rest <;> rfl
  | itself hbackslash _ _ => exact unescape_of_ne hbackslash rest

theorem unescape_escape (text : List Char) : unescape (escape text) = some text := by
  induction text with
  | nil => rfl
  | cons c text ih =>
    rw [escape] at ih
    rw [escape, List.flatMap_cons, (escaped_escapeChar c).unescape, ih]
    rfl

namespace Parser

/-- One written character does not close a text. -/
theorem stringRest_escaped {c : Char} {raw : List Char} (h : Escaped c raw) (rest : List Char) :
    stringRest (raw ++ rest) = (stringRest rest).map fun found => (raw ++ found.1, found.2) := by
  cases h with
  | @simple e h =>
    have hescape : isEscape e = true := by rw [isEscape, h]; rfl
    have hunit : e ≠ 'u' := by rintro rfl; cases h
    rw [List.cons_append, List.cons_append, List.nil_append, stringRest, if_pos hescape]
    · cases stringRest rest <;> rfl
    · rintro a b c d rest' rfl
      exact absurd rfl hunit
  | unit _ hunit =>
    simp only [List.cons_append, List.nil_append, stringRest, hunit, Option.bind_eq_bind,
      Option.bind_some]
    cases stringRest rest <;> rfl
  | itself hbackslash hquote hle =>
    rw [List.cons_append, List.nil_append, stringRest, if_neg (Nat.not_lt.2 hle)]
    · cases stringRest rest <;> rfl
    all_goals simp [hbackslash, hquote]

/-- An escaped text ends at its closing quote. -/
theorem stringRest_escape (text rest : List Char) :
    stringRest (escape text ++ '"' :: rest) = some (escape text, rest) := by
  induction text with
  | nil => rfl
  | cons c text ih =>
    rw [escape] at ih
    rw [escape, List.flatMap_cons, List.append_assoc, stringRest_escaped (escaped_escapeChar c), ih]
    rfl

theorem skipBlanks_cons {c : Char} (h : isBlank c = false) (rest : List Char) :
    skipBlanks (c :: rest) = c :: rest :=
  List.dropWhile_cons_of_neg (by simp [h])

theorem fieldKey_escape (name rest : List Char) :
    fieldKey ('"' :: (escape name ++ '"' :: ':' :: rest)) = some (escape name, rest) := by
  rw [fieldKey, skipBlanks_cons (by decide)]
  simp only [stringRest_escape, skipBlanks_cons (by decide : isBlank ':' = false),
    Option.bind_eq_bind, Option.bind_some]

end Parser

/-! ## Trees -/

/-- Fields as they are written. -/
def escapedFields (fields : List (String × Json)) : List (List Char × Json) :=
  fields.map fun f => (escape f.1.toList, f.2)

theorem struct_eq (fields : List (String × Json)) : struct fields = object (escapedFields fields) :=
  rfl

/-- A tree whose names and texts are escaped and whose numbers are whole. -/
inductive Plain : Json → Prop where
  | null : Plain null
  | bool (b : Bool) : Plain (bool b)
  | nat (n : Nat) : Plain (nat n)
  | text (s : String) : Plain (text s)
  | array {items : List Json} (h : ∀ j ∈ items, Plain j) : Plain (array items)
  | struct {fields : List (String × Json)} (h : ∀ f ∈ fields, Plain f.2) : Plain (struct fields)

attribute [simp] Plain.null Plain.bool Plain.nat Plain.text

theorem not_isBlank_of_isDigit {c : Char} (h : Parser.isDigit c = true) :
    Parser.isBlank c = false := by
  by_contra hblank
  simp only [Parser.isBlank, Bool.not_eq_false, Bool.or_eq_true, beq_iff_eq] at hblank
  rcases hblank with ((rfl | rfl) | rfl) | rfl <;> exact absurd h (by decide)

/-- A value starts with neither a blank nor a closing bracket. -/
theorem Plain.chars_eq_cons {j : Json} (h : Plain j) :
    ∃ c cs, j.chars = c :: cs ∧ Parser.isBlank c = false ∧ c ≠ ']' := by
  cases h with
  | bool b => cases b <;> exact ⟨_, _, rfl, by decide⟩
  | nat n =>
    obtain ⟨c, cs, hcs, hdigit, -⟩ := Text.Decimal.decimal_eq_cons n
    refine ⟨c, cs, hcs, not_isBlank_of_isDigit hdigit, ?_⟩
    rintro rfl
    exact absurd hdigit (by decide)
  | null | text | array | struct => exact ⟨_, _, rfl, by decide⟩

namespace Parser

/-- The value is read from its text, whatever may follow it. -/
def Reads (j : Json) : Prop :=
  ∀ fuel rest, Ends rest → 2 * j.chars.length ≤ fuel →
    value fuel (j.chars ++ rest) = some (j, rest)

theorem reads_nat (n : Nat) : Reads (nat n) := by
  intro fuel rest hrest hfuel
  have hnumber := number_decimal n hrest
  obtain ⟨c, cs, hcs, hdigit, -⟩ := Text.Decimal.decimal_eq_cons n
  rw [nat, chars] at hfuel ⊢
  rw [hcs] at hfuel hnumber ⊢
  rw [List.length_cons] at hfuel
  obtain ⟨fuel, rfl⟩ := Nat.exists_eq_add_one_of_ne_zero (by omega : fuel ≠ 0)
  rw [List.cons_append] at hnumber ⊢
  rw [value, skipBlanks_cons (not_isBlank_of_isDigit hdigit)]
  split
  case h_7 => simp [hnumber]
  all_goals
    next heq =>
      obtain ⟨rfl, -⟩ := List.cons.inj heq
      exact absurd hdigit (by decide)

section Entries

variable {j : Json} {fuel : Nat} (hj : Reads j) (hfuel : 2 * j.chars.length ≤ fuel)

include hj hfuel

theorem items_last (rest : List Char) :
    items (fuel + 1) (j.chars ++ ']' :: rest) = some ([j], rest) := by
  rw [items, hj _ _ (.bracket rest) hfuel]
  rfl

theorem items_comma {js : List Json} {more rest : List Char}
    (hmore : items fuel more = some (js, rest)) :
    items (fuel + 1) (j.chars ++ ',' :: more) = some (j :: js, rest) := by
  rw [items, hj _ _ (.comma more) hfuel]
  simp only [Option.bind_eq_bind, Option.bind_some, hmore, Option.pure_def,
    skipBlanks_cons (by decide : isBlank ',' = false)]

theorem fields_last (name rest : List Char) :
    fields (fuel + 1) (fieldChars (escape name, j) ++ '\x7d' :: rest) =
      some ([(escape name, j)], rest) := by
  have hvalue := hj fuel _ (.brace rest) hfuel
  rw [fieldChars, List.cons_append, List.append_assoc, List.cons_append, List.cons_append, fields,
    fieldKey_escape]
  simp only [Option.bind_eq_bind, Option.bind_some, hvalue]
  rfl

theorem fields_comma (name : List Char) {fs : List (List Char × Json)} {more rest : List Char}
    (hmore : fields fuel more = some (fs, rest)) :
    fields (fuel + 1) (fieldChars (escape name, j) ++ ',' :: more) =
      some ((escape name, j) :: fs, rest) := by
  have hvalue := hj fuel _ (.comma more) hfuel
  rw [fieldChars, List.cons_append, List.append_assoc, List.cons_append, List.cons_append, fields,
    fieldKey_escape]
  simp only [Option.bind_eq_bind, Option.bind_some, hvalue, hmore, Option.pure_def,
    skipBlanks_cons (by decide : isBlank ',' = false)]

end Entries

theorem items_chars {j : Json} {js : List Json} (h : ∀ i ∈ j :: js, Reads i) (fuel : Nat)
    (hfuel : 2 * (itemsChars (j :: js)).length ≤ fuel) (rest : List Char) :
    items fuel (itemsChars (j :: js) ++ rest) = some (j :: js, rest) := by
  induction js generalizing j fuel with
  | nil =>
    have htext : itemsChars [j] = j.chars ++ [']'] := rfl
    rw [htext, List.length_append, List.length_singleton] at hfuel
    obtain ⟨fuel, rfl⟩ := Nat.exists_eq_add_one_of_ne_zero (by omega : fuel ≠ 0)
    rw [htext, List.append_assoc]
    exact items_last (h j List.mem_cons_self) (by omega) rest
  | cons j' js ih =>
    have htext : itemsChars (j :: j' :: js) = j.chars ++ ',' :: itemsChars (j' :: js) := rfl
    rw [htext, List.length_append, List.length_cons] at hfuel
    obtain ⟨fuel, rfl⟩ := Nat.exists_eq_add_one_of_ne_zero (by omega : fuel ≠ 0)
    rw [htext, List.append_assoc]
    exact items_comma (h j List.mem_cons_self) (by omega)
      (ih (fun i hi => h i (List.mem_cons_of_mem j hi)) fuel (by omega))

theorem fields_chars {f : String × Json} {fs : List (String × Json)}
    (h : ∀ g ∈ f :: fs, Reads g.2) {fuel : Nat}
    (hfuel : 2 * (fieldsChars (escapedFields (f :: fs))).length ≤ fuel) (rest : List Char) :
    fields fuel (fieldsChars (escapedFields (f :: fs)) ++ rest) =
      some (escapedFields (f :: fs), rest) := by
  have hlen : ∀ f : String × Json,
      f.2.chars.length < (fieldChars (escape f.1.toList, f.2)).length := fun f => by
    rw [fieldChars, List.length_cons, List.length_append, List.length_cons, List.length_cons]
    omega
  induction fs generalizing f fuel with
  | nil =>
    have htext : fieldsChars (escapedFields [f]) =
        fieldChars (escape f.1.toList, f.2) ++ ['\x7d'] := rfl
    rw [htext, List.length_append, List.length_singleton] at hfuel
    obtain ⟨fuel, rfl⟩ := Nat.exists_eq_add_one_of_ne_zero (by omega : fuel ≠ 0)
    rw [htext, List.append_assoc]
    exact fields_last (h f List.mem_cons_self) (by have := hlen f; omega) _ rest
  | cons f' fs ih =>
    have htext : fieldsChars (escapedFields (f :: f' :: fs)) =
        fieldChars (escape f.1.toList, f.2) ++ ',' :: fieldsChars (escapedFields (f' :: fs)) := rfl
    rw [htext, List.length_append, List.length_cons] at hfuel
    obtain ⟨fuel, rfl⟩ := Nat.exists_eq_add_one_of_ne_zero (by omega : fuel ≠ 0)
    rw [htext, List.append_assoc]
    exact fields_comma (h f List.mem_cons_self) (by have := hlen f; omega) _
      (ih (fun g hg => h g (List.mem_cons_of_mem f hg)) (by omega))

theorem value_array {c : Char} {cs rest : List Char} {js : List Json} {fuel : Nat}
    (hblank : isBlank c = false) (hclose : c ≠ ']') (h : items fuel (c :: cs) = some (js, rest)) :
    value (fuel + 1) ('[' :: c :: cs) = some (array js, rest) := by
  simp only [value, skipBlanks_cons (by decide : isBlank '[' = false), skipBlanks_cons hblank]
  split
  · next heq => exact absurd (List.cons.inj heq).1 hclose
  · simp [h]

theorem value_object {c : Char} {cs rest : List Char} {fs : List (List Char × Json)} {fuel : Nat}
    (hblank : isBlank c = false) (hclose : c ≠ '\x7d')
    (h : fields fuel (c :: cs) = some (fs, rest)) :
    value (fuel + 1) ('\x7b' :: c :: cs) = some (object fs, rest) := by
  simp only [value, skipBlanks_cons (by decide : isBlank '\x7b' = false), skipBlanks_cons hblank]
  split
  · next heq => exact absurd (List.cons.inj heq).1 hclose
  · simp [h]

theorem reads_array {js : List Json} (hjs : ∀ j ∈ js, Plain j) (h : ∀ j ∈ js, Reads j) :
    Reads (array js) := by
  intro fuel rest _ hfuel
  rw [chars, List.length_cons] at hfuel
  obtain ⟨fuel, rfl⟩ := Nat.exists_eq_add_one_of_ne_zero (by omega : fuel ≠ 0)
  rcases js with _ | ⟨j, js⟩
  · rfl
  · have hitems := items_chars h fuel (by omega) rest
    obtain ⟨c, cs, hcs, hblank, hclose⟩ := (hjs j List.mem_cons_self).chars_eq_cons
    rw [chars, List.cons_append]
    rw [itemsChars, hcs] at hitems ⊢
    exact value_array hblank hclose hitems

theorem reads_struct {fs : List (String × Json)} (h : ∀ f ∈ fs, Reads f.2) :
    Reads (struct fs) := by
  intro fuel rest _ hfuel
  rw [struct_eq, chars, List.length_cons] at hfuel
  obtain ⟨fuel, rfl⟩ := Nat.exists_eq_add_one_of_ne_zero (by omega : fuel ≠ 0)
  rcases fs with _ | ⟨f, fs⟩
  · rfl
  · exact value_object (by decide) (by decide) (fields_chars h (by omega) rest)

theorem reads_text (s : String) : Reads (text s) := by
  intro fuel rest _ hfuel
  rw [text, chars, List.length_cons] at hfuel
  obtain ⟨fuel, rfl⟩ := Nat.exists_eq_add_one_of_ne_zero (by omega : fuel ≠ 0)
  rw [text, chars, List.cons_append, List.append_assoc, value, skipBlanks_cons (by decide)]
  simp [stringRest_escape]

end Parser

theorem Plain.reads {j : Json} (h : Plain j) : Parser.Reads j := by
  induction h with
  | null =>
    intro fuel rest _ hfuel
    have hlen : (chars .null).length = 4 := rfl
    obtain ⟨fuel, rfl⟩ := Nat.exists_eq_add_one_of_ne_zero (by omega : fuel ≠ 0)
    rfl
  | bool b =>
    intro fuel rest _ hfuel
    have hlen : 4 ≤ (chars (.bool b)).length := by cases b <;> decide
    obtain ⟨fuel, rfl⟩ := Nat.exists_eq_add_one_of_ne_zero (by omega : fuel ≠ 0)
    cases b <;> rfl
  | nat n => exact Parser.reads_nat n
  | text s => exact Parser.reads_text s
  | array hitems ih => exact Parser.reads_array hitems ih
  | struct _ ih => exact Parser.reads_struct ih

theorem parse_print {j : Json} (h : Plain j) : parse j.print = some j := by
  have hread := h.reads (2 * j.chars.length + 1) [] .nil (by omega)
  rw [List.append_nil] at hread
  rw [parse, print, String.toList_ofList, parseChars, hread]
  rfl

end Telemetry.Json
