import Mathlib.Logic.ExistsUnique
import Telemetry.Config.Flags
import Telemetry.Proofs.Numerals

/-!
# Settings that override others

A command line splits in one way into flags with their values and words that are no flags, and a
flag at its end may lack a value (`existsUnique_words_eq`).  Of the values that are given for a
setting the last one counts, and of those for the port the last one that is a port
(`parse_words`); what is given takes the place of what is configured, and nothing else changes
(`apply_parse`).
-/

namespace Telemetry.Config.Flags

open Text.Decimal (Spells)

/-- The words that are flags. -/
def flagWords : List String :=
  ["-host", "-port", "-work.dir", "-wd", "-file"]

/-- What a command line is made of. -/
inductive Part where
  | stray (word : String) (notFlag : word ∉ flagWords)
  | given (flag value : String) (isFlag : flag ∈ flagWords)

namespace Part

def words : Part → List String
  | stray word _ => [word]
  | given flag value _ => [flag, value]

/-- The value that is given for one of some flags. -/
def value? (flags : List String) : Part → Option String
  | stray _ _ => none
  | given flag value _ => if flag ∈ flags then some value else none

/-- What the part adds to the settings. -/
def enter (f : Flags) : Part → Flags
  | stray _ _ => f
  | given flag value _ => ((Flag.ofWord? flag).map (f.set · value)).getD f

end Part

/-- A command line in its parts. -/
structure Split where
  parts : List Part
  /-- A flag at the end that lacks a value. -/
  bare : Option { word // word ∈ flagWords }

namespace Split

def words (s : Split) : List String :=
  s.parts.flatMap Part.words ++ (s.bare.map Subtype.val).toList

/-- The values that are given for some flags, in the order of the command line. -/
def values (s : Split) (flags : List String) : List String :=
  s.parts.filterMap (Part.value? flags)

def cons (p : Part) (s : Split) : Split :=
  { s with parts := p :: s.parts }

/-- From left to right, a flag takes the next word for its value. -/
def ofWords : List String → Split
  | [] => ⟨[], none⟩
  | [word] =>
    if h : word ∈ flagWords then ⟨[], some ⟨word, h⟩⟩ else ⟨[.stray word h], none⟩
  | word :: value :: rest =>
    if h : word ∈ flagWords then (ofWords rest).cons (.given word value h)
    else (ofWords (value :: rest)).cons (.stray word h)

theorem words_cons (p : Part) (s : Split) : (s.cons p).words = p.words ++ s.words := by
  simp [words, cons]

theorem words_ofWords (words : List String) : (ofWords words).words = words := by
  induction words using ofWords.induct with
  | case1 => rfl
  | case2 word h => simp [ofWords, h, Split.words]
  | case3 word h => simp [ofWords, h, Split.words, Part.words]
  | case4 word value rest h ih => rw [ofWords, dif_pos h, words_cons, ih]; rfl
  | case5 word value rest h ih => rw [ofWords, dif_neg h, words_cons, ih]; rfl

theorem ofWords_stray {word : String} (h : word ∉ flagWords) (rest : List String) :
    ofWords (word :: rest) = (ofWords rest).cons (.stray word h) := by
  cases rest <;> exact dif_neg h

theorem ofWords_words : ∀ s : Split, ofWords s.words = s
  | ⟨[], none⟩ => rfl
  | ⟨[], some ⟨word, h⟩⟩ => dif_pos h
  | ⟨.stray word h :: parts, bare⟩ =>
    (ofWords_stray h _).trans (congrArg (cons _) (ofWords_words ⟨parts, bare⟩))
  | ⟨.given flag value h :: parts, bare⟩ =>
    (dif_pos h).trans (congrArg (cons _) (ofWords_words ⟨parts, bare⟩))

/-- A command line splits in one way. -/
theorem existsUnique_words_eq (words : List String) : ∃! s : Split, s.words = words := by
  refine ⟨ofWords words, words_ofWords words, ?_⟩
  rintro s rfl
  exact (ofWords_words s).symm

end Split

theorem ofWord?_eq_none_iff {word : String} : Flag.ofWord? word = none ↔ word ∉ flagWords := by
  unfold Flag.ofWord? flagWords
  split <;> simp_all

/-- The values for the port that are ports are the words that spell one. -/
theorem port?_eq_some_iff {word : String} {port : UInt16} :
    port? word = some port ↔ Spells word port.toNat := by
  unfold port?
  rcases hread : Text.Decimal.read 65536 word with e | n
  · refine iff_of_false (by simp [Except.toOption]) fun h => ?_
    have hok := Text.Decimal.read_eq_ok_iff.2 ⟨h, port.toNat_lt⟩
    rw [hread] at hok
    cases hok
  · obtain ⟨hspells, hlt⟩ := Text.Decimal.read_eq_ok_iff.1 hread
    simp only [Except.toOption, Option.map_some, Option.some.injEq]
    constructor
    · rintro rfl
      rwa [UInt16.toNat_ofNat_of_lt' hlt]
    · intro h
      have hok := Text.Decimal.read_eq_ok_iff.2 ⟨h, port.toNat_lt⟩
      rw [hread] at hok
      rw [Except.ok.inj hok, UInt16.ofNat_toNat]

section Parse

variable (parts : List Part) (f : Flags)

/-- A part is taken in whole, and the next one finds no flag waiting. -/
theorem foldl_step_part (p : Part) : p.words.foldl step (f, none) = (p.enter f, none) := by
  cases p with
  | stray word h => simp [Part.words, Part.enter, step, ofWord?_eq_none_iff.2 h]
  | given flag value h =>
    simp only [flagWords, List.mem_cons, List.not_mem_nil, or_false] at h
    rcases h with rfl | rfl | rfl | rfl | rfl <;> rfl

theorem foldl_step_parts :
    (parts.flatMap Part.words).foldl step (f, none) = (parts.foldl Part.enter f, none) := by
  induction parts generalizing f with
  | nil => rfl
  | cons p parts ih =>
    rw [List.flatMap_cons, List.foldl_append, foldl_step_part, ih]
    rfl

/-- What a part gives for a setting counts before what was given earlier. -/
theorem enter_eq (p : Part) : p.enter f = {
    host := (p.value? ["-host"]).or f.host
    port := ((p.value? ["-port"]).bind port?).or f.port
    workDir := (p.value? ["-work.dir", "-wd"]).or f.workDir
    file := (p.value? ["-file"]).or f.file } := by
  cases p with
  | stray word h => simp [Part.enter, Part.value?]
  | given flag value h =>
    simp only [flagWords, List.mem_cons, List.not_mem_nil, or_false] at h
    rcases h with rfl | rfl | rfl | rfl | rfl <;> rfl

/-- Of what some parts give for a setting, the last counts. -/
theorem foldl_enter_last {α : Type} {setting : Flags → Option α} {given : Part → Option α}
    (h : ∀ f p, setting (p.enter f) = (given p).or (setting f)) :
    setting (parts.foldl Part.enter f) = (parts.filterMap given).getLast?.or (setting f) := by
  induction parts generalizing f with
  | nil => rfl
  | cons p parts ih =>
    rw [List.foldl_cons, ih, h, List.filterMap_cons]
    rcases given p with _ | value
    · rfl
    · rw [List.getLast?_cons]
      cases (parts.filterMap given).getLast? <;> rfl

end Parse

theorem parse_words (s : Split) : parse s.words = {
    host := (s.values ["-host"]).getLast?
    port := ((s.values ["-port"]).filterMap port?).getLast?
    workDir := (s.values ["-work.dir", "-wd"]).getLast?
    file := (s.values ["-file"]).getLast? } := by
  have hparse : parse s.words = s.parts.foldl Part.enter {} := by
    rw [parse, Split.words, List.foldl_append, foldl_step_parts]
    rcases s.bare with _ | word <;> rfl
  have hlast : ∀ {α} {setting : Flags → Option α} {given : Part → Option α},
      (∀ f p, setting (p.enter f) = (given p).or (setting f)) → setting {} = none →
        setting (parse s.words) = (s.parts.filterMap given).getLast? := by
    intro α setting given h hnone
    rw [hparse, foldl_enter_last _ _ h, hnone, Option.or_none]
  have hport : (s.values ["-port"]).filterMap port? =
      s.parts.filterMap fun p => (p.value? ["-port"]).bind port? :=
    List.filterMap_filterMap
  rw [hport, Split.values, Split.values, Split.values,
    ← hlast (fun f p => congrArg Flags.host (enter_eq f p)) rfl,
    ← hlast (fun f p => congrArg Flags.port (enter_eq f p)) rfl,
    ← hlast (fun f p => congrArg Flags.workDir (enter_eq f p)) rfl,
    ← hlast (fun f p => congrArg Flags.file (enter_eq f p)) rfl]

theorem apply_apply (f : Flags) (c : Config) : f.apply (f.apply c) = f.apply c := by
  have hgetD : ∀ {α : Type} (o : Option α) (a : α), o.getD (o.getD a) = o.getD a := by
    rintro α (_ | b) a <;> rfl
  simp only [apply, hgetD]

/-- A command line splits in one way into flags with their values, words that are no flags, and
perhaps a flag that lacks a value.  The last value that is given for a setting takes the place of
what is configured, and for the port the last one that is a port; nothing else changes, and to do it
again changes nothing. -/
theorem apply_parse (words : List String) :
    (∃! s : Split, s.words = words) ∧
      (∀ value port, port? value = some port ↔ Spells value port.toNat) ∧
      ∀ (s : Split) (c : Config), s.words = words →
        let given := parse words
        given.apply c = {
          workDir := (s.values ["-work.dir", "-wd"]).getLast?.getD c.workDir
          web := {
            host := (s.values ["-host"]).getLast?.getD c.web.host
            port := ((s.values ["-port"]).filterMap port?).getLast?.getD c.web.port }
          stream := { c.stream with
            file := (s.values ["-file"]).getLast?.getD c.stream.file } } ∧
        given.apply (given.apply c) = given.apply c := by
  refine ⟨Split.existsUnique_words_eq words, fun _ _ => port?_eq_some_iff, ?_⟩
  rintro s c rfl
  refine ⟨?_, apply_apply _ _⟩
  rw [parse_words]
  rfl

/-- A flag that is the value of another, a port that is none after one that is, the two spellings of
a flag, and a flag without a value at the end. -/
theorem apply_parse_flag_as_value :
    let parts : List Part := [.stray "serve" (by decide), .given "-host" "-port" (by decide),
      .given "-port" "+080" (by decide), .given "-wd" "/a" (by decide),
      .given "-port" "65536" (by decide), .given "-work.dir" "b" (by decide)]
    let s : Split := ⟨parts, some ⟨"-file", by decide⟩⟩
    let words := ["serve", "-host", "-port", "-port", "+080", "-wd", "/a", "-port", "65536",
      "-work.dir", "b", "-file"]
    s.words = words ∧
      (parse words).apply {} = { workDir := "b", web := { host := "-port", port := 80 } } := by
  intro parts s words
  have hwords : s.words = words := rfl
  refine ⟨hwords, ?_⟩
  rw [((apply_parse words).2.2 s {} hwords).1]
  decide +kernel

end Telemetry.Config.Flags
