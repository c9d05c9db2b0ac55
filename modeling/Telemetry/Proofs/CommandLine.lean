import Telemetry.Proofs.Numerals
import Telemetry.Tool.Action

/-!
# Command lines

A command line is read as the commands in it, one after the other (`actions_read`).  Words that are
no commands, and commands with a word in the place of a number that spells none, are passed over and
bring the reading back to where a command may begin; a command that is cut short at the end is not
carried out.  As every command line is made of such stretches (`exists_says_words`), there is
nothing else that it could be read as.

What a reader still keeps of an earlier command does not matter: its file and its start are written
before they are used, so it is known by what it expects next, with the words that belong to it
(`Reader.Models.step`).
-/

namespace Telemetry.Tool

open Text.Decimal (Spells)

/-- The word spells a 64-bit number. -/
def IsNumber (word : String) (n : Nat) : Prop :=
  Spells word n ∧ n < UInt64.size

theorem number_eq_ok_iff {word : String} {n : Nat} :
    number word = .ok n ↔ IsNumber word n :=
  Text.Decimal.read_eq_ok_iff

/-- What a word is read as in the place of a number. -/
theorem number_cases (word : String) :
    (∃ n, IsNumber word n ∧ number word = .ok n) ∨
      (∀ n, ¬ IsNumber word n) ∧ ∃ e, number word = .error e := by
  rcases h : number word with e | n
  · refine .inr ⟨fun n hn => ?_, e, rfl⟩
    rw [number_eq_ok_iff.2 hn] at h
    cases h
  · exact .inl ⟨n, number_eq_ok_iff.1 h, rfl⟩

namespace Action

/-- The numbers of the action are those of 64 bits. -/
def Fits : Action → Prop
  | info _ => True
  | view _ start stop => start < UInt64.size ∧ stop < UInt64.size
  | generate _ count => count < UInt64.size

/-- The words of a command that asks for the action. -/
def words : Action → List String
  | info file => ["i", file]
  | view file start stop =>
    ["v", file, String.ofList (Text.decimal start), String.ofList (Text.decimal stop)]
  | generate file count => ["g", file, String.ofList (Text.decimal count)]

end Action

/-- The words are a command that asks for the action. -/
inductive Asks : Action → List String → Prop where
  | info (file : String) : Asks (.info file) ["i", file]
  | view (file : String) {first last : String} {start stop : Nat} (hstart : IsNumber first start)
      (hstop : IsNumber last stop) : Asks (.view file start stop) ["v", file, first, last]
  | generate (file : String) {word : String} {count : Nat} (hcount : IsNumber word count) :
    Asks (.generate file count) ["g", file, word]

/-- The words begin where a command may, and ask for nothing. -/
inductive PassedOver : List String → Prop where
  | stray {word : String} (hword : word ∉ ["i", "v", "g"]) : PassedOver [word]
  | badStart (file : String) {word : String} (hword : ∀ n, ¬ IsNumber word n) :
    PassedOver ["v", file, word]
  | badStop (file : String) {first word : String} {start : Nat} (hstart : IsNumber first start)
      (hword : ∀ n, ¬ IsNumber word n) : PassedOver ["v", file, first, word]
  | badCount (file : String) {word : String} (hword : ∀ n, ¬ IsNumber word n) :
    PassedOver ["g", file, word]

/-- The words are a command that is cut short. -/
def Unfinished (words : List String) : Prop :=
  ∃ action command, Asks action command ∧ words <+: command ∧ words ≠ command

/-- A command line with commands for some actions, in this order, among words that are passed over;
the last command may be cut short. -/
inductive Says : List Action → List String → Prop where
  | unfinished {words : List String} (h : Unfinished words) : Says [] words
  | command {action : Action} {actions : List Action} {words rest : List String}
      (h : Asks action words) (hrest : Says actions rest) : Says (action :: actions) (words ++ rest)
  | passedOver {actions : List Action} {words rest : List String} (h : PassedOver words)
      (hrest : Says actions rest) : Says actions (words ++ rest)

/-- What the next word is read as, with what has been read of its command. -/
inductive Expected where
  | command
  | infoFile
  | viewFile
  | viewStart (file : String)
  | viewStop (file : String) (start : Nat)
  | generateFile
  | generateCount (file : String)
  deriving DecidableEq, Repr

/-- What the words so far amount to. -/
structure Reading where
  expected : Expected := .command
  actions : List Action := []
  warnings : List Warning := []
  deriving DecidableEq, Repr

namespace Reading

def expect (r : Reading) (expected : Expected) : Reading :=
  { r with expected }

/-- A command is complete. -/
def act (r : Reading) (a : Action) : Reading :=
  { r with expected := .command, actions := r.actions ++ [a] }

/-- The command, if there was one, is given up. -/
def warn (r : Reading) (w : Warning) : Reading :=
  { r with expected := .command, warnings := r.warnings ++ [w] }

def command (r : Reading) (word : String) : Reading :=
  match word with
  | "i" => r.expect .infoFile
  | "v" => r.expect .viewFile
  | "g" => r.expect .generateFile
  | _ => r.warn (.undefinedWord word)

def step (r : Reading) (word : String) : Reading :=
  match r.expected with
  | .command => r.command word
  | .infoFile => r.act (.info word)
  | .viewFile => r.expect (.viewStart word)
  | .viewStart file =>
    match number word with
    | .ok start => r.expect (.viewStop file start)
    | .error e => r.warn (.badStart word e)
  | .viewStop file start =>
    match number word with
    | .ok stop => r.act (.view file start stop)
    | .error e => r.warn (.badStop word e)
  | .generateFile => r.expect (.generateCount word)
  | .generateCount file =>
    match number word with
    | .ok count => r.act (.generate file count)
    | .error e => r.warn (.badCount word e)

/-- A word that is no command is told of. -/
theorem command_of_notMem {word : String} (h : word ∉ ["i", "v", "g"]) (r : Reading) :
    r.command word = r.warn (.undefinedWord word) := by
  unfold command
  split
  · exact absurd (by simp) h
  · exact absurd (by simp) h
  · exact absurd (by simp) h
  · rfl

end Reading

namespace Reader

/-- The reader is at the place of what is expected, and keeps what belongs to it. -/
def Awaits (m : Reader) : Expected → Prop
  | .command => m.place = .command
  | .infoFile => m.place = .infoFile
  | .viewFile => m.place = .viewFile
  | .viewStart file => m.place = .viewStart ∧ m.file = some file
  | .viewStop file start => m.place = .viewStop ∧ m.file = some file ∧ m.start = start
  | .generateFile => m.place = .generateFile
  | .generateCount file => m.place = .generateCount ∧ m.file = some file

/-- The reader has got as far as the reading. -/
structure Models (m : Reader) (r : Reading) : Prop where
  awaits : m.Awaits r.expected
  actions_eq : m.actions = r.actions
  warnings_eq : m.warnings = r.warnings

variable {m : Reader} {r : Reading}

theorem Models.command (h : m.Models r) (hexpected : r.expected = .command) (word : String) :
    (m.command word).Models (r.command word) := by
  have hplace : m.Awaits .command := hexpected ▸ h.awaits
  unfold Reader.command
  split
  · exact ⟨rfl, h.actions_eq, h.warnings_eq⟩
  · exact ⟨rfl, h.actions_eq, h.warnings_eq⟩
  · exact ⟨rfl, h.actions_eq, h.warnings_eq⟩
  · next hinfo hview hgenerate =>
    have hword : word ∉ ["i", "v", "g"] := by
      simpa using ⟨hinfo, hview, hgenerate⟩
    rw [Reading.command_of_notMem hword]
    exact ⟨hplace, h.actions_eq, congrArg (· ++ _) h.warnings_eq⟩

/-- The last word of a command brings the reader back to where a command may begin. -/
theorem Models.finish (h : m.Models r) {file : String} (hfile : m.file = some file)
    (action : String → Nat → Action) (warning : String → Text.Decimal.Error → Warning)
    (word : String) : (m.finish action warning word).Models
      (match number word with
      | .ok n => r.act (action file n)
      | .error e => r.warn (warning word e)) := by
  unfold Reader.finish
  rw [hfile]
  rcases number word with e | n
  · exact ⟨rfl, h.actions_eq, congrArg (· ++ _) h.warnings_eq⟩
  · exact ⟨rfl, congrArg (· ++ _) h.actions_eq, h.warnings_eq⟩

/-- A word is read alike, whatever is left of the commands before. -/
theorem Models.step (h : m.Models r) (word : String) : (m.step word).Models (r.step word) := by
  have hawaits := h.awaits
  unfold Reader.step Reading.step
  rcases hexpected : r.expected with _ | _ | _ | file | ⟨file, start⟩ | _ | file <;>
    rw [hexpected] at hawaits
  · rw [show m.place = .command from hawaits]
    exact h.command hexpected word
  · rw [show m.place = .infoFile from hawaits]
    exact ⟨rfl, congrArg (· ++ _) h.actions_eq, h.warnings_eq⟩
  · rw [show m.place = .viewFile from hawaits]
    exact ⟨⟨rfl, rfl⟩, h.actions_eq, h.warnings_eq⟩
  · obtain ⟨hplace, hfile⟩ := hawaits
    rw [hplace]
    rcases hnumber : number word with e | start
    · exact ⟨rfl, h.actions_eq, congrArg (· ++ _) h.warnings_eq⟩
    · exact ⟨⟨rfl, hfile, rfl⟩, h.actions_eq, h.warnings_eq⟩
  · obtain ⟨hplace, hfile, rfl⟩ := hawaits
    rw [hplace]
    exact h.finish hfile (.view · m.start ·) .badStop word
  · rw [show m.place = .generateFile from hawaits]
    exact ⟨⟨rfl, rfl⟩, h.actions_eq, h.warnings_eq⟩
  · obtain ⟨hplace, hfile⟩ := hawaits
    rw [hplace]
    exact h.finish hfile .generate .badCount word

theorem Models.foldl_step (h : m.Models r) (words : List String) :
    (words.foldl Reader.step m).Models (words.foldl Reading.step r) := by
  induction words generalizing m r with
  | nil => exact h
  | cons word words ih => exact ih (h.step word)

/-- A command line is read as its words amount to. -/
theorem models_read (words : List String) :
    (read words).Models (words.foldl Reading.step {}) :=
  Models.foldl_step (m := {}) (r := {}) ⟨rfl, rfl, rfl⟩ words

end Reader

section Steps

variable {r : Reading} {action : Action} {actions : List Action} {words : List String}

/-- A command is read whole, whatever has been read before. -/
theorem Asks.foldl_step (h : Asks action words) (hr : r.expected = .command) :
    words.foldl Reading.step r = r.act action := by
  cases h with
  | info file => simp [Reading.step, Reading.command, Reading.expect, Reading.act, hr]
  | view file hstart hstop =>
    simp [Reading.step, Reading.command, Reading.expect, Reading.act, hr,
      number_eq_ok_iff.2 hstart, number_eq_ok_iff.2 hstop]
  | generate file hcount =>
    simp [Reading.step, Reading.command, Reading.expect, Reading.act, hr,
      number_eq_ok_iff.2 hcount]

/-- What is passed over leaves a warning. -/
theorem PassedOver.foldl_step (h : PassedOver words) (hr : r.expected = .command) :
    ∃ w, words.foldl Reading.step r = r.warn w := by
  have hbad : ∀ {word}, (∀ n, ¬ IsNumber word n) → ∃ e, number word = .error e :=
    fun {word} hword => ((number_cases word).resolve_left fun ⟨n, hn, _⟩ => hword n hn).2
  cases h with
  | @stray word hword =>
    refine ⟨.undefinedWord word, ?_⟩
    simp [Reading.step, hr, Reading.command_of_notMem hword]
  | @badStart file word hword =>
    obtain ⟨e, he⟩ := hbad hword
    refine ⟨.badStart word e, ?_⟩
    simp [Reading.step, Reading.command, Reading.expect, Reading.warn, hr, he]
  | @badStop file first word start hstart hword =>
    obtain ⟨e, he⟩ := hbad hword
    refine ⟨.badStop word e, ?_⟩
    simp [Reading.step, Reading.command, Reading.expect, Reading.warn, hr,
      number_eq_ok_iff.2 hstart, he]
  | @badCount file word hword =>
    obtain ⟨e, he⟩ := hbad hword
    refine ⟨.badCount word e, ?_⟩
    simp [Reading.step, Reading.command, Reading.expect, Reading.warn, hr, he]

/-- A command that is cut short leaves the reading within it. -/
theorem Unfinished.foldl_step (h : Unfinished words) (hr : r.expected = .command) :
    ∃ e, words.foldl Reading.step r = r.expect e := by
  obtain ⟨action, command, hasks, hprefix, hne⟩ := h
  cases hasks with
  | info file =>
    simp only [List.prefix_cons_iff, List.prefix_nil] at hprefix
    rcases hprefix with rfl | ⟨-, rfl, rfl | ⟨-, rfl, rfl⟩⟩
    · exact ⟨.command, by simp [Reading.expect, ← hr]⟩
    · exact ⟨.infoFile, by simp [Reading.step, Reading.command, hr]⟩
    · exact absurd rfl hne
  | @view file first last start stop hstart hstop =>
    simp only [List.prefix_cons_iff, List.prefix_nil] at hprefix
    rcases hprefix with
      rfl | ⟨-, rfl, rfl | ⟨-, rfl, rfl | ⟨-, rfl, rfl | ⟨-, rfl, rfl⟩⟩⟩⟩
    · exact ⟨.command, by simp [Reading.expect, ← hr]⟩
    · exact ⟨.viewFile, by simp [Reading.step, Reading.command, hr]⟩
    · exact ⟨.viewStart file, by simp [Reading.step, Reading.command, Reading.expect, hr]⟩
    · refine ⟨.viewStop file start, ?_⟩
      simp [Reading.step, Reading.command, Reading.expect, hr, number_eq_ok_iff.2 hstart]
    · exact absurd rfl hne
  | @generate file word count hcount =>
    simp only [List.prefix_cons_iff, List.prefix_nil] at hprefix
    rcases hprefix with rfl | ⟨-, rfl, rfl | ⟨-, rfl, rfl | ⟨-, rfl, rfl⟩⟩⟩
    · exact ⟨.command, by simp [Reading.expect, ← hr]⟩
    · exact ⟨.generateFile, by simp [Reading.step, Reading.command, hr]⟩
    · exact ⟨.generateCount file, by simp [Reading.step, Reading.command, Reading.expect, hr]⟩
    · exact absurd rfl hne

/-- Reading adds the actions that a command line asks for, and no others. -/
theorem Says.foldl_step (h : Says actions words) (hr : r.expected = .command) :
    (words.foldl Reading.step r).actions = r.actions ++ actions := by
  induction h generalizing r with
  | unfinished h =>
    obtain ⟨e, he⟩ := h.foldl_step hr
    rw [he, List.append_nil]
    rfl
  | @command action actions _ _ h _ ih =>
    rw [List.foldl_append, h.foldl_step hr, ih rfl]
    change r.actions ++ [action] ++ actions = _
    rw [List.append_assoc, List.singleton_append]
  | passedOver h _ ih =>
    obtain ⟨w, hw⟩ := h.foldl_step hr
    rw [List.foldl_append, hw, ih rfl]
    rfl

theorem Says.actions_eq (h : Says actions words) : (read words).actions = actions :=
  (Reader.models_read words).actions_eq.trans (h.foldl_step rfl)

end Steps

section Stretches

variable {actions : List Action} {words : List String}

theorem isNumber_zero : IsNumber "0" 0 :=
  number_eq_ok_iff.1 (by decide)

/-- The first words of a command are a command line that asks for nothing. -/
theorem Asks.says_nil {action : Action} {last : String} {rest : List String}
    (h : Asks action (words ++ last :: rest)) : ∃ actions, Says actions words :=
  ⟨[], .unfinished ⟨action, _, h, List.prefix_append words _, by simp⟩⟩

theorem exists_says_view (file : String) {rest : List String}
    (hrest : ∀ more, more <:+ rest → ∃ actions, Says actions more) :
    ∃ actions, Says actions ("v" :: file :: rest) := by
  rcases rest with _ | ⟨first, rest⟩
  · exact Asks.says_nil (.view file isNumber_zero isNumber_zero)
  rcases number_cases first with ⟨start, hstart, -⟩ | ⟨hbad, -⟩
  · rcases rest with _ | ⟨last, rest⟩
    · exact Asks.says_nil (.view file hstart isNumber_zero)
    obtain ⟨actions, hmade⟩ := hrest rest ⟨[first, last], rfl⟩
    rcases number_cases last with ⟨stop, hstop, -⟩ | ⟨hbad, -⟩
    · exact ⟨_, .command (.view file hstart hstop) hmade⟩
    · exact ⟨_, .passedOver (.badStop file hstart hbad) hmade⟩
  · obtain ⟨actions, hmade⟩ := hrest rest ⟨[first], rfl⟩
    exact ⟨_, .passedOver (.badStart file hbad) hmade⟩

theorem exists_says_generate (file : String) {rest : List String}
    (hrest : ∀ more, more <:+ rest → ∃ actions, Says actions more) :
    ∃ actions, Says actions ("g" :: file :: rest) := by
  rcases rest with _ | ⟨number, rest⟩
  · exact Asks.says_nil (.generate file isNumber_zero)
  obtain ⟨actions, hmade⟩ := hrest rest ⟨[number], rfl⟩
  rcases number_cases number with ⟨count, hcount, -⟩ | ⟨hbad, -⟩
  · exact ⟨_, .command (.generate file hcount) hmade⟩
  · exact ⟨_, .passedOver (.badCount file hbad) hmade⟩

/-- Every command line is made of commands, of what is passed over, and of a command that is cut
short. -/
theorem exists_says_words (words : List String) : ∃ actions, Says actions words := by
  induction h : words.length using Nat.strongRecOn generalizing words with
  | _ n ih =>
    subst h
    have hshorter : ∀ more : List String, more.length < words.length →
        ∃ actions, Says actions more :=
      fun more hlt => ih _ hlt more rfl
    have hsuffix : ∀ {command file : String} {more rest : List String}, more <:+ rest →
        more.length < (command :: file :: rest).length :=
      fun hmore => Nat.lt_succ_of_lt (Nat.lt_succ_of_le hmore.length_le)
    rcases words with _ | ⟨word, rest⟩
    · exact Asks.says_nil (.info "")
    by_cases hword : word ∈ ["i", "v", "g"]
    · simp only [List.mem_cons, List.not_mem_nil, or_false] at hword
      rcases hword with rfl | rfl | rfl
      · rcases rest with _ | ⟨file, rest⟩
        · exact Asks.says_nil (.info "")
        obtain ⟨actions, hmade⟩ := hshorter rest (hsuffix List.suffix_rfl)
        exact ⟨_, .command (.info file) hmade⟩
      · rcases rest with _ | ⟨file, rest⟩
        · exact Asks.says_nil (.view "" isNumber_zero isNumber_zero)
        exact exists_says_view file fun more hmore => hshorter more (hsuffix hmore)
      · rcases rest with _ | ⟨file, rest⟩
        · exact Asks.says_nil (.generate "" isNumber_zero)
        exact exists_says_generate file fun more hmore => hshorter more (hsuffix hmore)
    · obtain ⟨actions, hmade⟩ := hshorter rest (Nat.lt_succ_self _)
      exact ⟨actions, .passedOver (.stray hword) hmade⟩

theorem actions_read_eq_iff : (read words).actions = actions ↔ Says actions words := by
  refine ⟨?_, Says.actions_eq⟩
  rintro rfl
  obtain ⟨actions, h⟩ := exists_says_words words
  rwa [h.actions_eq]

theorem Action.Fits.asks {action : Action} (h : action.Fits) : Asks action action.words := by
  have hspells : ∀ {n}, n < UInt64.size → IsNumber (String.ofList (Text.decimal n)) n :=
    fun {n} hn => ⟨Text.Decimal.spells_decimal n, hn⟩
  cases action with
  | info file => exact .info file
  | view file start stop => exact .view file (hspells h.1) (hspells h.2)
  | generate file count => exact .generate file (hspells h)

theorem says_flatMap_words (h : ∀ a ∈ actions, a.Fits) :
    Says actions (actions.flatMap Action.words) := by
  induction actions with
  | nil => exact .unfinished ⟨_, _, .info "", List.nil_prefix, (List.cons_ne_nil _ _).symm⟩
  | cons a rest ih =>
    exact .command (h a List.mem_cons_self).asks (ih fun b hb => h b (List.mem_cons_of_mem a hb))

/-- The commands for some actions are read as these actions, and any command line is read as the
actions that the commands in it ask for, whatever else there is between and after them. -/
theorem actions_read (actions : List Action) :
    ((∀ a ∈ actions, a.Fits) → (read (actions.flatMap Action.words)).actions = actions) ∧
      ∀ words, (read words).actions = actions ↔ Says actions words :=
  ⟨fun h => (says_flatMap_words h).actions_eq, fun _ => actions_read_eq_iff⟩

/-- Files with the names of commands and numbers, between stray words, numbers that are none or too
great, and a command without its last word. -/
theorem actions_read_scattered :
    let actions : List Action := [.view "v" 0 18446744073709551615, .info "g", .generate "7" 3]
    let words := ["x", "v", "v", "0", "18446744073709551615", "v", "i", "18446744073709551616",
      "v", "9", "1", "", "i", "g", "5", "g", "7", "+003", "g", "a", "i", "-1", "v", "a", "4"]
    (∀ a ∈ actions, a.Fits) ∧ (read (actions.flatMap Action.words)).actions = actions ∧
      Says actions words := by
  intro actions words
  have hfits : ∀ a ∈ actions, a.Fits := by
    simp [actions, Action.Fits, UInt64.size]
  obtain ⟨hread, hmade⟩ := actions_read actions
  exact ⟨hfits, hread hfits, (hmade words).1 (by decide +kernel)⟩

end Stretches

end Telemetry.Tool
