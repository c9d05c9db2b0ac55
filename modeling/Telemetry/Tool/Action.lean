import Telemetry.Text.Numeral
import Telemetry.Text.Quoted

/-!
What the command line asks for. Words are read as commands or as their arguments by what has been
read before them; what makes no sense is warned of and passed over.
-/

namespace Telemetry.Tool

inductive Action where
  | info (file : String)
  | view (file : String) (start stop : Nat)
  | generate (file : String) (count : Nat)
  deriving DecidableEq, Repr

/-- An action as messages show it. -/
def Action.text : Action → String
  | info file => "Info \x7b file: " ++ Text.quote file ++ " \x7d"
  | view file start stop =>
    "View \x7b file: " ++ Text.quote file ++ ", start: " ++ toString start ++ ", end: " ++
      toString stop ++ " \x7d"
  | generate file count =>
    "Generate \x7b file: " ++ Text.quote file ++ ", count: " ++ toString count ++ " \x7d"

inductive Warning where
  | undefinedWord (word : String)
  | badStart (word : String) (e : Text.Decimal.Error)
  | badStop (word : String) (e : Text.Decimal.Error)
  | badCount (word : String) (e : Text.Decimal.Error)
  deriving DecidableEq, Repr

def Warning.message : Warning → String
  | undefinedWord word => "undefined arg " ++ word
  | badStart word e => "bad start '" ++ word ++ "': " ++ e.message
  | badStop word e => "bad end '" ++ word ++ "': " ++ e.message
  | badCount word e => "bad count '" ++ word ++ "': " ++ e.message

/-- What the next word is read as. -/
inductive Place where
  | command
  | infoFile
  | viewFile
  | viewStart
  | viewStop
  | generateFile
  | generateCount
  deriving DecidableEq, Repr

/-- A command line as far as it has been read, and what is kept of the command that it ends in. -/
structure Reader where
  place : Place := .command
  file : Option String := none
  /-- The start of the last range that was begun. -/
  start : Nat := 0
  actions : List Action := []
  warnings : List Warning := []
  deriving DecidableEq, Repr

/-- A number in a command line. -/
def number (word : String) : Except Text.Decimal.Error Nat :=
  Text.Decimal.read UInt64.size word

namespace Reader

def command (r : Reader) (word : String) : Reader :=
  match word with
  | "i" => { r with place := .infoFile }
  | "v" => { r with place := .viewFile }
  | "g" => { r with place := .generateFile }
  | _ => { r with warnings := r.warnings ++ [.undefinedWord word] }

/-- The last word of a command, a number, makes an action of the file that is kept. -/
def finish (r : Reader) (action : String → Nat → Action)
    (warning : String → Text.Decimal.Error → Warning) (word : String) : Reader :=
  let left := { r with place := .command, file := none }
  match r.file, number word with
  | some file, .ok n => { left with actions := r.actions ++ [action file n] }
  | _, .error e => { left with warnings := r.warnings ++ [warning word e] }
  | none, .ok _ => left

def step (r : Reader) (word : String) : Reader :=
  match r.place with
  | .command => r.command word
  | .infoFile => { r with place := .command, actions := r.actions ++ [.info word] }
  | .viewFile => { r with place := .viewStart, file := some word }
  | .viewStart =>
    match number word with
    | .ok start => { r with place := .viewStop, start }
    | .error e => { r with place := .command, warnings := r.warnings ++ [.badStart word e] }
  | .viewStop => r.finish (.view · r.start ·) .badStop word
  | .generateFile => { r with place := .generateCount, file := some word }
  | .generateCount => r.finish .generate .badCount word

end Reader

/-- Reads the words of a command line, without the name of the program. -/
def read (words : List String) : Reader :=
  words.foldl Reader.step {}

end Telemetry.Tool
