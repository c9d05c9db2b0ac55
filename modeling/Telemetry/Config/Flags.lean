import Telemetry.Config
import Telemetry.Text.Numeral

/-!
Settings on the command line. A flag takes the next word whatever it looks like; a port that is no
number is passed over, and so is a word that is no flag.
-/

namespace Telemetry.Config

/-- The settings that were given. -/
structure Flags where
  host : Option String := none
  port : Option UInt16 := none
  workDir : Option String := none
  file : Option String := none
  deriving DecidableEq, Repr

namespace Flags

inductive Flag where
  | host
  | port
  | workDir
  | file
  deriving DecidableEq, Repr

def Flag.ofWord? : String → Option Flag
  | "-host" => some .host
  | "-port" => some .port
  | "-work.dir" => some .workDir
  | "-wd" => some .workDir
  | "-file" => some .file
  | _ => none

def port? (word : String) : Option UInt16 :=
  (Text.Decimal.read 65536 word).toOption.map UInt16.ofNat

def set (f : Flags) (flag : Flag) (word : String) : Flags :=
  match flag with
  | .host => { f with host := some word }
  | .port => { f with port := (port? word).or f.port }
  | .workDir => { f with workDir := some word }
  | .file => { f with file := some word }

/-- Takes one word in; a flag waits for its value. -/
def step (state : Flags × Option Flag) (word : String) : Flags × Option Flag :=
  match state with
  | (f, some flag) => (f.set flag word, none)
  | (f, none) => (f, Flag.ofWord? word)

def parse (words : List String) : Flags :=
  (words.foldl step ({}, none)).1

/-- What was given takes the place of what is configured. -/
def apply (f : Flags) (c : Config) : Config where
  workDir := f.workDir.getD c.workDir
  web := { host := f.host.getD c.web.host, port := f.port.getD c.web.port }
  stream := { c.stream with file := f.file.getD c.stream.file }

end Flags

end Telemetry.Config
