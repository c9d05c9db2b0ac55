import Telemetry.Files
import Telemetry.Synthesis
import Telemetry.Tool.Action
import Telemetry.Tool.Report

/-!
Carrying out what the command line asks for, one action after the other. A failed action does not
keep the next ones from being tried.
-/

namespace Telemetry.Tool

/-- What a run says: lines of output, and lines of a log. -/
inductive Line where
  | output (s : String)
  | warning (s : String)
  | error (s : String)
  deriving DecidableEq, Repr

/-- Lines of a message after the first are indented. -/
def indent (message : String) : String :=
  String.ofList (message.toList.flatMap fun c =>
    if c = '\n' then ['\n', ' ', ' ', ' ', ' '] else [c])

/-- What is written for a line; a line of the log tells how grave it is. -/
def Line.text : Line → String
  | output s => s
  | warning s => "WARN " ++ indent s
  | error s => "ERROR " ++ indent s

/-- Indexes a file with the standard tags. -/
def index (file : File) : Except Error Chunk.Reader × File :=
  match Index.build .standard {} Index.defaultInterval file with
  | (.error e, file) => (.error (.index e), file)
  | (.ok index, file) =>
    (.ok { index, table := .standard, clock := {}, cache := .new Chunk.Cache.defaultCapacity },
      file)

/-- The warnings of an index as lines. -/
def warnings (index : Index) : List Line :=
  (index.warning.map Line.warning).toList

/-- What an action says of an opened file, and what went wrong. -/
def inspect (file : File) (present : Chunk.Reader → File → Except Error (List String)) :
    List Line × Option Error :=
  match index file with
  | (.error e, _) => ([], some e)
  | (.ok reader, file) =>
    match present reader file with
    | .error e => (warnings reader.index, some e)
    | .ok lines => (warnings reader.index ++ lines.map .output, none)

def infoLines (name : String) (reader : Chunk.Reader) (_ : File) : Except Error (List String) :=
  .ok (Report.info name reader.index)

def viewLines (start stop : Nat) (reader : Chunk.Reader) (file : File) :
    Except Error (List String) :=
  match reader.fetch start stop file with
  | (.error e, _) => .error (.chunk e)
  | (.ok chunk, _) => .ok (Report.view reader.table start stop chunk)

variable {m : Type → Type} [Monad m] [FileSystem m] {γ : Type} [RandomSource γ]

/-- Looks into a file by its name. -/
def openNamed (name : String) (present : Chunk.Reader → File → Except Error (List String)) :
    m (List Line × Option Error) := do
  match ← FileSystem.openFile name with
  | .error e => return ([], some (.source e))
  | .ok file => return inspect file present

def perform (g : γ) : Action → m ((List Line × Option Error) × γ)
  | .info name => do return (← openNamed name (infoLines name), g)
  | .view name start stop => do return (← openNamed name (viewLines start stop), g)
  | .generate name count => do
    let (bytes, g) := Synthesis.generate .standard count g
    match ← FileSystem.writeFile name bytes with
    | .error e => return (([], some (.write e)), g)
    | .ok () => return (([], none), g)

/-- What a failed action leaves in the log. -/
def failureLine (a : Action) (e : Error) : Line :=
  .error ("execute " ++ a.text ++ " failed with " ++ e.message)

def performAll (g : γ) : List Action → m (List Line)
  | [] => return []
  | a :: rest => do
    let ((lines, e?), g) ← perform g a
    let more ← performAll g rest
    return lines ++ (e?.map (failureLine a)).toList ++ more

/-- Reads a command line and does what it says. -/
def run (g : γ) (words : List String) : m (List Line) := do
  let reader := read words
  let lines ← performAll g reader.actions
  return reader.warnings.map (fun w => .warning w.message) ++ lines

end Telemetry.Tool
