import Telemetry.Codec.Config
import Telemetry.Files
import Telemetry.Text.Utf8

/-!
Finding files. The name of the stream file may hold placeholders for directories, and is relative to
the working directory; the settings are in the nearest file of the known name, from the working
directory upward.
-/

namespace Telemetry.Config

/-- Replaces every occurrence of a pattern, from left to right. -/
def replaceAll (pattern replacement : List Char) (text : List Char) : List Char :=
  match text with
  | [] => []
  | c :: rest =>
    if pattern.isPrefixOf (c :: rest) then
      replacement ++ replaceAll pattern replacement (rest.drop (pattern.length - 1))
    else c :: replaceAll pattern replacement rest
termination_by text.length
decreasing_by
  · simp only [List.length_drop, List.length_cons]
    omega
  · simp

def workDirMark : String := "$\x7bwork.dir\x7d"
def exeDirMark : String := "$\x7bexe.dir\x7d"

/-- Replaces the mark of the working directory, and then, in the result, that of the directory of
the program. -/
def expand (template workDir exeDir : String) : String :=
  let withWork := replaceAll workDirMark.toList workDir.toList template.toList
  String.ofList (replaceAll exeDirMark.toList exeDir.toList withWork)

def isAbsolute (path : String) : Bool :=
  path.startsWith "/"

/-- A name seen from a directory. -/
def joinPath (dir path : String) : String :=
  if isAbsolute path || dir.isEmpty then path
  else if dir.endsWith "/" then dir ++ path
  else dir ++ "/" ++ path

namespace Stream

def filePath (c : Stream) (workDir exeDir : String) : String :=
  joinPath workDir (expand c.file workDir exeDir)

end Stream

/-- The names of a path, the last first, and what is left as one after the other is taken away. -/
def shortened : List (List Char) → List (List (List Char))
  | [] => []
  | name :: rest => (name :: rest) :: shortened rest

/-- A directory and those around it, up to the root. -/
def ancestors (dir : String) : List String :=
  (shortened (dir.toList.splitOn '/').reverse).map fun names =>
    if names = [[]] then "/" else String.ofList (['/'].intercalate names.reverse)

/-! ## The settings -/

def fileName : String := "evlog.json"

/-- The settings that a file holds, if it can be read and makes sense. -/
def ofFile? (workDir : String) : Except SourceError File → Option Config
  | .ok (.regular bytes) => do parse? workDir (← Text.decodeStrict? bytes.toList)
  | _ => none

variable {m : Type → Type} [Monad m] [FileSystem m]

/-- The first of the names that there is. -/
def firstExisting : List String → m (Option String)
  | [] => return none
  | name :: rest => do
    if ← FileSystem.fileExists name then return some name else firstExisting rest

/-- Only the nearest file counts; if it cannot be used, all settings have their defaults. -/
def find (workDir : String) : m Config := do
  match ← firstExisting ((ancestors workDir).map (joinPath · fileName)) with
  | none => return { workDir }
  | some name => return (ofFile? workDir (← FileSystem.openFile name)).getD { workDir }

end Telemetry.Config
