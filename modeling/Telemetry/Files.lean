import Telemetry.Source.File

/-!
Files by name. Programs are written over a `FileSystem`; a `FileTree` is one in memory, which
answers as the system does: it tells a missing file, a directory and a file in the place of a
directory apart.
-/

namespace Telemetry

/-- What a program needs of a file system. -/
class FileSystem (m : Type → Type) where
  /-- Opens for reading. -/
  openFile : String → m (Except SourceError File)
  /-- Creates a file, or replaces what it held. -/
  writeFile : String → Bytes → m (Except SourceError Unit)
  /-- Whether there is a file or a directory of the name. -/
  fileExists : String → m Bool

/-- The names on the way from the root. -/
abbrev FilePath := List String

/-- Files and directories by their paths. A directory is there as soon as something is in it. -/
structure FileTree where
  entries : List (FilePath × File) := []
  /-- Where names begin that do not begin at the root. -/
  current : FilePath := []

namespace FileTree

/-- The longest name of a file, and the length that a whole path may not reach, in bytes. -/
def maxName : Nat := 255
def maxPath : Nat := 4096

def find (t : FileTree) (path : FilePath) : Option File :=
  match t.entries.lookup path with
  | some f => some f
  | none => if path.isEmpty || t.entries.any (path.isPrefixOf ·.1) then some .directory else none

/-- One name further, from a place that has to be a directory. -/
def enter (t : FileTree) (here : FilePath) (name : String) : Except SourceError FilePath :=
  match t.find here with
  | none => .error .notFound
  | some (.regular _) => .error .notDirectory
  | some .directory =>
    if name = "" ∨ name = "." then .ok here
    else if name = ".." then .ok here.dropLast
    else if maxName < name.utf8ByteSize then .error .nameTooLong
    else .ok (here ++ [name])

/-- The names between slashes. -/
def names (name : String) : List String :=
  (name.toList.splitOn '/').map String.ofList

/-- What can be told of a name before it is looked up. -/
def checkName (name : String) : Except SourceError Unit :=
  if name.contains '\x00' then .error ⟨"file name contained an unexpected NUL byte", none⟩
  else if name.isEmpty then .error .notFound
  else if maxPath ≤ name.utf8ByteSize then .error .nameTooLong
  else .ok ()

/-- Follows names from where `name` begins. -/
def walk (t : FileTree) (name : String) (steps : List String) : Except SourceError FilePath :=
  steps.foldlM t.enter (if name.startsWith "/" then [] else t.current)

/-- Where a name leads; there need not be a file. -/
def locate (t : FileTree) (name : String) : Except SourceError FilePath := do
  checkName name
  t.walk name (names name)

def openFile (t : FileTree) (name : String) : Except SourceError File := do
  match t.find (← t.locate name) with
  | some f => .ok f
  | none => .error .notFound

def insert (t : FileTree) (path : FilePath) (f : File) : FileTree :=
  { t with entries := (path, f) :: t.entries.filter (·.1 != path) }

/-- The names on the way to the last one. -/
def leading (name : String) : List String :=
  (((names name).reverse.dropWhile (· == "")).drop 1).reverse

/-- Creates or replaces a file. A name that ends with a slash can only be that of a directory,
whether there is one or not. -/
def writeFile (t : FileTree) (name : String) (bytes : Bytes) : Except SourceError FileTree := do
  checkName name
  if name.endsWith "/" then
    let _ ← t.walk name (leading name ++ [""])
    .error .isDirectory
  else
    let path ← t.walk name (names name)
    match t.find path with
    | some .directory => .error .isDirectory
    | _ => .ok (t.insert path (.regular bytes.toArray))

def fileExists (t : FileTree) (name : String) : Bool :=
  (t.openFile name).toOption.isSome

instance : FileSystem (StateM FileTree) where
  openFile name := do return (← get).openFile name
  writeFile name bytes := do
    match (← get).writeFile name bytes with
    | .error e => return .error e
    | .ok t => set t; return .ok ()
  fileExists name := do return (← get).fileExists name

end FileTree

end Telemetry
