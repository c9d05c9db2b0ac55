import Telemetry.Tool.Run

/-!
The command line tool: `i` shows the summary of a stream file, `v` its records from one position to
another, and `g` writes a made-up stream.
-/

namespace Telemetry

/-- A system error as the tool tells it. -/
def SourceError.ofSystem (e : IO.Error) : SourceError :=
  match e with
  | .noFileOrDirectory .. => notFound
  | .inappropriateType _ code _ => if code = 21 then isDirectory else notDirectory
  | .permissionDenied .. => system "Permission denied" 13
  | e => ⟨toString e, none⟩

/-- The files of the system; a directory shows by not being readable. -/
instance : FileSystem IO where
  openFile name := do
    try
      let bytes ← IO.FS.readBinFile name
      return .ok (.regular bytes.data)
    catch e =>
      let e := SourceError.ofSystem e
      if e = .isDirectory then return .ok .directory else return .error e
  writeFile name bytes := do
    try
      IO.FS.writeBinFile name ⟨bytes.toArray⟩
      return .ok ()
    catch e => return .error (.ofSystem e)
  fileExists name := do
    try
      let _ ← IO.FS.readBinFile name
      return true
    catch e =>
      return SourceError.ofSystem e ≠ .notFound

/-- The log goes to the error output. -/
def Tool.Line.emit (l : Line) : IO Unit :=
  match l with
  | .output _ => IO.println l.text
  | .warning _ | .error _ => IO.eprintln l.text

end Telemetry

/-- Writes at random, so no two made-up streams are the same. -/
def main (args : List String) : IO Unit := do
  let seed ← IO.rand 0 UInt32.size
  let lines ← Telemetry.Tool.run (Telemetry.SplitMix.mk (UInt64.ofNat seed)) args
  lines.forM Telemetry.Tool.Line.emit
