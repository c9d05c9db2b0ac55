import Telemetry.Source

/-!
A file that has been opened for reading. A directory can be opened as well, but not read.
-/

namespace Telemetry

inductive File where
  | regular (contents : Array UInt8)
  | directory
  deriving DecidableEq, Repr

namespace File

/-- No read may reach past this position, whatever the size of the file. -/
def lastPosition : Nat := UInt64.size / 2 - 1

/-- The size that a directory tells; nothing is ever read of it. -/
def directorySize : Nat := 4096

def read (f : File) (position size : Nat) : Except SourceError Bytes :=
  if lastPosition < position + size then .error .invalidArgument
  else match f with
    | regular contents => .ok (Bytes.slice contents position size)
    | directory => .error .isDirectory

def size : File → Nat
  | regular contents => contents.size
  | directory => directorySize

instance : Source File where
  read f position size := (f.read position size, f)
  count f := .ok f.size
  extent := size
  extent_read _ _ _ := rfl
  read_within {f position size bytes} h hne := by
    simp only [read] at h
    split at h
    · simp at h
    · split at h
      · next contents =>
        simp only [Except.ok.injEq] at h
        subst h
        have hpos := List.length_pos_iff.2 hne
        have hle := Bytes.length_slice_le contents position size
        simp only [File.size]
        omega
      · simp at h

end File

end Telemetry
