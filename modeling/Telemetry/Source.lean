import Telemetry.Bytes

/-!
Sources of bytes. A source is read by position; a read may fail and be tried again, and may return
fewer bytes than asked for. No bytes mean that the data has ended.
-/

namespace Telemetry

/-- A failure of the medium, with the number of the system error if there was one. -/
structure SourceError where
  reason : String
  code : Option Nat := none
  deriving DecidableEq, Repr

namespace SourceError

private def codeText (code : Nat) : String :=
  " (os error " ++ toString code ++ ")"

/-- An error of the operating system, which puts the number into the reason. -/
def system (reason : String) (code : Nat) : SourceError :=
  ⟨reason ++ codeText code, some code⟩

def message (e : SourceError) : String :=
  "io error: " ++ e.reason ++ match e.code with
    | some code => codeText code
    | none => ""

def notFound : SourceError := system "No such file or directory" 2
def notDirectory : SourceError := system "Not a directory" 20
def isDirectory : SourceError := system "Is a directory" 21
def invalidArgument : SourceError := system "Invalid argument" 22
def nameTooLong : SourceError := system "File name too long" 36

end SourceError

/-- Bytes that are read by position. What a read leaves behind may answer the next one differently,
but `extent` bounds the positions that ever hold a byte. -/
class Source (σ : Type) where
  read : σ → (position size : Nat) → Except SourceError Bytes × σ
  /-- The number of bytes there are at the moment. -/
  count : σ → Except SourceError Nat
  extent : σ → Nat
  extent_read : ∀ s position size, extent (read s position size).2 = extent s
  read_within : ∀ {s position size bytes}, (read s position size).1 = .ok bytes → bytes ≠ [] →
    position + bytes.length ≤ extent s

end Telemetry
