import Telemetry.Source

/-!
A recording in memory, which can be made to misbehave: reads may be cut short, and reads from some
position on may fail a number of times or for good.
-/

namespace Telemetry

/-- When reads fail. -/
structure Faults where
  /-- The first position that cannot be read. -/
  position : Nat
  /-- How many reads still fail; `none` for all of them. -/
  remaining : Option Nat := none
  deriving DecidableEq, Repr

structure Memory where
  contents : Array UInt8
  /-- The most bytes of one read. -/
  readLimit : Option Nat := none
  faults : Option Faults := none
  countFails : Bool := false
  deriving DecidableEq, Repr

namespace Memory

/-- What a read fails with. -/
def injected : SourceError := ⟨"injected", none⟩

/-- Whether a read at `position` fails, and the faults that are left. -/
def Faults.strike (f : Faults) (position : Nat) : Option Faults :=
  if f.position ≤ position then
    match f.remaining with
    | none => some f
    | some 0 => none
    | some (n + 1) => some { f with remaining := some n }
  else none

/-- How much one read returns at most. -/
def readSize (m : Memory) (size : Nat) : Nat :=
  match m.readLimit with
  | some limit => min limit size
  | none => size

def read (m : Memory) (position size : Nat) : Except SourceError Bytes × Memory :=
  match m.faults.bind (Faults.strike · position) with
  | some left => (.error injected, { m with faults := some left })
  | none => (.ok (Bytes.slice m.contents position (m.readSize size)), m)

def count (m : Memory) : Except SourceError Nat :=
  if m.countFails then .error injected else .ok m.contents.size

instance : Source Memory where
  read := read
  count := count
  extent m := m.contents.size
  extent_read m position size := by
    simp only [read]
    split <;> rfl
  read_within {m position size bytes} h hne := by
    simp only [read] at h
    split at h
    · simp at h
    · simp only [Except.ok.injEq] at h
      subst h
      have hpos := List.length_pos_iff.2 hne
      have hle := Bytes.length_slice_le m.contents position (m.readSize size)
      omega

end Memory

end Telemetry
