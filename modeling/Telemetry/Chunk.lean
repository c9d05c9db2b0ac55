import Telemetry.Index

/-!
Chunks: the records at consecutive positions of the emission.
-/

namespace Telemetry

structure Chunk where
  start : Nat
  stop : Nat
  /-- The number of records of the whole stream. -/
  total : Nat
  /-- The records at positions `start` to `stop - 1`. -/
  records : List Timed
  corrections : Corrections
  deriving DecidableEq, Repr

namespace Chunk

/-- The chunk at a position where nothing was asked for, or nothing is left. -/
def empty (start total : Nat) : Chunk where
  start
  stop := start
  total
  records := []
  corrections := {}

def isEmpty (c : Chunk) : Bool :=
  c.records.isEmpty

inductive Error where
  /-- The size of the source is not the one that was indexed. -/
  | stale (indexed actual : Nat)
  | decode (f : Fault)
  /-- The size of the source could not be told. -/
  | source (e : SourceError)
  deriving DecidableEq, Repr

def Error.message : Error → String
  | stale indexed actual =>
    "index is stale: indexed " ++ toString indexed ++ " bytes, file has " ++ toString actual
  | decode f => f.message
  | source e => e.message

end Chunk

end Telemetry
