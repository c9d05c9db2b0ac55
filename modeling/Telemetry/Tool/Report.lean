import Telemetry.Chunk.Reader
import Telemetry.Record.Display

/-!
What the tool prints: the summary of a stream, and its records one in a line.
-/

namespace Telemetry.Tool

/-- Why an action failed. -/
inductive Error where
  | source (e : SourceError)
  | index (e : Index.Error)
  | chunk (e : Chunk.Error)
  | write (e : SourceError)
  deriving DecidableEq, Repr

def Error.message : Error → String
  | source e => e.message
  | index e => e.message
  | chunk e => e.message
  | write e => "io error: " ++ e.reason

namespace Report

/-- The most anomalies that are shown. -/
def maxAnomalies : Nat := 10

def endLines : StreamEnd → List String
  | .eof => ["end         eof"]
  | .truncated offset trailing =>
    ["end         truncated at " ++ toString offset ++ ", " ++ toString trailing ++
      " trailing bytes"]
  | .lostSync ordinal offset tag lastGood =>
    ("end         lost sync at " ++ toString offset ++ ", ordinal " ++ toString ordinal ++
      ", tag " ++ Tag.code tag) ::
    (lastGood.map fun good =>
      "last good   ordinal " ++ toString good.ordinal ++ " at " ++ toString good.offset).toList
  | .limit ordinal => ["end         limit " ++ toString ordinal]

def correctionsLine (c : Corrections) : String :=
  "reorder     " ++ toString c.swaps ++ " corrections (max " ++ toString c.maxSwapTicks.toNat ++
    " ticks), " ++ toString c.clamped ++ " clamped, " ++ toString c.ambiguous ++ " ambiguous"

def anomalyLine (a : Anomaly) : String :=
  "ambiguous   ordinal " ++ toString a.ordinal ++ " at " ++ toString a.offset ++ ", back " ++
    toString a.backTicks.toNat ++ " ticks"

/-- The summary of an indexed file. -/
def info (name : String) (index : Index) : List String :=
  ["file        " ++ name,
    "records     " ++ toString index.totalRecords,
    "bytes       " ++ toString index.totalBytes ++ " (decoded " ++ toString index.decodedBytes ++
      ")",
    "checkpoints " ++ toString index.checkpoints.length ++ " every " ++ toString index.interval] ++
  endLines index.finish ++
  [correctionsLine index.corrections] ++
  (index.anomalies.take maxAnomalies).map anomalyLine

/-- Puts spaces before a text that is shorter than `width`. -/
def padLeft (width : Nat) (s : String) : String :=
  String.ofList (List.replicate (width - s.length) ' ') ++ s

/-- How the place of a record is marked. -/
def mark : Clock.Order → String
  | .inOrder => " "
  | .swapWithPrevious _ => "<"
  | .clamped _ => "="
  | .ambiguous _ => "?"

def recordLine (table : Tag.Table) (t : Timed) : String :=
  padLeft 8 (toString t.record.ordinal) ++ " " ++ padLeft 14 (toString t.ns) ++ " " ++
    padLeft 10 (toString t.record.offset) ++ " " ++ mark t.order ++ " " ++ t.record.display table

/-- The records of a chunk that was asked for as `start` to `stop`. -/
def view (table : Tag.Table) (start stop : Nat) (chunk : Chunk) : List String :=
  if chunk.isEmpty then
    ["no records in " ++ toString start ++ ".." ++ toString stop ++ ", total " ++
      toString chunk.total]
  else chunk.records.map (recordLine table)

end Report

end Telemetry.Tool
