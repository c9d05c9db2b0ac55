import Telemetry.Session.Run

/-!
The index of a stream: checkpoints from which a session can be resumed, and what one pass over the
stream found.
-/

namespace Telemetry

/-- A record at which decoding can be resumed, with the time state before it. -/
structure Checkpoint where
  ordinal : Nat
  offset : Nat
  state : Clock.State
  deriving DecidableEq, Repr

def Checkpoint.start (c : Checkpoint) : Session.Start where
  ordinal := c.ordinal
  offset := c.offset
  state := c.state

/-- A record whose time could not be told for certain. -/
structure Anomaly where
  ordinal : Nat
  offset : Nat
  backTicks : UInt16
  deriving DecidableEq, Repr

structure Index where
  checkpoints : List Checkpoint
  totalRecords : Nat
  totalBytes : Nat
  /-- The position right after the last record. -/
  decodedBytes : Nat
  finish : StreamEnd
  corrections : Corrections
  anomalies : List Anomaly
  /-- The anomalies that are not listed. -/
  anomaliesDropped : Nat
  /-- Every record whose ordinal is a multiple has a checkpoint. -/
  interval : Nat
  deriving DecidableEq, Repr

namespace Index

def defaultInterval : Nat := 64

/-- The most anomalies that are listed. -/
def maxAnomalies : Nat := 1024

inductive Error where
  | zeroInterval
  /-- The size of the source could not be told. -/
  | source (e : SourceError)
  | decode (f : Fault)
  deriving DecidableEq, Repr

def Error.message : Error → String
  | zeroInterval => "checkpoint interval must be positive"
  | source e => e.message
  | decode f => f.message

/-- The checkpoint at an observed record, if it gets one. -/
def checkpointAt (interval : Nat) (o : Observation) : Option Checkpoint :=
  if o.record.ordinal % interval = 0 then some ⟨o.record.ordinal, o.record.offset, o.before⟩
  else none

def anomalyOf (t : Timed) : Option Anomaly :=
  match t.order with
  | .ambiguous ticks => some ⟨t.record.ordinal, t.record.offset, ticks⟩
  | _ => none

/-- Where the records end when a session does. -/
def decodedBytesOf (finish : StreamEnd) (s : Session) : Nat :=
  match finish with
  | .truncated offset _ => offset
  | .lostSync _ offset _ _ => offset
  | .eof | .limit _ => s.offset

/-- The index of a finished run. -/
def ofRun {σ : Type} (interval totalBytes : Nat) (run : Session.Run σ) : Index :=
  let finish := run.session.finish.getD .eof
  let anomalies := run.emitted.toList.filterMap anomalyOf
  { checkpoints := run.observed.toList.filterMap (checkpointAt interval)
    totalRecords := run.session.ordinal
    totalBytes
    decodedBytes := decodedBytesOf finish run.session
    finish
    corrections := run.session.corrections
    anomalies := anomalies.take maxAnomalies
    anomaliesDropped := (anomalies.drop maxAnomalies).length
    interval }

/-- Indexes a source in one pass. -/
def build {σ : Type} [Source σ] (table : Tag.Table) (clock : Clock.Config) (interval : Nat)
    (source : σ) : Except Error Index × σ :=
  if interval = 0 then (.error .zeroInterval, source)
  else match Source.count source with
    | .error e => (.error (.source e), source)
    | .ok totalBytes =>
      let run := (Session.new table clock).run source
      match run.fault with
      | some f => (.error (.decode f), run.source)
      | none => (.ok (ofRun interval totalBytes run), run.source)

/-- How many elements have the property, where those that have it come first: the middle one of
what is left tells on which side of it the border is. -/
def partitionPoint {α : Type} (p : α → Bool) (xs : List α) : Nat :=
  if _h : 1 < xs.length then
    have : xs.length / 2 < xs.length := by omega
    if p xs[xs.length / 2] then
      xs.length / 2 + partitionPoint p (xs.drop (xs.length / 2))
    else partitionPoint p (xs.take (xs.length / 2))
  else xs.countP p
termination_by xs.length
decreasing_by
  all_goals
    simp only [List.length_drop, List.length_take]
    omega

/-- The last checkpoint whose ordinal is at most `ordinal`; the checkpoints are in order. -/
def checkpointBefore (index : Index) (ordinal : Nat) : Option Checkpoint :=
  match partitionPoint (·.ordinal ≤ ordinal) index.checkpoints with
  | 0 => none
  | n + 1 => index.checkpoints[n]?

/-- The first `count` checkpoints whose ordinal is at least `ordinal`. -/
def checkpointsFrom (index : Index) (ordinal count : Nat) : List Checkpoint :=
  let first := partitionPoint (·.ordinal < ordinal) index.checkpoints
  (index.checkpoints.drop first).take count

/-- What is worth a warning: the stream could not be decoded to its end. -/
def warning (index : Index) : Option String :=
  match index.finish with
  | .lostSync ordinal offset tag _ =>
    some ("lost sync at ordinal " ++ toString ordinal ++ ", offset " ++ toString offset ++
      ", tag " ++ Tag.code tag)
  | _ => none

end Index

end Telemetry
