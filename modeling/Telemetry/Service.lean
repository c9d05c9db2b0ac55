import Telemetry.Chunk.Reader
import Telemetry.Codec.Index
import Telemetry.Codec.Record
import Telemetry.Config.Search
import Telemetry.Files
import Telemetry.Record.Display

/-!
The stream service: an open stream, and what it tells of itself.
-/

namespace Telemetry

structure Service where
  /-- The name of the stream file. -/
  name : String
  reader : Chunk.Reader
  file : File

namespace Service

open Json

/-- Why a stream could not be opened. -/
inductive OpenError where
  | tags (e : Tag.Table.Error)
  | source (e : SourceError)
  | index (e : Index.Error)
  deriving DecidableEq, Repr

def OpenError.message : OpenError → String
  | tags e => "bad tag table: " ++ e.message
  | source e => "can't open stream: " ++ e.message
  | index e => "can't build index: " ++ e.message

/-- Indexes a file that was opened under a name. -/
def ofFile (c : Config.Stream) (table : Tag.Table) (name : String) (file : File) :
    Except OpenError Service :=
  match Index.build table c.clock c.interval file with
  | (.error e, _) => .error (.index e)
  | (.ok index, file) =>
    let reader := { index, table, clock := c.clock, cache := .new c.cacheCapacity }
    .ok ⟨name, reader, file⟩

/-- Opens the stream that the settings name. -/
def start {m : Type → Type} [Monad m] [FileSystem m] (c : Config.Stream) (workDir exeDir : String) :
    m (Except OpenError Service) := do
  let name := c.filePath workDir exeDir
  match c.table with
  | .error e => return .error (.tags e)
  | .ok table =>
    match ← FileSystem.openFile name with
    | .error e => return .error (.source e)
    | .ok file => return ofFile c table name file

/-- Why a request is refused. -/
inductive Error where
  | stale (indexed actual : Nat)
  | endBeforeStart (stop start : Nat)
  | spanTooLong (span : Nat)
  | countTooLarge (count : Nat)
  | chunk (e : Chunk.Error)
  /-- The reading came to no result. -/
  | blocked
  deriving DecidableEq, Repr

/-- The records that are sent if no end is given, and the most that are sent at once. -/
def defaultSpan : Nat := 100
def maxSpan : Nat := 10000

def Error.message : Error → String
  | stale indexed actual =>
    "IndexStale indexed=" ++ toString indexed ++ " actual=" ++ toString actual
  | endBeforeStart stop start =>
    "BadRange: end " ++ toString stop ++ " before start " ++ toString start
  | spanTooLong span =>
    "BadRange: span " ++ toString span ++ " exceeds " ++ toString maxSpan
  | countTooLarge count =>
    "BadRange: count " ++ toString count ++ " exceeds " ++ toString maxSpan
  | chunk e => "ChunkErr: " ++ e.message
  | blocked => "Blocking: Blocking thread pool is shut down"

def Error.status : Error → Nat
  | stale .. => 409
  | endBeforeStart .. | spanTooLong _ | countTooLarge _ => 400
  | chunk _ | blocked => 500

def Error.ofChunk : Chunk.Error → Error
  | .stale indexed actual => .stale indexed actual
  | .decode (.overflow _) => .blocked
  | e => .chunk e

def cacheJson (c : Chunk.Cache) : Json :=
  struct [
    ("hits", nat c.hits),
    ("misses", nat c.misses),
    ("len", nat c.size),
    ("capacity", nat c.capacity)]

/-- The stream and its index at a glance. -/
def info (s : Service) : Json :=
  let index := s.reader.index
  struct [
    ("file", text s.name),
    ("totalRecords", nat index.totalRecords),
    ("totalBytes", nat index.totalBytes),
    ("decodedBytes", nat index.decodedBytes),
    ("checkpoints", nat index.checkpoints.length),
    ("checkpointInterval", nat index.interval),
    ("end", index.finish.toJson),
    ("reorder", index.corrections.toJson),
    ("anomalies", nat index.anomalies.length),
    ("anomaliesDropped", nat index.anomaliesDropped),
    ("cache", cacheJson s.reader.cache)]

def recordJson (table : Tag.Table) (t : Timed) : Json :=
  struct [
    ("ordinal", nat t.record.ordinal),
    ("absoluteNs", nat t.ns),
    ("tag", nat t.record.tag.toNat),
    ("byteOffset", nat t.record.offset),
    ("byteLength", nat t.record.length),
    ("rawBytes", text (Bytes.hex t.record.payload)),
    ("renderedText", text (t.record.display table)),
    ("order", t.order.toJson)]

def chunkJson (table : Tag.Table) (c : Chunk) : Json :=
  struct [
    ("total", nat c.total),
    ("start", nat c.start),
    ("end", nat c.stop),
    ("reorder", c.corrections.toJson),
    ("records", list (recordJson table) c.records)]

/-- What is wrong with a range of positions. -/
def spanError (start stop : Nat) : Option Error :=
  if stop < start then some (.endBeforeStart stop start)
  else if maxSpan < stop - start then some (.spanTooLong (stop - start))
  else none

/-- The records from position `start` on. -/
def range (s : Service) (start : Nat) (stop? : Option Nat) : Except Error Json × Service :=
  let stop := stop?.getD (Word.addSat start defaultSpan)
  match spanError start stop with
  | some e => (.error e, s)
  | none =>
    match s.reader.fetch start stop s.file with
    | (.error e, reader, file) => (.error (.ofChunk e), { s with reader, file })
    | (.ok chunk, reader, file) => (.ok (chunkJson reader.table chunk), { s with reader, file })

/-- The checkpoints from record `start` on. -/
def checkpoints (s : Service) (start? count? : Option Nat) : Except Error Json :=
  let count := count?.getD defaultSpan
  let index := s.reader.index
  if maxSpan < count then .error (.countTooLarge count)
  else .ok (struct [
    ("checkpointInterval", nat index.interval),
    ("total", nat index.checkpoints.length),
    ("entries", list Checkpoint.toJson (index.checkpointsFrom (start?.getD 0) count))])

end Service

end Telemetry
