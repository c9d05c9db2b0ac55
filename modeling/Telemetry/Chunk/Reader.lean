import Telemetry.Chunk.Cache
import Telemetry.Timing

/-!
Random access to a stream by its index.
-/

namespace Telemetry.Chunk

/-- Reads chunks of an indexed source. The source itself is handed to each reading. -/
structure Reader where
  index : Index
  table : Tag.Table
  clock : Clock.Config
  cache : Cache
  tracker : Tracker := .empty

namespace Reader

/-- The name under which decodings are counted. -/
def decodeName : String := "chunk.decode"

/-- Where decoding starts for position `start`: one record early, as it may be swapped. -/
def startFor (r : Reader) (start : Nat) : Session.Start :=
  ((r.index.checkpointBefore (start - 1)).map Checkpoint.start).getD {}

/-- Decodes the records at positions `start` to `stop - 1`. Record `stop` is parsed too, as it may
come before the previous one; if it cannot be read, that matters only when it was needed. -/
def decode {σ : Type} [Source σ] (r : Reader) (start stop : Nat) (source : σ) :
    Except Fault Chunk × σ :=
  let origin := r.startFor start
  let session := (Session.resume r.table r.clock origin).withLimit (Word.addSat stop 1)
  let run := session.run source
  let records := (run.emitted.toList.drop (start - origin.ordinal)).take (stop - start)
  let chunk := {
    start, stop, records
    total := r.index.totalRecords
    corrections := Corrections.ofList records }
  match run.fault with
  | none => (.ok chunk, run.source)
  | some (.overflow o) => (.error (.overflow o), run.source)
  | some (.source e) =>
    if run.emitted.size < stop - origin.ordinal then (.error (.source e), run.source)
    else (.ok chunk, run.source)

/-- Decodes and remembers a chunk that is not in the cache. -/
def load {σ : Type} [Source σ] (r : Reader) (start stop : Nat) (source : σ) :
    Except Error Chunk × Reader × σ :=
  match r.decode start stop source with
  | (.error (.overflow o), source') => (.error (.decode (.overflow o)), r, source')
  | (.error f, source') =>
    (.error (.decode f), { r with tracker := r.tracker.track decodeName }, source')
  | (.ok chunk, source') =>
    let r' := { r with
      tracker := r.tracker.track decodeName
      cache := r.cache.put (start, stop) chunk }
    (.ok chunk, r', source')

/-- The records at positions `start` to `stop - 1`, as far as there are any. -/
def fetch {σ : Type} [Source σ] (r : Reader) (start stop : Nat) (source : σ) :
    Except Error Chunk × Reader × σ :=
  match Source.count source with
  | .error e => (.error (.source e), r, source)
  | .ok actual =>
    if actual ≠ r.index.totalBytes then (.error (.stale r.index.totalBytes actual), r, source)
    else
      let total := r.index.totalRecords
      let stop := min stop total
      if stop ≤ start then (.ok (empty (min start total) total), r, source)
      else match r.cache.get (start, stop) with
        | (some chunk, cache) => (.ok chunk, { r with cache }, source)
        | (none, cache) => load { r with cache } start stop source

end Reader

end Telemetry.Chunk
