import Telemetry.Emission
import Telemetry.Record.Parser
import Telemetry.Window

/-!
A decoding session: the state of a pass over a stream, and one step of it.

A step emits a record that is ready, or looks at the window once: it parses a record or a
character, reads on, or finds the end. A step that fails leaves the session as it was.
-/

namespace Telemetry

/-- A record that was parsed. -/
structure Mark where
  ordinal : Nat
  offset : Nat
  deriving DecidableEq, Repr

/-- Why a session stopped. -/
inductive StreamEnd where
  /-- The data ends with a record. -/
  | eof
  /-- The data ends inside the record that begins at `offset`. -/
  | truncated (offset trailing : Nat)
  /-- Record `ordinal` would begin with a tag that is in no table. -/
  | lostSync (ordinal offset : Nat) (tag : UInt8) (lastGood : Option Mark)
  /-- Record `ordinal` was not to be parsed. -/
  | limit (ordinal : Nat)
  deriving DecidableEq, Repr

/-- A parsed record and the time state before it. -/
structure Observation where
  record : Record
  before : Clock.State
  deriving DecidableEq, Repr

structure Session where
  window : Window
  parser : Record.Parser
  clock : Clock.Config
  state : Clock.State
  /-- The ordinal of the next record. -/
  ordinal : Nat
  /-- Records from this ordinal on are not parsed. -/
  limit : Option Nat := none
  queue : Queue := {}
  /-- Records to emit. -/
  ready : List Timed := []
  finish : Option StreamEnd := none
  lastGood : Option Mark := none
  corrections : Corrections := {}

namespace Session

/-- A record boundary from which a session can start. -/
structure Start where
  ordinal : Nat := 0
  offset : Nat := 0
  state : Clock.State := {}
  deriving DecidableEq, Repr

/-- A session from a record boundary on. -/
def resume (table : Tag.Table) (clock : Clock.Config) (start : Start) : Session where
  window := .start start.offset
  parser := { table }
  clock
  state := start.state
  ordinal := start.ordinal

/-- A session from the beginning of the stream. -/
def new (table : Tag.Table) (clock : Clock.Config) : Session :=
  resume table clock {}

def withLimit (s : Session) (limit : Nat) : Session :=
  { s with limit := some limit }

/-- The position right after what has been parsed. -/
def offset (s : Session) : Nat :=
  s.window.offset

/-- The limit, once it is reached. -/
def limitReached (s : Session) : Option Nat :=
  s.limit.filter (· ≤ s.ordinal)

/-- Stops and lets go of the held record. -/
def stop (s : Session) (finish : StreamEnd) : Session :=
  let (queue, out) := s.queue.flush
  { s with finish := some finish, queue, ready := s.ready ++ out }

/-- What the end of the data means: it may cut a record short. -/
def endOfData (s : Session) : Except Overflow StreamEnd :=
  let tail := s.window.size
  match s.parser.pendingOffset with
  | some start => do
    let parsed ← Word.sub s.window.offset start
    let trailing ← Word.add parsed tail
    return .truncated start trailing
  | none => return if tail = 0 then .eof else .truncated s.window.offset tail

/-- Takes in a parsed record: gives it its time and its place. -/
def accept (s : Session) (parser : Record.Parser) (record : Record) (consumed : Nat) :
    Except Overflow Session := do
  let window ← s.window.consume consumed
  let ordinal ← Word.add s.ordinal 1
  let advance ← s.clock.advance s.state record.rawTicks
  let (queue, out) := s.queue.push ⟨record, advance.ns, advance.order⟩
  return { s with
    window
    parser
    state := advance.state
    ordinal
    queue
    ready := s.ready ++ out
    lastGood := some ⟨record.ordinal, record.offset⟩
    corrections := s.corrections.observe advance.order }

/-- What a step did. -/
inductive Event where
  | emitted (t : Timed)
  | parsed (o : Observation)
  /-- The session went on, but has nothing to show for it. -/
  | worked
  /-- There is nothing left to do. -/
  | over
  deriving DecidableEq, Repr

/-- Reads on, or stops where the data does. -/
def refill {σ : Type} [Source σ] (s : Session) (source : σ) :
    Except Fault (Event × Session) × σ :=
  match s.window.fill source with
  | (.error f, source') => (.error f, source')
  | (.ok (added, window), source') =>
    let s' := { s with window }
    if added = 0 then
      match s'.endOfData with
      | .error o => (.error (.overflow o), source')
      | .ok finish => (.ok (.worked, s'.stop finish), source')
    else (.ok (.worked, s'), source')

/-- What the bytes of the window decide. -/
def examine {σ : Type} [Source σ] (s : Session) (source : σ) : Except Fault (Event × Session) × σ :=
  match s.parser.decode s.window.bytes s.window.offset s.ordinal with
  | .error o => (.error (.overflow o), source)
  | .ok (.complete record consumed, parser) =>
    match s.accept parser record consumed with
    | .error o => (.error (.overflow o), source)
    | .ok s' => (.ok (.parsed ⟨record, s.state⟩, s'), source)
  | .ok (.pending consumed, parser) =>
    match s.window.consume consumed with
    | .error o => (.error (.overflow o), source)
    | .ok window => (.ok (.worked, { s with window, parser }), source)
  | .ok (.needMore, _) => s.refill source
  | .ok (.lostSync offset tag, _) =>
    (.ok (.worked, s.stop (.lostSync s.ordinal offset tag s.lastGood)), source)

/-- Looks at the window once, if it holds as much as a decision needs. -/
def look {σ : Type} [Source σ] (s : Session) (source : σ) : Except Fault (Event × Session) × σ :=
  if s.window.size < s.parser.wanted s.window.front.head? then s.refill source
  else s.examine source

/-- Holding back changes nothing but the work. -/
theorem look_eq_examine {σ : Type} [Source σ] (s : Session) (source : σ) :
    s.look source = s.examine source := by
  unfold look
  split
  · next h =>
    have hlt : s.window.bytes.length < s.parser.wanted s.window.bytes.head? := by
      rw [s.window.length_bytes]
      cases hf : s.window.front with
      | cons c rest => simpa [s.window.bytes_eq, hf] using h
      | nil =>
        have hsize : s.window.size = 0 := by
          rw [hf] at h
          exact Nat.lt_one_iff.1 h
        have hnil : s.window.bytes = [] :=
          List.eq_nil_of_length_eq_zero (by rw [s.window.length_bytes, hsize])
        rw [hsize, hnil]
        exact Nat.one_pos
    simp only [examine, Record.Parser.decode_of_lt_wanted hlt]
  · rfl

def step {σ : Type} [Source σ] (s : Session) (source : σ) : Except Fault (Event × Session) × σ :=
  match s.ready with
  | t :: ready => (.ok (.emitted t, { s with ready }), source)
  | [] =>
    match s.finish with
    | some _ => (.ok (.over, s), source)
    | none =>
      match s.limitReached with
      | some limit => (.ok (.worked, s.stop (.limit limit)), source)
      | none => s.look source

end Session

end Telemetry
