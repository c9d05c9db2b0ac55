import Telemetry.Proofs.Course
import Telemetry.Proofs.Delivery
import Telemetry.Proofs.Parse

/-!
# A run over some data

A session within some data has parsed all that comes before its window, and its window shows what
follows.  One step of it takes one step of parsing (`step_reads`), so a run over a source that is
faithful to the data fails with the source, or parses what the data parse into as far as the clock
goes (`run_reads`).  With what the records make of a run, the outcome is a function of the data
(`summary_run`).
-/

namespace Telemetry

namespace Session

/-- What is left to parse. -/
def toParse (s : Session) (data : Bytes) : Record.Parse :=
  s.parser.parse s.limit (data.drop s.offset) s.offset s.ordinal

/-- What the clock makes of that. -/
def toClock (s : Session) (data : Bytes) : Clock.Timeline :=
  s.clock.timeline s.state (s.toParse data).records

/-- The session stands in the data, at `last` or before. -/
structure Within (s : Session) (data : Bytes) (last : Nat) : Prop where
  shows : s.window.Shows data
  offset_le : s.window.offset ≤ last
  sound : s.parser.Sound s.window.offset

theorem within_resume (table : Tag.Table) (clock : Clock.Config) {start : Start} {last : Nat}
    (h : start.offset ≤ last) (data : Bytes) : (resume table clock start).Within data last :=
  ⟨Window.shows_start data start.offset, h, Record.Parser.sound_of_openText rfl _⟩

theorem within_new (table : Tag.Table) (clock : Clock.Config) (data : Bytes) (last : Nat) :
    (new table clock).Within data last :=
  within_resume table clock (Nat.zero_le last) data

/-- What a step may come to that looks at the data. -/
inductive Reads {σ : Type} [Source σ] (s : Session) (source : σ) (data : Bytes) (last : Nat) :
    Except Fault (Event × Session) × σ → Prop where
  | failed {e : SourceError} {source' : σ} (hfails : Source.FailsWith source last e) :
    Reads s source data last (.error (.source e), source')
  | overflowed {r : Record} {rs : List Record} {o : Overflow}
      (hparse : (s.toParse data).records = r :: rs) (ha : s.clock.enter s.state r = .error o) :
    Reads s source data last (.error (.overflow o), source)
  | parsed {window : Window} {parser : Record.Parser} {r : Record} {a : Clock.Advance}
      (ha : s.clock.enter s.state r = .ok a)
      (hwithin : (s.accepted window parser r a).Within data last)
      (hparse : s.toParse data = { (s.accepted window parser r a).toParse data with
        records := r :: ((s.accepted window parser r a).toParse data).records }) :
    Reads s source data last (.ok (.parsed ⟨r, s.state⟩, s.accepted window parser r a), source)
  | moved {window : Window} {parser : Record.Parser} {source' : σ}
      (hreach : Source.Reaches last source source')
      (hwithin : { s with window, parser : Session }.Within data last)
      (hparse : s.toParse data = { s with window, parser : Session }.toParse data) :
    Reads s source data last (.ok (.worked, { s with window, parser }), source')
  | stopped (window : Window) {e : StreamEnd} {source' : σ}
      (hreach : Source.Reaches last source source') (hoffset : window.offset = s.offset)
      (hparse : s.toParse data = ⟨[], e, s.offset⟩) :
    Reads s source data last
      (.ok (.worked, { s with window }.stop (e.withLastGood s.lastGood)), source')

theorem endOfData_eq {s : Session} (hs : s.parser.Sound s.window.offset)
    (hfit : s.window.offset + s.window.size < Word.size) :
    s.endOfData = .ok (s.parser.endOf s.window.size s.window.offset) := by
  unfold endOfData Record.Parser.endOf
  rcases hp : s.parser.pendingOffset with _ | start
  · rfl
  · have hle : start ≤ s.window.offset := by
      obtain ⟨text, htext, rfl⟩ := Option.map_eq_some_iff.1 hp
      exact hs.offset_le text htext
    have hsub : Word.sub s.window.offset start = .ok (s.window.offset - start) :=
      Word.sub_eq_ok_iff.2 ⟨hle, rfl⟩
    have hadd : Word.add (s.window.offset - start) s.window.size =
        .ok (s.window.offset - start + s.window.size) :=
      Word.add_eq_ok_iff.2 ⟨by omega, rfl⟩
    simp only [hsub, hadd, bind, Except.bind]
    rfl

theorem withLastGood_endOf (p : Record.Parser) (tail offset : Nat) (lastGood : Option Mark) :
    (p.endOf tail offset).withLastGood lastGood = p.endOf tail offset := by
  unfold Record.Parser.endOf
  split
  · rfl
  · split_ifs <;> rfl

section Step

variable {σ : Type} [Source σ] {s : Session} {source : σ} {data : Bytes} {last : Nat}

theorem refill_reads (h : s.Within data last) (hs : Source.Faithful source data last)
    (hlimit : s.limitReached = none)
    (hd : s.parser.decode s.window.bytes s.window.offset s.ordinal = .ok (.needMore, s.parser)) :
    s.Reads source data last (s.refill source) := by
  have hlen := hs.length_le
  have hlast := hs.last_lt
  unfold refill
  rcases h.shows.fill hs h.offset_le with
    ⟨e, source', hf, hfails⟩ | ⟨added, w, source', hf, hreach, hshows, hoffset, hend⟩
  · rw [hf]
    exact .failed hfails
  · rw [hf]
    dsimp only
    split_ifs with hadded
    · obtain ⟨hbytes, hall⟩ := hend hadded
      have hsound : s.parser.Sound w.offset := hoffset ▸ h.sound
      have hfit : w.offset + w.size < Word.size := by
        have := hshows.size_le
        have := h.offset_le
        omega
      have hsize : w.size = (data.drop s.offset).length := by
        rw [← w.length_bytes, hbytes, hall]
        rfl
      have hparse : s.toParse data = ⟨[], s.parser.endOf w.size w.offset, s.offset⟩ := by
        rw [hall] at hd
        rw [hsize, hoffset]
        exact Record.Parser.parse_of_needMore hlimit hd
      rw [endOfData_eq (s := { s with window := w }) hsound hfit]
      dsimp only
      rw [← withLastGood_endOf s.parser w.size w.offset s.lastGood]
      exact .stopped w hreach hoffset hparse
    · refine .moved hreach ⟨hshows, ?_, ?_⟩ ?_
      · exact hoffset ▸ h.offset_le
      · exact hoffset ▸ h.sound
      · simp only [toParse, offset, hoffset]

theorem examine_reads (h : s.Within data last) (hs : Source.Faithful source data last)
    (hlimit : s.limitReached = none) : s.Reads source data last (s.examine source) := by
  have hlen := hs.length_le
  have hlast := hs.last_lt
  obtain ⟨-, hle⟩ := h.shows.readPosition_eq hlen hlast h.offset_le
  have hbytes := s.window.length_bytes
  obtain ⟨d, p, hd, hdecides⟩ := h.sound.decode s.window.bytes s.ordinal (by omega)
  have hrest := Record.Parser.decode_of_prefix h.shows.bytes_prefix s.window.offset s.ordinal
    (p := s.parser)
  unfold examine
  rw [hd] at hrest ⊢
  cases hdecides with
  | needMore => exact refill_reads h hs hlimit hd
  | lostSync hwindow htable hopen =>
    have hall := hrest.resolve_left (by simp)
    exact .stopped s.window .refl rfl (Record.Parser.parse_of_lostSync hlimit hall)
  | @pending text hsound hstart htwo =>
    have hall := hrest.resolve_left (by simp)
    obtain ⟨w, hw, hshows, hoffset⟩ := h.shows.consume 2 (by omega) (by omega)
    dsimp only
    rw [hw]
    refine .moved .refl ⟨hshows, ?_, ?_⟩ ?_
    · change w.offset ≤ last
      omega
    · exact hoffset ▸ hsound
    · simp only [toParse, offset, Record.Parser.parse_of_pending hlimit hall, List.drop_drop,
        hoffset]
  | @complete r n hordinal hstart hn =>
    have hall := hrest.resolve_left (by simp)
    obtain ⟨w, hw, hshows, hoffset⟩ := h.shows.consume n (by omega) (by omega)
    have hparse := Record.Parser.parse_of_complete hlimit hall
    dsimp only
    rw [accept_eq hw hordinal]
    rcases ha : s.clock.enter s.state r with o | a
    · exact .overflowed (congrArg Record.Parse.records hparse) ha
    · refine .parsed ha ⟨hshows, ?_, s.parser.sound_reset _⟩ ?_
      · change w.offset ≤ last
        omega
      · simp only [toParse, offset, accepted, hoffset, ← List.drop_drop]
        exact hparse

theorem step_reads (h : s.Within data last) (hs : Source.Faithful source data last)
    (hready : s.ready = []) (hfinish : s.finish = none) :
    s.Reads source data last (s.step source) := by
  unfold step
  rw [hready, hfinish]
  dsimp only
  rcases hlimit : s.limitReached with _ | l
  · dsimp only
    rw [look_eq_examine]
    exact examine_reads h hs hlimit
  · exact .stopped (e := .limit l) s.window .refl rfl
      (Record.Parser.parse_of_limit hlimit)

end Step

/-- What a run comes to whose source did not fail. -/
structure Covers {σ : Type} [Source σ] (s : Session) (source : σ) (data : Bytes) (last : Nat)
    (r : Run σ) : Prop where
  fault_eq : r.fault = (s.toClock data).fault.map .overflow
  reaches : Source.Reaches last source r.source
  observed_eq : (s.toClock data).fault = none →
    r.observed.toList.map Observation.record = (s.toParse data).records
  finish_eq : (s.toClock data).fault = none →
    r.session.finish = some ((s.toParse data).finish.withLastGood r.session.lastGood)
  offset_eq : (s.toClock data).fault = none → r.session.offset = (s.toParse data).offset

section Run

variable {σ : Type} [Source σ] {s : Session} {source source' : σ} {data : Bytes} {last : Nat}

theorem covers_of_overflowed {r : Record} {rs : List Record} {o : Overflow}
    (hparse : (s.toParse data).records = r :: rs) (ha : s.clock.enter s.state r = .error o) :
    s.Covers source data last ⟨#[], #[], some (.overflow o), s, source⟩ := by
  have hline : s.toClock data = ⟨[], s.state, some o⟩ := by
    rw [toClock, hparse, Clock.Config.timeline_of_error ha]
  exact ⟨by rw [hline]; rfl, .refl, by simp [hline], by simp [hline], by simp [hline]⟩

theorem covers_of_parsed {window : Window} {parser : Record.Parser} {record : Record}
    {a : Clock.Advance} {r : Run σ} (ha : s.clock.enter s.state record = .ok a)
    (hparse : s.toParse data = { (s.accepted window parser record a).toParse data with
      records := record :: ((s.accepted window parser record a).toParse data).records })
    (h : (s.accepted window parser record a).Covers source data last r) :
    s.Covers source data last { r with observed := #[⟨record, s.state⟩] ++ r.observed } := by
  have hfault : (s.toClock data).fault =
      ((s.accepted window parser record a).toClock data).fault := by
    rw [toClock, hparse, Clock.Config.timeline_of_ok ha]
    rfl
  refine ⟨hfault ▸ h.fault_eq, h.reaches, fun hnone => ?_, fun hnone => ?_, fun hnone => ?_⟩
  · rw [hparse, ← h.observed_eq (hfault ▸ hnone)]
    simp
  · rw [hparse]
    exact h.finish_eq (hfault ▸ hnone)
  · rw [hparse]
    exact h.offset_eq (hfault ▸ hnone)

theorem covers_of_moved {window : Window} {parser : Record.Parser} {r : Run σ}
    (hreach : Source.Reaches last source source')
    (hparse : s.toParse data = { s with window, parser : Session }.toParse data)
    (h : { s with window, parser : Session }.Covers source' data last r) :
    s.Covers source data last r := by
  have hline : s.toClock data = { s with window, parser : Session }.toClock data := by
    rw [toClock, hparse]
    rfl
  refine ⟨hline ▸ h.fault_eq, hreach.trans h.reaches, ?_, ?_, ?_⟩
  · rw [hline, hparse]
    exact h.observed_eq
  · rw [hline, hparse]
    exact h.finish_eq
  · rw [hline, hparse]
    exact h.offset_eq

theorem covers_of_stopped {window : Window} {e : StreamEnd} {r : Run σ}
    (hreach : Source.Reaches last source source') (hoffset : window.offset = s.offset)
    (hparse : s.toParse data = ⟨[], e, s.offset⟩)
    (h : Drained ({ s with window }.stop (e.withLastGood s.lastGood)) source' r) :
    s.Covers source data last r := by
  have hline : s.toClock data = ⟨[], s.state, none⟩ := by
    rw [toClock, hparse]
    rfl
  refine ⟨by rw [hline]; exact h.fault_eq, by rwa [h.source_eq], fun _ => ?_, fun _ => ?_,
    fun _ => ?_⟩
  · rw [hparse, h.observed_eq]
    rfl
  · rw [hparse, h.session_eq]
    rfl
  · rw [hparse, h.session_eq]
    exact hoffset

/-- A run fails with its source, or goes through what the data parse into. -/
theorem run_reads (s : Session) (source : σ) : s.finish = none → s.Within data last →
    Source.Faithful source data last →
    (∃ e, (s.run source).fault = some (.source e) ∧ Source.FailsWith source last e) ∨
      s.Covers source data last (s.run source) := by
  refine run_induction (motive := fun s source r => s.finish = none → s.Within data last →
    Source.Faithful source data last →
    (∃ e, r.fault = some (.source e) ∧ Source.FailsWith source last e) ∨
      s.Covers source data last r) ?_ ?_ ?_ ?_ ?_ s source
  · intro s source f source' h _ hw hs
    obtain ⟨hready, hfinish⟩ := ready_of_step_error h
    have hreads := step_reads hw hs hready hfinish
    rw [h] at hreads
    cases hreads with
    | failed hfails => exact .inl ⟨_, rfl, hfails⟩
    | overflowed hparse ha => exact .inr (covers_of_overflowed hparse ha)
  · intro s source s' source' h hfin
    cases step_stepped h with
    | finished _ hfinish => exact absurd hfin hfinish
  · intro s source t s' source' h ih hfin hw hs
    cases step_stepped h with
    | emitted hready =>
      rcases ih hfin ⟨hw.shows, hw.offset_le, hw.sound⟩ hs with hfails | hcovers
      · exact .inl hfails
      · exact .inr ⟨hcovers.fault_eq, hcovers.reaches, hcovers.observed_eq, hcovers.finish_eq,
          hcovers.offset_eq⟩
  · intro s source o s' source' h ih hfin hw hs
    obtain ⟨hready, -⟩ : s.ready = [] ∧ s.finish = none := by
      cases step_stepped h with
      | parsed _ _ hready hfinish => exact ⟨hready, hfinish⟩
    have hreads := step_reads hw hs hready hfin
    rw [h] at hreads
    cases hreads with
    | parsed ha hwithin hparse =>
      rcases ih hfin hwithin hs with hfails | hcovers
      · exact .inl hfails
      · exact .inr (covers_of_parsed ha hparse hcovers)
  · intro s source s' source' h ih hfin hw hs
    obtain ⟨hready, -⟩ : s.ready = [] ∧ s.finish = none := by
      cases step_stepped h with
      | moved _ _ _ hready hfinish => exact ⟨hready, hfinish⟩
      | stopped _ _ _ hready hfinish => exact ⟨hready, hfinish⟩
    have hreads := step_reads hw hs hready hfin
    rw [h] at hreads
    cases hreads with
    | moved hreach hwithin hparse =>
      rcases ih hfin hwithin (hs.of_reaches hreach) with ⟨e, he, hfails⟩ | hcovers
      · exact .inl ⟨e, he, hfails.of_reaches hreach⟩
      · exact .inr (covers_of_moved hreach hparse hcovers)
    | stopped _ hreach hoffset hparse =>
      refine .inr (covers_of_stopped hreach hoffset hparse (run_drained source' ?_))
      exact Option.some_ne_none _

end Run

/-- What a run shows of itself to its caller. -/
structure Summary where
  emitted : List Timed
  observed : List Observation
  finish : Option StreamEnd
  lastGood : Option Mark
  /-- The ordinal of the next record. -/
  ordinal : Nat
  /-- The position right after what has been parsed. -/
  offset : Nat
  state : Clock.State
  corrections : Corrections
  deriving DecidableEq

def Run.summary {σ : Type} (r : Run σ) : Summary where
  emitted := r.emitted.toList
  observed := r.observed.toList
  finish := r.session.finish
  lastGood := r.session.lastGood
  ordinal := r.session.ordinal
  offset := r.session.offset
  state := r.session.state
  corrections := r.session.corrections

/-- What the data and the records of a timeline come to. -/
def summaryOf (s : Session) (parse : Record.Parse) (line : Clock.Timeline) : Summary where
  emitted := s.ready ++ s.queue.emission (line.items.map Clocked.timed)
  observed := line.items.map Clocked.observation
  finish := some (parse.finish.withLastGood
    ((line.items.getLast?.map Clocked.mark).or s.lastGood))
  lastGood := (line.items.getLast?.map Clocked.mark).or s.lastGood
  ordinal := s.ordinal + line.items.length
  offset := parse.offset
  state := line.state
  corrections := s.corrections.merge (Corrections.ofList (line.items.map Clocked.timed))

section Run

variable {σ : Type} [Source σ] {s : Session} {source : σ} {data : Bytes} {last : Nat}

theorem line_run (h : s.Covers source data last (s.run source))
    (hline : (s.toClock data).fault = none) : (s.run source).line s = s.toClock data := by
  rw [Run.line, h.observed_eq hline]
  rfl

/-- Where no overflow stops a run, the clock goes through all the records. -/
theorem Covers.fits (h : s.Covers source data last (s.run source))
    (hfit : ∀ o, (s.run source).fault ≠ some (.overflow o)) : (s.toClock data).fault = none := by
  rcases hline : (s.toClock data).fault with _ | o
  · rfl
  · have hfault := h.fault_eq
    rw [hline] at hfault
    exact absurd hfault (hfit o)

theorem summary_of_covers (h : s.Covers source data last (s.run source)) (hfin : s.finish = none)
    (hline : (s.toClock data).fault = none) :
    (s.run source).fault = none ∧
      (s.run source).summary = s.summaryOf (s.toParse data) (s.toClock data) := by
  have hc := run_course source hfin
  rw [line_run h hline] at hc
  have hfault : (s.run source).fault = none := by rw [h.fault_eq, hline]; rfl
  refine ⟨hfault, ?_⟩
  rw [Run.summary, hc.emitted_eq hfault, hc.observed_eq, h.finish_eq hline, hc.lastGood_eq,
    hc.ordinal_eq, h.offset_eq hline, hc.state_eq, hc.corrections_eq,
    Corrections.foldl_observe_eq]
  rfl

/-- A run that does not fail tells what the data come to. -/
theorem summary_run (hw : s.Within data last) (hs : Source.Faithful source data last)
    (hfin : s.finish = none) (hfault : (s.run source).fault = none) :
    (s.toClock data).fault = none ∧
      (s.run source).summary = s.summaryOf (s.toParse data) (s.toClock data) := by
  rcases run_reads s source hfin hw hs with ⟨e, he, -⟩ | hcovers
  · rw [hfault] at he
    cases he
  · have hline : (s.toClock data).fault = none := by
      rw [hcovers.fault_eq] at hfault
      simpa using hfault
    exact ⟨hline, (summary_of_covers hcovers hfin hline).2⟩

/-- A run over a source that delivers the data fails only where the clock does. -/
theorem covers_of_delivers (hw : s.Within data last) (hs : Source.Delivers source data last)
    (hfin : s.finish = none) : s.Covers source data last (s.run source) := by
  rcases run_reads s source hfin hw hs.toFaithful with ⟨e, -, he⟩ | hcovers
  · exact absurd he (hs.not_fails e)
  · exact hcovers

end Run

end Session

end Telemetry
