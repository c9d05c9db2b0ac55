import Telemetry.Proofs.Decoding

/-!
# Where a failing source leaves a run

A step asks its source for bytes at most once, and fails with the source just where that read does
(`step_asks`).  So a run that fails with its source has parsed the first records of what it had to
parse, and stands where it can go on with the others (`interrupted_of_fault`).  What it emitted is
the beginning of what a run emits that does not fail (`Interrupted.emitted_prefix`).
-/

namespace Telemetry

/-- The failure of the source, if that is the cause. -/
def Fault.source? : Fault → Option SourceError
  | source e => some e
  | overflow _ => none

/-- The failure of the source, if that is what came of a step. -/
def failure? {α : Type} : Except Fault α → Option SourceError
  | .error f => f.source?
  | .ok _ => none

variable {σ : Type} [Source σ]

namespace Source

/-- After some reads at positions up to `last` one failed with `e`, and left `after`. -/
def Failed (source : σ) (last : Nat) (e : SourceError) (after : σ) : Prop :=
  ∃ s, Reaches last source s ∧ ∃ position ≤ last,
    Source.read s position Window.fillSize = (.error e, after)

theorem Failed.of_reaches {source s after : σ} {last : Nat} {e : SourceError}
    (hs : Reaches last source s) (h : Failed s last e after) : Failed source last e after := by
  obtain ⟨t, ht, hread⟩ := h
  exact ⟨t, hs.trans ht, hread⟩

end Source

namespace Window

/-- How a source is used through a window: not at all, or by one read, which may fail. -/
inductive Asks (w : Window) (source : σ) : Option SourceError → σ → Prop where
  | nothing : Asks w source none source
  | bytes {position : Nat} {bytes : Bytes} {source' : σ} (hp : w.readPosition = .ok position)
      (h : Source.read source position fillSize = (.ok bytes, source')) :
    Asks w source none source'
  | failure {position : Nat} {e : SourceError} {source' : σ} (hp : w.readPosition = .ok position)
      (h : Source.read source position fillSize = (.error e, source')) :
    Asks w source (some e) source'

theorem fill_asks (w : Window) (source : σ) :
    w.Asks source (failure? (w.fill source).1) (w.fill source).2 := by
  unfold fill
  split
  · exact .nothing
  · split
    · exact .nothing
    · next position hp =>
      rcases hr : Source.read source position fillSize with ⟨e | bytes, source'⟩
      · exact .failure hp hr
      · exact .bytes hp hr

end Window

namespace Session

theorem refill_asks (s : Session) (source : σ) :
    s.window.Asks source (failure? (s.refill source).1) (s.refill source).2 := by
  have h := s.window.fill_asks source
  unfold refill
  rcases hf : s.window.fill source with ⟨f | ⟨added, window⟩, source'⟩
  · rw [hf] at h
    exact h
  · rw [hf] at h
    dsimp only
    split
    · split <;> exact h
    · exact h

/-- A step reads on at most once, and fails with the source if that read does. -/
theorem step_asks (s : Session) (source : σ) :
    s.window.Asks source (failure? (s.step source).1) (s.step source).2 := by
  unfold step
  split
  · exact .nothing
  · split
    · exact .nothing
    · split
      · exact .nothing
      · rw [look_eq_examine]
        unfold examine
        split
        · exact .nothing
        · split <;> exact .nothing
        · split <;> exact .nothing
        · exact s.refill_asks source
        · exact .nothing

/-- Where a run over the data stands once its source has failed with `e`: the records that it has
parsed come first in what it had to parse, and what it has to parse now are the others. -/
structure Interrupted (s : Session) (source : σ) (data : Bytes) (last : Nat) (e : SourceError)
    (r : Run σ) : Prop where
  failed : Source.Failed source last e r.source
  within : r.session.Within data last
  ready_eq : r.session.ready = []
  finish_eq : r.session.finish = none
  clock_eq : r.session.clock = s.clock
  parse_eq : s.toParse data = { r.session.toParse data with
    records := r.observed.toList.map Observation.record ++ (r.session.toParse data).records }

section Run

variable {s : Session} {source source' : σ} {data : Bytes} {last : Nat} {e : SourceError}

theorem read_of_step_error (hw : s.Within data last) (hs : Source.Faithful source data last)
    (h : s.step source = (.error (.source e), source')) :
    ∃ position ≤ last, Source.read source position Window.fillSize = (.error e, source') := by
  have hasks := s.step_asks source
  rw [h] at hasks
  cases hasks with
  | @failure position _ _ hp hread =>
    obtain ⟨hp', hle⟩ := hw.shows.readPosition_eq hs.length_le hs.last_lt hw.offset_le
    rw [hp'] at hp
    cases hp
    exact ⟨_, hle, hread⟩

theorem interrupted_of_parsed {window : Window} {parser : Record.Parser} {record : Record}
    {a : Clock.Advance} {r : Run σ}
    (hparse : s.toParse data = { (s.accepted window parser record a).toParse data with
      records := record :: ((s.accepted window parser record a).toParse data).records })
    (h : (s.accepted window parser record a).Interrupted source data last e r) :
    s.Interrupted source data last e
      { r with observed := #[⟨record, s.state⟩] ++ r.observed } := by
  refine ⟨h.failed, h.within, h.ready_eq, h.finish_eq, h.clock_eq, ?_⟩
  rw [hparse, h.parse_eq]
  simp

/-- A run that fails with its source can go on where it stands. -/
theorem interrupted_of_fault (s : Session) (source : σ) : s.finish = none → s.Within data last →
    Source.Faithful source data last → (s.run source).fault = some (.source e) →
      s.Interrupted source data last e (s.run source) := by
  refine run_induction (motive := fun s source r => s.finish = none → s.Within data last →
    Source.Faithful source data last → r.fault = some (.source e) →
      s.Interrupted source data last e r) ?_ ?_ ?_ ?_ ?_ s source
  · intro s source f source' h _ hw hs hfault
    obtain rfl : f = .source e := Option.some.inj hfault
    obtain ⟨hready, hfinish⟩ := ready_of_step_error h
    exact ⟨⟨source, .refl, read_of_step_error hw hs h⟩, hw, hready, hfinish, rfl, rfl⟩
  · intro s source s' source' h _ _ _ hfault
    cases hfault
  · intro s source t s' source' h ih hfin hw hs hfault
    cases step_stepped h with
    | emitted hready =>
      have hi := ih hfin ⟨hw.shows, hw.offset_le, hw.sound⟩ hs hfault
      exact ⟨hi.failed, hi.within, hi.ready_eq, hi.finish_eq, hi.clock_eq, hi.parse_eq⟩
  · intro s source o s' source' h ih hfin hw hs hfault
    obtain ⟨hready, -⟩ : s.ready = [] ∧ s.finish = none := by
      cases step_stepped h with
      | parsed _ _ hready hfinish => exact ⟨hready, hfinish⟩
    have hreads := step_reads hw hs hready hfin
    rw [h] at hreads
    cases hreads with
    | parsed _ hwithin hparse => exact interrupted_of_parsed hparse (ih hfin hwithin hs hfault)
  · intro s source s' source' h ih hfin hw hs hfault
    obtain ⟨hready, -⟩ : s.ready = [] ∧ s.finish = none := by
      cases step_stepped h with
      | moved _ _ _ hready hfinish => exact ⟨hready, hfinish⟩
      | stopped _ _ _ hready hfinish => exact ⟨hready, hfinish⟩
    have hreads := step_reads hw hs hready hfin
    rw [h] at hreads
    cases hreads with
    | moved hreach hwithin hparse =>
      have hi := ih hfin hwithin (hs.of_reaches hreach) hfault
      exact ⟨.of_reaches hreach hi.failed, hi.within, hi.ready_eq, hi.finish_eq, hi.clock_eq,
        hparse.trans hi.parse_eq⟩
    | stopped _ _ _ _ =>
      -- a session that has stopped reads no more
      rw [(run_drained source' (Option.some_ne_none _)).fault_eq] at hfault
      cases hfault

namespace Interrupted

variable (h : s.Interrupted source data last e (s.run source)) (hfin : s.finish = none)

include h hfin in
/-- What the clock makes of the records so far, and of the others. -/
theorem toClock_eq : s.toClock data = { (s.run source).session.toClock data with
    items := ((s.run source).line s).items ++ ((s.run source).session.toClock data).items } := by
  have hcourse := run_course source hfin
  rw [toClock, h.parse_eq, s.clock.timeline_append s.state _ _ hcourse.fault_eq]
  rw [toClock, h.clock_eq, hcourse.state_eq]
  rfl

include h hfin in
theorem emitted_prefix (hfault : (s.run source).fault ≠ none) :
    (s.run source).emitted.toList <+:
      s.ready ++ s.queue.emission ((s.toClock data).items.map Clocked.timed) := by
  rw [(run_course source hfin).emitted_of_fault hfault, h.toClock_eq hfin, List.map_append,
    Queue.emission_append, ← List.append_assoc]
  exact List.prefix_append _ _

end Interrupted

end Run

end Session

end Telemetry
