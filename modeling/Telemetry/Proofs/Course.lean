import Mathlib.Tactic.Common
import Telemetry.Proofs.Emission
import Telemetry.Session.Run

/-!
# The course of a run

What a run does is settled by the records it parses, whatever the source (`run_course`): the clock
takes them in one after the other, the queue emits them, and the session keeps account of them.
What a step of a session can do is said once (`step_stepped`), and a property of runs follows from
what each step does to it (`run_induction`).  A run is no more than what one pulls (`run_eq_pull`).
-/

namespace Telemetry

namespace Clocked

def mark (c : Clocked) : Mark :=
  ⟨c.record.ordinal, c.record.offset⟩

end Clocked

namespace Record.Parser

theorem ordinal_of_decideText {p p' : Parser} {tag : UInt8} {rest : Bytes}
    {offset ordinal n : Nat} {r : Record}
    (h : p.decideText tag rest offset ordinal = .ok (.complete r n, p')) :
    r.ordinal = ordinal := by
  unfold decideText OpenText.close at h
  simp only [bind, Except.bind, pure, Except.pure] at h
  repeat' split at h
  all_goals grind

/-- A completed record has the ordinal it was to get. -/
theorem ordinal_of_complete {p p' : Parser} {window : Bytes} {offset ordinal n : Nat} {r : Record}
    (h : p.decode window offset ordinal = .ok (.complete r n, p')) : r.ordinal = ordinal := by
  unfold decode at h
  split at h
  · simp [pure, Except.pure] at h
  · split at h
    · unfold OpenText.close at h
      simp only [bind, Except.bind, pure, Except.pure] at h
      grind
    · split at h
      · simp [pure, Except.pure] at h
      · split at h
        · simp only [pure, Except.pure, decideFixed, Except.ok.injEq] at h
          grind
        · exact ordinal_of_decideText h

end Record.Parser

namespace Session

/-- The session after it took in a record. -/
def accepted (s : Session) (window : Window) (parser : Record.Parser) (r : Record)
    (a : Clock.Advance) : Session :=
  let (queue, out) := s.queue.push ⟨r, a.ns, a.order⟩
  { s with
    window
    parser
    state := a.state
    ordinal := s.ordinal + 1
    queue
    ready := s.ready ++ out
    lastGood := some ⟨r.ordinal, r.offset⟩
    corrections := s.corrections.observe a.order }

theorem accept_eq {s : Session} {parser : Record.Parser} {r : Record} {n : Nat} {w : Window}
    (hw : s.window.consume n = .ok w) (hr : r.ordinal = s.ordinal) :
    s.accept parser r n = (s.clock.enter s.state r).map (s.accepted w parser r) := by
  simp only [accept, Clock.Config.enter, hw, hr, bind, Except.bind, pure, Except.pure]
  rcases ho : Word.add s.ordinal 1 with o | ordinal
  · rfl
  · rw [(Word.add_eq_ok_iff.1 ho).2]
    dsimp only
    rcases s.clock.advance s.state r.rawTicks with o | a
    · rfl
    · simp only [Except.map, accepted, hr]

/-- What a step that does not fail may do; only reading on may change the source. -/
inductive Stepped {σ : Type} (s : Session) (source : σ) : Event → Session → σ → Prop where
  | emitted {t : Timed} {ready : List Timed} (hready : s.ready = t :: ready) :
    Stepped s source (.emitted t) { s with ready } source
  | finished (hready : s.ready = []) (hfinish : s.finish ≠ none) : Stepped s source .over s source
  | moved (window : Window) (parser : Record.Parser) (source' : σ) (hready : s.ready = [])
      (hfinish : s.finish = none) : Stepped s source .worked { s with window, parser } source'
  | stopped (window : Window) (finish : StreamEnd) (source' : σ) (hready : s.ready = [])
      (hfinish : s.finish = none) :
    Stepped s source .worked ({ s with window }.stop finish) source'
  | parsed (window : Window) (parser : Record.Parser) {r : Record} {a : Clock.Advance}
      (hready : s.ready = []) (hfinish : s.finish = none)
      (ha : s.clock.enter s.state r = .ok a) (hr : r.ordinal = s.ordinal) :
    Stepped s source (.parsed ⟨r, s.state⟩) (s.accepted window parser r a) source

section Step

variable {σ : Type}

theorem eq_of_ok_eq {e e' : Event} {s s' : Session} {source source' : σ}
    (h : ((.ok (e, s), source) : Except Fault (Event × Session) × σ) = (.ok (e', s'), source')) :
    e = e' ∧ s = s' ∧ source = source' := by
  simpa [and_assoc] using h

variable [Source σ]

theorem refill_stepped {s s' : Session} {source source' : σ} {e : Event} (hready : s.ready = [])
    (hfinish : s.finish = none) (h : s.refill source = (.ok (e, s'), source')) :
    s.Stepped source e s' source' := by
  unfold refill at h
  split at h
  · simp at h
  · next added window after hf =>
    dsimp only at h
    split at h
    · split at h
      · simp at h
      · obtain ⟨rfl, rfl, rfl⟩ := eq_of_ok_eq h
        exact .stopped window _ after hready hfinish
    · obtain ⟨rfl, rfl, rfl⟩ := eq_of_ok_eq h
      exact .moved window s.parser after hready hfinish

theorem examine_stepped {s s' : Session} {source source' : σ} {e : Event} (hready : s.ready = [])
    (hfinish : s.finish = none) (h : s.examine source = (.ok (e, s'), source')) :
    s.Stepped source e s' source' := by
  unfold examine at h
  split at h
  · simp at h
  · next r n parser hd =>
    split at h
    · simp at h
    · next after ha =>
      obtain ⟨rfl, rfl, rfl⟩ := eq_of_ok_eq h
      rcases hw : s.window.consume n with o | window
      · simp [accept, hw, bind, Except.bind] at ha
      · have hr := Record.Parser.ordinal_of_complete hd
        rw [accept_eq hw hr] at ha
        rcases henter : s.clock.enter s.state r with o | a
        · simp [henter, Except.map] at ha
        · rw [henter] at ha
          rw [← Except.ok.inj ha]
          exact .parsed window parser hready hfinish henter hr
  · next n parser hd =>
    split at h
    · simp at h
    · next window hw =>
      obtain ⟨rfl, rfl, rfl⟩ := eq_of_ok_eq h
      exact .moved window parser source hready hfinish
  · exact refill_stepped hready hfinish h
  · obtain ⟨rfl, rfl, rfl⟩ := eq_of_ok_eq h
    exact .stopped s.window _ source hready hfinish

theorem step_stepped {s s' : Session} {source source' : σ} {e : Event}
    (h : s.step source = (.ok (e, s'), source')) : s.Stepped source e s' source' := by
  unfold step at h
  split at h
  · next t ready hready =>
    obtain ⟨rfl, rfl, rfl⟩ := eq_of_ok_eq h
    exact .emitted hready
  · next hready =>
    split at h
    · next finish hfinish =>
      obtain ⟨rfl, rfl, rfl⟩ := eq_of_ok_eq h
      exact .finished hready (by simp [hfinish])
    · next hfinish =>
      split at h
      · obtain ⟨rfl, rfl, rfl⟩ := eq_of_ok_eq h
        exact .stopped s.window _ source hready hfinish
      · rw [look_eq_examine] at h
        exact examine_stepped hready hfinish h

/-- Only a session that has nothing ready to emit, and has not stopped, can fail. -/
theorem ready_of_step_error {s : Session} {source source' : σ} {f : Fault}
    (h : s.step source = (.error f, source')) : s.ready = [] ∧ s.finish = none := by
  unfold step at h
  split at h
  · simp at h
  · next hready =>
    split at h
    · simp at h
    · next hfinish => exact ⟨hready, hfinish⟩

theorem runAfter_eq (emitted : Array Timed) (observed : Array Observation) (s : Session)
    (source : σ) :
    s.runAfter emitted observed source =
      { s.run source with
        emitted := emitted ++ (s.run source).emitted
        observed := observed ++ (s.run source).observed } := by
  induction h : s.potential source using Nat.strongRecOn generalizing emitted observed s source with
  | _ n ih =>
    subst h
    rw [run, runAfter, runAfter]
    split
    · simp
    · simp
    · next t s' source' hstep =>
      have hlt := potential_step hstep (by simp)
      rw [ih _ hlt _ _ s' source' rfl, ih _ hlt (#[].push t) #[] s' source' rfl]
      simp
    · next o s' source' hstep =>
      have hlt := potential_step hstep (by simp)
      rw [ih _ hlt _ _ s' source' rfl, ih _ hlt #[] (#[].push o) s' source' rfl]
      simp
    · next s' source' hstep =>
      have hlt := potential_step hstep (by simp)
      rw [ih _ hlt _ _ s' source' rfl, ih _ hlt #[] #[] s' source' rfl]
      simp

section Run

variable {s s' : Session} {source source' : σ}

theorem run_of_error {f : Fault} (h : s.step source = (.error f, source')) :
    s.run source = ⟨#[], #[], some f, s, source'⟩ := by
  rw [run, runAfter]
  split <;> simp_all

theorem run_of_over (h : s.step source = (.ok (.over, s'), source')) :
    s.run source = ⟨#[], #[], none, s', source'⟩ := by
  rw [run, runAfter]
  split <;> simp_all

theorem run_of_emitted {t : Timed} (h : s.step source = (.ok (.emitted t, s'), source')) :
    s.run source =
      { s'.run source' with emitted := #[t] ++ (s'.run source').emitted } := by
  rw [run, runAfter]
  split <;> simp_all [runAfter_eq]

theorem run_of_parsed {o : Observation} (h : s.step source = (.ok (.parsed o, s'), source')) :
    s.run source =
      { s'.run source' with observed := #[o] ++ (s'.run source').observed } := by
  rw [run, runAfter]
  split <;> simp_all [runAfter_eq]

theorem run_of_worked (h : s.step source = (.ok (.worked, s'), source')) :
    s.run source = s'.run source' := by
  rw [run, runAfter]
  split <;> simp_all [runAfter_eq]

/-- What a run does that begins with what was pulled. -/
def Pull.run (p : Pull σ) : Run σ :=
  match p.outcome with
  | .error f => ⟨#[], p.observed.toArray, some f, p.session, p.source⟩
  | .ok none => ⟨#[], p.observed.toArray, none, p.session, p.source⟩
  | .ok (some t) =>
    let rest := p.session.run p.source
    { rest with
      emitted := #[t] ++ rest.emitted
      observed := p.observed.toArray ++ rest.observed }

/-- A run is what one pulls until there is nothing more. -/
theorem run_eq_pull (s : Session) (source : σ) : s.run source = (s.pull source).run := by
  induction h : s.potential source using Nat.strongRecOn generalizing s source with
  | _ n ih =>
    subst h
    rw [pull]
    split
    · next f source' hstep => exact run_of_error hstep
    · next t s' source' hstep =>
      rw [run_of_emitted hstep]
      simp [Pull.run]
    · next s' source' hstep => exact run_of_over hstep
    · next o s' source' hstep =>
      rw [run_of_parsed hstep, ih _ (potential_step hstep (by simp)) s' source' rfl]
      rcases s'.pull source' with ⟨f | _ | t, observed, s'', source''⟩
      · simp [Pull.run]
      · simp [Pull.run]
      · have hcons : (o :: observed).toArray = #[o] ++ observed.toArray := by simp
        simp only [Pull.run, hcons, Array.append_assoc]
    · next s' source' hstep =>
      rw [run_of_worked hstep]
      exact ih _ (potential_step hstep (by simp)) s' source' rfl

end Run

/-- What holds where a run stops, and is kept by every step before, holds of the whole run. -/
theorem run_induction {motive : Session → σ → Run σ → Prop}
    (error : ∀ s source f source', s.step source = (.error f, source') →
      motive s source ⟨#[], #[], some f, s, source'⟩)
    (finished : ∀ s source s' source', s.step source = (.ok (.over, s'), source') →
      motive s source ⟨#[], #[], none, s', source'⟩)
    (emitted : ∀ s source t s' source', s.step source = (.ok (.emitted t, s'), source') →
      motive s' source' (s'.run source') →
      motive s source { s'.run source' with emitted := #[t] ++ (s'.run source').emitted })
    (parsed : ∀ s source o s' source', s.step source = (.ok (.parsed o, s'), source') →
      motive s' source' (s'.run source') →
      motive s source { s'.run source' with observed := #[o] ++ (s'.run source').observed })
    (worked : ∀ s source s' source', s.step source = (.ok (.worked, s'), source') →
      motive s' source' (s'.run source') → motive s source (s'.run source'))
    (s : Session) (source : σ) : motive s source (s.run source) := by
  induction h : s.potential source using Nat.strongRecOn generalizing s source with
  | _ n ih =>
    subst h
    rcases hstep : s.step source with ⟨f | ⟨t | o | _ | _, s'⟩, source'⟩
    · rw [run_of_error hstep]
      exact error s source f source' hstep
    · rw [run_of_emitted hstep]
      have hlt := potential_step hstep (by simp)
      exact emitted s source t s' source' hstep (ih _ hlt s' source' rfl)
    · rw [run_of_parsed hstep]
      have hlt := potential_step hstep (by simp)
      exact parsed s source o s' source' hstep (ih _ hlt s' source' rfl)
    · rw [run_of_worked hstep]
      have hlt := potential_step hstep (by simp)
      exact worked s source s' source' hstep (ih _ hlt s' source' rfl)
    · rw [run_of_over hstep]
      exact finished s source s' source' hstep

/-- Records are numbered as they are parsed. -/
theorem ordinal_observed (s : Session) (source : σ) : ∀ (i : Nat) (o : Observation),
    (s.run source).observed.toList[i]? = some o → o.record.ordinal = s.ordinal + i := by
  refine run_induction (motive := fun s _ r => ∀ (i : Nat) (o : Observation),
    r.observed.toList[i]? = some o → o.record.ordinal = s.ordinal + i) ?_ ?_ ?_ ?_ ?_ s source
  · intro s source f source' _ i o ho
    simp at ho
  · intro s source s' source' _ i o ho
    simp at ho
  · intro s source t s' source' h ih
    cases step_stepped h with
    | emitted => exact ih
  · intro s source o s' source' h ih i o' ho
    cases step_stepped h with
    | parsed window parser hready hfinish ha hr =>
      rcases i with _ | i
      · simp only [Array.toList_append, List.cons_append, List.getElem?_cons_zero,
          Option.some.injEq] at ho
        rw [← ho]
        exact hr
      · simp only [Array.toList_append, List.cons_append, List.nil_append,
          List.getElem?_cons_succ] at ho
        have hordinal : o'.record.ordinal = s.ordinal + 1 + i := ih i o' ho
        omega
  · intro s source s' source' h ih
    cases step_stepped h with
    | moved => exact ih
    | stopped => exact ih

end Step

section Course

variable {σ : Type}

/-- What a run of a session that had not stopped leaves, given what the clock makes of the records
that it parsed. -/
structure Course (s : Session) (r : Run σ) (line : Clock.Timeline) : Prop where
  fault_eq : line.fault = none
  observed_eq : r.observed.toList = line.items.map Clocked.observation
  state_eq : r.session.state = line.state
  ordinal_eq : r.session.ordinal = s.ordinal + line.items.length
  corrections_eq : r.session.corrections =
    (line.items.map Clocked.timed).foldl (fun c t => c.observe t.order) s.corrections
  lastGood_eq : r.session.lastGood = (line.items.getLast?.map Clocked.mark).or s.lastGood
  emitted_eq : r.fault = none →
    r.emitted.toList = s.ready ++ s.queue.emission (line.items.map Clocked.timed)
  emitted_of_fault : r.fault ≠ none →
    r.emitted.toList = s.ready ++ (s.queue.pushAll (line.items.map Clocked.timed)).2
  queue_of_fault : r.fault ≠ none →
    r.session.queue = (s.queue.pushAll (line.items.map Clocked.timed)).1

/-- A session that has stopped emits what is ready. -/
structure Drained (s : Session) (source : σ) (r : Run σ) : Prop where
  fault_eq : r.fault = none
  observed_eq : r.observed.toList = []
  emitted_eq : r.emitted.toList = s.ready
  session_eq : r.session = { s with ready := [] }
  source_eq : r.source = source

/-- What the clock makes of the records that a run parsed. -/
def Run.line (r : Run σ) (s : Session) : Clock.Timeline :=
  s.clock.timeline s.state (r.observed.toList.map Observation.record)

theorem drained_of_over {s : Session} {source : σ} (hready : s.ready = []) :
    Drained s source (⟨#[], #[], none, s, source⟩ : Run σ) where
  fault_eq := rfl
  observed_eq := rfl
  emitted_eq := hready.symm
  session_eq := by rw [← hready]
  source_eq := rfl

theorem course_of_error {s : Session} {source : σ} {f : Fault} (hready : s.ready = []) :
    Course s (⟨#[], #[], some f, s, source⟩ : Run σ)
      (Run.line ⟨#[], #[], some f, s, source⟩ s) where
  fault_eq := rfl
  observed_eq := rfl
  state_eq := rfl
  ordinal_eq := rfl
  corrections_eq := rfl
  lastGood_eq := rfl
  emitted_eq hf := by simp at hf
  emitted_of_fault _ := by simp [hready, Run.line, Clock.Config.timeline, Queue.pushAll]
  queue_of_fault _ := rfl

theorem course_of_moved {s : Session} {r : Run σ} {window : Window} {parser : Record.Parser}
    (h : Course { s with window, parser } r (r.line { s with window, parser })) :
    Course s r (r.line s) where
  fault_eq := h.fault_eq
  observed_eq := h.observed_eq
  state_eq := h.state_eq
  ordinal_eq := h.ordinal_eq
  corrections_eq := h.corrections_eq
  lastGood_eq := h.lastGood_eq
  emitted_eq := h.emitted_eq
  emitted_of_fault := h.emitted_of_fault
  queue_of_fault := h.queue_of_fault

theorem drained_of_ready {s : Session} {source : σ} {r : Run σ} {t : Timed} {ready : List Timed}
    (hready : s.ready = t :: ready) (h : Drained { s with ready } source r) :
    Drained s source { r with emitted := #[t] ++ r.emitted } where
  fault_eq := h.fault_eq
  observed_eq := h.observed_eq
  emitted_eq := by simp [hready, h.emitted_eq]
  session_eq := h.session_eq
  source_eq := h.source_eq

theorem course_of_ready {s : Session} {r : Run σ} {t : Timed} {ready : List Timed}
    {line : Clock.Timeline} (hready : s.ready = t :: ready)
    (h : Course { s with ready } r line) :
    Course s { r with emitted := #[t] ++ r.emitted } line where
  fault_eq := h.fault_eq
  observed_eq := h.observed_eq
  state_eq := h.state_eq
  ordinal_eq := h.ordinal_eq
  corrections_eq := h.corrections_eq
  lastGood_eq := h.lastGood_eq
  emitted_eq hf := by simp [hready, h.emitted_eq hf]
  emitted_of_fault hf := by simp [hready, h.emitted_of_fault hf]
  queue_of_fault := h.queue_of_fault

theorem course_of_stopped {s : Session} {source : σ} {r : Run σ} {window : Window}
    {finish : StreamEnd} (hready : s.ready = [])
    (h : Drained ({ s with window }.stop finish) source r) :
    Course s r (r.line s) := by
  have hline : r.line s = ⟨[], s.state, none⟩ := by
    rw [Run.line, h.observed_eq]
    rfl
  rw [hline]
  exact {
    fault_eq := rfl
    observed_eq := h.observed_eq
    state_eq := by rw [h.session_eq]; rfl
    ordinal_eq := by rw [h.session_eq]; rfl
    corrections_eq := by rw [h.session_eq]; rfl
    lastGood_eq := by rw [h.session_eq]; rfl
    emitted_eq := fun _ => by
      rw [h.emitted_eq]
      simp [stop, Queue.flush, hready, Queue.emission, Queue.pushAll]
    emitted_of_fault := fun hf => absurd h.fault_eq hf
    queue_of_fault := fun hf => absurd h.fault_eq hf }

theorem course_of_parsed {s : Session} {r : Run σ} {window : Window} {parser : Record.Parser}
    {record : Record} {a : Clock.Advance}
    (ha : s.clock.enter s.state record = .ok a)
    (h : Course (s.accepted window parser record a) r
      (r.line (s.accepted window parser record a))) :
    Course s { r with observed := #[⟨record, s.state⟩] ++ r.observed }
      (Run.line { r with observed := #[⟨record, s.state⟩] ++ r.observed } s) := by
  obtain ⟨tail, htail⟩ : ∃ tail, tail = r.line (s.accepted window parser record a) := ⟨_, rfl⟩
  rw [← htail] at h
  have hline : Run.line { r with observed := #[⟨record, s.state⟩] ++ r.observed } s =
      ⟨⟨record, s.state, a⟩ :: tail.items, tail.state, tail.fault⟩ := by
    simp only [Run.line, Array.toList_append, List.map_cons, List.cons_append,
      List.nil_append, Clock.Config.timeline_of_ok ha, htail]
    rfl
  rw [hline]
  exact {
    fault_eq := h.fault_eq
    observed_eq := by simp [h.observed_eq, Clocked.observation]
    state_eq := h.state_eq
    ordinal_eq := by
      have hordinal : r.session.ordinal = s.ordinal + 1 + tail.items.length := h.ordinal_eq
      simp only [List.length_cons]
      omega
    corrections_eq := h.corrections_eq
    lastGood_eq := by
      have hlast : r.session.lastGood = (tail.items.getLast?.map Clocked.mark).or
        (some ⟨record.ordinal, record.offset⟩) := h.lastGood_eq
      rw [hlast, List.getLast?_cons]
      cases tail.items.getLast? <;> rfl
    emitted_eq := fun hf => by
      have hemit : r.emitted.toList = (s.ready ++ (s.queue.push ⟨record, a.ns, a.order⟩).2) ++
        (s.queue.push ⟨record, a.ns, a.order⟩).1.emission (tail.items.map Clocked.timed) :=
          h.emitted_eq hf
      rw [hemit, List.map_cons, Queue.emission_cons, List.append_assoc]
      rfl
    emitted_of_fault := fun hf => by
      have hemit : r.emitted.toList = (s.ready ++ (s.queue.push ⟨record, a.ns, a.order⟩).2) ++
        ((s.queue.push ⟨record, a.ns, a.order⟩).1.pushAll (tail.items.map Clocked.timed)).2 :=
          h.emitted_of_fault hf
      rw [hemit, List.map_cons, Queue.pushAll, List.append_assoc]
      rfl
    queue_of_fault := h.queue_of_fault }

end Course

variable {σ : Type} [Source σ]

theorem run_course_or_drained (s : Session) (source : σ) :
    (s.finish = none → Course s (s.run source) ((s.run source).line s)) ∧
      (s.finish ≠ none → Drained s source (s.run source)) := by
  refine run_induction (motive := fun s source r =>
    (s.finish = none → Course s r (r.line s)) ∧ (s.finish ≠ none → Drained s source r))
    ?_ ?_ ?_ ?_ ?_ s source
  · intro s source f source' h
    obtain ⟨hready, hfinish⟩ := ready_of_step_error h
    exact ⟨fun _ => course_of_error hready, fun hf => absurd hfinish hf⟩
  · intro s source s' source' h
    cases step_stepped h with
    | finished hready hfinish =>
      exact ⟨fun hf => absurd hf hfinish, fun _ => drained_of_over hready⟩
  · intro s source t s' source' h ih
    cases step_stepped h with
    | emitted hready =>
      exact ⟨fun hf => course_of_ready hready (ih.1 hf), fun hf => drained_of_ready hready (ih.2 hf)⟩
  · intro s source o s' source' h ih
    cases step_stepped h with
    | parsed window parser hready hfinish ha =>
      exact ⟨fun _ => course_of_parsed ha (ih.1 hfinish), fun hf => absurd hfinish hf⟩
  · intro s source s' source' h ih
    cases step_stepped h with
    | moved window parser _ hready hfinish =>
      exact ⟨fun hf => course_of_moved (ih.1 hf), fun hf => absurd hfinish hf⟩
    | stopped window finish _ hready hfinish =>
      exact ⟨fun _ => course_of_stopped hready (ih.2 (by simp [stop])), fun hf => absurd hfinish hf⟩

theorem run_drained {s : Session} (source : σ) (h : s.finish ≠ none) :
    Drained s source (s.run source) :=
  (run_course_or_drained s source).2 h

/-- The records that a run parses settle everything else that it does. -/
theorem run_course {s : Session} (source : σ) (h : s.finish = none) :
    Course s (s.run source) ((s.run source).line s) :=
  (run_course_or_drained s source).1 h

end Session

end Telemetry
