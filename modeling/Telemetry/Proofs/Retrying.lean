import Telemetry.Proofs.Interruption

/-!
# Trying again after a failure

A source recovers if its reads fail finitely often.  A caller who asks for the next record again
after every failure gets the records that a run without failures emits, in the same order and with
the same times, and is told of every read that failed once (`summary_pulls_of_recovers`).  For a run
that fails can go on where it stands (`Interrupted`), and the two parts together come to what the
whole data come to (`summaryOf_interrupted`).
-/

namespace Telemetry

variable {σ τ : Type} [Source σ] [Source τ]

namespace Source

/-- Reads at positions up to `last` fail finitely often, in whatever order they are made. -/
inductive Recovers (last : Nat) : σ → Prop where
  | intro {source : σ} (h : ∀ e after, Failed source last e after → Recovers last after) :
    Recovers last source

theorem Failed.reaches {source after : σ} {last : Nat} {e : SourceError}
    (h : Failed source last e after) : Reaches last source after := by
  obtain ⟨s, hs, position, hp, hread⟩ := h
  have := hs.read hp
  rwa [hread] at this

/-- A source recovers that can tell how many of its reads still fail at most. -/
theorem recovers_of_left {last : Nat} (left : σ → Option Nat)
    (hread : ∀ {s : σ} {n : Nat}, left s = some n → ∀ position, ∃ m,
      left (read s position Window.fillSize).2 = some m ∧ m ≤ n ∧
        ∀ e, (read s position Window.fillSize).1 = .error e → m < n) {source : σ} {n : Nat}
    (h : left source = some n) : Recovers last source := by
  have hreaches : ∀ {s t : σ} {n : Nat}, left s = some n → Reaches last s t →
      ∃ m ≤ n, left t = some m := by
    intro s t n hs ht
    induction ht with
    | refl => exact ⟨n, Nat.le_refl n, hs⟩
    | @read _ position _ _ ih =>
      obtain ⟨m, hm, hleft⟩ := ih
      obtain ⟨m', hleft', hm', -⟩ := hread hleft position
      exact ⟨m', hm'.trans hm, hleft'⟩
  induction n using Nat.strongRecOn generalizing source with
  | _ n ih =>
    refine .intro fun e after hfailed => ?_
    obtain ⟨s, hs, position, -, hafter⟩ := hfailed
    obtain ⟨m, hm, hleft⟩ := hreaches h hs
    obtain ⟨m', hleft', -, hlt⟩ := hread hleft position
    rw [hafter] at hleft' hlt
    exact ih m' (Nat.lt_of_lt_of_le (hlt e rfl) hm) hleft'

end Source

/-- A source that keeps account of the reads that failed. -/
structure Logged (σ : Type) where
  source : σ
  failures : List SourceError := []

namespace Logged

def failuresAfter (failures : List SourceError) : Except SourceError Bytes → List SourceError
  | .error e => failures ++ [e]
  | .ok _ => failures

instance : Source (Logged σ) where
  read s position size :=
    let answer := Source.read s.source position size
    (answer.1, ⟨answer.2, failuresAfter s.failures answer.1⟩)
  count s := Source.count s.source
  extent s := Source.extent s.source
  extent_read s := Source.extent_read s.source
  read_within := Source.read_within

theorem read_eq (s : Logged σ) (position size : Nat) : Source.read s position size =
    ((Source.read s.source position size).1, ⟨(Source.read s.source position size).2,
      failuresAfter s.failures (Source.read s.source position size).1⟩) :=
  rfl

variable {s t : Logged σ} {data : Bytes} {last : Nat}

theorem reaches_source (h : Source.Reaches last s t) : Source.Reaches last s.source t.source := by
  induction h with
  | refl => exact .refl
  | read _ hp ih => exact ih.read hp

theorem faithful (h : Source.Faithful s.source data last) : Source.Faithful s data last :=
  ⟨h.length_le, h.last_lt, fun t ht => h.read_eq t.source (reaches_source ht)⟩

theorem recovers {source : σ} (h : Source.Recovers last source) :
    ∀ failures, Source.Recovers last (⟨source, failures⟩ : Logged σ) := by
  induction h with
  | intro h ih =>
    intro failures
    refine .intro fun e after hfailed => ?_
    obtain ⟨t, ht, position, hp, hread⟩ := hfailed
    rw [read_eq, Prod.mk.injEq] at hread
    obtain ⟨herror, rfl⟩ := hread
    exact ih e _ ⟨t.source, reaches_source ht, position, hp, Prod.ext herror rfl⟩ _

theorem failures_of_asks {w : Window} {e? : Option SourceError} (h : w.Asks s e? t) :
    t.failures = s.failures ++ e?.toList := by
  cases h with
  | nothing => simp
  | bytes _ h =>
    rw [read_eq, Prod.mk.injEq] at h
    obtain ⟨hok, rfl⟩ := h
    simp [hok, failuresAfter]
  | failure _ h =>
    rw [read_eq, Prod.mk.injEq] at h
    obtain ⟨herror, rfl⟩ := h
    simp [herror, failuresAfter]

end Logged

namespace Memory

/-- How many reads still fail at most, if that is limited. -/
def failuresLeft (m : Memory) : Option Nat :=
  match m.faults with
  | none => some 0
  | some f => f.remaining

theorem recovers {m : Memory} {n : Nat} (h : m.failuresLeft = some n) (last : Nat) :
    Source.Recovers last m := by
  refine Source.recovers_of_left failuresLeft (fun {s n} hs position => ?_) h
  change ∃ k, failuresLeft (Memory.read s position Window.fillSize).2 = some k ∧ k ≤ n ∧
    ∀ e, (Memory.read s position Window.fillSize).1 = .error e → k < n
  unfold Memory.read
  split
  · next left hstrike =>
    obtain ⟨f, hf, hleft⟩ := Option.bind_eq_some_iff.1 hstrike
    simp only [failuresLeft, hf] at hs
    simp only [Faults.strike, hs] at hleft
    rcases n with _ | n
    · simp at hleft
    · split at hleft
      · simp only [Option.some.injEq] at hleft
        rw [← hleft]
        exact ⟨n, rfl, Nat.le_succ n, fun _ _ => Nat.lt_succ_self n⟩
      · cases hleft
  · exact ⟨n, hs, Nat.le_refl n, fun e he => by cases he⟩

end Memory

namespace Session

section Pull

variable {s s' : Session} {source source' : σ}

theorem pull_of_error {f : Fault} (h : s.step source = (.error f, source')) :
    s.pull source = ⟨.error f, [], s, source'⟩ := by
  rw [pull]
  split <;> simp_all

theorem pull_of_emitted {t : Timed} (h : s.step source = (.ok (.emitted t, s'), source')) :
    s.pull source = ⟨.ok (some t), [], s', source'⟩ := by
  rw [pull]
  split <;> simp_all

theorem pull_of_over (h : s.step source = (.ok (.over, s'), source')) :
    s.pull source = ⟨.ok none, [], s', source'⟩ := by
  rw [pull]
  split <;> simp_all

theorem pull_of_parsed {o : Observation} (h : s.step source = (.ok (.parsed o, s'), source')) :
    s.pull source =
      { s'.pull source' with observed := o :: (s'.pull source').observed } := by
  rw [pull]
  split <;> simp_all

theorem pull_of_worked (h : s.step source = (.ok (.worked, s'), source')) :
    s.pull source = s'.pull source' := by
  rw [pull]
  split <;> simp_all

end Pull

section Map

/-- The same call, seen through a map of its source. -/
def Pull.mapSource (f : τ → σ) (p : Pull τ) : Pull σ :=
  ⟨p.outcome, p.observed, p.session, f p.source⟩

/-- The sources answer alike. -/
def Alike (f : τ → σ) : Prop :=
  ∀ source position size, Source.read (f source) position size =
    ((Source.read source position size).1, f (Source.read source position size).2)

variable {f : τ → σ} (hf : Alike f)

include hf in
theorem fill_map (w : Window) (source : τ) :
    w.fill (f source) = ((w.fill source).1, f (w.fill source).2) := by
  unfold Window.fill
  split
  · rfl
  · split
    · rfl
    · rw [hf]
      rcases Source.read source _ Window.fillSize with ⟨e | bytes, source'⟩ <;> rfl

include hf in
theorem refill_map (s : Session) (source : τ) :
    s.refill (f source) = ((s.refill source).1, f (s.refill source).2) := by
  unfold refill
  rw [fill_map hf]
  rcases s.window.fill source with ⟨e | ⟨added, window⟩, source'⟩
  · rfl
  · dsimp only
    split
    · split <;> rfl
    · rfl

include hf in
theorem step_map (s : Session) (source : τ) :
    s.step (f source) = ((s.step source).1, f (s.step source).2) := by
  unfold step
  split
  · rfl
  · split
    · rfl
    · split
      · rfl
      · rw [look_eq_examine, look_eq_examine]
        unfold examine
        split
        · rfl
        · split <;> rfl
        · split <;> rfl
        · exact refill_map hf s source
        · rfl

include hf in
/-- A session cannot tell sources apart that answer alike. -/
theorem pull_map (s : Session) (source : τ) :
    s.pull (f source) = (s.pull source).mapSource f := by
  induction h : s.potential source using Nat.strongRecOn generalizing s source with
  | _ n ih =>
    subst h
    have hmap := step_map hf s source
    rcases hstep : s.step source with ⟨e | ⟨t | o | _ | _, s'⟩, source'⟩ <;> rw [hstep] at hmap
    · rw [pull_of_error hstep, pull_of_error hmap]
      rfl
    · rw [pull_of_emitted hstep, pull_of_emitted hmap]
      rfl
    · rw [pull_of_parsed hstep, pull_of_parsed hmap,
        ih _ (potential_step hstep (by simp)) s' source' rfl]
      rfl
    · rw [pull_of_worked hstep, pull_of_worked hmap,
        ih _ (potential_step hstep (by simp)) s' source' rfl]
    · rw [pull_of_over hstep, pull_of_over hmap]
      rfl

end Map

/-- A call tells of the read that failed, if one did. -/
theorem failures_pull (s : Session) (source : Logged σ) :
    (s.pull source).source.failures =
      source.failures ++ (failure? (s.pull source).outcome).toList := by
  induction h : s.potential source using Nat.strongRecOn generalizing s source with
  | _ n ih =>
    subst h
    have hasks := Logged.failures_of_asks (s.step_asks source)
    rcases hstep : s.step source with ⟨f | ⟨t | o | _ | _, s'⟩, source'⟩ <;>
      simp only [hstep, failure?, Option.toList_none, List.append_nil] at hasks
    · rw [pull_of_error hstep]
      exact hasks
    · rw [pull_of_emitted hstep]
      simp [hasks, failure?]
    · rw [pull_of_parsed hstep]
      have := ih _ (potential_step hstep (by simp)) s' source' rfl
      rwa [hasks] at this
    · rw [pull_of_worked hstep]
      have := ih _ (potential_step hstep (by simp)) s' source' rfl
      rwa [hasks] at this
    · rw [pull_of_over hstep]
      simp [hasks, failure?]

/-- What the first `n` calls return, each one made where the one before it left the session. -/
def pulls : Nat → Session → σ → List (Pull σ)
  | 0, _, _ => []
  | n + 1, s, source =>
    let p := s.pull source
    p :: pulls n p.session p.source

namespace Pull

def record? (p : Pull σ) : Option Timed :=
  match p.outcome with
  | .ok t? => t?
  | .error _ => none

def failure? (p : Pull σ) : Option SourceError :=
  Telemetry.failure? p.outcome

/-- The call was not the last one that a caller makes who tries again after every failure. -/
def GoesOn (p : Pull σ) : Prop :=
  (∃ t, p.outcome = .ok (some t)) ∨ ∃ e, p.outcome = .error (.source e)

/-- What some calls and a last one show of the session to their caller. -/
def summary (calls : List (Pull σ)) (final : Pull σ) : Summary where
  emitted := calls.filterMap record?
  observed := (calls ++ [final]).flatMap observed
  finish := final.session.finish
  lastGood := final.session.lastGood
  ordinal := final.session.ordinal
  offset := final.session.offset
  state := final.session.state
  corrections := final.session.corrections

end Pull

section Pulls

variable {s : Session}

theorem pulls_map {f : τ → σ} (hf : Alike f) (n : Nat) (s : Session) (source : τ) :
    pulls n s (f source) = (pulls n s source).map (Pull.mapSource f) := by
  induction n generalizing s source with
  | zero => rfl
  | succ n ih =>
    simp only [pulls, List.map_cons, pull_map hf]
    exact congrArg _ (ih _ _)

theorem pulls_append {source : σ} {calls : List (Pull σ)} {final : Pull σ}
    (h : pulls (calls.length + 1) s source = calls ++ [final]) (n : Nat) :
    pulls (calls.length + 1 + n) s source =
      calls ++ final :: pulls n final.session final.source := by
  induction calls generalizing s source with
  | nil =>
    obtain rfl : s.pull source = final := (List.cons.inj h).1
    rw [List.length_nil, Nat.zero_add, Nat.add_comm 1 n]
    rfl
  | cons p calls ih =>
    obtain ⟨hp, hcalls⟩ := List.cons.inj h
    rw [List.length_cons, Nat.add_right_comm, pulls, List.cons_append, ← hp, ← ih hcalls]

theorem failures_pulls {source : Logged σ} {calls : List (Pull (Logged σ))}
    {final : Pull (Logged σ)} (h : pulls (calls.length + 1) s source = calls ++ [final]) :
    final.source.failures = source.failures ++ (calls ++ [final]).filterMap Pull.failure? := by
  induction calls generalizing s source with
  | nil =>
    obtain rfl : s.pull source = final := (List.cons.inj h).1
    rw [failures_pull]
    simp [Pull.failure?, List.filterMap_cons, Option.toList]
    rfl
  | cons p calls ih =>
    obtain ⟨hp, hcalls⟩ := List.cons.inj h
    rw [ih hcalls, failures_pull, hp, List.cons_append, List.filterMap_cons, List.append_assoc]
    change _ ++ (p.failure?.toList ++ _) = _
    rcases p.failure? <;> rfl

/-- The calls that make up a run. -/
structure Transcript (s : Session) (source : σ) (r : Run σ) (calls : List (Pull σ))
    (final : Pull σ) : Prop where
  pulls_eq : pulls (calls.length + 1) s source = calls ++ [final]
  outcomes_eq : calls.map Pull.outcome = r.emitted.toList.map fun t => .ok (some t)
  final_eq : final.outcome = r.fault.elim (.ok none) .error
  observed_eq : (calls ++ [final]).flatMap Pull.observed = r.observed.toList
  session_eq : final.session = r.session
  source_eq : final.source = r.source

theorem exists_transcript (s : Session) (source : σ) :
    ∃ calls final, Transcript s source (s.run source) calls final := by
  induction h : (s.run source).emitted.size using Nat.strongRecOn generalizing s source with
  | _ n ih =>
    rw [run_eq_pull] at h ⊢
    rcases hp : s.pull source with ⟨f | _ | t, observed, s', source'⟩
    · exact ⟨[], s.pull source, by simp [pulls], by simp [Pull.run], by simp [hp, Pull.run],
        by simp [hp, Pull.run], by simp [hp, Pull.run], by simp [hp, Pull.run]⟩
    · exact ⟨[], s.pull source, by simp [pulls], by simp [Pull.run], by simp [hp, Pull.run],
        by simp [hp, Pull.run], by simp [hp, Pull.run], by simp [hp, Pull.run]⟩
    · rw [hp] at h
      obtain ⟨calls, final, ht⟩ := ih (s'.run source').emitted.size (by simp [← h, Pull.run]) s'
        source' rfl
      refine ⟨s.pull source :: calls, final, ?_, ?_, ?_, ?_, ?_, ?_⟩
      · rw [List.length_cons, pulls, hp, List.cons_append]
        exact congrArg _ ht.pulls_eq
      · simp [hp, ht.outcomes_eq, Pull.run]
      · exact ht.final_eq
      · simp [hp, ← ht.observed_eq, Pull.run]
      · exact ht.session_eq
      · exact ht.source_eq

variable {source : σ} {data : Bytes} {last : Nat} {e : SourceError}

theorem Transcript.filterMap_record {r : Run σ} {calls : List (Pull σ)} {final : Pull σ}
    (h : Transcript s source r calls final) : calls.filterMap Pull.record? = r.emitted.toList := by
  have hmap : calls.filterMap Pull.record? =
      (calls.map Pull.outcome).filterMap fun outcome => outcome.toOption.join := by
    rw [List.filterMap_map]
    congr 1
    funext p
    rcases p with ⟨f | t?, _, _, _⟩ <;> rfl
  rw [hmap, h.outcomes_eq, List.filterMap_map]
  exact List.filterMap_some

theorem Transcript.goesOn {r : Run σ} {calls : List (Pull σ)} {final : Pull σ}
    (h : Transcript s source r calls final) : ∀ p ∈ calls, p.GoesOn := by
  intro p hp
  have hmem := List.mem_map_of_mem (f := Pull.outcome) hp
  rw [h.outcomes_eq] at hmem
  obtain ⟨t, -, ht⟩ := List.mem_map.1 hmem
  exact .inl ⟨t, ht.symm⟩

/-- What the data come to is what the run came to and what is left comes to. -/
theorem summaryOf_interrupted (hfin : s.finish = none)
    (h : s.Interrupted source data last e (s.run source))
    (hfault : (s.run source).fault ≠ none) :
    let r := s.run source
    let rest := r.session.summaryOf (r.session.toParse data) (r.session.toClock data)
    s.summaryOf (s.toParse data) (s.toClock data) =
      { rest with
        emitted := r.emitted.toList ++ rest.emitted
        observed := r.observed.toList ++ rest.observed } := by
  intro r rest
  have hcourse := run_course source hfin
  have hlast : r.session.lastGood = ((r.line s).items.getLast?.map Clocked.mark).or s.lastGood :=
    hcourse.lastGood_eq
  have hmark : ∀ items : List Clocked,
      (((r.line s).items ++ items).getLast?.map Clocked.mark).or s.lastGood =
        (items.getLast?.map Clocked.mark).or r.session.lastGood := by
    intro items
    rw [hlast, List.getLast?_append]
    cases items.getLast? <;> rfl
  simp only [rest, summaryOf, Summary.mk.injEq]
  rw [h.toClock_eq hfin, h.parse_eq]
  refine ⟨?_, ?_, ?_, ?_, ?_, rfl, rfl, ?_⟩
  · rw [List.map_append, Queue.emission_append, ← List.append_assoc,
      ← hcourse.emitted_of_fault hfault, ← hcourse.queue_of_fault hfault, h.ready_eq]
    rfl
  · rw [hcourse.observed_eq, ← List.map_append]
  · rw [hmark]
  · rw [hmark]
  · rw [hcourse.ordinal_eq, List.length_append, Nat.add_assoc]
  · rw [hcourse.corrections_eq, ← Corrections.foldl_observe_eq, ← Corrections.foldl_observe_eq,
      List.map_append, List.foldl_append]

/-- A caller who tries again after every failure gets what the data come to. -/
theorem exists_pulls_of_recovers (hrecovers : Source.Recovers last source) : ∀ s : Session,
    s.finish = none → s.Within data last → Source.Faithful source data last →
    (s.toClock data).fault = none → ∃ calls final,
      pulls (calls.length + 1) s source = calls ++ [final] ∧ final.outcome = .ok none ∧
        (∀ p ∈ calls, p.GoesOn) ∧
        Pull.summary calls final = s.summaryOf (s.toParse data) (s.toClock data) := by
  induction hrecovers with
  | @intro source _ ih =>
    -- after each failure fewer can follow
    intro s hfin hw hs hline
    obtain ⟨calls, final, ht⟩ := exists_transcript s source
    have hrecords := ht.filterMap_record
    have hfinal := ht.final_eq
    rcases hfault : (s.run source).fault with _ | (e | o)
    · rw [hfault] at hfinal
      refine ⟨calls, final, ht.pulls_eq, hfinal, ht.goesOn, ?_⟩
      rw [← (summary_run hw hs hfin hfault).2, Pull.summary, hrecords, ht.observed_eq,
        ht.session_eq]
      rfl
    · -- the call that fails leaves the session where the next one goes on
      have hi := interrupted_of_fault s source hfin hw hs hfault
      have hline' : ((s.run source).session.toClock data).fault = none := by
        rw [hi.toClock_eq hfin] at hline
        exact hline
      obtain ⟨more, final', hpulls, houtcome, hgoes, hsummary⟩ := ih e _ hi.failed
        (s.run source).session hi.finish_eq hi.within (hs.of_reaches hi.failed.reaches) hline'
      rw [← ht.session_eq, ← ht.source_eq] at hpulls
      rw [hfault] at hfinal
      refine ⟨calls ++ final :: more, final', ?_, houtcome, ?_, ?_⟩
      · have happend := pulls_append ht.pulls_eq (more.length + 1)
        rw [hpulls] at happend
        rw [List.length_append, List.length_cons, List.append_assoc, List.cons_append, ← happend]
        congr 1
        omega
      · intro p hp
        rcases List.mem_append.1 hp with hp | hp
        · exact ht.goesOn p hp
        · rcases List.mem_cons.1 hp with rfl | hp
          · exact .inr ⟨e, hfinal⟩
          · exact hgoes p hp
      · have hnone : final.record? = none := by rw [Pull.record?, hfinal]; rfl
        rw [summaryOf_interrupted hfin hi (by simp [hfault]), ← hsummary]
        simp only [Pull.summary, Summary.mk.injEq, and_true]
        constructor
        · rw [List.filterMap_append, List.filterMap_cons, hnone, hrecords]
        · rw [← ht.observed_eq, ← List.flatMap_append]
          simp
    · have hcovers := run_reads s source hfin hw hs
      rcases hcovers with ⟨e, he, -⟩ | hcovers
      · rw [hfault] at he
        cases he
      · have := hcovers.fault_eq
        rw [hfault, hline] at this
        cases this

end Pulls

/-- A caller who asks for the next record again after every failure loses none and gets none twice:
the calls that return a record return those of a run without failures, there is one call that fails
for each read that does, and in the end the session is where that run ends. -/
theorem summary_pulls_of_recovers {source : σ} {again : τ} {data : Bytes} {last : Nat}
    (hs : Source.Faithful source data last) (hrecovers : Source.Recovers last source)
    (hagain : Source.Delivers again data last) (table : Tag.Table) (clock : Clock.Config)
    (start : Start) (hstart : start.offset ≤ last) (limit : Option Nat)
    (hfit : ∀ o, (({ resume table clock start with limit } : Session).run again).fault ≠
      some (.overflow o)) :
    let session : Session := { resume table clock start with limit }
    ∃ (calls : List (Pull (Logged σ))) (final : Pull (Logged σ)),
      pulls (calls.length + 1) session (Logged.mk source []) = calls ++ [final] ∧
        pulls (calls.length + 1) session source =
          (calls ++ [final]).map (Pull.mapSource Logged.source) ∧
        final.outcome = .ok none ∧ (∀ p ∈ calls, p.GoesOn) ∧
        calls.filterMap Pull.failure? = final.source.failures ∧
        (session.run again).fault = none ∧
        Pull.summary calls final = (session.run again).summary := by
  intro session
  have hw : session.Within data last :=
    ⟨Window.shows_start data start.offset, hstart, Record.Parser.sound_of_openText rfl _⟩
  have hcovers := covers_of_delivers hw hagain rfl
  have hline : (session.toClock data).fault = none := hcovers.fits hfit
  obtain ⟨hfault, hsummary⟩ := summary_of_covers hcovers rfl hline
  have hlogged : Source.Faithful (⟨source, []⟩ : Logged σ) data last := Logged.faithful hs
  obtain ⟨calls, final, hpulls, houtcome, hgoes, hcalls⟩ :=
    exists_pulls_of_recovers (Logged.recovers hrecovers []) session rfl hw hlogged hline
  refine ⟨calls, final, hpulls, ?_, houtcome, hgoes, ?_, hfault, hcalls.trans hsummary.symm⟩
  · rw [← hpulls]
    exact pulls_map (f := Logged.source) (fun _ _ _ => rfl) _ session (Logged.mk source [])
  · rw [failures_pulls hpulls, List.filterMap_append]
    simp [Pull.failure?, houtcome, failure?]

/-- Reads fail in the middle of a text, and again before the record that is swapped. -/
theorem summary_pulls_of_recovers_twice :
    let data : Bytes := [1, 5, 0, 32, 104, 32, 105, 32, 0, 1, 9, 0, 1, 8, 0]
    let source : Memory := {
      contents := data.toArray
      readLimit := some 5
      faults := some ⟨4, some 2⟩ }
    let session := (resume Tag.Table.standard {} {}).withLimit 9
    Source.Faithful source data 15 ∧ Source.Recovers 15 source ∧
      (session.run source).fault = some (.source Memory.injected) ∧
      ∃ (calls : List (Pull (Logged Memory))) (final : Pull (Logged Memory)),
        pulls (calls.length + 1) session (Logged.mk source []) = calls ++ [final] ∧
          final.outcome = .ok none ∧ calls.filterMap Pull.failure? = final.source.failures ∧
          Pull.summary calls final = (session.run (Memory.plain data)).summary := by
  intro data source session
  have hs : Source.Faithful source data 15 :=
    Memory.faithful (by decide) (by decide) (by decide)
  have hrecovers : Source.Recovers 15 source := Memory.recovers rfl 15
  have hplain : Source.Delivers (Memory.plain data) data 15 :=
    (Memory.holds_plain (by decide) (by decide)).toDelivers
  have hfault : (session.run (Memory.plain data)).fault = none := by decide +kernel
  have hfit : ∀ o, (session.run (Memory.plain data)).fault ≠ some (.overflow o) :=
    fun o h => by simp [hfault] at h
  obtain ⟨calls, final, hpulls, -, houtcome, -, hfailures, -, hsummary⟩ :=
    summary_pulls_of_recovers hs hrecovers hplain Tag.Table.standard {} {} (Nat.zero_le _) (some 9)
      hfit
  exact ⟨hs, hrecovers, by decide +kernel, calls, final, hpulls, houtcome, hfailures, hsummary⟩

end Session

end Telemetry
