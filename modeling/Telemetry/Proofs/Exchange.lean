import Telemetry.Proofs.Resumption
import Telemetry.Proofs.Retrying

/-!
# Neighbours exchanged

The clock finds a swap by what it remembers of the previous record, and the queue exchanges the
record with whatever it holds.  The two agree: a swap follows a record that moved the clock, and
that one is held.  So a run emits the records in the order of the stream, but for disjoint pairs of
neighbours (`exchanges_emission`).

What a step returns and what it leaves in the session is what there was and what it parsed
(`Stepped.conserves`); after a record has been returned, at most one more has been parsed
(`exchanges_emitted`).
-/

namespace Telemetry

/-- The clock moved to the stamp of the record. -/
def Timed.Moves (t : Timed) : Prop :=
  t.record.isTimed = true ∧ (t.order = .inOrder ∨ ∃ ticks, t.order = .ambiguous ticks)

/-- The emitted records are those of the stream, each in its place there, but for the swaps: the
record comes out in the place of the one before it, and that one in its place. -/
structure Exchanges (stream emitted : List Timed) : Prop where
  perm : emitted.Perm stream
  swap : ∀ (k : Nat) (t : Timed), stream[k]? = some t → t.order.isSwap = true →
    ∃ j u, k = j + 1 ∧ stream[j]? = some u ∧ u.Moves ∧
      emitted[j]? = some t ∧ emitted[k]? = some u
  keep : ∀ (k : Nat) (t : Timed), stream[k]? = some t → t.order.isSwap = false →
    (∀ u, stream[k + 1]? = some u → u.order.isSwap = false) → emitted[k]? = some t

theorem Timed.Moves.not_isSwap {t : Timed} (h : t.Moves) : t.order.isSwap = false := by
  obtain ⟨-, h | ⟨ticks, h⟩⟩ := h <;> rw [h] <;> rfl

namespace Queue

variable {ts : List Timed}

/-- A record that is no swap, and is not followed by one, comes out in its place. -/
theorem emission_at_keep {k : Nat} {t : Timed} (ht : ts[k]? = some t)
    (hts : t.order.isSwap = false) (hnext : ∀ u, ts[k + 1]? = some u → u.order.isSwap = false) :
    (({} : Queue).emission ts)[k]? = some t := by
  have hk : k < ts.length := (List.getElem?_eq_some_iff.1 ht).1
  have hdrop : ts.drop k = t :: ts.drop (k + 1) := by
    rw [List.drop_eq_getElem_cons hk, (List.getElem?_eq_some_iff.1 ht).2]
  have hemit : (({} : Queue).emission ts).drop k = ({} : Queue).emission (ts.drop k) := by
    refine drop_emission fun u hu => ?_
    rw [ht] at hu
    rwa [← Option.some.inj hu]
  have hheld : (⟨some t⟩ : Queue).emission (ts.drop (k + 1)) =
      t :: ({} : Queue).emission (ts.drop (k + 1)) := by
    refine emission_held_of_not_swap (fun u hu => hnext u ?_) t
    rwa [List.head?_drop] at hu
  rw [← List.head?_drop, hemit, hdrop, emission_cons, push_of_not_swap hts]
  change ((⟨some t⟩ : Queue).emission (ts.drop (k + 1))).head? = some t
  rw [hheld]
  rfl

/-- Where swaps follow records that moved the clock, what comes out are neighbours exchanged. -/
theorem exchanges_emission (h : ∀ (k : Nat) (t : Timed), ts[k]? = some t →
    t.order.isSwap = true → ∃ j u, k = j + 1 ∧ ts[j]? = some u ∧ u.Moves) :
    Exchanges ts (({} : Queue).emission ts) where
  perm := ({} : Queue).emission_perm ts
  swap k t ht hts := by
    obtain ⟨j, u, rfl, hu, hmoves⟩ := h k t ht hts
    obtain ⟨hfirst, hsecond, -⟩ := emission_at_swap ht hu hts hmoves.not_isSwap
    exact ⟨j, u, rfl, hu, hmoves, hfirst, hsecond⟩
  keep k t ht hts hnext := emission_at_keep ht hts hnext

end Queue

namespace Session

section Timed

variable {σ : Type}

/-- The parsed records with their times, in the order of the stream. -/
def Run.timed (r : Run σ) (s : Session) : List Timed :=
  (r.line s).items.map Clocked.timed

variable [Source σ] (table : Tag.Table) (clock : Clock.Config) (source : σ)

theorem map_record_timed : (((new table clock).run source).timed (new table clock)).map
    Timed.record = ((new table clock).run source).observed.toList.map Observation.record := by
  rw [(run_course source rfl).observed_eq, Run.timed, List.map_map, List.map_map]
  rfl

theorem numbered_timed : Numbered (((new table clock).run source).timed (new table clock)) := by
  intro i t ht
  obtain ⟨o, ho, heq⟩ : ∃ o, ((new table clock).run source).observed.toList[i]? = some o ∧
      o.record = t.record := by
    have hmap := congrArg (·[i]?) (map_record_timed table clock source)
    simp only [List.getElem?_map, ht, Option.map_some] at hmap
    exact Option.map_eq_some_iff.1 hmap.symm
  rw [← heq, ordinal_observed _ source i o ho]
  exact Nat.zero_add i

theorem emitted_eq_emission (hfault : ((new table clock).run source).fault = none) :
    ((new table clock).run source).emitted.toList =
      ({} : Queue).emission (((new table clock).run source).timed (new table clock)) :=
  (run_course source rfl).emitted_eq hfault

theorem moves_of_swap {k : Nat} {t : Timed}
    (ht : (((new table clock).run source).timed (new table clock))[k]? = some t)
    (hswap : t.order.isSwap = true) :
    ∃ j u, k = j + 1 ∧ (((new table clock).run source).timed (new table clock))[j]? = some u ∧
      u.Moves := by
  rw [Run.timed, List.getElem?_map, Option.map_eq_some_iff] at ht
  obtain ⟨item, hitem, rfl⟩ := ht
  obtain ⟨j, prev, hj, hprev, hswappable⟩ := Clock.Config.swappable_timeline rfl hitem hswap
  have hadvances := Clock.Config.advances_of_mem_timeline (List.mem_of_getElem? hprev)
  obtain ⟨htimed, hmove⟩ := hadvances.swappable_iff.1 hswappable
  refine ⟨j, prev.timed, hj, ?_, htimed, Clock.Order.eq_of_isMove hmove⟩
  rw [Run.timed, List.getElem?_map]
  exact congrArg _ hprev

end Timed

/-- The records that have been parsed and not yet emitted. -/
def heldBack (s : Session) : List Timed :=
  s.ready ++ s.queue.held.toList

namespace Event

def emitted? : Event → Option Timed
  | emitted t => some t
  | _ => none

def parsed? : Event → Option Observation
  | parsed o => some o
  | _ => none

end Event

section HeldBack

variable {σ : Type} {s s' : Session} {source source' : σ} {e : Event}

theorem heldBack_accepted (window : Window) (parser : Record.Parser) (r : Record)
    (a : Clock.Advance) : (s.accepted window parser r a).heldBack =
      s.ready ++ ((s.queue.push ⟨r, a.ns, a.order⟩).2 ++
        (s.queue.push ⟨r, a.ns, a.order⟩).1.held.toList) :=
  List.append_assoc _ _ _

theorem heldBack_stop (window : Window) (finish : StreamEnd) :
    ({ s with window }.stop finish).heldBack = s.heldBack :=
  List.append_nil _

/-- What a step emits, and what it leaves, is what there was and what it parsed. -/
theorem Stepped.conserves (h : Stepped s source e s' source') :
    ((e.emitted?.toList ++ s'.heldBack).map Timed.record).Perm
      (s.heldBack.map Timed.record ++ e.parsed?.toList.map Observation.record) := by
  cases h with
  | emitted hready =>
    simp only [heldBack, hready, Event.emitted?, Event.parsed?, Option.toList_some,
      Option.toList_none, List.map_nil, List.append_nil]
    exact .refl _
  | finished => simp [Event.emitted?, Event.parsed?]
  | moved => simp [Event.emitted?, Event.parsed?, heldBack]
  | stopped window finish _ hready =>
    rw [heldBack_stop]
    simp [Event.emitted?, Event.parsed?]
  | @parsed window parser r a hready =>
    have hpush := (s.queue.push_perm ⟨r, a.ns, a.order⟩).map Timed.record
    rw [heldBack_accepted]
    simpa [Event.emitted?, Event.parsed?, heldBack, hready] using hpush

/-- Two records are held back at most, and one after a record has been emitted. -/
theorem Stepped.length_heldBack_le (h : Stepped s source e s' source')
    (hle : s.heldBack.length ≤ 2) :
    s'.heldBack.length ≤ 2 ∧ (e.emitted?.isSome → s'.heldBack.length ≤ 1) := by
  cases h with
  | emitted hready =>
    simp only [heldBack, hready, List.cons_append, List.length_cons] at hle
    have hle' : ({ s with ready := _ } : Session).heldBack.length ≤ 1 := Nat.le_of_succ_le_succ hle
    exact ⟨Nat.le_succ_of_le hle', fun _ => hle'⟩
  | finished => exact ⟨hle, fun h => by cases h⟩
  | moved => exact ⟨hle, fun h => by cases h⟩
  | stopped window finish =>
    rw [heldBack_stop]
    exact ⟨hle, fun h => by cases h⟩
  | @parsed window parser r a hready =>
    -- nothing was ready, so all there was is the record that the queue held
    have hpush := s.queue.length_push ⟨r, a.ns, a.order⟩
    have hheld : s.queue.held.toList.length ≤ 1 := by cases s.queue.held <;> simp
    refine ⟨?_, fun h => by cases h⟩
    rw [heldBack_accepted, hready, List.nil_append, List.length_append]
    omega

/-- What comes of the steps after one that emitted nothing comes of all of them. -/
theorem Stepped.conserves_then (h : Stepped s source e s' source') (he : e.emitted? = none)
    {ts : List Timed} {os : List Observation}
    (hts : (ts.map Timed.record).Perm
      (s'.heldBack.map Timed.record ++ os.map Observation.record)) :
    (ts.map Timed.record).Perm
      (s.heldBack.map Timed.record ++ (e.parsed?.toList ++ os).map Observation.record) := by
  have hconserves := h.conserves
  rw [he, Option.toList_none, List.nil_append] at hconserves
  rw [List.map_append, ← List.append_assoc]
  exact hts.trans (hconserves.append_right _)

variable [Source σ]

/-- The same of a call, which takes steps until there is a record to return. -/
theorem pull_conserves (s : Session) (source : σ) :
    (((s.pull source).record?.toList ++ (s.pull source).session.heldBack).map Timed.record).Perm
        (s.heldBack.map Timed.record ++ (s.pull source).observed.map Observation.record) ∧
      (s.heldBack.length ≤ 2 → (s.pull source).session.heldBack.length ≤ 2 ∧
        ((s.pull source).record?.isSome → (s.pull source).session.heldBack.length ≤ 1)) := by
  induction h : s.potential source using Nat.strongRecOn generalizing s source with
  | _ n ih =>
    subst h
    rcases hstep : s.step source with ⟨f | ⟨t | o | _ | _, s'⟩, source'⟩
    · rw [pull_of_error hstep]
      exact ⟨by simp [Pull.record?], fun hle => ⟨hle, fun h => by cases h⟩⟩
    · rw [pull_of_emitted hstep]
      have hstepped := step_stepped hstep
      exact ⟨hstepped.conserves, hstepped.length_heldBack_le⟩
    · rw [pull_of_parsed hstep]
      obtain ⟨hperm, hlen⟩ := ih _ (potential_step hstep (by simp)) s' source' rfl
      have hstepped := step_stepped hstep
      exact ⟨hstepped.conserves_then rfl hperm,
        fun hle => hlen (hstepped.length_heldBack_le hle).1⟩
    · rw [pull_of_worked hstep]
      obtain ⟨hperm, hlen⟩ := ih _ (potential_step hstep (by simp)) s' source' rfl
      have hstepped := step_stepped hstep
      exact ⟨hstepped.conserves_then rfl hperm,
        fun hle => hlen (hstepped.length_heldBack_le hle).1⟩
    · rw [pull_of_over hstep]
      have hstepped := step_stepped hstep
      exact ⟨hstepped.conserves, hstepped.length_heldBack_le⟩

/-- After some calls, the records returned and those held back are the records parsed. -/
theorem pulls_conserve {calls : List (Pull σ)} {final : Pull σ}
    (h : pulls (calls.length + 1) s source = calls ++ [final]) :
    (((calls ++ [final]).filterMap Pull.record? ++ final.session.heldBack).map Timed.record).Perm
        (s.heldBack.map Timed.record ++
          ((calls ++ [final]).flatMap Pull.observed).map Observation.record) ∧
      (s.heldBack.length ≤ 2 → final.record?.isSome → final.session.heldBack.length ≤ 1) := by
  induction calls generalizing s source with
  | nil =>
    obtain rfl : s.pull source = final := (List.cons.inj h).1
    obtain ⟨hperm, hlen⟩ := s.pull_conserves source
    refine ⟨?_, fun hle => (hlen hle).2⟩
    rcases hr : (s.pull source).record? with _ | t <;> rw [hr] at hperm <;>
      simpa [hr] using hperm
  | cons p calls ih =>
    obtain ⟨hp, hcalls⟩ := List.cons.inj h
    obtain ⟨hperm, hlen⟩ := s.pull_conserves source
    obtain ⟨hperm', hlen'⟩ := ih hcalls
    refine ⟨?_, fun hle => hlen' (hlen hle).1⟩
    have hfirst : (p :: calls ++ [final]).filterMap Pull.record? =
        p.record?.toList ++ (calls ++ [final]).filterMap Pull.record? := by
      rw [List.cons_append, List.filterMap_cons]
      cases p.record? <;> rfl
    rw [hp] at hperm hperm'
    rw [hfirst, List.cons_append, List.flatMap_cons]
    simp only [List.map_append, List.append_assoc] at hperm hperm' ⊢
    refine (hperm'.append_left _).trans ?_
    rw [← List.append_assoc, ← List.append_assoc]
    exact hperm.append_right _

/-- A run emits the records in the order of the stream, but for disjoint pairs of neighbours that
are exchanged, and after a record was returned at most one is held back. -/
theorem exchanges_emitted (table : Tag.Table) (clock : Clock.Config) (source : σ)
    (hfault : ((new table clock).run source).fault = none) :
    let run := (new table clock).run source
    let stream := run.timed (new table clock)
    stream.map Timed.record = run.observed.toList.map Observation.record ∧ Numbered stream ∧
      Exchanges stream run.emitted.toList ∧
      ∀ (calls : List (Pull σ)) (final : Pull σ),
        pulls (calls.length + 1) (new table clock) source = calls ++ [final] →
          (∃ t, final.outcome = .ok (some t)) →
            final.session.heldBack.length ≤ 1 ∧
              (((calls ++ [final]).filterMap Pull.record? ++ final.session.heldBack).map
                Timed.record).Perm
                  (((calls ++ [final]).flatMap Pull.observed).map Observation.record) := by
  intro run stream
  refine ⟨map_record_timed table clock source, numbered_timed table clock source, ?_, ?_⟩
  · rw [emitted_eq_emission table clock source hfault]
    exact Queue.exchanges_emission fun k t ht hswap => moves_of_swap table clock source ht hswap
  · rintro calls final hcalls ⟨t, ht⟩
    obtain ⟨hperm, hlen⟩ := pulls_conserve hcalls
    exact ⟨hlen (Nat.zero_le _) (by simp [Pull.record?, ht]), hperm⟩

end HeldBack

/-- A swap between a record without a stamp and one that lags without being swapped; the third call
returns the swapped record and leaves the one before it. -/
theorem exchanges_emitted_at_swap :
    let s := new Tag.Table.standard {}
    let source := Memory.plain [1, 5, 0, 18, 7, 1, 9, 0, 1, 8, 0, 1, 6, 0]
    let first := s.pull source
    let second := first.session.pull first.source
    let third := second.session.pull second.source
    (s.run source).fault = none ∧ Exchanges ((s.run source).timed s) (s.run source).emitted.toList ∧
      (s.run source).emitted.toList.map (·.record.ordinal) = [0, 1, 3, 2, 4] ∧
      third.outcome = .ok (some ⟨⟨3, 1, .fixed, [8, 0], 8, 3, some 8⟩, 6001, .swapWithPrevious 1⟩) ∧
      third.session.heldBack.length ≤ 1 := by
  intro s source first second third
  have hfault : (s.run source).fault = none := by decide +kernel
  have hthird : third.outcome =
      .ok (some ⟨⟨3, 1, .fixed, [8, 0], 8, 3, some 8⟩, 6001, .swapWithPrevious 1⟩) := by
    decide +kernel
  obtain ⟨-, -, hexchanges, hheld⟩ := exchanges_emitted Tag.Table.standard {} source hfault
  exact ⟨hfault, hexchanges, by decide +kernel, hthird,
    (hheld [first, second] third rfl ⟨_, hthird⟩).1⟩

end Session

end Telemetry
