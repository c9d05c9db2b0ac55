import Telemetry.Proofs.Decoding

/-!
# Resuming at a record

A session resumed at a record of a full run, with its offset and the state before it, parses what
the full run parses from there on, and the clock makes the same of it (`resumes_start`): neither an
open text, nor the window, nor the held record matters.  So it goes on as the full run does
(`resume_continues`), but for one position of the emission: a record that the full run emits before
the previous one comes first here.
-/

namespace Telemetry

/-- Where a session resumes at an observed record. -/
def Observation.start (o : Observation) : Session.Start :=
  ⟨o.record.ordinal, o.record.offset, o.before⟩

/-- Each record stands where its ordinal says. -/
def Numbered (ts : List Timed) : Prop :=
  ∀ (i : Nat) (t : Timed), ts[i]? = some t → t.record.ordinal = i

section Numbered

variable {ts : List Timed}

theorem Numbered.lt_of_mem_take (h : Numbered ts) {k : Nat} {t : Timed} (ht : t ∈ ts.take k) :
    t.record.ordinal < k := by
  obtain ⟨i, hi, hget⟩ := List.mem_take_iff_getElem.1 ht
  rw [h i t (List.getElem?_eq_some_iff.2 ⟨_, hget⟩)]
  omega

theorem Numbered.le_of_mem_drop (h : Numbered ts) {k : Nat} {t : Timed} (ht : t ∈ ts.drop k) :
    k ≤ t.record.ordinal := by
  obtain ⟨i, hi, hget⟩ := List.mem_drop_iff_getElem.1 ht
  rw [h (k + i) t (List.getElem?_eq_some_iff.2 ⟨by omega, hget⟩)]
  omega

theorem Numbered.filter_lt (h : Numbered ts) (k : Nat) :
    ts.filter (·.record.ordinal < k) = ts.take k := by
  conv_lhs => rw [← List.take_append_drop k ts]
  rw [List.filter_append, List.filter_eq_self.2, List.filter_eq_nil_iff.2, List.append_nil]
  · intro t ht
    simpa using h.le_of_mem_drop ht
  · intro t ht
    simpa using h.lt_of_mem_take ht

theorem Numbered.filter_le (h : Numbered ts) (k : Nat) :
    ts.filter (k ≤ ·.record.ordinal) = ts.drop k := by
  conv_lhs => rw [← List.take_append_drop k ts]
  rw [List.filter_append, List.filter_eq_nil_iff.2, List.filter_eq_self.2, List.nil_append]
  · intro t ht
    simpa using h.le_of_mem_drop ht
  · intro t ht
    simpa using h.lt_of_mem_take ht

/-- What comes out from record `k` on, where a swap follows a record that is none. -/
theorem Numbered.emission_drop (h : Numbered ts) {k : Nat} {t : Timed} (ht : ts[k]? = some t)
    (hswap : t.order.isSwap = true → ∃ j u, k = j + 1 ∧ ts[j]? = some u ∧ u.order.isSwap = false) :
    (t.order.isSwap = false ∧
        ({} : Queue).emission (ts.drop k) = (({} : Queue).emission ts).drop k) ∨
      (t.order.isSwap = true ∧ ∃ j u, k = j + 1 ∧ u.record.ordinal = j ∧
        (({} : Queue).emission ts)[j]? = some t ∧ (({} : Queue).emission ts)[j + 1]? = some u ∧
        ({} : Queue).emission (ts.drop k) = t :: (({} : Queue).emission ts).drop (j + 2)) := by
  rcases hs : t.order.isSwap
  · refine .inl ⟨rfl, (Queue.drop_emission fun t' ht' => ?_).symm⟩
    rw [ht] at ht'
    rw [← Option.some.inj ht', hs]
  · obtain ⟨j, u, rfl, hu, hus⟩ := hswap hs
    obtain ⟨hfirst, hsecond, hrest⟩ := Queue.emission_at_swap ht hu hs hus
    exact .inr ⟨rfl, j, u, rfl, h j u hu, hfirst, hsecond, hrest⟩

end Numbered

namespace Session

/-- From `start` on, a session decodes the data as a full run does. -/
structure Start.Resumes (start : Start) (table : Tag.Table) (clock : Clock.Config)
    (data : Bytes) : Prop where
  offset_le : start.offset ≤ data.length
  parse_eq : (resume table clock start).toParse data =
    { (new table clock).toParse data with
      records := ((new table clock).toParse data).records.drop start.ordinal }
  clock_eq : (resume table clock start).toClock data =
    ⟨((new table clock).toClock data).items.drop start.ordinal,
      ((new table clock).toClock data).state, none⟩

section Resumes

variable {table : Tag.Table} {clock : Clock.Config} {data : Bytes}

theorem resumes_beginning (hfault : ((new table clock).toClock data).fault = none) :
    Start.Resumes {} table clock data :=
  ⟨Nat.zero_le _, rfl, by rw [← hfault]; rfl⟩

/-- A session can be resumed where a record of a full run begins, in the state before it. -/
theorem resumes_start (hlen : data.length < Word.size)
    (hfault : ((new table clock).toClock data).fault = none) {k : Nat} {item : Clocked}
    (hitem : ((new table clock).toClock data).items[k]? = some item) :
    item.observation.start.ordinal = k ∧ item.observation.start.Resumes table clock data := by
  have hr : ((new table clock).toParse data).records[k]? = some item.record := by
    have hrecords : ((new table clock).toClock data).items.map Clocked.record =
      ((new table clock).toParse data).records := clock.records_timeline {} _ hfault
    rw [← hrecords, List.getElem?_map, hitem]
    rfl
  have hsound : ({ table } : Record.Parser).Sound 0 := Record.Parser.sound_of_openText rfl 0
  have hfit : 0 + (data.drop 0).length < Word.size := by simpa using hlen
  obtain ⟨hordinal, hparse⟩ :=
    Record.Parser.parse_drop none _ (data.drop 0) 0 0 hsound rfl hfit rfl hr
  rw [Nat.zero_add] at hordinal
  have hoffset := Record.Parser.offset_le_of_mem_parse _ (data.drop 0) 0 0 hsound hfit item.record
    (List.mem_of_getElem? hr)
  subst hordinal
  refine ⟨rfl, hoffset.trans (by simp), hparse, ?_⟩
  refine Eq.trans ?_ (clock.timeline_drop {} _ hfault hitem)
  exact congrArg (fun parse => clock.timeline item.before parse.records) hparse

theorem numbered_toClock (hlen : data.length < Word.size)
    (hfault : ((new table clock).toClock data).fault = none) :
    Numbered (((new table clock).toClock data).items.map Clocked.timed) := by
  intro i t ht
  rw [List.getElem?_map, Option.map_eq_some_iff] at ht
  obtain ⟨item, hitem, rfl⟩ := ht
  exact (resumes_start hlen hfault hitem).1

end Resumes

/-- A run that goes on where the observed record of a full run was parsed. -/
structure Summary.Continues (part full : Summary) (o : Observation) : Prop where
  observed_eq : part.observed = full.observed.drop o.record.ordinal
  head_observed : part.observed.head? = some o
  finish_eq : part.finish = full.finish
  lastGood_eq : part.lastGood = full.lastGood
  ordinal_eq : part.ordinal = full.ordinal
  offset_eq : part.offset = full.offset
  state_eq : part.state = full.state
  emitted_perm : part.emitted.Perm (full.emitted.filter (o.record.ordinal ≤ ·.record.ordinal))
  corrections_eq : full.corrections =
    (Corrections.ofList (full.emitted.filter (·.record.ordinal < o.record.ordinal))).merge
      part.corrections
  /-- If the full run emits the record before the previous one, it comes first, and the previous
  one not at all. -/
  emitted_eq : ∃ t ∈ full.emitted, t.record = o.record ∧
    ((t.order.isSwap = false ∧ part.emitted = full.emitted.drop o.record.ordinal) ∨
      (t.order.isSwap = true ∧ ∃ j u, o.record.ordinal = j + 1 ∧ u.record.ordinal = j ∧
        full.emitted[j]? = some t ∧ full.emitted[j + 1]? = some u ∧
        part.emitted = t :: full.emitted.drop (j + 2)))

/-- What a session comes to that had taken in nothing before the items. -/
def Summary.ofItems (ordinal : Nat) (parse : Record.Parse) (items : List Clocked)
    (state : Clock.State) : Summary where
  emitted := ({} : Queue).emission (items.map Clocked.timed)
  observed := items.map Clocked.observation
  finish := some (parse.finish.withLastGood (items.getLast?.map Clocked.mark))
  lastGood := items.getLast?.map Clocked.mark
  ordinal := ordinal + items.length
  offset := parse.offset
  state
  corrections := Corrections.ofList (items.map Clocked.timed)

theorem summaryOf_resume (table : Tag.Table) (clock : Clock.Config) (start : Start)
    (parse : Record.Parse) (line : Clock.Timeline) :
    (resume table clock start).summaryOf parse line =
      .ofItems start.ordinal parse line.items line.state := by
  simp [summaryOf, resume, Summary.ofItems, Corrections.empty_merge]

/-- The items from one on go on where it stands. -/
theorem Summary.continues_ofItems {items : List Clocked} {k : Nat} {item : Clocked}
    (hnum : Numbered (items.map Clocked.timed)) (hitem : items[k]? = some item)
    (hswap : item.advance.order.isSwap = true →
      ∃ j prev, k = j + 1 ∧ items[j]? = some prev ∧ prev.advance.order.isSwap = false)
    (parse : Record.Parse) (rs : List Record) (state : Clock.State) :
    (ofItems k { parse with records := rs } (items.drop k) state).Continues
      (ofItems 0 parse items state) item.observation := by
  have ht : (items.map Clocked.timed)[k]? = some item.timed := by
    rw [List.getElem?_map, hitem]
    rfl
  have hordinal : item.observation.record.ordinal = k := hnum k _ ht
  have hk : k < items.length := (List.getElem?_eq_some_iff.1 hitem).1
  have hlast : (items.drop k).getLast? = items.getLast? := by
    rw [List.getLast?_drop, if_neg (by omega)]
  have hperm := ({} : Queue).emission_perm (items.map Clocked.timed)
  have hfilter := hperm.filter (·.record.ordinal < k)
  refine ⟨?_, ?_, ?_, ?_, ?_, rfl, rfl, ?_, ?_, ?_⟩
  · rw [hordinal]
    exact List.map_drop
  · simp only [ofItems, List.map_drop, List.head?_drop, List.getElem?_map, hitem]
    rfl
  · simp only [ofItems, hlast]
  · simp only [ofItems, hlast]
  · simp only [ofItems, List.length_drop]
    omega
  · simp only [ofItems, hordinal, List.map_drop]
    refine (Queue.emission_perm _ _).trans ?_
    change ((items.map Clocked.timed).drop k).Perm _
    rw [← hnum.filter_le]
    exact (hperm.filter _).symm
  · simp only [ofItems, hordinal, List.map_drop]
    rw [Corrections.ofList_perm hfilter]
    change _ = (Corrections.ofList (List.filter _ (items.map Clocked.timed))).merge _
    rw [hnum.filter_lt, ← Corrections.ofList_append, List.take_append_drop]
  · simp only [ofItems, hordinal, List.map_drop]
    refine ⟨item.timed, hperm.mem_iff.2 (List.mem_of_getElem? ht), rfl, hnum.emission_drop ht ?_⟩
    intro hs
    obtain ⟨j, prev, hj, hprev, hnot⟩ := hswap hs
    exact ⟨j, prev.timed, hj, by rw [List.getElem?_map, hprev]; rfl, hnot⟩

variable {σ τ : Type} [Source σ] [Source τ]

theorem summary_resume {table : Tag.Table} {clock : Clock.Config} {source : σ} {data : Bytes}
    {last : Nat} {start : Start} (h : start.Resumes table clock data)
    (hs : Source.Delivers source data last) :
    ((resume table clock start).run source).fault = none ∧
      ((resume table clock start).run source).summary =
        .ofItems start.ordinal
          { (new table clock).toParse data with
            records := ((new table clock).toParse data).records.drop start.ordinal }
          (((new table clock).toClock data).items.drop start.ordinal)
          ((new table clock).toClock data).state := by
  have hw := within_resume table clock (h.offset_le.trans hs.length_le) data
  have hcovers := covers_of_delivers hw hs rfl
  obtain ⟨hnone, hsummary⟩ :=
    summary_of_covers hcovers rfl (congrArg Clock.Timeline.fault h.clock_eq)
  refine ⟨hnone, ?_⟩
  rw [hsummary, h.clock_eq, h.parse_eq, summaryOf_resume]

section New

variable {table : Tag.Table} {clock : Clock.Config} {source : σ} {data : Bytes} {last : Nat}

theorem toClock_fits (hs : Source.Delivers source data last)
    (hfit : ∀ o, ((new table clock).run source).fault ≠ some (.overflow o)) :
    ((new table clock).toClock data).fault = none :=
  (covers_of_delivers (within_new table clock data last) hs rfl).fits hfit

theorem summary_new (hs : Source.Delivers source data last)
    (hline : ((new table clock).toClock data).fault = none) :
    ((new table clock).run source).fault = none ∧ ((new table clock).run source).summary =
      .ofItems 0 ((new table clock).toParse data) ((new table clock).toClock data).items
        ((new table clock).toClock data).state :=
  summary_resume (resumes_beginning hline) hs

end New

/-- A session can be resumed at every record that a full run parsed. -/
theorem resume_continues {table : Tag.Table} {clock : Clock.Config} {source : σ} {again : τ}
    {data : Bytes} {last : Nat} (hs : Source.Faithful source data last)
    (hagain : Source.Delivers again data last) {o : Observation}
    (hfault : ((new table clock).run source).fault = none)
    (ho : o ∈ ((new table clock).run source).observed) :
    ((resume table clock o.start).run again).fault = none ∧
      ((resume table clock o.start).run again).summary.Continues
        ((new table clock).run source).summary o := by
  have hlen : data.length < Word.size := by
    have := hs.length_le
    have := hs.last_lt
    omega
  obtain ⟨hline, hfull⟩ := summary_run (within_new table clock data last) hs rfl hfault
  obtain ⟨k, item, hitem, rfl⟩ : ∃ (k : Nat) (item : Clocked),
      ((new table clock).toClock data).items[k]? = some item ∧ item.observation = o := by
    have hobserved := congrArg Summary.observed hfull
    rw [← Array.mem_toList_iff, show ((new table clock).run source).observed.toList = _ from
      hobserved] at ho
    obtain ⟨item, hmem, rfl⟩ := List.mem_map.1 ho
    obtain ⟨k, hk⟩ := List.mem_iff_getElem?.1 hmem
    exact ⟨k, item, hk, rfl⟩
  obtain ⟨hordinal, hresumes⟩ := resumes_start hlen hline hitem
  obtain ⟨hnone, hsummary⟩ := summary_resume hresumes hagain
  refine ⟨hnone, ?_⟩
  rw [hsummary, hfull, new, summaryOf_resume, hordinal]
  exact Summary.continues_ofItems (numbered_toClock hlen hline) hitem
    (Clock.Config.swap_timeline rfl hitem) _ _ _

/-- The record that a session is resumed at comes out before the previous one. -/
theorem resume_continues_at_swap :
    let source := Memory.plain [1, 5, 0, 1, 9, 0, 1, 8, 0]
    let full := (new Tag.Table.standard {}).run source
    let o : Observation := {
      record := ⟨2, 1, .fixed, [8, 0], 6, 3, some 8⟩
      before := { lastRaw := 9, now := 8000, anchored := true, swappable := true } }
    Source.Delivers source [1, 5, 0, 1, 9, 0, 1, 8, 0] 9 ∧ full.fault = none ∧ o ∈ full.observed ∧
      ((resume Tag.Table.standard {} o.start).run source).summary.Continues full.summary o := by
  intro source full o
  have hs : Source.Delivers source [1, 5, 0, 1, 9, 0, 1, 8, 0] 9 :=
    (Memory.holds_plain (by decide) (by decide)).toDelivers
  have hfault : full.fault = none := by decide +kernel
  have ho : o ∈ full.observed := by decide +kernel
  exact ⟨hs, hfault, ho, (resume_continues hs.toFaithful hs hfault ho).2⟩

end Session

end Telemetry
