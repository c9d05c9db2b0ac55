import Telemetry.Proofs.Guarded
import Telemetry.Proofs.Summaries

/-!
# Reading chunks with every operation checked

The records of a chunk are collected from a decoder, with a counter for their positions that goes
one ahead of them (`Decoder.collect`).  The counter passes the last position by one, so it stays in
the words where the data do.  What a decoding takes is added to a tracker, whose count and sum are
checked as well, so they stay in their ranges as long as those of all requests do
(`Tracker.Within.checkedAdd`).

So whatever is asked of a reader, in whatever order, the checks leave the answers as they are
(`Chunk.Reader.Keeps.checkedServe_eq`), and no operation of indexing, reading and showing any data
that the clock has room for leaves its range (`decoding_checked`).
-/

namespace Telemetry

namespace Tracker

/-- Adds one run, with a check of the count as well. -/
def checkedAdd (t : Tracker) (name : String) (d : Duration) : Except Trap Tracker := do
  let _count ← Checked.word (Word.add (Timing.find name t.tallies).count 1)
  let (result, t') := t.add name d
  let _total ← Checked.word result
  return t'

/-- The tracker has been told of so many runs at most, which took so long at most. -/
def Within (t : Tracker) (count nanos : Nat) : Prop :=
  ∃ tallies runs, t = running tallies ∧ Timing.Holds tallies runs ∧ runs.length ≤ count ∧
    (runs.map (·.2.nanos)).sum ≤ nanos

theorem within_empty : empty.Within 0 0 :=
  ⟨[], [], rfl, Timing.holds_nil, Nat.le_refl _, Nat.le_refl _⟩

theorem Within.mono {t : Tracker} {count count' nanos nanos' : Nat} (h : t.Within count nanos)
    (hcount : count ≤ count') (hnanos : nanos ≤ nanos') : t.Within count' nanos' := by
  obtain ⟨tallies, runs, rfl, hholds, hruns, hsum⟩ := h
  exact ⟨tallies, runs, rfl, hholds, hruns.trans hcount, hsum.trans hnanos⟩

/-- One more run is added where the numbers of all runs have room for it. -/
theorem Within.checkedAdd {t : Tracker} {count nanos : Nat} {d : Duration}
    (h : t.Within count nanos) (hcount : count + 1 < Word.size)
    (hnanos : nanos + d.nanos < Word.size * Duration.nanosPerSecond) (name : String) :
    ∃ t', t.checkedAdd name d = .ok t' ∧ t'.Within (count + 1) (nanos + d.nanos) := by
  obtain ⟨tallies, runs, rfl, hholds, hruns, hsum⟩ := h
  have hsum' : ((runs ++ [(name, d)]).map (·.2.nanos)).sum ≤ nanos + d.nanos := by
    simpa using hsum
  have hfit := fit_of_sum_lt (Nat.lt_of_le_of_lt hsum' hnanos)
  obtain ⟨tallies', hadd, hholds'⟩ := hholds.add (hfit name)
  -- a name has no more runs than there are of all names
  have hfound : (Timing.find name (running tallies).tallies).count + 1 < Word.size := by
    have hle : (Timing.durations name runs).length ≤ runs.length := by
      rw [Timing.durations, List.length_map]
      exact List.length_filter_le _ _
    have hfind : (Timing.find name tallies).count = _ := (hholds.find_counts name).count_eq
    change (Timing.find name tallies).count + 1 < Word.size
    omega
  refine ⟨running tallies', ?_, tallies', _, rfl, hholds', ?_, hsum'⟩
  · rw [Tracker.checkedAdd, Checked.word_add hfound, Checked.ok_bind, hadd]
    rfl
  · rw [List.length_append, List.length_singleton]
    exact Nat.succ_le_succ hruns

end Tracker

namespace Decoder

section Collect

variable {σ : Type} [Source σ]

/-- Goes on to the next record, for no more than `steps` steps: a session needs no more of them than
its potential. -/
def pull : (steps : Nat) → Decoder → σ → Except Trap (Option Timed × Decoder) × σ
  | 0, d, source => (.ok (none, d), source)
  | steps + 1, d, source =>
    match d.step source with
    | (.error t, source') => (.error t, source')
    | (.ok (.emitted t, d'), source') => (.ok (some t, d'), source')
    | (.ok (.over, d'), source') => (.ok (none, d'), source')
    | (.ok (.parsed _, d'), source') => pull steps d' source'
    | (.ok (.worked, d'), source') => pull steps d' source'

/-- Collects the records at positions `start` to `stop - 1`; the next one has the position
`position`.  The record at `stop` is pulled too, but it does not matter if it cannot be read. -/
def collect (start stop steps position : Nat) (d : Decoder) (source : σ) :
    Except Trap (List Timed) × σ :=
  match _hnext : Word.add position 1 with
  | .error o => (.error (.fault (.overflow o)), source)
  | .ok next =>
    match d.pull steps source with
    | (.error (.fault (.source e)), source') =>
      (if stop ≤ position then .ok [] else .error (.fault (.source e)), source')
    | (.error t, source') => (.error t, source')
    | (.ok (none, _), source') => (.ok [], source')
    | (.ok (some t, d'), source') =>
      if stop ≤ position then (.ok [], source')
      else
        let (rest, source'') := d'.collect start stop steps next source'
        (rest.map fun records => if start ≤ position then t :: records else records, source'')
termination_by stop - position
decreasing_by
  obtain ⟨-, rfl⟩ := Word.add_eq_ok_iff.1 _hnext
  omega

variable {d : Decoder} {w : Window} {source : σ} {data : Bytes} {last : Nat}

/-- From one state of a decoder to another, the next record of the run has been returned, or there
is none. -/
structure Returned (data : Bytes) (last : Nat) (d : Decoder) (w : Window) (source : σ)
    (outcome : Option Timed) (d' : Decoder) (w' : Window) (source' : σ) : Prop where
  emitted_eq : ((d.toSession w).run source).emitted.toList =
    outcome.elim [] fun t => t :: ((d'.toSession w').run source').emitted.toList
  models : d'.Models w'
  proceeds : (d'.toSession w').Proceeds data last
  reaches : Source.Reaches last source source'
  potential_lt : outcome ≠ none →
    (d'.toSession w').potential source' < (d.toSession w).potential source

/-- A step that returns nothing leaves the record to those after it. -/
theorem Returned.of_step {outcome : Option Timed} {d' d'' : Decoder} {w' w'' : Window}
    {source' source'' : σ} (h : Returned data last d' w' source' outcome d'' w'' source'')
    (hrun : ((d.toSession w).run source).emitted = ((d'.toSession w').run source').emitted)
    (hreach : Source.Reaches last source source')
    (hless : (d'.toSession w').potential source' < (d.toSession w).potential source) :
    Returned data last d w source outcome d'' w'' source'' where
  emitted_eq := (congrArg Array.toList hrun).trans h.emitted_eq
  models := h.models
  proceeds := h.proceeds
  reaches := hreach.trans h.reaches
  potential_lt hne := (h.potential_lt hne).trans hless

/-- A decoder needs no more steps for a record than the potential allows its session. -/
theorem Models.pull {steps : Nat} (h : d.Models w) (hp : (d.toSession w).Proceeds data last)
    (hs : Source.Delivers source data last) (hsteps : (d.toSession w).potential source < steps) :
    ∃ outcome d' w' source', d.pull steps source = (.ok (outcome, d'), source') ∧
      Returned data last d w source outcome d' w' source' := by
  induction steps generalizing d w source with
  | zero => exact absurd hsteps (Nat.not_lt_zero _)
  | succ steps ih =>
    obtain ⟨e, s', source', hstep, hproceeds, hreach⟩ := hp.step hs
    obtain ⟨d', w', hd, hmodels, rfl⟩ := h.step hp hs hstep
    have hless := Session.potential_step hstep
    have hrest : e ≠ .over → ∃ outcome d'' w'' source'',
        d'.pull steps source' = (.ok (outcome, d''), source'') ∧
          Returned data last d' w' source' outcome d'' w'' source'' := fun he =>
      ih hmodels hproceeds (hs.of_reaches hreach) (by have := hless he; omega)
    rw [Decoder.pull, hd]
    rcases e with t | o | _ | _
    · refine ⟨some t, d', w', source', rfl, ?_, hmodels, hproceeds, hreach,
        fun _ => hless (by simp)⟩
      rw [Session.run_of_emitted hstep]
      simp
    · obtain ⟨outcome, d'', w'', source'', hpull, hreturned⟩ := hrest (by simp)
      refine ⟨outcome, d'', w'', source'', hpull, hreturned.of_step ?_ hreach (hless (by simp))⟩
      rw [Session.run_of_parsed hstep]
    · obtain ⟨outcome, d'', w'', source'', hpull, hreturned⟩ := hrest (by simp)
      refine ⟨outcome, d'', w'', source'', hpull, hreturned.of_step ?_ hreach (hless (by simp))⟩
      rw [Session.run_of_worked hstep]
    · refine ⟨none, d', w', source', rfl, ?_, hmodels, hproceeds, hreach,
        fun hne => absurd rfl hne⟩
      rw [Session.run_of_over hstep]
      rfl

section Counter

variable {start stop steps position : Nat} {d' : Decoder} {source' : σ}

theorem collect_of_none (hfit : position + 1 < Word.size)
    (h : d.pull steps source = (.ok (none, d'), source')) :
    d.collect start stop steps position source = (.ok [], source') := by
  rw [collect]
  split
  · next o ho =>
    rw [Word.add_eq_ok_iff.2 ⟨hfit, rfl⟩] at ho
    cases ho
  · rw [h]

theorem collect_of_some (hfit : position + 1 < Word.size) {t : Timed}
    (h : d.pull steps source = (.ok (some t, d'), source')) :
    d.collect start stop steps position source =
      if stop ≤ position then (.ok [], source')
      else
        let (rest, source'') := d'.collect start stop steps (position + 1) source'
        (rest.map fun records => if start ≤ position then t :: records else records, source'') := by
  rw [collect]
  split
  · next o ho =>
    rw [Word.add_eq_ok_iff.2 ⟨hfit, rfl⟩] at ho
    cases ho
  · next next hnext =>
    obtain ⟨-, rfl⟩ := Word.add_eq_ok_iff.1 hnext
    rw [h]

/-- The first of the records from a position on is kept if the range has begun. -/
theorem take_drop_cons {α : Type} (t : α) (ts : List α) (hlt : position < stop) :
    ((t :: ts).take (stop - position)).drop (start - position) =
      if start ≤ position then t :: (ts.take (stop - (position + 1))).drop (start - (position + 1))
      else (ts.take (stop - (position + 1))).drop (start - (position + 1)) := by
  have hleft : stop - position = stop - (position + 1) + 1 := by omega
  rw [hleft, List.take_succ_cons]
  split_ifs with hstart
  · rw [Nat.sub_eq_zero_of_le hstart, Nat.sub_eq_zero_of_le (Nat.le_succ_of_le hstart)]
    rfl
  · have hahead : start - position = start - (position + 1) + 1 := by omega
    rw [hahead, List.drop_succ_cons]

variable (start) in
/-- The records that are collected are those of a run, and the counter stays in the words if the
position after the last one is in them. -/
theorem Models.collect_eq (hstop : stop + 1 < Word.size) (hposition : position ≤ stop)
    (h : d.Models w) (hp : (d.toSession w).Proceeds data last)
    (hs : Source.Delivers source data last) (hsteps : (d.toSession w).potential source < steps) :
    ∃ source', d.collect start stop steps position source =
        (.ok ((((d.toSession w).run source).emitted.toList.take (stop - position)).drop
          (start - position)), source') ∧
      Source.Reaches last source source' := by
  -- on what is left of the range; past it, one more record is pulled and given up
  induction hleft : stop - position generalizing position d w source with
  | zero =>
    obtain ⟨outcome, d', w', source', hpull, hreturned⟩ := h.pull hp hs hsteps
    refine ⟨source', ?_, hreturned.reaches⟩
    rw [List.take_zero, List.drop_nil]
    cases outcome with
    | none => exact collect_of_none (by omega) hpull
    | some t => rw [collect_of_some (by omega) hpull, if_pos (by omega)]
  | succ left ih =>
    have hlt : position < stop := by omega
    obtain ⟨outcome, d', w', source', hpull, hreturned⟩ := h.pull hp hs hsteps
    rw [hreturned.emitted_eq, ← hleft]
    cases outcome with
    | none =>
      refine ⟨source', ?_, hreturned.reaches⟩
      rw [collect_of_none (by omega) hpull]
      simp
    | some t =>
      have hless := hreturned.potential_lt (Option.some_ne_none t)
      obtain ⟨source'', hcollect, hreach⟩ :=
        ih hlt hreturned.models hreturned.proceeds (hs.of_reaches hreturned.reaches)
          (hless.trans hsteps) (by omega)
      refine ⟨source'', ?_, hreturned.reaches.trans hreach⟩
      have hrest : stop - (position + 1) = left := by omega
      rw [collect_of_some (by omega) hpull, if_neg (Nat.not_le.2 hlt), hcollect,
        Option.elim_some, take_drop_cons _ _ hlt, hrest]
      rfl

end Counter

end Collect

end Decoder

/-- A record takes a byte. -/
theorem Index.Describes.totalRecords_le {index : Index} {table : Tag.Table} {clock : Clock.Config}
    {data : Bytes} (h : index.Describes table clock data) : index.totalRecords ≤ data.length := by
  have hrecords : ((Session.new table clock).toClock data).items.map Clocked.record =
      ((Session.new table clock).toParse data).records :=
    Clock.Config.records_timeline clock _ _ h.fault_eq
  rw [h.totalRecords_eq, ← List.length_map (f := Clocked.record), hrecords]
  exact Session.length_records_toParse_le rfl data

namespace Chunk

/-- A request, and how long its decoding takes if there is one. -/
structure Measured where
  start : Nat
  stop : Nat
  elapsed : Duration
  deriving DecidableEq, Repr

namespace Reader

section Checked

variable {σ : Type} [Source σ]

/-- Decodes the records at positions `start` to `stop - 1`, with the tags in their slots. -/
def checkedDecode (r : Reader) (slots : Tag.Slots) (start stop : Nat) (source : σ) :
    Except Trap Chunk × σ :=
  let origin := r.startFor start
  let session := (Session.resume r.table r.clock origin).withLimit (Word.addSat stop 1)
  match Checked.word (Word.sub stop start) with
  | .error t => (.error t, source)
  | .ok _room =>
    let (collected, source') := (Decoder.start slots session).collect start stop
      (session.potential source + 1) origin.ordinal source
    let chunk : Except Trap Chunk := do
      let records ← collected
      let corrections ← Corrections.checkedOf records
      return { start, stop, records, total := r.index.totalRecords, corrections }
    (chunk, source')

/-- Decodes and remembers a chunk, which takes the time `elapsed`. -/
def checkedLoad (r : Reader) (slots : Tag.Slots) (elapsed : Duration) (start stop : Nat)
    (source : σ) : Except Trap (Except Error Chunk × Reader) × σ :=
  match r.checkedDecode slots start stop source with
  | (.error (.fault (.source e)), source') =>
    ((r.tracker.checkedAdd decodeName elapsed).map fun tracker =>
      (.error (.decode (.source e)), { r with tracker }), source')
  | (.error t, source') => (.error t, source')
  | (.ok chunk, source') =>
    ((r.tracker.checkedAdd decodeName elapsed).map fun tracker =>
      (.ok chunk, { r with tracker, cache := r.cache.put (start, stop) chunk }), source')

/-- The records at positions `start` to `stop - 1`, as far as there are any. -/
def checkedFetch (r : Reader) (slots : Tag.Slots) (q : Measured) (source : σ) :
    Except Trap (Except Error Chunk × Reader) × σ :=
  match Source.count source with
  | .error e => (.ok (.error (.source e), r), source)
  | .ok actual =>
    if actual ≠ r.index.totalBytes then
      (.ok (.error (.stale r.index.totalBytes actual), r), source)
    else
      let total := r.index.totalRecords
      let stop := min q.stop total
      if stop ≤ q.start then (.ok (.ok (empty (min q.start total) total), r), source)
      else match r.cache.get (q.start, stop) with
        | (some chunk, cache) => (.ok (.ok chunk, { r with cache }), source)
        | (none, cache) => { r with cache : Reader }.checkedLoad slots q.elapsed q.start stop source

/-- The answers to some requests, one after the other. -/
def checkedServe (slots : Tag.Slots) :
    List Measured → Reader → σ → Except Trap (List (Except Error Chunk))
  | [], _, _ => return []
  | q :: requests, r, source =>
    match r.checkedFetch slots q source with
    | (.error t, _) => .error t
    | (.ok (answer, r'), source') => (checkedServe slots requests r' source').map (answer :: ·)

end Checked

/-- The reader is one of the data, and its tracker has been told of so many decodings at most, which
took so long at most. -/
structure Keeps (r : Reader) (table : Tag.Table) (clock : Clock.Config) (data : Bytes)
    (count nanos : Nat) : Prop where
  serves : r.Serves table clock data
  within : r.tracker.Within count nanos

variable {r : Reader} {slots : Tag.Slots} {table : Tag.Table} {clock : Clock.Config} {data : Bytes}
  {σ : Type} [Source σ] {source : σ} {last count nanos : Nat}

/-- The records of a run with the limit of a chunk, cut to the positions of the chunk. -/
theorem Serves.records_run (h : r.Serves table clock data) (hs : Source.Delivers source data last)
    {start stop : Nat} (hlt : start < stop) :
    let origin := r.startFor start
    let s := (Session.resume table clock origin).withLimit (Word.addSat stop 1)
    ((s.run source).emitted.toList.take (stop - origin.ordinal)).drop (start - origin.ordinal) =
      (slice ((Session.new table clock).toEmit data) start stop).records := by
  intro origin s
  have hlen : data.length < Word.size := Nat.lt_of_le_of_lt hs.length_le hs.last_lt
  obtain ⟨hresumes, hfirst⟩ : origin.Resumes table clock data ∧
      (origin.ordinal = 0 ∨ origin.ordinal < start) := h.startFor start
  obtain ⟨-, -, hemitted⟩ := Session.run_withLimit hresumes hs (Word.addSat stop 1)
  have hslice := Queue.slice_emission hlt hfirst (h.describes.lookahead hlen stop)
  have hroom : stop - origin.ordinal - (start - origin.ordinal) = stop - start := by omega
  rw [List.drop_take, hroom, hemitted, hslice]
  rfl

/-- A chunk is decoded as without the checks, if the position after its end is in the words. -/
theorem Serves.checkedDecode (h : r.Serves table clock data) (hslots : slots.Holds table)
    (hs : Source.Delivers source data last) {start stop : Nat} (hlt : start < stop)
    (hstop : stop + 1 < Word.size) :
    ∃ source', r.checkedDecode slots start stop source =
        (.ok (slice ((Session.new table clock).toEmit data) start stop), source') ∧
      Source.Reaches last source source' := by
  obtain ⟨hresumes, hfirst⟩ := h.startFor start
  let s := (Session.resume table clock (r.startFor start)).withLimit (Word.addSat stop 1)
  obtain ⟨hmodels, hover⟩ : (Decoder.start slots s).Models s.window ∧
      (Decoder.start slots s).toSession s.window = s :=
    Decoder.models_start hslots clock (r.startFor start) _
  have hproceeds : ((Decoder.start slots s).toSession s.window).Proceeds data last := by
    rw [hover]
    exact Session.proceeds_resume hresumes hs.length_le _
  have hsteps : ((Decoder.start slots s).toSession s.window).potential source <
      s.potential source + 1 := by
    rw [hover]
    exact Nat.lt_succ_self _
  have hposition : (r.startFor start).ordinal ≤ stop := by omega
  obtain ⟨source', hcollect, hreach⟩ :=
    hmodels.collect_eq start hstop hposition hproceeds hs hsteps
  rw [hover, h.records_run hs hlt] at hcollect
  have hcount : (slice ((Session.new table clock).toEmit data) start stop).records.length <
      Word.size := by
    simp only [slice, List.length_take]
    omega
  refine ⟨source', ?_, hreach⟩
  rw [Reader.checkedDecode, h.table_eq, h.clock_eq, Checked.word_sub hlt.le]
  dsimp only
  rw [hcollect]
  dsimp only
  rw [Checked.ok_bind, Corrections.checkedOf_eq hcount, Checked.ok_bind]
  rw [← h.describes.length_toEmit]
  rfl

/-- What is decoded is remembered and counted. -/
theorem Keeps.checkedLoad (h : r.Keeps table clock data count nanos) (hslots : slots.Holds table)
    (hs : Source.Delivers source data last) {elapsed : Duration} (hcount : count + 1 < Word.size)
    (hnanos : nanos + elapsed.nanos < Word.size * Duration.nanosPerSecond) {start stop : Nat}
    (hlt : start < stop) (hstop : stop + 1 < Word.size) :
    ∃ r' source', r.checkedLoad slots elapsed start stop source =
        (.ok (.ok (slice ((Session.new table clock).toEmit data) start stop), r'), source') ∧
      r'.Keeps table clock data (count + 1) (nanos + elapsed.nanos) ∧
      Source.Reaches last source source' := by
  obtain ⟨source', hdecode, hreach⟩ := h.serves.checkedDecode hslots hs hlt hstop
  obtain ⟨tracker, htracker, hwithin⟩ := h.within.checkedAdd hcount hnanos decodeName
  let chunk := slice ((Session.new table clock).toEmit data) start stop
  refine ⟨{ r with tracker, cache := r.cache.put (start, stop) chunk }, source', ?_,
    ⟨⟨h.serves.table_eq, h.serves.clock_eq, h.serves.describes, h.serves.cached.put (start, stop)⟩,
      hwithin⟩, hreach⟩
  rw [Reader.checkedLoad, hdecode]
  dsimp only
  rw [htracker]
  rfl

/-- A request is answered as without the checks, and leaves as much room as it does not take. -/
theorem Keeps.checkedFetch (h : r.Keeps table clock data count nanos) (hslots : slots.Holds table)
    (hs : Source.Holds source data last) (hlen : data.length + 1 < Word.size) (q : Measured)
    (hcount : count + 1 < Word.size)
    (hnanos : nanos + q.elapsed.nanos < Word.size * Duration.nanosPerSecond) :
    ∃ r' source', r.checkedFetch slots q source =
        (.ok (.ok (answer ((Session.new table clock).toEmit data) q.start q.stop), r'), source') ∧
      r'.Keeps table clock data (count + 1) (nanos + q.elapsed.nanos) ∧
      Source.Reaches last source source' := by
  have htotal := h.serves.describes.length_toEmit
  have hstop : min q.stop r.index.totalRecords + 1 < Word.size := by
    have hle := h.serves.describes.totalRecords_le
    omega
  have hwithin : r.tracker.Within (count + 1) (nanos + q.elapsed.nanos) :=
    h.within.mono (Nat.le_succ _) (Nat.le_add_right _ _)
  unfold Reader.checkedFetch answer
  rw [hs.count_eq source .refl, htotal]
  simp only [h.serves.describes.totalBytes_eq, ne_eq, not_true_eq_false, if_false]
  split_ifs with hle hlt hlt
  · omega
  · exact ⟨r, source, rfl, ⟨h.serves, hwithin⟩, .refl⟩
  · obtain ⟨hsound, hhit⟩ := h.serves.cached.get (q.start, min q.stop r.index.totalRecords)
    rcases hget : r.cache.get (q.start, min q.stop r.index.totalRecords) with ⟨_ | chunk, cache⟩
    all_goals
      rw [hget] at hsound hhit
      have hserves : { r with cache : Reader }.Serves table clock data :=
        ⟨h.serves.table_eq, h.serves.clock_eq, h.serves.describes, hsound⟩
    · have hkeeps : { r with cache : Reader }.Keeps table clock data count nanos :=
        ⟨hserves, h.within⟩
      exact hkeeps.checkedLoad hslots hs.toDelivers hcount hnanos hlt hstop
    · rw [hhit chunk rfl]
      exact ⟨{ r with cache }, source, rfl, ⟨hserves, hwithin⟩, .refl⟩
  · omega

/-- Requests are answered as without the checks, if the tracker has room for all of them. -/
theorem Keeps.checkedServe_eq (hslots : slots.Holds table) (hs : Source.Holds source data last)
    (hlen : data.length + 1 < Word.size) (requests : List Measured)
    (h : r.Keeps table clock data count nanos) (hcount : count + requests.length < Word.size)
    (hnanos : nanos + (requests.map (·.elapsed.nanos)).sum <
      Word.size * Duration.nanosPerSecond) :
    checkedServe slots requests r source = .ok (requests.map fun q =>
      .ok (answer ((Session.new table clock).toEmit data) q.start q.stop)) := by
  induction requests generalizing r source count nanos with
  | nil => rfl
  | cons q requests ih =>
    rw [List.length_cons] at hcount
    rw [List.map_cons, List.sum_cons] at hnanos
    obtain ⟨r', source', hfetch, hkeeps, hreach⟩ :=
      h.checkedFetch hslots hs hlen q (by omega) (by omega)
    rw [checkedServe, hfetch]
    dsimp only
    rw [ih (hs.of_reaches hreach) hkeeps (by omega) (by omega)]
    rfl

end Reader

end Chunk

section Stream

variable {table : Tag.Table} {clock : Clock.Config} {data : Bytes} {last last' : Nat}
  {σ : Type} [Source σ] {source : σ} {τ : Type} [Source τ] {again : τ}

/-- A chunk that is read is counted with checks as well, and no time in it goes beyond the bound. -/
theorem Chunk.checkedOf_answer {emission : List Timed} (hlen : emission.length < Word.size)
    {bound : Nat} (hns : ∀ t ∈ emission, t.ns ≤ bound) (start stop : Nat) :
    Corrections.checkedOf (answer emission start stop).records =
        .ok (answer emission start stop).corrections ∧
      ∀ t ∈ (answer emission start stop).records, t.ns ≤ bound := by
  unfold answer
  split_ifs
  · refine ⟨Corrections.checkedOf_eq ?_, fun t ht => ?_⟩
    · rw [length_records_slice (Nat.min_le_right _ _)]
      omega
    · exact hns t (List.mem_of_mem_drop (List.mem_of_mem_take ht))
  · exact ⟨rfl, fun t ht => by cases ht⟩

/-- A chunk is read with checks, and no time in it goes beyond the bound. -/
theorem Chunk.Reader.Serves.checks_fetch {reader : Reader} {slots : Tag.Slots}
    (h : reader.Serves table clock data) (hslots : slots.Holds table)
    (hs : Source.Holds source data last) (hfit : data.length * clock.stride < Word.size)
    (start stop limit : Nat) :
    ∃ chunk, (reader.fetch start stop source).1 = .ok chunk ∧
      Corrections.checkedOf chunk.records = .ok chunk.corrections ∧
      (∀ t ∈ chunk.records, t.ns ≤ data.length * clock.stride) ∧
      ((Session.resume table clock (reader.startFor start)).withLimit limit).Checks slots source
        (data.length * clock.stride) := by
  obtain ⟨reader', source', hfetch, -⟩ := h.fetch hs start stop
  have hlen : ((Session.new table clock).toEmit data).length < Word.size := by
    rw [h.describes.length_toEmit]
    exact h.describes.totalRecords_lt (Session.length_lt_of_fits hfit)
  obtain ⟨hcorrections, hns⟩ :=
    checkedOf_answer hlen (Session.ns_le_of_mem_toEmit hfit) start stop
  exact ⟨_, congrArg Prod.fst hfetch, hcorrections, hns,
    Session.checks_resume hslots (h.startFor start).1 hs.toDelivers hfit (some limit)⟩

theorem Index.anomaliesDropped_le {interval : Nat} {index : Index}
    (hs : Source.Holds source data last)
    (h : (build table clock interval source).1 = .ok index) :
    index.anomaliesDropped ≤ index.totalRecords := by
  have hemitted := emitted_of_build hs h
  have htotal := (describes_of_build hs h).length_toEmit
  obtain ⟨-, totalBytes, -, rfl⟩ := build_eq_ok h
  rw [← htotal, ← hemitted]
  change (List.drop maxAnomalies (List.filterMap anomalyOf _)).length ≤ _
  rw [List.length_drop]
  exact Nat.le_trans (Nat.sub_le _ _) (List.length_filterMap_le _ _)

/-- Whatever the bytes are, indexing them, reading any chunk by the index, whatever was read before,
and the text of any record go through with every operation checked; each time is within the strides
of as many records as there are bytes.  Positions are counted and readings are added up with checks
as well, where the types have room for one more than there are bytes, for the number of the requests
and for the time that they take. -/
theorem decoding_checked {tags : List Tag} {interval : Nat}
    (htable : Tag.Table.ofList tags = .ok table) (hinterval : 1 ≤ interval)
    (hfit : data.length * (65535 * clock.tickNs + 1) < 2 ^ 64)
    (hs : Source.Holds source data last) (hagain : Source.Holds again data last') :
    let bound := data.length * (65535 * clock.tickNs + 1)
    ∃ slots index, Tag.Slots.ofList tags = .ok slots ∧
      (Index.build table clock interval source).1 = .ok index ∧
      index.anomaliesDropped < Word.size ∧
      (Session.new table clock).Checks slots source bound ∧
      (∀ (capacity : Nat) (requests : List (Nat × Nat)) (start stop : Nat),
        let reader : Chunk.Reader := { index, table, clock, cache := .new capacity }
        let served := reader.serve again requests
        let origin := served.1.startFor start
        let limit := Word.addSat (min stop index.totalRecords) 1
        ∃ chunk, (served.1.fetch start stop served.2).1 = .ok chunk ∧
          Corrections.checkedOf chunk.records = .ok chunk.corrections ∧
          (∀ t ∈ chunk.records, t.ns ≤ bound) ∧
          ((Session.resume table clock origin).withLimit limit).Checks slots served.2 bound) ∧
      (∀ (capacity : Nat) (requests : List Chunk.Measured), data.length + 1 < Word.size →
        requests.length < Word.size →
        (requests.map (·.elapsed.nanos)).sum < Word.size * Duration.nanosPerSecond →
        let reader : Chunk.Reader := { index, table, clock, cache := .new capacity }
        let full := ((Session.new table clock).run source).emitted.toList
        Chunk.Reader.checkedServe slots requests reader again =
          .ok (requests.map fun q => .ok (Chunk.answer full q.start q.stop))) ∧
      ∀ r : Record, r.checkedDisplay slots = .ok (r.display table) := by
  intro bound
  have hreached : data.length * clock.stride < Word.size := hfit
  obtain ⟨slots, hslots, hholds⟩ := Tag.Slots.exists_ofList htable
  obtain ⟨index, hindex⟩ : ∃ index, (Index.build table clock interval source).1 = .ok index :=
    Index.exists_build hs hreached hinterval
  have hdescribes := Index.describes_of_build hs hindex
  have htotal := hdescribes.totalRecords_lt (Session.length_lt_of_fits hreached)
  have hdropped := Index.anomaliesDropped_le hs hindex
  have hnew : ∀ capacity, { index, table, clock, cache := .new capacity : Chunk.Reader }.Serves
      table clock data :=
    fun capacity => ⟨rfl, rfl, hdescribes, Chunk.Cache.sound_new capacity _⟩
  refine ⟨slots, index, hslots, hindex, Nat.lt_of_le_of_lt hdropped htotal, ?_, ?_, ?_,
    Record.checkedDisplay_eq hholds⟩
  · exact Session.checks_resume hholds (Session.resumes_beginning hdescribes.fault_eq)
      hs.toDelivers hreached none
  · intro capacity requests start stop reader served origin limit
    obtain ⟨hserved, hreach⟩ := Chunk.Reader.Serves.serve hagain requests (hnew capacity) .refl
    exact hserved.checks_fetch hholds (hagain.of_reaches hreach) hreached start stop limit
  · intro capacity requests hlen hcount hnanos reader full
    have hkeeps : reader.Keeps table clock data 0 0 := ⟨hnew capacity, Tracker.within_empty⟩
    have hfull : full = (Session.new table clock).toEmit data := Index.emitted_of_build hs hindex
    rw [hfull]
    exact Chunk.Reader.Keeps.checkedServe_eq hholds hagain hlen requests hkeeps
      (by rwa [Nat.zero_add]) (by rwa [Nat.zero_add])

/-- A text that a stamp cuts short, a swap, and a tag that is in no table; a chunk is asked for that
begins inside the swap. -/
theorem decoding_checked_lostSync :
    let data : Bytes := [32, 97, 1, 9, 128, 1, 5, 128, 255]
    let source := Memory.plain data
    let tags := Tag.Table.standard.toList
    let s := Session.new Tag.Table.standard {}
    let full := (s.run source).emitted.toList
    let q : Chunk.Measured := { start := 1, stop := 2, elapsed := { nanos := 5 } }
    Tag.Table.ofList tags = .ok Tag.Table.standard ∧ data.length * (65535 * 2000 + 1) < 2 ^ 64 ∧
      Source.Holds source data 9 ∧ ∃ slots index, Tag.Slots.ofList tags = .ok slots ∧
        (Index.build Tag.Table.standard {} 1 source).1 = .ok index ∧
        s.Checks slots source (data.length * (65535 * 2000 + 1)) ∧
        full.map (fun t => (t.record.ordinal, t.ns)) = [(0, 1), (2, 1), (1, 1)] ∧
        Chunk.Reader.checkedServe slots [q]
          { index, table := Tag.Table.standard, clock := {}, cache := .new 1 } source =
            .ok [.ok (Chunk.answer full 1 2)] ∧
        (Chunk.answer full 1 2).records.map (·.record.ordinal) = [2] ∧
        ∀ r : Record, r.checkedDisplay slots = .ok (r.display Tag.Table.standard) := by
  intro data source tags s full q
  have htable : Tag.Table.ofList tags = .ok Tag.Table.standard := rfl
  have hfit : data.length * (65535 * ({} : Clock.Config).tickNs + 1) < 2 ^ 64 := by decide
  have hs : Source.Holds source data 9 := Memory.holds_plain (by decide) (by decide)
  have htimes : full.map (fun t => (t.record.ordinal, t.ns)) = [(0, 1), (2, 1), (1, 1)] := by
    decide +kernel
  have hchunk : (Chunk.answer full 1 2).records.map (·.record.ordinal) = [2] := by decide +kernel
  obtain ⟨slots, index, hslots, hindex, -, hchecks, -, hserved, hdisplay⟩ :=
    decoding_checked htable (Nat.le_refl 1) hfit hs hs
  exact ⟨htable, hfit, hs, slots, index, hslots, hindex, hchecks, htimes,
    hserved 1 [q] (by decide) (by decide) (by decide), hchunk, hdisplay⟩

end Stream

end Telemetry
