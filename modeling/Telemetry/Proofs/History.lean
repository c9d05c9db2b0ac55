import Telemetry.Proofs.Interruption
import Telemetry.Proofs.RandomAccess

/-!
# Requests to a source that comes and goes

Between two requests a source may fail, change its length and hold the data again; during a request
its reads may fail.  While its length is the one that was indexed, what it gives is taken to be of
the data.  Then a request is answered as a new reader answers it on the data, or it fails
(`Serves.ask`), and one that fails leaves nothing behind that a later answer shows
(`uncounted_ask_of_error`).  All of it is in `ask_after_history`.
-/

namespace Telemetry

theorem take_drop_of_prefix {α : Type} {xs ys : List α} (h : xs <+: ys) {a b : Nat}
    (hlen : a + b ≤ xs.length) : (xs.drop a).take b = (ys.drop a).take b := by
  obtain ⟨zs, rfl⟩ := h
  rw [List.drop_append_of_le_length (by omega), List.take_append_of_le_length]
  rw [List.length_drop]
  omega

variable {σ : Type} [Source σ]

namespace Session

variable {table : Tag.Table} {clock : Clock.Config} {source : σ} {data : Bytes} {last : Nat}
  {start : Start}

/-- What a resumed session with a limit emits begins as it does where no read fails, and is all of
that if none did; nothing but the source makes it fail. -/
theorem emitted_withLimit_of_faithful (h : start.Resumes table clock data)
    (hs : Source.Faithful source data last) (limit : Nat) :
    let r := ((resume table clock start).withLimit limit).run source
    let whole := ({} : Queue).emission (((((new table clock).toClock data).items.map
      Clocked.timed).drop start.ordinal).take (limit - start.ordinal))
    (r.fault = none ∧ r.emitted.toList = whole) ∨
      ∃ e, r.fault = some (.source e) ∧ r.emitted.toList <+: whole := by
  intro r whole
  have hw : ((resume table clock start).withLimit limit).Within data last :=
    within_withLimit (h.offset_le.trans hs.length_le) data limit
  obtain ⟨hline, hitems⟩ := toClock_withLimit h limit
  have hwhole : ((resume table clock start).withLimit limit).ready ++
      ((resume table clock start).withLimit limit).queue.emission
        ((((resume table clock start).withLimit limit).toClock data).items.map Clocked.timed) =
      whole := by
    rw [hitems, List.map_take, List.map_drop]
    rfl
  rcases run_reads _ source rfl hw hs with ⟨e, he, -⟩ | hcovers
  · have hi := interrupted_of_fault _ source rfl hw hs he
    have hprefix := hi.emitted_prefix rfl (by simp [he])
    rw [hwhole] at hprefix
    exact .inr ⟨e, he, hprefix⟩
  · obtain ⟨hfault, hsummary⟩ := summary_of_covers hcovers rfl hline
    refine .inl ⟨hfault, ?_⟩
    rw [← hwhole]
    exact congrArg Summary.emitted hsummary

end Session

namespace Chunk

/-- A request, and the source as it is then. -/
structure Request (σ : Type) where
  source : σ
  start : Nat
  stop : Nat

/-- While its length is the one of the data, the source gives bytes of the data. -/
def Request.Keeps (q : Request σ) (data : Bytes) : Prop :=
  Source.count q.source = .ok data.length → ∃ last, Source.Faithful q.source data last

namespace Reader

/-- The answer to a request, and the reader after it. -/
def ask (r : Reader) (q : Request σ) : Except Error Chunk × Reader :=
  let fetched := r.fetch q.start q.stop q.source
  (fetched.1, fetched.2.1)

/-- The reader after some requests. -/
def after (r : Reader) (qs : List (Request σ)) : Reader :=
  qs.foldl (fun r q => (r.ask q).2) r

def answers (r : Reader) : List (Request σ) → List (Except Error Chunk)
  | [] => []
  | q :: qs => (r.ask q).1 :: (r.ask q).2.answers qs

section Uncounted

/-- The reader without its counts, which no answer depends on. -/
def uncounted (r : Reader) : Reader :=
  { r with
    cache := { r.cache with hits := 0, misses := 0 }
    tracker := .empty }

variable {r r' : Reader}

theorem load_uncounted (r : Reader) (start stop : Nat) (source : σ) :
    (r.uncounted.load start stop source).1 = (r.load start stop source).1 ∧
      (r.uncounted.load start stop source).2.1.uncounted =
        (r.load start stop source).2.1.uncounted := by
  have hdecode : r.uncounted.decode start stop source = r.decode start stop source := rfl
  unfold load
  rw [hdecode]
  rcases r.decode start stop source with ⟨(_ | _) | chunk, source'⟩
  · exact ⟨rfl, rfl⟩
  · exact ⟨rfl, rfl⟩
  · exact ⟨rfl, rfl⟩

theorem load_congr (h : r.uncounted = r'.uncounted) (start stop : Nat) (source : σ) :
    (r.load start stop source).1 = (r'.load start stop source).1 ∧
      (r.load start stop source).2.1.uncounted = (r'.load start stop source).2.1.uncounted := by
  obtain ⟨hanswer, hreader⟩ := load_uncounted r start stop source
  obtain ⟨hanswer', hreader'⟩ := load_uncounted r' start stop source
  rw [← hanswer, ← hreader, h]
  exact ⟨hanswer', hreader'⟩

theorem ask_uncounted (r : Reader) (q : Request σ) :
    (r.uncounted.ask q).1 = (r.ask q).1 ∧
      (r.uncounted.ask q).2.uncounted = (r.ask q).2.uncounted := by
  unfold ask fetch
  rcases Source.count q.source with e | actual
  · exact ⟨rfl, rfl⟩
  · dsimp only
    have hindex : r.uncounted.index = r.index := rfl
    rw [hindex]
    split_ifs
    · exact ⟨rfl, rfl⟩
    · exact ⟨rfl, rfl⟩
    · have hentries : r.uncounted.cache.entries = r.cache.entries := rfl
      unfold Cache.get
      rw [hentries]
      rcases r.cache.entries.lookup (q.start, min q.stop r.index.totalRecords) with _ | chunk
      · refine load_congr ?_ q.start _ q.source
        rfl
      · exact ⟨rfl, rfl⟩

theorem answers_uncounted (r : Reader) (qs : List (Request σ)) :
    r.uncounted.answers qs = r.answers qs := by
  induction qs generalizing r with
  | nil => rfl
  | cons q qs ih =>
    obtain ⟨hanswer, hreader⟩ := ask_uncounted r q
    rw [answers, answers, hanswer, ← ih, hreader, ih]

theorem uncounted_load_of_error {start stop : Nat} {source : σ} {e : Error}
    (h : (r.load start stop source).1 = .error e) :
    (r.load start stop source).2.1.uncounted = r.uncounted := by
  unfold load at h ⊢
  rcases hdecode : r.decode start stop source with ⟨(_ | _) | chunk, source'⟩
  · rfl
  · rfl
  · rw [hdecode] at h
    cases h

/-- A request that fails counts, and does nothing else to the reader. -/
theorem uncounted_ask_of_error {q : Request σ} {e : Error} (h : (r.ask q).1 = .error e) :
    (r.ask q).2.uncounted = r.uncounted := by
  unfold ask fetch at h ⊢
  rcases hcount : Source.count q.source with e | actual
  · rfl
  · rw [hcount] at h
    dsimp only at h ⊢
    split_ifs at h ⊢
    · rfl
    · unfold Cache.get at h ⊢
      rcases hlookup : r.cache.entries.lookup (q.start, min q.stop r.index.totalRecords) with
        _ | chunk
      · rw [hlookup] at h
        exact uncounted_load_of_error h
      · rw [hlookup] at h
        cases h

end Uncounted

variable {r : Reader} {table : Tag.Table} {clock : Clock.Config} {data : Bytes}

section Faithful

variable {source : σ} {last : Nat}

/-- Whatever read fails, what is decoded is all that there is to decode, or nothing. -/
theorem Serves.decode_of_faithful (h : r.Serves table clock data)
    (hs : Source.Faithful source data last) {start stop : Nat} (hlt : start < stop) :
    (r.decode start stop source).1 =
        .ok (slice ((Session.new table clock).toEmit data) start stop) ∨
      ∃ e, (r.decode start stop source).1 = .error (.source e) := by
  have hlen : data.length < Word.size := Nat.lt_of_le_of_lt hs.length_le hs.last_lt
  obtain ⟨hresumes, hfirst⟩ := h.startFor start
  have hslice := Queue.slice_emission hlt hfirst (h.describes.lookahead hlen stop)
  unfold Reader.decode
  simp only [h.table_eq, h.clock_eq]
  rcases Session.emitted_withLimit_of_faithful hresumes hs (Word.addSat stop 1) with
    ⟨hfault, hemitted⟩ | ⟨e, hfault, hprefix⟩
  · refine .inl ?_
    simp only [hfault, hemitted, hslice]
    rw [← h.describes.length_toEmit]
    rfl
  · rw [hfault]
    dsimp only
    split_ifs with hshort
    · exact .inr ⟨e, rfl⟩
    · -- what had come out before the failure reaches to the end of the chunk
      refine .inl ?_
      have htake := take_drop_of_prefix hprefix (a := start - (r.startFor start).ordinal)
        (b := stop - start) (by rw [Array.length_toList]; omega)
      simp only [htake, hslice]
      rw [← h.describes.length_toEmit]
      rfl

theorem Serves.load_of_faithful (h : r.Serves table clock data)
    (hs : Source.Faithful source data last) {start stop : Nat} (hlt : start < stop) :
    (r.load start stop source).2.1.Serves table clock data ∧
      ∀ chunk, (r.load start stop source).1 = .ok chunk →
        chunk = slice ((Session.new table clock).toEmit data) start stop := by
  unfold Reader.load
  rcases hdecode : r.decode start stop source with ⟨result, source'⟩
  have hresult := h.decode_of_faithful hs hlt
  rw [hdecode] at hresult
  rcases hresult with rfl | ⟨e, rfl⟩
  · refine ⟨⟨h.table_eq, h.clock_eq, h.describes, h.cached.put (start, stop)⟩, fun chunk hok => ?_⟩
    exact (Except.ok.inj hok).symm
  · exact ⟨⟨h.table_eq, h.clock_eq, h.describes, h.cached⟩, fun chunk hok => by cases hok⟩

end Faithful

/-- A request that succeeds is answered as the data demand, and no request changes that. -/
theorem Serves.ask (h : r.Serves table clock data) {q : Request σ} (hq : q.Keeps data) :
    (r.ask q).2.Serves table clock data ∧ ∀ chunk, (r.ask q).1 = .ok chunk →
      chunk = answer ((Session.new table clock).toEmit data) q.start q.stop := by
  unfold Reader.ask Reader.fetch
  rcases hcount : Source.count q.source with e | actual
  · exact ⟨h, fun chunk hok => by cases hok⟩
  dsimp only
  have htotal := h.describes.length_toEmit
  split_ifs with hstale hle
  · exact ⟨h, fun chunk hok => by cases hok⟩
  · refine ⟨h, fun chunk hok => ?_⟩
    rw [answer, htotal, if_neg (Nat.not_lt.2 hle)]
    exact (Except.ok.inj hok).symm
  · have hlt : q.start < min q.stop r.index.totalRecords := Nat.lt_of_not_le hle
    rw [answer, htotal, if_pos hlt]
    obtain ⟨hsound, hhit⟩ := h.cached.get (q.start, min q.stop r.index.totalRecords)
    rcases hget : r.cache.get (q.start, min q.stop r.index.totalRecords) with ⟨_ | chunk, cache⟩
    · rw [hget] at hsound
      have hserves : { r with cache : Reader }.Serves table clock data :=
        ⟨h.table_eq, h.clock_eq, h.describes, hsound⟩
      have hactual : actual = data.length := by
        rw [← h.describes.totalBytes_eq]
        exact not_not.1 hstale
      obtain ⟨last, hs⟩ := hq (hactual ▸ hcount)
      exact hserves.load_of_faithful hs hlt
    · rw [hget] at hsound hhit
      refine ⟨⟨h.table_eq, h.clock_eq, h.describes, hsound⟩, fun chunk' hok => ?_⟩
      rw [← Except.ok.inj hok]
      exact hhit chunk rfl

theorem Serves.after {before : List (Request σ)} (h : r.Serves table clock data)
    (hbefore : ∀ q ∈ before, q.Keeps data) : (r.after before).Serves table clock data := by
  induction before generalizing r with
  | nil => exact h
  | cons q before ih =>
    exact ih (h.ask (hbefore q (List.mem_cons_self ..))).1
      fun p hp => hbefore p (List.mem_cons_of_mem _ hp)

variable {τ υ : Type} [Source τ] [Source υ] {source : τ} {again : υ} {last last' : Nat}

/-- What was asked for before, and what failed then, shows in no answer: a source of another length
is told to be stale; what is answered is what a new reader answers on the data; it is answered when
the data are held; and all further answers are the same as if a request that failed had not been
made. -/
theorem ask_after_history (hs : Source.Holds source data last)
    (hagain : Source.Holds again data last') {interval : Nat} {index : Index}
    (hindex : (Index.build table clock interval source).1 = .ok index) (capacity : Nat)
    (before later : List (Request σ)) (q : Request σ)
    (hbefore : ∀ p ∈ before ++ [q], Source.count p.source = .ok index.totalBytes →
      ∃ last, Source.Faithful p.source data last) :
    let reader := ({ index, table, clock, cache := .new capacity } : Reader).after before
    let fresh : Reader := { index, table, clock, cache := .new capacity }
    let asked := reader.ask q
    (∀ actual, Source.count q.source = .ok actual → actual ≠ index.totalBytes →
        asked.1 = .error (.stale index.totalBytes actual)) ∧
      (∀ chunk, asked.1 = .ok chunk → (fresh.fetch q.start q.stop again).1 = .ok chunk) ∧
      (∀ last, Source.Holds q.source data last →
        asked.1 = (fresh.fetch q.start q.stop again).1) ∧
      ∀ e, asked.1 = .error e → asked.2.answers later = reader.answers later := by
  intro reader fresh asked
  have hdescribes := Index.describes_of_build hs hindex
  have hfresh : fresh.Serves table clock data :=
    ⟨rfl, rfl, hdescribes, Cache.sound_new capacity _⟩
  have hkeeps : ∀ p ∈ before ++ [q], p.Keeps data := by
    rwa [hdescribes.totalBytes_eq] at hbefore
  have hreader : reader.Serves table clock data :=
    hfresh.after fun p hp => hkeeps p (List.mem_append_left _ hp)
  obtain ⟨-, hok⟩ := hreader.ask (hkeeps q (by simp))
  obtain ⟨_, _, hanswer, -⟩ := hfresh.fetch hagain q.start q.stop
  rw [hanswer]
  refine ⟨fun actual hcount hne => ?_, fun chunk hchunk => ?_, fun last hheld => ?_,
    fun e herror => ?_⟩
  · have hindexed : reader.index.totalBytes = index.totalBytes := by
      rw [hreader.describes.totalBytes_eq, hdescribes.totalBytes_eq]
    change (reader.fetch q.start q.stop q.source).1 = _
    unfold Reader.fetch
    rw [hcount, hindexed]
    dsimp only
    rw [if_pos hne]
  · rw [hok chunk hchunk]
  · obtain ⟨_, _, hheld, -⟩ := hreader.fetch hheld q.start q.stop
    change (reader.fetch q.start q.stop q.source).1 = _
    rw [hheld]
  · rw [← answers_uncounted asked.2, uncounted_ask_of_error herror, answers_uncounted]

/-- The data are there, then unreadable, then longer, and then there again up to a record that is
needed no more. -/
theorem ask_after_history_lookahead :
    let data : Bytes := [1, 5, 0, 1, 9, 0, 1, 8, 0, 1, 12, 0]
    let source := Memory.plain data
    let broken : Memory := { source with faults := some ⟨0, none⟩ }
    let partly : Memory := { source with readLimit := some 9, faults := some ⟨9, none⟩ }
    let index := Index.ofRun 1 12 ((Session.new Tag.Table.standard {}).run source)
    let fresh : Reader := {
      index
      table := Tag.Table.standard
      clock := {}
      cache := .new 4 }
    let before : List (Request Memory) :=
      [⟨source, 0, 2⟩, ⟨broken, 1, 3⟩, ⟨.plain (data ++ [1]), 0, 2⟩]
    let later : List (Request Memory) := [⟨partly, 1, 3⟩, ⟨source, 0, 2⟩]
    let asked := (fresh.after before).ask ⟨partly, 1, 3⟩
    let failed := (fresh.after before).ask ⟨broken, 1, 3⟩
    (Index.build Tag.Table.standard {} 1 source).1 = .ok index ∧
      (fresh.ask ⟨partly, 2, 4⟩).1 = .error (.decode (.source Memory.injected)) ∧
      asked.1 = (fresh.fetch 1 3 source).1 ∧
      failed.1 = .error (.decode (.source Memory.injected)) ∧
      failed.2.answers later = (fresh.after before).answers later := by
  intro data source broken partly index fresh before later asked failed
  have hs : Source.Holds source data 12 := Memory.holds_plain (by decide) (by decide)
  have hindex : (Index.build Tag.Table.standard {} 1 source).1 = .ok index := by decide +kernel
  have htotal : index.totalBytes = 12 := by decide +kernel
  have hsource : Source.Faithful source data 12 := hs.toFaithful
  have hbroken : Source.Faithful broken data 12 :=
    Memory.faithful (by decide) (by decide) (by decide)
  have hpartly : Source.Faithful partly data 12 :=
    Memory.faithful (by decide) (by decide) (by decide)
  have hfaithful : ∀ q : Request Memory, Source.Faithful q.source data 12 → ∀ p ∈ before ++ [q],
      Source.count p.source = .ok index.totalBytes →
        ∃ last, Source.Faithful p.source data last := by
    intro q hq p hp hcount
    rw [htotal] at hcount
    simp only [before, List.mem_append, List.mem_cons, List.not_mem_nil, or_false] at hp
    rcases hp with (rfl | rfl | rfl) | rfl
    · exact ⟨12, hsource⟩
    · exact ⟨12, hbroken⟩
    · exact absurd hcount (by decide)
    · exact ⟨12, hq⟩
  obtain ⟨-, hasked, -⟩ := ask_after_history hs hs hindex 4 before later ⟨partly, 1, 3⟩
    (hfaithful _ hpartly)
  obtain ⟨-, -, -, hfailed⟩ := ask_after_history hs hs hindex 4 before later ⟨broken, 1, 3⟩
    (hfaithful _ hbroken)
  have herror : failed.1 = .error (.decode (.source Memory.injected)) := by decide +kernel
  have hok : asked.1.isOk = true := by decide +kernel
  refine ⟨hindex, by decide +kernel, ?_, herror, hfailed _ herror⟩
  rcases hchunk : asked.1 with e | chunk
  · rw [hchunk] at hok
    cases hok
  · exact (hasked chunk hchunk).symm

end Reader

end Chunk

end Telemetry
