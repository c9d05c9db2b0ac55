import Telemetry.Chunk.Reader
import Telemetry.Proofs.Checkpoints

/-!
# Random access

A chunk read by an index holds what a full run emits at its positions (`fetch_eq_slice`), whatever
was read before, and whatever the cache kept of it.  Decoding starts at a checkpoint before the
chunk and stops one record after it, so one more record than needed is taken in on either side,
and the borders of a chunk may cut a swap (`Queue.slice_emission`).
-/

namespace Telemetry

namespace Session

variable {table : Tag.Table} {clock : Clock.Config} {data : Bytes} {start : Start}

theorem within_withLimit {last : Nat} (h : start.offset ≤ last) (data : Bytes) (limit : Nat) :
    ((resume table clock start).withLimit limit).Within data last := by
  have hw := within_resume table clock h data
  exact ⟨hw.shows, hw.offset_le, hw.sound⟩

/-- A limit cuts what the clock makes of the records. -/
theorem toClock_withLimit (h : start.Resumes table clock data) (limit : Nat) :
    (((resume table clock start).withLimit limit).toClock data).fault = none ∧
      (((resume table clock start).withLimit limit).toClock data).items =
        (((new table clock).toClock data).items.drop start.ordinal).take
          (limit - start.ordinal) := by
  have hrecords : (((resume table clock start).withLimit limit).toParse data).records =
      ((resume table clock start).toParse data).records.take (limit - start.ordinal) :=
    Record.Parser.records_parse_limit limit _ _ _ _
  have hline : ((resume table clock start).withLimit limit).toClock data =
      clock.timeline start.state
        (((resume table clock start).toParse data).records.take (limit - start.ordinal)) :=
    congrArg (clock.timeline start.state) hrecords
  have hfault : ((resume table clock start).toClock data).fault = none :=
    congrArg Clock.Timeline.fault h.clock_eq
  obtain ⟨hnone, hitems⟩ := clock.timeline_take start.state _ hfault (limit - start.ordinal)
  rw [hline]
  refine ⟨hnone, hitems.trans ?_⟩
  exact congrArg (fun line => line.items.take (limit - start.ordinal)) h.clock_eq

variable {σ : Type} [Source σ] {source : σ} {last : Nat}

/-- What a resumed session with a limit emits. -/
theorem run_withLimit (h : start.Resumes table clock data)
    (hs : Source.Delivers source data last) (limit : Nat) :
    let r := ((resume table clock start).withLimit limit).run source
    r.fault = none ∧ Source.Reaches last source r.source ∧ r.emitted.toList =
      ({} : Queue).emission (((((new table clock).toClock data).items.map Clocked.timed).drop
        start.ordinal).take (limit - start.ordinal)) := by
  intro r
  have hcovers : ((resume table clock start).withLimit limit).Covers source data last r :=
    covers_of_delivers (within_withLimit (h.offset_le.trans hs.length_le) data limit) hs rfl
  obtain ⟨hline, hitems⟩ := toClock_withLimit h limit
  obtain ⟨hfault, hsummary⟩ := summary_of_covers hcovers rfl hline
  refine ⟨hfault, hcovers.reaches, ?_⟩
  rw [← List.map_drop, ← List.map_take, ← hitems]
  exact congrArg Summary.emitted hsummary

end Session

namespace Chunk

/-- What the positions from `start` to `stop` hold. -/
def slice (emission : List Timed) (start stop : Nat) : Chunk where
  start
  stop
  total := emission.length
  records := (emission.drop start).take (stop - start)
  corrections := Corrections.ofList ((emission.drop start).take (stop - start))

/-- What a request for the positions from `start` to `stop` is to be answered with. -/
def answer (emission : List Timed) (start stop : Nat) : Chunk :=
  if start < min stop emission.length then slice emission start (min stop emission.length)
  else empty (min start emission.length) emission.length

theorem length_records_slice {emission : List Timed} {start stop : Nat}
    (h : stop ≤ emission.length) : (slice emission start stop).records.length = stop - start := by
  simp only [slice, List.length_take, List.length_drop]
  omega

namespace Cache

/-- Each chunk is the one of its key. -/
def Sound (c : Cache) (emission : List Timed) : Prop :=
  ∀ e ∈ c.entries, e.2 = slice emission e.1.1 e.1.2

theorem sound_new (capacity : Nat) (emission : List Timed) : (new capacity).Sound emission :=
  fun e he => by simp [new] at he

variable {c : Cache} {emission : List Timed}

theorem Sound.get (h : c.Sound emission) (key : Key) :
    (c.get key).2.Sound emission ∧
      ∀ chunk, (c.get key).1 = some chunk → chunk = slice emission key.1 key.2 := by
  unfold Cache.get
  split
  · next chunk hlookup =>
    obtain ⟨before, after, hentries, -⟩ := List.lookup_eq_some_iff.1 hlookup
    have hchunk : chunk = slice emission key.1 key.2 := h (key, chunk) (by simp [hentries])
    refine ⟨fun e he => ?_, fun chunk' hsome => ?_⟩
    · rcases List.mem_cons.1 he with rfl | he
      · exact hchunk
      · exact h e (List.mem_of_mem_filter he)
    · rw [← Option.some.inj hsome, hchunk]
  · exact ⟨h, fun chunk hsome => by cases hsome⟩

theorem Sound.put (h : c.Sound emission) (key : Key) :
    (c.put key (slice emission key.1 key.2)).Sound emission := by
  intro e he
  rcases List.mem_cons.1 (List.mem_of_mem_take he) with rfl | he
  · rfl
  · exact h e (List.mem_of_mem_filter he)

end Cache

namespace Reader

/-- The reader is one of the data, and its cache holds what the data come to. -/
structure Serves (r : Reader) (table : Tag.Table) (clock : Clock.Config) (data : Bytes) : Prop where
  table_eq : r.table = table
  clock_eq : r.clock = clock
  describes : r.index.Describes table clock data
  cached : r.cache.Sound ((Session.new table clock).toEmit data)

variable {r : Reader} {table : Tag.Table} {clock : Clock.Config} {data : Bytes}

theorem Serves.startFor (h : r.Serves table clock data) (start : Nat) :
    (r.startFor start).Resumes table clock data ∧
      ((r.startFor start).ordinal = 0 ∨ (r.startFor start).ordinal < start) := by
  unfold Reader.startFor
  rcases hc : r.index.checkpointBefore (start - 1) with _ | c
  · exact ⟨Session.resumes_beginning h.describes.fault_eq, .inl rfl⟩
  · obtain ⟨hmem, hle⟩ := Index.checkpointBefore_eq_some hc
    refine ⟨h.describes.resumes c hmem, ?_⟩
    change c.ordinal = 0 ∨ c.ordinal < start
    omega

variable {σ : Type} [Source σ] {source : σ} {last : Nat}

theorem Serves.decode (h : r.Serves table clock data) (hs : Source.Delivers source data last)
    {start stop : Nat} (hlt : start < stop) :
    ∃ source', r.decode start stop source =
        (.ok (slice ((Session.new table clock).toEmit data) start stop), source') ∧
      Source.Reaches last source source' := by
  have hlen : data.length < Word.size := Nat.lt_of_le_of_lt hs.length_le hs.last_lt
  obtain ⟨hresumes, hfirst⟩ := h.startFor start
  obtain ⟨hfault, hreach, hemitted⟩ := Session.run_withLimit hresumes hs (Word.addSat stop 1)
  have hslice := Queue.slice_emission hlt hfirst (h.describes.lookahead hlen stop)
  refine ⟨_, ?_, hreach⟩
  simp only [Reader.decode, h.table_eq, h.clock_eq, hfault, hemitted, hslice]
  rw [← h.describes.length_toEmit]
  rfl

theorem Serves.load (h : r.Serves table clock data) (hs : Source.Delivers source data last)
    {start stop : Nat} (hlt : start < stop) :
    ∃ r' source', r.load start stop source =
        (.ok (slice ((Session.new table clock).toEmit data) start stop), r', source') ∧
      r'.Serves table clock data ∧ Source.Reaches last source source' := by
  obtain ⟨source', hdecode, hreach⟩ := h.decode hs hlt
  let chunk := slice ((Session.new table clock).toEmit data) start stop
  refine ⟨{ r with
    tracker := r.tracker.track decodeName
    cache := r.cache.put (start, stop) chunk }, source', ?_, ?_, hreach⟩
  · simp only [Reader.load, hdecode]
    rfl
  · exact ⟨h.table_eq, h.clock_eq, h.describes, h.cached.put (start, stop)⟩

/-- A request is answered as the data demand, and changes nothing about that. -/
theorem Serves.fetch (h : r.Serves table clock data) (hs : Source.Holds source data last)
    (start stop : Nat) :
    ∃ r' source', r.fetch start stop source =
        (.ok (answer ((Session.new table clock).toEmit data) start stop), r', source') ∧
      r'.Serves table clock data ∧ Source.Reaches last source source' := by
  have htotal := h.describes.length_toEmit
  unfold Reader.fetch answer
  rw [hs.count_eq source .refl, htotal]
  simp only [h.describes.totalBytes_eq, ne_eq, not_true_eq_false, if_false]
  split_ifs with hle hlt hlt
  · omega
  · exact ⟨r, source, rfl, h, .refl⟩
  · obtain ⟨hsound, hhit⟩ := h.cached.get (start, min stop r.index.totalRecords)
    rcases hget : r.cache.get (start, min stop r.index.totalRecords) with ⟨_ | chunk, cache⟩
    · rw [hget] at hsound
      have hserves : { r with cache : Reader }.Serves table clock data :=
        ⟨h.table_eq, h.clock_eq, h.describes, hsound⟩
      exact hserves.load hs.toDelivers hlt
    · rw [hget] at hsound hhit
      rw [hhit chunk rfl]
      exact ⟨{ r with cache }, source, rfl, ⟨h.table_eq, h.clock_eq, h.describes, hsound⟩, .refl⟩
  · omega

/-- The reader and the source after some requests. -/
def serve (r : Reader) (source : σ) : List (Nat × Nat) → Reader × σ
  | [] => (r, source)
  | (start, stop) :: requests =>
    let fetched := r.fetch start stop source
    fetched.2.1.serve fetched.2.2 requests

theorem Serves.serve (hs : Source.Holds source data last) : ∀ (requests : List (Nat × Nat))
    {r : Reader} {s : σ}, r.Serves table clock data → Source.Reaches last source s →
      (r.serve s requests).1.Serves table clock data ∧
        Source.Reaches last source (r.serve s requests).2
  | [], _, _, h, hreach => ⟨h, hreach⟩
  | (start, stop) :: requests, r, s, h, hreach => by
    obtain ⟨r', s', hfetch, h', hreach'⟩ := h.fetch (hs.of_reaches hreach) start stop
    rw [Reader.serve, hfetch]
    exact Serves.serve hs requests h' (hreach.trans hreach')

variable {τ : Type} [Source τ] {again : τ} {last' : Nat}

/-- A chunk holds what a full run emits at its positions. -/
theorem fetch_eq_slice (hs : Source.Holds source data last) (hagain : Source.Holds again data last')
    {interval : Nat} {index : Index}
    (hindex : (Index.build table clock interval source).1 = .ok index) (capacity : Nat)
    (requests : List (Nat × Nat)) (start stop : Nat) :
    let full := ((Session.new table clock).run source).emitted.toList
    let reader : Reader := { index, table, clock, cache := .new capacity }
    let served := reader.serve again requests
    let total := index.totalRecords
    ∃ chunk, (served.1.fetch start stop served.2).1 = .ok chunk ∧ chunk.total = total ∧
      (start < min stop total → chunk.start = start ∧ chunk.stop = min stop total ∧
        chunk.records = (full.drop start).take (min stop total - start) ∧
        chunk.records.length = chunk.stop - chunk.start) ∧
      (min stop total ≤ start → chunk.start = min start total ∧ chunk.stop = min start total ∧
        chunk.records = []) := by
  intro full reader served total
  have hdescribes := Index.describes_of_build hs hindex
  have hreader : reader.Serves table clock data :=
    ⟨rfl, rfl, hdescribes, Cache.sound_new capacity _⟩
  obtain ⟨hserved, hreach⟩ := Serves.serve hagain requests hreader .refl
  obtain ⟨r', s', hfetch, -⟩ := hserved.fetch (hagain.of_reaches hreach) start stop
  have hfull : full = (Session.new table clock).toEmit data := Index.emitted_of_build hs hindex
  have htotal : ((Session.new table clock).toEmit data).length = total :=
    hdescribes.length_toEmit
  refine ⟨_, congrArg Prod.fst hfetch, ?_, fun hlt => ?_, fun hle => ?_⟩
  · unfold answer
    split_ifs <;> exact htotal
  · rw [hfull, answer, htotal, if_pos hlt]
    exact ⟨rfl, rfl, rfl, length_records_slice (htotal ▸ Nat.min_le_right _ _)⟩
  · rw [answer, htotal, if_neg (Nat.not_lt.2 hle)]
    exact ⟨rfl, rfl, rfl⟩

/-- A chunk that begins inside a swap, after one that ends there. -/
theorem fetch_eq_slice_inside_swap :
    let source := Memory.plain [1, 5, 0, 1, 9, 0, 1, 8, 0, 1, 12, 0]
    let full := (Session.new Tag.Table.standard {}).run source
    let index := Index.ofRun 1 12 full
    let reader : Reader := {
      index
      table := Tag.Table.standard
      clock := {}
      cache := .new 4 }
    let served := reader.serve source [(0, 2)]
    Source.Holds source [1, 5, 0, 1, 9, 0, 1, 8, 0, 1, 12, 0] 12 ∧
      full.emitted.toList.map Timed.ns = [0, 6000, 8000, 14000] ∧
      (Index.build Tag.Table.standard {} 1 source).1 = .ok index ∧
      ∃ chunk, (served.1.fetch 2 9 served.2).1 = .ok chunk ∧ chunk.start = 2 ∧ chunk.stop = 4 ∧
        chunk.records = full.emitted.toList.drop 2 := by
  intro source full index reader served
  have hs : Source.Holds source [1, 5, 0, 1, 9, 0, 1, 8, 0, 1, 12, 0] 12 :=
    Memory.holds_plain (by decide) (by decide)
  have hindex : (Index.build Tag.Table.standard {} 1 source).1 = .ok index := by decide +kernel
  have htotal : index.totalRecords = 4 := by decide +kernel
  have htimes : full.emitted.toList.map Timed.ns = [0, 6000, 8000, 14000] := by decide +kernel
  obtain ⟨chunk, hfetch, -, hchunk, -⟩ := fetch_eq_slice hs hs hindex 4 [(0, 2)] 2 9
  rw [htotal] at hchunk
  obtain ⟨hstart, hstop, hrecords, -⟩ := hchunk (by decide)
  refine ⟨hs, htimes, hindex, chunk, hfetch, hstart, hstop, ?_⟩
  rw [hrecords]
  exact List.take_of_length_le (by decide +kernel)

end Reader

end Chunk

end Telemetry
