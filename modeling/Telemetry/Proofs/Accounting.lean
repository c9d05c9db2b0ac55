import Telemetry.Proofs.Checkpoints
import Telemetry.Proofs.Framing

/-!
# Every byte is accounted for

A run over a source that delivers some data, and which no overflow stops, divides the data into
records without a gap, and its end tells exactly what comes after the last of them
(`contiguous_records_run`).  Nothing is lost: the records in the order of the stream are written in
the bytes they were decoded from (`flatMap_encode_records_run`).
-/

namespace Telemetry

def Record.mark (r : Record) : Mark :=
  ⟨r.ordinal, r.offset⟩

namespace Session

/-- What comes after the last of some records in the data. -/
inductive Ending (table : Tag.Table) (data : Bytes) (records : List Record) : StreamEnd → Prop where
  | eof (h : Record.stop records = data.length) : Ending table data records .eof
  | truncated (h : Record.Cut table (data.drop (Record.stop records))) :
    Ending table data records
      (.truncated (Record.stop records) (data.length - Record.stop records))
  | lostSync {tag : UInt8} (h : data[Record.stop records]? = some tag)
      (ht : table.get? tag = none) :
    Ending table data records (.lostSync records.length (Record.stop records) tag
      (records.getLast?.map Record.mark))

section Ending

variable {table : Tag.Table} {data : Bytes} {records : List Record}

theorem Ending.unique {e e' : StreamEnd} (h : Ending table data records e)
    (h' : Ending table data records e') : e' = e := by
  have hcut : Record.Cut table (data.drop (Record.stop records)) →
      ∃ tag t, data[Record.stop records]? = some tag ∧ table.get? tag = some t := fun h => by
    rw [← List.head?_drop]
    exact h.head_eq
  cases h <;> cases h' <;> grind

theorem ending_of_ends {bytes tail : Bytes} {e : StreamEnd} {position : Nat}
    (hdata : data = bytes ++ tail) (hstop : Record.stop records = bytes.length)
    (h : Record.Ends table bytes.length records.length tail e position) :
    Ending table data records (e.withLastGood (records.getLast?.map Record.mark)) := by
  have hdrop : data.drop bytes.length = tail := by rw [hdata, List.drop_left]
  cases h with
  | eof => exact .eof (by rw [hstop, hdata, List.append_nil])
  | truncated hcut =>
    have hlen : tail.length = data.length - bytes.length := by rw [← hdrop, List.length_drop]
    rw [hlen, ← hstop]
    exact .truncated (by rwa [hstop, hdrop])
  | lostSync ht =>
    rw [← hstop]
    refine .lostSync ?_ ht
    rw [hstop, ← List.head?_drop, hdrop]
    rfl

theorem decodedBytesOf_of_ends {offset ordinal : Nat} {tail : Bytes} {e : StreamEnd} {s : Session}
    (h : Record.Ends table offset ordinal tail e s.offset) (lastGood : Option Mark) :
    Index.decodedBytesOf (e.withLastGood lastGood) s = offset := by
  cases h with
  | eof => rfl
  | truncated => rfl
  | lostSync => rfl

end Ending

section Run

variable {σ : Type}

/-- The records that a run parsed, in the order of the stream. -/
def Run.records (r : Run σ) : List Record :=
  r.observed.toList.map Observation.record

/-- What a run comes to that does not fail. -/
structure Run.Decodes (r : Run σ) (parse : Record.Parse) : Prop where
  fault_eq : r.fault = none
  records_eq : r.records = parse.records
  emitted_perm : (r.emitted.toList.map Timed.record).Perm r.records
  finish_eq : r.session.finish =
    some (parse.finish.withLastGood (r.records.getLast?.map Record.mark))
  offset_eq : r.session.offset = parse.offset
  ordinal_eq : r.session.ordinal = r.records.length

variable [Source σ] {table : Tag.Table} {clock : Clock.Config} {source : σ} {data : Bytes}
  {last : Nat}

theorem decodes_of_delivers (hs : Source.Delivers source data last)
    (hfit : ∀ o, ((new table clock).run source).fault ≠ some (.overflow o)) :
    ((new table clock).run source).Decodes
      (({ table } : Record.Parser).parse none data 0 0) := by
  have hline := toClock_fits hs hfit
  obtain ⟨hfault, hsummary⟩ := summary_new hs hline
  have hobserved : ((new table clock).run source).records =
      ((new table clock).toClock data).items.map Clocked.record := by
    rw [Run.records, show ((new table clock).run source).observed.toList = _ from
      congrArg Summary.observed hsummary, Summary.ofItems, List.map_map]
    rfl
  have hlast : ((new table clock).run source).records.getLast?.map Record.mark =
      ((new table clock).toClock data).items.getLast?.map Clocked.mark := by
    rw [hobserved, List.getLast?_map, Option.map_map]
    rfl
  refine ⟨hfault, hobserved.trans (clock.records_timeline {} _ hline), ?_, ?_,
    congrArg Summary.offset hsummary, ?_⟩
  · have hperm := (({} : Queue).emission_perm
      (((new table clock).toClock data).items.map Clocked.timed)).map Timed.record
    rw [Option.toList_none, List.nil_append, List.map_map] at hperm
    rw [hobserved, show ((new table clock).run source).emitted.toList = _ from
      congrArg Summary.emitted hsummary]
    exact hperm
  · rw [hlast]
    exact congrArg Summary.finish hsummary
  · have hordinal : ((new table clock).run source).session.ordinal = _ :=
      congrArg Summary.ordinal hsummary
    rw [hordinal, hobserved, List.length_map]
    exact Nat.zero_add _

theorem run_divides (hs : Source.Delivers source data last)
    (hfit : ∀ o, ((new table clock).run source).fault ≠ some (.overflow o)) :
    ∃ bs tail, data = bs.flatMap Record.Body.encode ++ tail ∧ (∀ b ∈ bs, b.Valid table) ∧
      ((new table clock).run source).records = Record.placeAll table bs 0 0 ∧
      Record.Ends table (bs.flatMap Record.Body.encode).length bs.length tail
        (({ table } : Record.Parser).parse none data 0 0).finish
        ((new table clock).run source).session.offset := by
  have hdecodes := decodes_of_delivers hs hfit
  have hread : ({ table } : Record.Parser).ReadTo 0 :=
    Record.Parser.readTo_of_openText rfl (Nat.le_refl _) 0
  have hlen : 0 + data.length < Word.size := by
    have := hs.length_le
    have := hs.last_lt
    omega
  obtain ⟨bs, tail, hdiv⟩ := Record.Parser.divides_parse _ data 0 0 hread hlen
  have hends := hdiv.ends
  rw [← hdecodes.offset_eq] at hends
  simp only [Record.Parser.start_of_openText, Nat.zero_add] at hends
  exact ⟨bs, tail, hdiv.bytes_eq, hdiv.valid, hdecodes.records_eq.trans hdiv.records_eq, hends⟩

theorem decodedBytes_run (hs : Source.Delivers source data last)
    (hfit : ∀ o, ((new table clock).run source).fault ≠ some (.overflow o))
    (interval totalBytes : Nat) :
    let run := (new table clock).run source
    (Index.ofRun interval totalBytes run).decodedBytes =
      (run.records.flatMap Record.encode).length := by
  intro run
  obtain ⟨bs, tail, -, -, hrecords, hends⟩ := run_divides hs hfit
  have hdecodes := decodes_of_delivers hs hfit
  rw [hrecords, Record.flatMap_encode_placeAll]
  simp only [Index.ofRun, run, hdecodes.finish_eq, Option.getD_some]
  exact decodedBytesOf_of_ends hends _

theorem build_of_decodes {parse : Record.Parse}
    (h : ((new table clock).run source).Decodes parse) {count : Nat}
    (hcount : Source.count source = .ok count) {interval : Nat} (hinterval : 0 < interval) :
    (Index.build table clock interval source).1 =
      .ok (Index.ofRun interval count ((new table clock).run source)) := by
  unfold Index.build
  rw [if_neg hinterval.ne', hcount]
  simp only [h.fault_eq]

/-- The records of a run follow one another from the beginning of the data, and its end tells what
comes after the last of them; so does an index. -/
theorem contiguous_records_run (hs : Source.Delivers source data last)
    (hfit : ∀ o, ((new table clock).run source).fault ≠ some (.overflow o)) :
    let run := (new table clock).run source
    let stop := Record.stop run.records
    run.fault = none ∧ (run.emitted.toList.map Timed.record).Perm run.records ∧
      Record.Contiguous run.records ∧
      (∃ finish, run.session.finish = some finish ∧
        ∀ e, Ending table data run.records e ↔ e = finish) ∧
      (Source.count source = .ok data.length → ∀ interval, 0 < interval →
        ∃ index, (Index.build table clock interval source).1 = .ok index ∧
          index.totalRecords = run.records.length ∧ index.totalBytes = data.length ∧
          index.decodedBytes = stop ∧ run.session.finish = some index.finish) := by
  intro run stop
  have hdecodes := decodes_of_delivers hs hfit
  obtain ⟨bs, tail, hdata, hvalid, hrecords, hends⟩ := run_divides hs hfit
  have hstop : stop = (bs.flatMap Record.Body.encode).length := by
    rw [← Record.stop_placeAll table, ← hrecords]
  have hlength : run.records.length = bs.length := by
    rw [hrecords, Record.length_placeAll]
  have hending := ending_of_ends hdata hstop (hlength ▸ hends)
  refine ⟨hdecodes.fault_eq, hdecodes.emitted_perm, ?_, ?_, fun hcount interval hinterval => ?_⟩
  · rw [hrecords]
    exact Record.contiguous_placeAll hvalid
  · refine ⟨_, hdecodes.finish_eq, fun e => ⟨hending.unique, ?_⟩⟩
    rintro rfl
    exact hending
  · refine ⟨_, build_of_decodes hdecodes hcount hinterval, hdecodes.ordinal_eq, rfl, ?_, ?_⟩
    · rw [hstop]
      simp only [Index.ofRun, hdecodes.finish_eq, Option.getD_some]
      exact decodedBytesOf_of_ends hends _
    · simp only [Index.ofRun, run, hdecodes.finish_eq, Option.getD_some]

/-- A text that an unknown tag cuts short, read byte by byte. -/
theorem contiguous_records_run_lostSync :
    let source : Memory := { contents := #[1, 5, 0, 32, 104, 32, 105, 255], readLimit := some 1 }
    let run := (new Tag.Table.standard {}).run source
    Source.Delivers source source.contents.toList 8 ∧ (∀ o, run.fault ≠ some (.overflow o)) ∧
      Record.Contiguous run.records ∧
      Ending Tag.Table.standard source.contents.toList run.records
        (.lostSync 2 7 255 (some ⟨1, 3⟩)) ∧
      ∃ index, (Index.build Tag.Table.standard {} 4 source).1 = .ok index ∧
        index.totalBytes = 8 ∧ index.decodedBytes = Record.stop run.records := by
  intro source run
  have hs : Source.Delivers source source.contents.toList 8 :=
    Memory.delivers rfl (by decide) (by decide) (by decide)
  have hfault : run.fault = none := by decide +kernel
  have hfit : ∀ o, run.fault ≠ some (.overflow o) := fun o h => by simp [hfault] at h
  have hfinish : run.session.finish = some (.lostSync 2 7 255 (some ⟨1, 3⟩)) := by decide +kernel
  obtain ⟨-, -, hcontiguous, ⟨finish, hrun, hending⟩, hindex⟩ := contiguous_records_run hs hfit
  obtain ⟨index, hbuild, -, htotal, hdecoded, -⟩ := hindex rfl 4 (by decide)
  refine ⟨hs, hfit, hcontiguous, (hending _).2 ?_, index, hbuild, htotal, hdecoded⟩
  exact Option.some.inj (hfinish.symm.trans hrun)

/-- The records of a run, written one after another, are the data up to the end of the last one. -/
theorem flatMap_encode_records_run (hs : Source.Delivers source data last)
    (hfit : ∀ o, ((new table clock).run source).fault ≠ some (.overflow o)) :
    let run := (new table clock).run source
    run.fault = none ∧ (run.emitted.toList.map Timed.record).Perm run.records ∧
      (∀ (i : Nat) (r : Record), run.records[i]? = some r → r.ordinal = i) ∧
      (∃ finish decoded, run.session.finish = some finish ∧
        decoded = Index.decodedBytesOf finish run.session ∧ decoded ≤ data.length ∧
        run.records.flatMap Record.encode = data.take decoded) ∧
      (∀ interval index, (Index.build table clock interval source).1 = .ok index →
        run.records.flatMap Record.encode = data.take index.decodedBytes) ∧
      ∀ r ∈ run.records, r.Fits table := by
  intro run
  have hdecodes := decodes_of_delivers hs hfit
  obtain ⟨bs, tail, hdata, hvalid, hrecords, hends⟩ := run_divides hs hfit
  have hdecoded := decodedBytesOf_of_ends hends (run.records.getLast?.map Record.mark)
  have hencode : run.records.flatMap Record.encode =
      data.take (bs.flatMap Record.Body.encode).length := by
    rw [hrecords, Record.flatMap_encode_placeAll, hdata, List.take_left]
  refine ⟨hdecodes.fault_eq, hdecodes.emitted_perm, ?_, ?_, fun interval index h => ?_, ?_⟩
  · rw [hrecords]
    exact (Record.contiguous_placeAll hvalid).ordinal_eq
  · refine ⟨_, _, hdecodes.finish_eq, rfl, ?_, ?_⟩
    · rw [hdecoded, hdata, List.length_append]
      exact Nat.le_add_right _ _
    · rw [hdecoded, hencode]
  · obtain ⟨-, totalBytes, -, rfl⟩ := Index.build_eq_ok h
    rw [hencode, ← hdecoded]
    simp only [Index.ofRun, run, hdecodes.finish_eq, Option.getD_some]
  · rw [hrecords]
    exact Record.fits_placeAll hvalid 0 0

/-- Texts of two tags between each other, and a record that is cut short. -/
theorem flatMap_encode_records_run_truncated :
    let data : Bytes := [1, 5, 0, 32, 104, 32, 105, 33, 120, 33, 0, 32, 32, 32, 0, 16, 7]
    let source : Memory := { contents := data.toArray, readLimit := some 2 }
    let run := (new Tag.Table.standard {}).run source
    Source.Delivers source data 17 ∧ (∀ o, run.fault ≠ some (.overflow o)) ∧
      run.records.map Record.body = [⟨1, .fixed, [5, 0]⟩, ⟨32, .text false, [104, 105]⟩,
        ⟨33, .text true, [120]⟩, ⟨32, .text true, [32]⟩] ∧
      run.records.flatMap Record.encode = data.take 15 ∧
      ∀ r ∈ run.records, r.Fits Tag.Table.standard := by
  intro data source run
  have hs : Source.Delivers source data 17 :=
    Memory.delivers rfl (by decide) (by decide) (by decide)
  have hfault : run.fault = none := by decide +kernel
  have hfit : ∀ o, run.fault ≠ some (.overflow o) := fun o h => by simp [hfault] at h
  have hfinish : run.session.finish = some (.truncated 15 2) := by decide +kernel
  obtain ⟨-, -, -, ⟨finish, decoded, hrun, hdecoded, -, hencode⟩, -, hfits⟩ :=
    flatMap_encode_records_run hs hfit
  obtain rfl : finish = .truncated 15 2 := Option.some.inj (hrun.symm.trans hfinish)
  subst hdecoded
  exact ⟨hs, hfit, by decide +kernel, hencode, hfits⟩

end Run

end Session

end Telemetry
