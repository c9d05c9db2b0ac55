import Telemetry.Proofs.Appending
import Telemetry.Proofs.Exchange
import Telemetry.Proofs.History

/-!
# Statistics

Corrections are counted in three places: by a session as it parses the records, by an index as they
are emitted, and by each chunk for what it holds.  All of them tell of the same records.  The order
does not count (`Corrections.ofList_perm`), and no anomaly is swapped, so an index lists them in the
order of the stream (`Index.counts_of_build`).  Chunks that tile the stream hold each record once
(`Chunk.Tiles.foldr_merge`).
-/

namespace Telemetry

namespace Clock.Config

variable {c : Config} {s : State} {raw? : Option UInt16} {a : Advance} {ticks : UInt16}

theorem Advances.ticks_le_window (h : c.Advances s raw? a)
    (ha : a.order = .swapWithPrevious ticks) : ticks ≤ c.window := by
  cases h with
  | swap hs hahead hback hswap =>
    cases ha
    rw [UInt16.le_iff_toNat_le, UInt16.toNat_ofNat']
    exact (Nat.mod_le _ _).trans hback
  | _ => cases ha

theorem Advances.window_lt_ticks (h : c.Advances s raw? a) (ha : a.order = .ambiguous ticks) :
    c.window < ticks := by
  cases h with
  | ambiguous hs hahead hback =>
    cases ha
    rw [UInt16.lt_iff_toNat_lt, UInt16.toNat_ofNat', Nat.mod_eq_of_lt]
    · exact hback
    · unfold period at hahead ⊢
      omega
  | _ => cases ha

end Clock.Config

namespace Corrections

theorem ofList_cons (t : Timed) (ts : List Timed) :
    ofList (t :: ts) = (observe {} t.order).merge (ofList ts) :=
  ofList_append [t] ts

/-- No swap goes further than each of them does. -/
theorem maxSwapTicks_ofList_le {ts : List Timed} {bound : UInt16}
    (h : ∀ t ∈ ts, ∀ ticks, t.order = .swapWithPrevious ticks → ticks ≤ bound) :
    (ofList ts).maxSwapTicks ≤ bound := by
  induction ts with
  | nil => exact UInt16.zero_le
  | cons t ts ih =>
    have hrest := ih fun u hu => h u (List.mem_cons_of_mem t hu)
    have hfirst : (observe {} t.order).maxSwapTicks ≤ bound := by
      rcases ho : t.order with _ | ticks | _ | _
      · exact UInt16.zero_le
      · have hticks := UInt16.le_iff_toNat_le.1 (h t List.mem_cons_self ticks ho)
        rw [UInt16.le_iff_toNat_le, observe, toNat_max]
        exact Nat.max_le.2 ⟨Nat.zero_le _, hticks⟩
      · exact UInt16.zero_le
      · exact UInt16.zero_le
    rw [ofList_cons, UInt16.le_iff_toNat_le, merge, toNat_max]
    exact Nat.max_le.2 ⟨UInt16.le_iff_toNat_le.1 hfirst, UInt16.le_iff_toNat_le.1 hrest⟩

/-- As many records are counted as ambiguous as are anomalies. -/
theorem ambiguous_ofList (ts : List Timed) :
    (ofList ts).ambiguous = (ts.filterMap Index.anomalyOf).length := by
  induction ts with
  | nil => rfl
  | cons t ts ih =>
    rw [ofList_cons, merge, ih]
    rcases ho : t.order with _ | _ | _ | ticks <;>
      simp [observe, Index.anomalyOf, ho, Nat.add_comm]

end Corrections

namespace Chunk

/-- The ranges follow one another from a position to `stop`, and none is empty. -/
inductive Tiles (stop : Nat) : Nat → List (Nat × Nat) → Prop where
  | nil : Tiles stop stop []
  | cons {start next : Nat} {ranges : List (Nat × Nat)} (hlt : start < next)
      (h : Tiles stop next ranges) : Tiles stop start ((start, next) :: ranges)

theorem Tiles.le {start stop : Nat} {ranges : List (Nat × Nat)} (h : Tiles stop start ranges) :
    start ≤ stop := by
  induction h with
  | nil => exact Nat.le_refl _
  | cons hlt _ ih => exact hlt.le.trans ih

/-- A range of a tiling is answered with what its positions hold. -/
theorem Tiles.answer_eq {emission : List Timed} {start : Nat} {ranges : List (Nat × Nat)}
    (h : Tiles emission.length start ranges) :
    ∀ p ∈ ranges, answer emission p.1 p.2 = slice emission p.1 p.2 := by
  induction h with
  | nil => intro p hp; cases hp
  | cons hlt h ih =>
    intro p hp
    rcases List.mem_cons.1 hp with rfl | hp
    · rw [answer, Nat.min_eq_left h.le, if_pos hlt]
    · exact ih p hp

/-- The corrections of the parts together are those of the whole. -/
theorem Tiles.foldr_merge {emission : List Timed} {start : Nat} {ranges : List (Nat × Nat)}
    (h : Tiles emission.length start ranges) :
    (ranges.map fun p => (slice emission p.1 p.2).corrections).foldr Corrections.merge {} =
      Corrections.ofList (emission.drop start) := by
  induction h with
  | nil =>
    rw [List.drop_length]
    rfl
  | @cons start next ranges hlt h ih =>
    have hsplit : (emission.drop start).take (next - start) ++ emission.drop next =
        emission.drop start := by
      have hnext : next = start + (next - start) := by omega
      conv_lhs => rw [hnext, ← List.drop_drop, Nat.add_sub_cancel_left]
      exact List.take_append_drop _ _
    rw [List.map_cons, List.foldr_cons, ih, slice, ← Corrections.ofList_append, hsplit]

namespace Reader

variable {table : Tag.Table} {clock : Clock.Config} {data : Bytes}
  {τ : Type} [Source τ] {again : τ} {last : Nat}

/-- Requests made one after the other are each answered as the data demand. -/
theorem Serves.answers (hs : Source.Holds again data last) : ∀ (ranges : List (Nat × Nat))
    {r : Reader}, r.Serves table clock data →
      r.answers (ranges.map fun p => ⟨again, p.1, p.2⟩) = ranges.map fun p =>
        .ok (answer ((Session.new table clock).toEmit data) p.1 p.2)
  | [], _, _ => rfl
  | p :: ranges, r, h => by
    obtain ⟨r', again', hfetch, hserves, -⟩ := h.fetch hs p.1 p.2
    have hask : r.ask ⟨again, p.1, p.2⟩ =
        (.ok (answer ((Session.new table clock).toEmit data) p.1 p.2), r') := by
      rw [Reader.ask, hfetch]
    rw [List.map_cons, List.map_cons, Reader.answers, hask, Serves.answers hs ranges hserves]

end Reader

end Chunk

namespace Session

variable {σ : Type} [Source σ] (table : Tag.Table) (clock : Clock.Config) (source : σ)

/-- The clock's order is the one of the ordinals. -/
theorem stream_eq_timed (hfault : ((new table clock).run source).fault = none) :
    ((new table clock).run source).stream =
      ((new table clock).run source).timed (new table clock) := by
  rw [Run.stream, emitted_eq_emission table clock source hfault,
    streamOrder_emission (numbered_timed table clock source)]

theorem corrections_run : ((new table clock).run source).session.corrections =
    Corrections.ofList (((new table clock).run source).timed (new table clock)) :=
  (run_course source rfl).corrections_eq

theorem advances_of_mem_timed {t : Timed}
    (ht : t ∈ ((new table clock).run source).timed (new table clock)) :
    ∃ s a, clock.Advances s t.record.rawTicks a ∧ a.order = t.order := by
  obtain ⟨item, hitem, rfl⟩ := List.mem_map.1 ht
  exact ⟨item.before, item.advance, Clock.Config.advances_of_mem_timeline hitem, rfl⟩

end Session

namespace Index

variable {σ : Type} [Source σ] {table : Tag.Table} {clock : Clock.Config} {source : σ}

theorem anomalyOf_eq_some {t : Timed} {x : Anomaly} (h : anomalyOf t = some x) :
    t.order = .ambiguous x.backTicks ∧ x.ordinal = t.record.ordinal := by
  unfold anomalyOf at h
  split at h
  · next ticks ho =>
    cases h
    exact ⟨ho, rfl⟩
  · cases h

theorem pairwise_filterMap_anomalyOf {ts : List Timed}
    (h : ts.Pairwise fun t u => t.record.ordinal < u.record.ordinal) :
    (ts.filterMap anomalyOf).Pairwise fun x y => x.ordinal < y.ordinal := by
  refine List.pairwise_filterMap.2 (h.imp fun hlt x hx y hy => ?_)
  rwa [(anomalyOf_eq_some hx).2, (anomalyOf_eq_some hy).2]

/-- What an index tells of the order of the records agrees with what was emitted. -/
structure Counts (index : Index) (clock : Clock.Config) (stream emitted : List Timed) : Prop where
  corrections_eq : index.corrections = Corrections.ofList emitted
  anomalies_eq : index.anomalies = (stream.filterMap anomalyOf).take maxAnomalies
  ordered : index.anomalies.Pairwise fun x y => x.ordinal < y.ordinal
  length_eq : index.anomalies.length = min maxAnomalies index.corrections.ambiguous
  dropped_eq : index.anomalies.length + index.anomaliesDropped = index.corrections.ambiguous
  maxSwapTicks_le : index.corrections.maxSwapTicks ≤ clock.window
  window_lt : ∀ x ∈ index.anomalies, clock.window < x.backTicks

/-- The records in their order, and those that were emitted, whatever the source. -/
theorem counts_of_build {interval : Nat} {index : Index}
    (h : (build table clock interval source).1 = .ok index) :
    index.Counts clock ((Session.new table clock).run source).stream
      ((Session.new table clock).run source).emitted.toList := by
  obtain ⟨hfault, totalBytes, -, rfl⟩ := build_eq_ok h
  have hstream := Session.stream_eq_timed table clock source hfault
  have hemitted := Session.emitted_eq_emission table clock source hfault
  have hcorrections := Session.corrections_run table clock source
  have hadvances := fun t => Session.advances_of_mem_timed table clock source (t := t)
  have hnumbered := Session.numbered_timed table clock source
  rw [← hstream] at hemitted hcorrections hadvances hnumbered
  generalize ((Session.new table clock).run source).stream = stream at *
  -- no anomaly is swapped, so the index lists them in the order of the stream
  have hanomalies : ((Session.new table clock).run source).emitted.toList.filterMap anomalyOf =
      stream.filterMap anomalyOf := by
    rw [hemitted, Queue.filterMap_emission fun t ht => anomalyOf_of_isSwap ht]
    rfl
  have hambiguous : ((Session.new table clock).run source).session.corrections.ambiguous =
      (stream.filterMap anomalyOf).length := by
    rw [hcorrections, Corrections.ambiguous_ofList]
  constructor
  case corrections_eq =>
    rw [hemitted]
    exact hcorrections.trans (Corrections.ofList_perm (Queue.emission_perm {} stream)).symm
  case anomalies_eq => exact congrArg (List.take maxAnomalies) hanomalies
  case ordered =>
    refine List.Pairwise.sublist (List.take_sublist maxAnomalies _) ?_
    rw [hanomalies]
    exact pairwise_filterMap_anomalyOf hnumbered.pairwise
  case length_eq =>
    change (List.take maxAnomalies _).length = _
    rw [hanomalies, List.length_take, ← hambiguous]
    rfl
  case dropped_eq =>
    change (List.take maxAnomalies _).length + (List.drop maxAnomalies _).length = _
    rw [← List.length_append, List.take_append_drop, hanomalies]
    exact hambiguous.symm
  case maxSwapTicks_le =>
    change ((Session.new table clock).run source).session.corrections.maxSwapTicks ≤ _
    rw [hcorrections]
    refine Corrections.maxSwapTicks_ofList_le fun t ht ticks ho => ?_
    obtain ⟨s, a, ha, horder⟩ := hadvances t ht
    exact ha.ticks_le_window (horder.trans ho)
  case window_lt =>
    intro x hx
    have hmem := List.mem_of_mem_take hx
    rw [hanomalies] at hmem
    obtain ⟨t, ht, htx⟩ := List.mem_filterMap.1 hmem
    obtain ⟨s, a, ha, horder⟩ := hadvances t ht
    exact ha.window_lt_ticks (horder.trans (anomalyOf_eq_some htx).1)

end Index

namespace Chunk.Reader

variable {σ τ υ : Type} [Source σ] [Source τ] [Source υ] {table : Tag.Table} {clock : Clock.Config}
  {source : σ} {again : τ} {data : Bytes} {last last' : Nat}

/-- The session, the index and the chunks tell of the same corrections: the index counts those of
all that is emitted and lists the first anomalies, and chunks that tile the stream come to the same
counts, whatever was read before them. -/
theorem statistics_of_build (hs : Source.Holds source data last)
    (hagain : Source.Holds again data last') {interval : Nat} {index : Index}
    (hindex : (Index.build table clock interval source).1 = .ok index) (capacity : Nat)
    (before : List (Request υ)) (hbefore : ∀ q ∈ before, q.Keeps data) :
    let run := (Session.new table clock).run source
    let reader := ({ index, table, clock, cache := .new capacity } : Reader).after before
    index.corrections = Corrections.ofList run.emitted.toList ∧
    (index.anomalies = (run.stream.filterMap Index.anomalyOf).take Index.maxAnomalies ∧
      (index.anomalies.Pairwise fun x y => x.ordinal < y.ordinal) ∧
      index.anomalies.length = min Index.maxAnomalies index.corrections.ambiguous ∧
      index.anomalies.length + index.anomaliesDropped = index.corrections.ambiguous) ∧
    (index.corrections.maxSwapTicks ≤ clock.window ∧
      ∀ x ∈ index.anomalies, clock.window < x.backTicks) ∧
    ∀ ranges : List (Nat × Nat), Tiles index.totalRecords 0 ranges →
      ∃ chunks : List Chunk,
        reader.answers (ranges.map fun p => ⟨again, p.1, p.2⟩) = chunks.map .ok ∧
        (chunks.map fun c => (c.start, c.stop)) = ranges ∧
        (chunks.map Chunk.corrections).foldr Corrections.merge {} = index.corrections := by
  intro run reader
  have hcounts := Index.counts_of_build hindex
  have hdescribes := Index.describes_of_build hs hindex
  have hemitted : run.emitted.toList = (Session.new table clock).toEmit data :=
    Index.emitted_of_build hs hindex
  let fresh : Reader := { index, table, clock, cache := .new capacity }
  have hfresh : fresh.Serves table clock data :=
    ⟨rfl, rfl, hdescribes, Cache.sound_new capacity _⟩
  have hreader : reader.Serves table clock data := hfresh.after hbefore
  refine ⟨hcounts.corrections_eq, ⟨hcounts.anomalies_eq, hcounts.ordered, hcounts.length_eq,
    hcounts.dropped_eq⟩, ⟨hcounts.maxSwapTicks_le, hcounts.window_lt⟩, fun ranges htiles => ?_⟩
  rw [← hdescribes.length_toEmit] at htiles
  refine ⟨ranges.map fun p => slice ((Session.new table clock).toEmit data) p.1 p.2, ?_, ?_, ?_⟩
  · rw [hreader.answers hagain, List.map_map]
    exact List.map_congr_left fun p hp => congrArg _ (htiles.answer_eq p hp)
  · rw [List.map_map]
    exact List.map_id _
  · rw [List.map_map, hcounts.corrections_eq, hemitted]
    exact htiles.foldr_merge

/-- The first chunk ends inside a swap, the second one holds a stamp that lags without being swapped
and one that counts as a turn. -/
theorem statistics_of_build_inside_swap :
    let clock : Clock.Config := { window := 4 }
    let data : Bytes := [1, 10, 0, 1, 8, 0, 1, 9, 0, 1, 0, 0, 1, 5, 0]
    let source := Memory.plain data
    let index := Index.ofRun 2 15 ((Session.new Tag.Table.standard clock).run source)
    let fresh : Reader := { index, table := Tag.Table.standard, clock, cache := .new 4 }
    let ranges := [(0, 1), (1, 4), (4, 5)]
    (Index.build Tag.Table.standard clock 2 source).1 = .ok index ∧
      index.corrections = ⟨1, 2, 1, 1⟩ ∧ index.anomalies = [⟨3, 9, 10⟩] ∧
      index.anomalies.length + index.anomaliesDropped = index.corrections.ambiguous ∧
      ∃ chunks : List Chunk,
        (fresh.after [⟨source, 0, 2⟩]).answers (ranges.map fun p => ⟨source, p.1, p.2⟩) =
          chunks.map .ok ∧
        (chunks.map Chunk.corrections).foldr Corrections.merge {} = ⟨1, 2, 1, 1⟩ := by
  intro clock data source index fresh ranges
  have hs : Source.Holds source data 15 := Memory.holds_plain (by decide) (by decide)
  have hindex : (Index.build Tag.Table.standard clock 2 source).1 = .ok index := by decide +kernel
  have hcorrections : index.corrections = ⟨1, 2, 1, 1⟩ := by decide +kernel
  have htotal : index.totalRecords = 5 := by decide +kernel
  have hbefore : ∀ q ∈ [(⟨source, 0, 2⟩ : Request Memory)], q.Keeps data := by
    intro q hq _
    rw [List.mem_singleton.1 hq]
    exact ⟨15, hs.toFaithful⟩
  have htiles : Tiles 5 0 ranges := .cons (by decide) (.cons (by decide) (.cons (by decide) .nil))
  obtain ⟨-, ⟨-, -, -, hdropped⟩, -, hchunks⟩ := statistics_of_build hs hs hindex 4 _ hbefore
  rw [htotal] at hchunks
  obtain ⟨chunks, hanswers, -, hmerged⟩ := hchunks ranges htiles
  exact ⟨hindex, hcorrections, by decide +kernel, hdropped, chunks, hanswers,
    hmerged.trans hcorrections⟩

end Chunk.Reader

end Telemetry
