import Telemetry.Proofs.Resumption

/-!
# The order of the stream

A run emits each record once, some of them before the one they follow in the stream.  Sorted by
ordinal, what it emits is what the clock makes of the records of the data (`stream_new`).
-/

namespace Telemetry

theorem Numbered.pairwise {ts : List Timed} (h : Numbered ts) :
    ts.Pairwise fun t u => t.record.ordinal < u.record.ordinal := by
  rw [List.pairwise_iff_getElem]
  intro i j hi hj hij
  rw [h i ts[i] (List.getElem?_eq_getElem hi), h j ts[j] (List.getElem?_eq_getElem hj)]
  exact hij

/-- The emitted records by their ordinals. -/
def streamOrder (ts : List Timed) : List Timed :=
  ts.mergeSort fun t u => t.record.ordinal ≤ u.record.ordinal

theorem streamOrder_emission {ts : List Timed} (h : Numbered ts) :
    streamOrder (({} : Queue).emission ts) = ts := by
  have hperm : (streamOrder (({} : Queue).emission ts)).Perm ts :=
    (List.mergeSort_perm _ _).trans (Queue.emission_perm _ _)
  have hsorted : (streamOrder (({} : Queue).emission ts)).Pairwise fun t u =>
      t.record.ordinal ≤ u.record.ordinal := by
    refine (List.pairwise_mergeSort ?_ ?_ _).imp of_decide_eq_true
    · intro t u v htu huv
      simp only [decide_eq_true_eq] at htu huv ⊢
      exact htu.trans huv
    · intro t u
      simpa using Nat.le_total _ _
  refine hperm.eq_of_pairwise ?_ hsorted (h.pairwise.imp Nat.le_of_lt)
  -- records of one ordinal stand in one place of the stream
  intro t u ht hu htu hut
  obtain ⟨i, hi⟩ := List.mem_iff_getElem?.1 (hperm.mem_iff.1 ht)
  obtain ⟨j, hj⟩ := List.mem_iff_getElem?.1 hu
  have hij : i = j := by
    rw [← h i t hi, ← h j u hj]
    exact Nat.le_antisymm htu hut
  rw [hij, hj] at hi
  exact (Option.some.inj hi).symm

namespace Session

/-- What a run emitted, in the order of the stream. -/
def Run.stream {σ : Type} (r : Run σ) : List Timed :=
  streamOrder r.emitted.toList

section New

variable {σ : Type} [Source σ] {table : Tag.Table} {clock : Clock.Config} {source : σ}
  {data : Bytes} {last : Nat}

theorem stream_new (hs : Source.Delivers source data last)
    (hline : ((new table clock).toClock data).fault = none) :
    ((new table clock).run source).stream =
      ((new table clock).toClock data).items.map Clocked.timed := by
  have hlen : data.length < Word.size := Nat.lt_of_le_of_lt hs.length_le hs.last_lt
  have hemitted := congrArg Summary.emitted (summary_new hs hline).2
  exact (congrArg streamOrder hemitted).trans (streamOrder_emission (numbered_toClock hlen hline))

end New

end Session

end Telemetry
