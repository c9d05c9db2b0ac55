import Mathlib.Data.List.TakeWhile
import Telemetry.Index
import Telemetry.Proofs.Resumption

/-!
# The checkpoints of an index

An index that was built over some data tells how many bytes and records there are, and from each of
its checkpoints a session decodes the data as a full run does (`describes_of_build`).
-/

namespace Telemetry

namespace Session

/-- What a session emits that parses all of the data. -/
def toEmit (s : Session) (data : Bytes) : List Timed :=
  s.queue.emission ((s.toClock data).items.map Clocked.timed)

end Session

namespace Index

section PartitionPoint

variable {α : Type} {p : α → Bool} {xs : List α}

theorem partitionPoint_pos {x : α} (hx : xs.head? = some x) (hp : p x = true) :
    0 < partitionPoint p xs := by
  induction xs using partitionPoint.induct p with
  | case1 xs hlong hmid hp' ih =>
    rw [partitionPoint, dif_pos hlong, if_pos hp']
    omega
  | case2 xs hlong hmid hp' ih =>
    rw [partitionPoint, dif_pos hlong, if_neg hp']
    refine ih ?_
    rw [List.head?_take, if_neg (by omega), hx]
  | case3 xs hshort =>
    rw [partitionPoint, dif_neg hshort, List.countP_pos_iff]
    exact ⟨x, List.mem_of_head? hx, hp⟩

/-- The element before the border has the property, whatever the others have. -/
theorem exists_of_partitionPoint {n : Nat} (h : partitionPoint p xs = n + 1) :
    ∃ x, xs[n]? = some x ∧ p x = true := by
  induction xs using partitionPoint.induct p generalizing n with
  | case1 xs hlong hmid hp ih =>
    rw [partitionPoint, dif_pos hlong, if_pos hp] at h
    have hhead : (xs.drop (xs.length / 2)).head? = some xs[xs.length / 2] := by
      rw [List.head?_drop, List.getElem?_eq_getElem hmid]
    have hpos := partitionPoint_pos hhead hp
    obtain ⟨m, hm⟩ : ∃ m, partitionPoint p (xs.drop (xs.length / 2)) = m + 1 :=
      ⟨_, (Nat.succ_pred_eq_of_pos hpos).symm⟩
    obtain ⟨x, hx, hpx⟩ := ih hm
    rw [List.getElem?_drop] at hx
    refine ⟨x, ?_, hpx⟩
    rw [← hx]
    congr 1
    omega
  | case2 xs hlong hmid hp ih =>
    rw [partitionPoint, dif_pos hlong, if_neg hp] at h
    obtain ⟨x, hx, hpx⟩ := ih h
    rw [List.getElem?_take] at hx
    split_ifs at hx
    exact ⟨x, hx, hpx⟩
  | case3 xs hshort =>
    rw [partitionPoint, dif_neg hshort] at h
    have hle := List.countP_le_length (p := p) (l := xs)
    obtain ⟨x, hx, hpx⟩ := List.countP_pos_iff.1 (Nat.lt_of_lt_of_eq (Nat.succ_pos n) h.symm)
    obtain ⟨i, hi⟩ := List.mem_iff_getElem?.1 hx
    have hlt := (List.getElem?_eq_some_iff.1 hi).1
    obtain rfl : i = n := by omega
    exact ⟨x, hi, hpx⟩

end PartitionPoint

/-- The index is one of the data. -/
structure Describes (index : Index) (table : Tag.Table) (clock : Clock.Config)
    (data : Bytes) : Prop where
  fault_eq : ((Session.new table clock).toClock data).fault = none
  totalBytes_eq : index.totalBytes = data.length
  totalRecords_eq : index.totalRecords = ((Session.new table clock).toClock data).items.length
  resumes : ∀ c ∈ index.checkpoints, c.start.Resumes table clock data

theorem build_eq_ok {σ : Type} [Source σ] {table : Tag.Table} {clock : Clock.Config}
    {interval : Nat} {source : σ} {index : Index}
    (h : (build table clock interval source).1 = .ok index) :
    ((Session.new table clock).run source).fault = none ∧ ∃ totalBytes,
      Source.count source = .ok totalBytes ∧
        index = ofRun interval totalBytes ((Session.new table clock).run source) := by
  unfold build at h
  split_ifs at h with hzero
  rcases hcount : Source.count source with e | totalBytes
  · simp [hcount] at h
  · rw [hcount] at h
    dsimp only at h
    rcases hfault : ((Session.new table clock).run source).fault with _ | f
    · rw [hfault] at h
      exact ⟨rfl, totalBytes, rfl, (Except.ok.inj h).symm⟩
    · simp [hfault] at h

theorem start_of_checkpointAt {interval : Nat} {o : Observation} {c : Checkpoint}
    (h : checkpointAt interval o = some c) : c.start = o.start := by
  unfold checkpointAt at h
  split_ifs at h
  rw [← Option.some.inj h]
  rfl

theorem describes_of_build {σ : Type} [Source σ] {table : Tag.Table} {clock : Clock.Config}
    {interval : Nat} {source : σ} {data : Bytes} {last : Nat} {index : Index}
    (hs : Source.Holds source data last)
    (h : (build table clock interval source).1 = .ok index) :
    index.Describes table clock data := by
  obtain ⟨hfault, totalBytes, hcount, rfl⟩ := build_eq_ok h
  rw [hs.count_eq source .refl] at hcount
  have hlen : data.length < Word.size := Nat.lt_of_le_of_lt hs.length_le hs.last_lt
  obtain ⟨hline, hsummary⟩ :=
    Session.summary_run (Session.within_new table clock data last) hs.toFaithful rfl hfault
  refine ⟨hline, (Except.ok.inj hcount).symm, ?_, fun c hc => ?_⟩
  · have hordinal := congrArg Session.Summary.ordinal hsummary
    exact hordinal.trans (Nat.zero_add _)
  · obtain ⟨o, ho, hcheckpoint⟩ := List.mem_filterMap.1 hc
    have hobserved : ((Session.new table clock).run source).observed.toList =
      ((Session.new table clock).toClock data).items.map Clocked.observation :=
        congrArg Session.Summary.observed hsummary
    rw [hobserved] at ho
    obtain ⟨item, hmem, rfl⟩ := List.mem_map.1 ho
    obtain ⟨k, hitem⟩ := List.mem_iff_getElem?.1 hmem
    rw [start_of_checkpointAt hcheckpoint]
    exact (Session.resumes_start hlen hline hitem).2

theorem emitted_of_build {σ : Type} [Source σ] {table : Tag.Table} {clock : Clock.Config}
    {interval : Nat} {source : σ} {data : Bytes} {last : Nat} {index : Index}
    (hs : Source.Holds source data last)
    (h : (build table clock interval source).1 = .ok index) :
    ((Session.new table clock).run source).emitted.toList =
      (Session.new table clock).toEmit data := by
  obtain ⟨-, hsummary⟩ := Session.summary_run (Session.within_new table clock data last)
    hs.toFaithful rfl (build_eq_ok h).1
  exact congrArg Session.Summary.emitted hsummary

theorem checkpointBefore_eq_some {index : Index} {ordinal : Nat} {c : Checkpoint}
    (h : index.checkpointBefore ordinal = some c) :
    c ∈ index.checkpoints ∧ c.ordinal ≤ ordinal := by
  unfold checkpointBefore at h
  split at h
  · cases h
  · next n hn =>
    obtain ⟨c', hc', hle⟩ := exists_of_partitionPoint hn
    rw [hc'] at h
    cases h
    exact ⟨List.mem_of_getElem? hc', by simpa using hle⟩

namespace Describes

variable {index : Index} {table : Tag.Table} {clock : Clock.Config} {data : Bytes}

theorem length_toEmit (h : index.Describes table clock data) :
    ((Session.new table clock).toEmit data).length = index.totalRecords := by
  rw [h.totalRecords_eq]
  simp [Session.toEmit, Queue.length_emission, Session.new, Session.resume]

theorem totalRecords_lt (h : index.Describes table clock data) (hlen : data.length < Word.size) :
    index.totalRecords < Word.size := by
  rw [h.totalRecords_eq]
  rcases hn : ((Session.new table clock).toClock data).items.length with _ | n
  · simp
  · have hlt : n < ((Session.new table clock).toClock data).items.length := by omega
    have hitem := List.getElem?_eq_getElem hlt
    have hnum := Session.numbered_toClock hlen h.fault_eq n
    have hordinal := Clock.Config.ordinal_lt_of_mem_timeline (List.mem_of_getElem? hitem)
    rw [List.getElem?_map, hitem] at hnum
    have := hnum _ rfl
    simp only [Clocked.timed] at this
    omega

/-- A limit of one record more than needed lets that record through, if there is one: it saturates
only where none is left. -/
theorem lookahead (h : index.Describes table clock data) (hlen : data.length < Word.size)
    (stop : Nat) : stop < Word.addSat stop 1 ∨
      (((Session.new table clock).toClock data).items.map Clocked.timed).length ≤
        Word.addSat stop 1 := by
  have htotal := h.totalRecords_lt hlen
  rw [List.length_map, ← h.totalRecords_eq]
  unfold Word.addSat
  omega

end Describes

end Index

end Telemetry
