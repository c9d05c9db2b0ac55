import Telemetry.Proofs.Checkpoints
import Telemetry.Proofs.Requests

/-!
# Looking up checkpoints

Records are numbered as they are parsed, so an index has a checkpoint at every multiple of its
interval, with what the session knew right before that record (`spaced_of_build`).

Halving finds the border between the elements with a property and those without it, if there is one
border only (`partitionPoint_eq_countP`), so it finds the checkpoints that a search through all of
them finds (`Spaced.checkpointBefore_eq_getLast?`, `Spaced.checkpointsFrom_eq`).  A request is
answered with these (`Spaced.handle_get`).
-/

namespace Telemetry

/-- What is observed of a record is the state after the earlier ones. -/
theorem Session.before_observed {σ : Type} [Source σ] {s : Session} (source : σ)
    (h : s.finish = none) {n : Nat} {o : Observation}
    (ho : (s.run source).observed.toList[n]? = some o) :
    o.before = (s.clock.timeline s.state
      (((s.run source).observed.toList.map Observation.record).take n)).state := by
  have hcourse := run_course source h
  rw [hcourse.observed_eq, List.getElem?_map, Option.map_eq_some_iff] at ho
  obtain ⟨item, hitem, rfl⟩ := ho
  exact Clock.Config.before_timeline hcourse.fault_eq hitem

namespace Index

section PartitionPoint

variable {α : Type} {p : α → Bool} {xs : List α}

/-- Where the elements with the property come first, the border is as far as there are such. -/
theorem partitionPoint_eq_countP (h : xs.Pairwise fun x y => p y = true → p x = true) :
    partitionPoint p xs = xs.countP p := by
  induction xs using partitionPoint.induct p with
  | case1 xs hlong hmid hp ih =>
    rw [partitionPoint, dif_pos hlong, if_pos hp, ih (h.sublist (List.drop_sublist _ _))]
    have hbefore : (xs.take (xs.length / 2)).countP p = xs.length / 2 := by
      have hlen : (xs.take (xs.length / 2)).length = xs.length / 2 := by
        rw [List.length_take]
        omega
      refine (List.countP_eq_length.2 fun x hx => ?_).trans hlen
      obtain ⟨i, hi, rfl⟩ := List.mem_take_iff_getElem.1 hx
      exact List.pairwise_iff_getElem.1 h i (xs.length / 2) (by omega) hmid (by omega) hp
    conv_rhs => rw [← List.take_append_drop (xs.length / 2) xs, List.countP_append, hbefore]
  | case2 xs hlong hmid hp ih =>
    rw [partitionPoint, dif_pos hlong, if_neg hp, ih (h.sublist (List.take_sublist _ _))]
    have hbehind : (xs.drop (xs.length / 2)).countP p = 0 := by
      rw [List.countP_eq_zero]
      intro x hx hpx
      obtain ⟨i, hi, rfl⟩ := List.mem_drop_iff_getElem.1 hx
      rcases Nat.eq_zero_or_pos i with rfl | hpos
      · exact hp hpx
      · exact hp (List.pairwise_iff_getElem.1 h (xs.length / 2) _ hmid (by omega) (by omega) hpx)
    conv_rhs => rw [← List.take_append_drop (xs.length / 2) xs, List.countP_append, hbehind]
    rfl
  | case3 xs hshort => rw [partitionPoint, dif_neg hshort]

theorem filter_eq_take_countP (h : xs.Pairwise fun x y => p y = true → p x = true) :
    xs.filter p = xs.take (xs.countP p) ∧ xs.filter (fun x => !p x) = xs.drop (xs.countP p) := by
  induction xs with
  | nil => exact ⟨rfl, rfl⟩
  | cons x xs ih =>
    obtain ⟨hx, hxs⟩ := List.pairwise_cons.1 h
    obtain ⟨htake, hdrop⟩ := ih hxs
    rcases hpx : p x with _ | _
    · -- nothing behind `x` has the property either
      have hnone : ∀ y ∈ xs, p y = false := by
        intro y hy
        refine Bool.eq_false_iff.2 fun hpy => ?_
        rw [hx y hy hpy] at hpx
        cases hpx
      have hcount : xs.countP p = 0 := List.countP_eq_zero.2 fun y hy => by simp [hnone y hy]
      rw [hcount] at hdrop
      simpa [hpx, hcount, hdrop] using hnone
    · simp [hpx, htake, hdrop]

/-- The elements before the border are those with the property. -/
theorem lt_partitionPoint_iff (h : xs.Pairwise fun x y => p y = true → p x = true) {i : Nat} :
    i < partitionPoint p xs ↔ ∃ x, xs[i]? = some x ∧ p x = true := by
  obtain ⟨htake, hdrop⟩ := filter_eq_take_countP h
  rw [partitionPoint_eq_countP h]
  constructor
  · intro hi
    have hlt : i < xs.length := Nat.lt_of_lt_of_le hi List.countP_le_length
    have hmem : xs[i] ∈ xs.filter p := by
      rw [htake]
      exact List.mem_take_iff_getElem.2 ⟨i, by omega, rfl⟩
    exact ⟨xs[i], List.getElem?_eq_getElem hlt, (List.mem_filter.1 hmem).2⟩
  · rintro ⟨x, hx, hpx⟩
    by_contra hge
    have hmem : x ∈ xs.filter fun x => !p x := by
      rw [hdrop]
      refine List.mem_of_getElem? (i := i - xs.countP p) ?_
      rw [List.getElem?_drop, Nat.add_sub_cancel' (Nat.not_lt.1 hge)]
      exact hx
    simp [hpx] at hmem

end PartitionPoint

/-- The checkpoint of a record, if it gets one. -/
def checkpointOf (o : Observation) : Checkpoint :=
  ⟨o.record.ordinal, o.record.offset, o.before⟩

/-- Where the next multiple of the interval is `gap` records ahead, the checkpoints are those of the
records that come `gap`, `gap + interval` and so on behind the first one. -/
theorem getElem?_filterMap_checkpointAt {interval : Nat} : ∀ {os : List Observation}
    {first gap turn : Nat},
    (∀ (i : Nat) (o : Observation), os[i]? = some o → o.record.ordinal = first + i) →
      first + gap = turn * interval → gap < interval → ∀ i : Nat,
        (os.filterMap (checkpointAt interval))[i]? = os[gap + i * interval]?.map checkpointOf
  | [], _, _, _, _, _, _, _ => by simp
  | o :: os, first, gap, turn, hnum, hgap, hlt, i => by
    have ho : o.record.ordinal = first := hnum 0 o rfl
    have htail : ∀ (i : Nat) (o : Observation), os[i]? = some o →
        o.record.ordinal = first + 1 + i := by
      intro i o ho
      rw [hnum (i + 1) o (by rwa [List.getElem?_cons_succ])]
      omega
    rcases gap with _ | gap
    · have hkept : checkpointAt interval o = some (checkpointOf o) := by
        rw [checkpointAt, ho, if_pos]
        · rw [checkpointOf, ho]
        · rw [← Nat.add_zero first, hgap, Nat.mul_mod_left]
      have hnext : first + 1 + (interval - 1) = (turn + 1) * interval := by
        rw [Nat.succ_mul]
        omega
      have ih := getElem?_filterMap_checkpointAt htail hnext (by omega)
      rw [List.filterMap_cons_some hkept]
      rcases i with _ | i
      · simp
      · rw [List.getElem?_cons_succ, ih i]
        have hstep : 0 + (i + 1) * interval = interval - 1 + i * interval + 1 := by
          rw [Nat.succ_mul]
          omega
        rw [hstep, List.getElem?_cons_succ]
    · have hdropped : checkpointAt interval o = none := by
        rw [checkpointAt, ho, if_neg]
        intro hmod
        have hsum : (first + (gap + 1)) % interval = 0 := by rw [hgap, Nat.mul_mod_left]
        rw [Nat.add_mod, hmod, Nat.zero_add, Nat.mod_mod, Nat.mod_eq_of_lt hlt] at hsum
        omega
      have hnext : first + 1 + gap = turn * interval := by omega
      have ih := getElem?_filterMap_checkpointAt htail hnext (by omega) i
      have hstep : gap + 1 + i * interval = gap + i * interval + 1 := by omega
      rw [List.filterMap_cons_none hdropped, ih, hstep, List.getElem?_cons_succ]

/-- The index has a checkpoint at each of the observed records whose number is a multiple of the
interval, and no others. -/
structure Spaced (index : Index) (interval : Nat) (observed : List Observation) : Prop where
  interval_eq : index.interval = interval
  pos : 0 < interval
  totalRecords_eq : index.totalRecords = observed.length
  getElem?_eq : ∀ i : Nat, index.checkpoints[i]? =
    observed[i * interval]?.map fun o => ⟨i * interval, o.record.offset, o.before⟩

theorem interval_pos_of_build {σ : Type} [Source σ] {table : Tag.Table} {clock : Clock.Config}
    {interval : Nat} {source : σ} {index : Index}
    (h : (build table clock interval source).1 = .ok index) : 0 < interval := by
  unfold build at h
  split_ifs at h with hzero
  exact Nat.pos_of_ne_zero hzero

theorem spaced_of_build {σ : Type} [Source σ] {table : Tag.Table} {clock : Clock.Config}
    {interval : Nat} {source : σ} {index : Index}
    (h : (build table clock interval source).1 = .ok index) :
    index.Spaced interval ((Session.new table clock).run source).observed.toList := by
  have hpos := interval_pos_of_build h
  obtain ⟨hfault, totalBytes, -, rfl⟩ := build_eq_ok h
  have hcourse := Session.run_course (s := Session.new table clock) source rfl
  have hnum : ∀ (i : Nat) (o : Observation),
      ((Session.new table clock).run source).observed.toList[i]? = some o →
        o.record.ordinal = 0 + i :=
    Session.ordinal_observed (Session.new table clock) source
  refine ⟨rfl, hpos, ?_, fun i => ?_⟩
  · have hordinal := hcourse.ordinal_eq
    rw [hcourse.observed_eq, List.length_map]
    exact hordinal.trans (Nat.zero_add _)
  · have hstart : 0 + 0 = 0 * interval := (Nat.zero_mul interval).symm
    have hget := getElem?_filterMap_checkpointAt hnum hstart hpos i
    rw [Nat.zero_add] at hget
    refine hget.trans ?_
    rcases ho : ((Session.new table clock).run source).observed.toList[i * interval]? with _ | o
    · rfl
    · rw [Option.map_some, Option.map_some, checkpointOf, hnum _ o ho, Nat.zero_add]

namespace Spaced

variable {index : Index} {interval : Nat} {observed : List Observation}

theorem ordinal_eq (h : index.Spaced interval observed) {i : Nat} {c : Checkpoint}
    (hc : index.checkpoints[i]? = some c) : c.ordinal = i * interval := by
  rw [h.getElem?_eq, Option.map_eq_some_iff] at hc
  obtain ⟨o, -, rfl⟩ := hc
  rfl

theorem lt_length_iff (h : index.Spaced interval observed) {i : Nat} :
    i < index.checkpoints.length ↔ i * interval < index.totalRecords := by
  rw [← not_iff_not, Nat.not_lt, Nat.not_lt, h.totalRecords_eq, ← List.getElem?_eq_none_iff,
    ← List.getElem?_eq_none_iff, h.getElem?_eq, Option.map_eq_none_iff]

theorem length_eq (h : index.Spaced interval observed) :
    index.checkpoints.length = (index.totalRecords + interval - 1) / interval := by
  refine eq_of_forall_lt_iff fun i => ?_
  have hpos := h.pos
  rw [h.lt_length_iff, Nat.lt_iff_add_one_le, Nat.lt_iff_add_one_le, Nat.le_div_iff_mul_le hpos,
    Nat.succ_mul]
  omega

theorem pairwise (h : index.Spaced interval observed) :
    index.checkpoints.Pairwise fun c c' => c.ordinal < c'.ordinal := by
  refine List.pairwise_iff_getElem.2 fun i j hi hj hij => ?_
  rw [h.ordinal_eq (List.getElem?_eq_getElem hi), h.ordinal_eq (List.getElem?_eq_getElem hj)]
  exact Nat.mul_lt_mul_of_pos_right hij h.pos

theorem pairwise_le (h : index.Spaced interval observed) (ordinal : Nat) :
    index.checkpoints.Pairwise fun c c' =>
      decide (c'.ordinal ≤ ordinal) = true → decide (c.ordinal ≤ ordinal) = true := by
  refine h.pairwise.imp fun hlt hle => ?_
  rw [decide_eq_true_eq] at hle ⊢
  exact hlt.le.trans hle

theorem checkpointBefore_eq (h : index.Spaced interval observed) (ordinal : Nat) :
    index.checkpointBefore ordinal =
      index.checkpoints[min (ordinal / interval) (index.checkpoints.length - 1)]? := by
  have hsorted := h.pairwise_le ordinal
  -- an element is before the border if its multiple of the interval is in reach
  have hborder : ∀ i : Nat, i < partitionPoint (·.ordinal ≤ ordinal) index.checkpoints ↔
      i < index.checkpoints.length ∧ i ≤ ordinal / interval := by
    intro i
    rw [lt_partitionPoint_iff hsorted, Nat.le_div_iff_mul_le h.pos]
    constructor
    · rintro ⟨c, hc, hle⟩
      rw [decide_eq_true_eq, h.ordinal_eq hc] at hle
      exact ⟨(List.getElem?_eq_some_iff.1 hc).1, hle⟩
    · rintro ⟨hlt, hle⟩
      have hc := List.getElem?_eq_getElem hlt
      exact ⟨_, hc, by rwa [decide_eq_true_eq, h.ordinal_eq hc]⟩
  unfold checkpointBefore
  generalize ordinal / interval = turn at hborder ⊢
  split
  · next hn =>
    have hempty := hborder 0
    rw [hn] at hempty
    have hlen : index.checkpoints.length = 0 := by omega
    rw [List.getElem?_eq_none (by omega)]
  · next n hn =>
    have hlast := hborder n
    have hnext := hborder (n + 1)
    rw [hn] at hlast hnext
    have hmin : min turn (index.checkpoints.length - 1) = n := by omega
    rw [hmin]

theorem checkpointBefore_eq_getLast? (h : index.Spaced interval observed) (ordinal : Nat) :
    index.checkpointBefore ordinal =
      (index.checkpoints.filter (·.ordinal ≤ ordinal)).getLast? := by
  have hsorted := h.pairwise_le ordinal
  rw [(filter_eq_take_countP hsorted).1, ← partitionPoint_eq_countP hsorted]
  unfold checkpointBefore
  split
  · next hn => rw [hn, List.take_zero, List.getLast?_nil]
  · next n hn =>
    have hle : n.succ ≤ index.checkpoints.length := by
      rw [← hn, partitionPoint_eq_countP hsorted]
      exact List.countP_le_length
    rw [hn, List.getLast?_eq_getElem?, List.length_take, Nat.min_eq_left hle,
      Nat.succ_sub_one, List.getElem?_take_of_lt (Nat.lt_succ_self n)]

theorem checkpointBefore_eq_none_iff (h : index.Spaced interval observed) (ordinal : Nat) :
    index.checkpointBefore ordinal = none ↔ index.checkpoints = [] := by
  rw [h.checkpointBefore_eq, List.getElem?_eq_none_iff, ← List.length_eq_zero_iff]
  generalize ordinal / interval = turn
  omega

/-- No other checkpoint is nearer. -/
theorem le_checkpointBefore (h : index.Spaced interval observed) {ordinal : Nat} {c : Checkpoint}
    (hc : index.checkpointBefore ordinal = some c) :
    ∀ c' ∈ index.checkpoints, c'.ordinal ≤ ordinal → c'.ordinal ≤ c.ordinal := by
  intro c' hmem hle
  rw [h.checkpointBefore_eq] at hc
  obtain ⟨i, hi⟩ := List.mem_iff_getElem?.1 hmem
  have hlt := (List.getElem?_eq_some_iff.1 hi).1
  rw [h.ordinal_eq hi] at hle ⊢
  rw [h.ordinal_eq hc]
  refine Nat.mul_le_mul_right interval (Nat.le_min.2 ⟨?_, Nat.le_sub_one_of_lt hlt⟩)
  exact (Nat.le_div_iff_mul_le h.pos).2 hle

theorem checkpointsFrom_eq (h : index.Spaced interval observed) (ordinal count : Nat) :
    index.checkpointsFrom ordinal count =
      (index.checkpoints.filter (ordinal ≤ ·.ordinal)).take count := by
  have hsorted : index.checkpoints.Pairwise fun c c' =>
      decide (c'.ordinal < ordinal) = true → decide (c.ordinal < ordinal) = true := by
    refine h.pairwise.imp fun hlt hle => ?_
    rw [decide_eq_true_eq] at hle ⊢
    exact hlt.trans hle
  have hfilter : index.checkpoints.filter (ordinal ≤ ·.ordinal) =
      index.checkpoints.filter fun c => !decide (c.ordinal < ordinal) :=
    List.filter_congr fun c _ => by rw [← decide_not, decide_eq_decide, Nat.not_lt]
  rw [checkpointsFrom, partitionPoint_eq_countP hsorted, hfilter, (filter_eq_take_countP hsorted).2]

/-- What a request for checkpoints is answered. -/
theorem handle_get (h : index.Spaced interval observed) (s : Service)
    (hs : s.reader.index = index) {start count : Nat} (hstart : start < UInt64.size)
    (hcount : count ≤ Service.maxSpan) :
    s.handle (.get "/index" [("from", start), ("count", count)]) =
      (.ok (Json.struct [
        ("checkpointInterval", Json.nat interval),
        ("total", Json.nat index.checkpoints.length),
        ("entries", Json.list Checkpoint.toJson
          ((index.checkpoints.filter (start ≤ ·.ordinal)).take count))]), s) := by
  have hplain : ∀ p ∈ [("from", start), ("count", count)],
      Service.Query.isPlainText p.1 = true := by
    have hfrom : Service.Query.isPlainText "from" = true := by decide +kernel
    have hcount : Service.Query.isPlainText "count" = true := by decide +kernel
    simp [hfrom, hcount]
  have hroute : Service.Route.ofPath? "/index" = some .index := by decide +kernel
  have hnumbers : Service.Query.numbers ["from", "count"]
      (Service.Query.ofNumbers [("from", start), ("count", count)]) =
        .ok [("count", count), ("from", start)] := by
    refine Service.Query.numbers_ofNumbers hplain ?_ ?_ ?_
    · simp
    · simp
    · have hsize : Service.maxSpan < UInt64.size := by decide
      simp [hstart, Nat.lt_of_le_of_lt hcount hsize]
  rw [Service.handle_get s (by decide +kernel) (by decide +kernel) (by decide +kernel) hplain,
    hroute]
  have hfrom : [("count", count), ("from", start)].lookup "from" = some start := rfl
  have hlimit : [("count", count), ("from", start)].lookup "count" = some count := rfl
  simp [Service.answerIndex, hnumbers, Service.checkpoints, Nat.not_lt.2 hcount, hs, hfrom, hlimit,
    h.interval_eq, h.checkpointsFrom_eq]

end Spaced

/-- The shape of an index, and what is found in it, whatever was indexed. -/
theorem checkpoints_of_build {σ : Type} [Source σ] {table : Tag.Table} {clock : Clock.Config}
    {interval : Nat} {source : σ} {index : Index}
    (h : (build table clock interval source).1 = .ok index) :
    let observed := ((Session.new table clock).run source).observed.toList
    let records := observed.map Observation.record
    index.totalRecords = observed.length ∧
    index.checkpoints.length = (index.totalRecords + interval - 1) / interval ∧
    (∀ (n : Nat) (o : Observation), observed[n]? = some o →
      o.record.ordinal = n ∧ o.before = (clock.timeline {} (records.take n)).state) ∧
    (∀ i : Nat, index.checkpoints[i]? =
      observed[i * interval]?.map fun o => ⟨i * interval, o.record.offset, o.before⟩) ∧
    (∀ ordinal : Nat,
      index.checkpointBefore ordinal =
        (index.checkpoints.filter (·.ordinal ≤ ordinal)).getLast? ∧
      index.checkpointBefore ordinal =
        index.checkpoints[min (ordinal / interval) (index.checkpoints.length - 1)]? ∧
      (index.checkpointBefore ordinal = none ↔ index.checkpoints = []) ∧
      ∀ c, index.checkpointBefore ordinal = some c → c.ordinal ≤ ordinal ∧
        ∀ c' ∈ index.checkpoints, c'.ordinal ≤ ordinal → c'.ordinal ≤ c.ordinal) ∧
    ∀ (s : Service) (start count : Nat), s.reader.index = index → start < UInt64.size →
      count ≤ Service.maxSpan →
        s.handle (.get "/index" [("from", start), ("count", count)]) =
          (.ok (Json.struct [
            ("checkpointInterval", Json.nat interval),
            ("total", Json.nat index.checkpoints.length),
            ("entries", Json.list Checkpoint.toJson
              ((index.checkpoints.filter (start ≤ ·.ordinal)).take count))]), s) := by
  intro observed records
  have hspaced := spaced_of_build h
  refine ⟨hspaced.totalRecords_eq, hspaced.length_eq, fun n o ho => ?_, hspaced.getElem?_eq,
    fun ordinal => ?_, fun s start count hs hstart hcount => ?_⟩
  · exact ⟨(Session.ordinal_observed _ source n o ho).trans (Nat.zero_add n),
      Session.before_observed source rfl ho⟩
  · exact ⟨hspaced.checkpointBefore_eq_getLast? ordinal, hspaced.checkpointBefore_eq ordinal,
      hspaced.checkpointBefore_eq_none_iff ordinal,
      fun c hc => ⟨(checkpointBefore_eq_some hc).2, hspaced.le_checkpointBefore hc⟩⟩
  · exact hspaced.handle_get s hs hstart hcount

/-- A checkpoint at every other record; one between two of them, past the last one and past the end
of the stream. -/
theorem checkpoints_of_build_every_other :
    let source := Memory.plain [1, 5, 0, 18, 7, 1, 9, 0, 1, 8, 0, 1, 6, 0]
    let index := ofRun 2 14 ((Session.new Tag.Table.standard {}).run source)
    let s : Service :=
      ⟨"a.bin", { index, table := Tag.Table.standard, clock := {}, cache := .new 4 }, .directory⟩
    (build Tag.Table.standard {} 2 source).1 = .ok index ∧
      index.checkpoints.length = 3 ∧
      index.checkpointBefore 3 = index.checkpoints[1]? ∧
      index.checkpointBefore 1000 = index.checkpoints[2]? ∧
      s.handle (.get "/index" [("from", 3), ("count", 1)]) =
        (.ok (Json.struct [
          ("checkpointInterval", Json.nat 2),
          ("total", Json.nat 3),
          ("entries",
            Json.list Checkpoint.toJson [⟨4, 11, ⟨9, 8001, 0, true, false, 1⟩⟩])]), s) := by
  intro source index s
  have hindex : (build Tag.Table.standard {} 2 source).1 = .ok index := by decide +kernel
  have hlength : index.checkpoints.length = 3 := by decide +kernel
  have hfound : (index.checkpoints.filter (3 ≤ ·.ordinal)).take 1 =
      [⟨4, 11, ⟨9, 8001, 0, true, false, 1⟩⟩] := by decide +kernel
  obtain ⟨-, -, -, -, hbefore, hrequest⟩ := checkpoints_of_build hindex
  have hinside := (hbefore 3).2.1
  have hbeyond := (hbefore 1000).2.1
  have hanswer := hrequest s 3 1 rfl (by decide) (by decide)
  rw [hlength] at hinside hbeyond hanswer
  rw [hfound] at hanswer
  exact ⟨hindex, hlength, hinside, hbeyond, hanswer⟩

end Index

end Telemetry
