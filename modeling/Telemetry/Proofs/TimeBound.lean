import Telemetry.Proofs.Consumption
import Telemetry.Proofs.RandomAccess
import Telemetry.Proofs.TrueTime

/-!
# How far the clock gets

A record moves the clock by no more than a turn of the counter, or by one nanosecond, so after some
number of records the clock has not gone further than as many strides (`Advances.reached`).  There
are no more records than bytes; where that many strides fit a word, nothing overflows and every
time that is given lies within them (`timeline_reached`).
-/

namespace Telemetry

namespace Clock

/-- The most that a record moves the clock. -/
def Config.stride (c : Config) : Nat :=
  65535 * c.tickNs + 1

/-- The clock is where some number of records may have brought it. -/
structure State.Reached (s : State) (c : Config) (count : Nat) : Prop where
  now_le : s.now ≤ count * c.stride
  floor_le : s.floor ≤ s.now
  untimed_le : s.untimed ≤ count

theorem State.reached_start (c : Config) : State.Reached {} c 0 :=
  ⟨Nat.zero_le _, Nat.le_refl _, Nat.le_refl _⟩

namespace Config

variable {c : Config} {s : State} {count : Nat}

theorem State.ahead_le (s : State) (raw : UInt16) : s.ahead raw ≤ 65535 :=
  Nat.le_of_lt_succ (raw - s.lastRaw).toNat_lt

/-- There is a place for every record. -/
theorem exists_advances (c : Config) (s : State) (raw? : Option UInt16) :
    ∃ a, c.Advances s raw? a := by
  rcases raw? with _ | raw
  · exact ⟨_, .untimed⟩
  rcases hs : s.anchored with _ | _
  · exact ⟨_, .first hs⟩
  rcases Nat.lt_or_ge (s.ahead raw) (period / 2) with hahead | hahead
  · exact ⟨_, .forward hs hahead⟩
  rcases Nat.lt_or_ge c.window.toNat (period - s.ahead raw) with hback | hback
  · exact ⟨_, .ambiguous hs hahead hback⟩
  rcases hswap : s.swappable with _ | _
  · exact ⟨_, .clamped hs hahead hback hswap⟩
  · exact ⟨_, .swap hs hahead hback hswap⟩

theorem stride_succ (c : Config) (count : Nat) :
    (count + 1) * c.stride = count * c.stride + 65535 * c.tickNs + 1 :=
  Nat.succ_mul count c.stride

theorem reached_anchor {raw : UInt16} {ns : Nat} {order : Order} (hle : s.now ≤ ns)
    (hns : ns ≤ (count + 1) * c.stride) : (s.anchor raw ns order).state.Reached c (count + 1) :=
  ⟨hns, hle, Nat.zero_le _⟩

theorem reached_stay (hs : s.Reached c count) :
    { s with swappable := false }.Reached c (count + 1) := by
  have hsum := c.stride_succ count
  obtain ⟨hnow, hfloor, huntimed⟩ := hs
  exact ⟨Nat.le_trans hnow (by omega), hfloor, Nat.le_succ_of_le huntimed⟩

/-- A record takes the clock one stride further at most. -/
theorem Advances.reached {raw? : Option UInt16} {a : Advance} (h : c.Advances s raw? a)
    (hs : s.Reached c count) :
    a.state.Reached c (count + 1) ∧ a.ns ≤ (count + 1) * c.stride := by
  obtain ⟨hnow, hfloor, huntimed⟩ := id hs
  have hsum := c.stride_succ count
  have hmove : ∀ raw, s.now + s.ahead raw * c.tickNs ≤ (count + 1) * c.stride := by
    intro raw
    have := Nat.mul_le_mul_right c.tickNs (State.ahead_le s raw)
    omega
  cases h with
  | untimed =>
    have hnext : s.now + 1 ≤ (count + 1) * c.stride := by omega
    exact ⟨⟨hnext, Nat.le_succ_of_le hfloor, Nat.succ_le_succ huntimed⟩, hnext⟩
  | first =>
    have hstay : s.now ≤ (count + 1) * c.stride := by omega
    exact ⟨reached_anchor (Nat.le_refl _) hstay, hstay⟩
  | @forward raw | @ambiguous raw =>
    exact ⟨reached_anchor (Nat.le_add_right _ _) (hmove raw), hmove raw⟩
  | swap =>
    refine ⟨reached_stay hs, Nat.max_le.2 ⟨?_, ?_⟩⟩
    · exact Nat.le_trans (Nat.sub_le _ _) (by omega)
    · omega
  | clamped =>
    refine ⟨reached_stay hs, ?_⟩
    change s.now ≤ _
    omega

/-- Nothing overflows where one more stride fits a word. -/
theorem exists_advance (hs : s.Reached c count) (hfit : (count + 1) * c.stride < Word.size)
    (raw? : Option UInt16) : ∃ a, c.advance s raw? = .ok a := by
  obtain ⟨a, ha⟩ := c.exists_advances s raw?
  obtain ⟨⟨hnow, -, huntimed⟩, -⟩ := ha.reached hs
  have hcount : count + 1 ≤ (count + 1) * c.stride :=
    Nat.le_mul_of_pos_right _ (Nat.succ_pos _)
  refine ⟨a, ha.advance_eq (by omega) (by omega) fun raw hraw hswap => ?_⟩
  subst hraw
  cases ha with
  | swap _ hahead =>
    -- the lag is less than half a turn
    have hback : period - s.ahead raw ≤ 65535 := by
      rw [period] at hahead ⊢
      omega
    have := Nat.mul_le_mul_right c.tickNs hback
    have := c.stride_succ count
    omega
  | _ => simp [Order.isSwap, State.anchor] at hswap

/-- Where as many strides as there are records fit a word, the clock takes in all of them, and what
it gives lies within these strides. -/
theorem timeline_reached {rs : List Record} (hs : s.Reached c count)
    (hordinal : ∀ r ∈ rs, r.ordinal + 1 < Word.size)
    (hfit : (count + rs.length) * c.stride < Word.size) :
    (c.timeline s rs).fault = none ∧ ∀ item ∈ (c.timeline s rs).items,
      item.before.now ≤ (count + rs.length) * c.stride ∧
        item.advance.ns ≤ (count + rs.length) * c.stride := by
  induction rs generalizing s count with
  | nil => exact ⟨rfl, fun item h => by simp [timeline] at h⟩
  | cons r rs ih =>
    obtain ⟨hr, hrs⟩ := List.forall_mem_cons.1 hordinal
    have hsplit : count + (r :: rs).length = count + 1 + rs.length := by
      rw [List.length_cons]
      omega
    rw [hsplit] at hfit ⊢
    have hle : (count + 1) * c.stride ≤ (count + 1 + rs.length) * c.stride :=
      Nat.mul_le_mul_right _ (Nat.le_add_right _ _)
    obtain ⟨a, ha⟩ := exists_advance hs (Nat.lt_of_le_of_lt hle hfit) r.rawTicks
    have henter : c.enter s r = .ok a := by
      have hadd : Word.add r.ordinal 1 = .ok (r.ordinal + 1) := Word.add_eq_ok_iff.2 ⟨hr, rfl⟩
      rw [enter, hadd]
      exact ha
    obtain ⟨hreached, hns⟩ := (enter_advances henter).reached hs
    obtain ⟨hfault, hitems⟩ := ih hreached hrs hfit
    rw [timeline_of_ok henter]
    refine ⟨hfault, fun item hitem => ?_⟩
    rcases List.mem_cons.1 hitem with rfl | hitem
    · refine ⟨Nat.le_trans hs.now_le (Nat.mul_le_mul_right _ ?_), Nat.le_trans hns hle⟩
      omega
    · exact hitems item hitem

end Config

end Clock

section Stream

variable {table : Tag.Table} {clock : Clock.Config} {data : Bytes}

namespace Session

theorem length_lt_of_fits (hfit : data.length * clock.stride < Word.size) :
    data.length < Word.size :=
  Nat.lt_of_le_of_lt (Nat.le_mul_of_pos_right _ (Nat.succ_pos _)) hfit

theorem ordinal_lt_of_mem_toParse (hlen : data.length < Word.size) :
    ∀ r ∈ ((new table clock).toParse data).records, r.ordinal + 1 < Word.size := by
  intro r hr
  obtain ⟨i, hi⟩ := List.mem_iff_getElem?.1 hr
  have hlt := (List.getElem?_eq_some_iff.1 hi).1
  have hcount := length_records_toParse_le (s := new table clock) rfl data
  have hsound := (within_new table clock data 0).sound
  have hrest : data.drop 0 = data.drop 0 := rfl
  have hordinal := (Record.Parser.parse_drop none { table } _ 0 0 hsound hrest
    (by simpa using hlen) rfl hi).1
  omega

/-- No overflow is ahead of a session over such data. -/
theorem toClock_reached (hfit : data.length * clock.stride < Word.size) :
    ((new table clock).toClock data).fault = none ∧
      ∀ item ∈ ((new table clock).toClock data).items,
        item.before.now ≤ data.length * clock.stride ∧
          item.advance.ns ≤ data.length * clock.stride := by
  have hcount : ((new table clock).toParse data).records.length ≤ data.length :=
    length_records_toParse_le rfl data
  have hle : (0 + ((new table clock).toParse data).records.length) * clock.stride ≤
      data.length * clock.stride := by
    rw [Nat.zero_add]
    exact Nat.mul_le_mul_right _ hcount
  have hordinal : ∀ r ∈ ((new table clock).toParse data).records, r.ordinal + 1 < Word.size :=
    ordinal_lt_of_mem_toParse (length_lt_of_fits hfit)
  obtain ⟨hfault, hitems⟩ := Clock.Config.timeline_reached (Clock.State.reached_start clock)
    hordinal (Nat.lt_of_le_of_lt hle hfit)
  refine ⟨hfault, fun item hitem => ?_⟩
  obtain ⟨hnow, hns⟩ := hitems item hitem
  exact ⟨Nat.le_trans hnow hle, Nat.le_trans hns hle⟩

theorem ns_le_of_mem_toEmit (hfit : data.length * clock.stride < Word.size) :
    ∀ t ∈ (new table clock).toEmit data, t.ns ≤ data.length * clock.stride := by
  intro t ht
  have hmem := (Queue.emission_perm _ _).mem_iff.1 ht
  obtain ⟨item, hitem, rfl⟩ := List.mem_map.1 hmem
  exact ((toClock_reached hfit).2 item hitem).2

variable {start : Start}

/-- A resumed session has part of the records of a full one ahead of it. -/
theorem toClock_resume (h : start.Resumes table clock data) (limit : Option Nat) :
    let s : Session := { resume table clock start with limit }
    (s.toClock data).fault = none ∧
      (s.toClock data).items ⊆ ((new table clock).toClock data).items := by
  rcases limit with _ | limit
  · change ((resume table clock start).toClock data).fault = none ∧
      ((resume table clock start).toClock data).items ⊆ _
    rw [h.clock_eq]
    exact ⟨rfl, List.drop_subset _ _⟩
  · obtain ⟨hfault, hitems⟩ := toClock_withLimit h limit
    refine ⟨hfault, fun item hitem => ?_⟩
    change item ∈ (((resume table clock start).withLimit limit).toClock data).items at hitem
    rw [hitems] at hitem
    exact List.drop_subset _ _ (List.take_subset _ _ hitem)

variable {σ : Type} [Source σ] {source : σ} {last : Nat}

theorem proceeds_resume (h : start.Resumes table clock data) (hlen : data.length ≤ last)
    (limit : Option Nat) : { resume table clock start with limit }.Proceeds data last := by
  have hw := within_resume table clock (h.offset_le.trans hlen) data
  exact fun _ => ⟨⟨hw.shows, hw.offset_le, hw.sound⟩, (toClock_resume h limit).1⟩

/-- A resumed session does not fail, and no time that it tells is out of bounds. -/
theorem run_reached (h : start.Resumes table clock data) (hs : Source.Delivers source data last)
    (hfit : data.length * clock.stride < Word.size) (limit : Option Nat) :
    let run := { resume table clock start with limit }.run source
    run.fault = none ∧ (∀ t ∈ run.emitted.toList, t.ns ≤ data.length * clock.stride) ∧
      ∀ o ∈ run.observed.toList, o.before.now ≤ data.length * clock.stride := by
  intro run
  obtain ⟨hwithin, hline⟩ := proceeds_resume h hs.length_le limit rfl
  have hcovers := covers_of_delivers hwithin hs rfl
  obtain ⟨hfault, hsummary⟩ := summary_of_covers hcovers rfl hline
  have hsubset := (toClock_resume h limit).2
  refine ⟨hfault, fun t ht => ?_, fun o ho => ?_⟩
  · have hemitted : run.emitted.toList = _ := congrArg Summary.emitted hsummary
    rw [hemitted] at ht
    obtain ⟨item, hitem, rfl⟩ := List.mem_map.1 ((Queue.emission_perm _ _).mem_iff.1 ht)
    exact ((toClock_reached hfit).2 item (hsubset hitem)).2
  · have hobserved : run.observed.toList = _ := congrArg Summary.observed hsummary
    rw [hobserved] at ho
    obtain ⟨item, hitem, rfl⟩ := List.mem_map.1 ho
    exact ((toClock_reached hfit).2 item (hsubset hitem)).1

end Session

variable {σ : Type} [Source σ] {source : σ} {last : Nat}

/-- An index is built over such data. -/
theorem Index.exists_build (hs : Source.Holds source data last)
    (hfit : data.length * clock.stride < Word.size) {interval : Nat} (hinterval : 1 ≤ interval) :
    ∃ index, (build table clock interval source).1 = .ok index := by
  have hw := Session.within_new table clock data last
  have hcovers := Session.covers_of_delivers hw hs.toDelivers rfl
  have hfault := hcovers.fault_eq
  rw [(Session.toClock_reached hfit).1] at hfault
  unfold build
  rw [if_neg (by omega), hs.count_eq source .refl]
  dsimp only
  rw [hfault]
  exact ⟨_, rfl⟩

end Stream

end Telemetry
