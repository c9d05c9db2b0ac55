import Mathlib.Data.List.Chain
import Telemetry.Session

/-!
# The clock over many records

`Clock.Config.timeline` lets the clock take in one record after the other.  A timeline without a
fault can be cut anywhere: what comes after a record depends on the state before it only
(`timeline_drop`), and what comes before it on the earlier records only (`timeline_take`).

A record is swapped with the previous one only right after a record that moved the clock, so no
two swaps are adjacent, and the first record of a stream is none (`swap_timeline`).
-/

namespace Telemetry

/-- A record, the state before it and what the clock makes of it. -/
structure Clocked where
  record : Record
  before : Clock.State
  advance : Clock.Advance

namespace Clocked

def observation (c : Clocked) : Observation :=
  ⟨c.record, c.before⟩

def timed (c : Clocked) : Timed :=
  ⟨c.record, c.advance.ns, c.advance.order⟩

end Clocked

namespace Clock

/-- The record is emitted before the previous one. -/
def Order.isSwap : Order → Bool
  | swapWithPrevious _ => true
  | _ => false

/-- A stamp that is placed so is one that the clock moves to. -/
def Order.isMove : Order → Bool
  | inOrder => true
  | ambiguous _ => true
  | _ => false

theorem Order.eq_of_isMove {o : Order} (h : o.isMove = true) :
    o = .inOrder ∨ ∃ ticks, o = .ambiguous ticks := by
  cases o <;> simp_all [isMove]

namespace Config

/-- What a record with the stamp, if it has one, makes of the state. -/
inductive Advances (c : Config) (s : State) : Option UInt16 → Advance → Prop where
  | untimed : Advances c s none
      ⟨{ s with now := s.now + 1, untimed := s.untimed + 1, swappable := false }, s.now + 1,
        .inOrder⟩
  | first {raw : UInt16} (hs : s.anchored = false) :
    Advances c s (some raw) (s.anchor raw s.now .inOrder)
  | forward {raw : UInt16} (hs : s.anchored = true) (hahead : s.ahead raw < period / 2) :
    Advances c s (some raw) (s.anchor raw (s.now + s.ahead raw * c.tickNs) .inOrder)
  | ambiguous {raw : UInt16} (hs : s.anchored = true) (hahead : period / 2 ≤ s.ahead raw)
      (hback : c.window.toNat < period - s.ahead raw) :
    Advances c s (some raw) (s.anchor raw (s.now + s.ahead raw * c.tickNs)
      (.ambiguous (UInt16.ofNat (period - s.ahead raw))))
  | swap {raw : UInt16} (hs : s.anchored = true) (hahead : period / 2 ≤ s.ahead raw)
      (hback : period - s.ahead raw ≤ c.window.toNat) (hswap : s.swappable = true) :
    Advances c s (some raw) ⟨{ s with swappable := false },
      max (s.now - (period - s.ahead raw) * c.tickNs) s.floor,
      .swapWithPrevious (UInt16.ofNat (period - s.ahead raw))⟩
  | clamped {raw : UInt16} (hs : s.anchored = true) (hahead : period / 2 ≤ s.ahead raw)
      (hback : period - s.ahead raw ≤ c.window.toNat) (hswap : s.swappable = false) :
    Advances c s (some raw) ⟨{ s with swappable := false }, s.now,
      .clamped (UInt16.ofNat (period - s.ahead raw))⟩

theorem forward_eq_ok {c : Config} {s : State} {ticks ns : Nat}
    (h : c.forward s ticks = .ok ns) : ns = s.now + ticks * c.tickNs := by
  simp only [forward, bind, Except.bind] at h
  split at h
  · simp at h
  · next m hm =>
    obtain ⟨-, rfl⟩ := Word.mul_eq_ok_iff.1 hm
    exact (Word.add_eq_ok_iff.1 h).2

theorem backward_eq_ok {c : Config} {s : State} {ticks ns : Nat}
    (h : c.backward s ticks = .ok ns) : ns = max (s.now - ticks * c.tickNs) s.floor := by
  simp only [backward, bind, Except.bind, pure, Except.pure] at h
  split at h
  · simp at h
  · next m hm =>
    obtain ⟨-, rfl⟩ := Word.mul_eq_ok_iff.1 hm
    exact (Except.ok.inj h).symm

theorem untimedStep_eq_ok {s : State} {a : Advance} (h : s.untimedStep = .ok a) :
    a = ⟨{ s with now := s.now + 1, untimed := s.untimed + 1, swappable := false }, s.now + 1,
      .inOrder⟩ := by
  simp only [State.untimedStep, bind, Except.bind, pure, Except.pure] at h
  split at h
  · simp at h
  · next ns hns =>
    split at h
    · simp at h
    · next untimed hu =>
      rw [(Word.add_eq_ok_iff.1 hns).2, (Word.add_eq_ok_iff.1 hu).2] at h
      exact (Except.ok.inj h).symm

theorem timedStep_advances {c : Config} {s : State} {raw : UInt16} {a : Advance}
    (h : c.timedStep s raw = .ok a) : c.Advances s (some raw) a := by
  simp only [timedStep, lateStep, bind, Except.bind, pure, Except.pure] at h
  split_ifs at h with hs hahead hback hswap
  · split at h
    · simp at h
    · next ns hns =>
      rw [← Except.ok.inj h, forward_eq_ok hns]
      exact .forward hs hahead
  · split at h
    · simp at h
    · next ns hns =>
      rw [← Except.ok.inj h, forward_eq_ok hns]
      exact .ambiguous hs (Nat.not_lt.1 hahead) hback
  · split at h
    · simp at h
    · next ns hns =>
      rw [← Except.ok.inj h, backward_eq_ok hns]
      exact .swap hs (Nat.not_lt.1 hahead) (Nat.not_lt.1 hback) hswap
  · rw [← Except.ok.inj h]
    exact .clamped hs (Nat.not_lt.1 hahead) (Nat.not_lt.1 hback) (by simpa using hswap)
  · rw [← Except.ok.inj h]
    exact .first (by simpa using hs)

theorem advance_advances {c : Config} {s : State} {raw? : Option UInt16} {a : Advance}
    (h : c.advance s raw? = .ok a) : c.Advances s raw? a := by
  rcases raw? with _ | raw
  · rw [untimedStep_eq_ok h]
    exact .untimed
  · exact timedStep_advances h

theorem Advances.swappable_of_isSwap {c : Config} {s : State} {raw? : Option UInt16}
    {a : Advance} (h : c.Advances s raw? a) (ha : a.order.isSwap = true) :
    s.swappable = true := by
  cases h with
  | swap _ _ _ hswap => exact hswap
  | _ => simp [Order.isSwap, State.anchor] at ha

/-- A swap is possible right after the clock moved to a stamp, and only then. -/
theorem Advances.swappable_iff {c : Config} {s : State} {raw? : Option UInt16} {a : Advance}
    (h : c.Advances s raw? a) :
    a.state.swappable = true ↔ raw?.isSome = true ∧ a.order.isMove = true := by
  cases h <;> simp [Order.isMove, State.anchor]

theorem Advances.not_isSwap_of_swappable {c : Config} {s : State} {raw? : Option UInt16}
    {a : Advance} (h : c.Advances s raw? a) (ha : a.state.swappable = true) :
    a.order.isSwap = false := by
  cases h <;> simp_all [Order.isSwap, State.anchor]

end Config

/-- What the clock makes of the records of a stream. -/
structure Timeline where
  items : List Clocked
  /-- The state after the last item. -/
  state : State
  /-- Why the next record is no item. -/
  fault : Option Overflow

namespace Config

/-- Takes in one record. -/
def enter (c : Config) (s : State) (r : Record) : Except Overflow Advance := do
  let _ ← Word.add r.ordinal 1
  c.advance s r.rawTicks

def timeline (c : Config) (s : State) : List Record → Timeline
  | [] => ⟨[], s, none⟩
  | r :: rs =>
    match c.enter s r with
    | .error o => ⟨[], s, some o⟩
    | .ok a =>
      let rest := c.timeline a.state rs
      { rest with items := ⟨r, s, a⟩ :: rest.items }

theorem timeline_of_ok {c : Config} {s : State} {r : Record} {a : Advance}
    (h : c.enter s r = .ok a) (rs : List Record) :
    c.timeline s (r :: rs) =
      ⟨⟨r, s, a⟩ :: (c.timeline a.state rs).items, (c.timeline a.state rs).state,
        (c.timeline a.state rs).fault⟩ := by
  rw [timeline, h]

theorem timeline_of_error {c : Config} {s : State} {r : Record} {o : Overflow}
    (h : c.enter s r = .error o) (rs : List Record) :
    c.timeline s (r :: rs) = ⟨[], s, some o⟩ := by
  rw [timeline, h]

theorem records_timeline (c : Config) : ∀ (s : State) (rs : List Record),
    (c.timeline s rs).fault = none → (c.timeline s rs).items.map Clocked.record = rs
  | _, [], _ => rfl
  | s, r :: rs, h => by
    rcases ha : c.enter s r with o | a
    · rw [timeline_of_error ha] at h
      simp at h
    · rw [timeline_of_ok ha] at h ⊢
      rw [List.map_cons, records_timeline c a.state rs h]

/-- The timeline from the state before an item on is that item and the later ones. -/
theorem timeline_drop (c : Config) : ∀ (s : State) (rs : List Record),
    (c.timeline s rs).fault = none → ∀ {i : Nat} {item : Clocked},
      (c.timeline s rs).items[i]? = some item →
        c.timeline item.before (rs.drop i) =
          ⟨(c.timeline s rs).items.drop i, (c.timeline s rs).state, none⟩
  | _, [], _, _, _, hi => by simp [timeline] at hi
  | s, r :: rs, h, i, item, hi => by
    rcases ha : c.enter s r with o | a
    · rw [timeline_of_error ha] at h
      simp at h
    · rw [timeline_of_ok ha] at h hi ⊢
      rcases i with _ | i
      · simp only [List.getElem?_cons_zero, Option.some.injEq] at hi
        subst hi
        rw [List.drop_zero, timeline_of_ok ha]
        simp only [List.drop_zero, Timeline.mk.injEq, true_and]
        exact h
      · rw [List.getElem?_cons_succ] at hi
        exact timeline_drop c a.state rs h hi

theorem timeline_take (c : Config) : ∀ (s : State) (rs : List Record),
    (c.timeline s rs).fault = none → ∀ n : Nat,
      (c.timeline s (rs.take n)).fault = none ∧
        (c.timeline s (rs.take n)).items = (c.timeline s rs).items.take n
  | _, [], _, n => by simp [timeline]
  | s, r :: rs, h, n => by
    rcases ha : c.enter s r with o | a
    · rw [timeline_of_error ha] at h
      simp at h
    · rw [timeline_of_ok ha] at h ⊢
      rcases n with _ | n
      · simp [timeline]
      · obtain ⟨hfault, hitems⟩ := timeline_take c a.state rs h n
        rw [List.take_succ_cons, timeline_of_ok ha, List.take_succ_cons, hitems]
        exact ⟨hfault, rfl⟩

theorem timeline_append (c : Config) : ∀ (s : State) (rs more : List Record),
    (c.timeline s rs).fault = none → c.timeline s (rs ++ more) =
      { c.timeline (c.timeline s rs).state more with
        items := (c.timeline s rs).items ++ (c.timeline (c.timeline s rs).state more).items }
  | _, [], _, _ => rfl
  | s, r :: rs, more, h => by
    rcases ha : c.enter s r with o | a
    · rw [timeline_of_error ha] at h
      simp at h
    · rw [timeline_of_ok ha] at h
      rw [List.cons_append, timeline_of_ok ha, timeline_of_ok ha,
        timeline_append c a.state rs more h]
      rfl

theorem enter_congr {r r' : Record} (c : Config) (s : State) (hordinal : r'.ordinal = r.ordinal)
    (hticks : r'.rawTicks = r.rawTicks) : c.enter s r' = c.enter s r := by
  rw [enter, enter, hordinal, hticks]

/-- Another record in the place of one is given the same time, if it has the same stamp. -/
theorem timeline_replace (c : Config) : ∀ (s : State) (rs : List Record),
    (c.timeline s rs).fault = none → ∀ {k : Nat} {item : Clocked} (r' : Record),
      (c.timeline s rs).items[k]? = some item → r'.ordinal = item.record.ordinal →
        r'.rawTicks = item.record.rawTicks →
          (c.timeline s (rs.take k ++ [r'])).fault = none ∧
            (c.timeline s (rs.take k ++ [r'])).items =
              (c.timeline s rs).items.take k ++ [{ item with record := r' }]
  | _, [], _, _, _, _, hitem, _, _ => by simp [timeline] at hitem
  | s, r :: rs, h, k, item, r', hitem, hordinal, hticks => by
    rcases ha : c.enter s r with o | a
    · rw [timeline_of_error ha] at h
      simp at h
    · rw [timeline_of_ok ha] at h hitem ⊢
      rcases k with _ | k
      · rw [List.getElem?_cons_zero] at hitem
        cases hitem
        have ha' : c.enter s r' = .ok a := (enter_congr c s hordinal hticks).trans ha
        rw [List.take_zero, List.nil_append, timeline_of_ok ha']
        exact ⟨rfl, rfl⟩
      · rw [List.getElem?_cons_succ] at hitem
        obtain ⟨hfault, hitems⟩ := timeline_replace c a.state rs h r' hitem hordinal hticks
        rw [List.take_succ_cons, List.cons_append, timeline_of_ok ha, List.take_succ_cons, hitems]
        exact ⟨hfault, rfl⟩

theorem items_timeline_prefix {c : Config} {s : State} {rs rs' : List Record} (h : rs <+: rs')
    (hfault : (c.timeline s rs).fault = none) :
    (c.timeline s rs).items <+: (c.timeline s rs').items := by
  obtain ⟨more, rfl⟩ := h
  rw [timeline_append c s rs more hfault]
  exact List.prefix_append _ _

theorem enter_advances {c : Config} {s : State} {r : Record} {a : Advance}
    (h : c.enter s r = .ok a) : c.Advances s r.rawTicks a := by
  simp only [enter, bind, Except.bind] at h
  split at h
  · simp at h
  · exact advance_advances h

theorem ordinal_lt_of_enter {c : Config} {s : State} {r : Record} {a : Advance}
    (h : c.enter s r = .ok a) : r.ordinal + 1 < Word.size := by
  simp only [enter, bind, Except.bind] at h
  split at h
  · simp at h
  · next hadd => exact (Word.add_eq_ok_iff.1 hadd).1

theorem before_head_timeline {c : Config} {s : State} {rs : List Record} {item : Clocked}
    (h : (c.timeline s rs).items.head? = some item) : item.before = s := by
  rcases rs with _ | ⟨r, rs⟩
  · simp [timeline] at h
  · rcases ha : c.enter s r with o | a
    · simp [timeline_of_error ha] at h
    · rw [timeline_of_ok ha] at h
      simp only [List.head?_cons, Option.some.injEq] at h
      rw [← h]

/-- The state before an item is the one after the earlier records. -/
theorem before_timeline {c : Config} {s : State} {rs : List Record}
    (h : (c.timeline s rs).fault = none) {n : Nat} {item : Clocked}
    (hitem : (c.timeline s rs).items[n]? = some item) :
    item.before = (c.timeline s (rs.take n)).state := by
  obtain ⟨hfault, hitems⟩ := timeline_take c s rs h n
  have hn : n < (c.timeline s rs).items.length := (List.getElem?_eq_some_iff.1 hitem).1
  have hsplit := congrArg Timeline.items (timeline_append c s (rs.take n) (rs.drop n) hfault)
  rw [List.take_append_drop, hitems] at hsplit
  rw [hsplit, List.getElem?_append_right (List.length_take_le _ _), List.length_take,
    Nat.min_eq_left hn.le, Nat.sub_self, ← List.head?_eq_getElem?] at hitem
  exact before_head_timeline hitem

theorem isChain_timeline (c : Config) : ∀ (s : State) (rs : List Record),
    (c.timeline s rs).items.IsChain fun x y => y.before = x.advance.state
  | _, [] => .nil
  | s, r :: rs => by
    rcases ha : c.enter s r with o | a
    · rw [timeline_of_error ha]
      exact .nil
    · rw [timeline_of_ok ha]
      refine List.isChain_cons.2 ⟨fun y hy => before_head_timeline hy, isChain_timeline c a.state rs⟩

theorem enter_of_mem_timeline (c : Config) : ∀ (s : State) (rs : List Record),
    ∀ item ∈ (c.timeline s rs).items, c.enter item.before item.record = .ok item.advance
  | _, [], item, h => by simp [timeline] at h
  | s, r :: rs, item, h => by
    rcases ha : c.enter s r with o | a
    · simp [timeline_of_error ha] at h
    · rw [timeline_of_ok ha] at h
      rcases List.mem_cons.1 h with rfl | h
      · exact ha
      · exact enter_of_mem_timeline c a.state rs item h

theorem advances_of_mem_timeline {c : Config} {s : State} {rs : List Record} {item : Clocked}
    (h : item ∈ (c.timeline s rs).items) :
    c.Advances item.before item.record.rawTicks item.advance :=
  enter_advances (enter_of_mem_timeline c s rs item h)

theorem ordinal_lt_of_mem_timeline {c : Config} {s : State} {rs : List Record} {item : Clocked}
    (h : item ∈ (c.timeline s rs).items) : item.record.ordinal + 1 < Word.size :=
  ordinal_lt_of_enter (enter_of_mem_timeline c s rs item h)

/-- A swap follows a record after which one is possible. -/
theorem swappable_timeline {c : Config} {s : State} {rs : List Record} (hs : s.swappable = false)
    {k : Nat} {item : Clocked} (hitem : (c.timeline s rs).items[k]? = some item)
    (hswap : item.advance.order.isSwap = true) :
    ∃ j prev, k = j + 1 ∧ (c.timeline s rs).items[j]? = some prev ∧
      prev.advance.state.swappable = true := by
  have hadvances := advances_of_mem_timeline (List.mem_of_getElem? hitem)
  have hswappable := hadvances.swappable_of_isSwap hswap
  rcases k with _ | j
  · rw [← List.head?_eq_getElem?] at hitem
    rw [before_head_timeline hitem, hs] at hswappable
    cases hswappable
  · obtain ⟨hlt, hget⟩ := List.getElem?_eq_some_iff.1 hitem
    have hbefore := List.isChain_iff_getElem.1 (isChain_timeline c s rs) j hlt
    rw [hget] at hbefore
    rw [hbefore] at hswappable
    exact ⟨j, _, rfl, List.getElem?_eq_getElem _, hswappable⟩

/-- A swap follows a record that is none. -/
theorem swap_timeline {c : Config} {s : State} {rs : List Record} (hs : s.swappable = false)
    {k : Nat} {item : Clocked} (hitem : (c.timeline s rs).items[k]? = some item)
    (hswap : item.advance.order.isSwap = true) :
    ∃ j prev, k = j + 1 ∧ (c.timeline s rs).items[j]? = some prev ∧
      prev.advance.order.isSwap = false := by
  obtain ⟨j, prev, hj, hprev, hswappable⟩ := swappable_timeline hs hitem hswap
  have hadvances := advances_of_mem_timeline (List.mem_of_getElem? hprev)
  exact ⟨j, prev, hj, hprev, hadvances.not_isSwap_of_swappable hswappable⟩

end Config

end Clock

end Telemetry
