import Telemetry.Proofs.ClockAccount

/-!
# Where the tick counter starts

A recorder may be switched on at any place of its counter.  If every stamp of a stream is turned by
the same number of ticks, the clock finds the same times and the same orders, and keeps the same
state but for the last stamp, which is turned as well (`advance_turn`): it only looks at how far a
stamp is ahead of the last one (`State.ahead_turn`), wherever the counter begins anew.  So the
corrections are the same, and the records come out in the same order (`turn_of_feed`).
-/

namespace Telemetry

namespace Clock

/-- The stamp of a counter that is `ticks` ahead. -/
def turned (ticks : Int) (raw : UInt16) : UInt16 :=
  UInt16.ofNat ((raw.toNat + ticks) % period).toNat

theorem toNat_turned (ticks : Int) (raw : UInt16) :
    ((turned ticks raw).toNat : Int) = (raw.toNat + ticks) % period := by
  simp only [turned, UInt16.toNat_ofNat', period]
  omega

theorem turned_sub_turned (ticks : Int) (raw raw' : UInt16) :
    turned ticks raw - turned ticks raw' = raw - raw' := by
  have h := toNat_turned ticks raw
  have h' := toNat_turned ticks raw'
  have hlt := raw.toNat_lt
  have hlt' := raw'.toNat_lt
  have hlt'' := (turned ticks raw').toNat_lt
  apply UInt16.toNat.inj
  simp only [UInt16.toNat_sub, period] at h h' ⊢
  omega

/-- Before the first stamp there is none that could be turned. -/
def State.turn (ticks : Int) (s : State) : State :=
  { s with lastRaw := if s.anchored then turned ticks s.lastRaw else s.lastRaw }

def Advance.turn (ticks : Int) (a : Advance) : Advance :=
  { a with state := a.state.turn ticks }

theorem State.ahead_turn {s : State} (hs : s.anchored = true) (ticks : Int) (raw : UInt16) :
    (s.turn ticks).ahead (turned ticks raw) = s.ahead raw := by
  rw [State.ahead, State.ahead, State.turn, if_pos hs, turned_sub_turned]

namespace Config

variable (c : Config) (s : State) (ticks : Int)

theorem untimedStep_turn :
    (s.turn ticks).untimedStep = s.untimedStep.map (Advance.turn ticks) := by
  simp only [State.untimedStep, State.turn, bind, Except.bind, pure, Except.pure]
  rcases Word.add s.now 1 with o | ns
  · rfl
  · rcases Word.add s.untimed 1 with o | untimed <;> rfl

theorem lateStep_turn (back : Nat) :
    c.lateStep (s.turn ticks) back = (c.lateStep s back).map (Advance.turn ticks) := by
  have hbackward : c.backward (s.turn ticks) back = c.backward s back := rfl
  by_cases hs : s.swappable = true
  · have hs' : (s.turn ticks).swappable = true := hs
    rw [lateStep, lateStep, if_pos hs, if_pos hs', hbackward]
    rcases c.backward s back with o | ns <;> rfl
  · have hs' : ¬ (s.turn ticks).swappable = true := hs
    rw [lateStep, lateStep, if_neg hs, if_neg hs']
    rfl

theorem timedStep_turn (raw : UInt16) :
    c.timedStep (s.turn ticks) (turned ticks raw) =
      (c.timedStep s raw).map (Advance.turn ticks) := by
  by_cases hs : s.anchored = true
  · have hahead := State.ahead_turn hs ticks raw
    have hforward (n : Nat) : c.forward (s.turn ticks) n = c.forward s n := rfl
    have hs' : (s.turn ticks).anchored = true := hs
    simp only [timedStep, hs, hs', if_true, hahead, hforward]
    split_ifs
    · rcases c.forward s (s.ahead raw) with o | ns <;> rfl
    · rcases c.forward s (s.ahead raw) with o | ns <;> rfl
    · exact c.lateStep_turn s ticks _
  · have hs' : ¬ (s.turn ticks).anchored = true := hs
    rw [timedStep, timedStep, if_neg hs, if_neg hs']
    rfl

/-- The clock looks at a stamp only to see how far it is ahead of the last one. -/
theorem advance_turn (raw? : Option UInt16) :
    c.advance (s.turn ticks) (raw?.map (turned ticks)) =
      (c.advance s raw?).map (Advance.turn ticks) := by
  cases raw? with
  | none => exact untimedStep_turn s ticks
  | some raw => exact c.timedStep_turn s ticks raw

end Config

end Clock

def Record.turn (ticks : Int) (r : Record) : Record :=
  { r with rawTicks := r.rawTicks.map (Clock.turned ticks) }

def Timed.turn (ticks : Int) (t : Timed) : Timed :=
  { t with record := t.record.turn ticks }

def Clocked.turn (ticks : Int) (x : Clocked) : Clocked :=
  ⟨x.record.turn ticks, x.before.turn ticks, x.advance.turn ticks⟩

namespace Corrections

theorem ofList_map {f : Timed → Timed} (hf : ∀ t, (f t).order = t.order) (ts : List Timed) :
    ofList (ts.map f) = ofList ts := by
  simp only [ofList, List.foldl_map, hf]

end Corrections

namespace Queue

variable {f : Timed → Timed} (hf : ∀ t, (f t).order = t.order)

include hf in
theorem push_map (held : Option Timed) (t : Timed) :
    (⟨held.map f⟩ : Queue).push (f t) =
      (⟨((⟨held⟩ : Queue).push t).1.held.map f⟩, ((⟨held⟩ : Queue).push t).2.map f) := by
  rcases hs : t.order.isSwap
  · rw [push_of_not_swap hs, push_of_not_swap (by rw [hf, hs])]
    cases held <;> rfl
  · rw [push_of_swap hs, push_of_swap (by rw [hf, hs])]
    cases held <;> rfl

include hf in
/-- The queue looks at the orders of the records only. -/
theorem emission_map (held : Option Timed) (ts : List Timed) :
    (⟨held.map f⟩ : Queue).emission (ts.map f) = ((⟨held⟩ : Queue).emission ts).map f := by
  induction ts generalizing held with
  | nil => cases held <;> rfl
  | cons t ts ih =>
    rw [List.map_cons, emission_cons, emission_cons, push_map hf, ih, List.map_append]

end Queue

namespace Clock

namespace Config

variable {c : Config}

theorem feedOne_turn (ticks : Int) (ts : List Timed) (s : State) (r : Record) :
    c.feedOne (ts.map (Timed.turn ticks), s.turn ticks) (r.turn ticks) =
      (c.feedOne (ts, s) r).map fun fed => (fed.1.map (Timed.turn ticks), fed.2.turn ticks) := by
  have hadvance : c.advance (s.turn ticks) (r.turn ticks).rawTicks = _ :=
    c.advance_turn s ticks r.rawTicks
  simp only [feedOne, hadvance, bind, Except.bind, pure, Except.pure]
  rcases c.advance s r.rawTicks with o | a
  · rfl
  · simp only [Except.map, List.map_append]
    rfl

/-- The clock overflows where it would have, and otherwise tells the same. -/
theorem feed_turn (ticks : Int) (s : State) (rs : List Record) :
    c.feed (s.turn ticks) (rs.map (Record.turn ticks)) =
      (c.feed s rs).map fun fed => (fed.1.map (Timed.turn ticks), fed.2.turn ticks) := by
  have hfrom : ∀ (rs : List Record) (ts : List Timed) (s : State),
      (rs.map (Record.turn ticks)).foldlM c.feedOne (ts.map (Timed.turn ticks), s.turn ticks) =
        (rs.foldlM c.feedOne (ts, s)).map fun fed =>
          (fed.1.map (Timed.turn ticks), fed.2.turn ticks) := by
    intro rs
    induction rs with
    | nil => exact fun _ _ => rfl
    | cons r rs ih =>
      intro ts s
      rw [List.map_cons, List.foldlM_cons, List.foldlM_cons, feedOne_turn]
      rcases c.feedOne (ts, s) r with o | ⟨ts', s'⟩
      · rfl
      · exact ih ts' s'
  exact hfrom rs [] s

theorem Walk.turn {xs : List Clocked} {s : State} (h : c.Walk xs s) (ticks : Int) :
    c.Walk (xs.map (Clocked.turn ticks)) (s.turn ticks) := by
  induction h with
  | nil => exact .nil
  | @concat xs s r a _ ha ih =>
    have hadvance : c.advance (s.turn ticks) (r.turn ticks).rawTicks = .ok (a.turn ticks) := by
      have := c.advance_turn s ticks r.rawTicks
      rwa [ha] at this
    rw [List.map_append]
    exact ih.concat hadvance

/-- Times, orders, the state after each record, corrections and the order of emission do not depend
on where the counter starts. -/
theorem turn_of_feed {rs : List Record} {ts : List Timed} {s : State}
    (h : c.feed {} rs = .ok (ts, s)) (ticks : Int) :
    c.feed {} (rs.map (Record.turn ticks)) = .ok (ts.map (Timed.turn ticks), s.turn ticks) ∧
      (∃ xs, c.Walk xs s ∧ xs.map Clocked.record = rs ∧ xs.map Clocked.timed = ts ∧
        c.Walk (xs.map (Clocked.turn ticks)) (s.turn ticks)) ∧
      Corrections.ofList (ts.map (Timed.turn ticks)) = Corrections.ofList ts ∧
      ({} : Queue).emission (ts.map (Timed.turn ticks)) =
        (({} : Queue).emission ts).map (Timed.turn ticks) := by
  have horder (t : Timed) : (t.turn ticks).order = t.order := rfl
  obtain ⟨xs, hwalk, hrecords, htimed⟩ := walk_of_feed h
  refine ⟨?_, ⟨xs, hwalk, hrecords, htimed, hwalk.turn ticks⟩, Corrections.ofList_map horder ts,
    Queue.emission_map horder none ts⟩
  have hfeed := feed_turn (c := c) ticks {} rs
  rwa [h] at hfeed

/-- The stamps pass through zero at a swap, and turned by some ticks they do so elsewhere. -/
theorem turn_of_feed_across_zero :
    let c : Config := { window := 8 }
    let rs := [some 65530, none, some 2, some 65535, some 65534, some 60000].map fun raw? =>
      (⟨0, 1, .fixed, [], 0, 3, raw?⟩ : Record)
    ∃ ts s, c.feed {} rs = .ok (ts, s) ∧ s.now = 60006 * 2000 + 1 ∧
      (rs.map (Record.turn (-65532))).map Record.rawTicks =
        [some 65534, none, some 6, some 3, some 2, some 60004] ∧
      c.feed {} (rs.map (Record.turn (-65532))) =
        .ok (ts.map (Timed.turn (-65532)), s.turn (-65532)) ∧
      ({} : Queue).emission (ts.map (Timed.turn (-65532))) =
        (({} : Queue).emission ts).map (Timed.turn (-65532)) := by
  intro c rs
  have hnow : (c.feed {} rs).map (·.2.now) = .ok (60006 * 2000 + 1) := by decide +kernel
  rcases hfeed : c.feed {} rs with o | ⟨ts, s⟩
  · rw [hfeed] at hnow
    cases hnow
  · obtain ⟨hturned, -, -, hemission⟩ := turn_of_feed hfeed (-65532)
    rw [hfeed] at hnow
    exact ⟨ts, s, rfl, Except.ok.inj hnow, by decide +kernel, hturned, hemission⟩

end Config

end Clock

end Telemetry
