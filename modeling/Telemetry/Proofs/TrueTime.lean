import Telemetry.Proofs.Emission

/-!
# The true clock

A recorder counts ticks without end and writes the low 16 bits of its count.  Where it is never
silent for half a turn, and a record that comes late is late by no more than the window, the clock
finds the true count again through any number of turns (`follows_feed`), so what is emitted is in
the order of the true counts (`arranges_of_genuine`).  Both facts are in `told_of_genuine`.
-/

namespace Telemetry

namespace Clock

/-- What a record shows of the count of ticks. -/
inductive Reading where
  | untimed
  | anchor (ticks : Nat)
  /-- The record was made before the one it comes after. -/
  | late (ticks : Nat)
  deriving DecidableEq, Repr

namespace Reading

def ticks? : Reading → Option Nat
  | untimed => none
  | anchor ticks => some ticks
  | late ticks => some ticks

/-- The stamp holds the low 16 bits of the count. -/
def raw? (x : Reading) : Option UInt16 :=
  x.ticks?.map UInt16.ofNat

def anchor? : Reading → Option Nat
  | anchor ticks => some ticks
  | _ => none

def isLate : Reading → Bool
  | late _ => true
  | _ => false

end Reading

def anchors (xs : List Reading) : List Nat :=
  xs.filterMap Reading.anchor?

/-- What may come after some readings of a recorder.  The count goes on by less than half a turn from
anchor to anchor.  A late record comes right after an anchor; it was made no earlier than the anchor
before that one, and it is late by no more than the window. -/
inductive Next (window : Nat) (xs : List Reading) : Reading → Prop where
  | untimed : Next window xs .untimed
  | first {p : Nat} (hxs : anchors xs = []) : Next window xs (.anchor p)
  | anchor {q p : Nat} (hq : (anchors xs).getLast? = some q) (hle : q ≤ p) (hlt : p < q + 32768) :
    Next window xs (.anchor p)
  | late {ys : List Reading} {q p ticks : Nat} (hxs : xs = ys ++ [.anchor p])
      (hq : (anchors ys).getLast? = some q) (hle : q ≤ ticks) (hlt : ticks < p)
      (hback : p - ticks ≤ min window 32768) : Next window xs (.late ticks)

inductive Genuine (window : Nat) : List Reading → Prop where
  | nil : Genuine window []
  | concat {xs : List Reading} {x : Reading} (h : Genuine window xs) (hx : Next window xs x) :
    Genuine window (xs ++ [x])

theorem map_eq_concat {α β : Type} {f : α → β} {as : List α} {bs : List β} {b : β}
    (h : as.map f = bs ++ [b]) : ∃ as' a, as = as' ++ [a] ∧ as'.map f = bs ∧ f a = b := by
  obtain ⟨as', last, rfl, has, hlast⟩ := List.map_eq_append_iff.1 h
  obtain ⟨a, rfl, ha⟩ := List.map_eq_singleton_iff.1 hlast
  exact ⟨as', a, rfl, has, ha⟩

section Anchors

variable (xs : List Reading)

@[simp] theorem anchors_untimed : anchors (xs ++ [.untimed]) = anchors xs := by
  simp [anchors, Reading.anchor?]

@[simp] theorem anchors_late (ticks : Nat) : anchors (xs ++ [.late ticks]) = anchors xs := by
  simp [anchors, Reading.anchor?]

@[simp] theorem anchors_anchor (p : Nat) : anchors (xs ++ [.anchor p]) = anchors xs ++ [p] := by
  simp [anchors, Reading.anchor?]

end Anchors

theorem State.ahead_of_le {s : State} {q p : Nat} (hraw : s.lastRaw = UInt16.ofNat q) (hle : q ≤ p)
    (hlt : p < q + period) : s.ahead (UInt16.ofNat p) = p - q := by
  unfold State.ahead
  unfold period at hlt
  rw [hraw, UInt16.toNat_sub, UInt16.toNat_ofNat', UInt16.toNat_ofNat']
  omega

theorem State.ahead_of_lt {s : State} {p ticks : Nat} (hraw : s.lastRaw = UInt16.ofNat p)
    (hlt : ticks < p) (hle : p ≤ ticks + period) :
    s.ahead (UInt16.ofNat ticks) = period - (p - ticks) := by
  unfold State.ahead
  unfold period at hle ⊢
  rw [hraw, UInt16.toNat_sub, UInt16.toNat_ofNat', UInt16.toNat_ofNat']
  omega

namespace Config

def feedOne (c : Config) (fed : List Timed × State) (r : Record) :
    Except Overflow (List Timed × State) := do
  let a ← c.advance fed.2 r.rawTicks
  return (fed.1 ++ [⟨r, a.ns, a.order⟩], a.state)

def feed (c : Config) (s : State) (rs : List Record) : Except Overflow (List Timed × State) :=
  rs.foldlM c.feedOne ([], s)

theorem feed_concat_eq_ok {c : Config} {s s' : State} {rs : List Record} {r : Record}
    {ts : List Timed} :
    c.feed s (rs ++ [r]) = .ok (ts, s') ↔
      ∃ ts' s'' a, c.feed s rs = .ok (ts', s'') ∧ c.advance s'' r.rawTicks = .ok a ∧
        ts = ts' ++ [⟨r, a.ns, a.order⟩] ∧ s' = a.state := by
  unfold feed
  rw [List.foldlM_append]
  rcases rs.foldlM c.feedOne ([], s) with o | ⟨ts', s''⟩
  · simp [bind, Except.bind]
  · rcases ha : c.advance s'' r.rawTicks with o | a
    · simp [bind, Except.bind, feedOne, ha]
    · simp [bind, Except.bind, pure, Except.pure, feedOne, ha, eq_comm]

theorem forward_of_lt {c : Config} {s : State} {ticks : Nat}
    (h : s.now + ticks * c.tickNs < Word.size) :
    c.forward s ticks = .ok (s.now + ticks * c.tickNs) := by
  have hmul : Word.mul ticks c.tickNs = .ok (ticks * c.tickNs) :=
    Word.mul_eq_ok_iff.2 ⟨by omega, rfl⟩
  simp only [forward, hmul, bind, Except.bind]
  exact Word.add_eq_ok_iff.2 ⟨h, rfl⟩

/-- What the clock adds does not overflow if the state after it is within the range of words. -/
theorem Advances.advance_eq {c : Config} {s : State} {raw? : Option UInt16} {a : Advance}
    (h : c.Advances s raw? a) (hnow : a.state.now < Word.size)
    (huntimed : a.state.untimed < Word.size)
    (hback : ∀ raw, raw? = some raw → a.order.isSwap = true →
      (period - s.ahead raw) * c.tickNs < Word.size) :
    c.advance s raw? = .ok a := by
  cases h with
  | untimed =>
    have hadd : Word.add s.now 1 = .ok (s.now + 1) := Word.add_eq_ok_iff.2 ⟨hnow, rfl⟩
    have hadd' : Word.add s.untimed 1 = .ok (s.untimed + 1) := Word.add_eq_ok_iff.2 ⟨huntimed, rfl⟩
    simp only [advance, State.untimedStep, hadd, hadd', bind, Except.bind]
    rfl
  | first hs =>
    simp only [advance, timedStep, hs]
    rfl
  | forward hs hahead =>
    simp only [advance, timedStep, hs, if_true, if_pos hahead, forward_of_lt hnow, bind, Except.bind]
    rfl
  | ambiguous hs hahead hwindow =>
    simp only [advance, timedStep, hs, if_true, if_neg (Nat.not_lt.2 hahead), if_pos hwindow,
      forward_of_lt hnow, bind, Except.bind]
    rfl
  | @swap raw hs hahead hwindow hswap =>
    have hmul : Word.mul (period - s.ahead raw) c.tickNs =
        .ok ((period - s.ahead raw) * c.tickNs) := Word.mul_eq_ok_iff.2 ⟨hback raw rfl rfl, rfl⟩
    simp only [advance, timedStep, hs, if_true, if_neg (Nat.not_lt.2 hahead),
      if_neg (Nat.not_lt.2 hwindow), lateStep, hswap, backward, hmul, bind, Except.bind]
    rfl
  | clamped hs hahead hwindow hswap =>
    simp only [advance, timedStep, hs, if_true, if_neg (Nat.not_lt.2 hahead),
      if_neg (Nat.not_lt.2 hwindow), lateStep, hswap]
    rfl

/-- The time after some readings, of which the first stamp stands for `first` ticks. -/
def elapsed (c : Config) (first : Nat) (xs : List Reading) : Nat :=
  ((anchors xs).getLast?.getD first - first) * c.tickNs + xs.count .untimed

/-- The time and the place of a reading that comes after the readings `before`. -/
inductive Told (c : Config) (first : Nat) (before : List Reading) : Reading → Timed → Prop where
  | untimed {t : Timed} (horder : t.order = .inOrder) : Told c first before .untimed t
  | anchor {ticks : Nat} {t : Timed}
      (hns : t.ns = (ticks - first) * c.tickNs + before.count .untimed)
      (horder : t.order = .inOrder) : Told c first before (.anchor ticks) t
  | late {p ticks : Nat} {back : UInt16} {t : Timed} (hlast : before.getLast? = some (.anchor p))
      (hns : t.ns = (ticks - first) * c.tickNs + before.count .untimed)
      (horder : t.order = .swapWithPrevious back) (hback : back.toNat = p - ticks) :
    Told c first before (.late ticks) t

theorem Told.isSwap_eq {c : Config} {first : Nat} {before : List Reading} {x : Reading} {t : Timed}
    (h : c.Told first before x t) : t.order.isSwap = x.isLate := by
  cases h with
  | untimed horder => rw [horder]; rfl
  | anchor _ horder => rw [horder]; rfl
  | late _ _ horder _ => rw [horder]; rfl

/-- The clock stands where the count stood after the readings `xs`. -/
structure Follows (c : Config) (first : Nat) (xs : List Reading) (s : State) : Prop where
  now_eq : s.now = c.elapsed first xs
  untimed_le : s.untimed ≤ s.now
  fresh : anchors xs = [] → s.anchored = false
  anchored : ∀ q, (anchors xs).getLast? = some q →
    s.anchored = true ∧ s.lastRaw = UInt16.ofNat q ∧ first ≤ q
  swappable : ∀ ys p, xs = ys ++ [.anchor p] → s.swappable = true ∧
    s.floor = c.elapsed first ys ∧ ∀ q, (anchors ys).getLast? = some q → first ≤ q

section Elapsed

variable (c : Config) (first : Nat) (xs : List Reading)

@[simp] theorem elapsed_untimed : c.elapsed first (xs ++ [.untimed]) = c.elapsed first xs + 1 := by
  simp [elapsed, Nat.add_assoc]

@[simp] theorem elapsed_late (ticks : Nat) :
    c.elapsed first (xs ++ [.late ticks]) = c.elapsed first xs := by
  simp [elapsed]

@[simp] theorem elapsed_anchor (p : Nat) :
    c.elapsed first (xs ++ [.anchor p]) = (p - first) * c.tickNs + xs.count .untimed := by
  simp [elapsed]

end Elapsed

section Steps

variable {c : Config} {first : Nat} {xs : List Reading} {s : State} {a : Advance}

theorem follows_nil : c.Follows first [] {} where
  now_eq := by simp [elapsed, anchors]
  untimed_le := Nat.le_refl 0
  fresh _ := rfl
  anchored q h := by simp [anchors] at h
  swappable ys p h := by simp at h

theorem Follows.now_of_last (h : c.Follows first xs s) {q : Nat}
    (hq : (anchors xs).getLast? = some q) :
    s.now = (q - first) * c.tickNs + xs.count .untimed := by
  rw [h.now_eq, elapsed, hq, Option.getD_some]

theorem Follows.anchor_state (h : c.Follows first xs s) {p ns : Nat} (hfirst : first ≤ p)
    (hns : ns = (p - first) * c.tickNs + xs.count .untimed) (order : Order) :
    c.Follows first (xs ++ [.anchor p]) (s.anchor (UInt16.ofNat p) ns order).state where
  now_eq := by
    rw [elapsed_anchor, ← hns]
    rfl
  untimed_le := Nat.zero_le _
  fresh hnil := by simp at hnil
  anchored q hq := by
    simp only [anchors_anchor, List.getLast?_concat, Option.some.injEq] at hq
    subst hq
    exact ⟨rfl, rfl, hfirst⟩
  swappable ys p' hys := by
    obtain ⟨rfl, -⟩ : xs = ys ∧ p = p' := by simpa using hys
    exact ⟨rfl, h.now_eq, fun q hq => (h.anchored q hq).2.2⟩

/-- A reading that is no anchor leaves the last stamp where it is. -/
theorem Follows.keep {x : Reading} (h : c.Follows first xs s) (hx : x.anchor? = none)
    {s' : State} (hnow : s'.now = c.elapsed first (xs ++ [x])) (huntimed : s'.untimed ≤ s'.now)
    (hanchored : s'.anchored = s.anchored) (hraw : s'.lastRaw = s.lastRaw) :
    c.Follows first (xs ++ [x]) s' := by
  have hanchors : anchors (xs ++ [x]) = anchors xs := by simp [anchors, hx]
  refine ⟨hnow, huntimed, ?_, ?_, ?_⟩
  · rw [hanchors, hanchored]
    exact h.fresh
  · rw [hanchors, hanchored, hraw]
    exact h.anchored
  · intro ys p hys
    obtain ⟨-, rfl⟩ := by simpa using hys
    simp [Reading.anchor?] at hx

theorem Follows.ahead_anchor (h : c.Follows first xs s) {q p : Nat}
    (hq : (anchors xs).getLast? = some q) (hle : q ≤ p) (hlt : p < q + 32768) :
    s.ahead (UInt16.ofNat p) < period / 2 ∧
      s.now + s.ahead (UInt16.ofNat p) * c.tickNs =
        (p - first) * c.tickNs + xs.count .untimed := by
  obtain ⟨hanchored, hraw, hfirst⟩ := h.anchored q hq
  have hahead : s.ahead (UInt16.ofNat p) = p - q :=
    State.ahead_of_le hraw hle (by unfold period; omega)
  refine ⟨?_, ?_⟩
  · rw [hahead]
    unfold period
    omega
  · rw [h.now_of_last hq, hahead, Nat.add_right_comm, ← Nat.add_mul]
    congr 2
    omega

theorem Follows.lag_late {ys : List Reading} {p ticks : Nat}
    (h : c.Follows first (ys ++ [.anchor p]) s) (hlt : ticks < p) (hle : p ≤ ticks + 32768) :
    period / 2 ≤ s.ahead (UInt16.ofNat ticks) ∧
      period - s.ahead (UInt16.ofNat ticks) = p - ticks := by
  obtain ⟨-, hraw, -⟩ := h.anchored p (by simp)
  have hahead : s.ahead (UInt16.ofNat ticks) = period - (p - ticks) :=
    State.ahead_of_lt hraw hlt (by unfold period; omega)
  rw [hahead]
  unfold period
  omega

/-- Neither zero nor the floor cuts off the time of a late record. -/
theorem Follows.time_late {ys : List Reading} {q p ticks : Nat}
    (h : c.Follows first (ys ++ [.anchor p]) s) (hq : (anchors ys).getLast? = some q)
    (hle : q ≤ ticks) (hlt : ticks < p) :
    (p - ticks) * c.tickNs ≤ s.now ∧ max (s.now - (p - ticks) * c.tickNs) s.floor =
      (ticks - first) * c.tickNs + (ys ++ [Reading.anchor p]).count Reading.untimed := by
  obtain ⟨-, hfloor, hfirst⟩ := h.swappable ys p rfl
  have hfirst := hfirst q hq
  have hsplit : (p - first) * c.tickNs = (ticks - first) * c.tickNs + (p - ticks) * c.tickNs := by
    rw [← Nat.add_mul]
    congr 1
    omega
  have hmono : (q - first) * c.tickNs ≤ (ticks - first) * c.tickNs :=
    Nat.mul_le_mul_right _ (by omega)
  have hcount : (ys ++ [Reading.anchor p]).count Reading.untimed = ys.count Reading.untimed := by
    simp
  rw [h.now_eq, elapsed_anchor, hfloor, elapsed, hq, Option.getD_some, hcount]
  omega

/-- The clock follows the count through the next reading. -/
theorem Follows.step (h : c.Follows first xs s) {x : Reading} (hx : Next c.window.toNat xs x)
    (hfirst : ∀ p, (anchors (xs ++ [x])).head? = some p → p = first) :
    ∃ a, c.Advances s x.raw? a ∧ (a.state.now < Word.size → c.advance s x.raw? = .ok a) ∧
      c.Follows first (xs ++ [x]) a.state ∧ ∀ r, c.Told first xs x ⟨r, a.ns, a.order⟩ := by
  cases hx with
  | untimed =>
    refine ⟨_, .untimed, fun hfit => ?_, ?_, fun _ => .untimed rfl⟩
    · have := h.untimed_le
      refine Advances.untimed.advance_eq hfit ?_ (fun _ hraw => by cases hraw)
      change s.untimed + 1 < Word.size
      change s.now + 1 < Word.size at hfit
      omega
    · refine h.keep rfl ?_ (Nat.succ_le_succ h.untimed_le) rfl rfl
      rw [elapsed_untimed, ← h.now_eq]
  | @first p hxs =>
    -- the clock keeps the time of the records before the first stamp
    obtain rfl : p = first := hfirst p (by simp [hxs])
    have hnow : s.now = (p - p) * c.tickNs + xs.count .untimed := by
      rw [h.now_eq, elapsed, hxs]
      rfl
    have ha : c.Advances s (some (UInt16.ofNat p)) _ := .first (h.fresh hxs)
    refine ⟨_, ha, fun hfit => ?_, h.anchor_state (Nat.le_refl _) hnow _, fun _ => .anchor hnow rfl⟩
    exact ha.advance_eq hfit (show 0 < Word.size by decide) fun _ _ hswap => by cases hswap
  | @anchor q p hq hle hlt =>
    obtain ⟨hanchored, -, hfirst⟩ := h.anchored q hq
    obtain ⟨hnear, hns⟩ := h.ahead_anchor hq hle hlt
    have ha : c.Advances s (some (UInt16.ofNat p)) _ := .forward hanchored hnear
    refine ⟨_, ha, fun hfit => ?_, h.anchor_state (hfirst.trans hle) hns _, fun _ => .anchor hns rfl⟩
    exact ha.advance_eq hfit (show 0 < Word.size by decide) fun _ _ hswap => by cases hswap
  | @late ys q p ticks hxs hq hle hlt hback =>
    subst hxs
    obtain ⟨hanchored, -⟩ := h.anchored p (by simp)
    obtain ⟨hswappable, -⟩ := h.swappable ys p rfl
    obtain ⟨hfar, hlag⟩ := h.lag_late hlt (by omega)
    obtain ⟨hfit, hns⟩ := h.time_late hq hle hlt
    have ha : c.Advances s (some (UInt16.ofNat ticks)) _ :=
      .swap hanchored hfar (by omega) hswappable
    refine ⟨_, ha, fun hnow => ?_, h.keep rfl ?_ h.untimed_le rfl rfl, fun _ => ?_⟩
    · refine ha.advance_eq hnow (Nat.lt_of_le_of_lt h.untimed_le hnow) fun raw hraw _ => ?_
      cases hraw
      rw [hlag]
      exact Nat.lt_of_le_of_lt hfit hnow
    · rw [elapsed_late]
      exact h.now_eq
    · rw [hlag]
      refine .late List.getLast?_concat hns rfl ?_
      rw [UInt16.toNat_ofNat']
      omega

end Steps

theorem Advances.unique {c : Config} {s : State} {raw? : Option UInt16} {a a' : Advance}
    (h : c.Advances s raw? a) (h' : c.Advances s raw? a') : a' = a := by
  cases h <;> cases h' <;> first | rfl | omega | simp_all

structure ToldAll (c : Config) (first : Nat) (xs : List Reading) (ts : List Timed) : Prop where
  length_eq : ts.length = xs.length
  told : ∀ (i : Nat) (x : Reading) (t : Timed), xs[i]? = some x → ts[i]? = some t →
    c.Told first (xs.take i) x t

section Feed

variable {c : Config} {first : Nat} {xs : List Reading}

theorem toldAll_nil : c.ToldAll first [] [] :=
  ⟨rfl, fun i x t h => by simp at h⟩

theorem ToldAll.concat {ts : List Timed} (h : c.ToldAll first xs ts) {x : Reading} {t : Timed}
    (ht : c.Told first xs x t) : c.ToldAll first (xs ++ [x]) (ts ++ [t]) := by
  refine ⟨by simp [h.length_eq], fun i x' t' hx' ht' => ?_⟩
  rcases Nat.lt_trichotomy i xs.length with hlt | rfl | hgt
  · rw [List.getElem?_append_left hlt] at hx'
    rw [List.getElem?_append_left (h.length_eq ▸ hlt)] at ht'
    rw [List.take_append_of_le_length hlt.le]
    exact h.told i x' t' hx' ht'
  · rw [List.getElem?_concat_length] at hx'
    rw [← h.length_eq, List.getElem?_concat_length] at ht'
    rw [List.take_left, ← Option.some.inj hx', ← Option.some.inj ht']
    exact ht
  · rw [List.getElem?_eq_none (by simp; omega)] at hx'
    cases hx'

theorem head?_anchors_concat {x : Reading} {p : Nat} (h : (anchors xs).head? = some p) :
    (anchors (xs ++ [x])).head? = some p := by
  rw [anchors, List.filterMap_append, ← anchors, List.head?_append, h]
  rfl

theorem follows_feed (h : Genuine c.window.toNat xs) {rs : List Record}
    (hraw : rs.map Record.rawTicks = xs.map Reading.raw?)
    (hfirst : ∀ p, (anchors xs).head? = some p → p = first) {ts : List Timed} {s : State}
    (hfeed : c.feed {} rs = .ok (ts, s)) :
    c.Follows first xs s ∧ ts.map Timed.record = rs ∧ c.ToldAll first xs ts := by
  induction h generalizing rs ts s with
  | nil =>
    obtain rfl := List.map_eq_nil_iff.1 hraw
    cases hfeed
    exact ⟨follows_nil, rfl, toldAll_nil⟩
  | @concat xs x h hx ih =>
    rw [List.map_append] at hraw
    obtain ⟨rs, r, rfl, hraw, hr⟩ := map_eq_concat hraw
    obtain ⟨ts, s', a, hbefore, ha, rfl, rfl⟩ := feed_concat_eq_ok.1 hfeed
    obtain ⟨hfollows, hrecord, htold⟩ := ih hraw (fun p hp => hfirst p (head?_anchors_concat hp))
      hbefore
    obtain ⟨a', ha', -, hfollows', htold'⟩ := hfollows.step hx hfirst
    rw [hr] at ha
    obtain rfl := ha'.unique (advance_advances ha)
    exact ⟨hfollows', by simp [hrecord], htold.concat (htold' r)⟩

theorem elapsed_le_concat {window : Nat} {x : Reading} (hx : Next window xs x) :
    c.elapsed first xs ≤ c.elapsed first (xs ++ [x]) := by
  cases hx with
  | untimed =>
    rw [elapsed_untimed]
    exact Nat.le_succ _
  | first hxs =>
    rw [elapsed_anchor, elapsed, hxs]
    simp
  | anchor hq hle =>
    rw [elapsed_anchor, elapsed, hq, Option.getD_some]
    exact Nat.add_le_add_right (Nat.mul_le_mul_right _ (by omega)) _
  | late => rw [elapsed_late]

/-- A run overflows only where the true time does. -/
theorem feed_eq_ok (h : Genuine c.window.toNat xs) {rs : List Record}
    (hraw : rs.map Record.rawTicks = xs.map Reading.raw?)
    (hfirst : ∀ p, (anchors xs).head? = some p → p = first)
    (hfit : c.elapsed first xs < Word.size) : ∃ ts s, c.feed {} rs = .ok (ts, s) := by
  induction h generalizing rs with
  | nil =>
    obtain rfl := List.map_eq_nil_iff.1 hraw
    exact ⟨[], {}, rfl⟩
  | @concat xs x h hx ih =>
    rw [List.map_append] at hraw
    obtain ⟨rs, r, rfl, hraw, hr⟩ := map_eq_concat hraw
    have hfirst' : ∀ p, (anchors xs).head? = some p → p = first :=
      fun p hp => hfirst p (head?_anchors_concat hp)
    obtain ⟨ts, s, hfeed⟩ := ih hraw hfirst' (Nat.lt_of_le_of_lt (elapsed_le_concat hx) hfit)
    obtain ⟨hfollows, -, -⟩ := follows_feed h hraw hfirst' hfeed
    obtain ⟨a, -, hok, hfollows', -⟩ := hfollows.step hx hfirst
    rw [← hr] at hok
    refine ⟨_, _, feed_concat_eq_ok.2 ⟨ts, s, a, hfeed, hok ?_, rfl, rfl⟩⟩
    rw [hfollows'.now_eq]
    exact hfit

end Feed

end Config

end Clock

namespace Queue

open Clock

theorem pushAll_concat (q : Queue) (ts : List Timed) (t : Timed) :
    q.pushAll (ts ++ [t]) =
      (((q.pushAll ts).1.push t).1, (q.pushAll ts).2 ++ ((q.pushAll ts).1.push t).2) := by
  induction ts generalizing q with
  | nil => simp [pushAll]
  | cons u ts ih => simp [pushAll, ih]

def ticksOf (es : List (Timed × Reading)) : List Nat :=
  es.filterMap fun e => e.2.ticks?

theorem ticksOf_append (es es' : List (Timed × Reading)) :
    ticksOf (es ++ es') = ticksOf es ++ ticksOf es' :=
  List.filterMap_append

/-- No count is above the last anchor. -/
def Below (xs : List Reading) (es : List (Timed × Reading)) : Prop :=
  ∀ n ∈ ticksOf es, ∃ q, (anchors xs).getLast? = some q ∧ n ≤ q

/-- The records with the readings `xs` have been taken in; those in `past` have come out. -/
structure Arranges (xs : List Reading) (es past : List (Timed × Reading))
    (held : Option (Timed × Reading)) : Prop where
  pushAll_eq : ({} : Queue).pushAll (es.map Prod.fst) = (⟨held.map Prod.fst⟩, past.map Prod.fst)
  perm : (past ++ held.toList).Perm es
  sorted : (ticksOf (past ++ held.toList)).Pairwise (· ≤ ·)
  below : Below xs (past ++ held.toList)
  held_anchor : ∀ ys p, xs = ys ++ [.anchor p] →
    (∃ t, held = some (t, .anchor p)) ∧ Below ys past

variable {xs : List Reading} {es past : List (Timed × Reading)} {held : Option (Timed × Reading)}

theorem arranges_nil : Arranges [] [] [] none where
  pushAll_eq := rfl
  perm := .refl _
  sorted := .nil
  below n hn := by simp [ticksOf] at hn
  held_anchor ys p h := by simp at h

theorem Arranges.pushAll_hold (h : Arranges xs es past held) {t : Timed}
    (ht : t.order.isSwap = false) (x : Reading) :
    ({} : Queue).pushAll ((es ++ [(t, x)]).map Prod.fst) =
      (⟨some t⟩, (past ++ held.toList).map Prod.fst) := by
  rw [List.map_append, List.map_singleton, pushAll_concat, h.pushAll_eq, push_of_not_swap ht]
  cases held <;> simp

theorem Arranges.untimed (h : Arranges xs es past held) {t : Timed}
    (ht : t.order.isSwap = false) :
    Arranges (xs ++ [.untimed]) (es ++ [(t, .untimed)]) (past ++ held.toList)
      (some (t, .untimed)) := by
  have hticks : ticksOf (past ++ held.toList ++ [(t, .untimed)]) = ticksOf (past ++ held.toList) := by
    simp [ticksOf, Reading.ticks?]
  refine ⟨h.pushAll_hold ht _, h.perm.append_right _, ?_, ?_, ?_⟩
  · rw [Option.toList_some, hticks]
    exact h.sorted
  · unfold Below
    rw [Option.toList_some, hticks, anchors_untimed]
    exact h.below
  · intro ys p hys
    simp at hys

theorem Arranges.anchor (h : Arranges xs es past held) {t : Timed} (ht : t.order.isSwap = false)
    {p : Nat} (hle : ∀ q, (anchors xs).getLast? = some q → q ≤ p) :
    Arranges (xs ++ [.anchor p]) (es ++ [(t, .anchor p)]) (past ++ held.toList)
      (some (t, .anchor p)) := by
  have hticks : ticksOf (past ++ held.toList ++ [(t, .anchor p)]) =
      ticksOf (past ++ held.toList) ++ [p] := by
    simp [ticksOf, Reading.ticks?]
  have hbelow : ∀ n ∈ ticksOf (past ++ held.toList), n ≤ p := by
    intro n hn
    obtain ⟨q, hq, hnq⟩ := h.below n hn
    exact hnq.trans (hle q hq)
  refine ⟨h.pushAll_hold ht _, h.perm.append_right _, ?_, ?_, ?_⟩
  · rw [Option.toList_some, hticks, List.pairwise_append]
    refine ⟨h.sorted, List.pairwise_singleton _ _, fun n hn m hm => ?_⟩
    rw [List.mem_singleton.1 hm]
    exact hbelow n hn
  · intro n hn
    rw [Option.toList_some, hticks] at hn
    refine ⟨p, by simp, ?_⟩
    rcases List.mem_append.1 hn with hn | hn
    · exact hbelow n hn
    · exact (List.mem_singleton.1 hn).le
  · intro ys p' hys
    obtain ⟨rfl, rfl⟩ : xs = ys ∧ p = p' := by simpa using hys
    exact ⟨⟨t, rfl⟩, h.below⟩

/-- A late record comes out right before the anchor that it comes after. -/
theorem Arranges.late {ys : List Reading} {q p ticks : Nat}
    (h : Arranges (ys ++ [.anchor p]) es past held) {t : Timed} (ht : t.order.isSwap = true)
    (hq : (anchors ys).getLast? = some q) (hle : q ≤ ticks) (hlt : ticks < p) :
    ∃ past', Arranges (ys ++ [.anchor p] ++ [.late ticks]) (es ++ [(t, .late ticks)]) past' none := by
  -- the anchor is still held, and nothing that has come out is above the anchor before it
  obtain ⟨⟨u, rfl⟩, hbelow⟩ := h.held_anchor ys p rfl
  have hpast : ∀ n ∈ ticksOf past, n ≤ ticks := by
    intro n hn
    obtain ⟨q', hq', hnq⟩ := hbelow n hn
    rw [hq] at hq'
    cases hq'
    exact hnq.trans hle
  have hticks : ticksOf (past ++ [(t, .late ticks), (u, .anchor p)]) =
      ticksOf past ++ [ticks, p] := by
    simp [ticksOf, Reading.ticks?]
  refine ⟨past ++ [(t, .late ticks), (u, .anchor p)], ?_, ?_, ?_, ?_, ?_⟩
  · rw [List.map_append, List.map_singleton, pushAll_concat, h.pushAll_eq, push_of_swap ht]
    simp
  · have hswap : [(t, Reading.late ticks), (u, .anchor p)].Perm
        ([(u, .anchor p)] ++ [(t, .late ticks)]) := .swap ..
    have hperm := (hswap.append_left past).trans (List.append_assoc .. ▸ h.perm.append_right _)
    simpa using hperm
  · rw [Option.toList_none, List.append_nil, hticks, List.pairwise_append]
    refine ⟨?_, by simpa using hlt.le, fun n hn m hm => ?_⟩
    · have hsorted := h.sorted
      rw [ticksOf_append] at hsorted
      exact (List.pairwise_append.1 hsorted).1
    · have := hpast n hn
      rcases List.mem_pair.1 hm with rfl | rfl
      · exact this
      · omega
  · intro n hn
    rw [Option.toList_none, List.append_nil, hticks] at hn
    refine ⟨p, by rw [anchors_late, anchors_anchor, List.getLast?_concat], ?_⟩
    rcases List.mem_append.1 hn with hn | hn
    · have := hpast n hn
      omega
    · rcases List.mem_pair.1 hn with rfl | rfl
      · exact hlt.le
      · exact Nat.le_refl _
  · intro ys' p' hys
    obtain ⟨-, hlast⟩ := List.append_inj' hys rfl
    simp at hlast

/-- What comes out is in the order of the true counts. -/
theorem arranges_of_genuine {window : Nat} (h : Genuine window xs) {es : List (Timed × Reading)}
    (hxs : es.map Prod.snd = xs) (hswap : ∀ e ∈ es, e.1.order.isSwap = e.2.isLate) :
    ∃ past held, Arranges xs es past held := by
  induction h generalizing es with
  | nil =>
    obtain rfl := List.map_eq_nil_iff.1 hxs
    exact ⟨[], none, arranges_nil⟩
  | @concat xs x h hx ih =>
    obtain ⟨es, ⟨t, x⟩, rfl, hbefore, rfl⟩ := map_eq_concat hxs
    obtain ⟨past, held, harranges⟩ := ih hbefore fun e he => hswap e (List.mem_append_left _ he)
    have ht := hswap (t, x) (by simp)
    cases hx with
    | untimed => exact ⟨_, _, harranges.untimed ht⟩
    | first hnil => exact ⟨_, _, harranges.anchor ht fun q hq => by simp [hnil] at hq⟩
    | anchor hq hle =>
      refine ⟨_, _, harranges.anchor ht fun q' hq' => ?_⟩
      rw [hq] at hq'
      cases hq'
      exact hle
    | late hys hq hle hlt =>
      subst hys
      obtain ⟨past', hlate⟩ := harranges.late ht hq hle hlt
      exact ⟨past', none, hlate⟩

end Queue

namespace Clock.Config

theorem ToldAll.isSwap_eq {c : Config} {first : Nat} {xs : List Reading} {ts : List Timed}
    (h : c.ToldAll first xs ts) : ∀ e ∈ ts.zip xs, e.1.order.isSwap = e.2.isLate := by
  intro e he
  obtain ⟨i, hi⟩ := List.mem_iff_getElem?.1 he
  obtain ⟨ht, hx⟩ := List.getElem?_zip_eq_some.1 hi
  exact (h.told i e.2 e.1 hx ht).isSwap_eq

/-- The clock and the queue find the true counts, and their order, in what a recorder writes. -/
theorem told_of_genuine (c : Config) {xs : List Reading} {rs : List Record}
    (h : Genuine c.window.toNat xs) (hraw : rs.map Record.rawTicks = xs.map Reading.raw?) :
    let first := (anchors xs).head?.getD 0
    (c.elapsed first xs < Word.size → ∃ ts s, c.feed {} rs = .ok (ts, s)) ∧
      ∀ ts s, c.feed {} rs = .ok (ts, s) →
        ts.map Timed.record = rs ∧
          (∀ (i : Nat) (x : Reading) (t : Timed), xs[i]? = some x → ts[i]? = some t →
            c.Told first (xs.take i) x t) ∧
          ∃ emitted : List (Timed × Reading),
            emitted.map Prod.fst = ({} : Queue).emission ts ∧ emitted.Perm (ts.zip xs) ∧
              (emitted.filterMap fun e => e.2.ticks?).Pairwise (· ≤ ·) := by
  intro first
  have hfirst : ∀ p, (anchors xs).head? = some p → p = first := fun p hp => by simp [first, hp]
  refine ⟨feed_eq_ok h hraw hfirst, fun ts s hfeed => ?_⟩
  obtain ⟨-, hrecord, htold⟩ := follows_feed h hraw hfirst hfeed
  have hsnd : (ts.zip xs).map Prod.snd = xs := List.map_snd_zip (Nat.le_of_eq htold.length_eq.symm)
  have hfst : (ts.zip xs).map Prod.fst = ts := List.map_fst_zip (Nat.le_of_eq htold.length_eq)
  obtain ⟨past, held, harranges⟩ := Queue.arranges_of_genuine h hsnd htold.isSwap_eq
  refine ⟨hrecord, htold.told, past ++ held.toList, ?_, harranges.perm, harranges.sorted⟩
  have hpushed := harranges.pushAll_eq
  rw [hfst] at hpushed
  rw [Queue.emission, hpushed, List.map_append]
  cases held <;> rfl

/-- A gap of almost half a turn, after which a record is as late as it may be. -/
theorem told_of_genuine_late :
    let c : Config := { window := 32767 }
    let xs : List Reading :=
      [.untimed, .anchor 65000, .untimed, .anchor 97767, .late 65000, .anchor 130534]
    let rs := xs.map fun x => (⟨0, 1, .fixed, [], 0, 3, x.raw?⟩ : Record)
    Genuine c.window.toNat xs ∧ ∃ ts s, c.feed {} rs = .ok (ts, s) ∧
      (∀ (i : Nat) (x : Reading) (t : Timed), xs[i]? = some x → ts[i]? = some t →
        c.Told 65000 (xs.take i) x t) ∧
      ∃ emitted : List (Timed × Reading), emitted.map Prod.fst = ({} : Queue).emission ts ∧
        (emitted.filterMap fun e => e.2.ticks?).Pairwise (· ≤ ·) := by
  intro c xs rs
  have h₁ : Genuine c.window.toNat [.untimed] := Genuine.nil.concat .untimed
  have h₂ : Genuine c.window.toNat [.untimed, .anchor 65000] := h₁.concat (.first rfl)
  have h₃ : Genuine c.window.toNat [.untimed, .anchor 65000, .untimed] := h₂.concat .untimed
  have h₄ : Genuine c.window.toNat ([.untimed, .anchor 65000, .untimed] ++ [.anchor 97767]) :=
    h₃.concat (.anchor rfl (by decide) (by decide))
  have h₅ : Genuine c.window.toNat [.untimed, .anchor 65000, .untimed, .anchor 97767, .late 65000] :=
    h₄.concat (.late rfl rfl (by decide) (by decide) (by decide))
  have h : Genuine c.window.toNat xs := h₅.concat (.anchor rfl (by decide) (by decide))
  have hraw : rs.map Record.rawTicks = xs.map Reading.raw? := rfl
  obtain ⟨hok, htold⟩ := told_of_genuine c h hraw
  obtain ⟨ts, s, hfeed⟩ := hok (by decide)
  obtain ⟨-, htold, emitted, hemitted, -, hsorted⟩ := htold ts s hfeed
  exact ⟨h, ts, s, hfeed, htold, emitted, hemitted, hsorted⟩

end Clock.Config

end Telemetry
