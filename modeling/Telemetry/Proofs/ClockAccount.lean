import Mathlib.Algebra.Ring.Nat
import Mathlib.Data.List.DropRight
import Telemetry.Proofs.TrueTime

/-!
# The clock's account

The clock keeps six fields, and each record changes some of them.  Whatever the stamps are, the
fields tell the same of the records so far (`Accounts`): the time is the ticks by which the clock
was moved and a nanosecond for every record without a stamp, and the last stamp is the first one
moved by as many ticks.  One record keeps the account (`Accounts.step`), so it holds after every
record that is fed to the clock (`accounts_of_feed`).
-/

namespace Telemetry

namespace Clocked

/-- The record has a stamp, and the clock moved to it. -/
def moves (x : Clocked) : Bool :=
  x.record.isTimed && x.advance.order.isMove

/-- The ticks from the last stamp forward to the one of the record. -/
def ticks (x : Clocked) : Nat :=
  x.record.rawTicks.elim 0 x.before.ahead

end Clocked

namespace Clock

/-- The ticks by which the clock was moved after the first stamp. -/
def travelled (xs : List Clocked) : Nat :=
  ((xs.filter Clocked.moves).tail.map Clocked.ticks).sum

def untimedIn (xs : List Clocked) : Nat :=
  xs.countP fun x => !x.record.isTimed

/-- The records since the clock last moved to a stamp. -/
def sinceMove (xs : List Clocked) : List Clocked :=
  xs.rtakeWhile fun x => !x.moves

def stamps (xs : List Clocked) : List UInt16 :=
  xs.filterMap fun x => x.record.rawTicks

section Concat

variable {xs : List Clocked} {x : Clocked}

theorem travelled_of_not_moves (hx : x.moves = false) : travelled (xs ++ [x]) = travelled xs := by
  simp [travelled, hx]

theorem travelled_of_moves (hx : x.moves = true) (hxs : ∃ y ∈ xs, y.moves = true) :
    travelled (xs ++ [x]) = travelled xs + x.ticks := by
  have hne : xs.filter Clocked.moves ≠ [] := by simpa using hxs
  simp [travelled, hx, List.tail_append_of_ne_nil hne]

theorem travelled_first (hx : x.moves = true) (hxs : ∀ y ∈ xs, y.moves = false) :
    travelled (xs ++ [x]) = 0 := by
  have hnil : xs.filter Clocked.moves = [] := by simpa using hxs
  simp [travelled, hx, hnil]

theorem stamps_concat : stamps (xs ++ [x]) = stamps xs ++ x.record.rawTicks.toList := by
  cases hraw : x.record.rawTicks <;> simp [stamps, hraw]

/-- The first stamp stays the first one. -/
theorem head?_stamps_of_moves {y : Clocked} (hy : y ∈ xs) (hmoves : y.moves = true) :
    (stamps (xs ++ [x])).head? = (stamps xs).head? := by
  have htimed : y.record.rawTicks.isSome = true := (Bool.and_eq_true_iff.1 hmoves).1
  obtain ⟨raw, hraw⟩ := Option.isSome_iff_exists.1 htimed
  have hmem : raw ∈ stamps xs := List.mem_filterMap.2 ⟨y, hy, hraw⟩
  rw [stamps_concat, List.head?_append_of_ne_nil _ (List.ne_nil_of_mem hmem)]

theorem untimedIn_of_isTimed (hx : x.record.isTimed = true) :
    untimedIn (xs ++ [x]) = untimedIn xs := by
  simp [untimedIn, hx]

theorem untimedIn_of_not_isTimed (hx : x.record.isTimed = false) :
    untimedIn (xs ++ [x]) = untimedIn xs + 1 := by
  simp [untimedIn, hx]

theorem sinceMove_of_moves (hx : x.moves = true) : sinceMove (xs ++ [x]) = [] :=
  List.rtakeWhile_concat_neg _ _ _ (by simp [hx])

theorem sinceMove_of_not_moves (hx : x.moves = false) :
    sinceMove (xs ++ [x]) = sinceMove xs ++ [x] :=
  List.rtakeWhile_concat_pos _ _ _ (by simp [hx])

end Concat

/-- What the state tells of the records so far. -/
structure Accounts (c : Config) (xs : List Clocked) (s : State) : Prop where
  now_eq : s.now = travelled xs * c.tickNs + untimedIn xs
  fresh : s.anchored = false → ∀ x ∈ xs, x.record.isTimed = false
  anchored : s.anchored = true → ∃ x ∈ xs, x.moves = true
  lastRaw_eq : ∀ raw, (stamps xs).head? = some raw →
    s.lastRaw.toNat = (raw.toNat + travelled xs) % period
  untimed_eq : s.untimed = untimedIn (sinceMove xs)
  floor_le : s.floor ≤ s.now
  swappable_iff : s.swappable = true ↔ ∃ x, xs.getLast? = some x ∧ x.moves = true
  /-- A record that lags leaves everything else as it was. -/
  kept : ∀ x ∈ xs, x.advance.order.isMove = false →
    x.advance.state = { x.before with swappable := false }

namespace Config

/-- The records that were taken in one after the other, from the beginning on, and the state after
them. -/
inductive Walk (c : Config) : List Clocked → State → Prop where
  | nil : Walk c [] {}
  | concat {xs : List Clocked} {s : State} {r : Record} {a : Advance} (h : Walk c xs s)
      (ha : c.advance s r.rawTicks = .ok a) : Walk c (xs ++ [⟨r, s, a⟩]) a.state

theorem walk_of_feed {c : Config} {rs : List Record} {ts : List Timed} {s : State}
    (h : c.feed {} rs = .ok (ts, s)) :
    ∃ xs, c.Walk xs s ∧ xs.map Clocked.record = rs ∧ xs.map Clocked.timed = ts := by
  induction rs using List.reverseRecOn generalizing ts s with
  | nil =>
    cases h
    exact ⟨[], .nil, rfl, rfl⟩
  | append_singleton rs r ih =>
    obtain ⟨ts, s', a, hbefore, ha, rfl, rfl⟩ := feed_concat_eq_ok.1 h
    obtain ⟨xs, hwalk, rfl, rfl⟩ := ih hbefore
    exact ⟨xs ++ [⟨r, s', a⟩], hwalk.concat ha, by simp, by simp [Clocked.timed]⟩

end Config

theorem accounts_nil (c : Config) : Accounts c [] {} where
  now_eq := by simp [travelled, untimedIn]
  fresh _ x hx := by simp at hx
  anchored h := by cases h
  lastRaw_eq raw h := by simp [stamps] at h
  untimed_eq := by simp [untimedIn, sinceMove]
  floor_le := Nat.le_refl 0
  swappable_iff := by simp
  kept x hx := by simp at hx

section Step

variable {c : Config} {xs : List Clocked} {x : Clocked}

/-- A record without a stamp. -/
theorem Accounts.untimed (h : Accounts c xs x.before) (hraw : x.record.rawTicks = none)
    (hstate : x.advance.state = { x.before with
      now := x.before.now + 1, untimed := x.before.untimed + 1, swappable := false })
    (hmove : x.advance.order.isMove = true) : Accounts c (xs ++ [x]) x.advance.state := by
  have htimed : x.record.isTimed = false := by rw [Record.isTimed, hraw]; rfl
  have hmoves : x.moves = false := by rw [Clocked.moves, htimed]; rfl
  rw [hstate]
  constructor
  case now_eq =>
    rw [travelled_of_not_moves hmoves, untimedIn_of_not_isTimed htimed, ← Nat.add_assoc, ← h.now_eq]
  case fresh =>
    exact fun hs => List.forall_mem_append.2 ⟨h.fresh hs, List.forall_mem_singleton.2 htimed⟩
  case anchored =>
    intro hs
    obtain ⟨y, hy, hymoves⟩ := h.anchored hs
    exact ⟨y, List.mem_append_left _ hy, hymoves⟩
  case lastRaw_eq =>
    rw [travelled_of_not_moves hmoves, stamps_concat, hraw, Option.toList_none, List.append_nil]
    exact h.lastRaw_eq
  case untimed_eq =>
    rw [sinceMove_of_not_moves hmoves, untimedIn_of_not_isTimed htimed, ← h.untimed_eq]
  case floor_le => exact Nat.le_succ_of_le h.floor_le
  case swappable_iff => simp [hmoves]
  case kept =>
    refine List.forall_mem_append.2 ⟨h.kept, List.forall_mem_singleton.2 fun hlags => ?_⟩
    rw [hmove] at hlags
    cases hlags

/-- A stamp that lags, whether it can be swapped or not. -/
theorem Accounts.lagging (h : Accounts c xs x.before) {raw : UInt16}
    (hraw : x.record.rawTicks = some raw) (hs : x.before.anchored = true)
    (hstate : x.advance.state = { x.before with swappable := false })
    (hmove : x.advance.order.isMove = false) : Accounts c (xs ++ [x]) x.advance.state := by
  have htimed : x.record.isTimed = true := by rw [Record.isTimed, hraw]; rfl
  have hmoves : x.moves = false := by rw [Clocked.moves, hmove, Bool.and_false]
  obtain ⟨y, hy, hymoves⟩ := h.anchored hs
  rw [hstate]
  constructor
  case now_eq => rw [travelled_of_not_moves hmoves, untimedIn_of_isTimed htimed, ← h.now_eq]
  case fresh => exact fun hfresh => absurd (hs.symm.trans hfresh) (by decide)
  case anchored => exact fun _ => ⟨y, List.mem_append_left _ hy, hymoves⟩
  case lastRaw_eq =>
    rw [travelled_of_not_moves hmoves, head?_stamps_of_moves hy hymoves]
    exact h.lastRaw_eq
  case untimed_eq =>
    rw [sinceMove_of_not_moves hmoves, untimedIn_of_isTimed htimed]
    exact h.untimed_eq
  case floor_le => exact h.floor_le
  case swappable_iff => simp [hmoves]
  case kept => exact List.forall_mem_append.2 ⟨h.kept, List.forall_mem_singleton.2 fun _ => hstate⟩

/-- A stamp that the clock moves to, `ticks` after the last one. -/
theorem Accounts.moved (h : Accounts c xs x.before) {raw : UInt16} {ticks : Nat} {order : Order}
    (hraw : x.record.rawTicks = some raw)
    (hx : x.advance = x.before.anchor raw (x.before.now + ticks * c.tickNs) order)
    (hmove : order.isMove = true) (hticks : travelled (xs ++ [x]) = travelled xs + ticks)
    (hlast : ∀ first, (stamps (xs ++ [x])).head? = some first →
      raw.toNat = (first.toNat + (travelled xs + ticks)) % period) :
    Accounts c (xs ++ [x]) x.advance.state := by
  have htimed : x.record.isTimed = true := by rw [Record.isTimed, hraw]; rfl
  have hmoves : x.moves = true := by rw [Clocked.moves, htimed, hx]; exact hmove
  rw [hx]
  constructor
  case now_eq =>
    rw [hticks, untimedIn_of_isTimed htimed, Nat.add_mul, Nat.add_right_comm, ← h.now_eq]
    rfl
  case fresh => exact fun hs => absurd hs (by simp [State.anchor])
  case anchored => exact fun _ => ⟨x, List.mem_append_right _ (List.mem_singleton_self x), hmoves⟩
  case lastRaw_eq =>
    rw [hticks]
    exact hlast
  case untimed_eq =>
    rw [sinceMove_of_moves hmoves]
    rfl
  case floor_le => exact Nat.le_add_right _ _
  case swappable_iff => simp [hmoves, State.anchor]
  case kept =>
    refine List.forall_mem_append.2 ⟨h.kept, List.forall_mem_singleton.2 fun hlags => ?_⟩
    rw [hx] at hlags
    exact absurd (hmove.symm.trans hlags) (by decide)

/-- The first stamp. -/
theorem Accounts.first (h : Accounts c xs x.before) {raw : UInt16}
    (hraw : x.record.rawTicks = some raw) (hs : x.before.anchored = false)
    (hx : x.advance = x.before.anchor raw x.before.now .inOrder) :
    Accounts c (xs ++ [x]) x.advance.state := by
  have hmoves : x.moves = true := by
    rw [Clocked.moves, Record.isTimed, hraw, hx]
    rfl
  have hnone : ∀ y ∈ xs, y.moves = false := fun y hy => by
    rw [Clocked.moves, h.fresh hs y hy, Bool.false_and]
  have htravelled : travelled xs = 0 := by
    rw [travelled, List.filter_eq_nil_iff.2 (by simpa using hnone)]
    rfl
  have hstamps : stamps xs = [] := by
    refine List.filterMap_eq_nil_iff.2 fun y hy => Option.not_isSome_iff_eq_none.1 ?_
    exact Bool.eq_false_iff.1 (h.fresh hs y hy)
  have hnow : x.advance = x.before.anchor raw (x.before.now + 0 * c.tickNs) .inOrder := by
    rw [hx, Nat.zero_mul, Nat.add_zero]
  have hticks : travelled (xs ++ [x]) = travelled xs + 0 := by
    rw [travelled_first hmoves hnone, htravelled]
  refine h.moved hraw hnow rfl hticks fun first hfirst => ?_
  rw [stamps_concat, hstamps, hraw] at hfirst
  obtain rfl : raw = first := Option.some.inj hfirst
  rw [htravelled, Nat.add_zero]
  exact (Nat.mod_eq_of_lt raw.toNat_lt).symm

/-- A later stamp that the clock moves to. -/
theorem Accounts.onward (h : Accounts c xs x.before) {raw : UInt16} {order : Order}
    (hraw : x.record.rawTicks = some raw) (hs : x.before.anchored = true)
    (hx : x.advance =
      x.before.anchor raw (x.before.now + x.before.ahead raw * c.tickNs) order)
    (hmove : order.isMove = true) : Accounts c (xs ++ [x]) x.advance.state := by
  obtain ⟨y, hy, hymoves⟩ := h.anchored hs
  have hmoves : x.moves = true := by
    rw [Clocked.moves, Record.isTimed, hraw, hx]
    exact hmove
  refine h.moved hraw hx hmove ?_ fun first hfirst => ?_
  · rw [travelled_of_moves hmoves ⟨y, hy, hymoves⟩, Clocked.ticks, hraw]
    rfl
  · rw [head?_stamps_of_moves hy hymoves] at hfirst
    have hlast := h.lastRaw_eq first hfirst
    have hlt := raw.toNat_lt
    simp only [State.ahead, UInt16.toNat_sub, period] at hlast ⊢
    omega

/-- One record keeps the account. -/
theorem Accounts.step (h : Accounts c xs x.before)
    (hx : c.Advances x.before x.record.rawTicks x.advance) :
    Accounts c (xs ++ [x]) x.advance.state := by
  generalize hraw : x.record.rawTicks = raw? at hx
  generalize ha : x.advance = a at hx
  rw [← ha]
  cases hx with
  | untimed => exact h.untimed hraw (by rw [ha]) (by rw [ha]; rfl)
  | first hs => exact h.first hraw hs ha
  | forward hs _ => exact h.onward hraw hs ha rfl
  | ambiguous hs _ _ => exact h.onward hraw hs ha rfl
  | swap hs _ _ _ => exact h.lagging hraw hs (by rw [ha]) (by rw [ha]; rfl)
  | clamped hs _ _ _ => exact h.lagging hraw hs (by rw [ha]) (by rw [ha]; rfl)

end Step

namespace Config

theorem Walk.accounts {c : Config} {xs : List Clocked} {s : State} (h : c.Walk xs s) :
    Accounts c xs s := by
  induction h with
  | nil => exact accounts_nil c
  | concat _ ha ih => exact Accounts.step ih (advance_advances ha)

/-- The records before any of a walk are a walk to the state before it. -/
theorem Walk.take {c : Config} {xs : List Clocked} {s : State} (h : c.Walk xs s) {n : Nat}
    {x : Clocked} (hx : xs[n]? = some x) : c.Walk (xs.take (n + 1)) x.advance.state := by
  induction h with
  | nil => simp at hx
  | @concat xs s r a h ha ih =>
    rcases Nat.lt_or_ge n xs.length with hn | hn
    · rw [List.getElem?_append_left hn] at hx
      rw [List.take_append_of_le_length hn]
      exact ih hx
    · have hn' : n = xs.length := by
        have := (List.getElem?_eq_some_iff.1 hx).1
        simp only [List.length_append, List.length_singleton] at this
        omega
      subst hn'
      obtain rfl : ⟨r, s, a⟩ = x := by simpa using hx
      rw [List.take_of_length_le (by simp)]
      exact h.concat ha

/-- Whatever the stamps of the records, and after each of them. -/
theorem accounts_of_feed {c : Config} {rs : List Record} {ts : List Timed} {s : State}
    (h : c.feed {} rs = .ok (ts, s)) :
    ∃ xs, c.Walk xs s ∧ xs.map Clocked.record = rs ∧ xs.map Clocked.timed = ts ∧
      Accounts c xs s ∧
      ∀ (n : Nat) (x : Clocked), xs[n]? = some x →
        Accounts c (xs.take (n + 1)) x.advance.state := by
  obtain ⟨xs, hwalk, hrecords, hts⟩ := walk_of_feed h
  exact ⟨xs, hwalk, hrecords, hts, hwalk.accounts, fun n x hx => (hwalk.take hx).accounts⟩

/-- A swap, a stamp that lags without being swapped, and one so late that it counts as a turn. -/
theorem accounts_of_feed_turn :
    let c : Config := { window := 4 }
    let rs := [none, some 10, some 8, some 9, none, some 0, some 5].map fun raw? =>
      (⟨0, 1, .fixed, [], 0, 3, raw?⟩ : Record)
    ∃ ts s, c.feed {} rs = .ok (ts, s) ∧ s.now = 65531 * 2000 + 2 ∧
      ∃ xs, c.Walk xs s ∧ xs.map Clocked.record = rs ∧ Accounts c xs s ∧
        ∀ (n : Nat) (x : Clocked), xs[n]? = some x →
          Accounts c (xs.take (n + 1)) x.advance.state := by
  intro c rs
  have hnow : (c.feed {} rs).map (·.2.now) = .ok (65531 * 2000 + 2) := by decide +kernel
  rcases hfeed : c.feed {} rs with o | ⟨ts, s⟩
  · rw [hfeed] at hnow
    cases hnow
  · obtain ⟨xs, hwalk, hrecords, -, haccounts, hsteps⟩ := accounts_of_feed hfeed
    rw [hfeed] at hnow
    exact ⟨ts, s, rfl, Except.ok.inj hnow, xs, hwalk, hrecords, haccounts, hsteps⟩

end Config

end Clock

end Telemetry
