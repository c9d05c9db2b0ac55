import Telemetry.Proofs.Course

/-!
# Emitted time

The times of the emitted records never run backwards, and a record without a stamp is later than
all before it (`pairwise_emitted`).  A swap gives a record a time before the clock's, so the proof
follows what has been let go of, the held record and the clock together (`InStep`): while a swap is
possible, the held record has the time of the clock, and nothing let go of is later than the time
which the swap cannot go below.
-/

namespace Telemetry

/-- One record may be emitted after another. -/
def Timed.Before (a b : Timed) : Prop :=
  a.ns ≤ b.ns ∧ (b.record.isTimed = false → a.ns < b.ns)

theorem Timed.Before.of_isTimed {a b : Timed} (h : a.ns ≤ b.ns) (hb : b.record.isTimed = true) :
    a.Before b :=
  ⟨h, fun hnot => absurd hb (by simp [hnot])⟩

namespace Queue

/-- The clock, the held record and the records let go of, which are `past`. -/
structure InStep (s : Clock.State) (q : Queue) (past : List Timed) : Prop where
  pairwise : (past ++ q.held.toList).Pairwise Timed.Before
  le_now : ∀ t ∈ past ++ q.held.toList, t.ns ≤ s.now
  floor_le : s.floor ≤ s.now
  held_of_swappable : s.swappable = true → ∃ u, q.held = some u ∧ u.ns = s.now ∧
    u.record.isTimed = true ∧ ∀ t ∈ past, t.ns ≤ s.floor

theorem inStep_empty : InStep {} {} [] where
  pairwise := .nil
  le_now := by simp
  floor_le := Nat.le_refl 0
  held_of_swappable h := by simp at h

variable {s s' : Clock.State} {q : Queue} {past : List Timed}

/-- A record that is held, the clock having come to its time. -/
theorem InStep.hold (h : InStep s q past) {t : Timed} (hle : s.now ≤ t.ns)
    (hlt : t.record.isTimed = false → s.now < t.ns) (hnow : s'.now = t.ns)
    (hfloor : s'.floor ≤ t.ns)
    (hswap : s'.swappable = true → t.record.isTimed = true ∧ s'.floor = s.now) :
    InStep s' ⟨some t⟩ (past ++ q.held.toList) where
  pairwise := by
    rw [Option.toList_some, List.pairwise_append]
    refine ⟨h.pairwise, List.pairwise_singleton _ _, fun a ha b hb => ?_⟩
    rw [List.mem_singleton.1 hb]
    have hnow := h.le_now a ha
    exact ⟨hnow.trans hle, fun hnot => Nat.lt_of_le_of_lt hnow (hlt hnot)⟩
  le_now u hu := by
    rw [hnow]
    rcases List.mem_append.1 hu with hu | hu
    · exact (h.le_now u hu).trans hle
    · rw [List.mem_singleton.1 hu]
  floor_le := by rwa [hnow]
  held_of_swappable hs := by
    obtain ⟨htimed, hfloor'⟩ := hswap hs
    exact ⟨t, rfl, hnow.symm, htimed, fun u hu => hfloor' ▸ h.le_now u hu⟩

/-- A record that comes out before the held one, with a time between the floor and the clock. -/
theorem InStep.swap (h : InStep s q past) {t : Timed} (hs : s.swappable = true)
    (htimed : t.record.isTimed = true) (hfloor : s.floor ≤ t.ns) (hle : t.ns ≤ s.now) :
    InStep { s with swappable := false } ⟨none⟩ (past ++ t :: q.held.toList) := by
  obtain ⟨u, hu, hns, hutimed, hpast⟩ := h.held_of_swappable hs
  have hpairwise : past.Pairwise Timed.Before := (List.pairwise_append.1 h.pairwise).1
  have hlater : ∀ a ∈ past, a.Before t ∧ a.Before u := by
    intro a ha
    have ha' := hpast a ha
    exact ⟨.of_isTimed (ha'.trans hfloor) htimed,
      .of_isTimed (by omega) hutimed⟩
  have htu : t.Before u := .of_isTimed (by omega) hutimed
  rw [hu, Option.toList_some]
  refine ⟨?_, ?_, h.floor_le, fun hs => by simp at hs⟩
  · rw [Option.toList_none, List.append_nil, List.pairwise_append]
    refine ⟨hpairwise, by simpa using htu, fun a ha b hb => ?_⟩
    rcases List.mem_pair.1 hb with rfl | rfl
    · exact (hlater a ha).1
    · exact (hlater a ha).2
  · intro a ha
    simp only [Option.toList_none, List.append_nil, List.mem_append, List.mem_cons,
      List.not_mem_nil, or_false] at ha
    rcases ha with ha | rfl | rfl
    · exact h.le_now a (List.mem_append_left _ ha)
    · exact hle
    · exact hns.le

/-- One more record keeps the clock and the queue in step. -/
theorem InStep.push (h : InStep s q past) {c : Clock.Config} {r : Record} {a : Clock.Advance}
    (ha : c.Advances s r.rawTicks a) :
    InStep a.state (q.push ⟨r, a.ns, a.order⟩).1 (past ++ (q.push ⟨r, a.ns, a.order⟩).2) := by
  obtain ⟨raw?, hraw⟩ : ∃ raw?, r.rawTicks = raw? := ⟨_, rfl⟩
  have htimed : r.isTimed = raw?.isSome := by rw [Record.isTimed, hraw]
  rw [hraw] at ha
  have hfloor := h.floor_le
  cases ha with
  | untimed =>
    rw [push_of_not_swap rfl]
    refine h.hold (Nat.le_succ _) (fun _ => Nat.lt_succ_self _) rfl (Nat.le_succ_of_le hfloor) ?_
    intro hs
    cases hs
  | first hs =>
    rw [push_of_not_swap rfl]
    exact h.hold (Nat.le_refl _) (by simp [htimed]) rfl (Nat.le_refl _) fun _ => ⟨htimed, rfl⟩
  | forward hs hahead =>
    rw [push_of_not_swap rfl]
    exact h.hold (Nat.le_add_right _ _) (by simp [htimed]) rfl (Nat.le_add_right _ _)
      fun _ => ⟨htimed, rfl⟩
  | ambiguous hs hahead hback =>
    rw [push_of_not_swap rfl]
    exact h.hold (Nat.le_add_right _ _) (by simp [htimed]) rfl (Nat.le_add_right _ _)
      fun _ => ⟨htimed, rfl⟩
  | swap hs hahead hback hswap =>
    -- a time below the clock's, but what was let go of is not above the floor
    rw [push_of_swap rfl]
    exact h.swap hswap htimed (Nat.le_max_right _ _) (Nat.max_le.2 ⟨Nat.sub_le _ _, hfloor⟩)
  | clamped hs hahead hback hswap =>
    rw [push_of_not_swap rfl]
    refine h.hold (Nat.le_refl _) (by simp [htimed]) rfl hfloor ?_
    intro hs
    cases hs

theorem InStep.pushAll (c : Clock.Config) : ∀ (s : Clock.State) (rs : List Record) (q : Queue)
    (past : List Timed), InStep s q past →
      InStep (c.timeline s rs).state (q.pushAll ((c.timeline s rs).items.map Clocked.timed)).1
        (past ++ (q.pushAll ((c.timeline s rs).items.map Clocked.timed)).2)
  | _, [], _, past, h => by simpa [Clock.Config.timeline, Queue.pushAll] using h
  | s, r :: rs, q, past, h => by
    rcases ha : c.enter s r with o | a
    · rw [Clock.Config.timeline_of_error ha]
      simpa [Queue.pushAll] using h
    · rw [Clock.Config.timeline_of_ok ha]
      have hpush := h.push (Clock.Config.enter_advances ha)
      simp only [List.map_cons, Queue.pushAll, ← List.append_assoc]
      exact InStep.pushAll c a.state rs _ _ hpush

end Queue

namespace Session

variable {σ : Type} [Source σ]

/-- Emitted time never runs backwards, and moves on at every record without a stamp. -/
theorem pairwise_emitted (table : Tag.Table) (clock : Clock.Config) (source : σ) :
    ((new table clock).run source).emitted.toList.Pairwise fun a b =>
      a.ns ≤ b.ns ∧ (b.record.isTimed = false → a.ns < b.ns) := by
  have hcourse := run_course (s := new table clock) source rfl
  have hstep := Queue.InStep.pushAll clock {}
    (((new table clock).run source).observed.toList.map Observation.record) {} [] Queue.inStep_empty
  rw [List.nil_append] at hstep
  rcases hfault : ((new table clock).run source).fault with _ | f
  · rw [hcourse.emitted_eq hfault]
    exact hstep.pairwise
  · rw [hcourse.emitted_of_fault (by simp [hfault])]
    exact (List.pairwise_append.1 hstep.pairwise).1

end Session

end Telemetry
