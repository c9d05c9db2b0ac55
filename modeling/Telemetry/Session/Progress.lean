import Telemetry.Session

/-!
Every step of a session that does not fail brings it nearer to its end (`potential_step`): the
potential weighs the bytes not yet read, those in the window, an open text, and the records that
have been parsed but not emitted.
-/

namespace Telemetry.Session

variable {σ : Type} [Source σ]

/-- The bytes that the source may still deliver. -/
def unread (s : Session) (source : σ) : Nat :=
  Source.extent source - (s.window.offset + s.window.size)

/-- What is left of the window and of an open text. -/
def pendingWork (s : Session) : Nat :=
  2 * s.window.size + if s.parser.openText.isSome then 1 else 0

/-- What is left to emit, and the end if it has not been found. -/
def pendingEmission (s : Session) : Nat :=
  s.ready.length + s.queue.held.toList.length + if s.finish.isSome then 0 else 1

def potential (s : Session) (source : σ) : Nat :=
  8 * s.unread source + 2 * s.pendingWork + s.pendingEmission

theorem pendingEmission_stop {s : Session} (finish : StreamEnd) (h : s.finish = none) :
    (s.stop finish).pendingEmission < s.pendingEmission := by
  simp [stop, pendingEmission, Queue.flush, h]

theorem potential_stop {s : Session} (finish : StreamEnd) (h : s.finish = none) (source : σ) :
    (s.stop finish).potential source < s.potential source := by
  have hlt := pendingEmission_stop finish h
  have hunread : (s.stop finish).unread source = s.unread source := rfl
  have hwork : (s.stop finish).pendingWork = s.pendingWork := rfl
  unfold potential
  omega

theorem consume_eq_ok {w w' : Window} {count : Nat} (h : w.consume count = .ok w') :
    w'.offset + w'.size = w.offset + w.size ∧
      w'.size = w.size - count := by
  unfold Window.consume at h
  simp only [bind, Except.bind, pure, Except.pure] at h
  split at h
  · simp at h
  · next offset ho =>
    obtain ⟨_, rfl⟩ := Word.add_eq_ok_iff.1 ho
    simp only [Except.ok.injEq] at h
    subst h
    constructor
    · dsimp only
      omega
    · rfl

theorem accept_eq_ok {s s' : Session} {parser : Record.Parser} {record : Record} {consumed : Nat}
    (h : s.accept parser record consumed = .ok s') :
    s'.window.offset + s'.window.size = s.window.offset + s.window.size ∧
      s'.window.size = s.window.size - consumed ∧ s'.parser = parser ∧
      s'.pendingEmission = s.pendingEmission + 1 := by
  unfold accept at h
  simp only [bind, Except.bind, pure, Except.pure] at h
  split at h
  · simp at h
  · next window hw =>
    split at h
    · simp at h
    · split at h
      · simp at h
      · next advance _ =>
        simp only [Except.ok.injEq] at h
        subst h
        have hlen := Queue.length_push s.queue ⟨record, advance.ns, advance.order⟩
        refine ⟨(consume_eq_ok hw).1, (consume_eq_ok hw).2, rfl, ?_⟩
        simp only [pendingEmission, List.length_append]
        omega

theorem fill_eq_ok {w w' : Window} {source source' : σ} {added : Nat}
    (h : w.fill source = (.ok (added, w'), source')) :
    Source.extent source' = Source.extent source ∧ w'.offset = w.offset ∧
      w'.size = w.size + added ∧
      (added ≠ 0 → w.offset + w.size + added ≤ Source.extent source) := by
  unfold Window.fill at h
  split at h
  · simp only [Prod.mk.injEq, Except.ok.injEq] at h
    obtain ⟨⟨rfl, rfl⟩, rfl⟩ := h
    simp
  · split at h
    · simp at h
    · next position hp =>
      obtain ⟨_, rfl⟩ := Word.add_eq_ok_iff.1 hp
      have hext := Source.extent_read source (w.offset + w.size) Window.fillSize
      have hoff := w.offset_extend
      have hsize := w.size_extend
      split at h
      · simp at h
      · next bytes after hread =>
        simp only [Prod.mk.injEq, Except.ok.injEq] at h
        obtain ⟨⟨rfl, rfl⟩, rfl⟩ := h
        have hfst := congrArg Prod.fst hread
        rw [hread] at hext
        refine ⟨hext, hoff bytes, hsize bytes, fun hne => ?_⟩
        exact Source.read_within hfst (by intro h0; simp [h0] at hne)

theorem potential_refill {s s' : Session} {source source' : σ} {e : Event}
    (hfin : s.finish = none) (h : s.refill source = (.ok (e, s'), source')) :
    s'.potential source' < s.potential source := by
  unfold refill at h
  split at h
  · simp at h
  · next added window after hf =>
    obtain ⟨hext, hoff, hlen, hle⟩ := fill_eq_ok hf
    dsimp only at h
    split at h
    · next hzero =>
      split at h
      · simp at h
      · next finish _ =>
        simp only [Prod.mk.injEq, Except.ok.injEq] at h
        obtain ⟨⟨_, rfl⟩, rfl⟩ := h
        have hsame : ({ s with window } : Session).potential after = s.potential source := by
          simp only [potential, unread, pendingWork, pendingEmission, hext, hoff, hlen, hzero,
            Nat.add_zero]
        rw [← hsame]
        exact potential_stop (s := { s with window }) finish hfin after
    · next hne =>
      simp only [Prod.mk.injEq, Except.ok.injEq] at h
      obtain ⟨⟨_, rfl⟩, rfl⟩ := h
      have := hle hne
      simp only [potential, unread, pendingWork, pendingEmission, hext, hoff, hlen]
      omega

theorem potential_examine {s s' : Session} {source source' : σ} {e : Event}
    (hfin : s.finish = none) (h : s.examine source = (.ok (e, s'), source')) :
    s'.potential source' < s.potential source := by
  have hbytes := s.window.length_bytes
  unfold examine at h
  split at h
  · simp at h
  · next record consumed parser hd =>
    split at h
    · simp at h
    · next after ha =>
      simp only [Prod.mk.injEq, Except.ok.injEq] at h
      obtain ⟨⟨_, rfl⟩, rfl⟩ := h
      obtain ⟨hsum, hlen, hp, hem⟩ := accept_eq_ok ha
      have hprog := Record.Parser.progress_of_complete hd
      simp only [potential, unread, pendingWork, hem, hp, hsum]
      rw [hlen]
      rcases hprog with ⟨rfl, hopen, hnone⟩ | ⟨hpos, hle, himp⟩
      · simp only [hopen, hnone, if_true, Option.isSome_none, Bool.false_eq_true, if_false]
        omega
      · by_cases hopen : parser.openText.isSome
        · simp only [hopen, himp hopen]
          omega
        · simp only [hopen]
          split <;> omega
  · next consumed parser hd =>
    obtain ⟨rfl, hle⟩ := Record.Parser.consumed_of_pending hd
    split at h
    · simp at h
    · next window hw =>
      simp only [Prod.mk.injEq, Except.ok.injEq] at h
      obtain ⟨⟨_, rfl⟩, rfl⟩ := h
      obtain ⟨hsum, hlen⟩ := consume_eq_ok hw
      simp only [potential, unread, pendingWork, pendingEmission, hsum]
      rw [hlen]
      split <;> split <;> omega
  · exact potential_refill hfin h
  · next offset tag _ _ =>
    simp only [Prod.mk.injEq, Except.ok.injEq] at h
    obtain ⟨⟨_, rfl⟩, rfl⟩ := h
    exact potential_stop _ hfin source

theorem potential_look {s s' : Session} {source source' : σ} {e : Event}
    (hfin : s.finish = none) (h : s.look source = (.ok (e, s'), source')) :
    s'.potential source' < s.potential source := by
  unfold look at h
  split at h
  · exact potential_refill hfin h
  · exact potential_examine hfin h

/-- A step that does not fail makes the potential smaller, unless there is nothing left to do. -/
theorem potential_step {s s' : Session} {source source' : σ} {e : Event}
    (h : s.step source = (.ok (e, s'), source')) (he : e ≠ .over) :
    s'.potential source' < s.potential source := by
  unfold step at h
  split at h
  · next t ready hr =>
    simp only [Prod.mk.injEq, Except.ok.injEq] at h
    obtain ⟨⟨_, rfl⟩, rfl⟩ := h
    simp only [potential, unread, pendingWork, pendingEmission, hr, List.length_cons]
    omega
  · next hr =>
    split at h
    · simp only [Prod.mk.injEq, Except.ok.injEq] at h
      exact absurd h.1.1.symm he
    · next hfin =>
      split at h
      · next limit _ =>
        simp only [Prod.mk.injEq, Except.ok.injEq] at h
        obtain ⟨⟨_, rfl⟩, rfl⟩ := h
        exact potential_stop _ hfin source
      · exact potential_look hfin h

end Telemetry.Session
