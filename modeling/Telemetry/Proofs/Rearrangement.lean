import Mathlib.Logic.Equiv.Basic
import Telemetry.Proofs.Emission

/-!
# The queue under any use

A queue may be pushed into and flushed in any order, and told any order of a record.  What has come
out of it and what it holds are at any moment the records pushed, exchanged in disjoint pairs of
neighbours: those of which the second was to come first and was pushed while the first was held
(`Keeps`).  No other record leaves its place (`rearranges_flushed`).
-/

namespace Telemetry

namespace Queue

/-- What is done to a queue. -/
inductive Use where
  | push (t : Timed)
  | flush
  deriving DecidableEq, Repr

def Use.pushed? : Use → Option Timed
  | push t => some t
  | flush => none

/-- The records that are pushed, in this order. -/
def pushed (uses : List Use) : List Timed :=
  uses.filterMap Use.pushed?

/-- A queue, with all that has come out of it, after one more use. -/
def use (s : Queue × List Timed) : Use → Queue × List Timed
  | .push t => ((s.1.push t).1, s.2 ++ (s.1.push t).2)
  | .flush => (s.1.flush.1, s.2 ++ s.1.flush.2)

/-- A queue that was empty, with all that has come out of it. -/
def after (uses : List Use) : Queue × List Timed :=
  uses.foldl use ({}, [])

/-- Record `i` is pushed and kept, and the record that is pushed next is to come before it. -/
def Crossed (uses : List Use) (i : Nat) : Prop :=
  ∃ before u t later, uses = before ++ .push u :: .push t :: later ∧
    (pushed before).length = i ∧ u.order.isSwap = false ∧ t.order.isSwap = true

/-- Record `i` of those pushed stands at `place i` in `out`. -/
structure Rearranges (uses : List Use) (out : List Timed) (place : Equiv.Perm Nat) : Prop where
  length_eq : out.length = (pushed uses).length
  fixed : ∀ i, (pushed uses).length ≤ i → place i = i
  out_at : ∀ i, out[place i]? = (pushed uses)[i]?
  near : ∀ i, place i ≤ i + 1 ∧ i ≤ place i + 1
  crossed_iff : ∀ i j, i < j → (place j < place i ↔ j = i + 1 ∧ Crossed uses i)

section Uses

variable (uses : List Use)

@[simp] theorem pushed_push (t : Timed) : pushed (uses ++ [.push t]) = pushed uses ++ [t] := by
  simp [pushed, Use.pushed?]

@[simp] theorem pushed_flush : pushed (uses ++ [.flush]) = pushed uses := by
  simp [pushed, Use.pushed?]

theorem after_concat (x : Use) : after (uses ++ [x]) = use (after uses) x := by
  simp [after]

/-- Two records are crossed by the last use, or have been before. -/
theorem crossed_concat {x : Use} {i : Nat} : Crossed (uses ++ [x]) i ↔ Crossed uses i ∨
    ∃ before u t, uses = before ++ [.push u] ∧ x = .push t ∧ (pushed before).length = i ∧
      u.order.isSwap = false ∧ t.order.isSwap = true := by
  constructor
  · rintro ⟨before, u, t, later, huses, hi, hu, ht⟩
    rcases List.eq_nil_or_concat later with rfl | ⟨later, y, rfl⟩
    · have hsplit : uses ++ [x] = (before ++ [.push u]) ++ [.push t] := by simpa using huses
      obtain ⟨hbefore, hx⟩ := List.append_inj' hsplit rfl
      exact .inr ⟨before, u, t, hbefore, List.singleton_inj.1 hx, hi, hu, ht⟩
    · have hsplit : uses ++ [x] = (before ++ .push u :: .push t :: later) ++ [y] := by
        simpa using huses
      obtain ⟨hbefore, -⟩ := List.append_inj' hsplit rfl
      exact .inl ⟨before, u, t, later, hbefore, hi, hu, ht⟩
  · rintro (⟨before, u, t, later, rfl, h⟩ | ⟨before, u, t, rfl, rfl, h⟩)
    · exact ⟨before, u, t, later ++ [x], by simp, h⟩
    · exact ⟨before, u, t, [], by simp, h⟩

end Uses

variable {uses : List Use} {out : List Timed} {place : Equiv.Perm Nat}

theorem Rearranges.place_lt (h : Rearranges uses out place) {i : Nat}
    (hi : i < (pushed uses).length) : place i < (pushed uses).length := by
  by_contra hge
  have hfixed := h.fixed (place i) (Nat.le_of_not_lt hge)
  rw [place.injective hfixed] at hge
  exact hge hi

theorem Rearranges.flush (h : Rearranges uses out place) :
    Rearranges (uses ++ [.flush]) out place := by
  have hcrossed : ∀ i, Crossed (uses ++ [.flush]) i ↔ Crossed uses i := by
    simp [crossed_concat]
  refine ⟨?_, ?_, ?_, h.near, fun i j hij => ?_⟩
  · rw [pushed_flush, h.length_eq]
  · rw [pushed_flush]
    exact h.fixed
  · rw [pushed_flush]
    exact h.out_at
  · rw [hcrossed, h.crossed_iff i j hij]

/-- A record that crosses none comes last. -/
theorem Rearranges.concat (h : Rearranges uses out place) (t : Timed)
    (hcrossed : ∀ i, Crossed (uses ++ [.push t]) i ↔ Crossed uses i) :
    Rearranges (uses ++ [.push t]) (out ++ [t]) place := by
  refine ⟨by simp [h.length_eq], fun i hi => ?_, fun i => ?_, h.near, fun i j hij => ?_⟩
  · simp only [pushed_push, List.length_append, List.length_singleton] at hi
    exact h.fixed i (by omega)
  · rw [pushed_push]
    rcases Nat.lt_or_ge i (pushed uses).length with hlt | hge
    · have hplace := h.place_lt hlt
      rw [List.getElem?_append_left hlt, ← h.out_at,
        List.getElem?_append_left (by rwa [h.length_eq])]
    · rw [h.fixed i hge, List.getElem?_append_right hge,
        List.getElem?_append_right (by rwa [h.length_eq]), h.length_eq]
  · rw [hcrossed, h.crossed_iff i j hij]

/-- The two last places may be exchanged. -/
theorem exists_exchanged {n : Nat} (hn : place n = n) (hnext : place (n + 1) = n + 1) :
    ∃ place' : Equiv.Perm Nat, place' n = n + 1 ∧ place' (n + 1) = n ∧
      ∀ i, i ≠ n → i ≠ n + 1 → place' i = place i := by
  refine ⟨(Equiv.swap n (n + 1)).trans place, by simp [hnext], by simp [hn], fun i hi hi' => ?_⟩
  simp [Equiv.swap_apply_of_ne_of_ne hi hi']

/-- A record that crosses the last one takes its place. -/
theorem Rearranges.cross {u : Timed} (h : Rearranges uses (out ++ [u]) place) (t : Timed)
    (hlast : place out.length = out.length)
    (hcrossed : ∀ i, Crossed (uses ++ [.push t]) i ↔ Crossed uses i ∨ i = out.length) :
    ∃ place', Rearranges (uses ++ [.push t]) (out ++ [t, u]) place' := by
  have hlen : (pushed uses).length = out.length + 1 := by simp [← h.length_eq]
  have habove : ∀ i, out.length + 1 ≤ i → place i = i := fun i hi => h.fixed i (by omega)
  have hbelow : ∀ i, i < out.length → place i < out.length := by
    intro i hi
    have hlt := h.place_lt (i := i) (by omega)
    have hne : place i ≠ out.length := fun heq => by
      have := place.injective (heq.trans hlast.symm)
      omega
    omega
  obtain ⟨place', hfirst, hsecond, hother⟩ := exists_exchanged hlast (habove _ (Nat.le_refl _))
  refine ⟨place', by simp [hlen], fun i hi => ?_, fun i => ?_, fun i => ?_, fun i j hij => ?_⟩
  · simp only [pushed_push, List.length_append, List.length_singleton] at hi
    rw [hother i (by omega) (by omega), habove i (by omega)]
  · have hat := h.out_at i
    rw [pushed_push]
    rcases Nat.lt_trichotomy i out.length with hi | rfl | hi
    · have hplace := hbelow i hi
      rw [List.getElem?_append_left hplace] at hat
      rw [hother i (by omega) (by omega), List.getElem?_append_left hplace, hat,
        List.getElem?_append_left (by omega)]
    · rw [hlast] at hat
      rw [hfirst, List.getElem?_append_right (Nat.le_succ _),
        List.getElem?_append_left (by omega), ← hat]
      simp
    · rcases Nat.lt_or_ge (out.length + 1) i with hi' | hi'
      · rw [hother i (by omega) (by omega), habove i (by omega),
          List.getElem?_eq_none (by simp; omega), List.getElem?_eq_none (by simp; omega)]
      · obtain rfl : i = out.length + 1 := by omega
        rw [hsecond, List.getElem?_append_right (Nat.le_refl _),
          List.getElem?_append_right (by omega), hlen]
        simp
  · have hnear := h.near i
    grind
  · have hold := h.crossed_iff i j hij
    rw [hcrossed]
    grind

/-- Where the records stand after some uses. -/
structure Keeps (uses : List Use) (s : Queue × List Timed) (place : Equiv.Perm Nat) : Prop where
  rearranges : Rearranges uses (s.2 ++ s.1.held.toList) place
  held_iff : ∀ u, s.1.held = some u ↔
    ∃ before, uses = before ++ [.push u] ∧ u.order.isSwap = false
  held_place : s.1.held.isSome → place s.2.length = s.2.length

variable {s : Queue × List Timed}

theorem keeps_nil : Keeps [] ({}, []) (.refl Nat) where
  rearranges := by
    refine ⟨rfl, fun i _ => rfl, fun i => rfl, fun i => by simp, fun i j hij => ?_⟩
    constructor
    · intro hlt
      exact absurd hlt (Nat.not_lt.2 hij.le)
    · rintro ⟨-, before, u, t, later, huses, -⟩
      simp at huses
  held_iff u := by simp
  held_place h := by cases h

theorem Keeps.flush (h : Keeps uses s place) : Keeps (uses ++ [.flush]) (use s .flush) place where
  rearranges := by simpa [use, Queue.flush] using h.rearranges.flush
  held_iff u := by simp [use, Queue.flush]
  held_place hheld := by cases hheld

theorem Keeps.push_kept (h : Keeps uses s place) {t : Timed} (ht : t.order.isSwap = false) :
    Keeps (uses ++ [.push t]) (use s (.push t)) place := by
  have hcrossed : ∀ i, Crossed (uses ++ [.push t]) i ↔ Crossed uses i := by
    simp [crossed_concat, ht]
  have hrearranges := h.rearranges.concat t hcrossed
  rw [use, push_of_not_swap ht]
  refine ⟨hrearranges, fun u => ?_, fun _ => ?_⟩
  · simp only [Option.some.injEq]
    constructor
    · rintro rfl
      exact ⟨uses, rfl, ht⟩
    · rintro ⟨before, huses, -⟩
      simpa using (List.append_inj' huses rfl).2
  · refine h.rearranges.fixed _ ?_
    rw [← h.rearranges.length_eq]

theorem Keeps.push_swap (h : Keeps uses s place) {t : Timed} (ht : t.order.isSwap = true) :
    ∃ place', Keeps (uses ++ [.push t]) (use s (.push t)) place' := by
  have hnone : ∀ u, ¬ ∃ before,
      uses ++ [.push t] = before ++ [.push u] ∧ u.order.isSwap = false := by
    rintro u ⟨before, huses, hu⟩
    obtain ⟨-, htu⟩ := List.append_inj' huses rfl
    simp only [List.cons.injEq, Use.push.injEq, and_true] at htu
    rw [← htu, ht] at hu
    cases hu
  have hrearranges := h.rearranges
  rw [use, push_of_swap ht]
  rcases hheld : s.1.held with _ | u
  · -- nothing is held, so no record can be crossed
    rw [hheld, Option.toList_none, List.append_nil] at hrearranges
    have hcrossed : ∀ i, Crossed (uses ++ [.push t]) i ↔ Crossed uses i := by
      intro i
      rw [crossed_concat]
      refine or_iff_left ?_
      rintro ⟨before, u, t', rfl, -, -, hu, -⟩
      have := (h.held_iff u).2 ⟨before, rfl, hu⟩
      rw [hheld] at this
      cases this
    refine ⟨place, ?_, fun u => ?_, fun hsome => by cases hsome⟩
    · simpa using hrearranges.concat t hcrossed
    · simpa using hnone u
  · obtain ⟨before, rfl, hu⟩ := (h.held_iff u).1 hheld
    have hlast := h.held_place (by simp [hheld])
    rw [hheld, Option.toList_some] at hrearranges
    have hbefore : (pushed before).length = s.2.length := by
      simpa using hrearranges.length_eq.symm
    have hcrossed : ∀ i, Crossed (before ++ [.push u] ++ [.push t]) i ↔
        Crossed (before ++ [.push u]) i ∨ i = s.2.length := by
      intro i
      rw [crossed_concat]
      refine or_congr_right ⟨?_, ?_⟩
      · rintro ⟨before', u', t', huses, -, hi, -⟩
        obtain ⟨rfl, -⟩ := List.append_inj' huses rfl
        rw [← hi, hbefore]
      · rintro rfl
        exact ⟨before, u, t, rfl, rfl, hbefore, hu, ht⟩
    obtain ⟨place', hcross⟩ := hrearranges.cross t hlast hcrossed
    refine ⟨place', ?_, fun u => ?_, fun hsome => by cases hsome⟩
    · simpa using hcross
    · simpa using hnone u

theorem Keeps.use (h : Keeps uses s place) (x : Use) :
    ∃ place', Keeps (uses ++ [x]) (use s x) place' := by
  cases x with
  | flush => exact ⟨place, h.flush⟩
  | push t =>
    rcases ht : t.order.isSwap
    · exact ⟨place, h.push_kept ht⟩
    · exact h.push_swap ht

/-- At any moment, what has come out and what is held are the records pushed, but for neighbours
that crossed. -/
theorem keeps_after (uses : List Use) : ∃ place, Keeps uses (after uses) place := by
  induction uses using List.reverseRecOn with
  | nil => exact ⟨_, keeps_nil⟩
  | append_singleton uses x ih =>
    obtain ⟨place, h⟩ := ih
    rw [after_concat]
    exact h.use x

theorem use_perm (s : Queue × List Timed) (x : Use) :
    ((use s x).2 ++ (use s x).1.held.toList).Perm
      (s.2 ++ s.1.held.toList ++ x.pushed?.toList) := by
  cases x with
  | push t =>
    simp only [use, Use.pushed?, Option.toList_some, List.append_assoc]
    exact (push_perm s.1 t).append_left s.2
  | flush => simp [use, Queue.flush, Use.pushed?]

/-- Nothing is lost and nothing comes out twice. -/
theorem after_perm (uses : List Use) :
    ((after uses).2 ++ (after uses).1.held.toList).Perm (pushed uses) := by
  induction uses using List.reverseRecOn with
  | nil => exact .refl _
  | append_singleton uses x ih =>
    rw [after_concat]
    refine (use_perm _ x).trans ((ih.append_right _).trans ?_)
    cases x <;> simp [Use.pushed?]

/-- However a queue is used, flushing it at the end gives each record once, in its place among
those pushed or in that of a neighbour; two records are inverted only if the second was to come
first and was pushed right after the first, which was kept.  What has come out by any moment and
what is held then are the records pushed by then, and the corrections are those of the records as
they were pushed. -/
theorem rearranges_flushed (uses : List Use) :
    let out := (after (uses ++ [.flush])).2
    (∃ place, Rearranges uses out place) ∧ out.Perm (pushed uses) ∧
      (∀ n, ((after (uses.take n)).2 ++ (after (uses.take n)).1.held.toList).Perm
        (pushed (uses.take n))) ∧
      Corrections.ofList out = ((pushed uses).map Timed.order).foldl Corrections.observe {} := by
  intro out
  obtain ⟨place, hkeeps⟩ := keeps_after uses
  have hout : out = (after uses).2 ++ (after uses).1.held.toList := by
    simp only [out, after_concat, use, Queue.flush]
  have hperm : out.Perm (pushed uses) := hout ▸ after_perm uses
  refine ⟨⟨place, hout ▸ hkeeps.rearranges⟩, hperm, fun n => after_perm _, ?_⟩
  rw [Corrections.ofList_perm hperm, Corrections.ofList, List.foldl_map]

end Queue

end Telemetry
