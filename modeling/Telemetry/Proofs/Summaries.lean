import Mathlib.Algebra.Order.BigOperators.Group.List
import Mathlib.Algebra.Order.Ring.Nat
import Mathlib.Data.List.Induction
import Mathlib.Data.List.Perm.Basic
import Mathlib.Data.String.Basic
import Telemetry.Timing

/-!
# What a tracker tells

However the runs of several operations follow one another, a tracker holds for each name the number
of its runs and the sum of their durations, in the order of the names (`Holds`), unless a sum leaves
its range.  Names and tallies determine the list, so the order of the runs does not matter
(`Holds.unique`).

The count is divided by in 32 bits.  The average is the sum over the count, rounded down, as long as
the count has no more bits than that (`summarizes_snapshot`), and is wrong for longer runs
(`average_ne_quotient`).
-/

namespace Telemetry

namespace Timing

/-- The durations of all runs of a name, in nanoseconds. -/
def durations (name : String) (runs : List (String × Duration)) : List Nat :=
  (runs.filter (·.1 = name)).map (·.2.nanos)

/-- The tally is that of the runs of a name. -/
structure Tally.Counts (tally : Tally) (name : String) (runs : List (String × Duration)) : Prop where
  count_eq : tally.count = (durations name runs).length
  nanos_eq : tally.total.nanos = (durations name runs).sum

/-- The tallies of the names of some runs. -/
structure Holds (tallies : Tallies) (runs : List (String × Duration)) : Prop where
  ascending : tallies.Pairwise (·.1 < ·.1)
  name_mem_iff : ∀ name, name ∈ tallies.map Prod.fst ↔ name ∈ runs.map Prod.fst
  counts : ∀ entry ∈ tallies, entry.2.Counts entry.1 runs

/-- The summaries of the operations of some runs. -/
structure Summarizes (summaries : List Summary) (runs : List (String × Duration)) : Prop where
  ascending : summaries.Pairwise (·.name < ·.name)
  name_mem_iff : ∀ name, name ∈ summaries.map Summary.name ↔ name ∈ runs.map Prod.fst
  count_eq : ∀ s ∈ summaries, s.count = (durations s.name runs).length
  total_eq : ∀ s ∈ summaries, s.total.nanos = (durations s.name runs).sum
  average_eq : ∀ s ∈ summaries,
    s.average.nanos = s.total.nanos / max 1 (s.count % divisorSize)
  average_eq_quotient : ∀ s ∈ summaries, s.count < divisorSize →
    s.average.nanos = s.total.nanos / s.count

section Tallies

variable {name : String} {tallies : Tallies}

theorem find_cons (name other : String) (tally : Tally) (tallies : Tallies) :
    find name ((other, tally) :: tallies) = if name = other then tally else find name tallies := by
  unfold find
  rw [List.lookup_cons]
  split_ifs with h
  · simp [h]
  · simp [beq_eq_false_iff_ne.2 h]

theorem find_of_notMem (h : ∀ tally, (name, tally) ∉ tallies) : find name tallies = {} := by
  induction tallies with
  | nil => rfl
  | cons entry tallies ih =>
    obtain ⟨other, tally⟩ := entry
    rw [find_cons, if_neg, ih fun t ht => h t (List.mem_cons_of_mem _ ht)]
    rintro rfl
    exact h tally List.mem_cons_self

theorem find_of_mem (hsorted : tallies.Pairwise (·.1 < ·.1)) {tally : Tally}
    (h : (name, tally) ∈ tallies) : find name tallies = tally := by
  induction tallies with
  | nil => cases h
  | cons entry tallies ih =>
    obtain ⟨hlt, hrest⟩ := List.pairwise_cons.1 hsorted
    obtain ⟨other, tally'⟩ := entry
    rw [find_cons]
    rcases List.mem_cons.1 h with heq | hmem
    · cases heq
      exact if_pos rfl
    · rw [if_neg (hlt _ hmem).ne']
      exact ih hrest hmem

variable (name) (f : Tally → Tally)

/-- An update changes the tally of its name alone. -/
theorem mem_update (hsorted : tallies.Pairwise (·.1 < ·.1)) (other : String) (tally : Tally) :
    (other, tally) ∈ update name f tallies ↔
      other = name ∧ tally = f (find name tallies) ∨
        other ≠ name ∧ (other, tally) ∈ tallies := by
  induction tallies with
  | nil => simp [update, find]
  | cons entry tallies ih =>
    obtain ⟨hlt, hrest⟩ := List.pairwise_cons.1 hsorted
    obtain ⟨next, tally'⟩ := entry
    rw [update]
    split_ifs with hbefore hhere
    · have hnew : ∀ t, (name, t) ∉ (next, tally') :: tallies := fun t ht => by
        rcases List.mem_cons.1 ht with heq | hmem
        · cases heq
          exact lt_irrefl _ hbefore
        · exact lt_asymm hbefore (hlt _ hmem)
      rw [find_of_notMem hnew, List.mem_cons, Prod.mk.injEq]
      refine or_congr_right ⟨fun hmem => ⟨?_, hmem⟩, And.right⟩
      rintro rfl
      exact hnew tally hmem
    · subst hhere
      have hnew : ∀ t, (name, t) ∉ tallies := fun t ht => lt_irrefl _ (hlt (name, t) ht)
      rw [find_cons, if_pos rfl, List.mem_cons, List.mem_cons, Prod.mk.injEq, Prod.mk.injEq]
      refine or_congr_right ⟨fun hmem => ⟨?_, .inr hmem⟩, fun ⟨hne, hmem⟩ => ?_⟩
      · rintro rfl
        exact hnew tally hmem
      · exact hmem.resolve_left fun heq => hne heq.1
    · rw [find_cons, if_neg hhere, List.mem_cons, List.mem_cons, ih hrest, Prod.mk.injEq]
      grind

theorem name_mem_update (hsorted : tallies.Pairwise (·.1 < ·.1)) (other : String) :
    other ∈ (update name f tallies).map Prod.fst ↔
      other = name ∨ other ∈ tallies.map Prod.fst := by
  simp only [List.mem_map, Prod.exists, exists_and_right, exists_eq_right,
    mem_update name f hsorted]
  by_cases hother : other = name
  · simp [hother]
  · simp [hother]

theorem ascending_update (hsorted : tallies.Pairwise (·.1 < ·.1)) :
    (update name f tallies).Pairwise (·.1 < ·.1) := by
  induction tallies with
  | nil => exact List.pairwise_singleton _ _
  | cons entry tallies ih =>
    obtain ⟨hlt, hrest⟩ := List.pairwise_cons.1 hsorted
    obtain ⟨next, tally⟩ := entry
    rw [update]
    split_ifs with hbefore hhere
    · refine List.pairwise_cons.2 ⟨?_, hsorted⟩
      rintro entry hentry
      rcases List.mem_cons.1 hentry with rfl | hentry
      · exact hbefore
      · exact hbefore.trans (hlt entry hentry)
    · exact List.pairwise_cons.2 ⟨hhere ▸ hlt, hrest⟩
    · refine List.pairwise_cons.2 ⟨?_, ih hrest⟩
      rintro ⟨other, tally'⟩ hentry
      rcases (mem_update name f hrest other tally').1 hentry with ⟨rfl, -⟩ | ⟨-, hentry⟩
      · exact lt_of_le_of_ne (not_lt.1 hbefore) (Ne.symm hhere)
      · exact hlt _ hentry

end Tallies

section Runs

variable {name : String} {tallies : Tallies} {runs runs' : List (String × Duration)} {d : Duration}

theorem durations_append (name : String) (runs runs' : List (String × Duration)) :
    durations name (runs ++ runs') = durations name runs ++ durations name runs' := by
  rw [durations, List.filter_append, List.map_append]
  rfl

theorem durations_self (name : String) (d : Duration) : durations name [(name, d)] = [d.nanos] := by
  simp [durations]

theorem durations_of_ne {other : String} (h : name ≠ other) (d : Duration) :
    durations other [(name, d)] = [] := by
  simp [durations, h]

theorem durations_perm (h : runs.Perm runs') (name : String) :
    (durations name runs).Perm (durations name runs') :=
  (h.filter _).map _

theorem length_durations_pos (h : name ∈ runs.map Prod.fst) :
    0 < (durations name runs).length := by
  obtain ⟨run, hrun, hname⟩ := List.mem_map.1 h
  have hmem : run ∈ runs.filter (·.1 = name) := List.mem_filter.2 ⟨hrun, by simpa using hname⟩
  exact List.length_pos_of_mem (List.mem_map_of_mem hmem)

/-- A name of none of the runs has the tally that each name starts with. -/
theorem counts_of_notMem (h : name ∉ runs.map Prod.fst) : ({} : Tally).Counts name runs := by
  have hnone : runs.filter (·.1 = name) = [] := by
    rw [List.filter_eq_nil_iff]
    intro run hrun hname
    exact h (List.mem_map.2 ⟨run, hrun, by simpa using hname⟩)
  have hdurations : durations name runs = [] := by
    rw [durations, hnone]
    rfl
  exact ⟨by rw [hdurations]; rfl, by rw [hdurations]; rfl⟩

namespace Tally.Counts

variable {tally tally' : Tally}

/-- One more run of the name. -/
theorem concat (h : tally.Counts name runs) {total : Duration}
    (htotal : total.nanos = tally.total.nanos + d.nanos) :
    Tally.Counts ⟨tally.count + 1, total⟩ name (runs ++ [(name, d)]) := by
  have hdurations := durations_append name runs [(name, d)]
  rw [durations_self] at hdurations
  constructor
  · rw [hdurations, List.length_append, h.count_eq]
    rfl
  · rw [hdurations, List.sum_append, List.sum_singleton, ← h.nanos_eq]
    exact htotal

theorem concat_of_ne {other : String} (h : tally.Counts other runs) (hne : name ≠ other) :
    tally.Counts other (runs ++ [(name, d)]) := by
  have hdurations := durations_append other runs [(name, d)]
  rw [durations_of_ne hne, List.append_nil] at hdurations
  exact ⟨hdurations ▸ h.count_eq, hdurations ▸ h.nanos_eq⟩

/-- There is one tally for a name, whatever the order of its runs. -/
theorem unique (h : tally.Counts name runs) (h' : tally'.Counts name runs')
    (hperm : runs.Perm runs') : tally = tally' := by
  have hdurations := durations_perm hperm name
  have hcount : tally.count = tally'.count := by
    rw [h.count_eq, h'.count_eq, hdurations.length_eq]
  have htotal : tally.total = tally'.total := by
    rw [Duration.ext_iff, h.nanos_eq, h'.nanos_eq, hdurations.sum_eq]
  cases tally
  cases tally'
  simp_all

end Tally.Counts

theorem holds_nil : Holds [] [] :=
  ⟨.nil, by simp, by simp⟩

theorem Holds.find_counts (h : Holds tallies runs) (name : String) :
    (find name tallies).Counts name runs := by
  by_cases hname : name ∈ tallies.map Prod.fst
  · obtain ⟨entry, hentry, rfl⟩ := List.mem_map.1 hname
    rw [find_of_mem h.ascending hentry]
    exact h.counts entry hentry
  · rw [find_of_notMem fun tally htally => hname (List.mem_map_of_mem htally)]
    exact counts_of_notMem (mt (h.name_mem_iff name).2 hname)

/-- One more run is added to the tally of its name. -/
theorem Holds.add (h : Holds tallies runs)
    (hfit : (durations name (runs ++ [(name, d)])).sum < Word.size * Duration.nanosPerSecond) :
    ∃ tallies', (Tracker.running tallies).add name d = (.ok (), .running tallies') ∧
      Holds tallies' (runs ++ [(name, d)]) := by
  have hfind := h.find_counts name
  rw [durations_append, durations_self, List.sum_append, List.sum_singleton,
    ← hfind.nanos_eq] at hfit
  let total : Duration := ⟨(find name tallies).total.nanos + d.nanos, hfit⟩
  have hadd : (find name tallies).total.add d = .ok total := Duration.add_eq_ok_iff.2 rfl
  refine ⟨update name (fun c => ⟨c.count + 1, total⟩) tallies, ?_,
    ascending_update _ _ h.ascending, fun other => ?_, ?_⟩
  · simp only [Tracker.add, hadd]
  · rw [name_mem_update _ _ h.ascending, h.name_mem_iff, List.map_append, List.mem_append, or_comm]
    simp
  · rintro ⟨other, tally⟩ hentry
    rcases (mem_update _ _ h.ascending other tally).1 hentry with ⟨rfl, rfl⟩ | ⟨hne, hmem⟩
    · exact hfind.concat rfl
    · exact (h.counts _ hmem).concat_of_ne (Ne.symm hne)

/-- The tallies of some runs, in whatever order these were. -/
theorem Holds.unique {tallies' : Tallies} (h : Holds tallies runs) (h' : Holds tallies' runs')
    (hperm : runs.Perm runs') : tallies = tallies' := by
  have hnodup : ∀ {tallies : Tallies}, tallies.Pairwise (·.1 < ·.1) → tallies.Nodup :=
    fun hsorted => List.Pairwise.imp (fun hlt heq => hlt.ne (congrArg Prod.fst heq)) hsorted
  have hsubset : ∀ {tallies tallies' : Tallies} {runs runs' : List (String × Duration)},
      Holds tallies runs → Holds tallies' runs' → runs.Perm runs' → tallies ⊆ tallies' := by
    rintro tallies tallies' runs runs' h h' hperm ⟨name, tally⟩ hentry
    have hname : name ∈ tallies'.map Prod.fst :=
      (h'.name_mem_iff name).2 ((hperm.map Prod.fst).mem_iff.1
        ((h.name_mem_iff name).1 (List.mem_map_of_mem hentry)))
    obtain ⟨⟨_, tally'⟩, hentry', rfl⟩ := List.mem_map.1 hname
    obtain rfl : tally = tally' := (h.counts _ hentry).unique (h'.counts _ hentry') hperm
    exact hentry'
  have hlists : tallies.Perm tallies' := by
    refine (List.perm_ext_iff_of_nodup (hnodup h.ascending) (hnodup h'.ascending)).2 fun entry => ?_
    exact ⟨fun he => hsubset h h' hperm he, fun he => hsubset h' h hperm.symm he⟩
  exact hlists.eq_of_pairwise (fun a b _ _ hab hba => absurd hba (lt_asymm hab)) h.ascending
    h'.ascending

end Runs

end Timing

open Timing

namespace Tracker

/-- The tracker after some runs. -/
def after (t : Tracker) (runs : List (String × Duration)) : Tracker :=
  runs.foldl (fun t run => (t.add run.1 run.2).2) t

variable {runs : List (String × Duration)}

/-- No sum of the durations of one name leaves its range. -/
def Fit (runs : List (String × Duration)) : Prop :=
  ∀ name, (durations name runs).sum < Word.size * Duration.nanosPerSecond

theorem after_concat (t : Tracker) (runs : List (String × Duration)) (run : String × Duration) :
    t.after (runs ++ [run]) = ((t.after runs).add run.1 run.2).2 :=
  List.foldl_concat ..

theorem Fit.of_append {runs' : List (String × Duration)} (h : Fit (runs ++ runs')) : Fit runs := by
  intro name
  refine Nat.lt_of_le_of_lt ?_ (h name)
  rw [durations_append, List.sum_append]
  exact Nat.le_add_right _ _

theorem holds_after (h : Fit runs) : ∃ tallies, empty.after runs = running tallies ∧
    Holds tallies runs := by
  induction runs using List.reverseRecOn with
  | nil => exact ⟨[], rfl, holds_nil⟩
  | append_singleton runs run ih =>
    obtain ⟨tallies, hafter, hholds⟩ := ih h.of_append
    obtain ⟨tallies', hadd, hholds'⟩ := hholds.add (h run.1)
    exact ⟨tallies', by rw [after_concat, hafter, hadd], hholds'⟩

theorem summarizes_of_holds {tallies : Tallies} (h : Holds tallies runs) :
    Summarizes (running tallies).snapshot runs := by
  have hnames : (running tallies).snapshot.map Summary.name = tallies.map Prod.fst :=
    List.map_map
  have haverage : ∀ s ∈ (running tallies).snapshot, 0 < s.count ∧
      s.average.nanos = s.total.nanos / max 1 (s.count % divisorSize) := by
    intro s hs
    obtain ⟨⟨name, tally⟩, hentry, rfl⟩ := List.mem_map.1 hs
    have hpos : 0 < tally.count := by
      rw [(h.counts _ hentry).count_eq]
      exact length_durations_pos ((h.name_mem_iff name).1 (List.mem_map_of_mem hentry))
    refine ⟨hpos, ?_⟩
    simp only [Tally.average, if_neg hpos.ne', Duration.divide]
  refine ⟨?_, fun name => ?_, fun s hs => ?_, fun s hs => ?_, fun s hs => (haverage s hs).2,
    fun s hs hlt => ?_⟩
  · exact List.pairwise_map.2 h.ascending
  · rw [hnames, h.name_mem_iff]
  · obtain ⟨entry, hentry, rfl⟩ := List.mem_map.1 hs
    exact (h.counts entry hentry).count_eq
  · obtain ⟨entry, hentry, rfl⟩ := List.mem_map.1 hs
    exact (h.counts entry hentry).nanos_eq
  · obtain ⟨hpos, heq⟩ := haverage s hs
    rw [heq, Nat.mod_eq_of_lt hlt, Nat.max_eq_right hpos]

/-- However the runs of several operations follow one another, none is refused, and each operation
has one summary, in the order of the names, which tells how often it ran and for how long in all.
The average is that over the count modulo the range of a divisor, so it is the quotient for any
count that is a divisor.  The order of the runs does not matter. -/
theorem summarizes_snapshot (h : Fit runs) :
    (∀ before run later, runs = before ++ run :: later →
      ((empty.after before).add run.1 run.2).1 = .ok ()) ∧
    Summarizes (empty.after runs).snapshot runs ∧
    ∀ runs', runs.Perm runs' → (empty.after runs').snapshot = (empty.after runs).snapshot := by
  obtain ⟨tallies, hafter, hholds⟩ := holds_after h
  refine ⟨?_, hafter ▸ summarizes_of_holds hholds, fun runs' hperm => ?_⟩
  · rintro before run later rfl
    rw [List.append_cons] at h
    obtain ⟨tallies, hbefore, hholds⟩ := holds_after h.of_append.of_append
    obtain ⟨_, hadd, -⟩ := hholds.add (h.of_append run.1)
    rw [hbefore, hadd]
  · have hfit' : Fit runs' := fun name => (durations_perm hperm name).sum_eq ▸ h name
    obtain ⟨tallies', hafter', hholds'⟩ := holds_after hfit'
    rw [hafter, hafter', hholds.unique hholds' hperm]

/-- If all durations together stay in the range of a sum, so do those of each name. -/
theorem fit_of_sum_lt
    (h : (runs.map (·.2.nanos)).sum < Word.size * Duration.nanosPerSecond) : Fit runs := by
  intro name
  have hsublist : (durations name runs).Sublist (runs.map (·.2.nanos)) :=
    List.filter_sublist.map _
  exact Nat.lt_of_le_of_lt (hsublist.sum_le_sum fun _ _ => Nat.zero_le _) h

/-- The runs of two operations, one between those of the other. -/
theorem summarizes_snapshot_mixed :
    let runs : List (String × Duration) :=
      [("b", { nanos := 5 }), ("a", { nanos := 1 }), ("b", { nanos := 4 })]
    Fit runs ∧ Summarizes (empty.after runs).snapshot runs ∧
      (empty.after [("a", { nanos := 1 }), ("b", { nanos := 4 }), ("b", { nanos := 5 })]).snapshot =
        (empty.after runs).snapshot ∧
      (empty.after runs).snapshot =
        [⟨"a", 1, { nanos := 1 }, { nanos := 1 }⟩, ⟨"b", 2, { nanos := 9 }, { nanos := 4 }⟩] := by
  intro runs
  have hfit : Fit runs := fit_of_sum_lt (by decide)
  obtain ⟨-, hsummarizes, hperm⟩ := summarizes_snapshot hfit
  exact ⟨hfit, hsummarizes, hperm _ (by decide), by decide⟩

/-- Many runs of one operation, each of a nanosecond. -/
theorem summary_replicate {n : Nat} (hpos : 0 < n) (hfit : n < Word.size * Duration.nanosPerSecond)
    (name : String) :
    let runs := List.replicate n (name, ({ nanos := 1 } : Duration))
    Fit runs ∧ ∃ s ∈ (empty.after runs).snapshot, s.count = n ∧ s.total.nanos = n ∧
      s.average.nanos = n / max 1 (n % divisorSize) := by
  intro runs
  have hnanos : runs.map (·.2.nanos) = List.replicate n 1 := List.map_replicate
  have hall : durations name runs = List.replicate n 1 := by
    rw [durations, List.filter_eq_self.2, hnanos]
    intro run hrun
    rw [(List.mem_replicate.1 hrun).2, decide_eq_true_eq]
  have hruns : Fit runs := fit_of_sum_lt (by rw [hnanos]; simpa using hfit)
  obtain ⟨tallies, hafter, hholds⟩ := holds_after hruns
  have hsummarizes := summarizes_of_holds hholds
  have hname : name ∈ runs.map Prod.fst :=
    List.mem_map.2 ⟨_, List.mem_replicate.2 ⟨hpos.ne', rfl⟩, rfl⟩
  obtain ⟨s, hs, rfl⟩ := List.mem_map.1 ((hsummarizes.name_mem_iff name).2 hname)
  have hcount := hsummarizes.count_eq s hs
  have htotal := hsummarizes.total_eq s hs
  rw [hall, List.length_replicate] at hcount
  rw [hall, List.sum_replicate_nat, Nat.mul_one] at htotal
  refine ⟨hruns, s, hafter ▸ hs, hcount, htotal, ?_⟩
  rw [hsummarizes.average_eq s hs, htotal, hcount]

/-- With as many runs as there are divisors, each of a nanosecond, the average is the sum. -/
theorem average_ne_quotient :
    let runs := List.replicate divisorSize ("a", ({ nanos := 1 } : Duration))
    Fit runs ∧ ∃ s ∈ (empty.after runs).snapshot, s.count = divisorSize ∧ s.count < Word.size ∧
      s.total.nanos = divisorSize ∧ s.average.nanos = divisorSize ∧
      s.average.nanos ≠ s.total.nanos / s.count := by
  have hlt : divisorSize < Word.size * Duration.nanosPerSecond := by decide
  obtain ⟨hfit, s, hs, hcount, htotal, haverage⟩ :=
    summary_replicate (n := divisorSize) (by decide) hlt "a"
  have hdivisor : max 1 (divisorSize % divisorSize) = 1 := by decide
  rw [hdivisor, Nat.div_one] at haverage
  refine ⟨hfit, s, hs, hcount, ?_, htotal, haverage, ?_⟩
  · rw [hcount]
    decide
  · rw [haverage, htotal, hcount]
    decide

end Tracker

end Telemetry
