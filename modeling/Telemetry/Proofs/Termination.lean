import Telemetry.Proofs.Consumption
import Telemetry.Proofs.Retrying

/-!
# Decoding ends

Each step of a session brings it nearer to its end, and how near it is can be told from the data
alone (`Proceeds.potential_lt`); so a session takes no more steps than a multiple of the bytes it
has before it (`Steps.le`), emits no more records than that, and goes on answering that there are
none (`outcomes_pulls`).  It asks for more bytes only while its window is shorter than the longest
record (`Refills.le`).
-/

namespace Telemetry.Session

section Steps

variable {σ : Type} [Source σ]

/-- A session comes from one state to another by a number of steps, none of which finds it at its
end. -/
inductive Steps : Session → σ → Nat → Session → σ → Prop where
  | none {s : Session} {source : σ} : Steps s source 0 s source
  | some {s s' s'' : Session} {source source' source'' : σ} {e : Event} {k : Nat}
      (h : s.step source = (.ok (e, s'), source')) (he : e ≠ .over)
      (rest : Steps s' source' k s'' source'') : Steps s source (k + 1) s'' source''

/-- A session comes from one state to another by reading on a number of times, because its window
does not hold enough. -/
inductive Refills : Session → σ → Nat → Session → σ → Prop where
  | none {s : Session} {source : σ} : Refills s source 0 s source
  | some {s s' s'' : Session} {source source' source'' : σ} {e : Event} {k : Nat}
      {parser : Record.Parser}
      (hd : s.parser.decode s.window.bytes s.window.offset s.ordinal = .ok (.needMore, parser))
      (h : s.refill source = (.ok (e, s'), source')) (hgoes : s'.finish = Option.none)
      (rest : Refills s' source' k s'' source'') : Refills s source (k + 1) s'' source''

variable {s s' : Session} {source source' : σ} {e : Event}

/-- Reading on that does not stop the session makes its window longer. -/
theorem size_lt_of_refill (h : s.refill source = (.ok (e, s'), source'))
    (hgoes : s'.finish = none) : s.window.size < s'.window.size := by
  unfold refill at h
  split at h
  · simp at h
  · next added window after hf =>
    obtain ⟨-, -, hsize, -⟩ := fill_eq_ok hf
    dsimp only at h
    split at h
    · split at h
      · simp at h
      · obtain ⟨-, rfl, -⟩ := eq_of_ok_eq h
        cases hgoes
    · obtain ⟨-, rfl, -⟩ := eq_of_ok_eq h
      change s.window.size < window.size
      omega

theorem Refills.le {k : Nat} (h : Refills s source k s' source') :
    k ≤ Record.Parser.longest - s.window.size := by
  induction h with
  | none => exact Nat.zero_le _
  | @some s s' _ _ _ _ _ _ _ hd h hgoes _ ih =>
    have hlonger := size_lt_of_refill h hgoes
    have hshort := Record.Parser.length_lt_of_needMore hd
    have hwanted := s.parser.wanted_le s.window.bytes.head?
    rw [s.window.length_bytes] at hshort
    omega

/-- Only reading on has to do with the source. -/
theorem step_or_refill {τ : Type} [Source τ] (s : Session) (source : σ) (other : τ) :
    s.step other = ((s.step source).1, other) ∧ (s.step source).2 = source ∨
      s.finish = none ∧ s.step source = s.refill source := by
  unfold step
  split
  · exact .inl ⟨rfl, rfl⟩
  · split
    · exact .inl ⟨rfl, rfl⟩
    · next hfinish =>
      split
      · exact .inl ⟨rfl, rfl⟩
      · rw [look_eq_examine, look_eq_examine]
        unfold examine
        split
        · exact .inl ⟨rfl, rfl⟩
        · split <;> exact .inl ⟨rfl, rfl⟩
        · split <;> exact .inl ⟨rfl, rfl⟩
        · exact .inr ⟨hfinish, rfl⟩
        · exact .inl ⟨rfl, rfl⟩

variable {data : Bytes} {last : Nat}

/-- The potential, if there is nothing but the data. -/
def potentialIn (s : Session) (data : Bytes) : Nat :=
  s.potential (Memory.plain data)

theorem potentialIn_eq (s : Session) (data : Bytes) : s.potentialIn data =
    8 * (data.length - (s.window.offset + s.window.size)) + 2 * s.pendingWork +
      s.pendingEmission := by
  have hextent : Source.extent (Memory.plain data) = data.length := by
    change data.toArray.size = data.length
    rw [List.size_toArray]
  rw [potentialIn, potential, unread, hextent]

theorem potentialIn_resume (table : Tag.Table) (clock : Clock.Config) (start : Start)
    (limit : Option Nat) : { resume table clock start with limit }.potentialIn data =
      8 * (data.length - start.offset) + 1 := by
  rw [potentialIn_eq]
  rfl

theorem Proceeds.potential_lt (h : s.Proceeds data last) (hs : Source.Delivers source data last)
    (hstep : s.step source = (.ok (e, s'), source')) (he : e ≠ .over) :
    s'.potentialIn data < s.potentialIn data := by
  rcases s.step_or_refill source (Memory.plain data) with ⟨hplain, -⟩ | ⟨hfinish, hrefill⟩
  · rw [hstep] at hplain
    exact potential_step hplain he
  · obtain ⟨hw, -⟩ := h hfinish
    rw [hrefill] at hstep
    unfold refill at hstep
    rcases hw.shows.fill hs.toFaithful hw.offset_le with
      ⟨error, after, hf, -⟩ | ⟨added, window, after, hf, -, hshows, hoffset, -⟩
    · simp [hf] at hstep
    · obtain ⟨-, -, hsize, -⟩ := fill_eq_ok hf
      rw [hf] at hstep
      dsimp only at hstep
      split_ifs at hstep with hadded
      · split at hstep
        · simp at hstep
        · next finish _ =>
          obtain ⟨-, rfl, -⟩ := eq_of_ok_eq hstep
          have hsame : ({ s with window } : Session).potentialIn data = s.potentialIn data := by
            rw [potentialIn_eq, potentialIn_eq]
            simp only [pendingWork, pendingEmission, hoffset, hsize, hadded, Nat.add_zero]
          rw [← hsame]
          exact potential_stop (s := { s with window }) finish hfinish (Memory.plain data)
      · obtain ⟨-, rfl, -⟩ := eq_of_ok_eq hstep
        have hle := hshows.size_le
        rw [potentialIn_eq, potentialIn_eq]
        simp only [pendingWork, pendingEmission, hoffset, hsize] at hle ⊢
        omega

/-- Every step is paid for. -/
theorem Steps.le {k : Nat} (hsteps : Steps s source k s' source') (h : s.Proceeds data last)
    (hs : Source.Delivers source data last) : k + s'.potentialIn data ≤ s.potentialIn data := by
  induction hsteps with
  | none => rw [Nat.zero_add]
  | some hstep he _ ih =>
    have hlt := h.potential_lt hs hstep he
    obtain ⟨_, _, _, hstep', hproceeds, hreach⟩ := h.step hs
    rw [hstep] at hstep'
    obtain ⟨-, rfl, rfl⟩ := eq_of_ok_eq hstep'
    have hrest := ih hproceeds (hs.of_reaches hreach)
    omega

end Steps

section Pulls

variable {σ : Type} [Source σ]

/-- A call that returns nothing leaves the session at its end. -/
theorem step_of_pull_none (s : Session) (source : σ) (h : (s.pull source).outcome = .ok none) :
    (s.pull source).session.step (s.pull source).source =
      (.ok (.over, (s.pull source).session), (s.pull source).source) := by
  induction hn : s.potential source using Nat.strongRecOn generalizing s source with
  | _ n ih =>
    subst hn
    rcases hstep : s.step source with ⟨f | ⟨t | o | _ | _, s'⟩, source'⟩
    · simp [pull_of_error hstep] at h
    · simp [pull_of_emitted hstep] at h
    · rw [pull_of_parsed hstep] at h ⊢
      exact ih _ (potential_step hstep (by simp)) s' source' h rfl
    · rw [pull_of_worked hstep] at h ⊢
      exact ih _ (potential_step hstep (by simp)) s' source' h rfl
    · rw [pull_of_over hstep]
      cases step_stepped hstep with
      | finished => exact hstep

/-- Where a run does not fail, each call returns the next of its records, and nothing after the last
one. -/
theorem outcomes_pulls (s : Session) (source : σ) (h : (s.run source).fault = none) (k : Nat) :
    (pulls k s source).map Pull.outcome =
      (List.range k).map fun i => .ok (s.run source).emitted.toList[i]? := by
  induction k generalizing s source with
  | zero => rfl
  | succ k ih =>
    have hrun := run_eq_pull s source
    have hend := step_of_pull_none s source
    simp only [pulls, List.map_cons, List.range_succ_eq_map, List.map_map]
    generalize s.pull source = p at hrun hend ⊢
    rcases p with ⟨f | _ | t, observed, s', source'⟩
    · rw [hrun] at h
      cases h
    · have hover := run_of_over (hend rfl)
      rw [ih s' source' (by rw [hover]), hover, hrun]
      simp [Pull.run, Function.comp_def]
    · rw [hrun] at h ⊢
      rw [ih s' source' h]
      simp [Pull.run, Function.comp_def]

/-- Where no overflow is ahead, a session comes to its end: after a number of steps that the bytes
before it bound, with no more records than bytes, and whatever is called then.  Neither closing
texts nor waiting for bytes can keep it from that. -/
theorem run_ends {table : Tag.Table} {clock : Clock.Config} {start : Start} {limit : Option Nat}
    {source : σ} {data : Bytes} {last : Nat} (hs : Source.Delivers source data last)
    (hstart : start.offset ≤ last)
    (hfit : ∀ o, ({ resume table clock start with limit }.run source).fault ≠
      some (.overflow o)) :
    let s : Session := { resume table clock start with limit }
    let run := s.run source
    (∀ k s' source', Steps s source k s' source' →
        k ≤ 8 * (data.length - start.offset) + 1) ∧
      run.fault = none ∧ run.session.finish.isSome = true ∧
      run.emitted.size ≤ data.length - start.offset ∧
      (∀ k, (pulls k s source).map Pull.outcome =
        (List.range k).map fun i => .ok run.emitted.toList[i]?) ∧
      (∀ k (t t' : Session) (from' to' : σ), Refills t from' k t' to' →
        k ≤ Record.Parser.longest - t.window.size) ∧
      ∀ (p p' : Record.Parser) (textLimit : Nat) (window : Bytes) (offset ordinal : Nat)
        (r : Record), (p.withTextLimit textLimit).decode window offset ordinal =
            .ok (.complete r 0, p') →
          p'.openText = none ∧ ∀ window' offset' ordinal' r' n p'',
            p'.decode window' offset' ordinal' = .ok (.complete r' n, p'') → 0 < n := by
  intro s run
  have hw := within_resume table clock hstart data
  have hwithin : s.Within data last := ⟨hw.shows, hw.offset_le, hw.sound⟩
  have hcovers := covers_of_delivers hwithin hs rfl
  have hline := hcovers.fits hfit
  obtain ⟨hfault, hsummary⟩ := summary_of_covers hcovers rfl hline
  refine ⟨fun k s' source' hsteps => ?_, hfault, ?_, ?_, outcomes_pulls s source hfault,
    fun k t t' from' to' h => h.le, fun p p' textLimit window offset ordinal r hd => ?_⟩
  · have hproceeds : s.Proceeds data last := fun _ => ⟨hwithin, hline⟩
    have hle := hsteps.le hproceeds hs
    rw [potentialIn_resume] at hle
    omega
  · rw [hcovers.finish_eq hline]
    rfl
  · have hemitted : run.emitted.toList =
        s.queue.emission ((s.toClock data).items.map Clocked.timed) :=
      congrArg Summary.emitted hsummary
    have hrecords : (s.toClock data).items.map Clocked.record = (s.toParse data).records :=
      Clock.Config.records_timeline clock s.state _ hline
    have hheld : s.queue.held.toList.length = 0 := rfl
    rw [← Array.length_toList, hemitted, Queue.length_emission, hheld, Nat.zero_add,
      List.length_map, ← List.length_map (f := Clocked.record), hrecords]
    exact length_records_toParse_le rfl data
  · have hnone := Record.Parser.openText_of_complete_zero hd
    exact ⟨hnone, fun _ _ _ _ _ _ hd' => Record.Parser.pos_of_complete hnone hd'⟩

/-- Two texts that are each closed by what follows, the last one by a tag that is in no table; the
bytes come one by one. -/
theorem run_ends_lostSync :
    let data : Bytes := [32, 97, 33, 98, 255]
    let source : Memory := { Memory.plain data with readLimit := some 1 }
    let s : Session := { resume Tag.Table.standard {} {} with limit := none }
    let run := s.run source
    Source.Delivers source data 5 ∧ (∀ o, run.fault ≠ some (.overflow o)) ∧
      (∀ k s' source', Steps s source k s' source' → k ≤ 41) ∧
      run.emitted.size = 2 ∧ run.session.finish.isSome = true ∧
      (pulls 4 s source).map Pull.outcome =
        [.ok run.emitted.toList[0]?, .ok run.emitted.toList[1]?, .ok none, .ok none] := by
  intro data source s run
  have hs : Source.Delivers source data 5 := Memory.delivers rfl (by decide) (by decide) (by decide)
  have hfault : run.fault = none := by decide +kernel
  have hfit : ∀ o, run.fault ≠ some (.overflow o) := fun o h => by simp [hfault] at h
  have hsize : run.emitted.size = 2 := by decide +kernel
  obtain ⟨hsteps, -, hfinish, -, hpulls, -⟩ := run_ends hs (by decide) hfit
  have hend : ∀ i, 2 ≤ i → run.emitted.toList[i]? = none := by
    intro i hi
    rw [List.getElem?_eq_none_iff, Array.length_toList]
    omega
  have hcalls : (pulls 4 s source).map Pull.outcome = [.ok run.emitted.toList[0]?,
      .ok run.emitted.toList[1]?, .ok run.emitted.toList[2]?, .ok run.emitted.toList[3]?] :=
    hpulls 4
  rw [hend 2 (by decide), hend 3 (by decide)] at hcalls
  exact ⟨hs, hfit, hsteps, hsize, hfinish, hcalls⟩

end Pulls

end Telemetry.Session
