import Telemetry.Proofs.StreamOrder
import Telemetry.Proofs.RandomAccess

/-!
# A session with a limit

A session that is to parse the records before some ordinal only is cut off there, whatever else it
would have met at that place: the end of the data, an unknown tag, or a record that is cut short
(`finish_parse_limit`).  It emits all that it parsed (`withLimit_cutAt`).  As it never sees the
record at its limit, it emits the last one in its own place, even if the full run has the record at
the limit come out before it (`Numbered.last_take_emission`).
-/

namespace Telemetry

namespace Record

namespace Parser

theorem finish_parse_of_le {l : Nat} {p : Parser} {rest : Bytes} {offset ordinal count : Nat}
    (h : l ≤ ordinal) (finish : StreamEnd) :
    (p.parse (some l) rest offset ordinal).finish =
      if l ≤ ordinal + count then .limit l else finish := by
  rw [parse_of_limit (filter_limit_of_le h), if_pos (Nat.le_add_right_of_le h)]

/-- A limit comes before any other end at its place. -/
theorem finish_parse_limit (l : Nat) (p : Parser) (rest : Bytes) (offset ordinal : Nat) :
    (p.parse (some l) rest offset ordinal).finish =
      if l ≤ ordinal + (p.parse none rest offset ordinal).records.length then .limit l
      else (p.parse none rest offset ordinal).finish := by
  induction p, rest, offset, ordinal using parse.induct none with
  | case1 p rest offset ordinal l' hl => simp at hl
  | case2 p rest offset ordinal hl r n p' hd ih =>
    rcases Nat.lt_or_ge ordinal l with hlt | hge
    · rw [parse_of_complete (filter_limit_of_lt hlt) hd, parse_of_complete hl hd]
      dsimp only
      rw [ih, List.length_cons, Nat.add_right_comm, Nat.add_assoc]
    · exact finish_parse_of_le hge _
  | case3 p rest offset ordinal hl n p' hd ih =>
    rcases Nat.lt_or_ge ordinal l with hlt | hge
    · rw [parse_of_pending (filter_limit_of_lt hlt) hd, parse_of_pending hl hd, ih]
    · exact finish_parse_of_le hge _
  | case4 p rest offset ordinal hl position tag p' hd =>
    rcases Nat.lt_or_ge ordinal l with hlt | hge
    · rw [parse_of_lostSync (filter_limit_of_lt hlt) hd, parse_of_lostSync hl hd]
      exact (if_neg (Nat.not_le.2 hlt)).symm
    · exact finish_parse_of_le hge _
  | case5 p rest offset ordinal hl p' hd =>
    rcases Nat.lt_or_ge ordinal l with hlt | hge
    · rw [parse_of_needMore (filter_limit_of_lt hlt) hd, parse_of_needMore hl hd]
      exact (if_neg (Nat.not_le.2 hlt)).symm
    · exact finish_parse_of_le hge _
  | case6 p rest offset ordinal hl o hd =>
    rcases Nat.lt_or_ge ordinal l with hlt | hge
    · rw [parse_of_error (filter_limit_of_lt hlt) hd, parse_of_error hl hd]
      exact (if_neg (Nat.not_le.2 hlt)).symm
    · exact finish_parse_of_le hge _

end Parser

end Record

section Emission

variable {ts : List Timed} {k : Nat}

/-- The last of some records comes out where it does anyway, unless the next one is swapped. -/
theorem Queue.last_take_emission (hk : k < ts.length)
    (h : ∀ t, ts[k + 1]? = some t → t.order.isSwap = false) :
    (({} : Queue).emission (ts.take (k + 1)))[k]? = (({} : Queue).emission ts)[k]? := by
  obtain ⟨out, ⟨hlen, hemit, htake⟩ | ⟨u, hlen, -, hemit, htake⟩⟩ := emission_split hk
  · rw [hemit, htake, List.getElem?_append_left (by omega)]
  · have hhead : ∀ t, (ts.drop (k + 1)).head? = some t → t.order.isSwap = false := by
      rwa [List.head?_drop]
    obtain rfl : out.length = k := Nat.succ.inj hlen
    rw [hemit, htake, emission_held_of_not_swap hhead, List.getElem?_concat_length,
      List.getElem?_append_right (Nat.le_refl _), Nat.sub_self]
    rfl

/-- The last of some records comes out elsewhere if the next one is swapped, and only then. -/
theorem Numbered.last_take_emission (h : Numbered ts) (hk : k < ts.length)
    (hswap : ∀ t, ts[k + 1]? = some t → t.order.isSwap = true →
      ∃ u, ts[k]? = some u ∧ u.order.isSwap = false) :
    (({} : Queue).emission (ts.take (k + 1)))[k]? ≠ (({} : Queue).emission ts)[k]? ↔
      ∃ t, ts[k + 1]? = some t ∧ t.order.isSwap = true := by
  constructor
  · intro hne
    by_contra hnone
    refine hne (Queue.last_take_emission hk fun t ht => ?_)
    rcases hs : t.order.isSwap
    · rfl
    · exact absurd ⟨t, ht, hs⟩ hnone
  · rintro ⟨t, ht, hs⟩ heq
    obtain ⟨u, hu, hus⟩ := hswap t ht hs
    rw [(Queue.emission_at_swap ht hu hs hus).1] at heq
    -- the next record is not among those taken in
    have hmem := (Queue.emission_perm _ _).mem_iff.1 (List.mem_of_getElem? heq)
    have hlt := h.lt_of_mem_take hmem
    rw [h (k + 1) t ht] at hlt
    exact Nat.lt_irrefl _ hlt

theorem Numbered.take (h : Numbered ts) (n : Nat) : Numbered (ts.take n) := by
  intro i t ht
  rw [List.getElem?_take] at ht
  split_ifs at ht
  exact h i t ht

end Emission

namespace Session

/-- A run that is cut off before the record at the limit. -/
structure Summary.CutAt (part full : Summary) (limit : Nat) : Prop where
  observed_eq : part.observed = full.observed.take limit
  stream_eq : streamOrder part.emitted = (streamOrder full.emitted).take limit
  finish_eq : part.finish =
    if limit ≤ full.observed.length then some (.limit limit) else full.finish
  /-- Every record that was parsed comes out. -/
  emitted_perm :
    (part.emitted.map Timed.record).Perm (part.observed.map Observation.record)
  emitted_eq : ∀ i, i + 1 < min limit full.observed.length →
    part.emitted[i]? = full.emitted[i]?
  /-- The last position is another one's if the record at the limit comes out before it. -/
  last_ne_iff :
    (∃ i, i + 1 = min limit full.observed.length ∧ part.emitted[i]? ≠ full.emitted[i]?) ↔
      1 ≤ limit ∧ limit < full.observed.length ∧
        ∃ t, (streamOrder full.emitted)[limit]? = some t ∧ t.order.isSwap = true

/-- The items before the limit are a cut of all the items. -/
theorem Summary.cutAt_ofItems {items : List Clocked} (hnum : Numbered (items.map Clocked.timed))
    (hswap : ∀ k item, items[k]? = some item → item.advance.order.isSwap = true →
      ∃ j prev, k = j + 1 ∧ items[j]? = some prev ∧ prev.advance.order.isSwap = false)
    {part full : Record.Parse} {limit : Nat}
    (hfinish : part.finish = if limit ≤ items.length then .limit limit else full.finish)
    (state state' : Clock.State) :
    (ofItems 0 part (items.take limit) state).CutAt (ofItems 0 full items state') limit := by
  have hswap' : ∀ k t, (items.map Clocked.timed)[k + 1]? = some t → t.order.isSwap = true →
      ∃ u, (items.map Clocked.timed)[k]? = some u ∧ u.order.isSwap = false := by
    intro k t ht hs
    rw [List.getElem?_map, Option.map_eq_some_iff] at ht
    obtain ⟨item, hitem, rfl⟩ := ht
    obtain ⟨j, prev, hj, hprev, hnot⟩ := hswap (k + 1) item hitem hs
    cases hj
    exact ⟨prev.timed, by rw [List.getElem?_map, hprev]; rfl, hnot⟩
  refine ⟨List.map_take, ?_, ?_, ?_, ?_, ?_⟩
  · simp only [ofItems, List.map_take]
    rw [streamOrder_emission hnum, streamOrder_emission (Numbered.take hnum limit)]
  · simp only [ofItems, List.length_map, hfinish]
    split_ifs with hle
    · rfl
    · rw [List.take_of_length_le (Nat.le_of_not_le hle)]
  · have hperm :=
      (({} : Queue).emission_perm ((items.take limit).map Clocked.timed)).map Timed.record
    simp only [ofItems, List.map_map]
    rwa [Option.toList_none, List.nil_append, List.map_map] at hperm
  · intro i hi
    simp only [ofItems, List.length_map] at hi ⊢
    have := Queue.take_emission (items.map Clocked.timed) (k := i + 1) (n := limit) (by omega)
    rw [List.map_take]
    simpa using congrArg (·[i]?) this
  · simp only [ofItems, List.length_map, streamOrder_emission hnum, List.map_take]
    constructor
    · rintro ⟨k, hk, hne⟩
      rcases Nat.lt_or_ge limit items.length with hlt | hge
      · obtain rfl : k + 1 = limit := by omega
        rw [hnum.last_take_emission (by simpa using Nat.lt_of_succ_lt hlt) (hswap' k)] at hne
        exact ⟨Nat.le_add_left 1 k, hlt, hne⟩
      · rw [List.take_of_length_le (by simpa using hge)] at hne
        exact absurd rfl hne
    · rintro ⟨hpos, hlt, hnext⟩
      obtain ⟨k, rfl⟩ : ∃ k, limit = k + 1 := ⟨limit - 1, by omega⟩
      refine ⟨k, by omega, ?_⟩
      rwa [hnum.last_take_emission (by simpa using Nat.lt_of_succ_lt hlt) (hswap' k)]

variable {σ τ : Type} [Source σ] [Source τ] {table : Tag.Table} {clock : Clock.Config}

theorem finish_withLimit {data : Bytes} (hline : ((new table clock).toClock data).fault = none)
    (limit : Nat) :
    (((new table clock).withLimit limit).toParse data).finish =
      if limit ≤ ((new table clock).toClock data).items.length then .limit limit
      else ((new table clock).toParse data).finish := by
  have hrecords : ((new table clock).toClock data).items.map Clocked.record =
      ((new table clock).toParse data).records := clock.records_timeline {} _ hline
  have hfinish : (((new table clock).withLimit limit).toParse data).finish =
      if limit ≤ 0 + ((new table clock).toParse data).records.length then .limit limit
      else ((new table clock).toParse data).finish :=
    Record.Parser.finish_parse_limit limit _ _ 0 0
  rwa [Nat.zero_add, ← hrecords, List.length_map] at hfinish

/-- A limited run of the data is a cut of the full one. -/
theorem withLimit_cutAt {source : σ} {again : τ} {data : Bytes} {last last' : Nat}
    (hs : Source.Faithful source data last) (hagain : Source.Delivers again data last')
    (hfault : ((new table clock).run source).fault = none) (limit : Nat) :
    (((new table clock).withLimit limit).run again).fault = none ∧
      (((new table clock).withLimit limit).run again).summary.CutAt
        ((new table clock).run source).summary limit := by
  have hlen : data.length < Word.size := Nat.lt_of_le_of_lt hs.length_le hs.last_lt
  obtain ⟨hline, hfull⟩ := summary_run (within_new table clock data last) hs rfl hfault
  obtain ⟨hnone, hitems⟩ := toClock_withLimit (resumes_beginning hline) limit
  have hcovers : ((new table clock).withLimit limit).Covers again data last' _ :=
    covers_of_delivers (within_withLimit (Nat.zero_le last') data limit) hagain rfl
  obtain ⟨hfault', hpart⟩ := summary_of_covers hcovers rfl hnone
  refine ⟨hfault', ?_⟩
  rw [hfull, hpart, new, summaryOf_resume]
  change ((resume table clock {}).summaryOf _ _).CutAt _ limit
  rw [summaryOf_resume, hitems]
  exact Summary.cutAt_ofItems (numbered_toClock hlen hline)
    (fun _ _ => Clock.Config.swap_timeline rfl) (finish_withLimit hline limit) _ _

/-- The limit separates the records of a swap, and hides the unknown tag after them. -/
theorem withLimit_cutAt_inside_swap :
    let data : Bytes := [1, 5, 0, 1, 9, 0, 1, 8, 0, 255]
    let source := Memory.plain data
    let full := (new Tag.Table.standard {}).run source
    let part := ((new Tag.Table.standard {}).withLimit 2).run source
    full.fault = none ∧ part.fault = none ∧ part.summary.CutAt full.summary 2 ∧
      full.emitted.toList.map Timed.ns = [0, 6000, 8000] ∧
      part.emitted.toList.map Timed.ns = [0, 8000] ∧
      full.session.finish = some (.lostSync 3 9 255 (some ⟨2, 6⟩)) ∧
      part.session.finish = some (.limit 2) := by
  intro data source full part
  have hs : Source.Delivers source data 10 :=
    (Memory.holds_plain (by decide) (by decide)).toDelivers
  have hfault : full.fault = none := by decide +kernel
  obtain ⟨hpart, hcut⟩ := withLimit_cutAt hs.toFaithful hs hfault 2
  have hfinish : full.session.finish = some (.lostSync 3 9 255 (some ⟨2, 6⟩)) := by decide +kernel
  refine ⟨hfault, hpart, hcut, by decide +kernel, by decide +kernel, hfinish, ?_⟩
  exact hcut.finish_eq.trans (if_pos (by decide +kernel))

end Session

end Telemetry
