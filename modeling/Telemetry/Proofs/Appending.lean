import Mathlib.Data.List.Infix
import Telemetry.Proofs.Accounting
import Telemetry.Proofs.SplitReads
import Telemetry.Proofs.StreamOrder

/-!
# Data that grow

What was parsed before some data grew is parsed after it too, and where the parser lost its way it
does so again (`parse_append`).  So an index that is built anew goes on from the old one, or is the
old one but for the size (`build_append`).
-/

namespace Telemetry

/-- An unknown tag stopped the session. -/
def StreamEnd.IsLostSync (e : StreamEnd) : Prop :=
  ∃ ordinal offset tag lastGood, e = .lostSync ordinal offset tag lastGood

theorem StreamEnd.isLostSync_of_withLastGood {e : StreamEnd} {lastGood : Option Mark}
    (h : (e.withLastGood lastGood).IsLostSync) : e.IsLostSync := by
  obtain ⟨ordinal, offset, tag, mark, h⟩ := h
  cases e with
  | lostSync => exact ⟨_, _, _, _, rfl⟩
  | _ => cases h

namespace Record.Parser

theorem not_isLostSync_endOf (p : Parser) (tail offset : Nat) :
    ¬ (p.endOf tail offset).IsLostSync := by
  rintro ⟨ordinal, position, tag, mark, h⟩
  unfold endOf at h
  split at h
  · cases h
  · split_ifs at h

theorem decode_of_decided {p p' : Parser} {window more : Bytes} {offset ordinal : Nat}
    {d : Decision} (h : p.decode window offset ordinal = .ok (d, p')) (hd : d ≠ .needMore) :
    p.decode (window ++ more) offset ordinal = .ok (d, p') := by
  rcases p.decode_append window more offset ordinal with hmore | hmore
  · rw [h] at hmore
    cases hmore
    exact absurd rfl hd
  · rw [hmore, h]

/-- More bytes add records, unless the parser has lost its way. -/
theorem parse_append (p : Parser) (rest more : Bytes) (offset ordinal : Nat) :
    (p.parse none rest offset ordinal).records <+:
        (p.parse none (rest ++ more) offset ordinal).records ∧
      ((p.parse none rest offset ordinal).finish.IsLostSync →
        p.parse none (rest ++ more) offset ordinal = p.parse none rest offset ordinal) := by
  induction p, rest, offset, ordinal using parse.induct none with
  | case1 p rest offset ordinal l hl => simp at hl
  | case2 p rest offset ordinal hl r n p' hd ih =>
    have hlen : n ≤ rest.length := by
      rcases progress_of_complete hd with ⟨rfl, -⟩ | ⟨-, hle, -⟩
      · exact Nat.zero_le _
      · exact hle
    rw [← List.drop_append_of_le_length hlen] at ih
    rw [parse_of_complete hl hd, parse_of_complete hl (decode_of_decided hd (by simp))]
    refine ⟨List.cons_prefix_cons.2 ⟨rfl, ih.1⟩, fun hlost => ?_⟩
    rw [ih.2 hlost]
  | case3 p rest offset ordinal hl n p' hd ih =>
    obtain ⟨rfl, hlen⟩ := consumed_of_pending hd
    rw [← List.drop_append_of_le_length hlen] at ih
    rw [parse_of_pending hl hd, parse_of_pending hl (decode_of_decided hd (by simp))]
    exact ih
  | case4 p rest offset ordinal hl position tag p' hd =>
    rw [parse_of_lostSync hl hd, parse_of_lostSync hl (decode_of_decided hd (by simp))]
    exact ⟨List.prefix_rfl, fun _ => rfl⟩
  | case5 p rest offset ordinal hl p' hd =>
    -- here the bytes had run out, and more of them may decide anything
    rw [parse_of_needMore hl hd]
    exact ⟨List.nil_prefix, fun hlost => absurd hlost (p.not_isLostSync_endOf _ _)⟩
  | case6 p rest offset ordinal hl o hd =>
    rw [parse_of_error hl hd]
    exact ⟨List.nil_prefix, fun hlost => absurd hlost (p.not_isLostSync_endOf _ _)⟩

end Record.Parser

namespace Corrections

/-- No count of the other is less. -/
structure AtMost (c c' : Corrections) : Prop where
  swaps : c.swaps ≤ c'.swaps
  maxSwapTicks : c.maxSwapTicks ≤ c'.maxSwapTicks
  clamped : c.clamped ≤ c'.clamped
  ambiguous : c.ambiguous ≤ c'.ambiguous

theorem atMost_merge (c c' : Corrections) : c.AtMost (c.merge c') where
  swaps := Nat.le_add_right _ _
  maxSwapTicks := by
    rw [UInt16.le_iff_toNat_le, merge, toNat_max]
    exact Nat.le_max_left _ _
  clamped := Nat.le_add_right _ _
  ambiguous := Nat.le_add_right _ _

theorem ofList_atMost {ts us : List Timed} (h : ts <+: us) : (ofList ts).AtMost (ofList us) := by
  obtain ⟨more, rfl⟩ := h
  rw [ofList_append]
  exact atMost_merge _ _

end Corrections

namespace Index

theorem anomalyOf_of_isSwap {t : Timed} (h : t.order.isSwap = true) : anomalyOf t = none := by
  unfold anomalyOf
  rcases ho : t.order <;> simp_all [Clock.Order.isSwap]

/-- What an index tells of the records. -/
structure Tells (index : Index) (items : List Clocked) : Prop where
  checkpoints_eq : index.checkpoints =
    (items.map Clocked.observation).filterMap (checkpointAt index.interval)
  totalRecords_eq : index.totalRecords = items.length
  anomalies_eq : index.anomalies =
    ((items.map Clocked.timed).filterMap anomalyOf).take maxAnomalies
  corrections_eq : index.corrections = Corrections.ofList (items.map Clocked.timed)

theorem tells_ofRun {σ : Type} {r : Session.Run σ} {parse : Record.Parse} {items : List Clocked}
    {state : Clock.State} (h : r.summary = .ofItems 0 parse items state)
    (interval totalBytes : Nat) : (ofRun interval totalBytes r).Tells items := by
  have hemitted : r.emitted.toList = _ := congrArg Session.Summary.emitted h
  have hobserved : r.observed.toList = _ := congrArg Session.Summary.observed h
  refine ⟨?_, ?_, ?_, congrArg Session.Summary.corrections h⟩
  · simp only [ofRun, hobserved]
    rfl
  · exact (congrArg Session.Summary.ordinal h).trans (Nat.zero_add _)
  · simp only [ofRun, hemitted, Session.Summary.ofItems]
    rw [Queue.filterMap_emission fun t ht => anomalyOf_of_isSwap ht]
    rfl

/-- The index of some data, and the index of the data with more after them. -/
structure Extends {σ τ : Type} (index index' : Index) (run : Session.Run σ)
    (run' : Session.Run τ) : Prop where
  stream_prefix : run.stream <+: run'.stream
  checkpoints_prefix : index.checkpoints <+: index'.checkpoints
  anomalies_prefix : index.anomalies <+: index'.anomalies
  totalRecords_le : index.totalRecords ≤ index'.totalRecords
  decodedBytes_le : index.decodedBytes ≤ index'.decodedBytes
  corrections_le : index.corrections.AtMost index'.corrections
  take_emitted : run.emitted.toList.take (index.totalRecords - 1) =
    run'.emitted.toList.take (index.totalRecords - 1)
  /-- The last emitted record stays, or moves by one position. -/
  last_emitted : ∀ t, run.emitted.toList.getLast? = some t →
    run'.emitted.toList[index.totalRecords - 1]? = some t ∨
      run'.emitted.toList[index.totalRecords]? = some t

section Extends

variable {σ τ : Type} {run : Session.Run σ} {run' : Session.Run τ} {parse parse' : Record.Parse}
  {items items' : List Clocked} {state state' : Clock.State}

theorem extends_of_prefix (h : run.summary = .ofItems 0 parse items state)
    (h' : run'.summary = .ofItems 0 parse' items' state') (hitems : items <+: items')
    (hstream : run.stream <+: run'.stream) {interval totalBytes totalBytes' : Nat}
    (hdecoded : (ofRun interval totalBytes run).decodedBytes ≤
      (ofRun interval totalBytes' run').decodedBytes) :
    (ofRun interval totalBytes run).Extends (ofRun interval totalBytes' run') run run' := by
  have htells := tells_ofRun h interval totalBytes
  have htells' := tells_ofRun h' interval totalBytes'
  have hemitted : run.emitted.toList = _ := congrArg Session.Summary.emitted h
  have hemitted' : run'.emitted.toList = _ := congrArg Session.Summary.emitted h'
  obtain ⟨htake, hlast⟩ := Queue.emission_of_prefix (hitems.map Clocked.timed)
  rw [List.length_map, ← htells.totalRecords_eq] at htake hlast
  refine ⟨hstream, ?_, ?_, ?_, hdecoded, ?_, ?_, ?_⟩
  · rw [htells.checkpoints_eq, htells'.checkpoints_eq]
    exact (hitems.map _).filterMap _
  · rw [htells.anomalies_eq, htells'.anomalies_eq]
    exact ((hitems.map _).filterMap _).take _
  · rw [htells.totalRecords_eq, htells'.totalRecords_eq]
    exact hitems.length_le
  · rw [htells.corrections_eq, htells'.corrections_eq]
    exact Corrections.ofList_atMost (hitems.map _)
  · rw [hemitted, hemitted']
    exact htake
  · rw [hemitted, hemitted']
    exact hlast

end Extends

variable {σ τ : Type} [Source σ] [Source τ] {table : Tag.Table} {clock : Clock.Config}
  {source : σ} {longer : τ} {data more : Bytes} {last last' : Nat}

theorem decodedBytes_le_append (hs : Source.Delivers source data last)
    (hlonger : Source.Delivers longer (data ++ more) last')
    (hfit : ∀ o, ((Session.new table clock).run source).fault ≠ some (.overflow o))
    (hfit' : ∀ o, ((Session.new table clock).run longer).fault ≠ some (.overflow o))
    (interval totalBytes totalBytes' : Nat) :
    (ofRun interval totalBytes ((Session.new table clock).run source)).decodedBytes ≤
      (ofRun interval totalBytes' ((Session.new table clock).run longer)).decodedBytes := by
  obtain ⟨rs, hrs⟩ := (Record.Parser.parse_append { table } data more 0 0).1
  rw [Session.decodedBytes_run hs hfit, Session.decodedBytes_run hlonger hfit',
    (Session.decodes_of_delivers hs hfit).records_eq,
    (Session.decodes_of_delivers hlonger hfit').records_eq, ← hrs, List.flatMap_append,
    List.length_append]
  exact Nat.le_add_right _ _

/-- A session that an unknown tag has stopped does not see what comes later. -/
theorem summary_append (hs : Source.Delivers source data last)
    (hlonger : Source.Delivers longer (data ++ more) last')
    (hline : ((Session.new table clock).toClock data).fault = none)
    (hlost : (((Session.new table clock).run source).session.finish.getD .eof).IsLostSync) :
    ((Session.new table clock).run longer).summary =
      ((Session.new table clock).run source).summary := by
  have hsummary := (Session.summary_new hs hline).2
  have hparse : (Session.new table clock).toParse (data ++ more) =
      (Session.new table clock).toParse data := by
    refine (Record.Parser.parse_append { table } data more 0 0).2 ?_
    have hfinish : ((Session.new table clock).run source).session.finish = _ :=
      congrArg Session.Summary.finish hsummary
    rw [hfinish] at hlost
    exact StreamEnd.isLostSync_of_withLastGood hlost
  have hclock : (Session.new table clock).toClock (data ++ more) =
      (Session.new table clock).toClock data := by
    rw [Session.toClock, hparse]
    rfl
  have hsummary' := (Session.summary_new hlonger (hclock ▸ hline)).2
  rw [hsummary', hparse, hclock, hsummary]

/-- When the data have grown, the index goes on from the old one, or is the old one if an unknown
tag had stopped it. -/
theorem build_append (hs : Source.Holds source data last)
    (hlonger : Source.Holds longer (data ++ more) last') {interval : Nat} {index index' : Index}
    (hindex : (build table clock interval source).1 = .ok index)
    (hindex' : (build table clock interval longer).1 = .ok index') :
    (index.finish.IsLostSync → index' = { index with totalBytes := index'.totalBytes }) ∧
      index.Extends index' ((Session.new table clock).run source)
        ((Session.new table clock).run longer) := by
  obtain ⟨hfault, totalBytes, -, rfl⟩ := build_eq_ok hindex
  obtain ⟨hfault', totalBytes', -, rfl⟩ := build_eq_ok hindex'
  have hfit : ∀ o, ((Session.new table clock).run source).fault ≠ some (.overflow o) := by
    simp [hfault]
  have hfit' : ∀ o, ((Session.new table clock).run longer).fault ≠ some (.overflow o) := by
    simp [hfault']
  have hline := Session.toClock_fits hs.toDelivers hfit
  have hline' := Session.toClock_fits hlonger.toDelivers hfit'
  refine ⟨fun hlost => ?_, ?_⟩
  · rw [ofRun_congr (summary_append hs.toDelivers hlonger.toDelivers hline hlost)]
    rfl
  · have hitems : ((Session.new table clock).toClock data).items <+:
        ((Session.new table clock).toClock (data ++ more)).items :=
      Clock.Config.items_timeline_prefix (Record.Parser.parse_append _ data more 0 0).1 hline
    refine extends_of_prefix (Session.summary_new hs.toDelivers hline).2
      (Session.summary_new hlonger.toDelivers hline').2 hitems ?_
      (decodedBytes_le_append hs.toDelivers hlonger.toDelivers hfit hfit' _ _ _)
    rw [Session.stream_new hs.toDelivers hline, Session.stream_new hlonger.toDelivers hline']
    exact hitems.map _

/-- What is added is a record that comes out before the last one; behind an unknown tag it is not
seen. -/
theorem build_append_at_swap :
    let clock : Clock.Config := {}
    let data : Bytes := [1, 5, 0, 1, 9, 0]
    let source := Memory.plain data
    let longer := Memory.plain (data ++ [1, 8, 0])
    let lost := Memory.plain (data ++ [255])
    let further := Memory.plain ((data ++ [255]) ++ [1, 8, 0])
    let run := (Session.new Tag.Table.standard clock).run source
    let run' := (Session.new Tag.Table.standard clock).run longer
    let indexOf (m : Memory) (size : Nat) : Index :=
      ofRun 1 size ((Session.new Tag.Table.standard clock).run m)
    (indexOf source 6).Extends (indexOf longer 9) run run' ∧
      run.emitted.toList.map Timed.ns = [0, 8000] ∧
      run'.emitted.toList.map Timed.ns = [0, 6000, 8000] ∧
      indexOf further 10 = { indexOf lost 7 with totalBytes := 10 } := by
  intro clock data source longer lost further run run' indexOf
  have hs : Source.Holds source data 12 := Memory.holds_plain (by decide) (by decide)
  have hlonger : Source.Holds longer (data ++ [1, 8, 0]) 12 :=
    Memory.holds_plain (by decide) (by decide)
  have hlost : Source.Holds lost (data ++ [255]) 12 := Memory.holds_plain (by decide) (by decide)
  have hfurther : Source.Holds further ((data ++ [255]) ++ [1, 8, 0]) 12 :=
    Memory.holds_plain (by decide) (by decide)
  have hindex : (build Tag.Table.standard clock 1 source).1 = .ok (indexOf source 6) := by
    decide +kernel
  have hindex' : (build Tag.Table.standard clock 1 longer).1 = .ok (indexOf longer 9) := by
    decide +kernel
  have hstopped : (build Tag.Table.standard clock 1 lost).1 = .ok (indexOf lost 7) := by
    decide +kernel
  have hstopped' : (build Tag.Table.standard clock 1 further).1 = .ok (indexOf further 10) := by
    decide +kernel
  have hfinish : (indexOf lost 7).finish = .lostSync 2 6 255 (some ⟨1, 3⟩) := by decide +kernel
  refine ⟨(build_append hs hlonger hindex hindex').2, by decide +kernel, by decide +kernel, ?_⟩
  exact (build_append hlost hfurther hstopped hstopped').1 ⟨2, 6, 255, some ⟨1, 3⟩, hfinish⟩

end Index

end Telemetry
