import Telemetry.Index
import Telemetry.Proofs.Decoding

/-!
# How a source splits its reads

Two runs of one session see the same if their sources deliver the same data, in whatever pieces
(`decoding_eq_of_delivers`); so does an index, which is built from one run.  The session may start
anywhere, with a limit or without.
-/

namespace Telemetry

namespace Index

/-- An index tells of a run no more than its summary does. -/
theorem ofRun_congr {σ τ : Type} {r : Session.Run σ} {r' : Session.Run τ}
    (h : r.summary = r'.summary) (interval totalBytes : Nat) :
    ofRun interval totalBytes r = ofRun interval totalBytes r' := by
  simp only [Session.Run.summary, Session.Summary.mk.injEq] at h
  obtain ⟨hemitted, hobserved, hfinish, -, hordinal, hoffset, -, hcorrections⟩ := h
  simp only [ofRun, hemitted, hobserved, hfinish, hordinal, hcorrections]
  cases r'.session.finish.getD .eof <;> simp only [decodedBytesOf, hoffset]

end Index

namespace Session

variable {σ τ : Type} [Source σ] [Source τ]

/-- Runs over sources that deliver the same data end alike. -/
theorem run_eq_of_delivers {s : Session} {source : σ} {source' : τ} {data : Bytes} {last : Nat}
    (hs : Source.Delivers source data last) (hs' : Source.Delivers source' data last)
    (hw : s.Within data last) (hfin : s.finish = none) :
    (s.run source).fault = (s.run source').fault ∧
      ((s.run source').fault = none → (s.run source).summary = (s.run source').summary) := by
  have hc := covers_of_delivers hw hs hfin
  have hc' := covers_of_delivers hw hs' hfin
  refine ⟨by rw [hc.fault_eq, hc'.fault_eq], fun hfault => ?_⟩
  obtain ⟨hline, hsummary⟩ := summary_run hw hs'.toFaithful hfin hfault
  rw [hsummary, (summary_of_covers hc hfin hline).2]

theorem build_eq_of_delivers {source : σ} {source' : τ} {data : Bytes} {last : Nat}
    (hs : Source.Delivers source data last) (hs' : Source.Delivers source' data last)
    (hcount : Source.count source = Source.count source') (table : Tag.Table)
    (clock : Clock.Config) (interval : Nat) :
    (Index.build table clock interval source).1 = (Index.build table clock interval source').1 := by
  obtain ⟨hfault, hsummary⟩ := run_eq_of_delivers hs hs' (within_new table clock data last) rfl
  unfold Index.build
  rw [hcount]
  split_ifs
  · rfl
  · rcases Source.count source' with e | totalBytes
    · rfl
    · dsimp only
      rw [hfault]
      rcases hrun : ((new table clock).run source').fault with _ | f
      · dsimp only
        rw [Index.ofRun_congr (hsummary hrun)]
      · rfl

/-- What a session and an index make of some data does not depend on how a source splits its reads:
they fail where they fail over the data in memory, and otherwise see the same. -/
theorem decoding_eq_of_delivers {source : σ} {data : Bytes} {last : Nat}
    (hs : Source.Delivers source data last) (table : Tag.Table) (clock : Clock.Config)
    (start : Start) (hstart : start.offset ≤ last) (limit : Option Nat) (interval : Nat) :
    let session := { resume table clock start with limit }
    (session.run source).fault = (session.run (Memory.plain data)).fault ∧
      ((session.run (Memory.plain data)).fault = none →
        (session.run source).summary = (session.run (Memory.plain data)).summary) ∧
      (Source.count source = .ok data.length →
        (Index.build table clock interval source).1 =
          (Index.build table clock interval (Memory.plain data)).1) := by
  intro session
  have hplain : Source.Delivers (Memory.plain data) data last :=
    (Memory.holds_plain hs.length_le hs.last_lt).toDelivers
  have hw : session.Within data last :=
    ⟨Window.shows_start data start.offset, hstart, Record.Parser.sound_of_openText rfl _⟩
  obtain ⟨hfault, hsummary⟩ := run_eq_of_delivers hs hplain hw rfl
  refine ⟨hfault, hsummary, fun hcount => ?_⟩
  exact build_eq_of_delivers hs hplain hcount table clock interval

/-- A text cut by another tag, a swap and an unknown tag, read byte by byte. -/
theorem decoding_eq_of_bytewise :
    let source : Memory := {
      contents := #[1, 5, 0, 32, 104, 32, 105, 1, 9, 0, 1, 8, 0, 255]
      readLimit := some 1 }
    let session := (new Tag.Table.standard {}).withLimit 9
    Source.Delivers source source.contents.toList 14 ∧
      (session.run source).summary =
        (session.run (Memory.plain source.contents.toList)).summary ∧
      (Index.build Tag.Table.standard {} 2 source).1 =
        (Index.build Tag.Table.standard {} 2 (Memory.plain source.contents.toList)).1 := by
  intro source session
  have hs : Source.Delivers source source.contents.toList 14 :=
    Memory.delivers rfl (by decide) (by decide) (by decide)
  obtain ⟨-, hsummary, hindex⟩ :=
    decoding_eq_of_delivers hs Tag.Table.standard {} {} (Nat.zero_le _) (some 9) 2
  exact ⟨hs, hsummary (by decide +kernel), hindex rfl⟩

end Session

end Telemetry
