import Telemetry.Proofs.Resumption

/-!
# What decoding consumes

A record takes at least one byte of the stream, so there are no more records than bytes
(`length_records_toParse_le`).  A look at the window that asks for more bytes was shown less than
the longest record (`length_lt_of_needMore`).

A session that stands in the data, with no overflow ahead of it, takes a step, and goes on standing
there or has stopped (`Proceeds.step`).
-/

namespace Telemetry

namespace Record.Parser

/-- The bytes of the longest record. -/
def longest : Nat := Tag.maxLength + 1

theorem wanted_le (p : Parser) (tag? : Option UInt8) : p.wanted tag? ≤ longest := by
  unfold wanted
  split
  · decide
  · next tag =>
    split
    · decide
    · rcases ht : p.table.get? tag with _ | t
      · decide
      · rcases hl : t.layout with ⟨length, _ | position⟩ | _
        · have hvalid := Tag.Table.valid_of_get? ht
          rw [hl] at hvalid
          simp only [Option.map_some, hl]
          exact Nat.succ_le_succ hvalid
        · have hvalid := Tag.Table.valid_of_get? ht
          rw [hl] at hvalid
          simp only [Option.map_some, hl]
          exact Nat.succ_le_succ hvalid.1
        · simp only [Option.map_some, hl]
          decide

variable {p p' : Parser} {window : Bytes} {offset ordinal n : Nat}

theorem rest_of_decideText_needMore {tag : UInt8} {rest : Bytes}
    (h : p.decideText tag rest offset ordinal = .ok (.needMore, p')) : rest = [] := by
  rcases rest with _ | ⟨char, rest⟩
  · rfl
  · unfold decideText at h
    dsimp only at h
    simp only [bind, Except.bind, pure, Except.pure] at h
    repeat' split at h
    all_goals simp at h

/-- A look that asks for more was shown less than it wants. -/
theorem length_lt_of_needMore (h : p.decode window offset ordinal = .ok (.needMore, p')) :
    window.length < p.wanted window.head? := by
  unfold decode at h
  unfold wanted
  rcases window with _ | ⟨tag, rest⟩
  · exact Nat.one_pos
  · simp only [List.head?_cons, List.length_cons] at h ⊢
    rcases hi : p.interrupted tag with _ | text
    · rcases ht : p.table.get? tag with _ | t
      · simp [hi, ht, pure, Except.pure] at h
      · rcases hl : t.layout with ⟨length, timestamp⟩ | _
        · simp only [hi, ht, hl, pure, Except.pure, decideFixed, Except.ok.injEq, Option.map_some]
            at h ⊢
          split at h
          · next hlen =>
            rw [List.length_take] at hlen
            omega
          · simp at h
        · simp only [hi, ht, hl, Option.map_some] at h ⊢
          rw [rest_of_decideText_needMore h]
          decide
    · simp only [hi, bind, Except.bind, pure, Except.pure] at h
      split at h <;> simp at h

/-- Nothing is consumed only where a text is closed. -/
theorem openText_of_complete_zero {r : Record}
    (h : p.decode window offset ordinal = .ok (.complete r 0, p')) : p'.openText = none := by
  rcases progress_of_complete h with ⟨-, -, hnone⟩ | ⟨hpos, -, -⟩
  · exact hnone
  · exact absurd hpos (Nat.lt_irrefl 0)

theorem pos_of_complete {r : Record} (hp : p.openText = none)
    (h : p.decode window offset ordinal = .ok (.complete r n, p')) : 0 < n := by
  rcases progress_of_complete h with ⟨-, hopen, -⟩ | ⟨hpos, -, -⟩
  · simp [hp] at hopen
  · exact hpos

/-- An open text may still make a record, and each other one takes a byte. -/
theorem length_records_parse_le (limit : Option Nat) (p : Parser) (rest : Bytes)
    (offset ordinal : Nat) : (p.parse limit rest offset ordinal).records.length ≤
      rest.length + if p.openText.isSome then 1 else 0 := by
  induction p, rest, offset, ordinal using parse.induct limit with
  | case1 p rest offset ordinal l hl => simp [parse_of_limit hl]
  | case2 p rest offset ordinal hl r n p' hd ih =>
    rw [parse_of_complete hl hd, List.length_cons]
    rw [List.length_drop] at ih
    rcases progress_of_complete hd with ⟨rfl, hopen, hnone⟩ | ⟨hpos, hle, himp⟩
    · rw [if_pos hopen]
      simp only [hnone, Option.isSome_none, Bool.false_eq_true, if_false] at ih
      omega
    · by_cases hopen : p'.openText.isSome
      · rw [if_pos (himp hopen)]
        rw [if_pos hopen] at ih
        omega
      · rw [if_neg hopen] at ih
        omega
  | case3 p rest offset ordinal hl n p' hd ih =>
    obtain ⟨rfl, hle⟩ := consumed_of_pending hd
    rw [parse_of_pending hl hd]
    rw [List.length_drop] at ih
    split_ifs at ih ⊢ <;> omega
  | case4 p rest offset ordinal hl position tag p' hd => simp [parse_of_lostSync hl hd]
  | case5 p rest offset ordinal hl p' hd => simp [parse_of_needMore hl hd]
  | case6 p rest offset ordinal hl o hd => simp [parse_of_error hl hd]

end Record.Parser

namespace Session

variable {s : Session} {data : Bytes} {last : Nat}

theorem length_records_toParse_le (h : s.parser.openText = none) (data : Bytes) :
    (s.toParse data).records.length ≤ data.length - s.offset := by
  have hle := s.parser.length_records_parse_le s.limit (data.drop s.offset) s.offset s.ordinal
  rw [h, List.length_drop] at hle
  exact hle

/-- Unless it has stopped, the session stands in the data and no overflow is ahead of it. -/
def Proceeds (s : Session) (data : Bytes) (last : Nat) : Prop :=
  s.finish = none → s.Within data last ∧ (s.toClock data).fault = none

theorem proceeds_of_finish (h : s.finish ≠ none) (data : Bytes) (last : Nat) :
    s.Proceeds data last :=
  fun hnone => absurd hnone h

variable {σ : Type} [Source σ] {source : σ}

/-- A session that proceeds takes a step. -/
theorem Proceeds.step (h : s.Proceeds data last) (hs : Source.Delivers source data last) :
    ∃ e s' source', s.step source = (.ok (e, s'), source') ∧ s'.Proceeds data last ∧
      Source.Reaches last source source' := by
  rcases hready : s.ready with _ | ⟨t, ready⟩
  · rcases hfinish : s.finish with _ | finish
    · obtain ⟨hw, hline⟩ := h hfinish
      have hreads := step_reads hw hs.toFaithful hready hfinish
      generalize s.step source = result at hreads
      cases hreads with
      | failed hfails => exact absurd hfails (hs.not_fails _)
      | overflowed hparse ha =>
        rw [toClock, hparse, Clock.Config.timeline_of_error ha] at hline
        cases hline
      | parsed ha hwithin hparse =>
        refine ⟨_, _, _, rfl, fun _ => ⟨hwithin, ?_⟩, .refl⟩
        rw [toClock, hparse, Clock.Config.timeline_of_ok ha] at hline
        exact hline
      | moved hreach hwithin hparse =>
        refine ⟨_, _, _, rfl, fun _ => ⟨hwithin, ?_⟩, hreach⟩
        rw [toClock, hparse] at hline
        exact hline
      | stopped _ hreach =>
        exact ⟨_, _, _, rfl, proceeds_of_finish (Option.some_ne_none _) data last, hreach⟩
    · refine ⟨.over, s, source, ?_, h, .refl⟩
      rw [Session.step, hready, hfinish]
  · refine ⟨.emitted t, { s with ready }, source, ?_, fun hfinish => ?_, .refl⟩
    · rw [Session.step, hready]
    · obtain ⟨hw, hline⟩ := h hfinish
      exact ⟨⟨hw.shows, hw.offset_le, hw.sound⟩, hline⟩

end Session

end Telemetry
