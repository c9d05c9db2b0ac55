import Telemetry.Proofs.Framing
import Telemetry.Proofs.Looks

/-!
# Decisions are final

What a parser decides on some bytes it decides on any longer bytes, and a look that asks for more
leaves the parser as it was.  So nothing is lost by looking too early, and nothing is decided that
later bytes could change (`decode_final`).

The looks may be made anywhere, as long as they do not go back.  All that a look can do to a parser
is to leave it alone, to close its text, or to add one character that is not zero to a text that has
room for it (`leaves_of_decode`), so what is open stays in order (`Orderly.leaves`) and no look
overflows.
-/

namespace Telemetry.Record.Parser

/-- What a look at `offset` may leave of a parser. -/
inductive Leaves (p : Parser) (offset : Nat) : Parser → Prop where
  | same : Leaves p offset p
  | closed : Leaves p offset p.reset
  | pushed {tag char : UInt8} {t : Tag} (hi : p.interrupted tag = none)
      (ht : p.table.get? tag = some t) (hl : t.layout = .text) (hchar : char ≠ 0)
      (hroom : (p.textAt tag offset).length < p.textLimit) :
    Leaves p offset { p with openText := some ((p.textAt tag offset).push char) }

/-- A parser after looks at any bytes, the last one at `last` and none before the one before it. -/
inductive Reached (fresh : Parser) : Nat → Parser → Prop where
  | refl : Reached fresh 0 fresh
  | look {last offset ordinal : Nat} {p p' : Parser} {window : Bytes} {d : Decision}
      (h : Reached fresh last p) (hle : last ≤ offset)
      (hd : p.decode window offset ordinal = .ok (d, p')) : Reached fresh offset p'

/-- A sound parser of the table, whose open text has some characters, no more than the limit, and
no zero among them. -/
structure Orderly (p : Parser) (table : Tag.Table) (limit last : Nat) : Prop
    extends Sound p last where
  table_eq : p.table = table
  textLimit_eq : p.textLimit = limit
  length_le : ∀ text, p.openText = some text → 0 < text.length ∧ text.length ≤ limit
  zero_notMem : ∀ text, p.openText = some text → 0 ∉ text.chars

section Looks

variable {p p' : Parser} {window : Bytes} {offset ordinal : Nat} {d : Decision}

theorem leaves_of_decideText {tag : UInt8} {t : Tag} {rest : Bytes}
    (hi : p.interrupted tag = none) (ht : p.table.get? tag = some t) (hl : t.layout = .text)
    (h : p.decideText tag rest offset ordinal = .ok (d, p')) : p.Leaves offset p' := by
  rcases rest with _ | ⟨char, rest⟩
  · cases h
    exact .same
  by_cases hchar : char = 0
  · simp only [decideText, hchar, beq_self_eq_true, if_true, bind, Except.bind] at h
    split at h
    · cases h
    · split at h <;> cases h
      exact .closed
  by_cases hroom : (p.textAt tag offset).length < p.textLimit
  · rw [decideText_push hchar hroom rest ordinal] at h
    cases h
    exact .pushed hi ht hl hchar hroom
  · simp only [decideText] at h
    rw [← textAt, if_neg (by simpa using hchar), if_pos (Nat.not_lt.1 hroom)] at h
    simp only [bind, Except.bind] at h
    split at h <;> cases h
    exact .closed

theorem leaves_of_decode (h : p.decode window offset ordinal = .ok (d, p')) :
    p.Leaves offset p' := by
  rcases window with _ | ⟨tag, rest⟩
  · cases h
    exact .same
  simp only [decode] at h
  rcases hi : p.interrupted tag with _ | text
  · rcases ht : p.table.get? tag with _ | t
    · simp only [hi, ht] at h
      cases h
      exact .same
    · rcases hl : t.layout with ⟨length, timestamp⟩ | _
      · simp only [hi, ht, hl, decideFixed] at h
        split at h <;> cases h <;> exact .same
      · simp only [hi, ht, hl] at h
        exact leaves_of_decideText hi ht hl h
  · simp only [hi, bind, Except.bind] at h
    split at h <;> cases h
    exact .closed

end Looks

section Orderly

variable {fresh p p' : Parser} {table : Tag.Table} {limit last offset : Nat}

theorem orderly_of_openText (h : p.openText = none) (last : Nat) :
    p.Orderly p.table p.textLimit last :=
  ⟨sound_of_openText h last, rfl, rfl, by simp [h], by simp [h]⟩

theorem Orderly.mono (h : p.Orderly table limit last) (hle : last ≤ offset) :
    p.Orderly table limit offset :=
  { h with offset_le := fun text ht => Nat.le_trans (h.offset_le text ht) hle }

/-- A look keeps what is open in order. -/
theorem Orderly.leaves (h : p.Orderly table limit offset) (hp : p.Leaves offset p') :
    p'.Orderly table limit offset := by
  cases hp with
  | same => exact h
  | closed =>
    obtain ⟨rfl, rfl⟩ : p.table = table ∧ p.textLimit = limit := ⟨h.table_eq, h.textLimit_eq⟩
    exact orderly_of_openText (p := p.reset) rfl offset
  | @pushed tag char t hi ht hl hchar hroom =>
    obtain ⟨text, htext⟩ : ∃ text, text = p.textAt tag offset := ⟨_, rfl⟩
    have htag : text.tag = tag := htext ▸ tag_textAt hi offset
    have hstart : text.offset ≤ offset := by
      rw [htext, offset_textAt]
      exact h.start_le
    have hzero : 0 ∉ text.chars := by
      rw [htext]
      rcases hopen : p.openText with _ | text'
      · simp [textAt, hopen, OpenText.chars]
      · rw [textAt_of_openText hopen]
        exact h.zero_notMem text' hopen
    rw [← htext, h.textLimit_eq] at hroom
    rw [← htext]
    refine ⟨⟨?_, ?_⟩, h.table_eq, h.textLimit_eq, ?_, ?_⟩ <;> intro text' htext' <;> cases htext'
    · exact ⟨t, htag ▸ ht, hl⟩
    · exact hstart
    · exact ⟨Nat.succ_pos _, hroom⟩
    · simp [OpenText.chars_push, hzero, hchar.symm]

theorem Orderly.of_reached (hfresh : fresh.Orderly table limit 0) (h : Reached fresh last p) :
    p.Orderly table limit last := by
  induction h with
  | refl => exact hfresh
  | look _ hle hd ih => exact (ih.mono hle).leaves (leaves_of_decode hd)

end Orderly

/-- A look at any bytes, at no position before the last look, decides something, and decides it
whatever bytes follow, or else asks for more and changes nothing. A text that is open then has a
tag of a text, some characters but no more than the limit, and no zero. -/
theorem decode_final (table : Tag.Table) (limit : Nat) {last offset : Nat} {p : Parser}
    (h : Reached (({ table } : Parser).withTextLimit limit) last p) (hle : last ≤ offset)
    (hfit : offset + 2 < Word.size) (ordinal : Nat) (window more : Bytes) :
    (∃ d p', p.decode window offset ordinal = .ok (d, p') ∧
      (d ≠ .needMore → p.decode (window ++ more) offset ordinal = .ok (d, p')) ∧
      (d = .needMore → p' = p)) ∧
    p.table = table ∧ p.textLimit = max 1 (min limit maxTextLength) ∧
    ∀ text, p.openText = some text →
      (∃ t, table.get? text.tag = some t ∧ t.layout = .text) ∧
        1 ≤ text.chars.length ∧ text.chars.length ≤ max 1 (min limit maxTextLength) ∧
        0 ∉ text.chars := by
  have hfresh := orderly_of_openText (p := ({ table } : Parser).withTextLimit limit) rfl 0
  have horderly : p.Orderly table (max 1 (min limit maxTextLength)) last := hfresh.of_reached h
  refine ⟨?_, horderly.table_eq, horderly.textLimit_eq, fun text htext => ?_⟩
  · obtain ⟨d, p', hd, -⟩ := (horderly.mono hle).decode window ordinal fun _ => hfit
    refine ⟨d, p', hd, fun hne => ?_, fun hmore => parser_of_needMore (hmore ▸ hd)⟩
    rcases p.decode_append window more offset ordinal with hmore | hsame
    · rw [hd] at hmore
      cases hmore
      exact absurd rfl hne
    · exact hsame.trans hd
  · obtain ⟨hpos, hlen⟩ := horderly.length_le text htext
    rw [← text.length_chars] at hpos hlen
    refine ⟨?_, hpos, hlen, horderly.zero_notMem text htext⟩
    rw [← horderly.table_eq]
    exact horderly.layout_eq text htext

/-- Inside a text that may have three characters: its tag alone decides nothing, and its end is
decided whatever follows. -/
theorem decode_final_inside_text :
    let fresh := ({ table := .standard } : Parser).withTextLimit 3
    ∃ p p' r, Reached fresh 10 p ∧ p.openText.map (·.chars) = some [97] ∧
      10 ≤ 12 ∧ 12 + 2 < Word.size ∧ p.decode [32] 12 5 = .ok (.needMore, p) ∧
      p.decode [32, 0] 12 5 = .ok (.complete r 2, p') ∧
      p.decode ([32, 0] ++ [32, 98]) 12 5 = .ok (.complete r 2, p') := by
  intro fresh
  obtain ⟨p, hp⟩ : ∃ p, fresh.decode [32, 97] 10 5 = .ok (.pending 2, p) := ⟨_, rfl⟩
  have hreached : Reached fresh 10 p := .look .refl (Nat.zero_le 10) hp
  have hle : 10 ≤ 12 := by decide
  have hfit : 12 + 2 < Word.size := by decide
  cases hp
  obtain ⟨⟨d, p', hd, hfinal, -⟩, -⟩ :=
    decode_final .standard 3 hreached hle hfit 5 [32, 0] [32, 98]
  cases hd
  exact ⟨_, _, _, hreached, rfl, hle, hfit, rfl, rfl, hfinal (by simp)⟩

end Telemetry.Record.Parser
