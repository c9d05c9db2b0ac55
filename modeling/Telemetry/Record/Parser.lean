import Telemetry.Record
import Telemetry.Tag.Table

/-!
Takes records apart, one look at the available bytes at a time.

A look that completes a record consumes some of the bytes it was shown, or else closes the open
text (`progress_of_complete`); one that leaves a text open consumes a whole pair
(`consumed_of_pending`). So parsing never stands still.
-/

namespace Telemetry.Record

/-- The most characters of one text; a longer one goes on in another record. -/
def maxTextLength : Nat := 2147483646

/-- A text whose end has not been seen. -/
structure OpenText where
  tag : UInt8
  offset : Nat
  /-- The characters, the last one first. -/
  reversed : Bytes := []
  length : Nat := 0
  length_eq : length = reversed.length := by rfl
  deriving Repr

namespace OpenText

def chars (t : OpenText) : Bytes :=
  t.reversed.reverse

def push (t : OpenText) (c : UInt8) : OpenText :=
  { t with
    reversed := c :: t.reversed
    length := t.length + 1
    length_eq := by simp [t.length_eq] }

/-- The record of a text that ends before position `stop`. -/
def close (t : OpenText) (stop ordinal : Nat) (terminated : Bool) : Except Overflow Record := do
  let span ← Word.sub stop t.offset
  return {
    ordinal
    tag := t.tag
    kind := .text terminated
    payload := t.chars
    offset := t.offset
    length := min span Record.maxLength
    rawTicks := none }

end OpenText

structure Parser where
  table : Tag.Table
  textLimit : Nat := maxTextLength
  openText : Option OpenText := none
  textLimit_pos : 0 < textLimit := by decide

/-- What one look at the available bytes decides. -/
inductive Decision where
  /-- A record is complete. Nothing is consumed where a text ends before the byte that shows it. -/
  | complete (record : Record) (consumed : Nat)
  /-- One more character of a text. -/
  | pending (consumed : Nat)
  | needMore
  /-- The tag is not in the table, so the length of its record is unknown. -/
  | lostSync (offset : Nat) (tag : UInt8)
  deriving Repr

/-- What is told of a tag that is not in the table. -/
def Decision.lostSyncMessage (offset : Nat) (tag : UInt8) : String :=
  "lost sync at offset " ++ toString offset ++ " (tag " ++ Tag.code tag ++ ")"

namespace Parser

/-- A text takes at least one character, however small the limit. -/
def withTextLimit (p : Parser) (limit : Nat) : Parser :=
  { p with
    textLimit := max 1 (min limit maxTextLength)
    textLimit_pos := by omega }

def reset (p : Parser) : Parser :=
  { p with openText := none }

/-- Where the open text began. -/
def pendingOffset (p : Parser) : Option Nat :=
  p.openText.map (·.offset)

/-- The open text that a tag brings to an end: one of another tag. -/
def interrupted (p : Parser) (tag : UInt8) : Option OpenText :=
  p.openText.filter (·.tag != tag)

/-- How many bytes a decision needs, where the first one is `tag?`. -/
def wanted (p : Parser) (tag? : Option UInt8) : Nat :=
  match tag? with
  | none => 1
  | some tag =>
    match p.interrupted tag with
    | some _ => 1
    | none =>
      match (p.table.get? tag).map Tag.layout with
      | none => 1
      | some (.fixed length _) => length + 1
      | some .text => 2

/-- A record of `length` bytes after the tag, once they are all there. -/
def decideFixed (p : Parser) (length : Nat) (timestamp : Option Nat) (tag : UInt8) (rest : Bytes)
    (offset ordinal : Nat) : Decision × Parser :=
  let payload := rest.take length
  if payload.length < length then (.needMore, p)
  else
    let record := {
      ordinal, tag, kind := .fixed, payload, offset
      length := length + 1
      rawTicks := timestamp.map fun position => Bytes.word16 (payload.drop position) }
    (.complete record (length + 1), p)

/-- The next pair of a text. -/
def decideText (p : Parser) (tag : UInt8) (rest : Bytes) (offset ordinal : Nat) :
    Except Overflow (Decision × Parser) :=
  match rest with
  | [] => return (.needMore, p)
  | char :: _ => do
    let text := p.openText.getD { tag, offset }
    if char == 0 then
      let stop ← Word.add offset 2
      let record ← text.close stop ordinal true
      return (.complete record 2, p.reset)
    else if p.textLimit ≤ text.length then
      let record ← text.close offset ordinal false
      return (.complete record 0, p.reset)
    else
      return (.pending 2, { p with openText := some (text.push char) })

/-- Looks at `window`, which starts at `offset`; a completed record gets `ordinal`. -/
def decode (p : Parser) (window : Bytes) (offset ordinal : Nat) :
    Except Overflow (Decision × Parser) :=
  match window with
  | [] => return (.needMore, p)
  | tag :: rest =>
    match p.interrupted tag with
    | some text => do
      let record ← text.close offset ordinal false
      return (.complete record 0, p.reset)
    | none =>
      match p.table.get? tag with
      | none => return (.lostSync offset tag, p)
      | some t =>
        match t.layout with
        | .fixed length timestamp => return p.decideFixed length timestamp tag rest offset ordinal
        | .text => p.decideText tag rest offset ordinal

/-- With fewer bytes than that, nothing is decided. -/
theorem decode_of_lt_wanted {p : Parser} {window : Bytes} {offset ordinal : Nat}
    (h : window.length < p.wanted window.head?) :
    p.decode window offset ordinal = .ok (.needMore, p) := by
  unfold wanted at h
  cases window with
  | nil => rfl
  | cons tag rest =>
    simp only [List.head?_cons, List.length_cons] at h
    unfold decode
    cases hi : p.interrupted tag with
    | some text => simp [hi] at h
    | none =>
      cases ht : p.table.get? tag with
      | none => simp [hi, ht] at h
      | some t =>
        cases hl : t.layout with
        | fixed length timestamp =>
          simp only [hi, ht, Option.map_some, hl] at h
          have hlen : (rest.take length).length < length := by
            rw [List.length_take]
            omega
          simp only [hi, ht, hl, decideFixed, if_pos hlen]
          rfl
        | text =>
          simp only [hi, ht, Option.map_some, hl] at h
          have hnil : rest = [] := List.eq_nil_of_length_eq_zero (by omega)
          simp only [hi, ht, hl, hnil]
          rfl

theorem interrupted_isSome {p : Parser} {tag : UInt8} {text : OpenText}
    (h : p.interrupted tag = some text) : p.openText.isSome := by
  unfold interrupted at h
  cases hp : p.openText <;> simp_all

theorem decideText_complete {p p' : Parser} {tag : UInt8} {rest : Bytes} {offset ordinal n : Nat}
    {r : Record} (h : p.decideText tag rest offset ordinal = .ok (.complete r n, p')) :
    p'.openText = none ∧ (n = 0 ∧ p.openText.isSome ∨ n = 2 ∧ rest ≠ []) := by
  unfold decideText at h
  split at h
  · simp [pure, Except.pure] at h
  · next char tail =>
    have hpos := p.textLimit_pos
    dsimp only at h
    split at h
    · simp only [bind, Except.bind, pure, Except.pure] at h
      split at h
      · simp at h
      · split at h
        · simp at h
        · simp only [Except.ok.injEq, Prod.mk.injEq, Decision.complete.injEq] at h
          obtain ⟨⟨_, rfl⟩, rfl⟩ := h
          exact ⟨rfl, .inr ⟨rfl, by simp⟩⟩
    · split at h
      · next hfull =>
        simp only [bind, Except.bind, pure, Except.pure] at h
        split at h
        · simp at h
        · simp only [Except.ok.injEq, Prod.mk.injEq, Decision.complete.injEq] at h
          obtain ⟨⟨_, rfl⟩, rfl⟩ := h
          refine ⟨rfl, .inl ⟨rfl, ?_⟩⟩
          cases hp : p.openText with
          | none => simp [hp] at hfull; omega
          | some _ => rfl
      · simp [pure, Except.pure] at h

theorem decideText_pending {p p' : Parser} {tag : UInt8} {rest : Bytes} {offset ordinal n : Nat}
    (h : p.decideText tag rest offset ordinal = .ok (.pending n, p')) : n = 2 ∧ rest ≠ [] := by
  unfold decideText at h
  split at h
  · simp [pure, Except.pure] at h
  · dsimp only at h
    simp only [bind, Except.bind, pure, Except.pure] at h
    repeat' split at h
    all_goals simp_all

/-- Completing a record consumes bytes or closes the open text, and opens none. -/
theorem progress_of_complete {p p' : Parser} {window : Bytes} {offset ordinal n : Nat} {r : Record}
    (h : p.decode window offset ordinal = .ok (.complete r n, p')) :
    n = 0 ∧ p.openText.isSome ∧ p'.openText = none ∨
      0 < n ∧ n ≤ window.length ∧ (p'.openText.isSome → p.openText.isSome) := by
  unfold decode at h
  split at h
  · simp [pure, Except.pure] at h
  · next tag rest =>
    split at h
    · next text ht =>
      simp only [bind, Except.bind, pure, Except.pure] at h
      split at h
      · simp at h
      · simp only [Except.ok.injEq, Prod.mk.injEq, Decision.complete.injEq] at h
        obtain ⟨⟨_, rfl⟩, rfl⟩ := h
        exact .inl ⟨rfl, interrupted_isSome ht, rfl⟩
    · split at h
      · simp [pure, Except.pure] at h
      · split at h
        · simp only [pure, Except.pure, decideFixed, Except.ok.injEq] at h
          split at h
          · simp at h
          · next hlen =>
            simp only [Prod.mk.injEq, Decision.complete.injEq] at h
            obtain ⟨⟨_, rfl⟩, rfl⟩ := h
            simp only [List.length_take] at hlen
            exact .inr ⟨by omega, by simp only [List.length_cons]; omega, id⟩
        · obtain ⟨hnone, ⟨rfl, hopen⟩ | ⟨rfl, hrest⟩⟩ := decideText_complete h
          · exact .inl ⟨rfl, hopen, hnone⟩
          · have := List.length_pos_iff.2 hrest
            exact .inr ⟨by omega, by simp only [List.length_cons]; omega, by simp [hnone]⟩

/-- A look that leaves a text open consumes a tag and a character. -/
theorem consumed_of_pending {p p' : Parser} {window : Bytes} {offset ordinal n : Nat}
    (h : p.decode window offset ordinal = .ok (.pending n, p')) : n = 2 ∧ 2 ≤ window.length := by
  unfold decode at h
  split at h
  · simp [pure, Except.pure] at h
  · next tag rest =>
    split at h
    · simp only [bind, Except.bind, pure, Except.pure] at h
      split at h <;> simp at h
    · split at h
      · simp [pure, Except.pure] at h
      · split at h
        · simp only [pure, Except.pure, decideFixed, Except.ok.injEq] at h
          split at h <;> simp at h
        · obtain ⟨rfl, hrest⟩ := decideText_pending h
          have := List.length_pos_iff.2 hrest
          exact ⟨rfl, by simp only [List.length_cons]; omega⟩

end Parser

end Telemetry.Record
