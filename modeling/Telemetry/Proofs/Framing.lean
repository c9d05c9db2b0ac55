import Telemetry.Proofs.Parse
import Telemetry.Proofs.Placement

/-!
# How records divide a stream

The bytes of an open text and those after it are still to be divided into records.  A look at them
completes a record that is written in the first of these bytes, or leaves them to the next look, or
finds that they do not begin with a record (`ReadTo.decode`).  So what a stream parses into is one
record after another from its beginning, and the bytes that are left tell why there are no more
(`divides_parse`).
-/

namespace Telemetry

namespace Record

/-- Bytes that begin a record of the table and do not complete it. -/
inductive Cut (table : Tag.Table) : Bytes → Prop where
  | fixed {tag : UInt8} {payload : Bytes} {t : Tag} {length : Nat} {timestamp : Option Nat}
      (ht : table.get? tag = some t) (hl : t.layout = .fixed length timestamp)
      (hlen : payload.length < length) : Cut table (tag :: payload)
  | pairs {tag : UInt8} {chars : Bytes} {t : Tag} (ht : table.get? tag = some t)
      (hl : t.layout = .text) (hzero : 0 ∉ chars) (hlen : chars.length ≤ maxTextLength)
      (hne : chars ≠ []) : Cut table (Record.pairs tag chars)
  | loneTag {tag : UInt8} {chars : Bytes} {t : Tag} (ht : table.get? tag = some t)
      (hl : t.layout = .text) (hzero : 0 ∉ chars) (hlen : chars.length ≤ maxTextLength) :
    Cut table (Record.pairs tag chars ++ [tag])

theorem Cut.head_eq {table : Tag.Table} {tail : Bytes} (h : Cut table tail) :
    ∃ tag t, tail.head? = some tag ∧ table.get? tag = some t := by
  cases h with
  | fixed ht => exact ⟨_, _, rfl, ht⟩
  | @pairs tag chars t ht _ _ _ hne =>
    obtain ⟨c, rest, rfl⟩ := List.exists_cons_of_ne_nil hne
    exact ⟨tag, t, rfl, ht⟩
  | @loneTag tag chars t ht => exact ⟨tag, t, by cases chars <;> rfl, ht⟩

theorem Cut.ne_nil {table : Tag.Table} {tail : Bytes} (h : Cut table tail) : tail ≠ [] := by
  obtain ⟨tag, -, hhead, -⟩ := h.head_eq
  rintro rfl
  simp at hhead

/-- Why there is no record at `offset`, where `tail` begins, and where the parser stands then. -/
inductive Ends (table : Tag.Table) (offset ordinal : Nat) : Bytes → StreamEnd → Nat → Prop where
  | eof : Ends table offset ordinal [] .eof offset
  | truncated {tail : Bytes} {position : Nat} (hcut : Cut table tail) :
    Ends table offset ordinal tail (.truncated offset tail.length) position
  | lostSync {tag : UInt8} {rest : Bytes} {position : Nat} (ht : table.get? tag = none) :
    Ends table offset ordinal (tag :: rest) (.lostSync ordinal offset tag none) position

namespace OpenText

theorem length_chars (text : OpenText) : text.chars.length = text.length := by
  rw [chars, List.length_reverse, text.length_eq]

theorem chars_push (text : OpenText) (c : UInt8) : (text.push c).chars = text.chars ++ [c] := by
  simp [push, chars]

def body (text : OpenText) (terminated : Bool) : Body :=
  ⟨text.tag, .text terminated, text.chars⟩

theorem length_encode_body (text : OpenText) (terminated : Bool) :
    (text.body terminated).encode.length = 2 * text.length + if terminated then 2 else 0 := by
  cases terminated <;> simp [body, Body.encode, length_pairs, length_chars]

theorem close_eq {text : OpenText} {table : Tag.Table} {t : Tag}
    (ht : table.get? text.tag = some t) (hl : t.layout = .text) (hlen : text.length ≤ maxTextLength)
    (ordinal : Nat) (terminated : Bool) :
    text.close (text.offset + (text.body terminated).encode.length) ordinal terminated =
      .ok ((text.body terminated).place table text.offset ordinal) := by
  have hsub : Word.sub (text.offset + (text.body terminated).encode.length) text.offset =
      .ok (text.body terminated).encode.length := Word.sub_eq_ok_iff.2 ⟨by omega, by omega⟩
  -- the longest text is short enough for its length to be told exactly
  have hmin : min (text.body terminated).encode.length maxLength =
      (text.body terminated).encode.length := by
    rw [Nat.min_eq_left]
    rw [length_encode_body]
    simp only [maxTextLength, maxLength, UInt32.size] at hlen ⊢
    split_ifs <;> omega
  have hstamp : (text.body terminated).stamp? table = none := by
    simp only [Body.stamp?, body, ht, Option.map_some, hl]
  simp only [close, hsub, bind, Except.bind, hmin, Body.place, hstamp]
  rfl

structure ReadTo (text : OpenText) (table : Tag.Table) (limit offset : Nat) : Prop where
  layout_eq : ∃ t, table.get? text.tag = some t ∧ t.layout = .text
  offset_eq : text.offset + 2 * text.length = offset
  length_pos : 0 < text.length
  length_le : text.length ≤ limit
  zero_notMem : 0 ∉ text.chars

end OpenText

namespace Parser

def held (p : Parser) : Bytes :=
  match p.openText with
  | none => []
  | some text => pairs text.tag text.chars

/-- What is open is a text that has been read up to `offset`. -/
structure ReadTo (p : Parser) (offset : Nat) : Prop where
  limit_le : p.textLimit ≤ maxTextLength
  openText : ∀ text, p.openText = some text → text.ReadTo p.table p.textLimit offset

theorem held_of_openText {p : Parser} (h : p.openText = none) : p.held = [] := by
  rw [held, h]

theorem readTo_of_openText {p : Parser} (hopen : p.openText = none)
    (h : p.textLimit ≤ maxTextLength) (offset : Nat) : p.ReadTo offset :=
  ⟨h, fun text ht => by simp [hopen] at ht⟩

namespace ReadTo

variable {p : Parser} {offset : Nat}

theorem reset (h : p.ReadTo offset) (offset' : Nat) : p.reset.ReadTo offset' :=
  ⟨h.limit_le, fun text ht => by cases ht⟩

theorem start_add (h : p.ReadTo offset) : p.start offset + p.held.length = offset := by
  rcases ht : p.openText with _ | text
  · simp [start, pendingOffset, held, ht]
  · have := (h.openText text ht).offset_eq
    simpa [start, pendingOffset, held, ht, length_pairs, text.length_chars]

theorem held_ne_nil (h : p.ReadTo offset) {text : OpenText} (ht : p.openText = some text) :
    p.held ≠ [] := by
  have hpos := (h.openText text ht).length_pos
  apply List.ne_nil_of_length_pos
  rw [held, ht, length_pairs, text.length_chars]
  omega

/-- A tag that ends no open text, and is not that of a text, finds none. -/
theorem openText_eq_none (h : p.ReadTo offset) {tag : UInt8} (hi : p.interrupted tag = none)
    (hl : ∀ t, p.table.get? tag = some t → t.layout ≠ .text) : p.openText = none := by
  by_contra hne
  obtain ⟨text, htext⟩ := Option.ne_none_iff_exists'.1 hne
  obtain ⟨t, ht, hlayout⟩ := (h.openText text htext).layout_eq
  rw [tag_of_not_interrupted hi htext] at ht
  exact hl t ht hlayout

end ReadTo

theorem length_noChars : 0 = ([] : Bytes).length :=
  rfl

/-- The text that a pair at `offset` continues, or begins. -/
def textAt (p : Parser) (tag : UInt8) (offset : Nat) : OpenText :=
  p.openText.getD { tag, offset, length_eq := length_noChars }

section Decide

variable {p : Parser} {offset : Nat} {tag : UInt8}

theorem textAt_of_openText {text : OpenText} (h : p.openText = some text) :
    p.textAt tag offset = text := by
  rw [textAt, h]
  rfl

theorem tag_textAt (hi : p.interrupted tag = none) (offset : Nat) :
    (p.textAt tag offset).tag = tag := by
  rcases ht : p.openText with _ | text
  · rw [textAt, ht]
    rfl
  · rw [textAt_of_openText ht]
    exact tag_of_not_interrupted hi ht

theorem offset_textAt (p : Parser) (tag : UInt8) (offset : Nat) :
    (p.textAt tag offset).offset = p.start offset := by
  rw [textAt, start, pendingOffset]
  cases p.openText <;> rfl

theorem pairs_textAt (hi : p.interrupted tag = none) (offset : Nat) :
    pairs tag (p.textAt tag offset).chars = p.held := by
  rcases ht : p.openText with _ | text
  · simp only [textAt, held, ht]
    rfl
  · simp only [textAt_of_openText ht, held, ht, tag_of_not_interrupted hi ht]

namespace ReadTo

theorem length_textAt (h : p.ReadTo offset) (tag : UInt8) :
    p.start offset + 2 * (p.textAt tag offset).length = offset ∧
      (p.textAt tag offset).length ≤ p.textLimit := by
  rw [← offset_textAt p tag]
  rcases ht : p.openText with _ | text
  · rw [textAt, ht]
    exact ⟨rfl, Nat.zero_le _⟩
  · rw [textAt_of_openText ht]
    exact ⟨(h.openText text ht).offset_eq, (h.openText text ht).length_le⟩

theorem zero_notMem_textAt (h : p.ReadTo offset) (tag : UInt8) : 0 ∉ (p.textAt tag offset).chars := by
  rcases ht : p.openText with _ | text
  · rw [textAt, ht]
    exact List.not_mem_nil
  · rw [textAt_of_openText ht]
    exact (h.openText text ht).zero_notMem

variable (h : p.ReadTo offset) (ordinal : Nat)

include h in
/-- An open text ends before a byte that is not its tag. -/
theorem decode_interrupted {text : OpenText} (hi : p.interrupted tag = some text) (rest : Bytes) :
    p.decode (tag :: rest) offset ordinal =
      .ok (.complete ((text.body false).place p.table (p.start offset) ordinal) 0, p.reset) := by
  have htext := openText_of_interrupted hi
  have hread := h.openText text htext
  obtain ⟨t, ht, hl⟩ := hread.layout_eq
  have hclose := OpenText.close_eq ht hl (Nat.le_trans hread.length_le h.limit_le) ordinal false
  have hstop : text.offset + (text.body false).encode.length = offset := by
    simpa [text.length_encode_body] using hread.offset_eq
  have hstart : p.start offset = text.offset := by simp [start, pendingOffset, htext]
  rw [hstop] at hclose
  simp only [Parser.decode, hi, hclose, hstart]
  rfl

variable {t : Tag} (ht : p.table.get? tag = some t) (hl : t.layout = .text)
  (hi : p.interrupted tag = none)

include h ht hl hi in
theorem decideText_zero (rest : Bytes) (hfit : offset + 2 < Word.size) :
    p.decideText tag (0 :: rest) offset ordinal =
      .ok (.complete (((p.textAt tag offset).body true).place p.table (p.start offset) ordinal) 2,
        p.reset) := by
  obtain ⟨hoffset, hlimit⟩ := h.length_textAt tag
  have hadd : Word.add offset 2 = .ok (offset + 2) := Word.add_eq_ok_iff.2 ⟨hfit, rfl⟩
  have ht' : p.table.get? (p.textAt tag offset).tag = some t := by rwa [tag_textAt hi]
  have hclose := OpenText.close_eq ht' hl (Nat.le_trans hlimit h.limit_le) ordinal true
  rw [OpenText.length_encode_body, if_pos rfl, offset_textAt, ← Nat.add_assoc, hoffset] at hclose
  simp only [Parser.decideText]
  rw [← textAt]
  simp only [hadd, bind, Except.bind, hclose]
  rfl

include h ht hl hi in
theorem decideText_full {c : UInt8} (hc : c ≠ 0)
    (hfull : p.textLimit ≤ (p.textAt tag offset).length) (rest : Bytes) :
    p.decideText tag (c :: rest) offset ordinal =
      .ok (.complete (((p.textAt tag offset).body false).place p.table (p.start offset) ordinal) 0,
        p.reset) := by
  obtain ⟨hoffset, hlimit⟩ := h.length_textAt tag
  have ht' : p.table.get? (p.textAt tag offset).tag = some t := by rwa [tag_textAt hi]
  have hclose := OpenText.close_eq ht' hl (Nat.le_trans hlimit h.limit_le) ordinal false
  rw [OpenText.length_encode_body, if_neg (by simp), Nat.add_zero, offset_textAt, hoffset] at hclose
  simp only [Parser.decideText]
  rw [← textAt, if_neg (by simpa using hc), if_pos hfull]
  simp only [bind, Except.bind, hclose]
  rfl

end ReadTo

theorem decideText_push {c : UInt8} (hc : c ≠ 0)
    (hfull : (p.textAt tag offset).length < p.textLimit) (rest : Bytes) (ordinal : Nat) :
    p.decideText tag (c :: rest) offset ordinal =
      .ok (.pending 2, { p with openText := some ((p.textAt tag offset).push c) }) := by
  simp only [Parser.decideText]
  rw [← textAt, if_neg (by simpa using hc), if_neg (Nat.not_le.2 hfull)]
  rfl

theorem ReadTo.push (h : p.ReadTo offset) {t : Tag} (ht : p.table.get? tag = some t)
    (hl : t.layout = .text) (hi : p.interrupted tag = none) {c : UInt8} (hc : c ≠ 0)
    (hfull : (p.textAt tag offset).length < p.textLimit) :
    { p with openText := some ((p.textAt tag offset).push c) : Parser }.ReadTo (offset + 2) := by
  obtain ⟨hoffset, -⟩ := h.length_textAt tag
  refine ⟨h.limit_le, fun text htext => ?_⟩
  cases htext
  refine ⟨⟨t, ?_, hl⟩, ?_, Nat.succ_pos _, hfull, ?_⟩
  · change p.table.get? (p.textAt tag offset).tag = some t
    rwa [tag_textAt hi]
  · change (p.textAt tag offset).offset + 2 * ((p.textAt tag offset).length + 1) = offset + 2
    rw [offset_textAt]
    omega
  · simp [OpenText.chars_push, h.zero_notMem_textAt, hc.symm]

theorem decideFixed_append {t : Tag} {payload : Bytes} {timestamp : Option Nat}
    (ht : p.table.get? tag = some t) (hl : t.layout = .fixed payload.length timestamp)
    (rest : Bytes) (ordinal : Nat) :
    p.decideFixed payload.length timestamp tag (payload ++ rest) offset ordinal =
      (.complete (Body.place p.table ⟨tag, .fixed, payload⟩ offset ordinal) (payload.length + 1),
        p) := by
  have hstamp : (⟨tag, .fixed, payload⟩ : Body).stamp? p.table =
      timestamp.map fun position => Bytes.word16 (payload.drop position) := by
    simp only [Body.stamp?, ht, Option.map_some, hl]
    cases timestamp <;> rfl
  simp only [decideFixed, List.take_left', Nat.lt_irrefl, if_false, Body.place, hstamp]
  rfl

end Decide

/-- What a look at `window` may take from it. -/
inductive Takes (p : Parser) (window : Bytes) (offset ordinal : Nat) :
    Decision → Parser → Prop where
  | needMore (hcut : p.held ++ window = [] ∨ Cut p.table (p.held ++ window)) :
    Takes p window offset ordinal .needMore p
  | lostSync {tag : UInt8} {rest : Bytes} (hwindow : window = tag :: rest)
      (ht : p.table.get? tag = none) (hopen : p.openText = none) :
    Takes p window offset ordinal (.lostSync offset tag) p
  | pending {p' : Parser} (hread : p'.ReadTo (offset + 2)) (htable : p'.table = p.table)
      (hstart : p'.start (offset + 2) = p.start offset) (hlen : 2 ≤ window.length)
      (hheld : p'.held = p.held ++ window.take 2) : Takes p window offset ordinal (.pending 2) p'
  | complete {b : Body} {n : Nat} (hvalid : b.Valid p.table) (hlen : n ≤ window.length)
      (hencode : b.encode = p.held ++ window.take n) :
    Takes p window offset ordinal (.complete (b.place p.table (p.start offset) ordinal) n) p.reset

section Takes

variable {p : Parser} {offset : Nat} {tag : UInt8}

theorem ReadTo.takes_interrupted (h : p.ReadTo offset) {text : OpenText}
    (hi : p.interrupted tag = some text) (rest : Bytes) (ordinal : Nat) :
    p.Takes (tag :: rest) offset ordinal
      (.complete ((text.body false).place p.table (p.start offset) ordinal) 0) p.reset := by
  have htext := openText_of_interrupted hi
  have hread := h.openText text htext
  obtain ⟨t, ht, hl⟩ := hread.layout_eq
  have hlen := Nat.le_trans hread.length_le h.limit_le
  have hne : text.chars ≠ [] := List.ne_nil_of_length_pos (text.length_chars ▸ hread.length_pos)
  refine .complete (.text ht hl hread.zero_notMem (text.length_chars ▸ hlen) fun _ => hne)
    (Nat.zero_le _) ?_
  simp [OpenText.body, Body.encode, held, htext]

theorem ReadTo.decideFixed (h : p.ReadTo offset) (hi : p.interrupted tag = none) {t : Tag}
    {length : Nat} {timestamp : Option Nat} (ht : p.table.get? tag = some t)
    (hl : t.layout = .fixed length timestamp) (rest : Bytes) (ordinal : Nat) :
    ∃ d p', p.decideFixed length timestamp tag rest offset ordinal = (d, p') ∧
      p.Takes (tag :: rest) offset ordinal d p' := by
  have hopen : p.openText = none := h.openText_eq_none hi fun t' ht' => by
    rw [ht] at ht'
    cases ht'
    rw [hl]
    exact Tag.Layout.noConfusion
  have hheld := held_of_openText hopen
  by_cases hlen : rest.length < length
  · have htake : (rest.take length).length < length := by
      rw [List.length_take]
      omega
    refine ⟨.needMore, p, ?_, .needMore (.inr (hheld ▸ .fixed ht hl hlen))⟩
    simp only [Parser.decideFixed, if_pos htake]
  · obtain ⟨payload, more, rfl, rfl⟩ : ∃ payload more, rest = payload ++ more ∧
        length = payload.length :=
      ⟨rest.take length, rest.drop length, (List.take_append_drop _ _).symm, by
        rw [List.length_take]
        omega⟩
    refine ⟨_, _, decideFixed_append ht hl more ordinal, ?_⟩
    have hn : payload.length + 1 ≤ (tag :: (payload ++ more)).length := by simp
    have hencode : (⟨tag, .fixed, payload⟩ : Body).encode =
        p.held ++ (tag :: (payload ++ more)).take (payload.length + 1) := by
      rw [hheld, List.take_succ_cons, List.take_left]
      rfl
    have htakes : p.Takes (tag :: (payload ++ more)) offset ordinal
        (.complete (Body.place p.table ⟨tag, .fixed, payload⟩ (p.start offset) ordinal)
          (payload.length + 1)) p.reset := .complete (.fixed ht hl) hn hencode
    rwa [start_of_openText hopen, reset_of_openText hopen] at htakes

/-- A text takes one more pair, or ends with it, or before it if it is long enough. -/
theorem ReadTo.decideText (h : p.ReadTo offset) (hi : p.interrupted tag = none) {t : Tag}
    (ht : p.table.get? tag = some t) (hl : t.layout = .text) (rest : Bytes) (ordinal : Nat)
    (hfit : offset + (rest.length + 1) < Word.size) :
    ∃ d p', p.decideText tag rest offset ordinal = .ok (d, p') ∧
      p.Takes (tag :: rest) offset ordinal d p' := by
  obtain ⟨hoffset, hlimit⟩ := h.length_textAt tag
  have hchars := (p.textAt tag offset).length_chars
  have hlen := Nat.le_trans hlimit h.limit_le
  have hzero := h.zero_notMem_textAt tag
  have hheld := pairs_textAt hi offset
  have htag := tag_textAt hi offset
  have ht' : p.table.get? (p.textAt tag offset).tag = some t := by rwa [htag]
  cases rest with
  | nil =>
    refine ⟨_, _, rfl, .needMore (.inr ?_)⟩
    rw [← hheld]
    exact .loneTag ht hl hzero (hchars ▸ hlen)
  | cons c rest =>
    simp only [List.length_cons] at hfit
    by_cases hc : c = 0
    · subst hc
      refine ⟨_, _, h.decideText_zero ordinal ht hl hi rest (by omega), .complete ?_ (by simp) ?_⟩
      · exact .text ht' hl hzero (hchars ▸ hlen) fun hf => by cases hf
      · simp [OpenText.body, Body.encode, ← hheld, htag]
    by_cases hfull : p.textLimit ≤ (p.textAt tag offset).length
    · have hpos := p.textLimit_pos
      refine ⟨_, _, h.decideText_full ordinal ht hl hi hc hfull rest,
        .complete ?_ (Nat.zero_le _) ?_⟩
      · exact .text ht' hl hzero (hchars ▸ hlen) fun _ =>
          List.ne_nil_of_length_pos (by omega)
      · simp [OpenText.body, Body.encode, ← hheld, htag]
    · refine ⟨_, _, decideText_push hc (Nat.not_le.1 hfull) rest ordinal,
        .pending (h.push ht hl hi hc (Nat.not_le.1 hfull)) rfl (offset_textAt p tag offset)
          (by simp) ?_⟩
      change pairs (p.textAt tag offset).tag ((p.textAt tag offset).push c).chars = _
      rw [OpenText.chars_push, pairs_append, htag, hheld]
      rfl

end Takes

/-- A look at a window within a stream takes whole records, in order and byte by byte. -/
theorem ReadTo.decode {p : Parser} {offset : Nat} (h : p.ReadTo offset) (window : Bytes)
    (ordinal : Nat) (hfit : offset + window.length < Word.size) :
    ∃ d p', p.decode window offset ordinal = .ok (d, p') ∧ p.Takes window offset ordinal d p' := by
  cases window with
  | nil =>
    refine ⟨_, _, rfl, .needMore ?_⟩
    rw [List.append_nil]
    rcases htext : p.openText with _ | text
    · exact .inl (held_of_openText htext)
    · have hread := h.openText text htext
      obtain ⟨t, ht, hl⟩ := hread.layout_eq
      have hlen : text.chars.length ≤ maxTextLength :=
        text.length_chars ▸ Nat.le_trans hread.length_le h.limit_le
      have hne : text.chars ≠ [] :=
        List.ne_nil_of_length_pos (text.length_chars ▸ hread.length_pos)
      rw [held, htext]
      exact .inr (.pairs ht hl hread.zero_notMem hlen hne)
  | cons tag rest =>
    rcases hi : p.interrupted tag with _ | text
    · simp only [Parser.decode, hi]
      rcases ht : p.table.get? tag with _ | t
      · have hopen := h.openText_eq_none hi (by simp [ht])
        exact ⟨_, _, rfl, .lostSync rfl ht hopen⟩
      · dsimp only
        rcases hl : t.layout with ⟨length, timestamp⟩ | _
        · obtain ⟨d, p', hd, htakes⟩ := h.decideFixed hi ht hl rest ordinal
          exact ⟨d, p', congrArg Except.ok hd, htakes⟩
        · exact h.decideText hi ht hl rest ordinal hfit
    · exact ⟨_, _, h.decode_interrupted ordinal hi rest, h.takes_interrupted hi rest ordinal⟩

theorem ReadTo.takes {p p' : Parser} {offset ordinal : Nat} (h : p.ReadTo offset) {window : Bytes}
    {d : Decision} (hfit : offset + window.length < Word.size)
    (hd : p.decode window offset ordinal = .ok (d, p')) : p.Takes window offset ordinal d p' := by
  obtain ⟨d', q, hq, htakes⟩ := h.decode window ordinal hfit
  rw [hd] at hq
  cases hq
  exact htakes

/-- The bytes that a parser still has to divide are those of some bodies and a rest. -/
structure Divides (p : Parser) (rest : Bytes) (offset ordinal : Nat) (parse : Parse)
    (bs : List Body) (tail : Bytes) : Prop where
  bytes_eq : p.held ++ rest = bs.flatMap Body.encode ++ tail
  valid : ∀ b ∈ bs, b.Valid p.table
  records_eq : parse.records = placeAll p.table bs (p.start offset) ordinal
  ends : Ends p.table (p.start offset + (bs.flatMap Body.encode).length) (ordinal + bs.length) tail
    parse.finish parse.offset

/-- The end of the data comes after a whole record or cuts one short. -/
theorem ReadTo.ends_endOf {p : Parser} {offset : Nat} (h : p.ReadTo offset) {rest : Bytes}
    (hcut : p.held ++ rest = [] ∨ Cut p.table (p.held ++ rest)) (ordinal : Nat) :
    Ends p.table (p.start offset) ordinal (p.held ++ rest) (p.endOf rest.length offset) offset := by
  have hadd := h.start_add
  rcases hcut with hnil | hcut
  · obtain ⟨hheld, hrest⟩ := List.append_eq_nil_iff.1 hnil
    have hopen : p.openText = none := by
      by_contra hne
      obtain ⟨text, htext⟩ := Option.ne_none_iff_exists'.1 hne
      exact h.held_ne_nil htext hheld
    rw [hnil, start_of_openText hopen, endOf, pendingOffset, hopen, hrest]
    exact .eof
  · have hend : p.endOf rest.length offset =
        .truncated (p.start offset) (p.held ++ rest).length := by
      rw [List.length_append]
      rcases htext : p.openText with _ | text
      · have hheld := held_of_openText htext
        have hne : rest.length ≠ 0 := by
          have := List.length_pos_iff.2 hcut.ne_nil
          rw [hheld, List.nil_append] at this
          omega
        simp [endOf, pendingOffset, start, htext, hne, hheld]
      · have hstart : p.start offset = text.offset := by simp [start, pendingOffset, htext]
        have hsub : offset - text.offset = p.held.length := by omega
        simp [endOf, pendingOffset, htext, hstart, hsub]
    rw [hend]
    exact .truncated hcut

theorem divides_parse (p : Parser) (rest : Bytes) (offset ordinal : Nat) (h : p.ReadTo offset)
    (hfit : offset + rest.length < Word.size) :
    ∃ bs tail, p.Divides rest offset ordinal (p.parse none rest offset ordinal) bs tail := by
  induction p, rest, offset, ordinal using parse.induct none with
  | case1 p rest offset ordinal l hl => simp at hl
  | case2 p rest offset ordinal hl r n p' hd ih =>
    have hadd := h.start_add
    obtain - | - | - | ⟨hvalid, hlen, hencode⟩ := h.takes hfit hd
    rename_i b
    have hdrop := List.length_drop (i := n) (l := rest)
    obtain ⟨bs, tail, hdiv⟩ := ih (h.reset (offset + n)) (by omega)
    have hbytes : rest.drop n = bs.flatMap Body.encode ++ tail := hdiv.bytes_eq
    have hlength : p.start offset + b.encode.length = offset + n := by
      rw [hencode, List.length_append, List.length_take]
      omega
    have hstart : p.reset.start (offset + n) = p.start offset + b.encode.length := by
      rw [start_of_openText rfl, hlength]
    rw [parse_of_complete hl hd]
    refine ⟨b :: bs, tail, ?_, ?_, ?_, ?_⟩
    · rw [List.flatMap_cons, hencode, List.append_assoc, List.append_assoc, ← hbytes,
        List.take_append_drop]
    · intro b' hb'
      rcases List.mem_cons.1 hb' with rfl | hb'
      · exact hvalid
      · exact hdiv.valid b' hb'
    · rw [placeAll, hdiv.records_eq, hstart]
      rfl
    · have hends := hdiv.ends
      rw [hstart, Nat.add_assoc, ← List.length_append, ← List.flatMap_cons] at hends
      rwa [List.length_cons, Nat.add_comm bs.length, ← Nat.add_assoc]
  | case3 p rest offset ordinal hl n p' hd ih =>
    obtain - | - | ⟨hread, htable, hstart, hlen, hheld⟩ := h.takes hfit hd
    have hdrop := List.length_drop (i := 2) (l := rest)
    obtain ⟨bs, tail, hdiv⟩ := ih hread (by omega)
    rw [parse_of_pending hl hd]
    refine ⟨bs, tail, ?_, htable ▸ hdiv.valid, ?_, ?_⟩
    · rw [← hdiv.bytes_eq, hheld, List.append_assoc, List.take_append_drop]
    · rw [hdiv.records_eq, htable, hstart]
    · have hends := hdiv.ends
      rwa [htable, hstart] at hends
  | case4 p rest offset ordinal hl position tag p' hd =>
    cases h.takes hfit hd with
    | @lostSync _ rest' hwindow ht hopen =>
      rw [parse_of_lostSync hl hd, hwindow]
      refine ⟨[], tag :: rest', ?_, by simp, rfl, ?_⟩
      · rw [held_of_openText hopen]
        rfl
      · rw [start_of_openText hopen]
        exact .lostSync ht
  | case5 p rest offset ordinal hl p' hd =>
    cases h.takes hfit hd with
    | needMore hcut =>
      rw [parse_of_needMore hl hd]
      exact ⟨[], p.held ++ rest, rfl, by simp, rfl, h.ends_endOf hcut ordinal⟩
  | case6 p rest offset ordinal hl o hd =>
    obtain ⟨d, p', hok, -⟩ := h.decode rest ordinal hfit
    rw [hd] at hok
    cases hok

end Parser

end Record

end Telemetry
