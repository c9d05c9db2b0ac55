import Telemetry.Proofs.Accounting
import Telemetry.Proofs.Looks

/-!
# What is written is read back

Records are written without anything between them.  The looks of a parser take the first of them off
the bytes that begin with it, whatever comes after it (`looks_encode`), so parsing finds all of them
one after another (`parse_parted`), and so does a run (`map_body_records_run`).
-/

namespace Telemetry

namespace Record

/-- Bodies that a recorder may write one after another.  Only a record of another tag shows that a
text ends which is not terminated. -/
inductive Body.Recorded (table : Tag.Table) : List Body → Prop where
  | nil : Recorded table []
  | cons {b : Body} {bs : List Body} (hb : b.Valid table)
      (hnext : b.kind = .text false → ∃ b', bs.head? = some b' ∧ b'.tag ≠ b.tag)
      (h : Recorded table bs) : Recorded table (b :: bs)

theorem Body.Recorded.valid {table : Tag.Table} {bs : List Body} (h : Body.Recorded table bs) :
    ∀ b ∈ bs, b.Valid table := by
  induction h with
  | nil => simp
  | cons hb _ _ ih =>
    intro b hmem
    rcases List.mem_cons.1 hmem with rfl | hmem
    · exact hb
    · exact ih b hmem

/-- What comes after the body shows where it ends: a text that is not terminated ends before another
tag, or before one more character if it has as many as it can. -/
def Body.ShownBy (b : Body) (rest : Bytes) : Prop :=
  b.kind = .text false → ∃ next, rest.head? = some next ∧
    (next ≠ b.tag ∨ b.payload.length = maxTextLength ∧ ∃ c, rest[1]? = some c ∧ c ≠ 0)

/-- Each of the bodies is shown to end by the next ones, and by what comes after all of them. -/
inductive Body.Parted : List Body → Bytes → Prop where
  | nil {tail : Bytes} : Parted [] tail
  | cons {b : Body} {bs : List Body} {tail : Bytes}
      (hb : b.ShownBy (bs.flatMap Body.encode ++ tail)) (h : Parted bs tail) : Parted (b :: bs) tail

theorem Body.Valid.head?_encode {table : Tag.Table} {b : Body} (h : b.Valid table) :
    b.encode.head? = some b.tag := by
  cases h with
  | fixed => rfl
  | @text tag payload t terminated _ _ _ _ hne =>
    cases payload with
    | cons c rest => rfl
    | nil =>
      cases terminated with
      | true => rfl
      | false => exact absurd rfl (hne rfl)

theorem Body.Recorded.parted {table : Tag.Table} {bs : List Body} (h : Body.Recorded table bs) :
    Body.Parted bs [] := by
  induction h with
  | nil => exact .nil
  | cons hb hnext h ih =>
    refine .cons (fun hkind => ?_) ih
    obtain ⟨b', hhead, hne⟩ := hnext hkind
    obtain ⟨bs', rfl⟩ := List.head?_eq_some_iff.1 hhead
    refine ⟨b'.tag, ?_, .inl hne⟩
    rw [List.append_nil, List.flatMap_cons, List.head?_append,
      (h.valid b' (List.mem_cons_self ..)).head?_encode]
    rfl

namespace Parser

section Text

variable {p q : Parser} {offset : Nat} {tag : UInt8}

theorem interrupted_eq_none (h : ∀ text, p.openText = some text → text.tag = tag) :
    p.interrupted tag = none := by
  unfold interrupted
  rcases htext : p.openText with _ | text
  · rfl
  · simp [h text htext]

theorem interrupted_of_ne {text : OpenText} (htext : p.openText = some text)
    (h : text.tag ≠ tag) : p.interrupted tag = some text := by
  unfold interrupted
  rw [htext]
  simp [h]

theorem decode_eq_decideText {t : Tag} (hi : p.interrupted tag = none)
    (ht : p.table.get? tag = some t) (hl : t.layout = .text) (rest : Bytes) (offset ordinal : Nat) :
    p.decode (tag :: rest) offset ordinal = p.decideText tag rest offset ordinal := by
  simp only [decode, hi, ht, hl]

/-- The parser `q` has read `chars` after what `p` had read of a text by `offset`. -/
structure Reads (p : Parser) (tag : UInt8) (offset : Nat) (chars : Bytes) (q : Parser) : Prop where
  readTo : q.ReadTo (offset + 2 * chars.length)
  reset_eq : q.reset = p.reset
  interrupted_eq : q.interrupted tag = none
  start_eq : q.start (offset + 2 * chars.length) = p.start offset
  chars_eq : (q.textAt tag (offset + 2 * chars.length)).chars =
    (p.textAt tag offset).chars ++ chars

/-- The characters of a text are read one by one, as long as it may grow. -/
theorem ReadTo.looks_pairs (h : p.ReadTo offset) {t : Tag} (ht : p.table.get? tag = some t)
    (hl : t.layout = .text) (hi : p.interrupted tag = none) {chars : Bytes} (hzero : 0 ∉ chars)
    (hlen : (p.textAt tag offset).length + chars.length ≤ p.textLimit) (rest : Bytes)
    (ordinal : Nat) :
    ∃ q, p.Reads tag offset chars q ∧
      Site.Looks ⟨p, pairs tag chars ++ rest, offset, ordinal⟩ []
        ⟨q, rest, offset + 2 * chars.length, ordinal⟩ := by
  induction chars generalizing p offset with
  | nil => exact ⟨p, ⟨h, rfl, hi, rfl, (List.append_nil _).symm⟩, .refl _⟩
  | cons c chars ih =>
    rw [List.mem_cons, not_or] at hzero
    obtain ⟨hc, hzero⟩ := hzero
    rw [List.length_cons] at hlen
    have hroom : (p.textAt tag offset).length < p.textLimit := by omega
    have hpush := decideText_push (Ne.symm hc) hroom (pairs tag chars ++ rest) ordinal
    rw [← decode_eq_decideText hi ht hl] at hpush
    obtain ⟨p', hp'⟩ : ∃ p' : Parser,
      p' = { p with openText := some ((p.textAt tag offset).push c) } := ⟨_, rfl⟩
    have hread : p'.ReadTo (offset + 2) := hp' ▸ h.push ht hl hi (Ne.symm hc) hroom
    have htable : p'.table = p.table := by rw [hp']
    have hinterrupted : p'.interrupted tag = none := interrupted_eq_none fun text htext => by
      rw [hp'] at htext
      rw [← Option.some.inj htext]
      exact tag_textAt hi offset
    have htextAt : p'.textAt tag (offset + 2) = (p.textAt tag offset).push c :=
      textAt_of_openText (by rw [hp'])
    have hstart : p'.start (offset + 2) = p.start offset := by
      rw [← offset_textAt p' tag, htextAt, ← offset_textAt p tag]
      rfl
    -- the room that the character takes is no longer needed
    have hlen' : (p'.textAt tag (offset + 2)).length + chars.length ≤ p'.textLimit := by
      rw [htextAt, hp', OpenText.push]
      simp only
      omega
    obtain ⟨q, hq, hlooks⟩ := ih hread (htable ▸ ht) hinterrupted hzero hlen'
    have hoffset : offset + 2 + 2 * chars.length = offset + 2 * (c :: chars).length := by
      rw [List.length_cons]
      omega
    refine ⟨q, ⟨hoffset ▸ hq.readTo, ?_, hq.interrupted_eq, ?_, ?_⟩, ?_⟩
    · rw [hq.reset_eq, hp']
      rfl
    · rw [← hoffset, hq.start_eq, hstart]
    · rw [← hoffset, hq.chars_eq, htextAt, OpenText.chars_push, List.append_assoc]
      rfl
    · rw [← hoffset]
      rw [hp'] at hlooks
      exact Site.Looks.trans (.single (.of_pending hpush)) hlooks

end Text

section Encode

variable {p : Parser} (hopen : p.openText = none) {offset ordinal : Nat}

include hopen in
theorem looks_fixed {tag : UInt8} {payload : Bytes} {t : Tag} {timestamp : Option Nat}
    (ht : p.table.get? tag = some t) (hl : t.layout = .fixed payload.length timestamp)
    (rest : Bytes) :
    let b : Body := ⟨tag, .fixed, payload⟩
    Site.Looks ⟨p, b.encode ++ rest, offset, ordinal⟩ [b.place p.table offset ordinal]
      ⟨p, rest, offset + b.encode.length, ordinal + 1⟩ := by
  intro b
  have hi : p.interrupted tag = none := interrupted_eq_none (by simp [hopen])
  have hd : p.decode (b.encode ++ rest) offset ordinal =
      .ok (.complete (b.place p.table offset ordinal) (payload.length + 1), p) := by
    change p.decode (tag :: (payload ++ rest)) offset ordinal = _
    simp only [decode, hi, ht, hl]
    exact congrArg Except.ok (decideFixed_append ht hl rest ordinal)
  have hdrop : (b.encode ++ rest).drop (payload.length + 1) = rest := by
    change (tag :: payload ++ rest).drop (tag :: payload).length = rest
    exact List.drop_left
  have hlook := Site.Look.of_complete hd
  rw [hdrop] at hlook
  exact .single hlook

variable {tag : UInt8} {t : Tag} (ht : p.table.get? tag = some t) (hl : t.layout = .text)
  {chars : Bytes} (hzero : 0 ∉ chars) (hlen : chars.length ≤ p.textLimit)
  (hlimit : p.textLimit ≤ maxTextLength)

include hopen ht hl hzero hlen hlimit in
theorem looks_chars (rest : Bytes) :
    ∃ q : Parser, q.ReadTo (offset + 2 * chars.length) ∧ q.reset = p ∧
      q.interrupted tag = none ∧ q.start (offset + 2 * chars.length) = offset ∧
      (∀ terminated, (q.textAt tag (offset + 2 * chars.length)).body terminated =
        ⟨tag, .text terminated, chars⟩) ∧
      Site.Looks ⟨p, pairs tag chars ++ rest, offset, ordinal⟩ []
        ⟨q, rest, offset + 2 * chars.length, ordinal⟩ := by
  have hi : p.interrupted tag = none := interrupted_eq_none (by simp [hopen])
  have htextAt : p.textAt tag offset = { tag, offset } := by
    rw [textAt, hopen]
    rfl
  have hroom : (p.textAt tag offset).length + chars.length ≤ p.textLimit := by
    rw [htextAt]
    simpa using hlen
  obtain ⟨q, hq, hlooks⟩ := (readTo_of_openText hopen hlimit offset).looks_pairs ht hl hi hzero
    hroom rest ordinal
  refine ⟨q, hq.readTo, ?_, hq.interrupted_eq, ?_, fun terminated => ?_, hlooks⟩
  · rw [hq.reset_eq, reset_of_openText hopen]
  · rw [hq.start_eq, start_of_openText hopen]
  · rw [OpenText.body, tag_textAt hq.interrupted_eq, hq.chars_eq, htextAt]
    rfl

include hopen ht hl hzero hlen hlimit in
theorem looks_terminated (rest : Bytes) (hfit : offset + (2 * chars.length + 2) < Word.size) :
    let b : Body := ⟨tag, .text true, chars⟩
    Site.Looks ⟨p, b.encode ++ rest, offset, ordinal⟩ [b.place p.table offset ordinal]
      ⟨p, rest, offset + b.encode.length, ordinal + 1⟩ := by
  intro b
  obtain ⟨q, hread, hreset, hi, hstart, hbody, hlooks⟩ := looks_chars hopen ht hl hzero hlen hlimit
    (tag :: 0 :: rest)
  have htable : q.table = p.table := by rw [← hreset, reset]
  have hd := hread.decideText_zero ordinal (htable ▸ ht) hl hi rest (by omega)
  rw [← decode_eq_decideText hi (htable ▸ ht) hl, hbody, hstart, htable, hreset] at hd
  have hencode : b.encode ++ rest = pairs tag chars ++ tag :: 0 :: rest := by
    simp [b, Body.encode]
  have hlength : offset + b.encode.length = offset + 2 * chars.length + 2 := by
    simp [b, Body.encode, length_pairs, Nat.add_assoc]
  rw [hencode, hlength]
  exact hlooks.trans (.single (.of_complete hd))

include hopen ht hl hzero hlen hlimit in
theorem looks_cut_short (hne : chars ≠ []) {next : UInt8} (hnext : next ≠ tag) (rest : Bytes) :
    let b : Body := ⟨tag, .text false, chars⟩
    Site.Looks ⟨p, b.encode ++ next :: rest, offset, ordinal⟩ [b.place p.table offset ordinal]
      ⟨p, next :: rest, offset + b.encode.length, ordinal + 1⟩ := by
  intro b
  obtain ⟨q, hread, hreset, hi, hstart, hbody, hlooks⟩ := looks_chars hopen ht hl hzero hlen hlimit
    (next :: rest)
  have htable : q.table = p.table := by rw [← hreset, reset]
  -- a text without characters would not be open, and nothing would show that it was there
  obtain ⟨text, htext⟩ : ∃ text, q.openText = some text := by
    by_contra hnone
    have hq : q.openText = none := Option.eq_none_iff_forall_ne_some.2 fun text h => hnone ⟨text, h⟩
    have hchars := congrArg Body.payload (hbody false)
    simp only [textAt, hq] at hchars
    exact hne hchars.symm
  have hbody' := textAt_of_openText htext ▸ hbody false
  have htag : text.tag = tag := congrArg Body.tag hbody'
  have hd := hread.decode_interrupted ordinal
    (interrupted_of_ne htext fun h => hnext (h.symm.trans htag)) rest
  rw [hbody', hstart, htable, hreset] at hd
  have hencode : b.encode = pairs tag chars := by simp [b, Body.encode]
  have hlength : offset + b.encode.length = offset + 2 * chars.length := by
    rw [hencode, length_pairs]
  rw [hlength, hencode]
  exact hlooks.trans (.single (.of_complete hd))

include hopen ht hl hzero hlimit in
/-- The longest text ends before a further character. -/
theorem looks_full (hfull : chars.length = p.textLimit) {c : UInt8} (hc : c ≠ 0) (rest : Bytes) :
    let b : Body := ⟨tag, .text false, chars⟩
    Site.Looks ⟨p, b.encode ++ tag :: c :: rest, offset, ordinal⟩ [b.place p.table offset ordinal]
      ⟨p, tag :: c :: rest, offset + b.encode.length, ordinal + 1⟩ := by
  intro b
  obtain ⟨q, hread, hreset, hi, hstart, hbody, hlooks⟩ :=
    looks_chars hopen ht hl hzero (Nat.le_of_eq hfull) hlimit (tag :: c :: rest)
  have htable : q.table = p.table := by rw [← hreset, reset]
  have hq : q.textLimit ≤ (q.textAt tag (offset + 2 * chars.length)).length := by
    have hchars : (q.textAt tag (offset + 2 * chars.length)).chars = chars :=
      congrArg Body.payload (hbody false)
    rw [← OpenText.length_chars, hchars, hfull, ← hreset]
    exact Nat.le_refl _
  have hd := hread.decideText_full ordinal (htable ▸ ht) hl hi hc hq rest
  rw [← decode_eq_decideText hi (htable ▸ ht) hl, hbody, hstart, htable, hreset] at hd
  have hencode : b.encode = pairs tag chars := by simp [b, Body.encode]
  have hlength : offset + b.encode.length = offset + 2 * chars.length := by
    rw [hencode, length_pairs]
  rw [hlength, hencode]
  exact hlooks.trans (.single (.of_complete hd))

end Encode

/-- A body is read off the bytes that begin with it, if what comes after it shows where it ends. -/
theorem looks_encode {p : Parser} (hopen : p.openText = none) (hlimit : p.textLimit = maxTextLength)
    {b : Body} (hb : b.Valid p.table) {rest : Bytes} (hshown : b.ShownBy rest)
    {offset ordinal : Nat} (hfit : offset + b.encode.length < Word.size) :
    Site.Looks ⟨p, b.encode ++ rest, offset, ordinal⟩ [b.place p.table offset ordinal]
      ⟨p, rest, offset + b.encode.length, ordinal + 1⟩ := by
  cases hb with
  | fixed ht hl => exact looks_fixed hopen ht hl rest
  | @text tag payload t terminated ht hl hzero hlen hne =>
    have hlen' : payload.length ≤ p.textLimit := hlimit ▸ hlen
    cases terminated with
    | true =>
      refine looks_terminated hopen ht hl hzero hlen' (Nat.le_of_eq hlimit) rest ?_
      simpa [Body.encode, length_pairs] using hfit
    | false =>
      obtain ⟨next, hhead, hother⟩ := hshown rfl
      obtain ⟨rest, rfl⟩ := List.head?_eq_some_iff.1 hhead
      by_cases hsame : next = tag
      · obtain ⟨hfull, c, hc, hne⟩ := hother.resolve_left (not_not.2 hsame)
        obtain ⟨rest, rfl⟩ := List.head?_eq_some_iff.1 ((List.head?_eq_getElem? ..).trans hc)
        rw [hsame]
        exact looks_full hopen ht hl hzero (Nat.le_of_eq hlimit) (hfull.trans hlimit.symm) hne rest
      · exact looks_cut_short hopen ht hl hzero hlen' (Nat.le_of_eq hlimit) (hne rfl) hsame rest

theorem parse_encode {p : Parser} (hopen : p.openText = none) (hlimit : p.textLimit = maxTextLength)
    {b : Body} (hb : b.Valid p.table) {rest : Bytes} (hshown : b.ShownBy rest)
    {offset ordinal : Nat} (hfit : offset + b.encode.length < Word.size) :
    let tail := p.parse none rest (offset + b.encode.length) (ordinal + 1)
    p.parse none (b.encode ++ rest) offset ordinal =
      { tail with records := b.place p.table offset ordinal :: tail.records } :=
  (looks_encode hopen hlimit hb hshown hfit).parse_eq

theorem parse_nil {p : Parser} (hopen : p.openText = none) (offset ordinal : Nat) :
    p.parse none [] offset ordinal = ⟨[], .eof, offset⟩ := by
  rw [parse_of_needMore rfl rfl]
  simp [endOf, pendingOffset, hopen]

/-- Bodies are read off one after another. -/
theorem parse_parted {p : Parser} (hopen : p.openText = none) (hlimit : p.textLimit = maxTextLength)
    {bs : List Body} {tail : Bytes} (hvalid : ∀ b ∈ bs, b.Valid p.table) (h : Body.Parted bs tail)
    (offset ordinal : Nat) (hfit : offset + (bs.flatMap Body.encode).length < Word.size) :
    let rest := p.parse none tail (offset + (bs.flatMap Body.encode).length) (ordinal + bs.length)
    p.parse none (bs.flatMap Body.encode ++ tail) offset ordinal =
      { rest with records := placeAll p.table bs offset ordinal ++ rest.records } := by
  induction h generalizing offset ordinal with
  | nil => rfl
  | @cons b bs tail hb h ih =>
    rw [List.flatMap_cons, List.length_append, ← Nat.add_assoc] at hfit
    have hrest := ih (fun b' hb' => hvalid b' (List.mem_cons_of_mem _ hb'))
      (offset + b.encode.length) (ordinal + 1) hfit
    rw [List.flatMap_cons, List.append_assoc, List.length_append, ← Nat.add_assoc,
      List.length_cons, Nat.add_comm bs.length, ← Nat.add_assoc,
      parse_encode hopen hlimit (hvalid b (List.mem_cons_self ..)) hb (by omega), hrest]
    rfl

theorem parse_flatMap_encode {p : Parser} (hopen : p.openText = none)
    (hlimit : p.textLimit = maxTextLength) {bs : List Body} (h : Body.Recorded p.table bs)
    (offset ordinal : Nat) (hfit : offset + (bs.flatMap Body.encode).length < Word.size) :
    p.parse none (bs.flatMap Body.encode) offset ordinal =
      ⟨placeAll p.table bs offset ordinal, .eof, offset + (bs.flatMap Body.encode).length⟩ := by
  have hparse := parse_parted hopen hlimit h.valid h.parted offset ordinal hfit
  rw [List.append_nil, parse_nil hopen] at hparse
  rw [hparse, List.append_nil]

end Parser

end Record

namespace Session

variable {σ : Type} [Source σ] {table : Tag.Table} {clock : Clock.Config} {source : σ} {last : Nat}
  {bs : List Record.Body}

/-- A run over records that were written one after another decodes these records. -/
theorem map_body_records_run (hbs : Record.Body.Recorded table bs)
    (hs : Source.Delivers source (bs.flatMap Record.Body.encode) last)
    (hfit : ∀ o, ((new table clock).run source).fault ≠ some (.overflow o)) :
    let run := (new table clock).run source
    run.fault = none ∧ (run.emitted.toList.map Timed.record).Perm run.records ∧
      run.records.map Record.body = bs ∧ (∀ r ∈ run.records, r.Fits table) ∧
      Record.Contiguous run.records ∧ run.session.finish = some .eof := by
  intro run
  have hdecodes := decodes_of_delivers hs hfit
  have hlen : 0 + (bs.flatMap Record.Body.encode).length < Word.size := by
    have := hs.length_le
    have := hs.last_lt
    omega
  rw [Record.Parser.parse_flatMap_encode rfl rfl hbs 0 0 hlen] at hdecodes
  have hrecords : run.records = Record.placeAll table bs 0 0 := hdecodes.records_eq
  refine ⟨hdecodes.fault_eq, hdecodes.emitted_perm, ?_, ?_, ?_, hdecodes.finish_eq⟩
  · rw [hrecords, Record.map_body_placeAll]
  · rw [hrecords]
    exact Record.fits_placeAll hbs.valid 0 0
  · rw [hrecords]
    exact Record.contiguous_placeAll hbs.valid

/-- An empty text, texts of one tag in a row, and texts that other records cut short. -/
theorem map_body_records_run_texts :
    let bs : List Record.Body := [⟨1, .fixed, [5, 0]⟩, ⟨32, .text true, []⟩,
      ⟨32, .text true, [104]⟩, ⟨33, .text false, [120]⟩, ⟨32, .text false, [121]⟩,
      ⟨18, .fixed, [9]⟩]
    let data := Record.Writer.timed 1 5 [] ++ Record.Writer.text 32 "" ++
      Record.Writer.text 32 "h" ++ Record.pairs 33 [120] ++ Record.pairs 32 [121] ++
      Record.Writer.untimed 18 [9]
    let source : Memory := { contents := data.toArray, readLimit := some 3 }
    let run := (new Tag.Table.standard {}).run source
    Record.Body.Recorded Tag.Table.standard bs ∧ data = bs.flatMap Record.Body.encode ∧
      Source.Delivers source data 15 ∧ (∀ o, run.fault ≠ some (.overflow o)) ∧
      run.records.map Record.body = bs ∧ Record.Contiguous run.records ∧
      run.session.finish = some .eof := by
  intro bs data source run
  have hbs : Record.Body.Recorded Tag.Table.standard bs := by
    refine .cons (.fixed rfl rfl) (by simp) ?_
    refine .cons (.text rfl rfl (by decide) (by decide) (by decide)) (by simp) ?_
    refine .cons (.text rfl rfl (by decide) (by decide) (by decide)) (by simp) ?_
    refine .cons (.text rfl rfl (by decide) (by decide) (by decide)) (by simp) ?_
    refine .cons (.text rfl rfl (by decide) (by decide) (by decide)) (by simp) ?_
    exact .cons (.fixed rfl rfl) (by simp) .nil
  have hdata : data = bs.flatMap Record.Body.encode := by decide +kernel
  have hs : Source.Delivers source data 15 :=
    Memory.delivers rfl (by decide +kernel) (by decide +kernel) (by decide)
  have hfault : run.fault = none := by decide +kernel
  have hfit : ∀ o, run.fault ≠ some (.overflow o) := fun o h => by simp [hfault] at h
  obtain ⟨-, -, hrecords, -, hcontiguous, hfinish⟩ := map_body_records_run hbs (hdata ▸ hs) hfit
  exact ⟨hbs, hdata, hs, hfit, hrecords, hcontiguous, hfinish⟩

end Session

end Telemetry
