import Mathlib.Algebra.Ring.Nat
import Telemetry.Proofs.Cursor
import Telemetry.Proofs.TimeBound

/-!
# Decoding with every operation checked

A decoder is a session over a cursor: all that it reads it reaches by checked indices and ranges,
and all that it adds up, the counts of its corrections included, by checked sums.  It takes the
steps of the session that it stands for (`Models.step`), so over any data that the clock has room
for, none of its checks fails, and the times that are told are bounded (`Session.checks_resume`).
-/

namespace Telemetry

namespace Corrections

/-- Counts a correction. -/
def checkedObserve (c : Corrections) : Clock.Order → Except Trap Corrections
  | .inOrder => return c
  | .swapWithPrevious ticks => do
    let swaps ← Checked.word (Word.add c.swaps 1)
    return { c with swaps, maxSwapTicks := max c.maxSwapTicks ticks }
  | .clamped _ => do
    let clamped ← Checked.word (Word.add c.clamped 1)
    return { c with clamped }
  | .ambiguous _ => do
    let ambiguous ← Checked.word (Word.add c.ambiguous 1)
    return { c with ambiguous }

def checkedOf (records : List Timed) : Except Trap Corrections :=
  records.foldlM (fun c t => c.checkedObserve t.order) {}

/-- Nothing was counted more than `count` times. -/
structure Within (c : Corrections) (count : Nat) : Prop where
  swaps_le : c.swaps ≤ count
  clamped_le : c.clamped ≤ count
  ambiguous_le : c.ambiguous ≤ count

theorem within_empty (count : Nat) : ({} : Corrections).Within count :=
  ⟨Nat.zero_le _, Nat.zero_le _, Nat.zero_le _⟩

variable {c : Corrections} {count : Nat}

theorem Within.observe (h : c.Within count) (order : Clock.Order) :
    (c.observe order).Within (count + 1) := by
  obtain ⟨hswaps, hclamped, hambiguous⟩ := h
  cases order with
  | inOrder => exact ⟨Nat.le_succ_of_le hswaps, Nat.le_succ_of_le hclamped,
      Nat.le_succ_of_le hambiguous⟩
  | swapWithPrevious => exact ⟨Nat.succ_le_succ hswaps, Nat.le_succ_of_le hclamped,
      Nat.le_succ_of_le hambiguous⟩
  | clamped => exact ⟨Nat.le_succ_of_le hswaps, Nat.succ_le_succ hclamped,
      Nat.le_succ_of_le hambiguous⟩
  | ambiguous => exact ⟨Nat.le_succ_of_le hswaps, Nat.le_succ_of_le hclamped,
      Nat.succ_le_succ hambiguous⟩

theorem Within.checkedObserve_eq (h : c.Within count) (hcount : count + 1 < Word.size)
    (order : Clock.Order) : c.checkedObserve order = .ok (c.observe order) := by
  have hadd : ∀ n ≤ count, Checked.word (Word.add n 1) = .ok (n + 1) :=
    fun n hn => Checked.word_add (by omega)
  cases order with
  | inOrder => rfl
  | swapWithPrevious =>
    rw [checkedObserve, hadd _ h.swaps_le]
    rfl
  | clamped =>
    rw [checkedObserve, hadd _ h.clamped_le]
    rfl
  | ambiguous =>
    rw [checkedObserve, hadd _ h.ambiguous_le]
    rfl

theorem Within.foldlM_eq : ∀ (records : List Timed) {c : Corrections} {count : Nat},
    c.Within count → count + records.length < Word.size →
      records.foldlM (fun c t => c.checkedObserve t.order) c =
        .ok (records.foldl (fun c t => c.observe t.order) c)
  | [], _, _, _, _ => rfl
  | t :: records, c, count, h, hcount => by
    rw [List.length_cons] at hcount
    rw [List.foldlM_cons, h.checkedObserve_eq (by omega), Checked.ok_bind, List.foldl_cons]
    exact Within.foldlM_eq records (h.observe t.order) (by omega)

/-- Fewer records than words can be counted. -/
theorem checkedOf_eq {records : List Timed} (h : records.length < Word.size) :
    checkedOf records = .ok (ofList records) :=
  (within_empty 0).foldlM_eq records (by omega)

end Corrections

/-- A session over a cursor, with the tags in their slots. -/
structure Decoder where
  cursor : Cursor
  slots : Tag.Slots
  /-- The rest of the session; its window is not looked at. -/
  session : Session

namespace Decoder

def start (slots : Tag.Slots) (s : Session) : Decoder where
  cursor := { offset := s.window.offset }
  slots
  session := s

/-- Stops and lets go of the held record. -/
def stop (d : Decoder) (finish : StreamEnd) : Decoder :=
  { d with session := d.session.stop finish }

/-- What the end of the data means. -/
def endOfData (d : Decoder) : Except Trap StreamEnd := do
  let tail ← d.cursor.available
  match d.session.parser.pendingOffset with
  | some start =>
    let parsed ← Checked.word (Word.sub d.cursor.offset start)
    let trailing ← Checked.word (Word.add parsed tail.length)
    return .truncated start trailing
  | none =>
    return if tail.length = 0 then .eof else .truncated d.cursor.offset tail.length

/-- Takes in a parsed record. -/
def accept (d : Decoder) (parser : Record.Parser) (record : Record) (consumed : Nat) :
    Except Trap Decoder := do
  let cursor ← d.cursor.consume consumed
  let ordinal ← Checked.word (Word.add d.session.ordinal 1)
  let advance ← Checked.word (d.session.clock.advance d.session.state record.rawTicks)
  let corrections ← d.session.corrections.checkedObserve advance.order
  let (queue, out) := d.session.queue.push ⟨record, advance.ns, advance.order⟩
  return { d with
    cursor
    session := { d.session with
      parser
      state := advance.state
      ordinal
      queue
      ready := d.session.ready ++ out
      lastGood := some ⟨record.ordinal, record.offset⟩
      corrections } }

section Step

variable {σ : Type} [Source σ]

/-- Reads on, or stops where the data does. -/
def refill (d : Decoder) (source : σ) : Except Trap (Session.Event × Decoder) × σ :=
  match d.cursor.fill source with
  | (.error t, source') => (.error t, source')
  | (.ok (added, cursor), source') =>
    let d' := { d with cursor }
    if added = 0 then
      match d'.endOfData with
      | .error t => (.error t, source')
      | .ok finish => (.ok (.worked, d'.stop finish), source')
    else (.ok (.worked, d'), source')

/-- Goes on as a look has decided. -/
def follow (d : Decoder) (source : σ) :
    Record.Decision → Record.Parser → Except Trap (Session.Event × Decoder) × σ
  | .complete record consumed, parser =>
    match d.accept parser record consumed with
    | .error t => (.error t, source)
    | .ok d' => (.ok (.parsed ⟨record, d.session.state⟩, d'), source)
  | .pending consumed, parser =>
    match d.cursor.consume consumed with
    | .error t => (.error t, source)
    | .ok cursor => (.ok (.worked, { d with cursor, session := { d.session with parser } }), source)
  | .needMore, _ => d.refill source
  | .lostSync offset tag, _ =>
    let finish := .lostSync d.session.ordinal offset tag d.session.lastGood
    (.ok (.worked, d.stop finish), source)

/-- Looks at the bytes that are available. -/
def examine (d : Decoder) (source : σ) : Except Trap (Session.Event × Decoder) × σ :=
  match d.cursor.available with
  | .error t => (.error t, source)
  | .ok window =>
    match d.session.parser.checkedDecode d.slots window d.cursor.offset d.session.ordinal with
    | .error t => (.error t, source)
    | .ok (decision, parser) => d.follow source decision parser

def step (d : Decoder) (source : σ) : Except Trap (Session.Event × Decoder) × σ :=
  match d.session.ready with
  | t :: ready => (.ok (.emitted t, { d with session := { d.session with ready } }), source)
  | [] =>
    match d.session.finish with
    | some _ => (.ok (.over, d), source)
    | none =>
      match d.session.limitReached with
      | some limit => (.ok (.worked, d.stop (.limit limit)), source)
      | none => d.examine source

end Step

/-- The session that a decoder stands for when `w` stands for its cursor. -/
def toSession (d : Decoder) (w : Window) : Session :=
  { d.session with window := w }

structure Models (d : Decoder) (w : Window) : Prop where
  cursor : d.cursor.Models w
  slots : d.slots.Holds d.session.parser.table
  /-- No correction without a record. -/
  counted : d.session.corrections.Within d.session.ordinal

theorem models_start {slots : Tag.Slots} {table : Tag.Table} (h : slots.Holds table)
    (clock : Clock.Config) (start : Session.Start) (limit : Option Nat) :
    let s : Session := { Session.resume table clock start with limit }
    (Decoder.start slots s).Models s.window ∧ (Decoder.start slots s).toSession s.window = s :=
  ⟨⟨Cursor.models_start start.offset, h, Corrections.within_empty _⟩, rfl⟩

variable {d : Decoder} {w : Window} {s' : Session}

theorem Models.endOfData_eq (h : d.Models w) :
    d.endOfData = Checked.word (d.toSession w).endOfData := by
  rw [endOfData, h.cursor.available_eq, Checked.ok_bind, w.length_bytes, h.cursor.offset_eq,
    Session.endOfData]
  change _ = Checked.word (match d.session.parser.pendingOffset with | some _ => _ | none => _)
  rcases d.session.parser.pendingOffset with _ | start
  · rfl
  · simp only [Checked.word_bind]
    rfl

/-- The decoder after it took in a record. -/
def accepted (d : Decoder) (cursor : Cursor) (parser : Record.Parser) (r : Record)
    (a : Clock.Advance) : Decoder :=
  { d with cursor, session := d.session.accepted d.session.window parser r a }

theorem Models.accept {parser : Record.Parser} {record : Record} {consumed : Nat}
    (h : d.Models w) (htable : parser.table = d.session.parser.table)
    (ha : (d.toSession w).accept parser record consumed = .ok s') :
    ∃ d' w', d.accept parser record consumed = .ok d' ∧ d'.Models w' ∧ s' = d'.toSession w' := by
  unfold Session.accept at ha
  rcases hconsume : w.consume consumed with _ | w'
  · simp [toSession, hconsume, bind, Except.bind] at ha
  rcases hordinal : Word.add d.session.ordinal 1 with _ | ordinal
  · simp [toSession, hconsume, hordinal, bind, Except.bind] at ha
  rcases hadvance : d.session.clock.advance d.session.state record.rawTicks with _ | advance
  · simp [toSession, hconsume, hordinal, hadvance, bind, Except.bind] at ha
  simp only [toSession, hconsume, hordinal, hadvance, Checked.ok_bind] at ha
  obtain ⟨hfit, rfl⟩ := Word.add_eq_ok_iff.1 hordinal
  obtain ⟨cursor, hcursor, hmodels⟩ := h.cursor.consume hconsume
  have hobserve := h.counted.checkedObserve_eq hfit advance.order
  refine ⟨d.accepted cursor parser record advance, w', ?_, ⟨hmodels, ?_, ?_⟩,
    (Except.ok.inj ha).symm⟩
  · rw [Decoder.accept, hcursor, Checked.ok_bind, Checked.word_add hfit, Checked.ok_bind, hadvance]
    change d.session.corrections.checkedObserve advance.order >>= _ = _
    rw [hobserve]
    rfl
  · change d.slots.Holds parser.table
    rw [htable]
    exact h.slots
  · exact h.counted.observe advance.order

section Step

variable {σ : Type} [Source σ] {source source' : σ} {data : Bytes} {last : Nat}
  {e : Session.Event}

theorem Models.refill (h : d.Models w) (hw : (d.toSession w).Within data last)
    (hs : Source.Delivers source data last) (hshort : w.size < Record.Parser.longest)
    (hr : (d.toSession w).refill source = (.ok (e, s'), source')) :
    ∃ d' w', d.refill source = (.ok (e, d'), source') ∧ d'.Models w' ∧ s' = d'.toSession w' := by
  have hlast := hs.last_lt
  have hlen := hs.length_le
  unfold Session.refill at hr
  rcases hw.shows.fill hs.toFaithful hw.offset_le with
    ⟨error, after, hf, -⟩ | ⟨added, w', after, hf, -, hshows, -⟩
  · simp [hf] at hr
  · have hroom : w.size + Window.fillSize < Word.size := by
      have : Record.Parser.longest + Window.fillSize < Word.size := by decide
      omega
    have hfit : w'.size < Word.size := by
      have := hshows.size_le
      omega
    obtain ⟨cursor, hcursor, hmodels⟩ := h.cursor.fill hf hroom hfit
    have hnext : { d with cursor : Decoder }.Models w' := ⟨hmodels, h.slots, h.counted⟩
    rw [hf] at hr
    rw [Decoder.refill, hcursor]
    dsimp only at hr ⊢
    split_ifs at hr ⊢ with hadded
    · rw [hnext.endOfData_eq]
      split at hr
      · cases hr
      · next finish hfinish =>
        have hnextEnd : ({ d with cursor : Decoder }.toSession w').endOfData = .ok finish := hfinish
        rw [hnextEnd]
        obtain ⟨rfl, rfl, rfl⟩ := Session.eq_of_ok_eq hr
        exact ⟨{ d with cursor : Decoder }.stop finish, w', rfl, ⟨hmodels, h.slots, h.counted⟩,
          rfl⟩
    · obtain ⟨rfl, rfl, rfl⟩ := Session.eq_of_ok_eq hr
      exact ⟨{ d with cursor }, w', rfl, hnext, rfl⟩

theorem Models.examine_eq (h : d.Models w) {decision : Record.Decision} {parser : Record.Parser}
    (hd : d.session.parser.decode w.bytes w.offset d.session.ordinal = .ok (decision, parser)) :
    d.examine source = d.follow source decision parser := by
  rw [Decoder.examine, h.cursor.available_eq]
  dsimp only
  rw [Record.Parser.checkedDecode_eq h.slots, h.cursor.offset_eq, hd]
  rfl

theorem Models.examine (h : d.Models w) (hw : (d.toSession w).Within data last)
    (hs : Source.Delivers source data last)
    (hx : (d.toSession w).examine source = (.ok (e, s'), source')) :
    ∃ d' w', d.examine source = (.ok (e, d'), source') ∧ d'.Models w' ∧ s' = d'.toSession w' := by
  have hfit : w.offset + w.bytes.length < Word.size := by
    obtain ⟨-, hle⟩ := hw.shows.readPosition_eq hs.length_le hs.last_lt hw.offset_le
    rw [w.length_bytes]
    exact Nat.lt_of_le_of_lt hle hs.last_lt
  obtain ⟨decision, parser, hd, hdecides⟩ := hw.sound.decode w.bytes (d.toSession w).ordinal
    fun hlen => Nat.lt_of_le_of_lt (Nat.add_le_add_left hlen _) hfit
  unfold Session.examine at hx
  rw [h.examine_eq hd]
  rw [show (d.toSession w).window.bytes = w.bytes from rfl, hd] at hx
  cases hdecides with
  | needMore =>
    refine h.refill hw hs ?_ hx
    have hshort := Record.Parser.length_lt_of_needMore hd
    rw [w.length_bytes] at hshort
    exact Nat.lt_of_lt_of_le hshort (Record.Parser.wanted_le _ _)
  | lostSync =>
    obtain ⟨rfl, rfl, rfl⟩ := Session.eq_of_ok_eq hx
    exact ⟨d.stop _, w, rfl, ⟨h.cursor, h.slots, h.counted⟩, rfl⟩
  | @pending text =>
    dsimp only at hx
    rcases hconsume : (d.toSession w).window.consume 2 with o | w'
    · simp [hconsume] at hx
    · rw [hconsume] at hx
      obtain ⟨cursor, hcursor, hmodels⟩ := h.cursor.consume hconsume
      obtain ⟨rfl, rfl, rfl⟩ := Session.eq_of_ok_eq hx
      rw [follow, hcursor]
      exact ⟨_, w', rfl, ⟨hmodels, h.slots, h.counted⟩, rfl⟩
  | @complete r n =>
    dsimp only at hx
    rcases ha : (d.toSession w).accept (d.toSession w).parser.reset r n with o | next
    · simp [ha] at hx
    · rw [ha] at hx
      obtain ⟨rfl, rfl, rfl⟩ := Session.eq_of_ok_eq hx
      have htable : (d.toSession w).parser.reset.table = d.session.parser.table := rfl
      obtain ⟨d', w', haccept, hmodels, hover⟩ := h.accept htable ha
      rw [follow, haccept]
      exact ⟨d', w', rfl, hmodels, hover⟩

/-- A decoder takes the step of its session. -/
theorem Models.step (h : d.Models w) (hp : (d.toSession w).Proceeds data last)
    (hs : Source.Delivers source data last)
    (hstep : (d.toSession w).step source = (.ok (e, s'), source')) :
    ∃ d' w', d.step source = (.ok (e, d'), source') ∧ d'.Models w' ∧ s' = d'.toSession w' := by
  unfold Session.step at hstep
  unfold Decoder.step
  split at hstep
  · next t ready hready =>
    obtain ⟨rfl, rfl, rfl⟩ := Session.eq_of_ok_eq hstep
    rw [show d.session.ready = t :: ready from hready]
    exact ⟨_, w, rfl, ⟨h.cursor, h.slots, h.counted⟩, rfl⟩
  · next hready =>
    rw [show d.session.ready = [] from hready]
    split at hstep
    · next finish hfinish =>
      obtain ⟨rfl, rfl, rfl⟩ := Session.eq_of_ok_eq hstep
      rw [show d.session.finish = some finish from hfinish]
      exact ⟨d, w, rfl, h, rfl⟩
    · next hfinish =>
      rw [show d.session.finish = none from hfinish]
      split at hstep
      · next limit hlimit =>
        obtain ⟨rfl, rfl, rfl⟩ := Session.eq_of_ok_eq hstep
        rw [show d.session.limitReached = some limit from hlimit]
        exact ⟨d.stop (.limit limit), w, rfl, ⟨h.cursor, h.slots, h.counted⟩, rfl⟩
      · next hlimit =>
        rw [show d.session.limitReached = none from hlimit]
        rw [Session.look_eq_examine] at hstep
        exact h.examine (hp hfinish).1 hs hstep

end Step

end Decoder

section Trace

/-- What `count` steps make known. -/
def trace {ε α σ : Type} (step : α → σ → Except ε (Session.Event × α) × σ) :
    Nat → α → σ → Except ε (List Session.Event)
  | 0, _, _ => return []
  | count + 1, s, source =>
    match step s source with
    | (.error f, _) => .error f
    | (.ok (e, s'), source') => (trace step count s' source').map (e :: ·)

variable {σ : Type} [Source σ] {source : σ} {data : Bytes} {last : Nat}

/-- No check stops a decoder before its session stops. -/
theorem Decoder.Models.trace_eq {d : Decoder} {w : Window} (h : d.Models w)
    (hp : (d.toSession w).Proceeds data last) (hs : Source.Delivers source data last) (count : Nat) :
    ∃ events, trace Session.step count (d.toSession w) source = .ok events ∧
      trace Decoder.step count d source = .ok events := by
  induction count generalizing d w source with
  | zero => exact ⟨[], rfl, rfl⟩
  | succ count ih =>
    obtain ⟨e, s', source', hstep, hproceeds, hreach⟩ := hp.step hs
    obtain ⟨d', w', hd, hmodels, rfl⟩ := h.step hp hs hstep
    obtain ⟨events, hsession, hdecoder⟩ := ih hmodels hproceeds (hs.of_reaches hreach)
    refine ⟨e :: events, ?_, ?_⟩
    · rw [trace, hstep]
      dsimp only
      rw [hsession]
      rfl
    · rw [trace, hd]
      dsimp only
      rw [hdecoder]
      rfl

/-- Without slots, the first byte cannot be looked up. -/
example : trace Decoder.step 2 (.start [] (.new .standard {})) (Memory.plain [18, 5]) =
    .error .range := by decide +kernel

/-- The session can be run with all checks: none of them fails, it comes to its end without a fault,
and no time goes beyond `bound`. -/
structure Session.Checks (s : Session) (slots : Tag.Slots) (source : σ) (bound : Nat) : Prop where
  trace_eq : ∀ count, ∃ events, trace Session.step count s source = .ok events ∧
    trace Decoder.step count (.start slots s) source = .ok events
  fault_eq : (s.run source).fault = none
  ns_le : ∀ t ∈ (s.run source).emitted.toList, t.ns ≤ bound
  now_le : ∀ o ∈ (s.run source).observed.toList, o.before.now ≤ bound

variable {slots : Tag.Slots} {table : Tag.Table} {clock : Clock.Config} {start : Session.Start}

theorem Session.checks_resume (hslots : slots.Holds table) (h : start.Resumes table clock data)
    (hs : Source.Delivers source data last) (hfit : data.length * clock.stride < Word.size)
    (limit : Option Nat) :
    { Session.resume table clock start with limit }.Checks slots source
      (data.length * clock.stride) := by
  obtain ⟨hmodels, hover⟩ := Decoder.models_start hslots clock start limit
  obtain ⟨hfault, hns, hnow⟩ := Session.run_reached h hs hfit limit
  have hproceeds := Session.proceeds_resume h hs.length_le limit
  rw [← hover] at hproceeds
  refine ⟨fun count => ?_, hfault, hns, hnow⟩
  obtain ⟨events, hsession, hdecoder⟩ := hmodels.trace_eq hproceeds hs count
  rw [hover] at hsession
  exact ⟨events, hsession, hdecoder⟩

end Trace

end Telemetry
