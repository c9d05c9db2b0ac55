import Telemetry.Proofs.Cursor
import Telemetry.Proofs.Delivery

/-!
# The window mirrors the source

Whatever a caller does with a window, in whatever order, and whichever reads fail, the window holds
the bytes of the source from its offset on (`InStep.calls`), so what it can be asked next comes to
what the source holds there (`InStep.mirrors`).  A cursor that is used alike gives the same answers
and shows the same bytes (`Models.calls`): neither its start can be told from outside, nor the room
that it makes for a read, which may fail.
-/

namespace Telemetry

/-- What a caller can do with a window. -/
inductive Call where
  | fill
  | consume (count : Nat)
  deriving DecidableEq, Repr

inductive Answer where
  | filled (added : Nat)
  | consumed
  | failed (f : Fault)
  deriving DecidableEq, Repr

namespace Window

variable {σ : Type} [Source σ]

/-- One call, which leaves the window as it was if it fails. -/
def call (w : Window) (source : σ) : Call → Answer × Window × σ
  | .fill =>
    match w.fill source with
    | (.ok (added, w'), source') => (.filled added, w', source')
    | (.error f, source') => (.failed f, w, source')
  | .consume count =>
    match w.consume count with
    | .ok w' => (.consumed, w', source)
    | .error o => (.failed (.overflow o), w, source)

/-- Some calls: what they are answered, and what they leave. -/
def calls (w : Window) (source : σ) : List Call → List Answer × Window × σ
  | [] => ([], w, source)
  | call :: rest =>
    let called := w.call source call
    let others := called.2.1.calls called.2.2 rest
    (called.1 :: others.1, others.2)

/-- The window shows the source, which holds the data, and what it can be asked comes to that. -/
structure Mirrors (w : Window) (source : σ) (data : Bytes) : Prop where
  bytes_eq : w.bytes = (data.drop w.offset).take w.size
  consume_eq : ∀ count, ∃ w', w.consume count = .ok w' ∧
    w'.offset = w.offset + min count w.size ∧
    w'.bytes = w.bytes.drop (min count w.size) ∧ w'.atEnd = w.atEnd
  fill_of_error : w.atEnd = false → ∀ e,
    (Source.read source (w.offset + w.size) fillSize).1 = .error e →
      (w.fill source).1 = .error (.source e)
  /-- What is read are the next bytes of the data, and none only where there are no more. -/
  fill_of_ok : w.atEnd = false → ∀ bytes,
    (Source.read source (w.offset + w.size) fillSize).1 = .ok bytes →
      ∃ w', (w.fill source).1 = .ok (bytes.length, w') ∧ w'.offset = w.offset ∧
        w'.bytes = w.bytes ++ (data.drop (w.offset + w.size)).take bytes.length ∧
        w'.size = w.size + bytes.length ∧ (w'.atEnd = true ↔ bytes.length = 0)
  /-- At the end there are no more bytes, and the source is left alone. -/
  fill_of_atEnd : w.atEnd = true →
    data.length ≤ w.offset + w.size ∧ w.fill source = (.ok (0, w), source)

/-- What no call changes: the window shows the data, through a source that was `source` once. -/
structure InStep (w : Window) (source s : σ) (data : Bytes) (last : Nat) : Prop where
  shows : w.Shows data
  offset_le : w.offset ≤ last
  reaches : Source.Reaches last source s

variable {w w' : Window} {source s s' : σ} {data : Bytes} {last count : Nat}

theorem consume_min (w : Window) (count : Nat) :
    w.consume count = w.consume (min count w.size) := by
  have hdrop : w.bytes.drop (min count w.size) = w.bytes.drop count := by
    rcases Nat.le_total count w.size with hle | hle
    · rw [Nat.min_eq_left hle]
    · rw [Nat.min_eq_right hle, List.drop_of_length_le (by rw [w.length_bytes]),
        List.drop_of_length_le (by rwa [w.length_bytes])]
  have hsize : w.size - min count w.size = w.size - count := by omega
  simp only [consume, hdrop, hsize, Nat.min_assoc, Nat.min_self]

theorem bytes_of_consume (h : w.consume count = .ok w') :
    w'.bytes = w.bytes.drop count ∧ w'.atEnd = w.atEnd := by
  simp only [consume, bind, Except.bind, pure, Except.pure] at h
  split at h
  · cases h
  · cases h
    exact ⟨rfl, rfl⟩

theorem fill_of_atEnd (hend : w.atEnd = true) (s : σ) : w.fill s = (.ok (0, w), s) := by
  rw [fill, if_pos hend]

/-- The window after a read that returned `bytes`. -/
def filled (w : Window) (bytes : Bytes) : Window :=
  { w.extend bytes with atEnd := bytes.isEmpty }

section Fill

variable {position : Nat} (hend : w.atEnd = false) (hposition : w.readPosition = .ok position)

include hend hposition

theorem fill_of_read_error {e : SourceError}
    (hread : Source.read s position fillSize = (.error e, s')) :
    w.fill s = (.error (.source e), s') := by
  rw [fill, if_neg (by simp [hend]), hposition]
  dsimp only
  rw [hread]

theorem fill_of_read {bytes : Bytes} (hread : Source.read s position fillSize = (.ok bytes, s')) :
    w.fill s = (.ok (bytes.length, w.filled bytes), s') := by
  rw [fill, if_neg (by simp [hend]), hposition]
  dsimp only
  rw [hread]
  rfl

end Fill

theorem atEnd_of_fill {added : Nat} (h : w.fill s = (.ok (added, w'), s')) :
    w'.atEnd = true ↔ added = 0 := by
  unfold fill at h
  split at h
  · next hend =>
    cases h
    exact ⟨fun _ => rfl, fun _ => hend⟩
  · split at h
    · cases h
    · split at h
      · cases h
      · cases h
        simp

theorem Shows.bytes_eq_take (h : w.Shows data) : w.bytes = (data.drop w.offset).take w.size := by
  rw [← w.length_bytes]
  exact List.prefix_iff_eq_take.1 h.bytes_prefix

namespace InStep

variable (h : w.InStep source s data last) (hs : Source.Faithful source data last)

include h hs

theorem readPosition_eq :
    w.readPosition = .ok (w.offset + w.size) ∧ w.offset + w.size ≤ last :=
  h.shows.readPosition_eq hs.length_le hs.last_lt h.offset_le

theorem filled {bytes : Bytes}
    (hread : Source.read s (w.offset + w.size) fillSize = (.ok bytes, s')) :
    bytes <+: data.drop (w.offset + w.size) ∧ (w.filled bytes).InStep source s' data last := by
  obtain ⟨-, hle⟩ := h.readPosition_eq hs
  obtain ⟨hnext, hnil⟩ := hs.read_eq s h.reaches _ hle bytes (congrArg Prod.fst hread)
  have hreach := h.reaches.read hle
  rw [hread] at hreach
  refine ⟨hnext, h.shows.extend hnext hnil, ?_, hreach⟩
  exact (w.offset_extend bytes).trans_le h.offset_le

/-- A fill comes to what its read does, unless the end is known. -/
theorem fill :
    w.atEnd = true ∧ w.fill s = (.ok (0, w), s) ∨
      (∃ e s', w.fill s = (.error (.source e), s') ∧ w.InStep source s' data last) ∨
      ∃ bytes s', w.fill s = (.ok (bytes.length, w.filled bytes), s') ∧
        (w.filled bytes).InStep source s' data last := by
  obtain ⟨hposition, hle⟩ := h.readPosition_eq hs
  rcases hend : w.atEnd with _ | _
  · rcases hread : Source.read s (w.offset + w.size) fillSize with ⟨e | bytes, s'⟩
    · have hreach := h.reaches.read hle
      rw [hread] at hreach
      exact .inr (.inl ⟨e, s', fill_of_read_error hend hposition hread, h.shows, h.offset_le,
        hreach⟩)
    · exact .inr (.inr ⟨bytes, s', fill_of_read hend hposition hread, (h.filled hs hread).2⟩)
  · exact .inl ⟨rfl, fill_of_atEnd hend s⟩

theorem consume (count : Nat) :
    ∃ w', w.consume count = .ok w' ∧ w'.InStep source s data last ∧
      w'.offset = w.offset + min count w.size := by
  obtain ⟨-, hle⟩ := h.readPosition_eq hs
  have hlast := hs.last_lt
  obtain ⟨w', hconsume, hshows, hoff⟩ :=
    h.shows.consume (min count w.size) (Nat.min_le_right _ _) (by omega)
  rw [← consume_min] at hconsume
  exact ⟨w', hconsume, ⟨hshows, by omega, h.reaches⟩, hoff⟩

/-- No call brings the window out of step with the source. -/
theorem call (c : Call) : (w.call s c).2.1.InStep source (w.call s c).2.2 data last := by
  cases c with
  | fill =>
    obtain ⟨-, hfill⟩ | ⟨e, s', hfill, hstep⟩ | ⟨bytes, s', hfill, hstep⟩ := h.fill hs
    · rw [Window.call, hfill]
      exact h
    · rw [Window.call, hfill]
      exact hstep
    · rw [Window.call, hfill]
      exact hstep
  | consume count =>
    obtain ⟨w', hconsume, hstep, -⟩ := h.consume hs count
    rw [Window.call, hconsume]
    exact hstep

omit h in
theorem calls (h : w.InStep source s data last) (cs : List Call) :
    (w.calls s cs).2.1.InStep source (w.calls s cs).2.2 data last := by
  induction cs generalizing w s with
  | nil => exact h
  | cons c cs ih => exact ih (h.call hs c)

theorem mirrors : w.Mirrors s data := by
  obtain ⟨hposition, -⟩ := h.readPosition_eq hs
  refine ⟨h.shows.bytes_eq_take, fun count => ?_, fun hend e hread => ?_,
    fun hend bytes hread => ?_, fun hend => ⟨?_, fill_of_atEnd hend s⟩⟩
  · obtain ⟨w', hconsume, -, hoff⟩ := h.consume hs count
    obtain ⟨hbytes, hend⟩ := bytes_of_consume (consume_min w count ▸ hconsume)
    exact ⟨w', hconsume, hoff, hbytes, hend⟩
  · exact congrArg Prod.fst (fill_of_read_error hend hposition (Prod.ext hread rfl))
  · have hfill := fill_of_read hend hposition (Prod.ext hread rfl)
    obtain ⟨hnext, -⟩ := h.filled hs (Prod.ext hread rfl)
    refine ⟨w.filled bytes, congrArg Prod.fst hfill, w.offset_extend bytes, ?_,
      w.size_extend bytes, atEnd_of_fill hfill⟩
    rw [← List.prefix_iff_eq_take.1 hnext]
    exact w.bytes_extend bytes
  · have hlen := congrArg List.length (h.shows.bytes_eq_of_atEnd hend)
    rw [w.length_bytes, List.length_drop] at hlen
    omega

end InStep

theorem window_of_failed {c : Call} {f : Fault} (h : (w.call s c).1 = .failed f) :
    (w.call s c).2.1 = w := by
  cases c with
  | fill =>
    rcases hfill : w.fill s with ⟨f | ⟨added, w'⟩, s'⟩ <;> simp_all [call]
  | consume count =>
    rcases hconsume : w.consume count with o | w' <;> simp_all [call]

/-- The end is told by a fill that adds nothing. -/
theorem atEnd_call (w : Window) (s : σ) (c : Call) :
    (w.call s c).2.1.atEnd = true ↔ w.atEnd = true ∨ (w.call s c).1 = .filled 0 := by
  cases c with
  | fill =>
    by_cases hend : w.atEnd = true
    · simp [call, fill_of_atEnd hend s, hend]
    · rcases hfill : w.fill s with ⟨f | ⟨added, w'⟩, s'⟩
      · simp [call, hfill]
      · simp [call, hfill, hend, atEnd_of_fill hfill]
  | consume count =>
    rcases hconsume : w.consume count with o | w'
    · simp [call, hconsume]
    · simp [call, hconsume, (bytes_of_consume hconsume).2]

theorem atEnd_calls (w : Window) (s : σ) (cs : List Call) :
    (w.calls s cs).2.1.atEnd = true ↔ w.atEnd = true ∨ .filled 0 ∈ (w.calls s cs).1 := by
  induction cs generalizing w s with
  | nil => simp [calls]
  | cons c cs ih =>
    rw [calls]
    dsimp only
    rw [ih, atEnd_call, List.mem_cons, or_assoc, @eq_comm _ (Answer.filled 0)]

end Window

namespace Cursor

variable {σ : Type} [Source σ]

/-- What is left after a read that failed: the room made for it is cut off again. -/
def giveBack (c : Cursor) : Except Trap Cursor := do
  let c ← c.compact
  return { c with buffer := c.roomy.take c.buffer.length }

def call (c : Cursor) (source : σ) : Call → Except Trap (Answer × Cursor × σ)
  | .fill =>
    match c.fill source with
    | (.ok (added, c'), source') => .ok (.filled added, c', source')
    | (.error (.fault (.source e)), source') => do
      return (.failed (.source e), ← c.giveBack, source')
    | (.error t, _) => .error t
  | .consume count => do
    return (.consumed, ← c.consume count, source)

def calls (c : Cursor) (source : σ) : List Call → Except Trap (List Answer × Cursor × σ)
  | [] => .ok ([], c, source)
  | call :: rest => do
    let called ← c.call source call
    let others ← called.2.1.calls called.2.2 rest
    return (called.1 :: others.1, others.2)

variable {c : Cursor} {w : Window} {source s : σ} {data : Bytes} {last : Nat}

theorem models_compacted (w : Window) : (compacted w).Models w :=
  ⟨Nat.zero_le _, rfl, rfl, rfl, Nat.zero_le _⟩

/-- A cursor after a failed read stands for the window that it stood for before. -/
theorem Models.giveBack (h : c.Models w) : ∃ c', c.giveBack = .ok c' ∧ c'.Models w := by
  refine ⟨compacted w, ?_, models_compacted w⟩
  rw [Cursor.giveBack, h.compact_eq, Checked.ok_bind]
  rw [roomy, List.take_left]
  rfl

theorem Models.fill_error {s' : σ} {e : SourceError} (h : c.Models w)
    (hw : w.fill s = (.error (.source e), s')) (hroom : w.size + Window.fillSize < Word.size) :
    c.fill s = (.error (.fault (.source e)), s') := by
  have hend := h.atEnd_eq
  unfold Window.fill at hw
  unfold Cursor.fill
  split at hw
  · cases hw
  · next hw' =>
    split at hw
    · cases hw
    · next position hposition =>
      split at hw
      · next hread =>
        cases hw
        rw [hend, if_neg hw', h.compact_eq]
        dsimp only
        rw [makeRoom_compacted hposition hroom]
        dsimp only
        rw [hread]
      · cases hw

variable (hs : Source.Faithful source data last) (hroom : data.length + Window.fillSize < Word.size)

include hs hroom

/-- A call is answered alike, and leaves a cursor that stands for the window again. -/
theorem Models.call (h : c.Models w) (hw : w.InStep source s data last) (call : Call) :
    ∃ c', c.call s call = .ok ((w.call s call).1, c', (w.call s call).2.2) ∧
      c'.Models (w.call s call).2.1 := by
  have hsize := hw.shows.size_le
  have hfit : w.size + Window.fillSize < Word.size := by omega
  cases call with
  | fill =>
    obtain ⟨hend, hfill⟩ | ⟨e, s', hfill, -⟩ | ⟨bytes, s', hfill, hstep⟩ := hw.fill hs
    · refine ⟨c, ?_, ?_⟩
      · rw [Cursor.call, Cursor.fill, h.atEnd_eq, if_pos hend, Window.call, hfill]
      · rw [Window.call, hfill]
        exact h
    · obtain ⟨c', hback, hmodels⟩ := h.giveBack
      refine ⟨c', ?_, ?_⟩
      · rw [Cursor.call, h.fill_error hfill hfit, Window.call, hfill]
        dsimp only
        rw [hback]
        rfl
      · rw [Window.call, hfill]
        exact hmodels
    · have hsize' := hstep.shows.size_le
      obtain ⟨c', hc, hmodels⟩ := h.fill hfill hfit (by omega)
      refine ⟨c', ?_, ?_⟩
      · rw [Cursor.call, hc, Window.call, hfill]
      · rw [Window.call, hfill]
        exact hmodels
  | consume count =>
    obtain ⟨w', hconsume, -⟩ := hw.consume hs count
    obtain ⟨c', hc, hmodels⟩ := h.consume hconsume
    refine ⟨c', ?_, ?_⟩
    · rw [Cursor.call, hc, Window.call, hconsume]
      rfl
    · rw [Window.call, hconsume]
      exact hmodels

theorem Models.calls (h : c.Models w) (hw : w.InStep source s data last) (cs : List Call) :
    ∃ c', c.calls s cs = .ok ((w.calls s cs).1, c', (w.calls s cs).2.2) ∧
      c'.Models (w.calls s cs).2.1 := by
  induction cs generalizing c w s with
  | nil => exact ⟨c, rfl, h⟩
  | cons call cs ih =>
    obtain ⟨c', hcall, hmodels⟩ := h.call hs hroom hw call
    obtain ⟨c'', hcalls, hmodels'⟩ := ih hmodels (hw.call hs call)
    refine ⟨c'', ?_, hmodels'⟩
    rw [Cursor.calls, hcall, Checked.ok_bind]
    dsimp only
    rw [hcalls]
    rfl

end Cursor

namespace Window

variable {σ : Type} [Source σ]

/-- After any calls, a window shows what the source holds from its offset on, is at the end if a
fill has added nothing, and is what a cursor shows that is used alike. -/
theorem mirrors_of_calls {source : σ} {data : Bytes} {last offset : Nat}
    (hs : Source.Faithful source data last) (hoffset : offset ≤ last) (cs : List Call) :
    let called := (Window.start offset).calls source cs
    called.2.1.Mirrors called.2.2 data ∧
      (called.2.1.atEnd = true ↔ .filled 0 ∈ called.1) ∧
      (data.length + Window.fillSize < Word.size →
        ∃ c, ({ offset } : Cursor).calls source cs = .ok (called.1, c, called.2.2) ∧
          c.available = .ok called.2.1.bytes ∧ c.offset = called.2.1.offset ∧
          c.atEnd = called.2.1.atEnd ∧
          ∀ f c' s', c.call called.2.2 .fill = .ok (.failed f, c', s') →
            c'.available = c.available ∧ c'.offset = c.offset) := by
  intro called
  have hstep : (Window.start offset).InStep source source data last :=
    ⟨shows_start data offset, hoffset, .refl⟩
  refine ⟨(hstep.calls hs cs).mirrors hs, ?_, fun hroom => ?_⟩
  · exact (atEnd_calls _ source cs).trans (or_iff_right Bool.false_ne_true)
  · obtain ⟨c, hc, hmodels⟩ := (Cursor.models_start offset).calls hs hroom hstep cs
    refine ⟨c, hc, hmodels.available_eq, hmodels.offset_eq, hmodels.atEnd_eq, ?_⟩
    intro f c' s' hfailed
    obtain ⟨c'', hfill, hmodels'⟩ := hmodels.call hs hroom (hstep.calls hs cs) .fill
    rw [hfill] at hfailed
    obtain ⟨hanswer, rfl, -⟩ : _ ∧ c'' = c' ∧ _ := by simpa using hfailed
    rw [window_of_failed hanswer] at hmodels'
    exact ⟨hmodels'.available_eq.trans hmodels.available_eq.symm,
      hmodels'.offset_eq.trans hmodels.offset_eq.symm⟩

/-- Reads of three bytes at most, one of which fails and is tried again. -/
theorem mirrors_of_calls_with_retry :
    let source : Memory :=
      { contents := #[10, 11, 12, 13, 14, 15, 16], readLimit := some 3
        faults := some ⟨4, some 1⟩ }
    let cs : List Call :=
      [.fill, .consume 2, .fill, .fill, .fill, .consume 1, .fill, .consume 9, .fill]
    let called := (Window.start 1).calls source cs
    Source.Faithful source [10, 11, 12, 13, 14, 15, 16] 7 ∧
      called.1 = [.filled 3, .consumed, .failed (.source Memory.injected), .filled 3, .filled 0,
        .consumed, .filled 0, .consumed, .filled 0] ∧
      called.2.1.offset = 7 ∧ called.2.1.Mirrors called.2.2 [10, 11, 12, 13, 14, 15, 16] ∧
      ((Window.start 1).calls source (cs.take 4)).2.1.Mirrors
        ((Window.start 1).calls source (cs.take 4)).2.2 [10, 11, 12, 13, 14, 15, 16] ∧
      ((Window.start 1).calls source (cs.take 4)).2.1.bytes = [13, 14, 15, 16] ∧
      ∃ c, ({ offset := 1 } : Cursor).calls source (cs.take 4) =
          .ok ((called.1).take 4, c, ((Window.start 1).calls source (cs.take 4)).2.2) ∧
        c.available = .ok [13, 14, 15, 16] := by
  intro source cs called
  have hs : Source.Faithful source [10, 11, 12, 13, 14, 15, 16] 7 :=
    Memory.faithful (by decide) (by decide) (by decide)
  have hoffset : 1 ≤ 7 := by decide
  obtain ⟨hmirrors, -, hcursor⟩ := mirrors_of_calls hs hoffset (cs.take 4)
  have hbytes : ((Window.start 1).calls source (cs.take 4)).2.1.bytes = [13, 14, 15, 16] := by
    decide +kernel
  obtain ⟨c, hc, havailable, -⟩ := hcursor (by decide)
  exact ⟨hs, by decide +kernel, by decide +kernel, (mirrors_of_calls hs hoffset cs).1,
    hmirrors, hbytes, c, hc, hbytes ▸ havailable⟩

end Window

end Telemetry
