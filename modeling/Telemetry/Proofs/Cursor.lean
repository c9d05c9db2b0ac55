import Telemetry.Proofs.Access

/-!
# A window in a buffer

A cursor keeps what has been read in one buffer and only notes how much of it is consumed, until it
reads on and drains it.  It behaves as the window that stands behind its start (`Models.consume`,
`Models.fill`): the start never passes the end of the buffer, nor the position in the stream, so no
range leaves the buffer and no sum leaves the words.  Of the room that is made for a read, nothing
is kept but what was read into it (`keep_eq`).
-/

namespace Telemetry

/-- The bytes stand in the buffer from `start` on, over what stood there. -/
def Bytes.overwrite (buffer : Bytes) (start : Nat) (bytes : Bytes) : Bytes :=
  buffer.take start ++ bytes ++ buffer.drop (start + bytes.length)

structure Cursor where
  /-- What has been read, consumed or not. -/
  buffer : Bytes := []
  /-- Where the bytes begin that are not consumed. -/
  start : Nat := 0
  /-- The position of the first of those in the stream. -/
  offset : Nat
  /-- The source has no more bytes. -/
  atEnd : Bool := false
  deriving DecidableEq, Repr

namespace Cursor

def available (c : Cursor) : Except Trap Bytes :=
  Checked.slice c.buffer c.start c.buffer.length

/-- Passes `count` bytes, or all there are. -/
def consume (c : Cursor) (count : Nat) : Except Trap Cursor := do
  let left ← Checked.word (Word.sub c.buffer.length c.start)
  let start ← Checked.word (Word.add c.start (min count left))
  let offset ← Checked.word (Word.add c.offset (min count left))
  return { c with start, offset }

/-- Drains the bytes that are consumed. -/
def compact (c : Cursor) : Except Trap Cursor :=
  if 0 < c.start then do
    let buffer ← Checked.drain c.buffer 0 c.start
    return { c with buffer, start := 0 }
  else return c

/-- The buffer with room for a read behind its bytes. -/
def roomy (c : Cursor) : Bytes :=
  c.buffer ++ List.replicate Window.fillSize 0

/-- Where the next bytes of the source are read, and how many the buffer is made longer by. -/
def makeRoom (c : Cursor) : Except Trap (Nat × Nat) := do
  let position ← Checked.word (Word.add c.offset c.buffer.length)
  let stop ← Checked.word (Word.add c.buffer.length Window.fillSize)
  let room ← Checked.slice c.roomy c.buffer.length stop
  return (position, room.length)

/-- Cuts off the room from `stop` on, after the bytes that were read were written over its
beginning. -/
def keep (c : Cursor) (bytes : Bytes) : Except Trap (Nat × Cursor) := do
  let stop ← Checked.word (Word.add c.buffer.length bytes.length)
  let written := Bytes.overwrite c.roomy c.buffer.length bytes
  return (bytes.length, { c with buffer := written.take stop, atEnd := bytes.isEmpty })

/-- Reads on and tells how many bytes that were. -/
def fill {σ : Type} [Source σ] (c : Cursor) (source : σ) : Except Trap (Nat × Cursor) × σ :=
  if c.atEnd then (.ok (0, c), source)
  else match c.compact with
    | .error t => (.error t, source)
    | .ok c =>
      match c.makeRoom with
      | .error t => (.error t, source)
      | .ok (position, size) =>
        match Source.read source position size with
        | (.error e, source') => (.error (.fault (.source e)), source')
        | (.ok bytes, source') => (c.keep bytes, source')

/-- The window stands in the buffer, behind its start. -/
structure Models (c : Cursor) (w : Window) : Prop where
  start_le : c.start ≤ c.buffer.length
  bytes_eq : c.buffer.drop c.start = w.bytes
  offset_eq : c.offset = w.offset
  atEnd_eq : c.atEnd = w.atEnd
  /-- What is consumed stands before the window in the stream too. -/
  start_le_offset : c.start ≤ w.offset

theorem models_start (offset : Nat) : ({ offset } : Cursor).Models (.start offset) :=
  ⟨Nat.zero_le _, rfl, rfl, rfl, Nat.zero_le _⟩

variable {c : Cursor} {w w' : Window}

theorem Models.size_eq (h : c.Models w) : c.buffer.length - c.start = w.size := by
  rw [← w.length_bytes, ← h.bytes_eq, List.length_drop]

theorem Models.available_eq (h : c.Models w) : c.available = .ok w.bytes := by
  rw [available, Checked.slice_eq_ok h.start_le (Nat.le_refl _), List.take_length, h.bytes_eq]

theorem Models.consume {count : Nat} (h : c.Models w) (hw : w.consume count = .ok w') :
    ∃ c', c.consume count = .ok c' ∧ c'.Models w' := by
  obtain ⟨hstart, hbytes, hoffset, hend, hbegun⟩ := id h
  have hsize := h.size_eq
  unfold Window.consume at hw
  rcases hadd : Word.add w.offset (min count w.size) with o | offset
  · rw [hadd] at hw
    cases hw
  rw [hadd] at hw
  obtain ⟨hfit, rfl⟩ := Word.add_eq_ok_iff.1 hadd
  obtain rfl := Except.ok.inj hw
  refine ⟨{ c with
    start := c.start + min count w.size
    offset := c.offset + min count w.size }, ?_, ?_, ?_, ?_, hend, ?_⟩
  · rw [Cursor.consume, Checked.word_sub hstart, Checked.ok_bind, hsize,
      Checked.word_add (by omega), Checked.ok_bind, Checked.word_add (by omega)]
    rfl
  · change c.start + min count w.size ≤ c.buffer.length
    omega
  · change c.buffer.drop (c.start + min count w.size) = w.bytes.drop count
    rw [← List.drop_drop, hbytes]
    rcases Nat.le_total count w.size with hle | hle
    · rw [Nat.min_eq_left hle]
    · rw [Nat.min_eq_right hle, ← w.length_bytes, List.drop_length,
        List.drop_of_length_le (by rwa [w.length_bytes])]
  · change c.offset + min count w.size = w.offset + min count w.size
    rw [hoffset]
  · change c.start + min count w.size ≤ w.offset + min count w.size
    omega

/-- The cursor that has only the window in its buffer. -/
def compacted (w : Window) : Cursor where
  buffer := w.bytes
  offset := w.offset
  atEnd := w.atEnd

theorem Models.compact_eq (h : c.Models w) : c.compact = .ok (compacted w) := by
  obtain ⟨hstart, hbytes, hoffset, hend, -⟩ := h
  unfold compact compacted
  split_ifs with hpos
  · rw [Checked.drain_eq_ok (Nat.zero_le _) hstart, Checked.ok_bind, List.take_zero,
      List.nil_append, hbytes, ← hoffset, ← hend]
    rfl
  · obtain ⟨buffer, start, offset, atEnd⟩ := c
    obtain rfl : start = 0 := Nat.eq_zero_of_not_pos hpos
    rw [← hoffset, ← hend, ← hbytes]
    rfl

theorem makeRoom_compacted {position : Nat} (hposition : w.readPosition = .ok position)
    (hroom : w.size + Window.fillSize < Word.size) :
    (compacted w).makeRoom = .ok (position, Window.fillSize) := by
  obtain ⟨hfit, rfl⟩ := Word.add_eq_ok_iff.1 hposition
  have hslice : Checked.slice (compacted w).roomy w.bytes.length
      (w.bytes.length + Window.fillSize) = .ok (List.replicate Window.fillSize 0) := by
    have hlen : (compacted w).roomy.length = w.bytes.length + Window.fillSize := by
      simp [roomy, compacted]
    rw [Checked.slice_eq_ok (Nat.le_add_right _ _) hlen.ge, ← hlen, List.take_length]
    exact congrArg Except.ok List.drop_left
  rw [← w.length_bytes] at hfit hroom
  have hbuffer : (compacted w).buffer = w.bytes := rfl
  have hoffset : (compacted w).offset = w.offset := rfl
  rw [makeRoom, hbuffer, hoffset, Checked.word_add hfit, Checked.ok_bind, Checked.word_add hroom,
    Checked.ok_bind, hslice, Checked.ok_bind, List.length_replicate, w.length_bytes]
  rfl

/-- Nothing of the room is kept but what was read into it. -/
theorem keep_eq {bytes : Bytes} (h : c.buffer.length + bytes.length < Word.size) :
    c.keep bytes =
      .ok (bytes.length, { c with buffer := c.buffer ++ bytes, atEnd := bytes.isEmpty }) := by
  have hwritten : (Bytes.overwrite c.roomy c.buffer.length bytes).take
      (c.buffer.length + bytes.length) = c.buffer ++ bytes := by
    rw [Bytes.overwrite, roomy, List.take_left, ← List.length_append, List.take_left]
  rw [keep, Checked.word_add h, Checked.ok_bind]
  dsimp only
  rw [hwritten]
  rfl

theorem models_extend (w : Window) (bytes : Bytes) :
    { compacted w with buffer := w.bytes ++ bytes, atEnd := bytes.isEmpty : Cursor }.Models
      { w.extend bytes with atEnd := bytes.isEmpty } := by
  refine ⟨Nat.zero_le _, ?_, (w.offset_extend bytes).symm, rfl, Nat.zero_le _⟩
  exact (w.bytes_extend bytes).symm

/-- A cursor reads on where its window does, unless that is nearly as long as memory. -/
theorem Models.fill {σ : Type} [Source σ] {source source' : σ} {added : Nat} (h : c.Models w)
    (hw : w.fill source = (.ok (added, w'), source'))
    (hroom : w.size + Window.fillSize < Word.size) (hfit : w'.size < Word.size) :
    ∃ c', c.fill source = (.ok (added, c'), source') ∧ c'.Models w' := by
  have hend := h.atEnd_eq
  unfold Window.fill at hw
  unfold Cursor.fill
  split at hw
  · next hw' =>
    cases hw
    exact ⟨c, by rw [hend, if_pos hw'], h⟩
  · next hw' =>
    split at hw
    · cases hw
    · next position hposition =>
      split at hw
      · cases hw
      · next bytes after hread =>
        cases hw
        have hsum : w.bytes.length + bytes.length < Word.size := by
          have hsize : (w.extend bytes).size < Word.size := hfit
          rw [w.length_bytes]
          rwa [w.size_extend] at hsize
        refine ⟨_, ?_, models_extend w bytes⟩
        rw [hend, if_neg hw', h.compact_eq]
        dsimp only
        rw [makeRoom_compacted hposition hroom]
        dsimp only
        rw [hread]
        dsimp only
        rw [keep_eq hsum]
        rfl

end Cursor

end Telemetry
