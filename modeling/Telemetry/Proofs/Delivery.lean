import Telemetry.Source.Memory
import Telemetry.Window

/-!
# What a source delivers

A source is faithful to some data if a read that succeeds returns bytes of the data, as few as it
likes, and none only where the data has ended; it delivers the data if no read fails. A window
filled from a faithful source shows a stretch of the data from its offset on (`Window.Shows.fill`),
and consuming bytes keeps it so (`Window.Shows.consume`).
-/

namespace Telemetry

variable {σ : Type} [Source σ]

namespace Source

/-- The source after any number of reads of a window's size, at positions up to `last`. -/
inductive Reaches (last : Nat) (source : σ) : σ → Prop where
  | refl : Reaches last source source
  | read {s : σ} {position : Nat} (h : Reaches last source s) (hp : position ≤ last) :
    Reaches last source (Source.read s position Window.fillSize).2

/-- Reads at positions up to `last` return bytes of `data`, or fail. -/
structure Faithful (source : σ) (data : Bytes) (last : Nat) : Prop where
  length_le : data.length ≤ last
  last_lt : last < Word.size
  read_eq : ∀ s, Reaches last source s → ∀ position ≤ last, ∀ bytes,
    (Source.read s position Window.fillSize).1 = .ok bytes →
      bytes <+: data.drop position ∧ (bytes = [] → data.length ≤ position)

/-- Some read that the source may be asked for fails with `e`. -/
def FailsWith (source : σ) (last : Nat) (e : SourceError) : Prop :=
  ∃ s, Reaches last source s ∧ ∃ position ≤ last,
    (Source.read s position Window.fillSize).1 = .error e

/-- Reads at positions up to `last` return bytes of `data`, and do not fail. -/
structure Delivers (source : σ) (data : Bytes) (last : Nat) : Prop
    extends Faithful source data last where
  not_fails : ∀ e, ¬ FailsWith source last e

/-- The source delivers `data` and tells its length. -/
structure Holds (source : σ) (data : Bytes) (last : Nat) : Prop
    extends Delivers source data last where
  count_eq : ∀ s, Reaches last source s → Source.count s = .ok data.length

variable {source s t : σ} {data : Bytes} {last position : Nat}

theorem Reaches.trans (h₁ : Reaches last source s) (h₂ : Reaches last s t) :
    Reaches last source t := by
  induction h₂ with
  | refl => exact h₁
  | read _ hp ih => exact ih.read hp

theorem FailsWith.of_reaches {e : SourceError} (hs : Reaches last source s)
    (h : FailsWith s last e) : FailsWith source last e := by
  obtain ⟨t, ht, hread⟩ := h
  exact ⟨t, hs.trans ht, hread⟩

theorem Faithful.of_reaches (h : Faithful source data last) (hs : Reaches last source s) :
    Faithful s data last :=
  ⟨h.length_le, h.last_lt, fun t ht => h.read_eq t (hs.trans ht)⟩

theorem Delivers.of_reaches (h : Delivers source data last) (hs : Reaches last source s) :
    Delivers s data last :=
  ⟨h.toFaithful.of_reaches hs, fun e he => h.not_fails e (he.of_reaches hs)⟩

theorem Holds.of_reaches (h : Holds source data last) (hs : Reaches last source s) :
    Holds s data last :=
  ⟨h.toDelivers.of_reaches hs, fun t ht => h.count_eq t (hs.trans ht)⟩

end Source

namespace Memory

theorem read_of_faults {m : Memory} (hm : m.faults = none) (position size : Nat) :
    Memory.read m position size =
      (.ok (Bytes.slice m.contents position (m.readSize size)), m) := by
  simp [Memory.read, hm]

theorem eq_of_reaches {m s : Memory} {last : Nat} (hm : m.faults = none)
    (h : Source.Reaches last m s) : s = m := by
  induction h with
  | refl => rfl
  | read _ _ ih =>
    subst ih
    exact congrArg Prod.snd (read_of_faults hm _ _)

theorem contents_of_reaches {m s : Memory} {last : Nat} (h : Source.Reaches last m s) :
    s.contents = m.contents ∧ s.readLimit = m.readLimit := by
  induction h with
  | refl => exact ⟨rfl, rfl⟩
  | @read s position _ _ ih =>
    have hread : (Memory.read s position Window.fillSize).2.contents = s.contents ∧
        (Memory.read s position Window.fillSize).2.readLimit = s.readLimit := by
      unfold Memory.read
      split <;> exact ⟨rfl, rfl⟩
    exact ⟨hread.1.trans ih.1, hread.2.trans ih.2⟩

/-- A recording is faithful to its contents, whatever its faults and however short its reads are,
unless they are empty. -/
theorem faithful {m : Memory} {last : Nat} (hlimit : m.readLimit ≠ some 0)
    (hlen : m.contents.size ≤ last) (hlast : last < Word.size) :
    Source.Faithful m m.contents.toList last := by
  have hsize : 0 < m.readSize Window.fillSize := by
    unfold readSize
    split
    · next limit h =>
      have : limit ≠ 0 := fun h0 => hlimit (by rw [h, h0])
      simp only [Window.fillSize]
      omega
    · simp [Window.fillSize]
  refine ⟨by simpa using hlen, hlast, fun s hs position _ bytes h => ?_⟩
  obtain ⟨hcontents, hreadLimit⟩ := contents_of_reaches hs
  have hreadSize : s.readSize Window.fillSize = m.readSize Window.fillSize := by
    rw [readSize, readSize, hreadLimit]
  change (Memory.read s position Window.fillSize).1 = .ok bytes at h
  unfold Memory.read at h
  split at h
  · simp at h
  · simp only [Except.ok.injEq] at h
    rw [← h, Bytes.slice_eq, hcontents, hreadSize]
    refine ⟨List.take_prefix _ _, fun hnil => ?_⟩
    rw [List.take_eq_nil_iff] at hnil
    rcases hnil with h0 | h0
    · omega
    · exact List.drop_eq_nil_iff.1 h0

/-- A recording without faults delivers its contents. -/
theorem delivers {m : Memory} {last : Nat} (hm : m.faults = none) (hlimit : m.readLimit ≠ some 0)
    (hlen : m.contents.size ≤ last) (hlast : last < Word.size) :
    Source.Delivers m m.contents.toList last := by
  refine ⟨faithful hlimit hlen hlast, fun e he => ?_⟩
  obtain ⟨s, hs, position, _, h⟩ := he
  rw [eq_of_reaches hm hs] at h
  change (Memory.read m position Window.fillSize).1 = .error e at h
  rw [read_of_faults hm] at h
  simp at h

theorem holds {m : Memory} {last : Nat} (hm : m.faults = none) (hlimit : m.readLimit ≠ some 0)
    (hcount : m.countFails = false) (hlen : m.contents.size ≤ last) (hlast : last < Word.size) :
    Source.Holds m m.contents.toList last := by
  refine ⟨delivers hm hlimit hlen hlast, fun s hs => ?_⟩
  rw [eq_of_reaches hm hs]
  change m.count = _
  simp [count, hcount]

/-- The data in memory, which any read returns in full. -/
def plain (data : Bytes) : Memory where
  contents := data.toArray

theorem holds_plain {data : Bytes} {last : Nat} (hlen : data.length ≤ last)
    (hlast : last < Word.size) : Source.Holds (plain data) data last :=
  holds rfl (by simp [plain]) rfl hlen hlast

end Memory

namespace Window

/-- The window holds bytes of `data` from its offset on, all of them if it is at the end. -/
structure Shows (w : Window) (data : Bytes) : Prop where
  bytes_prefix : w.bytes <+: data.drop w.offset
  bytes_eq_of_atEnd : w.atEnd = true → w.bytes = data.drop w.offset

theorem shows_start (data : Bytes) (offset : Nat) : (start offset).Shows data :=
  ⟨List.nil_prefix, fun h => by cases h⟩

variable {w w' : Window} {data : Bytes} {last : Nat} {source source' : σ}

theorem Shows.size_le (h : w.Shows data) : w.size ≤ data.length - w.offset := by
  rw [← length_bytes, ← List.length_drop]
  exact h.bytes_prefix.length_le

theorem Shows.bytes_eq (h : w.Shows data) (hend : data.length ≤ w.offset + w.size) :
    w.bytes = data.drop w.offset := by
  refine h.bytes_prefix.eq_of_length_le ?_
  rw [List.length_drop, w.length_bytes]
  omega

theorem Shows.readPosition_eq (h : w.Shows data) (hdata : data.length ≤ last)
    (hlast : last < Word.size) (hoff : w.offset ≤ last) :
    w.readPosition = .ok (w.offset + w.size) ∧ w.offset + w.size ≤ last := by
  have hsize := h.size_le
  have hle : w.offset + w.size ≤ last := by omega
  exact ⟨Word.add_eq_ok_iff.2 ⟨by omega, rfl⟩, hle⟩

/-- The next bytes of the data keep a window showing them. -/
theorem Shows.extend (h : w.Shows data) {bytes : Bytes}
    (hpre : bytes <+: data.drop (w.offset + w.size))
    (hnil : bytes = [] → data.length ≤ w.offset + w.size) :
    { w.extend bytes with atEnd := bytes.isEmpty }.Shows data := by
  refine ⟨?_, fun hend => ?_⟩
  · change (w.extend bytes).bytes <+: data.drop (w.extend bytes).offset
    obtain ⟨rest, hrest⟩ := h.bytes_prefix
    rw [bytes_extend, offset_extend, ← hrest]
    rw [← List.drop_drop, ← hrest, ← w.length_bytes, List.drop_left] at hpre
    exact (List.prefix_append_right_inj _).2 hpre
  · change (w.extend bytes).bytes = data.drop (w.extend bytes).offset
    have hb : bytes = [] := by simpa using hend
    rw [bytes_extend, offset_extend, hb, List.append_nil]
    exact h.bytes_eq (hnil hb)

/-- What filling a window does: it fails if the read does, and otherwise appends the next bytes;
that none were added shows that the window holds all there are. -/
theorem Shows.fill (h : w.Shows data) (hs : Source.Faithful source data last)
    (hoff : w.offset ≤ last) :
    (∃ e source', w.fill source = (.error (.source e), source') ∧
        Source.FailsWith source last e) ∨
      ∃ added w' source', w.fill source = (.ok (added, w'), source') ∧
        Source.Reaches last source source' ∧ w'.Shows data ∧ w'.offset = w.offset ∧
        (added = 0 → w'.bytes = w.bytes ∧ w.bytes = data.drop w.offset) := by
  unfold Window.fill
  split
  · next hend =>
    exact .inr ⟨0, w, source, rfl, .refl, h, rfl, fun _ => ⟨rfl, h.bytes_eq_of_atEnd hend⟩⟩
  · obtain ⟨hpos, hle⟩ := h.readPosition_eq hs.length_le hs.last_lt hoff
    rw [hpos]
    dsimp only
    have hreach : Source.Reaches last source (Source.read source (w.offset + w.size) fillSize).2 :=
      .read .refl hle
    rcases hr : Source.read source (w.offset + w.size) fillSize with ⟨e | bytes, source'⟩
    · exact .inl ⟨e, source', rfl, source, .refl, _, hle, congrArg Prod.fst hr⟩
    · rw [hr] at hreach
      obtain ⟨hpre, hnil⟩ := hs.read_eq source .refl _ hle bytes (congrArg Prod.fst hr)
      refine .inr ⟨_, _, source', rfl, hreach, h.extend hpre hnil, w.offset_extend bytes,
        fun hlen => ?_⟩
      have hb : bytes = [] := List.eq_nil_of_length_eq_zero hlen
      refine ⟨?_, h.bytes_eq (hnil hb)⟩
      change (w.extend bytes).bytes = w.bytes
      rw [bytes_extend, hb, List.append_nil]

/-- Consuming bytes of the window drops just these. -/
theorem Shows.consume (h : w.Shows data) (count : Nat) (hcount : count ≤ w.size)
    (hfit : w.offset + count < Word.size) :
    ∃ w', w.consume count = .ok w' ∧ w'.Shows data ∧ w'.offset = w.offset + count := by
  have hadd : Word.add w.offset (min count w.size) = .ok (w.offset + count) := by
    rw [Nat.min_eq_left hcount]
    exact Word.add_eq_ok_iff.2 ⟨hfit, rfl⟩
  refine ⟨{
    front := w.bytes.drop count
    size := w.size - count
    offset := w.offset + count
    atEnd := w.atEnd
    size_eq := by simp [length_bytes] }, ?_, ⟨?_, fun hend => ?_⟩, rfl⟩
  · simp only [Window.consume, hadd]
    rfl
  · change w.bytes.drop count <+: data.drop (w.offset + count)
    obtain ⟨rest, hrest⟩ := h.bytes_prefix
    rw [← List.drop_drop, ← hrest, List.drop_append_of_le_length (by rwa [length_bytes])]
    exact List.prefix_append _ _
  · change w.bytes.drop count = data.drop (w.offset + count)
    rw [h.bytes_eq_of_atEnd hend, List.drop_drop]

end Window

end Telemetry
