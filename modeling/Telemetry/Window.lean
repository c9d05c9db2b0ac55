import Telemetry.Source
import Telemetry.Word

/-!
The window through which a source is decoded: the bytes that have been read and not yet consumed.
-/

namespace Telemetry

/-- Why decoding could not go on. -/
inductive Fault where
  /-- The source failed; the same read may be tried again. -/
  | source (e : SourceError)
  | overflow (o : Overflow)
  deriving DecidableEq, Repr

def Fault.message : Fault → String
  | source e => "decode failed: " ++ e.message
  | overflow o => o.message

/-- What is read is appended at the back; a window that grows in many small steps is put together
only when its bytes are looked at. -/
structure Window where
  /-- The first bytes. -/
  front : Bytes := []
  /-- The bytes after those, the last one first. -/
  back : Bytes := []
  size : Nat := 0
  /-- The position of the first byte of the window. -/
  offset : Nat := 0
  /-- The source has no more bytes. -/
  atEnd : Bool := false
  size_eq : size = front.length + back.length := by rfl
  deriving DecidableEq, Repr

namespace Window

/-- How many bytes a filling asks for. -/
def fillSize : Nat := 8192

def bytes (w : Window) : Bytes :=
  match w.back with
  | [] => w.front
  | back => w.front ++ back.reverse

theorem bytes_eq (w : Window) : w.bytes = w.front ++ w.back.reverse := by
  unfold bytes
  split
  · next h => simp [h]
  · rfl

theorem length_bytes (w : Window) : w.bytes.length = w.size := by
  simp [bytes_eq, w.size_eq]

theorem size_empty : 0 = ([] : Bytes).length + ([] : Bytes).length := rfl

/-- The window at a position of which nothing has been read. -/
def start (offset : Nat) : Window where
  offset
  size_eq := size_empty

/-- Drops `count` bytes, or all there are. -/
def consume (w : Window) (count : Nat) : Except Overflow Window := do
  let offset ← Word.add w.offset (min count w.size)
  return {
    front := w.bytes.drop count
    size := w.size - count
    offset
    atEnd := w.atEnd
    size_eq := by simp [length_bytes] }

theorem size_append_back (w : Window) (bytes : Bytes) :
    w.back.length + bytes.length = (w.back.reverse ++ bytes).length + ([] : Bytes).length := by
  simp

theorem size_append (w : Window) (bytes : Bytes) :
    w.size + bytes.length = w.front.length + (bytes.reverseAux w.back).length := by
  have := w.size_eq
  simp only [List.reverseAux_eq, List.length_append, List.length_reverse]
  omega

/-- Appends bytes. -/
def extend (w : Window) (bytes : Bytes) : Window :=
  match w.front with
  | [] => { w with
      front := w.back.reverse ++ bytes
      back := []
      size := w.back.length + bytes.length
      size_eq := size_append_back w bytes }
  | _ :: _ => { w with
      back := bytes.reverseAux w.back
      size := w.size + bytes.length
      size_eq := size_append w bytes }

theorem bytes_extend (w : Window) (bytes : Bytes) : (w.extend bytes).bytes = w.bytes ++ bytes := by
  unfold extend
  split
  · next h => simp [bytes_eq, h]
  · simp [bytes_eq, List.reverseAux_eq]

theorem offset_extend (w : Window) (bytes : Bytes) : (w.extend bytes).offset = w.offset := by
  unfold extend
  split <;> rfl

theorem size_extend (w : Window) (bytes : Bytes) :
    (w.extend bytes).size = w.size + bytes.length := by
  rw [← length_bytes, bytes_extend, List.length_append, length_bytes]

/-- Where the next bytes of the source are read. -/
def readPosition (w : Window) : Except Overflow Nat :=
  Word.add w.offset w.size

/-- Appends what one read returns and tells how much that was. A failed read changes nothing. -/
def fill {σ : Type} [Source σ] (w : Window) (source : σ) : Except Fault (Nat × Window) × σ :=
  if w.atEnd then (.ok (0, w), source)
  else match w.readPosition with
    | .error o => (.error (.overflow o), source)
    | .ok position =>
      match Source.read source position fillSize with
      | (.error e, source') => (.error (.source e), source')
      | (.ok bytes, source') =>
        (.ok (bytes.length, { w.extend bytes with atEnd := bytes.isEmpty }), source')

end Window

end Telemetry
