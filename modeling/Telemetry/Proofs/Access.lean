import Telemetry.Proofs.Consumption
import Telemetry.Proofs.Framing
import Telemetry.Record.Display

/-!
# Accesses that are checked

A look at the window and the text of a record once more, with the slots of the tags, the bytes of
the window and those of the payload reached by indices and ranges that are checked.  No check fails:
a byte has a slot (`Tag.Slots.exists_ofList`), and a time stamp lies inside the payload because the
table would not have the tag otherwise, so a look comes to the same (`checkedDecode_eq`), and so
does the text of any record (`checkedDisplay_eq`).
-/

namespace Telemetry

/-- Why a checked operation has no result. -/
inductive Trap where
  | fault (f : Fault)
  /-- An index or a range leaves the list. -/
  | range
  deriving DecidableEq, Repr

namespace Checked

variable {α β : Type}

/-- A result that is checked already. -/
def word (x : Except Overflow α) : Except Trap α :=
  x.mapError fun o => .fault (.overflow o)

def get (xs : List α) (i : Nat) : Except Trap α :=
  match xs[i]? with
  | some x => .ok x
  | none => .error .range

def set (xs : List α) (i : Nat) (x : α) : Except Trap (List α) :=
  if i < xs.length then .ok (xs.set i x) else .error .range

/-- The elements at `start` to `stop - 1`. -/
def slice (xs : List α) (start stop : Nat) : Except Trap (List α) :=
  if start ≤ stop ∧ stop ≤ xs.length then .ok ((xs.take stop).drop start) else .error .range

/-- All but the elements at `start` to `stop - 1`. -/
def drain (xs : List α) (start stop : Nat) : Except Trap (List α) :=
  if start ≤ stop ∧ stop ≤ xs.length then .ok (xs.take start ++ xs.drop stop) else .error .range

theorem ok_bind {ε : Type} (a : α) (f : α → Except ε β) : (.ok a >>= f) = f a :=
  rfl

theorem word_bind (x : Except Overflow α) (f : α → Except Overflow β) :
    word (x >>= f) = word x >>= fun a => word (f a) := by
  cases x <;> rfl

theorem word_add {a b : Nat} (h : a + b < Word.size) : word (Word.add a b) = .ok (a + b) := by
  rw [Word.add_eq_ok_iff.2 ⟨h, rfl⟩]
  rfl

theorem word_sub {a b : Nat} (h : b ≤ a) : word (Word.sub a b) = .ok (a - b) := by
  rw [Word.sub_eq_ok_iff.2 ⟨h, rfl⟩]
  rfl

theorem get_eq_ok {xs : List α} {i : Nat} {x : α} (h : xs[i]? = some x) : get xs i = .ok x := by
  rw [get, h]

theorem slice_eq_ok {xs : List α} {start stop : Nat} (h : start ≤ stop) (hstop : stop ≤ xs.length) :
    slice xs start stop = .ok ((xs.take stop).drop start) :=
  if_pos ⟨h, hstop⟩

theorem drain_eq_ok {xs : List α} {start stop : Nat} (h : start ≤ stop) (hstop : stop ≤ xs.length) :
    drain xs start stop = .ok (xs.take start ++ xs.drop stop) :=
  if_pos ⟨h, hstop⟩

end Checked

namespace Tag

/-- A place for each byte, with its tag if it has one. -/
abbrev Slots := List (Option Tag)

namespace Slots

def empty : Slots :=
  List.replicate 256 none

def place (slots : Slots) (t : Tag) : Except Trap Slots :=
  Checked.set slots t.byte.toNat (some t)

def ofList (tags : List Tag) : Except Trap Slots :=
  tags.foldlM place empty

def find (slots : Slots) (byte : UInt8) : Except Trap (Option Tag) :=
  Checked.get slots byte.toNat

/-- Every byte has a slot, which holds what the table has. -/
def Holds (slots : Slots) (table : Table) : Prop :=
  ∀ byte : UInt8, slots[byte.toNat]? = some (table.get? byte)

variable {slots : Slots} {table table' : Table} {t : Tag}

theorem Holds.find_eq (h : slots.Holds table) (byte : UInt8) :
    slots.find byte = .ok (table.get? byte) :=
  Checked.get_eq_ok (h byte)

theorem holds_empty : empty.Holds .empty := by
  intro byte
  rw [empty, List.getElem?_replicate, if_pos byte.toNat_lt]
  rfl

theorem find?_place (byte : UInt8) {tags : List Tag} (new : ∀ u ∈ tags, u.byte ≠ t.byte) :
    (Table.place t tags).find? (·.byte == byte) =
      if t.byte = byte then some t else tags.find? (·.byte == byte) := by
  induction tags with
  | nil =>
    rw [Table.place, List.find?_cons]
    grind
  | cons u rest ih =>
    have hu := new u (.head _)
    rw [Table.place]
    split
    · rw [List.find?_cons]
      grind
    · rw [List.find?_cons, ih fun v hv => new v (.tail _ hv), List.find?_cons]
      grind

theorem get?_insert (h : table.insert t = .ok table') (byte : UInt8) :
    table'.get? byte = if t.byte = byte then some t else table.get? byte := by
  unfold Table.insert at h
  split at h
  · cases h
  · split at h
    · cases h
    · next hnone =>
      rw [← Except.ok.inj h]
      exact find?_place byte (Table.get?_eq_none_iff.1 hnone)

theorem Holds.place (h : slots.Holds table) (ht : table.insert t = .ok table') :
    ∃ slots', slots.place t = .ok slots' ∧ slots'.Holds table' := by
  have hlt : t.byte.toNat < slots.length := (List.getElem?_eq_some_iff.1 (h t.byte)).1
  refine ⟨slots.set t.byte.toNat (some t), if_pos hlt, fun byte => ?_⟩
  rw [get?_insert ht, List.getElem?_set]
  by_cases hbyte : t.byte = byte
  · rw [if_pos hbyte, if_pos (congrArg UInt8.toNat hbyte), if_pos hlt]
  · rw [if_neg hbyte, if_neg (fun heq => hbyte (UInt8.toNat_inj.1 heq)), h byte]

theorem Holds.foldlM : ∀ (tags : List Tag) {slots : Slots} {table table' : Table},
    slots.Holds table → tags.foldlM Table.insert table = .ok table' →
      ∃ slots', tags.foldlM Slots.place slots = .ok slots' ∧ slots'.Holds table'
  | [], slots, table, table', h, htags => by
    cases htags
    exact ⟨slots, rfl, h⟩
  | t :: tags, slots, table, table', h, htags => by
    rw [List.foldlM_cons] at htags
    rcases ht : table.insert t with _ | next
    · rw [ht] at htags
      cases htags
    · rw [ht] at htags
      obtain ⟨slots', hplace, hnext⟩ := h.place ht
      rw [List.foldlM_cons, hplace]
      exact Holds.foldlM tags hnext htags

/-- The tags of a table find their slots. -/
theorem exists_ofList {tags : List Tag} (h : Table.ofList tags = .ok table) :
    ∃ slots, ofList tags = .ok slots ∧ slots.Holds table :=
  holds_empty.foldlM tags h

end Slots

end Tag

namespace Record

namespace Parser

/-- The time stamp at a position of the payload. -/
def checkedStamp (payload : Bytes) (timestamp : Option Nat) : Except Trap (Option UInt16) :=
  match timestamp with
  | none => return none
  | some position => do
    let low ← Checked.get payload position
    let next ← Checked.word (Word.add position 1)
    let high ← Checked.get payload next
    return some (Bytes.word16 [low, high])

/-- A record of `length` bytes after the tag, which the window begins with. -/
def checkedFixed (p : Parser) (length : Nat) (timestamp : Option Nat) (tag : UInt8)
    (window : Bytes) (offset ordinal : Nat) : Except Trap (Decision × Parser) :=
  let size := Word.addSat length 1
  if window.length < size then return (.needMore, p)
  else do
    let payload ← Checked.slice window 1 size
    let rawTicks ← checkedStamp payload timestamp
    let record := {
      ordinal, tag, kind := .fixed, payload, offset
      length := min size Record.maxLength
      rawTicks }
    return (.complete record size, p)

/-- The next pair of a text, whose tag the window begins with. -/
def checkedText (p : Parser) (tag : UInt8) (window : Bytes) (offset ordinal : Nat) :
    Except Trap (Decision × Parser) :=
  if window.length < 2 then return (.needMore, p)
  else do
    let char ← Checked.get window 1
    let text := p.openText.getD { tag, offset, length_eq := length_noChars }
    if char == 0 then
      let stop ← Checked.word (Word.add offset 2)
      let record ← Checked.word (text.close stop ordinal true)
      return (.complete record 2, p.reset)
    else if p.textLimit ≤ text.length then
      let record ← Checked.word (text.close offset ordinal false)
      return (.complete record 0, p.reset)
    else
      return (.pending 2, { p with openText := some (text.push char) })

/-- Looks at `window`, which starts at `offset`, with the tags in their slots. -/
def checkedDecode (p : Parser) (slots : Tag.Slots) (window : Bytes) (offset ordinal : Nat) :
    Except Trap (Decision × Parser) :=
  match window with
  | [] => return (.needMore, p)
  | tag :: _ => do
    let found ← slots.find tag
    match p.interrupted tag with
    | some text =>
      let record ← Checked.word (text.close offset ordinal false)
      return (.complete record 0, p.reset)
    | none =>
      match found with
      | none => return (.lostSync offset tag, p)
      | some t =>
        match t.layout with
        | .fixed length timestamp =>
          p.checkedFixed length timestamp tag window offset ordinal
        | .text => p.checkedText tag window offset ordinal

variable {p : Parser} {tag : UInt8} {rest : Bytes} {offset ordinal : Nat}

/-- A valid layout has the time stamp inside of the payload. -/
theorem checkedStamp_eq {payload : Bytes} {timestamp : Option Nat}
    (h : (Tag.Layout.fixed payload.length timestamp).Valid) :
    checkedStamp payload timestamp =
      .ok (timestamp.map fun position => Bytes.word16 (payload.drop position)) := by
  rcases timestamp with _ | position
  · rfl
  · obtain ⟨hlength, hposition⟩ := h
    have hlow : payload[position]? = some payload[position] := List.getElem?_eq_getElem (by omega)
    have hhigh : payload[position + 1]? = some payload[position + 1] :=
      List.getElem?_eq_getElem (by omega)
    have hfit : position + 1 < Word.size := by
      have : Tag.maxLength < Word.size := by decide
      omega
    rw [checkedStamp, Checked.get_eq_ok hlow, Checked.ok_bind, Checked.word_add hfit,
      Checked.ok_bind, Checked.get_eq_ok hhigh, Checked.ok_bind, Option.map_some,
      List.drop_eq_getElem_cons (by omega), List.drop_eq_getElem_cons (by omega)]
    rfl

/-- The check would find a stamp that is cut off. -/
example : checkedStamp [5] (some 0) = .error .range := rfl

theorem checkedFixed_eq {length : Nat} {timestamp : Option Nat}
    (h : (Tag.Layout.fixed length timestamp).Valid) :
    p.checkedFixed length timestamp tag (tag :: rest) offset ordinal =
      .ok (p.decideFixed length timestamp tag rest offset ordinal) := by
  have hlength : length ≤ Tag.maxLength := by
    rcases timestamp with _ | position
    · exact h
    · exact h.1
  have hsize : Word.addSat length 1 = length + 1 :=
    Nat.min_eq_left (Nat.le_trans (Nat.succ_le_succ hlength) (by decide))
  have hmax : min (length + 1) Record.maxLength = length + 1 :=
    Nat.min_eq_left (Nat.le_trans (Nat.succ_le_succ hlength) (by decide))
  rw [checkedFixed, decideFixed]
  dsimp only
  rw [hsize, List.length_cons, List.length_take]
  by_cases hshort : rest.length < length
  · rw [if_pos (by omega), if_pos (by omega)]
    rfl
  · have hpayload : (rest.take length).length = length := List.length_take_of_le (by omega)
    have hvalid : (Tag.Layout.fixed (rest.take length).length timestamp).Valid := by rwa [hpayload]
    have hstamp := checkedStamp_eq hvalid
    have hslice : Checked.slice (tag :: rest) 1 (length + 1) = .ok (rest.take length) :=
      Checked.slice_eq_ok (by omega) (by rw [List.length_cons]; omega)
    rw [if_neg (by omega), if_neg (by omega), hslice, Checked.ok_bind, hstamp, hmax]
    rfl

theorem checkedText_eq : p.checkedText tag (tag :: rest) offset ordinal =
    Checked.word (p.decideText tag rest offset ordinal) := by
  rcases rest with _ | ⟨char, rest⟩
  · rfl
  · have hchar : Checked.get (tag :: char :: rest) 1 = .ok char := rfl
    rw [checkedText, decideText, if_neg (by simp), hchar, Checked.ok_bind]
    dsimp only
    split_ifs
    · simp only [Checked.word_bind]
      rfl
    · rw [Checked.word_bind]
      rfl
    · rfl

/-- The checks of a look do not fail. -/
theorem checkedDecode_eq {slots : Tag.Slots} (h : slots.Holds p.table) (window : Bytes)
    (offset ordinal : Nat) : p.checkedDecode slots window offset ordinal =
      Checked.word (p.decode window offset ordinal) := by
  rcases window with _ | ⟨tag, rest⟩
  · rfl
  · rw [checkedDecode, decode, h.find_eq tag, Checked.ok_bind]
    rcases p.interrupted tag with _ | text
    · rcases ht : p.table.get? tag with _ | t
      · rfl
      · rcases hl : t.layout with ⟨length, timestamp⟩ | _
        · have hvalid := Tag.Table.valid_of_get? ht
          rw [hl] at hvalid
          simp only [hl]
          exact checkedFixed_eq hvalid
        · simp only [hl]
          exact checkedText_eq
    · rw [Checked.word_bind]
      rfl

end Parser

/-- The name of the tag in its slot. -/
def checkedName (slots : Tag.Slots) (r : Record) : Except Trap String := do
  match ← slots.find r.tag with
  | some t => return t.name
  | none => return "tag " ++ Tag.code r.tag

/-- The payload, drained of the two bytes of the time stamp. -/
def checkedUnstamped (slots : Tag.Slots) (r : Record) : Except Trap Bytes := do
  match (← slots.find r.tag).map Tag.layout with
  | some (.fixed length (some position)) =>
    if r.payload.length = length then
      let stop ← Checked.word (Word.add position 2)
      Checked.drain r.payload position stop
    else return []
  | _ => return []

/-- The text of a record, with the tags in their slots. -/
def checkedDisplay (slots : Tag.Slots) (r : Record) : Except Trap String := do
  let name ← r.checkedName slots
  match r.kind, r.rawTicks with
  | .text terminated, _ =>
    return name ++ " " ++ Text.quote (Text.decode r.payload) ++ if terminated then "" else "…"
  | .fixed, some ticks =>
    let rest ← r.checkedUnstamped slots
    return name ++ " ts=0x" ++ ticksHex ticks ++ spacedHex rest
  | .fixed, none => return name ++ spacedHex r.payload

variable {slots : Tag.Slots} {table : Tag.Table}

theorem checkedName_eq (h : slots.Holds table) (r : Record) :
    r.checkedName slots = .ok (r.tagName table) := by
  rw [checkedName, h.find_eq, tagName]
  rcases table.get? r.tag with _ | t <;> rfl

theorem checkedUnstamped_eq (h : slots.Holds table) (r : Record) :
    r.checkedUnstamped slots = .ok (r.unstamped table) := by
  rw [checkedUnstamped, h.find_eq, unstamped, timestampAt, Checked.ok_bind]
  rcases ht : table.get? r.tag with _ | t
  · rfl
  · rcases hl : t.layout with ⟨length, _ | position⟩ | _
    · simp only [Option.map_some, hl]
      split_ifs <;> rfl
    · have hvalid := Tag.Table.valid_of_get? ht
      rw [hl] at hvalid
      obtain ⟨hmax, hposition⟩ := hvalid
      have hfit : position + 2 < Word.size := by
        have : Tag.maxLength < Word.size := by decide
        omega
      simp only [Option.map_some, hl]
      split_ifs with hlength
      · rw [Checked.word_add hfit, Checked.ok_bind, Checked.drain_eq_ok (by omega) (by omega)]
      · rfl
    · simp only [Option.map_some, hl]
      rfl

/-- The checks in the text of a record do not fail. -/
theorem checkedDisplay_eq (h : slots.Holds table) (r : Record) :
    r.checkedDisplay slots = .ok (r.display table) := by
  rw [checkedDisplay, checkedName_eq h, checkedUnstamped_eq h, display]
  rcases r.kind with _ | terminated
  · rcases r.rawTicks with _ | ticks <;> rfl
  · rfl

end Record

end Telemetry
