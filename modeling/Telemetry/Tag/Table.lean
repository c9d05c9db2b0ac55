import Telemetry.Tag
import Telemetry.Word

/-!
Tables of tags. A table lists valid tags in ascending order of their bytes, so it is determined by
the tags it holds, in whatever order they were given.
-/

namespace Telemetry.Tag

structure Table where
  toList : List Tag
  ascending : toList.Pairwise (·.byte < ·.byte)
  valid : ∀ t ∈ toList, t.layout.Valid

namespace Table

/-- Why a list of tags is no table. -/
inductive Error where
  | duplicate (byte : UInt8)
  | timestampOutside (byte : UInt8) (length timestamp : Nat)
  | tooLong (byte : UInt8) (length : Nat)
  deriving DecidableEq, Repr

def Error.message : Error → String
  | duplicate byte => "tag " ++ Tag.code byte ++ " defined twice"
  | timestampOutside byte length timestamp =>
    "tag " ++ Tag.code byte ++ ": timestamp at " ++ toString timestamp ++
      " does not fit payload of " ++ toString length ++ " bytes"
  | tooLong byte length =>
    "tag " ++ Tag.code byte ++ ": payload of " ++ toString length ++ " bytes exceeds " ++
      toString maxLength

theorem lt_size_of_le_maxLength {length : Nat} (h : length ≤ maxLength) : length < Word.size :=
  Nat.lt_of_le_of_lt h (by decide)

/-- The time stamp ends behind the payload, or where no word can tell. -/
def endsOutside (length position : Nat) : Bool :=
  match Word.add position 2 with
  | .ok stop => length < stop
  | .error _ => true

/-- The end of the time stamp is compared as it is, also where it leaves the words. -/
theorem endsOutside_iff {length position : Nat} (h : length < Word.size) :
    endsOutside length position = true ↔ length < position + 2 := by
  unfold endsOutside
  rcases hstop : Word.add position 2 with _ | stop
  · have hlarge : ¬ position + 2 < Word.size := fun hlt => by
      rw [Word.add_eq_ok_iff.2 ⟨hlt, rfl⟩] at hstop
      cases hstop
    exact iff_of_true rfl (by omega)
  · obtain ⟨-, rfl⟩ := Word.add_eq_ok_iff.1 hstop
    exact decide_eq_true_iff

example : endsOutside 4 (Word.size - 1) = true := by decide

/-- What is wrong with a tag by itself; too long a payload is told first. -/
def fault? (t : Tag) : Option Error :=
  match t.layout with
  | .text => none
  | .fixed length timestamp =>
    if maxLength < length then some (.tooLong t.byte length)
    else match timestamp with
      | none => none
      | some position =>
        if endsOutside length position then some (.timestampOutside t.byte length position)
        else none

theorem valid_of_fault?_eq_none {t : Tag} (h : fault? t = none) : t.layout.Valid := by
  unfold fault? at h
  split at h
  · next hl => simp [hl, Layout.Valid]
  · next length timestamp hl =>
    rw [hl]
    split at h
    · simp at h
    · next hlength =>
      cases timestamp with
      | none => simp only [Layout.Valid]; omega
      | some position =>
        simp only at h
        split at h
        · simp at h
        · next hposition =>
          have hword := lt_size_of_le_maxLength (Nat.not_lt.1 hlength)
          rw [endsOutside_iff hword] at hposition
          simp only [Layout.Valid]
          omega

def empty : Table := ⟨[], .nil, by simp⟩

def get? (table : Table) (byte : UInt8) : Option Tag :=
  table.toList.find? (·.byte == byte)

theorem mem_of_get? {table : Table} {byte : UInt8} {t : Tag} (h : table.get? byte = some t) :
    t ∈ table.toList :=
  List.mem_of_find?_eq_some h

theorem byte_of_get? {table : Table} {byte : UInt8} {t : Tag} (h : table.get? byte = some t) :
    t.byte = byte := by
  simpa using List.find?_some h

theorem valid_of_get? {table : Table} {byte : UInt8} {t : Tag} (h : table.get? byte = some t) :
    t.layout.Valid :=
  table.valid t (mem_of_get? h)

theorem get?_of_mem {table : Table} {t : Tag} (h : t ∈ table.toList) :
    table.get? t.byte = some t := by
  obtain ⟨before, after, hsplit⟩ := List.append_of_mem h
  have hascending := table.ascending
  rw [hsplit, List.pairwise_append] at hascending
  rw [get?, hsplit, List.find?_append, List.find?_eq_none.2, Option.none_or]
  · simp
  · intro u hu heq
    have hlt := hascending.2.2 u hu t List.mem_cons_self
    rw [beq_iff_eq.1 heq] at hlt
    exact UInt8.lt_irrefl _ hlt

theorem get?_eq_none_iff {table : Table} {byte : UInt8} :
    table.get? byte = none ↔ ∀ t ∈ table.toList, t.byte ≠ byte := by
  simp [get?]

/-- Puts a tag at its place among ascending ones. -/
def place (t : Tag) : List Tag → List Tag
  | [] => [t]
  | u :: rest => if t.byte < u.byte then t :: u :: rest else u :: place t rest

theorem mem_place {t u : Tag} {tags : List Tag} : u ∈ place t tags ↔ u = t ∨ u ∈ tags := by
  induction tags with
  | nil => simp [place]
  | cons v rest ih =>
    unfold place
    split <;> grind

theorem ascending_place {t : Tag} {tags : List Tag} (h : tags.Pairwise (·.byte < ·.byte))
    (new : ∀ u ∈ tags, u.byte ≠ t.byte) : (place t tags).Pairwise (·.byte < ·.byte) := by
  induction tags with
  | nil => simp [place]
  | cons v rest ih =>
    rw [List.pairwise_cons] at h
    unfold place
    split
    · next hlt =>
      refine List.pairwise_cons.2 ⟨fun u hu => ?_, List.pairwise_cons.2 h⟩
      rcases List.mem_cons.1 hu with rfl | hu
      · exact hlt
      · exact UInt8.lt_trans hlt (h.1 u hu)
    · next hge =>
      refine List.pairwise_cons.2 ⟨fun u hu => ?_, ih h.2 fun u hu => new u (.tail _ hu)⟩
      rcases mem_place.1 hu with rfl | hu
      · have hne := new v (.head _)
        exact UInt8.lt_of_le_of_ne (UInt8.not_lt.1 hge) hne
      · exact h.1 u hu

def insert (table : Table) (t : Tag) : Except Error Table :=
  match hf : fault? t with
  | some e => .error e
  | none =>
    match hg : table.get? t.byte with
    | some _ => .error (.duplicate t.byte)
    | none => .ok {
        toList := place t table.toList
        ascending := ascending_place table.ascending (get?_eq_none_iff.1 hg)
        valid := fun u hu => by
          rcases mem_place.1 hu with rfl | hu
          · exact valid_of_fault?_eq_none hf
          · exact table.valid u hu }

/-- The first tag that cannot be inserted after those before it decides the error. -/
def ofList (tags : List Tag) : Except Error Table :=
  tags.foldlM insert empty

/-- The tags of the recorder's own firmware. -/
def standard : Table where
  toList := [
    .timed 0x01 "tick" 2 0,
    .timed 0x02 "adc" 4 0,
    .timed 0x03 "gpio" 3 0,
    .timed 0x04 "can" 12 0,
    .fixed 0x10 "temp" 2,
    .fixed 0x11 "gps" 8,
    .fixed 0x12 "batt" 1,
    .text 0x20 "text",
    .text 0x21 "event"]
  ascending := by decide
  valid := by decide

end Table

end Telemetry.Tag
