import Mathlib.Tactic.Common
import Telemetry.Record.Parser

/-!
# Records one after another

A body is what a record says, wherever it stands.  `placeAll` puts bodies one after another from
some position on: each record begins where the one before it ends (`contiguous_placeAll`), and what
a table says of the bodies holds of the records (`fits_placeAll`).
-/

namespace Telemetry

namespace Record

theorem length_pairs (tag : UInt8) (chars : Bytes) : (pairs tag chars).length = 2 * chars.length := by
  induction chars with
  | nil => rfl
  | cons c rest ih =>
    simp only [pairs, List.flatMap_cons, List.length_append, List.length_cons,
      List.length_nil] at ih ⊢
    omega

theorem pairs_append (tag : UInt8) (chars more : Bytes) :
    pairs tag (chars ++ more) = pairs tag chars ++ pairs tag more :=
  List.flatMap_append

/-- What a record says, wherever it stands. -/
structure Body where
  tag : UInt8
  kind : Kind
  payload : Bytes
  deriving DecidableEq, Repr

def body (r : Record) : Body :=
  ⟨r.tag, r.kind, r.payload⟩

namespace Body

def encode (b : Body) : Bytes :=
  match b.kind with
  | .fixed => Writer.untimed b.tag b.payload
  | .text terminated => pairs b.tag b.payload ++ if terminated then [b.tag, 0] else []

def stamp? (table : Tag.Table) (b : Body) : Option UInt16 :=
  match (table.get? b.tag).map Tag.layout with
  | some (.fixed _ (some position)) => some (Bytes.word16 (b.payload.drop position))
  | _ => none

/-- The record that has the body. -/
def place (table : Tag.Table) (b : Body) (offset ordinal : Nat) : Record where
  ordinal
  tag := b.tag
  kind := b.kind
  payload := b.payload
  offset
  length := b.encode.length
  rawTicks := b.stamp? table

/-- A body that a recorder may write by the table. -/
inductive Valid (table : Tag.Table) : Body → Prop where
  | fixed {tag : UInt8} {payload : Bytes} {t : Tag} {timestamp : Option Nat}
      (ht : table.get? tag = some t) (hl : t.layout = .fixed payload.length timestamp) :
    Valid table ⟨tag, .fixed, payload⟩
  | text {tag : UInt8} {payload : Bytes} {t : Tag} {terminated : Bool}
      (ht : table.get? tag = some t) (hl : t.layout = .text) (hzero : 0 ∉ payload)
      (hlen : payload.length ≤ maxTextLength) (hne : terminated = false → payload ≠ []) :
    Valid table ⟨tag, .text terminated, payload⟩

variable {table : Tag.Table} {b : Body}

theorem Valid.length_encode_pos (h : b.Valid table) : 0 < b.encode.length := by
  cases h with
  | fixed => simp [encode, Writer.untimed]
  | @text tag payload t terminated _ _ _ _ hne =>
    cases terminated with
    | true => simp [encode]
    | false =>
      have := List.length_pos_iff.2 (hne rfl)
      simp only [encode, Bool.false_eq_true, if_false, List.append_nil, length_pairs]
      omega

end Body

/-- What a table says of the records of its tags. -/
inductive Fits (table : Tag.Table) (r : Record) : Prop where
  | untimed {t : Tag} {length : Nat} (ht : table.get? r.tag = some t)
      (hl : t.layout = .fixed length none) (hkind : r.kind = .fixed)
      (hlen : r.payload.length = length) (hticks : r.rawTicks = none)
  | timed {t : Tag} {length position : Nat} {lo hi : UInt8} {ticks : UInt16}
      (ht : table.get? r.tag = some t) (hl : t.layout = .fixed length (some position))
      (hkind : r.kind = .fixed) (hlen : r.payload.length = length)
      (hlo : r.payload[position]? = some lo) (hhi : r.payload[position + 1]? = some hi)
      (hticks : r.rawTicks = some ticks) (hvalue : ticks.toNat = lo.toNat + 256 * hi.toNat)
  | text {t : Tag} {terminated : Bool} (ht : table.get? r.tag = some t) (hl : t.layout = .text)
      (hkind : r.kind = .text terminated) (hzero : 0 ∉ r.payload) (hticks : r.rawTicks = none)

theorem toNat_word16 (lo hi : UInt8) (rest : Bytes) :
    (Bytes.word16 (lo :: hi :: rest)).toNat = lo.toNat + 256 * hi.toNat := by
  have hlo := lo.toNat_lt
  have hhi := hi.toNat_lt
  rw [Bytes.word16, UInt16.toNat_ofNat']
  omega

theorem Body.Valid.fits {table : Tag.Table} {b : Body} (h : b.Valid table) (offset ordinal : Nat) :
    (b.place table offset ordinal).Fits table := by
  cases h with
  | @fixed tag payload t timestamp ht hl =>
    have hvalid := Tag.Table.valid_of_get? ht
    rw [hl] at hvalid
    cases timestamp with
    | none =>
      refine .untimed ht hl rfl rfl ?_
      simp only [place, stamp?, ht, Option.map_some, hl]
    | some position =>
      -- the stamp lies inside the payload, so no byte of it is missing
      obtain ⟨-, hpos⟩ : payload.length ≤ Tag.maxLength ∧ position + 2 ≤ payload.length := hvalid
      have hdrop : payload.drop position =
          payload[position] :: payload[position + 1] :: payload.drop (position + 2) := by
        rw [List.drop_eq_getElem_cons (by omega), List.drop_eq_getElem_cons (by omega)]
      have hlo : payload[position]? = some payload[position] := List.getElem?_eq_getElem _
      have hhi : payload[position + 1]? = some payload[position + 1] := List.getElem?_eq_getElem _
      have hticks : (place table ⟨tag, .fixed, payload⟩ offset ordinal).rawTicks =
          some (Bytes.word16 (payload.drop position)) := by
        simp only [place, stamp?, ht, Option.map_some, hl]
      refine .timed ht hl rfl rfl hlo hhi hticks ?_
      rw [hdrop, toNat_word16]
  | text ht hl hzero =>
    refine .text ht hl rfl hzero ?_
    simp only [place, stamp?, ht, Option.map_some, hl]

/-- The records of some bodies, the first one at `offset` and with `ordinal`. -/
def placeAll (table : Tag.Table) : List Body → (offset ordinal : Nat) → List Record
  | [], _, _ => []
  | b :: bs, offset, ordinal =>
    b.place table offset ordinal :: placeAll table bs (offset + b.encode.length) (ordinal + 1)

/-- The records are numbered, and each one begins where the one before it ends. -/
structure Contiguous (records : List Record) : Prop where
  ordinal_eq : ∀ (i : Nat) (r : Record), records[i]? = some r → r.ordinal = i
  offset_first : ∀ r, records[0]? = some r → r.offset = 0
  offset_next : ∀ (i : Nat) (r r' : Record), records[i]? = some r → records[i + 1]? = some r' →
    r'.offset = r.offset + r.length
  length_pos : ∀ r ∈ records, 1 ≤ r.length
  length_eq : ∀ r ∈ records, r.length = r.encode.length

/-- The position right after the last record. -/
def stop (records : List Record) : Nat :=
  (records.getLast?.map fun r => r.offset + r.length).getD 0

section Placement

variable (table : Tag.Table)

theorem length_placeAll (bs : List Body) (offset ordinal : Nat) :
    (placeAll table bs offset ordinal).length = bs.length := by
  induction bs generalizing offset ordinal with
  | nil => rfl
  | cons b bs ih => simp [placeAll, ih]

theorem placeAll_append (bs bs' : List Body) (offset ordinal : Nat) :
    placeAll table (bs ++ bs') offset ordinal = placeAll table bs offset ordinal ++
      placeAll table bs' (offset + (bs.flatMap Body.encode).length) (ordinal + bs.length) := by
  induction bs generalizing offset ordinal with
  | nil => rfl
  | cons b bs ih =>
    rw [List.cons_append, placeAll, placeAll, ih, List.flatMap_cons, List.length_append,
      List.length_cons, Nat.add_assoc offset, Nat.add_assoc ordinal, Nat.add_comm 1]
    rfl

theorem take_placeAll_append (bs bs' : List Body) (offset ordinal : Nat) :
    (placeAll table (bs ++ bs') offset ordinal).take bs.length =
      placeAll table bs offset ordinal := by
  rw [placeAll_append, List.take_left' (length_placeAll table bs offset ordinal)]

theorem map_body_placeAll (bs : List Body) (offset ordinal : Nat) :
    (placeAll table bs offset ordinal).map body = bs := by
  induction bs generalizing offset ordinal with
  | nil => rfl
  | cons b bs ih =>
    rw [placeAll, List.map_cons, ih]
    rfl

theorem flatMap_encode_placeAll (bs : List Body) (offset ordinal : Nat) :
    (placeAll table bs offset ordinal).flatMap encode = bs.flatMap Body.encode := by
  have h := congrArg (List.flatMap Body.encode) (map_body_placeAll table bs offset ordinal)
  rw [List.flatMap_map] at h
  exact h

theorem getElem?_placeAll (bs : List Body) (offset ordinal i : Nat) :
    (placeAll table bs offset ordinal)[i]? = bs[i]?.map fun b =>
      b.place table (offset + ((bs.take i).flatMap Body.encode).length) (ordinal + i) := by
  induction bs generalizing offset ordinal i with
  | nil => rfl
  | cons b bs ih =>
    cases i with
    | zero => rfl
    | succ i =>
      rw [placeAll, List.getElem?_cons_succ, List.getElem?_cons_succ, ih, List.take_succ_cons,
        List.flatMap_cons, List.length_append, Nat.add_assoc offset, Nat.add_assoc ordinal,
        Nat.add_comm 1 i]

/-- A record begins where the one before it ends. -/
theorem offset_next_placeAll (bs : List Body) (offset ordinal : Nat) {i : Nat} {r r' : Record}
    (hr : (placeAll table bs offset ordinal)[i]? = some r)
    (hr' : (placeAll table bs offset ordinal)[i + 1]? = some r') :
    r'.offset = r.offset + r.length := by
  rw [getElem?_placeAll, Option.map_eq_some_iff] at hr hr'
  obtain ⟨b, hb, rfl⟩ := hr
  obtain ⟨b', -, rfl⟩ := hr'
  simp only [Body.place, List.take_add_one, hb, Option.toList_some, List.flatMap_append,
    List.flatMap_cons, List.flatMap_nil, List.append_nil, List.length_append]
  omega

theorem stop_placeAll (bs : List Body) :
    stop (placeAll table bs 0 0) = (bs.flatMap Body.encode).length := by
  rw [stop, List.getLast?_eq_getElem?, length_placeAll, getElem?_placeAll]
  rcases bs.eq_nil_or_concat with rfl | ⟨bs, b, rfl⟩
  · rfl
  · simp [Body.place]

variable {table} {bs : List Body} (h : ∀ b ∈ bs, b.Valid table)

include h in
theorem fits_placeAll (offset ordinal : Nat) :
    ∀ r ∈ placeAll table bs offset ordinal, r.Fits table := by
  intro r hr
  obtain ⟨i, hi⟩ := List.mem_iff_getElem?.1 hr
  rw [getElem?_placeAll, Option.map_eq_some_iff] at hi
  obtain ⟨b, hb, rfl⟩ := hi
  exact (h b (List.mem_of_getElem? hb)).fits _ _

include h in
theorem contiguous_placeAll : Contiguous (placeAll table bs 0 0) where
  ordinal_eq i r hr := by
    rw [getElem?_placeAll, Option.map_eq_some_iff] at hr
    obtain ⟨b, -, rfl⟩ := hr
    exact Nat.zero_add i
  offset_first r hr := by
    rw [getElem?_placeAll, Option.map_eq_some_iff] at hr
    obtain ⟨b, -, rfl⟩ := hr
    rfl
  offset_next i _ _ hr hr' := offset_next_placeAll table bs 0 0 hr hr'
  length_pos r hr := by
    obtain ⟨i, hi⟩ := List.mem_iff_getElem?.1 hr
    rw [getElem?_placeAll, Option.map_eq_some_iff] at hi
    obtain ⟨b, hb, rfl⟩ := hi
    exact (h b (List.mem_of_getElem? hb)).length_encode_pos
  length_eq r hr := by
    obtain ⟨i, hi⟩ := List.mem_iff_getElem?.1 hr
    rw [getElem?_placeAll, Option.map_eq_some_iff] at hi
    obtain ⟨b, -, rfl⟩ := hi
    rfl

end Placement

end Record

end Telemetry
