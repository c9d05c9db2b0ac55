import Telemetry.Proofs.JsonFields
import Telemetry.Proofs.Requests

/-!
# What answers tell

A client that looks the fields of an answer up by their names finds the values that were written,
since a structure has each field once (`field?_struct`).  So the page of a chunk tells where it ends
and how many records there are, and each of its records is shown as it was decoded
(`Service.Shows`).
-/

namespace Telemetry

namespace Json

/-- The value of a field. -/
def field? (name : String) (j : Json) : Option Json :=
  j.fields? [name] >>= fun f => f.get? name

theorem filter_names {fields : List (String × Json)} (hnodup : (fields.map Prod.fst).Nodup)
    {name : String} {j : Json} (h : (name, j) ∈ fields) :
    fields.filter (·.1 ∈ [name]) = [(name, j)] := by
  obtain ⟨before, after, rfl⟩ := List.append_of_mem h
  have hothers : ∀ p, p ∈ before ∨ p ∈ after → ¬ (decide (p.1 ∈ [name]) = true) := by
    intro p hp heq
    rw [decide_eq_true_eq, List.mem_singleton] at heq
    rw [List.map_append, List.map_cons, List.nodup_middle, List.nodup_cons, ← List.map_append]
      at hnodup
    have hmem := List.mem_map_of_mem (f := Prod.fst) (List.mem_append.2 hp)
    rw [heq] at hmem
    exact hnodup.1 hmem
  rw [List.filter_append, List.filter_eq_nil_iff.2 fun p hp => hothers p (.inl hp),
    List.filter_cons_of_pos (by simp), List.filter_eq_nil_iff.2 fun p hp => hothers p (.inr hp)]
  rfl

/-- Each field of a structure is found by its name. -/
theorem field?_struct {fields : List (String × Json)} (hnodup : (fields.map Prod.fst).Nodup)
    {name : String} {j : Json} (h : (name, j) ∈ fields) :
    (struct fields).field? name = some j := by
  rw [field?, struct_eq, fields?, namedFields_escapedFields]
  simp only [Option.bind_eq_bind, Option.bind_some, filter_names hnodup h, List.map_cons,
    List.map_nil, List.nodup_singleton, if_true, Fields.get?, List.lookup_cons_self]

end Json

namespace Service

open Json

/-- What is told of a record. -/
structure Shows (j : Json) (t : Timed) : Prop where
  ordinal : j.field? "ordinal" = some (nat t.record.ordinal)
  ns : j.field? "absoluteNs" = some (nat t.ns)
  tag : j.field? "tag" = some (nat t.record.tag.toNat)
  offset : j.field? "byteOffset" = some (nat t.record.offset)
  length : j.field? "byteLength" = some (nat t.record.length)
  order : j.field? "order" = some t.order.toJson
  payload : j.field? "rawBytes" = some (text (Bytes.hex t.record.payload))

theorem shows_recordJson (table : Tag.Table) (t : Timed) : Shows (recordJson table t) t := by
  have hnames : (["ordinal", "absoluteNs", "tag", "byteOffset", "byteLength", "rawBytes",
      "renderedText", "order"] : List String).Nodup := by decide
  constructor <;> exact field?_struct (by exact hnames) (by simp)

namespace Response

def field? (r : Response) (name : String) : Option Json :=
  match r.body with
  | .json j => j.field? name
  | .text _ => none

/-- The number that is told under a name. -/
def number? (r : Response) (name : String) : Option Nat :=
  r.field? name >>= word64?

/-- The records that are told; none if the answer is no page. -/
def records (r : Response) : List Json :=
  match r.field? "records" with
  | some (.array items) => items
  | _ => []

/-- A page ends at `stop`, of `total` records in all. -/
structure EndsAt (r : Response) (stop total : Nat) : Prop where
  stop_eq : r.number? "end" = some stop
  total_eq : r.number? "total" = some total

variable (table : Tag.Table) {c : Chunk}

theorem field?_ok_chunkJson {name : String} {j : Json} (h : (name, j) ∈ [
    ("total", nat c.total),
    ("start", nat c.start),
    ("end", nat c.stop),
    ("reorder", c.corrections.toJson),
    ("records", list (recordJson table) c.records)]) :
    (ok (chunkJson table c)).field? name = some j := by
  have hnames : (["total", "start", "end", "reorder", "records"] : List String).Nodup := by decide
  exact field?_struct (by exact hnames) h

theorem endsAt_ok_chunkJson (hstop : c.stop < UInt64.size) (htotal : c.total < UInt64.size) :
    (ok (chunkJson table c)).EndsAt c.stop c.total where
  stop_eq := by
    have hend : (ok (chunkJson table c)).field? "end" = some (nat c.stop) :=
      field?_ok_chunkJson table (by simp)
    rw [number?, hend]
    exact word64?_nat hstop
  total_eq := by
    have hall : (ok (chunkJson table c)).field? "total" = some (nat c.total) :=
      field?_ok_chunkJson table (by simp)
    rw [number?, hall]
    exact word64?_nat htotal

theorem records_ok_chunkJson (c : Chunk) :
    (ok (chunkJson table c)).records = c.records.map (recordJson table) := by
  have hrecords : (ok (chunkJson table c)).field? "records" =
      some (list (recordJson table) c.records) := field?_ok_chunkJson table (by simp)
  rw [records, hrecords]
  rfl

end Response

end Service

end Telemetry
