import Mathlib.Data.List.Nodup
import Telemetry.Codec.Tag
import Telemetry.Proofs.JsonText

/-!
# Fields that are read back

What is written for a number, a text, a list or a value that may be missing is read as what it was
written for.  The fields of a structure are found under their names (`fields?_struct`), and so are
those among them that are set aside at first (`setAside?_struct`, `chosen?_of_nodup`).
-/

namespace Telemetry.Json

theorem mapM_map_of_mem {α β : Type} {f : β → Option α} {g : α → β} {xs : List α}
    (h : ∀ x ∈ xs, f (g x) = some x) : (xs.map g).mapM f = some xs := by
  induction xs with
  | nil => rfl
  | cons x xs ih =>
    rw [List.map_cons, List.mapM_cons, h x List.mem_cons_self,
      ih fun y hy => h y (List.mem_cons_of_mem x hy)]
    rfl

variable {α : Type} {read : Json → Option α} {write : α → Json}

/-! ## Values -/

theorem nat?_nat {limit n : Nat} (h : n < limit) : (nat n).nat? limit = some n := by
  have hread := Text.Decimal.readDigits_decimal h []
  rw [List.append_nil] at hread
  rw [nat, nat?, hread]
  rfl

@[simp] theorem byte?_nat (b : UInt8) : (nat b.toNat).byte? = some b := by
  rw [byte?, nat?_nat b.toNat_lt, Option.map_some, UInt8.ofNat_toNat]

@[simp] theorem word16?_nat (w : UInt16) : (nat w.toNat).word16? = some w := by
  rw [word16?, nat?_nat w.toNat_lt, Option.map_some, UInt16.ofNat_toNat]

theorem word32?_nat {n : Nat} (h : n < UInt32.size) : (nat n).word32? = some n :=
  nat?_nat h

theorem word64?_nat {n : Nat} (h : n < Word.size) : (nat n).word64? = some n :=
  nat?_nat h

@[simp] theorem bool?_bool (b : Bool) : (bool b).bool? = some b :=
  rfl

@[simp] theorem text?_text (s : String) : (text s).text? = some s := by
  rw [text, text?, unescape_escape, Option.map_some, String.ofList_toList]

theorem list?_list {items : List α} (h : ∀ a ∈ items, read (write a) = some a) :
    list? read (list write items) = some items :=
  mapM_map_of_mem h

theorem option?_of_ne_null {j : Json} {a : α} (hnull : j ≠ null) (h : read j = some a) :
    option? read j = some (some a) := by
  rw [option?, h, Option.map_some]
  exact hnull

theorem option?_ofOption {a : Option α} (hnull : ∀ x, write x ≠ null)
    (h : ∀ x ∈ a, read (write x) = some x) : option? read (ofOption write a) = some a := by
  rcases a with _ | x
  · rfl
  · exact option?_of_ne_null (hnull x) (h x rfl)

theorem plain_list {items : List α} (h : ∀ a ∈ items, (write a).Plain) :
    (list write items).Plain := by
  refine .array fun j hj => ?_
  obtain ⟨a, ha, rfl⟩ := List.mem_map.1 hj
  exact h a ha

theorem plain_ofOption {a : Option α} (h : ∀ x ∈ a, (write x).Plain) :
    (ofOption write a).Plain := by
  rcases a with _ | x
  · exact .null
  · exact h x rfl

theorem isReadable_nat {n : Nat} (h : n < Word.size) (room : Nat) :
    isReadable room (nat n) = true := by
  rw [nat, isReadable, Double.isFiniteLexeme_decimal h]

theorem isReadable_text (s : String) (room : Nat) : isReadable room (text s) = true := by
  rw [text, isReadable, unescape_escape]
  rfl

/-! ## Structures -/

section Struct

variable {names : List String} {fields : List (String × Json)}

theorem namedFields_escapedFields (fields : List (String × Json)) :
    namedFields (escapedFields fields) = some fields := by
  refine mapM_map_of_mem fun p _ => ?_
  simp [unescape_escape]

/-- A structure that has only known fields. -/
@[simp] theorem fields?_struct (hnames : fields.map Prod.fst = names) (hnodup : names.Nodup) :
    (struct fields).fields? names = some ⟨fields, true⟩ := by
  have hknown : fields.filter (·.1 ∈ names) = fields := by
    refine List.filter_eq_self.2 fun p hp => ?_
    rw [decide_eq_true_eq, ← hnames]
    exact List.mem_map_of_mem hp
  rw [struct_eq, fields?, namedFields_escapedFields]
  simp only [Option.bind_eq_bind, Option.bind_some, hknown, hnames, if_pos hnodup]

/-- The fields of a structure that are read at once, and those that are set aside. -/
theorem setAside?_struct {room : Nat} {known other : List (String × Json)}
    (hknown : fields.filter (·.1 ∈ names) = known) (hother : fields.filter (·.1 ∉ names) = other)
    (hnodup : (known.map Prod.fst).Nodup) (hreadable : ∀ p ∈ other, isReadable room p.2 = true) :
    (struct fields).setAside? room names = some (⟨known, true⟩, other) := by
  have hrest : fields.filter (not ∘ (·.1 ∈ names)) = other := by
    simpa [Function.comp_def] using hother
  rw [struct_eq, setAside?, namedFields_escapedFields]
  simp only [Option.bind_eq_bind, Option.bind_some, List.partition_eq_filter_filter, hknown, hrest]
  exact if_pos ⟨hnodup, List.all_eq_true.2 hreadable⟩

@[simp] theorem Fields.get?_nil (named : Bool) (name : String) :
    (Fields.mk [] named).get? name = none :=
  rfl

@[simp] theorem Fields.get?_cons (f : String × Json) (fields : List (String × Json)) (named : Bool)
    (name : String) : (Fields.mk (f :: fields) named).get? name =
      if name = f.1 then some f.2 else (Fields.mk fields named).get? name := by
  obtain ⟨other, j⟩ := f
  rw [Fields.get?, List.lookup_cons]
  split_ifs with h
  · rw [beq_iff_eq.2 h]
  · rw [beq_eq_false_iff_ne.2 h, Fields.get?]

theorem chosen?_of_nodup (hnodup : (fields.map Prod.fst).Nodup) (names : List String) :
    chosen? names fields = some ⟨fields.filter (·.1 ∈ names), true⟩ :=
  if_pos (hnodup.sublist (List.filter_sublist.map Prod.fst))

@[simp] theorem variant?_variant (name : String) (fields : List (String × Json)) :
    (variant name fields).variant? = some (name, some (struct fields)) := by
  have hname : unescape (escape name.toList) = some name.toList := unescape_escape _
  change (unescape (escape name.toList)).map _ = _
  rw [hname, Option.map_some, String.ofList_toList]

@[simp] theorem variantFields?_struct (hnames : fields.map Prod.fst = names)
    (hnodup : names.Nodup) : variantFields? names (some (struct fields)) = some ⟨fields, true⟩ :=
  fields?_struct hnames hnodup

theorem plain_variant (name : String) (h : ∀ f ∈ fields, f.2.Plain) : (variant name fields).Plain :=
  .struct fun _ hf => by
    rw [List.mem_singleton.1 hf]
    exact .struct h

@[simp] theorem variant?_text (s : String) : (text s).variant? = some (s, none) := by
  rw [text, variant?, unescape_escape, Option.map_some, String.ofList_toList]

end Struct

end Telemetry.Json
