import Mathlib.Data.List.Induction
import Mathlib.Tactic.Common
import Telemetry.Tag.Table

/-!
# Tables of given tags

A list of tags is made a table if each is valid and no two share a byte (`Listable`), and else the
first that cannot follow those before it decides the error (`Refused`).  A table lists the tags it
was made of by their bytes, so their order in the list does not count (`ofList_listable`).
-/

namespace Telemetry.Tag

/-- Each tag is valid, and no two have the same byte. -/
structure Listable (tags : List Tag) : Prop where
  nodup : (tags.map Tag.byte).Nodup
  valid : ∀ t ∈ tags, t.layout.Valid

/-- What is told of a tag that cannot follow the tags before it. -/
inductive Refused (before : List Tag) (t : Tag) : Table.Error → Prop where
  | tooLong {length : Nat} {timestamp : Option Nat} (hlayout : t.layout = .fixed length timestamp)
      (hlength : maxLength < length) : Refused before t (.tooLong t.byte length)
  | timestampOutside {length position : Nat} (hlayout : t.layout = .fixed length (some position))
      (hlength : length ≤ maxLength) (hposition : length < position + 2) :
      Refused before t (.timestampOutside t.byte length position)
  | duplicate {u : Tag} (hvalid : t.layout.Valid) (hu : u ∈ before) (hbyte : u.byte = t.byte) :
      Refused before t (.duplicate t.byte)

section Lists

variable {tags before : List Tag} {t : Tag} {e : Table.Error}

theorem listable_nil : Listable [] := ⟨.nil, by simp⟩

theorem listable_concat : Listable (tags ++ [t]) ↔
    Listable tags ∧ t.layout.Valid ∧ ∀ u ∈ tags, u.byte ≠ t.byte := by
  have hnodup : ((tags ++ [t]).map Tag.byte).Nodup ↔
      (tags.map Tag.byte).Nodup ∧ ∀ u ∈ tags, u.byte ≠ t.byte := by
    rw [List.map_append, List.nodup_append]
    simp
  constructor
  · rintro ⟨h, hvalid⟩
    obtain ⟨hbefore, hnew⟩ := hnodup.1 h
    exact ⟨⟨hbefore, fun u hu => hvalid u (by simp [hu])⟩, hvalid t (by simp), hnew⟩
  · rintro ⟨h, ht, hnew⟩
    refine ⟨hnodup.2 ⟨h.nodup, hnew⟩, fun u hu => ?_⟩
    rcases List.mem_append.1 hu with hu | hu
    · exact h.valid u hu
    · rwa [List.mem_singleton.1 hu]

theorem Listable.perm (h : Listable tags) (hperm : tags.Perm before) : Listable before :=
  ⟨(hperm.map _).nodup h.nodup, fun t ht => h.valid t (hperm.mem_iff.2 ht)⟩

theorem Refused.perm (h : Refused tags t e) (hperm : tags.Perm before) : Refused before t e := by
  cases h with
  | tooLong hlayout hlength => exact .tooLong hlayout hlength
  | timestampOutside hlayout hlength hposition => exact .timestampOutside hlayout hlength hposition
  | duplicate hvalid hu hbyte => exact .duplicate hvalid (hperm.mem_iff.1 hu) hbyte

/-- A tag that is refused keeps any list that begins so from being made a table. -/
theorem Refused.not_listable (h : Refused before t e) (later : List Tag) :
    ¬ Listable (before ++ t :: later) := by
  intro hlistable
  have hvalid := hlistable.valid t (by simp)
  cases h with
  | @tooLong length timestamp hlayout hlength =>
    rw [hlayout] at hvalid
    cases timestamp <;> simp only [Layout.Valid] at hvalid <;> omega
  | timestampOutside hlayout hlength hposition =>
    rw [hlayout] at hvalid
    simp only [Layout.Valid] at hvalid
    omega
  | @duplicate u _ hu hbyte =>
    have hnodup := hlistable.nodup
    rw [List.map_append, List.nodup_append] at hnodup
    exact hnodup.2.2 u.byte (List.mem_map_of_mem hu) t.byte (by simp) hbyte

end Lists

namespace Table

section Insert

variable {table table' : Table} {t : Tag} {e : Error}

theorem ext_toList (h : table.toList = table'.toList) : table = table' := by
  cases table
  cases table'
  simpa using h

theorem place_perm (t : Tag) (tags : List Tag) : (place t tags).Perm (t :: tags) := by
  induction tags with
  | nil => exact .refl _
  | cons u rest ih =>
    unfold place
    split
    · exact .refl _
    · exact (ih.cons u).trans (.swap t u rest)

theorem fault?_eq_none (h : t.layout.Valid) : fault? t = none := by
  unfold fault?
  rcases hl : t.layout with ⟨length, _ | position⟩ | _ <;> rw [hl] at h <;>
    simp only [Layout.Valid] at h
  · simp [Nat.not_lt.2 h]
  · simp [Nat.not_lt.2 h.1, endsOutside_iff (lt_size_of_le_maxLength h.1), Nat.not_lt.2 h.2]

theorem refused_of_fault? (h : fault? t = some e) (before : List Tag) : Refused before t e := by
  unfold fault? at h
  rcases hl : t.layout with ⟨length, _ | position⟩ | _ <;> rw [hl] at h
  · simp only [Option.ite_none_right_eq_some, Option.some.injEq] at h
    obtain ⟨hlength, rfl⟩ := h
    exact .tooLong hl hlength
  · simp only at h
    split_ifs at h with hlength hposition
    · cases h
      exact .tooLong hl hlength
    · cases h
      have hle := Nat.not_lt.1 hlength
      rw [endsOutside_iff (lt_size_of_le_maxLength hle)] at hposition
      exact .timestampOutside hl hle hposition
  · cases h

theorem insert_of_refused (h : Refused table.toList t e) : table.insert t = .error e := by
  have hfault : fault? t = some e → table.insert t = .error e := by
    intro hfault
    unfold insert
    split <;> simp_all
  cases h with
  | tooLong hlayout hlength =>
    refine hfault ?_
    simp [fault?, hlayout, hlength]
  | timestampOutside hlayout hlength hposition =>
    refine hfault ?_
    simp [fault?, hlayout, Nat.not_lt.2 hlength,
      endsOutside_iff (lt_size_of_le_maxLength hlength), hposition]
  | @duplicate u hvalid hu hbyte =>
    have hnone := fault?_eq_none hvalid
    have hget := get?_of_mem hu
    rw [hbyte] at hget
    unfold insert
    split
    · simp_all
    · split <;> simp_all

/-- A tag is put in its place, or refused. -/
theorem insert_cases (table : Table) (t : Tag) :
    (∃ table', table.insert t = .ok table' ∧ table'.toList = place t table.toList ∧
        t.layout.Valid ∧ ∀ u ∈ table.toList, u.byte ≠ t.byte) ∨
      ∃ e, table.insert t = .error e ∧ Refused table.toList t e := by
  unfold insert
  split
  · next e hfault => exact .inr ⟨e, rfl, refused_of_fault? hfault _⟩
  · next hfault =>
    have hvalid := valid_of_fault?_eq_none hfault
    split
    · next u hget => exact .inr ⟨_, rfl, .duplicate hvalid (mem_of_get? hget) (byte_of_get? hget)⟩
    · next hget => exact .inl ⟨_, rfl, rfl, hvalid, get?_eq_none_iff.1 hget⟩

theorem get?_eq_some_iff {byte : UInt8} :
    table.get? byte = some t ↔ t ∈ table.toList ∧ t.byte = byte := by
  refine ⟨fun h => ⟨mem_of_get? h, byte_of_get? h⟩, ?_⟩
  rintro ⟨hmem, rfl⟩
  exact get?_of_mem hmem

end Insert

section Lists

variable {tags : List Tag} {table : Table} {e : Error}

theorem ofList_concat (tags : List Tag) (t : Tag) :
    ofList (tags ++ [t]) = ofList tags >>= fun table => table.insert t := by
  rw [ofList, List.foldlM_append]
  simp [ofList]

/-- A list of tags is made a table of them, or one is refused that follows a list without fault. -/
theorem ofList_cases (tags : List Tag) :
    (∃ table, ofList tags = .ok table ∧ Listable tags ∧ table.toList.Perm tags) ∨
      ∃ e before t later, ofList tags = .error e ∧ tags = before ++ t :: later ∧
        Listable before ∧ Refused before t e := by
  induction tags using List.reverseRecOn with
  | nil => exact .inl ⟨empty, rfl, listable_nil, .refl _⟩
  | append_singleton tags t ih =>
    rw [ofList_concat]
    rcases ih with ⟨table, hok, hlistable, hperm⟩ | ⟨e, before, u, later, herror, rfl, h⟩
    · rw [hok]
      rcases table.insert_cases t with ⟨table', hinsert, hplace, hvalid, hnew⟩ | ⟨e, hinsert, h⟩
      · refine .inl ⟨table', hinsert, ?_, ?_⟩
        · exact listable_concat.2 ⟨hlistable, hvalid, fun u hu => hnew u (hperm.mem_iff.2 hu)⟩
        · rw [hplace]
          refine (place_perm t _).trans ((hperm.cons t).trans ?_)
          exact (List.perm_append_singleton t tags).symm
      · exact .inr ⟨e, tags, t, [], hinsert, rfl, hlistable, h.perm hperm⟩
    · rw [herror]
      exact .inr ⟨e, before, u, later ++ [t], rfl, by simp, h⟩

theorem exists_ofList_iff : (∃ table, ofList tags = .ok table) ↔ Listable tags := by
  rcases ofList_cases tags with
    ⟨table, hok, hlistable, -⟩ | ⟨e, before, t, later, herror, rfl, -, h⟩
  · exact iff_of_true ⟨table, hok⟩ hlistable
  · refine iff_of_false ?_ (h.not_listable later)
    rintro ⟨table, hok⟩
    rw [hok] at herror
    cases herror

theorem perm_of_ofList (h : ofList tags = .ok table) : table.toList.Perm tags := by
  rcases ofList_cases tags with ⟨table', hok, -, hperm⟩ | ⟨e, _, _, _, herror, -⟩
  · rw [h] at hok
    cases hok
    exact hperm
  · rw [h] at herror
    cases herror

/-- The tags after one that is refused do not count. -/
theorem ofList_of_refused {before : List Tag} {t : Tag} (hbefore : Listable before)
    (h : Refused before t e) (later : List Tag) : ofList (before ++ t :: later) = .error e := by
  obtain ⟨table, hok⟩ := exists_ofList_iff.2 hbefore
  have hinsert := insert_of_refused (h.perm (perm_of_ofList hok).symm)
  have herror : ofList (before ++ [t]) = .error e := by
    rw [ofList_concat, hok]
    exact hinsert
  rw [List.append_cons, ofList, List.foldlM_append]
  exact congrArg (· >>= fun table => later.foldlM insert table) herror

theorem ofList_perm {tags' : List Tag} (h : ofList tags = .ok table) (hperm : tags.Perm tags') :
    ofList tags' = .ok table := by
  have hlistable := (exists_ofList_iff.1 ⟨table, h⟩).perm hperm
  obtain ⟨table', hok⟩ := exists_ofList_iff.2 hlistable
  have hlists : table'.toList.Perm table.toList :=
    (perm_of_ofList hok).trans (hperm.symm.trans (perm_of_ofList h).symm)
  have heq : table'.toList = table.toList :=
    hlists.eq_of_pairwise
      (fun a b _ _ hab hba => absurd (UInt8.lt_trans hab hba) (UInt8.lt_irrefl _))
      table'.ascending table.ascending
  rw [hok, ext_toList heq]

/-- A list is made a table just if each tag is valid and no two share a byte; else the first tag
that cannot follow those before it tells why.  The table finds each tag by its byte, lists all of
them once in the order of their bytes, and is the same for any order of the list. -/
theorem ofList_listable (tags : List Tag) :
    ((∃ table, ofList tags = .ok table) ↔
        (tags.map Tag.byte).Nodup ∧ ∀ t ∈ tags, t.layout.Valid) ∧
      (∀ e, ofList tags = .error e ↔ ∃ before t later, tags = before ++ t :: later ∧
        Listable before ∧ Refused before t e) ∧
      ∀ table, ofList tags = .ok table →
        (∀ byte t, table.get? byte = some t ↔ t ∈ tags ∧ t.byte = byte) ∧
          table.toList.Perm tags ∧ table.toList.Pairwise (·.byte < ·.byte) ∧
          ∀ tags', tags.Perm tags' → ofList tags' = .ok table := by
  refine ⟨?_, fun e => ⟨fun herror => ?_, ?_⟩, fun table hok => ?_⟩
  · rw [exists_ofList_iff]
    exact ⟨fun h => ⟨h.nodup, h.valid⟩, fun h => ⟨h.1, h.2⟩⟩
  · rcases ofList_cases tags with ⟨table, hok, -⟩ | ⟨e', before, t, later, herror', hsplit, h⟩
    · rw [herror] at hok
      cases hok
    · rw [herror] at herror'
      cases herror'
      exact ⟨before, t, later, hsplit, h⟩
  · rintro ⟨before, t, later, rfl, hbefore, h⟩
    exact ofList_of_refused hbefore h later
  · have hperm := perm_of_ofList hok
    refine ⟨fun byte t => ?_, hperm, table.ascending, fun tags' => ofList_perm hok⟩
    rw [get?_eq_some_iff, hperm.mem_iff]

/-- A time stamp that ends with the longest payload, and a tag that is too long before its stamp is
outside and its byte taken. -/
theorem ofList_listable_bounds :
    let far := Tag.timed 5 "far" 65535 65533
    let tags := [.text 0x20 "note", far, .fixed 1 "" 0]
    let faulty := tags ++ [.timed 5 "faulty" 65536 18446744073709551615, .text 0x20 "note"]
    ((tags.map Tag.byte).Nodup ∧ ∀ t ∈ tags, t.layout.Valid) ∧
      (∃ table, ofList tags = .ok table ∧ table.get? 5 = some far ∧ table.toList.Perm tags ∧
        ofList tags.reverse = .ok table) ∧
      ofList faulty = .error (.tooLong 5 65536) := by
  intro far tags faulty
  have hlistable : (tags.map Tag.byte).Nodup ∧ ∀ t ∈ tags, t.layout.Valid := by decide
  obtain ⟨table, hok⟩ := (ofList_listable tags).1.2 hlistable
  obtain ⟨hget, hperm, -, hany⟩ := (ofList_listable tags).2.2 table hok
  refine ⟨hlistable, ⟨table, hok, (hget 5 far).2 (by decide), hperm, ?_⟩, ?_⟩
  · exact hany tags.reverse (List.reverse_perm tags).symm
  · exact ((ofList_listable faulty).2.1 _).2
      ⟨tags, _, [.text 0x20 "note"], rfl, ⟨hlistable.1, hlistable.2⟩, .tooLong rfl (by decide)⟩

end Lists

end Table

end Telemetry.Tag
