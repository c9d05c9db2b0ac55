import Telemetry.Proofs.Accounting
import Telemetry.Proofs.Exchange
import Telemetry.Proofs.Finality
import Telemetry.Record.Display

/-!
# The text of a record tells its bytes

What is shown of a record of a fixed length leaves nothing out: with the name of the tag and the
layout at hand, its payload and its time stamp are read back from it (`readBack?`), the two bytes of
the stamp put back where they were cut out.  That takes a record that fits the table
(`Fits.readBack?_display`); of one whose payload has another length, a stamp alone is shown.

No session ever has such a record.  A look at the window completes a record of a fixed length only
as the table tells (`fits_of_complete`), a step keeps what it holds back and parses so
(`Keeps.step`), and hence so does a run, whatever its source delivers (`Keeps.fits_decoded`).
-/

namespace Telemetry

namespace Record

/-- The payload and the time stamp, read back from what is shown after the name of the tag: the
digits of the stamp, and those of the bytes around it. -/
def readShown? : Tag.Layout → List Char → Option (Bytes × Option UInt16)
  | .fixed _ none, shown => do
    let payload ← Bytes.ofHexChars? (shown.drop 1)
    return (payload, none)
  | .fixed _ (some position), shown => do
    let stamp ← Bytes.ofHexChars? ((shown.drop 6).take 4)
    let others ← Bytes.ofHexChars? (shown.drop 11)
    return (others.take position ++ stamp.reverse ++ others.drop position,
      some (Bytes.word16 stamp.reverse))
  | .text, _ => none

/-- The payload and the time stamp of a record of the tag, read back from its text. -/
def readBack? (table : Tag.Table) (tag : UInt8) (text : String) :
    Option (Bytes × Option UInt16) := do
  let t ← table.get? tag
  readShown? t.layout (text.toList.drop t.name.length)

theorem drop_spacedHex (bytes : Bytes) :
    (spacedHex bytes).toList.drop 1 = Bytes.hexChars bytes := by
  cases bytes with
  | nil => rfl
  | cons b rest => simp [spacedHex, Bytes.hex]

/-- What is shown of a time stamp with the bytes `lo` and `hi`. -/
def shownStamp (lo hi : UInt8) : List Char :=
  [' ', 't', 's', '=', '0', 'x'] ++ Bytes.hexChars [hi, lo]

/-- The digits of a stamp are those of its two bytes, the high one first. -/
theorem toList_ticksHex {ticks : UInt16} {lo hi : UInt8}
    (h : ticks.toNat = lo.toNat + 256 * hi.toNat) :
    (ticksHex ticks).toList = Bytes.hexChars [hi, lo] := by
  have hlo := lo.toNat_lt
  have hhi := hi.toNat_lt
  have hhigh : UInt8.ofNat (ticks.toNat / 256) = hi := by
    apply UInt8.toNat.inj
    rw [UInt8.toNat_ofNat']
    omega
  have hlow : UInt8.ofNat ticks.toNat = lo := by
    apply UInt8.toNat.inj
    rw [UInt8.toNat_ofNat']
    omega
  rw [ticksHex, hhigh, hlow, Bytes.hex, String.toList_ofList]

section ReadShown

variable (length position : Nat) (lo hi : UInt8) (bytes : Bytes)

theorem readShown?_untimed :
    readShown? (.fixed length none) (spacedHex bytes).toList = some (bytes, none) := by
  simp only [readShown?, drop_spacedHex, Bytes.ofHexChars?_hexChars, Option.bind_eq_bind,
    Option.bind_some, Option.pure_def]

/-- The stamp is put back where it was cut out. -/
theorem readShown?_timed :
    readShown? (.fixed length (some position)) (shownStamp lo hi ++ (spacedHex bytes).toList) =
      some (bytes.take position ++ [lo, hi] ++ bytes.drop position,
        some (Bytes.word16 [lo, hi])) := by
  have hstamp : ((shownStamp lo hi ++ (spacedHex bytes).toList).drop 6).take 4 =
      Bytes.hexChars [hi, lo] := rfl
  have hothers : (shownStamp lo hi ++ (spacedHex bytes).toList).drop 11 =
      (spacedHex bytes).toList.drop 1 := rfl
  simp only [readShown?, hstamp, hothers, drop_spacedHex, Bytes.ofHexChars?_hexChars,
    Option.bind_eq_bind, Option.bind_some, Option.pure_def]
  rfl

end ReadShown

/-- The bytes around the stamp and the stamp between them are the payload. -/
theorem take_cut_drop {bytes : Bytes} {position : Nat} {lo hi : UInt8}
    (hlo : bytes[position]? = some lo) (hhi : bytes[position + 1]? = some hi) :
    let others := bytes.take position ++ bytes.drop (position + 2)
    others.take position ++ [lo, hi] ++ others.drop position = bytes := by
  intro others
  obtain ⟨hlt, rfl⟩ := List.getElem?_eq_some_iff.1 hlo
  obtain ⟨hlt', rfl⟩ := List.getElem?_eq_some_iff.1 hhi
  have hlen : (bytes.take position).length = position := List.length_take_of_le (by omega)
  have hdrop : bytes.drop position =
      bytes[position] :: bytes[position + 1] :: bytes.drop (position + 2) := by
    rw [List.drop_eq_getElem_cons (by omega), List.drop_eq_getElem_cons (by omega)]
  rw [List.take_left' hlen, List.drop_left' hlen, List.append_assoc]
  change bytes.take position ++ _ :: _ :: bytes.drop (position + 2) = bytes
  rw [← hdrop, List.take_append_drop]

variable {table : Tag.Table} {r : Record}

theorem readBack?_of_shown {t : Tag} {shown : List Char} (ht : table.get? r.tag = some t)
    (hshown : (r.display table).toList = t.name.toList ++ shown) :
    readBack? table r.tag (r.display table) = readShown? t.layout shown := by
  simp only [readBack?, ht, Option.bind_eq_bind, Option.bind_some, hshown, ← String.length_toList,
    List.drop_left]

/-- The text of a record that fits the table tells its bytes. -/
theorem Fits.readBack?_display (h : r.Fits table) (hkind : r.kind = .fixed) :
    readBack? table r.tag (r.display table) = some (r.payload, r.rawTicks) := by
  cases h with
  | @untimed t length ht hl _ hlen hticks =>
    have hshown : (r.display table).toList = t.name.toList ++ (spacedHex r.payload).toList := by
      simp [display, tagName, hkind, hticks, ht]
    rw [readBack?_of_shown ht hshown, hl, readShown?_untimed, hticks]
  | @timed t length position lo hi ticks ht hl _ hlen hlo hhi hticks hvalue =>
    have hat : r.timestampAt table = some position := by simp [timestampAt, ht, hl, hlen]
    have hcut : r.unstamped table = r.payload.take position ++ r.payload.drop (position + 2) := by
      rw [unstamped, hat]
    have hword : Bytes.word16 [lo, hi] = ticks := by
      apply UInt16.toNat.inj
      rw [toNat_word16, hvalue]
    have hshown : (r.display table).toList = t.name.toList ++
        (shownStamp lo hi ++ (spacedHex (r.unstamped table)).toList) := by
      simp [display, tagName, hkind, hticks, ht, toList_ticksHex hvalue, shownStamp]
    rw [readBack?_of_shown ht hshown, hl, readShown?_timed, hcut, take_cut_drop hlo hhi, hword,
      hticks]
  | text _ _ hkind' =>
    rw [hkind] at hkind'
    cases hkind'

namespace Parser

variable {p p' : Parser} {window rest : Bytes} {tag : UInt8} {offset ordinal n : Nat}

theorem kind_ne_of_close {text : OpenText} {stop : Nat} {terminated : Bool}
    (h : text.close stop ordinal terminated = .ok r) : r.kind ≠ .fixed := by
  unfold OpenText.close at h
  simp only [bind, Except.bind, pure, Except.pure] at h
  grind

theorem kind_ne_of_decideText
    (h : p.decideText tag rest offset ordinal = .ok (.complete r n, p')) : r.kind ≠ .fixed := by
  unfold decideText at h
  simp only [bind, Except.bind, pure, Except.pure] at h
  repeat' split at h
  all_goals grind [→ kind_ne_of_close]

theorem fits_of_decideFixed {t : Tag} {length : Nat} {timestamp : Option Nat}
    (ht : p.table.get? tag = some t) (hl : t.layout = .fixed length timestamp)
    (h : p.decideFixed length timestamp tag rest offset ordinal = (.complete r n, p')) :
    r.Fits p.table := by
  by_cases hlen : rest.length < length
  · have htake : (rest.take length).length < length := by
      rw [List.length_take]
      omega
    simp only [decideFixed, if_pos htake] at h
    cases h
  · obtain ⟨payload, more, rfl, rfl⟩ : ∃ payload more, rest = payload ++ more ∧
        length = payload.length :=
      ⟨rest.take length, rest.drop length, (List.take_append_drop _ _).symm, by
        rw [List.length_take]
        omega⟩
    rw [decideFixed_append ht hl] at h
    cases h
    exact Body.Valid.fits (.fixed ht hl) offset ordinal

/-- A record of a fixed length is completed only as the table tells. -/
theorem fits_of_complete (h : p.decode window offset ordinal = .ok (.complete r n, p'))
    (hkind : r.kind = .fixed) : r.Fits p.table := by
  unfold decode at h
  split at h
  · simp [pure, Except.pure] at h
  · split at h
    · simp only [bind, Except.bind, pure, Except.pure] at h
      grind [→ kind_ne_of_close]
    · split at h
      · simp [pure, Except.pure] at h
      · next t ht =>
        split at h
        · next length timestamp hl => exact fits_of_decideFixed ht hl (Except.ok.inj h)
        · exact absurd hkind (kind_ne_of_decideText h)

theorem table_of_decode {d : Decision} (h : p.decode window offset ordinal = .ok (d, p')) :
    p'.table = p.table := by
  cases leaves_of_decode h <;> rfl

end Parser

end Record

namespace Session

/-- The session decodes by the table, and what it holds back fits it. -/
structure Keeps (s : Session) (table : Tag.Table) : Prop where
  table_eq : s.parser.table = table
  fits : ∀ r ∈ s.heldBack.map Timed.record, r.kind = .fixed → r.Fits table

/-- The records that a run parsed and those that it emitted. -/
def Run.decoded {σ : Type} (r : Run σ) : List Record :=
  r.records ++ r.emitted.toList.map Timed.record

section Decoded

variable {σ : Type} {run : Run σ} {r : Record}

theorem mem_decoded_of_emitted {t : Timed} :
    r ∈ { run with emitted := #[t] ++ run.emitted }.decoded ↔ r = t.record ∨ r ∈ run.decoded := by
  simp [Run.decoded, Run.records, or_left_comm]

theorem mem_decoded_of_parsed {o : Observation} :
    r ∈ { run with observed := #[o] ++ run.observed }.decoded ↔ r = o.record ∨ r ∈ run.decoded := by
  simp [Run.decoded, Run.records]

end Decoded

section Keeps

variable {σ : Type} [Source σ] {table : Tag.Table} {s s' : Session} {source source' : σ} {e : Event}

theorem parsed_of_refill (h : s.refill source = (.ok (e, s'), source')) :
    s'.parser = s.parser ∧ e.parsed? = none := by
  unfold refill stop at h
  repeat' split at h
  all_goals grind [Event.parsed?]

theorem parsed_of_examine (h : s.examine source = (.ok (e, s'), source')) :
    s'.parser.table = s.parser.table ∧
      ∀ r ∈ e.parsed?.map Observation.record, r.kind = .fixed → r.Fits s.parser.table := by
  unfold examine at h
  split at h
  · simp at h
  · next r n parser hd =>
    split at h
    · simp at h
    · next after ha =>
      obtain ⟨rfl, rfl, rfl⟩ := eq_of_ok_eq h
      obtain ⟨-, -, hparser, -⟩ := accept_eq_ok ha
      refine ⟨?_, ?_⟩
      · rw [hparser, Record.Parser.table_of_decode hd]
      · rintro r' hr'
        cases hr'
        exact Record.Parser.fits_of_complete hd
  · next n parser hd =>
    split at h
    · simp at h
    · obtain ⟨rfl, rfl, rfl⟩ := eq_of_ok_eq h
      exact ⟨Record.Parser.table_of_decode hd, by simp [Event.parsed?]⟩
  · obtain ⟨hparser, hparsed⟩ := parsed_of_refill h
    simp [hparser, hparsed]
  · obtain ⟨rfl, rfl, rfl⟩ := eq_of_ok_eq h
    exact ⟨rfl, by simp [Event.parsed?]⟩

/-- A step parses by the table of the session, and keeps it. -/
theorem parsed_of_step (h : s.step source = (.ok (e, s'), source')) :
    s'.parser.table = s.parser.table ∧
      ∀ r ∈ e.parsed?.map Observation.record, r.kind = .fixed → r.Fits s.parser.table := by
  unfold step at h
  split at h
  · obtain ⟨rfl, rfl, rfl⟩ := eq_of_ok_eq h
    exact ⟨rfl, by simp [Event.parsed?]⟩
  · split at h
    · obtain ⟨rfl, rfl, rfl⟩ := eq_of_ok_eq h
      exact ⟨rfl, by simp [Event.parsed?]⟩
    · split at h
      · obtain ⟨rfl, rfl, rfl⟩ := eq_of_ok_eq h
        exact ⟨rfl, by simp [Event.parsed?]⟩
      · rw [look_eq_examine] at h
        exact parsed_of_examine h

theorem Keeps.step (hk : s.Keeps table) (h : s.step source = (.ok (e, s'), source')) :
    s'.Keeps table ∧
      (∀ r ∈ e.parsed?.map Observation.record, r.kind = .fixed → r.Fits table) ∧
      ∀ r ∈ e.emitted?.map Timed.record, r.kind = .fixed → r.Fits table := by
  obtain ⟨htable, hparsed⟩ := parsed_of_step h
  rw [hk.table_eq] at htable hparsed
  have hall : ∀ r ∈ (e.emitted?.toList ++ s'.heldBack).map Timed.record,
      r.kind = .fixed → r.Fits table := by
    intro r hr
    rcases List.mem_append.1 ((step_stepped h).conserves.mem_iff.1 hr) with hr | hr
    · exact hk.fits r hr
    · exact hparsed r (by simpa using hr)
  rw [List.map_append] at hall
  exact ⟨⟨htable, fun r hr => hall r (List.mem_append_right _ hr)⟩, hparsed,
    fun r hr => hall r (List.mem_append_left _ (by simpa using hr))⟩

/-- Whatever the source delivers, and wherever the run stops, its records fit the table. -/
theorem Keeps.fits_decoded (s : Session) (source : σ) : s.Keeps table →
    ∀ r ∈ (s.run source).decoded, r.kind = .fixed → r.Fits table := by
  refine run_induction (motive := fun s _ run => s.Keeps table →
    ∀ r ∈ run.decoded, r.kind = .fixed → r.Fits table) ?_ ?_ ?_ ?_ ?_ s source
  · intro s source f source' _ _ r hr
    simp [Run.decoded, Run.records] at hr
  · intro s source s' source' _ _ r hr
    simp [Run.decoded, Run.records] at hr
  · intro s source t s' source' h ih hk r hr
    obtain ⟨hk', -, hemitted⟩ := hk.step h
    rcases mem_decoded_of_emitted.1 hr with rfl | hr
    · exact hemitted _ rfl
    · exact ih hk' r hr
  · intro s source o s' source' h ih hk r hr
    obtain ⟨hk', hparsed, -⟩ := hk.step h
    rcases mem_decoded_of_parsed.1 hr with rfl | hr
    · exact hparsed _ rfl
    · exact ih hk' r hr
  · intro s source s' source' h ih hk
    exact ih (hk.step h).1

end Keeps

/-- A session that goes by the table and holds nothing back, such as one that resumes anywhere. -/
structure Opens (s : Session) (table : Tag.Table) : Prop where
  table_eq : s.parser.table = table
  heldBack_eq : s.heldBack = []

theorem opens_resume (table : Tag.Table) (clock : Clock.Config) (start : Start) :
    (resume table clock start).Opens table :=
  ⟨rfl, rfl⟩

theorem Opens.withLimit {s : Session} {table : Tag.Table} (h : s.Opens table) (limit : Nat) :
    (s.withLimit limit).Opens table :=
  ⟨h.table_eq, h.heldBack_eq⟩

theorem Opens.keeps {s : Session} {table : Tag.Table} (h : s.Opens table) : s.Keeps table :=
  ⟨h.table_eq, by simp [h.heldBack_eq]⟩

/-- Records of one tag that show the same text have the same bytes, and these can be read back from
the text, whatever streams the records come from. -/
theorem payload_eq_of_display {σ τ : Type} [Source σ] [Source τ] {table : Tag.Table}
    {s s' : Session} (hs : s.Opens table) (hs' : s'.Opens table) (source : σ) (source' : τ)
    {r r' : Record} (hr : r ∈ (s.run source).decoded) (hr' : r' ∈ (s'.run source').decoded)
    (hkind : r.kind = .fixed) (hkind' : r'.kind = .fixed) (htag : r.tag = r'.tag) :
    Record.readBack? table r.tag (r.display table) = some (r.payload, r.rawTicks) ∧
      (r.display table = r'.display table → r.payload = r'.payload ∧ r.rawTicks = r'.rawTicks) := by
  have hread := (hs.keeps.fits_decoded s source r hr hkind).readBack?_display hkind
  have hread' := (hs'.keeps.fits_decoded s' source' r' hr' hkind').readBack?_display hkind'
  refine ⟨hread, fun h => ?_⟩
  rw [h, htag, hread'] at hread
  obtain ⟨hpayload, hticks⟩ := Prod.mk.inj (Option.some.inj hread)
  exact ⟨hpayload.symm, hticks.symm⟩

/-- A stamp at the end of the payload, in a stream from its beginning and in one resumed inside. -/
theorem payload_eq_of_display_last :
    let table : Tag.Table :=
      ⟨[.timed 5 "pair" 4 2, .timed 6 "bare" 2 0], by decide, by decide⟩
    let s := new table {}
    let s' := (resume table {} { ordinal := 1, offset := 3 }).withLimit 2
    let source := Memory.plain [5, 0xaa, 0xbb, 1, 2]
    let source' := Memory.plain [6, 9, 9, 5, 0xaa, 0xbb, 1, 2, 6, 0]
    let r : Record := ⟨0, 5, .fixed, [0xaa, 0xbb, 1, 2], 0, 5, some 0x0201⟩
    let r' : Record := ⟨1, 5, .fixed, [0xaa, 0xbb, 1, 2], 3, 5, some 0x0201⟩
    r ∈ (s.run source).decoded ∧ r' ∈ (s'.run source').decoded ∧
      r.display table = "pair ts=0x0201 aabb" ∧ r'.display table = "pair ts=0x0201 aabb" ∧
      Record.readBack? table 5 "pair ts=0x0201 aabb" = some (r.payload, r.rawTicks) ∧
      r.payload = r'.payload := by
  intro table s s' source source' r r'
  have hr : r ∈ (s.run source).decoded := by decide +kernel
  have hr' : r' ∈ (s'.run source').decoded := by decide +kernel
  have hshown : r.display table = "pair ts=0x0201 aabb" := by decide +kernel
  have hshown' : r'.display table = "pair ts=0x0201 aabb" := by decide +kernel
  obtain ⟨hread, hinjective⟩ := payload_eq_of_display (opens_resume table {} {})
    ((opens_resume table {} _).withLimit 2) source source' hr hr' rfl rfl rfl
  rw [hshown] at hread
  exact ⟨hr, hr', hshown, hshown', hread, (hinjective (hshown.trans hshown'.symm)).1⟩

end Session

end Telemetry
