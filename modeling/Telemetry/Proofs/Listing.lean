import Mathlib.Data.List.Forall2
import Telemetry.Proofs.Paging
import Telemetry.Tool.Run

/-!
# One line for each record

Whatever bytes a stream holds, a line that shows a record has no character but blanks and such as
have a visible form (`shown_recordLine`): names and digits are plain, and what a text holds beyond
that is escaped.  So no line ends before its end, and cutting the output where lines end gives the
lines back (`splitOn_written`).

The records that are shown are those at the positions asked for, as an index and a chunk of it find
them (`viewLines_of_serves`); there is one line for each (`one_line_per_record`).
-/

namespace Telemetry

namespace Text

/-- No character but blanks and such as have a visible form. -/
def Shown (text : List Char) : Prop :=
  ∀ c ∈ text, isShown c = true

instance (text : List Char) : Decidable (Shown text) :=
  List.decidableBAll _ text

@[simp]
theorem shown_append {a b : List Char} : Shown (a ++ b) ↔ Shown a ∧ Shown b :=
  List.forall_mem_append

theorem shown_flatMap {α : Type} {f : α → List Char} {as : List α} :
    Shown (as.flatMap f) ↔ ∀ a ∈ as, Shown (f a) :=
  List.forall_mem_flatMap

theorem Shown.not_mem {text : List Char} (h : Shown text) {c : Char} (hc : isShown c = false) :
    c ∉ text := fun hmem => by
  rw [h c hmem] at hc
  cases hc

theorem isShown_hexDigit : ∀ {n : Nat}, n < 16 → isShown (Bytes.hexDigit n) = true := by
  decide

theorem shown_numeral {base : Nat} (hb : base ≤ 16) (n : Nat) : Shown (numeral base n) := by
  intro c hc
  obtain ⟨k, hk, rfl⟩ := mem_numeral hb hc
  exact isShown_hexDigit hk

theorem shown_escapeChar (c : Char) : Shown (escapeChar c) := by
  unfold escapeChar
  split
  · decide
  · decide
  · decide
  · decide
  · decide
  · decide
  · split
    · next h => simpa [Shown] using h
    · have hnumeral := shown_numeral (Nat.le_refl 16) c.toNat
      exact shown_append.2 ⟨shown_append.2 ⟨by decide, hnumeral⟩, by decide⟩

theorem shown_quote (text : String) : Shown (quote text).toList := by
  have hescaped : Shown (text.toList.flatMap escapeChar) :=
    shown_flatMap.2 fun c _ => shown_escapeChar c
  rw [quote, String.toList_ofList]
  change Shown (['"'] ++ (text.toList.flatMap escapeChar ++ ['"']))
  exact shown_append.2 ⟨by decide, shown_append.2 ⟨hescaped, by decide⟩⟩

theorem shown_hexChars (bytes : Bytes) : Shown (Bytes.hexChars bytes) := by
  rw [Bytes.hexChars, shown_flatMap]
  intro b _ c hc
  have hb := b.toNat_lt
  rcases List.mem_pair.1 hc with rfl | rfl
  · exact isShown_hexDigit (by omega)
  · exact isShown_hexDigit (by omega)

theorem shown_hex (bytes : Bytes) : Shown (Bytes.hex bytes).toList := by
  rw [Bytes.hex, String.toList_ofList]
  exact shown_hexChars bytes

theorem isShown_of_isDigit {c : Char} (h : c.isDigit = true) : isShown c = true := by
  simp only [Char.isDigit, ge_iff_le, Bool.and_eq_true, decide_eq_true_eq] at h
  obtain ⟨hlow, hhigh⟩ := h
  have hlow' : 48 ≤ c.toNat := hlow
  have hhigh' : c.toNat ≤ 57 := hhigh
  rw [isShown, if_neg (by omega), if_pos (by omega)]

theorem isDigit_of_mem_toString {n : Nat} {c : Char} (h : c ∈ (toString n).toList) :
    c.isDigit = true := by
  rw [Nat.toString_eq_ofList_toDigits, String.toList_ofList] at h
  exact Nat.isDigit_of_mem_toDigits (by decide) (by decide) h

theorem shown_toString (n : Nat) : Shown (toString n).toList :=
  fun _ hc => isShown_of_isDigit (isDigit_of_mem_toString hc)

end Text

namespace Tag.Table

/-- The names of its tags are plain. -/
def Plain (table : Table) : Prop :=
  ∀ t ∈ table.toList, Text.Shown t.name.toList

instance (table : Table) : Decidable table.Plain :=
  List.decidableBAll _ table.toList

theorem plain_standard : standard.Plain := by
  decide +kernel

end Tag.Table

namespace Record

variable {table : Tag.Table}

theorem shown_tagName (h : table.Plain) (r : Record) : Text.Shown (r.tagName table).toList := by
  unfold tagName
  split
  · next t ht => exact h t (Tag.Table.mem_of_get? ht)
  · have hcode := Text.shown_hexChars [r.tag]
    rw [Bytes.hexChars, List.flatMap_singleton] at hcode
    simp only [Tag.code, String.toList_append, String.toList_ofList, Text.shown_append]
    exact ⟨by decide, by decide, hcode⟩

theorem shown_spacedHex (bytes : Bytes) : Text.Shown (spacedHex bytes).toList := by
  unfold spacedHex
  split_ifs
  · decide
  · rw [String.toList_append]
    exact Text.shown_append.2 ⟨by decide, Text.shown_hex bytes⟩

/-- Whatever the payload. -/
theorem shown_display (h : table.Plain) (r : Record) : Text.Shown (r.display table).toList := by
  have hname := shown_tagName h r
  unfold display
  split
  · next terminated _ =>
    have hquote := Text.shown_quote (Text.decode r.payload)
    have hcut : Text.Shown (if terminated then "" else "…").toList := by
      cases terminated <;> decide +kernel
    simp only [String.toList_append, Text.shown_append]
    exact ⟨⟨⟨hname, by decide⟩, hquote⟩, hcut⟩
  · simp only [String.toList_append, Text.shown_append]
    exact ⟨⟨⟨hname, by decide⟩, Text.shown_hex _⟩, shown_spacedHex _⟩
  · simp only [String.toList_append, Text.shown_append]
    exact ⟨hname, shown_spacedHex _⟩

end Record

namespace Tool

namespace Report

/-- The columns of a line: what stands between blanks. -/
def columns (line : List Char) : List (List Char) :=
  (line.splitOn ' ').filter (!·.isEmpty)

theorem columns_blank (line : List Char) : columns (' ' :: line) = columns line := by
  simp [columns, List.splitOn_cons_eq_if_modifyHead]

theorem columns_word {word : List Char} (hne : word ≠ []) (hblank : ' ' ∉ word)
    (rest : List Char) : columns (word ++ ' ' :: rest) = word :: columns rest := by
  rw [columns, List.splitOn_append_cons_self_of_not_mem hblank, List.filter_cons_of_pos]
  · rfl
  · simpa using hne

theorem columns_padLeft (width : Nat) {word : String} (hne : word ≠ "") (hblank : ' ' ∉ word.toList)
    (rest : List Char) :
    columns ((padLeft width word).toList ++ ' ' :: rest) = word.toList :: columns rest := by
  have hword : word.toList ≠ [] := by simpa using hne
  rw [padLeft, String.toList_append, String.toList_ofList, List.append_assoc]
  induction width - word.length with
  | zero => exact columns_word hword hblank rest
  | succ count ih =>
    rw [List.replicate_succ, List.cons_append, columns_blank, ih]

/-- The line begins with the ordinal of the record, its time and its offset. -/
def Tells (t : Timed) (line : List Char) : Prop :=
  (columns line).take 3 = [t.record.ordinal, t.ns, t.record.offset].map (toString · |>.toList)

theorem columns_toString (width n : Nat) (rest : List Char) :
    columns ((padLeft width (toString n)).toList ++ (" ".toList ++ rest)) =
      (toString n).toList :: columns rest := by
  refine columns_padLeft width Nat.repr_ne_empty (fun hmem => ?_) rest
  exact absurd (Text.isDigit_of_mem_toString hmem) (by decide)

theorem tells_recordLine (table : Tag.Table) (t : Timed) :
    Tells t (recordLine table t).toList := by
  simp only [Tells, recordLine, String.toList_append, List.append_assoc, columns_toString]
  rfl

theorem shown_padLeft (width : Nat) {word : String} (h : Text.Shown word.toList) :
    Text.Shown (padLeft width word).toList := by
  have hblanks : Text.Shown (List.replicate (width - word.length) ' ') := fun c hc => by
    rw [List.eq_of_mem_replicate hc]
    decide
  rw [padLeft, String.toList_append, String.toList_ofList]
  exact Text.shown_append.2 ⟨hblanks, h⟩

/-- Whatever the record holds. -/
theorem shown_recordLine {table : Tag.Table} (h : table.Plain) (t : Timed) :
    Text.Shown (recordLine table t).toList := by
  have hblank : Text.Shown " ".toList := by decide
  have hmark : Text.Shown (mark t.order).toList := by
    unfold mark
    split <;> decide
  simp only [recordLine, String.toList_append, Text.shown_append, hblank, hmark,
    shown_padLeft _ (Text.shown_toString _), Record.shown_display h, and_self]

/-- The line that is shown where no record is. -/
theorem shown_noRecords (start stop total : Nat) :
    Text.Shown ("no records in " ++ toString start ++ ".." ++ toString stop ++ ", total " ++
      toString total).toList := by
  simp only [String.toList_append, Text.shown_append, Text.shown_toString, and_true]
  decide

theorem shown_view {table : Tag.Table} (h : table.Plain) (start stop : Nat) (chunk : Chunk) :
    ∀ line ∈ view table start stop chunk, Text.Shown line.toList := by
  unfold view
  split_ifs
  · intro line hline
    rw [List.mem_singleton.1 hline]
    exact shown_noRecords start stop chunk.total
  · intro line hline
    obtain ⟨t, -, rfl⟩ := List.mem_map.1 hline
    exact shown_recordLine h t

variable {table : Tag.Table} {chunk : Chunk}

theorem view_of_empty {start stop : Nat} (h : chunk.records = []) :
    view table start stop chunk = ["no records in " ++ toString start ++ ".." ++ toString stop ++
      ", total " ++ toString chunk.total] := by
  rw [view, if_pos]
  rw [Chunk.isEmpty, h]
  rfl

/-- A line for each record of the chunk. -/
theorem tells_view (table : Tag.Table) (start stop : Nat) (h : chunk.records ≠ []) :
    List.Forall₂ Tells chunk.records ((view table start stop chunk).map String.toList) := by
  have hview : view table start stop chunk = chunk.records.map (recordLine table) := by
    rw [view, if_neg]
    simpa [Chunk.isEmpty] using h
  rw [hview, List.map_map, List.forall₂_map_right_iff, List.forall₂_same]
  exact fun t _ => tells_recordLine table t

end Report

/-- What lines write to the output: each ends with a line feed. -/
def written (lines : List Line) : List Char :=
  lines.flatMap fun
    | .output s => s.toList ++ ['\n']
    | .warning _ | .error _ => []

/-- Lines that hold no line feed are what the output is between its line feeds. -/
theorem splitOn_written {lines : List String} (h : ∀ line ∈ lines, '\n' ∉ line.toList) :
    (written (lines.map .output)).splitOn '\n' = lines.map String.toList ++ [[]] := by
  induction lines with
  | nil => rfl
  | cons line lines ih =>
    obtain ⟨hline, hlines⟩ := List.forall_mem_cons.1 h
    have hcons : written ((line :: lines).map .output) =
        line.toList ++ '\n' :: written (lines.map .output) := by
      simp [written]
    rw [hcons, List.splitOn_append_cons_self_of_not_mem hline, ih hlines]
    rfl

/-- A warning is no output. -/
theorem written_warnings (index : Index) (lines : List Line) :
    written (warnings index ++ lines) = written lines := by
  rcases hw : index.warning with _ | message <;> simp [warnings, written, hw]

section View

/-- Viewing looks into the file and leaves the tree as it is. -/
theorem run_view {γ : Type} [RandomSource γ] (g : γ) {tree : FileTree} {name : String} {file : File}
    (hopen : tree.openFile name = .ok file) (start stop : Nat) :
    (perform (m := StateM FileTree) g (.view name start stop)).run tree =
      ((inspect file (viewLines start stop), g), tree) := by
  have hfound : (FileSystem.openFile (m := StateM FileTree) name).run tree = (.ok file, tree) :=
    congrArg (·, tree) hopen
  simp only [perform, openNamed, StateT.run_bind, hfound]
  rfl

variable {file file' : File} {data : Bytes} {last : Nat} {reader : Chunk.Reader}

/-- An indexed file can be read at random. -/
theorem serves_of_index (hfile : Source.Holds file data last)
    (h : index file = (.ok reader, file')) :
    reader.Serves .standard {} data ∧ Source.Holds file' data last ∧
      ((Session.new .standard {}).run file).emitted.toList =
        (Session.new .standard {}).toEmit data := by
  unfold index at h
  rcases hbuild : Index.build .standard {} Index.defaultInterval file with ⟨_ | built, after⟩
  · rw [hbuild] at h
    cases h
  · rw [hbuild] at h
    cases h
    obtain ⟨hreader, hafter⟩ := Chunk.Reader.serves_of_build hfile hbuild _
    exact ⟨hreader, hafter, Index.emitted_of_build hfile (congrArg Prod.fst hbuild)⟩

/-- The records shown are those at the positions asked for, in the order of the emission. -/
theorem viewLines_of_serves (hreader : reader.Serves .standard {} data)
    (hfile : Source.Holds file data last) (start stop : Nat) :
    viewLines start stop reader file = .ok (Report.view .standard start stop
      (Chunk.answer ((Session.new .standard {}).toEmit data) start stop)) := by
  obtain ⟨reader', file', hfetch, -, -⟩ := hreader.fetch hfile start stop
  simp only [viewLines, hfetch, hreader.table_eq]

theorem inspect_viewLines (hfile : Source.Holds file data last)
    (hindex : (index file).1 = .ok reader) (start stop : Nat) :
    let emission := ((Session.new .standard {}).run file).emitted.toList
    inspect file (viewLines start stop) =
      (warnings reader.index ++ (Report.view .standard start stop
        (Chunk.answer emission start stop)).map .output, none) := by
  intro emission
  rcases hopened : index file with ⟨opened, file'⟩
  obtain rfl : opened = .ok reader := by rwa [hopened] at hindex
  obtain ⟨hreader, hfile', hemission⟩ := serves_of_index hfile hopened
  simp only [inspect, hopened, viewLines_of_serves hreader hfile', emission, hemission]

/-- Viewing a file prints one line for each record at the positions asked for, in the order of the
emission, which begins with the ordinal, the time and the offset of the record; one line tells if
there is none.  What the records hold adds no line and ends none. -/
theorem one_line_per_record {γ : Type} [RandomSource γ] (g : γ) {tree : FileTree} {name : String}
    (hopen : tree.openFile name = .ok file) (hfile : Source.Holds file data last)
    (hindex : (index file).1 = .ok reader) (start stop : Nat) :
    let emission := ((Session.new .standard {}).run file).emitted.toList
    let total := emission.length
    let shown := (emission.drop start).take (min stop total - start)
    ∃ (lines : List Line) (printed : List (List Char)),
      (perform (m := StateM FileTree) g (.view name start stop)).run tree =
        (((lines, none), g), tree) ∧
      (written lines).splitOn '\n' = printed ++ [[]] ∧
      (∀ line ∈ printed, Text.Shown line ∧ '\r' ∉ line) ∧
      (shown ≠ [] → List.Forall₂ Report.Tells shown printed) ∧
      (shown = [] → printed = [("no records in " ++ toString start ++ ".." ++ toString stop ++
        ", total " ++ toString total).toList]) := by
  intro emission total shown
  have hrun := run_view g hopen start stop
  rw [inspect_viewLines hfile hindex] at hrun
  have hrecords : (Chunk.answer emission start stop).records = shown := by
    rw [Chunk.records_answer, List.take_eq_take_iff, List.length_drop]
    omega
  have hshown := Report.shown_view Tag.Table.plain_standard start stop
    (Chunk.answer emission start stop)
  have hfeed : ∀ line ∈ Report.view .standard start stop (Chunk.answer emission start stop),
      '\n' ∉ line.toList := fun line hline => (hshown line hline).not_mem (by decide)
  refine ⟨_, (Report.view .standard start stop (Chunk.answer emission start stop)).map
    String.toList, hrun, ?_, ?_, ?_, ?_⟩
  · rw [written_warnings, splitOn_written hfeed]
  · intro line hline
    obtain ⟨s, hs, rfl⟩ := List.mem_map.1 hline
    exact ⟨hshown s hs, (hshown s hs).not_mem (by decide)⟩
  · intro hne
    rw [← hrecords] at hne ⊢
    exact Report.tells_view .standard start stop hne
  · intro hnil
    rw [Report.view_of_empty (hrecords.trans hnil), Chunk.total_answer]
    rfl

/-- Texts with line feeds and bytes that are no characters, one of them cut short, and then a tag
that is in no table. -/
theorem one_line_per_record_of_texts :
    let data : Bytes := [0x20, 0x0a, 0x20, 0xff, 0x20, 0, 0x21, 0x0d, 0x12, 1, 0xee]
    let file := File.regular data.toArray
    let tree : FileTree := { entries := [(["a.bin"], file)] }
    tree.openFile "/a.bin" = .ok file ∧
      Source.Holds file data (File.lastPosition - Window.fillSize) ∧
      ∃ (lines : List Line) (printed : List (List Char)),
        (perform (m := StateM FileTree) (SplitMix.mk 0) (.view "/a.bin" 0 9)).run tree =
          (((lines, none), SplitMix.mk 0), tree) ∧
        (written lines).splitOn '\n' = printed ++ [[]] ∧ printed.length = 3 := by
  intro data file tree
  have hname : FileTree.checkName "/a.bin" = .ok () := by
    have hshort : ¬ FileTree.maxPath ≤ "/a.bin".utf8ByteSize := by decide +kernel
    simp [FileTree.checkName, hshort]
  have hopen : tree.openFile "/a.bin" = .ok file := by
    rw [FileTree.openFile, FileTree.locate, hname]
    decide +kernel
  have hfile : Source.Holds file data (File.lastPosition - Window.fillSize) :=
    File.holds_regular (by decide)
  have hok : (index file).1.isOk = true := by decide +kernel
  let emission := ((Session.new .standard {}).run file).emitted.toList
  have hlength : ((emission.drop 0).take (min 9 emission.length - 0)).length = 3 := by
    decide +kernel
  refine ⟨hopen, hfile, ?_⟩
  rcases hindex : (index file).1 with _ | reader
  · rw [hindex] at hok
    cases hok
  · obtain ⟨lines, printed, hrun, hsplit, -, htells, -⟩ :=
      one_line_per_record (SplitMix.mk 0) hopen hfile hindex 0 9
    have hne := List.ne_nil_of_length_pos (Nat.lt_of_lt_of_eq (Nat.succ_pos 2) hlength.symm)
    exact ⟨lines, printed, hrun, hsplit, (htells hne).length_eq.symm.trans hlength⟩

end View

end Tool

end Telemetry
