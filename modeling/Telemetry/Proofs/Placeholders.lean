import Mathlib.Data.List.Basic
import Mathlib.Data.List.Infix
import Mathlib.Tactic.Common
import Telemetry.Config.Search

/-!
# Placeholders in the name of the stream file

A template is made of characters and of marks for directories (`pieces`), and filling it puts the
directories, as they are, where the marks are (`fill`).

The name of the file is not found so.  The mark of the program's directory is replaced in what the
first replacement has left, so a working directory may bring such a mark with it, or complete one
together with the text around it.  The name is the template filled exactly if the first replacement
leaves as many of these marks as there were (`filePath_eq_fill_iff`).  It always does where the
working directory is plain (`filePath_of_plain`).
-/

namespace Telemetry.Config

/-- How often a pattern begins in a text. -/
def occurrences (pattern text : List Char) : Nat :=
  text.tails.countP pattern.isPrefixOf

/-- A part of a template. -/
inductive Piece where
  | char (c : Char)
  | workDir
  | exeDir
  deriving DecidableEq, Repr

def Piece.text (workDir exeDir : List Char) : Piece → List Char
  | char c => [c]
  | .workDir => workDir
  | .exeDir => exeDir

/-- The marks of a template, found from left to right, and the characters between them. -/
def pieces (template : List Char) : List Piece :=
  match template with
  | [] => []
  | c :: rest =>
    if workDirMark.toList.isPrefixOf (c :: rest) then
      .workDir :: pieces (rest.drop (workDirMark.toList.length - 1))
    else if exeDirMark.toList.isPrefixOf (c :: rest) then
      .exeDir :: pieces (rest.drop (exeDirMark.toList.length - 1))
    else .char c :: pieces rest
termination_by template.length
decreasing_by
  · simp only [List.length_drop, List.length_cons]
    omega
  · simp only [List.length_drop, List.length_cons]
    omega
  · simp

/-- The template with the directories in place of their marks. -/
def fill (template workDir exeDir : String) : String :=
  String.ofList ((pieces template.toList).flatMap (Piece.text workDir.toList exeDir.toList))

section Occurrences

variable {first : Char} {body : List Char} (replacement rest : List Char)

theorem drop_of_isPrefixOf {c : Char} {rest : List Char}
    (h : (first :: body).isPrefixOf (c :: rest)) :
    c :: rest = first :: body ++ rest.drop ((first :: body).length - 1) := by
  obtain ⟨more, hmore⟩ := List.isPrefixOf_iff_prefix.1 h
  rw [List.cons_append, List.cons.injEq] at hmore
  obtain ⟨rfl, rfl⟩ := hmore
  simp

theorem occurrences_nil : occurrences (first :: body) [] = 0 :=
  rfl

theorem occurrences_cons (pattern : List Char) (c : Char) :
    occurrences pattern (c :: rest) =
      occurrences pattern rest + if pattern.isPrefixOf (c :: rest) then 1 else 0 := by
  rw [occurrences, List.tails_cons, List.countP_cons]
  rfl

theorem occurrences_le_append (pattern text : List Char) :
    occurrences pattern rest ≤ occurrences pattern (text ++ rest) := by
  induction text with
  | nil => exact Nat.le_refl _
  | cons c text ih =>
    rw [List.cons_append, occurrences_cons]
    omega

/-- A pattern begins nowhere in a text without its first character. -/
theorem occurrences_append_of_notMem {text : List Char} (h : first ∉ text) :
    occurrences (first :: body) (text ++ rest) = occurrences (first :: body) rest := by
  induction text with
  | nil => rfl
  | cons c text ih =>
    rw [List.mem_cons, not_or] at h
    have hhead : ¬ (first :: body).isPrefixOf (c :: (text ++ rest)) := by
      simp [List.isPrefixOf, h.1]
    rw [List.cons_append, occurrences_cons, if_neg hhead, ih h.2, Nat.add_zero]

theorem occurrences_pattern_append (h : first ∉ body) :
    occurrences (first :: body) (first :: body ++ rest) =
      occurrences (first :: body) rest + 1 := by
  have hhead : (first :: body).isPrefixOf (first :: (body ++ rest)) :=
    List.isPrefixOf_iff_prefix.2 (List.prefix_append (first :: body) rest)
  rw [List.cons_append, occurrences_cons, if_pos hhead, occurrences_append_of_notMem rest h]

theorem replaceAll_nil (pattern : List Char) : replaceAll pattern replacement [] = [] := by
  rw [replaceAll]

theorem replaceAll_pattern_append :
    replaceAll (first :: body) replacement (first :: body ++ rest) =
      replacement ++ replaceAll (first :: body) replacement rest := by
  have hhead : (first :: body).isPrefixOf (first :: (body ++ rest)) :=
    List.isPrefixOf_iff_prefix.2 (List.prefix_append (first :: body) rest)
  rw [List.cons_append, replaceAll, if_pos hhead]
  simp

/-- A text in which the pattern does not begin is left as it is. -/
theorem replaceAll_append {pattern text : List Char}
    (h : occurrences pattern (text ++ rest) = occurrences pattern rest) :
    replaceAll pattern replacement (text ++ rest) =
      text ++ replaceAll pattern replacement rest := by
  induction text with
  | nil => rfl
  | cons c text ih =>
    have hle := occurrences_le_append rest pattern text
    rw [List.cons_append, occurrences_cons] at h
    split at h
    · omega
    · next hhead =>
      rw [List.cons_append, replaceAll, if_neg hhead, ih h, List.cons_append]

theorem length_replaceAll (h : first ∉ body) (text : List Char) :
    (replaceAll (first :: body) replacement text).length +
        occurrences (first :: body) text * (first :: body).length =
      text.length + occurrences (first :: body) text * replacement.length := by
  induction text using replaceAll.induct (first :: body) with
  | case1 => simp [replaceAll_nil, occurrences_nil]
  | case2 c rest hhead ih =>
    rw [drop_of_isPrefixOf hhead, occurrences_pattern_append _ h, replaceAll_pattern_append,
      List.length_append, List.length_append, Nat.succ_mul, Nat.succ_mul]
    omega
  | case3 c rest hhead ih =>
    rw [replaceAll, if_neg hhead, occurrences_cons, if_neg hhead, Nat.add_zero]
    change _ + 1 + _ = rest.length + 1 + _
    omega

end Occurrences

section Marks

theorem workDirMark_toList :
    workDirMark.toList = '$' :: ['\x7b', 'w', 'o', 'r', 'k', '.', 'd', 'i', 'r', '\x7d'] := by
  decide

theorem exeDirMark_toList :
    exeDirMark.toList = '$' :: ['\x7b', 'e', 'x', 'e', '.', 'd', 'i', 'r', '\x7d'] := by
  decide

/-- No mark of the working directory begins in one of the program's directory. -/
theorem occurrences_workDirMark_append (rest : List Char) :
    occurrences workDirMark.toList (exeDirMark.toList ++ rest) =
      occurrences workDirMark.toList rest := by
  rw [workDirMark_toList, exeDirMark_toList, List.cons_append, occurrences_cons, if_neg (by simp),
    occurrences_append_of_notMem rest (by decide), Nat.add_zero]

/-- No mark of the program's directory begins in one of the working directory. -/
theorem occurrences_exeDirMark_append (rest : List Char) :
    occurrences exeDirMark.toList (workDirMark.toList ++ rest) =
      occurrences exeDirMark.toList rest := by
  rw [workDirMark_toList, exeDirMark_toList, List.cons_append, occurrences_cons, if_neg (by simp),
    occurrences_append_of_notMem rest (by decide), Nat.add_zero]

theorem exeDirMark_isPrefixOf_cons {c : Char} {rest : List Char} :
    exeDirMark.toList.isPrefixOf (c :: rest) ↔ c = '$' ∧ exeDirMark.toList.tail <+: rest := by
  rw [List.isPrefixOf_iff_prefix, exeDirMark_toList, List.cons_prefix_cons, eq_comm]
  rfl

theorem occurrences_exeDirMark_self (rest : List Char) :
    occurrences exeDirMark.toList (exeDirMark.toList ++ rest) =
      occurrences exeDirMark.toList rest + 1 := by
  rw [exeDirMark_toList]
  exact occurrences_pattern_append rest (by decide)

theorem length_replaceAll_exeDirMark (exeDir text : List Char) :
    (replaceAll exeDirMark.toList exeDir text).length +
        occurrences exeDirMark.toList text * exeDirMark.toList.length =
      text.length + occurrences exeDirMark.toList text * exeDir.length := by
  rw [exeDirMark_toList]
  exact length_replaceAll exeDir (by decide) text

/-- A template read from left to right. -/
inductive Reads : List Char → List Piece → Prop where
  | nil : Reads [] []
  | workDir {rest : List Char} {ps : List Piece} (h : Reads rest ps) :
    Reads (workDirMark.toList ++ rest) (.workDir :: ps)
  | exeDir {rest : List Char} {ps : List Piece} (h : Reads rest ps) :
    Reads (exeDirMark.toList ++ rest) (.exeDir :: ps)
  | char {c : Char} {rest : List Char} {ps : List Piece}
      (hwork : ¬ workDirMark.toList.isPrefixOf (c :: rest))
      (hexe : ¬ exeDirMark.toList.isPrefixOf (c :: rest)) (h : Reads rest ps) :
    Reads (c :: rest) (.char c :: ps)

theorem reads_pieces (template : List Char) : Reads template (pieces template) := by
  induction template using pieces.induct with
  | case1 =>
    rw [pieces]
    exact .nil
  | case2 c rest hwork ih =>
    rw [pieces, if_pos hwork]
    rw [workDirMark_toList] at hwork ih ⊢
    rw [drop_of_isPrefixOf hwork, ← workDirMark_toList]
    exact .workDir ih
  | case3 c rest hwork hexe ih =>
    rw [pieces, if_neg hwork, if_pos hexe]
    rw [exeDirMark_toList] at hexe ih ⊢
    rw [drop_of_isPrefixOf hexe, ← exeDirMark_toList]
    exact .exeDir ih
  | case4 c rest hwork hexe ih =>
    rw [pieces, if_neg hwork, if_neg hexe]
    exact .char hwork hexe ih

variable {template : List Char} {ps : List Piece} (workDir exeDir : List Char)

theorem Reads.written (h : Reads template ps) :
    ps.flatMap (Piece.text workDirMark.toList exeDirMark.toList) = template := by
  induction h with
  | nil => rfl
  | workDir _ ih => rw [List.flatMap_cons, ih]; rfl
  | exeDir _ ih => rw [List.flatMap_cons, ih]; rfl
  | char _ _ _ ih => rw [List.flatMap_cons, ih]; rfl

/-- The first replacement puts the working directory in place of its marks. -/
theorem Reads.replaceAll (h : Reads template ps) :
    replaceAll workDirMark.toList workDir template =
      ps.flatMap (Piece.text workDir exeDirMark.toList) := by
  induction h with
  | nil => exact replaceAll_nil _ _
  | workDir _ ih =>
    rw [List.flatMap_cons, ← ih, workDirMark_toList]
    exact replaceAll_pattern_append _ _
  | exeDir _ ih =>
    rw [List.flatMap_cons, ← ih]
    exact replaceAll_append _ _ (occurrences_workDirMark_append _)
  | char hwork _ _ ih =>
    rw [List.flatMap_cons, ← ih, Config.replaceAll, if_neg hwork]
    rfl

theorem Reads.occurrences_eq (h : Reads template ps) :
    occurrences exeDirMark.toList template = ps.count .exeDir := by
  induction h with
  | nil => rfl
  | workDir _ ih =>
    rw [occurrences_exeDirMark_append, ih, List.count_cons_of_ne (by decide)]
  | exeDir _ ih =>
    rw [occurrences_exeDirMark_self, ih, List.count_cons_self]
  | char _ hexe _ ih =>
    rw [occurrences_cons, if_neg hexe, ih, List.count_cons_of_ne (by simp), Nat.add_zero]

theorem Piece.text_of_ne {piece : Piece} (h : piece ≠ .exeDir) (exeDir' : List Char) :
    piece.text workDir exeDir = piece.text workDir exeDir' := by
  cases piece with
  | char c => rfl
  | workDir => rfl
  | exeDir => exact absurd rfl h

/-- The text made of some pieces has the marks that are among them. -/
theorem count_le_occurrences (ps : List Piece) :
    ps.count .exeDir ≤
      occurrences exeDirMark.toList (ps.flatMap (Piece.text workDir exeDirMark.toList)) := by
  induction ps with
  | nil => exact Nat.le_refl 0
  | cons piece ps ih =>
    rw [List.flatMap_cons]
    by_cases hpiece : piece = .exeDir
    · rw [hpiece, List.count_cons_self, Piece.text, occurrences_exeDirMark_self]
      exact Nat.succ_le_succ ih
    · rw [List.count_cons_of_ne hpiece]
      exact ih.trans (occurrences_le_append _ _ _)

/-- If these are all there are, the second replacement fills the template. -/
theorem replaceAll_of_occurrences (ps : List Piece)
    (h : occurrences exeDirMark.toList (ps.flatMap (Piece.text workDir exeDirMark.toList)) =
      ps.count .exeDir) :
    replaceAll exeDirMark.toList exeDir (ps.flatMap (Piece.text workDir exeDirMark.toList)) =
      ps.flatMap (Piece.text workDir exeDir) := by
  induction ps with
  | nil => exact replaceAll_nil _ _
  | cons piece ps ih =>
    rw [List.flatMap_cons] at h
    rw [List.flatMap_cons, List.flatMap_cons]
    by_cases hpiece : piece = .exeDir
    · rw [hpiece, List.count_cons_self, Piece.text, occurrences_exeDirMark_self] at h
      rw [← ih (Nat.succ.inj h), hpiece]
      simp only [Piece.text]
      rw [exeDirMark_toList]
      exact replaceAll_pattern_append _ _
    · have hleft := count_le_occurrences workDir ps
      have hright := occurrences_le_append (ps.flatMap (Piece.text workDir exeDirMark.toList))
        exeDirMark.toList (piece.text workDir exeDirMark.toList)
      rw [List.count_cons_of_ne hpiece] at h
      rw [← ih (by omega), Piece.text_of_ne workDir exeDir hpiece exeDirMark.toList]
      exact replaceAll_append _ _ (by omega)

theorem length_flatMap_text (ps : List Piece) :
    (ps.flatMap (Piece.text workDir exeDir)).length + ps.count .exeDir * exeDirMark.toList.length =
      (ps.flatMap (Piece.text workDir exeDirMark.toList)).length +
        ps.count .exeDir * exeDir.length := by
  induction ps with
  | nil => simp
  | cons piece ps ih =>
    rw [List.flatMap_cons, List.flatMap_cons, List.length_append, List.length_append]
    by_cases hpiece : piece = .exeDir
    · rw [hpiece, List.count_cons_self, Nat.succ_mul, Nat.succ_mul]
      simp only [Piece.text]
      omega
    · rw [List.count_cons_of_ne hpiece,
        Piece.text_of_ne workDir exeDir hpiece exeDirMark.toList]
      omega

end Marks

section Expansion

variable (template workDir exeDir : String)

/-- The marks of the program's directory that the first replacement leaves or makes. -/
def marksLeft (template workDir : String) : Nat :=
  occurrences exeDirMark.toList (replaceAll workDirMark.toList workDir.toList template.toList)

/-- The first replacement leaves the marks of the program's directory. -/
theorem occurrences_le_marksLeft :
    occurrences exeDirMark.toList template.toList ≤ marksLeft template workDir := by
  have hreads := reads_pieces template.toList
  rw [marksLeft, hreads.replaceAll, hreads.occurrences_eq]
  exact count_le_occurrences _ _

theorem expand_eq_fill
    (h : marksLeft template workDir = occurrences exeDirMark.toList template.toList) :
    expand template workDir exeDir = fill template workDir exeDir := by
  have hreads := reads_pieces template.toList
  rw [marksLeft, hreads.replaceAll, hreads.occurrences_eq] at h
  rw [expand, fill, hreads.replaceAll, replaceAll_of_occurrences _ _ _ h]

/-- A mark that the first replacement makes is one more place for a long name to be put. -/
theorem length_fill_le {n : Nat}
    (hmade : occurrences exeDirMark.toList template.toList < marksLeft template workDir)
    (hlong : exeDirMark.toList.length + n ≤ exeDir.length) :
    (fill template workDir exeDir).length + n ≤ (expand template workDir exeDir).length := by
  have hreads := reads_pieces template.toList
  have hfill := length_flatMap_text workDir.toList exeDir.toList (pieces template.toList)
  have hexpand := length_replaceAll_exeDirMark exeDir.toList
    (replaceAll workDirMark.toList workDir.toList template.toList)
  rw [← marksLeft] at hexpand
  rw [← hreads.occurrences_eq, ← hreads.replaceAll] at hfill
  rw [fill, expand, String.length_ofList, String.length_ofList]
  simp only [String.length_toList] at hfill hexpand hlong
  obtain ⟨made, hmade⟩ := Nat.exists_eq_add_of_lt hmade
  rw [hmade, Nat.succ_mul, Nat.add_mul, Nat.succ_mul, Nat.add_mul] at hexpand
  have hmore : made * exeDirMark.length ≤ made * exeDir.length :=
    Nat.mul_le_mul_left made (by omega)
  omega

/-- A name that is absolute stands for itself, and another one is seen from the working
directory. -/
def resolve (workDir path : String) : String :=
  if isAbsolute path then path else joinPath workDir path

theorem joinPath_eq_resolve (path : String) : joinPath workDir path = resolve workDir path := by
  unfold resolve joinPath
  split_ifs <;> simp_all

theorem length_le_resolve (path : String) :
    path.length ≤ (resolve workDir path).length ∧
      (resolve workDir path).length ≤ workDir.length + 1 + path.length := by
  have hslash : "/".length = 1 := rfl
  unfold resolve joinPath
  split_ifs
  · exact ⟨Nat.le_refl _, by omega⟩
  · exact ⟨Nat.le_refl _, by omega⟩
  · rw [String.length_append]
    omega
  · rw [String.length_append, String.length_append]
    omega

end Expansion

namespace Stream

/-- The name of the file is the template filled, seen from the working directory, wherever the
program may be, exactly if the first replacement makes no mark of the program's directory. -/
theorem filePath_eq_fill_iff (c : Stream) (workDir : String) :
    (∀ exeDir, c.filePath workDir exeDir = resolve workDir (fill c.file workDir exeDir)) ↔
      marksLeft c.file workDir = occurrences exeDirMark.toList c.file.toList := by
  refine ⟨fun h => ?_, fun h exeDir => ?_⟩
  · by_contra hne
    have hmade := Nat.lt_of_le_of_ne (occurrences_le_marksLeft c.file workDir) (Ne.symm hne)
    -- a name so long that the working directory before it makes no difference
    obtain ⟨exeDir, hlong⟩ : ∃ exeDir : String,
        exeDirMark.toList.length + (workDir.length + 2) ≤ exeDir.length :=
      ⟨String.ofList (List.replicate (exeDirMark.toList.length + (workDir.length + 2)) 'a'), by
        rw [String.length_ofList, List.length_replicate]⟩
    have hlength := length_fill_le c.file workDir exeDir hmade hlong
    have hpath := h exeDir
    rw [filePath, joinPath_eq_resolve] at hpath
    have hexpand := (length_le_resolve workDir (expand c.file workDir exeDir)).1
    have hfill := (length_le_resolve workDir (fill c.file workDir exeDir)).2
    rw [hpath] at hexpand
    omega
  · rw [filePath, joinPath_eq_resolve, expand_eq_fill _ _ _ h]

/-- A mark that the working directory brings with it is replaced, and so is one that it completes
together with the text around it. -/
theorem filePath_ne_fill :
    let brings : Stream := { file := "$\x7bwork.dir\x7d/a" }
    let completes : Stream := { file := "$\x7bexe$\x7bwork.dir\x7ddir\x7d/a" }
    (brings.filePath "/x/$\x7bexe.dir\x7d" "/opt" = "/x//opt/a" ∧
      resolve "/x/$\x7bexe.dir\x7d" (fill brings.file "/x/$\x7bexe.dir\x7d" "/opt") =
        "/x/$\x7bexe.dir\x7d/a") ∧
    completes.filePath "." "/opt" = "/opt/a" ∧
      resolve "." (fill completes.file "." "/opt") = "./$\x7bexe.dir\x7d/a" := by
  decide +kernel

end Stream

section Plain

/-- A directory that holds neither end of a mark and is no part of one. -/
structure Plain (dir : List Char) : Prop where
  dollar_notMem : '$' ∉ dir
  brace_notMem : '\x7d' ∉ dir
  not_infix : ¬ dir <:+: exeDirMark.toList

variable {workDir : List Char}

/-- The end of a mark that a plain directory leaves is in the template already. -/
theorem Plain.prefix_written (h : Plain workDir) {ending : List Char}
    (hending : ending <:+ exeDirMark.toList) (hdollar : '$' ∉ ending) (ps : List Piece)
    (hpre : ending <+: ps.flatMap (Piece.text workDir exeDirMark.toList)) :
    ending <+: ps.flatMap (Piece.text workDirMark.toList exeDirMark.toList) := by
  induction ps generalizing ending with
  | nil => exact hpre
  | cons piece ps ih =>
    rcases ending with _ | ⟨c, ending⟩
    · exact List.nil_prefix
    rw [List.flatMap_cons] at hpre ⊢
    cases piece with
    | char c' =>
      obtain ⟨rfl, hrest⟩ := List.cons_prefix_cons.1 hpre
      refine List.cons_prefix_cons.2 ⟨rfl, ih ?_ ?_ hrest⟩
      · exact (List.suffix_cons c ending).trans hending
      · exact fun hmem => hdollar (List.mem_cons_of_mem c hmem)
    | exeDir =>
      rw [Piece.text, exeDirMark_toList] at hpre
      obtain ⟨rfl, -⟩ := List.cons_prefix_cons.1 hpre
      exact absurd List.mem_cons_self hdollar
    | workDir =>
      rcases List.prefix_or_prefix_of_prefix hpre (List.prefix_append workDir _) with hin | hout
      · -- the last character of a mark would be in the directory
        have hlast : '\x7d' ∈ c :: ending := by
          obtain ⟨before, hbefore⟩ := hending
          have hmark : exeDirMark.toList.getLast? = some '\x7d' := by
            rw [exeDirMark_toList]
            rfl
          rw [← hbefore, List.getLast?_append_of_ne_nil _ (List.cons_ne_nil c ending)] at hmark
          exact List.mem_of_getLast? hmark
        exact absurd (hin.subset hlast) h.brace_notMem
      · exact absurd (hout.isInfix.trans hending.isInfix) h.not_infix

theorem Plain.occurrences_le (h : Plain workDir) (ps : List Piece) :
    occurrences exeDirMark.toList (ps.flatMap (Piece.text workDir exeDirMark.toList)) ≤
      occurrences exeDirMark.toList
        (ps.flatMap (Piece.text workDirMark.toList exeDirMark.toList)) := by
  induction ps with
  | nil => exact Nat.le_refl _
  | cons piece ps ih =>
    rw [List.flatMap_cons, List.flatMap_cons]
    cases piece with
    | exeDir =>
      rw [Piece.text, Piece.text, occurrences_exeDirMark_self, occurrences_exeDirMark_self]
      exact Nat.succ_le_succ ih
    | workDir =>
      rw [Piece.text, Piece.text, occurrences_exeDirMark_append]
      refine Nat.le_trans (Nat.le_of_eq ?_) ih
      rw [exeDirMark_toList]
      exact occurrences_append_of_notMem _ h.dollar_notMem
    | char c =>
      rw [Piece.text, Piece.text, List.singleton_append, List.singleton_append, occurrences_cons,
        occurrences_cons]
      refine Nat.add_le_add ih ?_
      split_ifs with hleft hright
      · exact Nat.le_refl 1
      · obtain ⟨rfl, hbody⟩ := exeDirMark_isPrefixOf_cons.1 hleft
        have hwritten := h.prefix_written (List.tail_suffix _) (by decide) ps hbody
        exact absurd (exeDirMark_isPrefixOf_cons.2 ⟨rfl, hwritten⟩) hright
      · exact Nat.zero_le _
      · exact Nat.le_refl 0

end Plain

/-- Seen from a plain working directory, the name of the file is the template filled. -/
theorem Stream.filePath_of_plain (c : Stream) {workDir : String} (h : Plain workDir.toList)
    (exeDir : String) :
    c.filePath workDir exeDir = resolve workDir (fill c.file workDir exeDir) := by
  have hreads := reads_pieces c.file.toList
  have hle := h.occurrences_le (pieces c.file.toList)
  rw [hreads.written, ← hreads.replaceAll] at hle
  have hmarks := Nat.le_antisymm hle (occurrences_le_marksLeft c.file workDir)
  rw [filePath, joinPath_eq_resolve, expand_eq_fill _ _ _ hmarks]

end Telemetry.Config
