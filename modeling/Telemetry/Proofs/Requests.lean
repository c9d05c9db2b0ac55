import Mathlib.Data.List.TakeWhile
import Mathlib.Tactic.Common
import Telemetry.Proofs.Numerals
import Telemetry.Service.Request

/-!
# Requests for numbers

A client that writes numbers into a query, in decimal and by name, has them read back, whatever the
numbers (`numbers_ofNumbers`): the digits of a number are read as that number, and nothing in a
plain text is an escape, a mark or a sign that stands for something else (`pairs_ofNumbers`).
-/

namespace Telemetry

namespace Bytes

/-- The byte of an ASCII character. -/
def ofChar (c : Char) : UInt8 :=
  UInt8.ofNat c.toNat

theorem toNat_ofChar {c : Char} (h : c.toNat < 0x80) : (ofChar c).toNat = c.toNat := by
  rw [ofChar, UInt8.toNat_ofNat']
  omega

theorem ofChar_inj {c d : Char} (hc : c.toNat < 0x80) (hd : d.toNat < 0x80)
    (h : ofChar c = ofChar d) : c = d := by
  have hnat := congrArg UInt8.toNat h
  rw [toNat_ofChar hc, toNat_ofChar hd] at hnat
  rw [← Char.ofNat_toNat c, hnat, Char.ofNat_toNat]

theorem loop_toList (bytes : ByteArray) (i : Nat) (before : Bytes) :
    ByteArray.toList.loop bytes i before = before.reverse ++ bytes.data.toList.drop i := by
  fun_induction ByteArray.toList.loop bytes i before with
  | case1 i before hlt ih =>
    have hlen : i < bytes.data.size := hlt
    have hget : bytes.get! i = bytes.data.toList[i] := getElem!_pos bytes.data i hlen
    rw [ih, List.reverse_cons, List.append_assoc, hget, List.singleton_append,
      ← List.drop_eq_getElem_cons]
  | case2 i before hge =>
    have hlen : bytes.data.toList.length ≤ i := Nat.le_of_not_lt hge
    rw [List.drop_of_length_le hlen, List.append_nil]

theorem ofText_ofList {cs : List Char} (h : ∀ c ∈ cs, c.toNat < 0x80) :
    ofText (String.ofList cs) = cs.map ofChar := by
  have hencode : cs.flatMap String.utf8EncodeChar = cs.map ofChar := by
    induction cs with
    | nil => rfl
    | cons c cs ih =>
      have hc : c.val.toNat ≤ 127 := Nat.le_of_lt_succ (h c List.mem_cons_self)
      have hchar : String.utf8EncodeChar c = [ofChar c] := if_pos hc
      rw [List.flatMap_cons, hchar, ih fun d hd => h d (List.mem_cons_of_mem c hd)]
      rfl
  rw [ofText, String.toUTF8, String.toByteArray_ofList, List.utf8Encode, hencode,
    ByteArray.toList, loop_toList, List.data_toByteArray]
  rfl

end Bytes

namespace Text

theorem decodeChars_map_ofChar {cs : List Char} (h : ∀ c ∈ cs, c.toNat < 0x80) :
    decodeChars (cs.map Bytes.ofChar) = cs := by
  induction cs with
  | nil => rw [List.map_nil, decodeChars]
  | cons c cs ih =>
    have hc := h c List.mem_cons_self
    have hbyte := Bytes.toNat_ofChar hc
    have hlt : Bytes.ofChar c < 0x80 := by
      rw [UInt8.lt_iff_toNat_lt, hbyte]
      exact hc
    rw [List.map_cons, decodeChars, takeChar, if_pos hlt, hbyte, Char.ofNat_toNat,
      ih fun d hd => h d (List.mem_cons_of_mem c hd)]

end Text

namespace Service

namespace Query

/-- The characters that stand for something else than themselves in a query, or end it. -/
def marks : List Char := ['%', '+', '&', '=', '#']

def isPlain (c : Char) : Bool :=
  c.toNat < 0x80 && c ∉ marks

def isPlainText (s : String) : Bool :=
  s.toList.all isPlain

/-- A name and a number, as they stand in a query. -/
def assign (p : String × Nat) : List Char :=
  p.1.toList ++ '=' :: Text.decimal p.2

/-- Each number by its name. -/
def ofNumbers (ps : List (String × Nat)) : String :=
  String.ofList (['&'].intercalate (ps.map assign))

section Plain

variable {cs : List Char}

theorem isPlain_iff {c : Char} : isPlain c = true ↔ c.toNat < 0x80 ∧ c ∉ marks := by
  simp [isPlain]

theorem isPlain_of_mem {s : String} (h : isPlainText s = true) : ∀ c ∈ s.toList, isPlain c = true :=
  List.all_eq_true.1 h

theorem lt_of_mem_marks : ∀ mark ∈ marks, mark.toNat < 0x80 := by
  have hall : marks.all (·.toNat < 0x80) = true := by decide
  simpa using hall

theorem mark_not_mem (h : ∀ c ∈ cs, isPlain c = true) {b : UInt8}
    (hb : b ∈ marks.map Bytes.ofChar) : b ∉ cs.map Bytes.ofChar := by
  intro hmem
  obtain ⟨mark, hmark, rfl⟩ := List.mem_map.1 hb
  obtain ⟨c, hc, hbyte⟩ := List.mem_map.1 hmem
  obtain ⟨hlt, hnot⟩ := isPlain_iff.1 (h c hc)
  rw [Bytes.ofChar_inj hlt (lt_of_mem_marks mark hmark) hbyte] at hnot
  exact hnot hmark

theorem isPlain_decimal (n : Nat) : ∀ c ∈ Text.decimal n, isPlain c = true := by
  intro c hc
  obtain ⟨k, hk, rfl⟩ := Text.mem_numeral (by decide) hc
  clear hc
  revert k
  decide

theorem percentDecode_of_not_mem (keep : UInt8 → Bool) {bytes : Bytes}
    (h : 0x25 ∉ bytes) : percentDecode keep bytes = bytes := by
  have hne : ∀ {c : UInt8} {rest : Bytes}, 0x25 ∉ c :: rest → (c == 0x25) = false :=
    fun hc => beq_false_of_ne (List.ne_of_not_mem_cons hc).symm
  fun_induction percentDecode keep bytes with
  | case1 => rfl
  | case2 c hi lo tail b hb hkeep ih =>
    rw [hne h] at hb
    cases hb
  | case3 c hi lo tail b hb hkeep ih =>
    rw [hne h] at hb
    cases hb
  | case4 c hi lo tail hb ih => rw [ih (List.not_mem_of_not_mem_cons h)]
  | case5 c rest hrest ih => rw [ih (List.not_mem_of_not_mem_cons h)]

theorem decodeText_map_ofChar (h : ∀ c ∈ cs, isPlain c = true) :
    decodeText (cs.map Bytes.ofChar) = String.ofList cs := by
  have hspaced : (cs.map Bytes.ofChar).map (fun b => if b == 0x2B then 0x20 else b) =
      cs.map Bytes.ofChar := by
    refine (List.map_congr_left fun b hb => ?_).trans (List.map_id _)
    refine if_neg fun hplus => mark_not_mem h ?_ hb
    rw [beq_iff_eq.1 hplus]
    decide
  rw [decodeText, hspaced, percentDecode_of_not_mem _ (mark_not_mem h (by decide)),
    Text.decode, Text.decodeChars_map_ofChar fun c hc => (isPlain_iff.1 (h c hc)).1]

end Plain

section Numbers

variable {ps : List (String × Nat)}

theorem map_intercalate {α β : Type} (f : α → β) (sep : List α) : ∀ parts : List (List α),
    (sep.intercalate parts).map f = (sep.map f).intercalate (parts.map (List.map f))
  | [] => rfl
  | [part] => by simp [List.intercalate]
  | part :: next :: parts => by
    have ih := map_intercalate f sep (next :: parts)
    simp only [List.map_cons, List.intercalate_cons_cons, List.map_append] at ih ⊢
    rw [ih]

theorem mem_intercalate {α : Type} {a : α} {sep : List α} : ∀ {parts : List (List α)},
    a ∈ sep.intercalate parts → a ∈ sep ∨ ∃ part ∈ parts, a ∈ part
  | [], h => by cases h
  | [part], h => .inr ⟨part, by simp, by simpa [List.intercalate] using h⟩
  | part :: next :: parts, h => by
    rw [List.intercalate_cons_cons, List.mem_append, List.mem_append] at h
    rcases h with (h | h) | h
    · exact .inr ⟨part, List.mem_cons_self, h⟩
    · exact .inl h
    · rcases mem_intercalate h with h | ⟨part', hmem, h⟩
      · exact .inl h
      · exact .inr ⟨part', List.mem_cons_of_mem part hmem, h⟩

theorem mem_assign {p : String × Nat} (h : isPlainText p.1 = true) :
    ∀ c ∈ assign p, isPlain c = true ∨ c = '=' := by
  intro c hc
  rcases List.mem_append.1 hc with hc | hc
  · exact .inl (isPlain_of_mem h c hc)
  · rcases List.mem_cons.1 hc with rfl | hc
    · exact .inr rfl
    · exact .inl (isPlain_decimal p.2 c hc)

theorem amp_not_mem_assign {p : String × Nat} (h : isPlainText p.1 = true) :
    (0x26 : UInt8) ∉ (assign p).map Bytes.ofChar := by
  rw [assign, List.map_append, List.map_cons, List.mem_append, List.mem_cons]
  rintro (hmem | hmem | hmem)
  · exact mark_not_mem (isPlain_of_mem h) (by decide) hmem
  · revert hmem
    decide
  · exact mark_not_mem (isPlain_decimal p.2) (by decide) hmem

theorem read_assign {p : String × Nat} (h : isPlainText p.1 = true) :
    (let part := (assign p).map Bytes.ofChar
     let name := part.takeWhile (· != 0x3D)
     (decodeText name, decodeText (part.drop (name.length + 1)))) =
      (p.1, String.ofList (Text.decimal p.2)) := by
  have hname : ((assign p).map Bytes.ofChar).takeWhile (· != 0x3D) =
      p.1.toList.map Bytes.ofChar := by
    have hplain : ∀ b ∈ p.1.toList.map Bytes.ofChar, (b != 0x3D) = true := by
      intro b hb
      refine bne_iff_ne.2 fun heq => mark_not_mem (isPlain_of_mem h) ?_ hb
      rw [heq]
      decide
    rw [assign, List.map_append, List.takeWhile_append_of_pos hplain, List.map_cons,
      List.takeWhile_cons_of_neg (by decide), List.append_nil]
  have hdrop : ((assign p).map Bytes.ofChar).drop ((p.1.toList.map Bytes.ofChar).length + 1) =
      (Text.decimal p.2).map Bytes.ofChar := by
    rw [assign, List.map_append, List.map_cons, List.drop_length_add_append]
    rfl
  dsimp only
  rw [hname, hdrop, decodeText_map_ofChar (isPlain_of_mem h),
    decodeText_map_ofChar (isPlain_decimal p.2), String.ofList_toList]

/-- Nothing but the marks between and within the parts stands in such a query beside plain text. -/
theorem mem_ofNumbers (h : ∀ p ∈ ps, isPlainText p.1 = true) :
    ∀ c ∈ (ofNumbers ps).toList, isPlain c = true ∨ c = '=' ∨ c = '&' := by
  intro c hc
  rw [ofNumbers, String.toList_ofList] at hc
  rcases mem_intercalate hc with hc | ⟨part, hpart, hc⟩
  · exact .inr (.inr (List.mem_singleton.1 hc))
  · obtain ⟨p, hp, rfl⟩ := List.mem_map.1 hpart
    exact (mem_assign (h p hp) c hc).imp_right .inl

theorem ofText_ofNumbers (h : ∀ p ∈ ps, isPlainText p.1 = true) :
    Bytes.ofText (ofNumbers ps) =
      [0x26].intercalate (ps.map fun p => (assign p).map Bytes.ofChar) := by
  have hascii : ∀ c ∈ (ofNumbers ps).toList, c.toNat < 0x80 := by
    intro c hc
    rcases mem_ofNumbers h c hc with hc | rfl | rfl
    · exact (isPlain_iff.1 hc).1
    · decide
    · decide
  rw [ofNumbers, String.toList_ofList] at hascii
  rw [ofNumbers, Bytes.ofText_ofList hascii, map_intercalate, List.map_map]
  rfl

theorem pairs_ofNumbers (h : ∀ p ∈ ps, isPlainText p.1 = true) :
    pairs (ofNumbers ps) = ps.map fun p => (p.1, String.ofList (Text.decimal p.2)) := by
  rcases ps with _ | ⟨p, ps⟩
  · rw [pairs, ofText_ofNumbers h]
    rfl
  · have hparts : ∀ part ∈ (p :: ps).map fun p => (assign p).map Bytes.ofChar,
        (0x26 : UInt8) ∉ part ∧ (!part.isEmpty) = true := by
      intro part hpart
      obtain ⟨q, hq, rfl⟩ := List.mem_map.1 hpart
      exact ⟨amp_not_mem_assign (h q hq), by simp [assign]⟩
    have hsplit := List.splitOn_intercalate 0x26 (fun part hpart => (hparts part hpart).1) (by simp)
    have hkept := List.filter_eq_self.2 fun part hpart => (hparts part hpart).2
    rw [pairs, ofText_ofNumbers h, hsplit, hkept, List.map_map]
    exact List.map_congr_left fun p hp => read_assign (h p hp)

theorem foldlM_step {names : List String} : ∀ {ps found : List (String × Nat)},
    (∀ p ∈ ps, p.1 ∈ names) → (ps.map Prod.fst).Nodup → (∀ p ∈ ps, p.2 < UInt64.size) →
      (∀ p ∈ ps, found.lookup p.1 = none) →
        (ps.map fun p => (p.1, String.ofList (Text.decimal p.2))).foldlM (step names) found =
          .ok (ps.reverse ++ found)
  | [], found, _, _, _, _ => rfl
  | p :: ps, found, hnames, hnodup, hlt, hfound => by
    have hstep : step names found (p.1, String.ofList (Text.decimal p.2)) = .ok (p :: found) := by
      simp [step, hnames p, hfound p, Text.Decimal.read_decimal (hlt p List.mem_cons_self)]
    rw [List.map_cons, List.nodup_cons] at hnodup
    rw [List.map_cons, List.foldlM_cons, hstep]
    have hlater : ∀ q ∈ ps, (p :: found).lookup q.1 = none := by
      intro q hq
      have hne : q.1 ≠ p.1 := by
        intro heq
        rw [← heq] at hnodup
        exact hnodup.1 (List.mem_map_of_mem hq)
      rw [List.lookup_cons, beq_false_of_ne hne]
      exact hfound q (List.mem_cons_of_mem p hq)
    have ih := foldlM_step (fun q hq => hnames q (List.mem_cons_of_mem p hq)) hnodup.2
      (fun q hq => hlt q (List.mem_cons_of_mem p hq)) hlater
    rw [List.reverse_cons, List.append_assoc]
    exact ih

/-- The numbers are found under their names, whatever they are. -/
theorem numbers_ofNumbers {names : List String}
    (h : ∀ p ∈ ps, isPlainText p.1 = true) (hnames : ∀ p ∈ ps, p.1 ∈ names)
    (hnodup : (ps.map Prod.fst).Nodup) (hlt : ∀ p ∈ ps, p.2 < UInt64.size) :
    numbers names (ofNumbers ps) = .ok ps.reverse := by
  rw [numbers, pairs_ofNumbers h, foldlM_step hnames hnodup hlt fun _ _ => rfl, List.append_nil]

end Numbers

end Query

/-- Asks for what is under a path, given some numbers. -/
def Request.get (path : String) (ps : List (String × Nat)) : Request :=
  ⟨"GET", path ++ "?" ++ Query.ofNumbers ps⟩

example : Request.get "/index" [("from", 20), ("count", 3)] =
    ⟨"GET", "/index?from=20&count=3"⟩ := by
  decide +kernel

theorem splitTarget_get {path query : String} (hhost : path.toList.head? = some '/')
    (hquestion : '?' ∉ path.toList) (hsign : '#' ∉ path.toList) (hquery : '#' ∉ query.toList) :
    splitTarget (path ++ "?" ++ query) = (path, query) := by
  have htarget : (path ++ "?" ++ query).toList = path.toList ++ '?' :: query.toList := by
    simp
  have hdrop : dropHost (path ++ "?" ++ query).toList = path.toList ++ '?' :: query.toList := by
    rw [htarget, dropHost, if_pos]
    rw [List.head?_append, hhost]
    rfl
  have hall : (path.toList ++ '?' :: query.toList).takeWhile (· != '#') =
      path.toList ++ '?' :: query.toList := by
    have hmem : '#' ∉ path.toList ++ '?' :: query.toList := by simp [hsign, hquery]
    refine List.takeWhile_eq_self_iff.2 fun c hc => bne_iff_ne.2 ?_
    rintro rfl
    exact hmem hc
  have hname : (path.toList ++ '?' :: query.toList).takeWhile (· != '?') = path.toList := by
    have hbefore : ∀ c ∈ path.toList, (c != '?') = true := by
      intro c hc
      refine bne_iff_ne.2 ?_
      rintro rfl
      exact hquestion hc
    rw [List.takeWhile_append_of_pos hbefore, List.takeWhile_cons_of_neg (by decide),
      List.append_nil]
  simp only [splitTarget, hdrop, hall, hname, List.drop_length_add_append, List.drop_succ_cons,
    List.drop_zero, String.ofList_toList]

/-- Numbers asked for under a path are answered as the path says. -/
theorem handle_get {path : String} {ps : List (String × Nat)} (s : Service)
    (hhost : path.toList.head? = some '/') (hquestion : '?' ∉ path.toList)
    (hsign : '#' ∉ path.toList) (hps : ∀ p ∈ ps, Query.isPlainText p.1 = true) :
    s.handle (.get path ps) =
      match Route.ofPath? path with
      | none => (.notFound, s)
      | some .info => (.ok s.info, s)
      | some .range => s.answerRange (Query.ofNumbers ps)
      | some .index => (s.answerIndex (Query.ofNumbers ps), s) := by
  have hquery : '#' ∉ (Query.ofNumbers ps).toList := by
    intro hmem
    rcases Query.mem_ofNumbers hps _ hmem with h | h | h
    · exact absurd h (by decide)
    · cases h
    · cases h
  have hsplit := splitTarget_get hhost hquestion hsign hquery
  rcases hroute : Route.ofPath? path with _ | _ | _ | _ <;>
    simp [handle, Request.get, hsplit, hroute]

end Service

end Telemetry
