import Mathlib.Tactic.Common
import Telemetry.Session

/-!
# What a whole stream parses into

`Record.Parser.parse` takes apart all the bytes from some position on, as if they were at hand at
once.  What a parser decides on a window it decides on any longer one (`decode_append`), so a
session that sees the bytes piece by piece parses the same records.

Between two records a parser holds nothing: parsing from the offset and the ordinal of any record
on gives that record and the later ones (`parse_drop`).  A limit only cuts the records short
(`records_parse_limit`).
-/

namespace Telemetry

/-- The end of a session whose last record is `lastGood`. -/
def StreamEnd.withLastGood (e : StreamEnd) (lastGood : Option Mark) : StreamEnd :=
  match e with
  | .lostSync ordinal offset tag _ => .lostSync ordinal offset tag lastGood
  | e => e

namespace Record

namespace Parser

/-- A longer window decides what a shorter one decided. -/
theorem decode_append (p : Parser) (window more : Bytes) (offset ordinal : Nat) :
    p.decode window offset ordinal = .ok (.needMore, p) ∨
      p.decode (window ++ more) offset ordinal = p.decode window offset ordinal := by
  cases window with
  | nil => exact .inl rfl
  | cons tag rest =>
    simp only [decode, List.cons_append]
    rcases p.interrupted tag with _ | text
    · rcases p.table.get? tag with _ | t
      · exact .inr rfl
      · dsimp only
        rcases t.layout with ⟨length, timestamp⟩ | _
        · by_cases hlen : rest.length < length
          · left
            have htake : (rest.take length).length < length := by
              rw [List.length_take]
              omega
            simp only [decideFixed, if_pos htake]
            rfl
          · right
            simp only [decideFixed]
            rw [List.take_append_of_le_length (by omega)]
        · cases rest with
          | nil => exact .inl rfl
          | cons char more' => exact .inr rfl
    · exact .inr rfl

theorem decode_of_prefix {p : Parser} {window rest : Bytes} (h : window <+: rest)
    (offset ordinal : Nat) :
    p.decode window offset ordinal = .ok (.needMore, p) ∨
      p.decode rest offset ordinal = p.decode window offset ordinal := by
  obtain ⟨more, rfl⟩ := h
  exact p.decode_append window more offset ordinal

/-- An open text has the tag of a text and begins at `offset` or before. -/
structure Sound (p : Parser) (offset : Nat) : Prop where
  layout_eq : ∀ text, p.openText = some text →
    ∃ t, p.table.get? text.tag = some t ∧ t.layout = .text
  offset_le : ∀ text, p.openText = some text → text.offset ≤ offset

theorem sound_of_openText {p : Parser} (h : p.openText = none) (offset : Nat) :
    p.Sound offset :=
  ⟨by simp [h], by simp [h]⟩

theorem sound_reset (p : Parser) (offset : Nat) : p.reset.Sound offset :=
  sound_of_openText rfl offset

/-- Where the record begins that the parser is in, if it looks at `offset`. -/
def start (p : Parser) (offset : Nat) : Nat :=
  p.pendingOffset.getD offset

theorem Sound.start_le {p : Parser} {offset : Nat} (h : p.Sound offset) :
    p.start offset ≤ offset := by
  rcases hp : p.openText with _ | text
  · simp [start, pendingOffset, hp]
  · simpa [start, pendingOffset, hp] using h.offset_le text hp

theorem start_of_openText {p : Parser} (h : p.openText = none) (offset : Nat) :
    p.start offset = offset := by
  simp [start, pendingOffset, h]

theorem reset_of_openText {p : Parser} (h : p.openText = none) : p.reset = p := by
  simp [reset, ← h]

/-- What a look at `window` may find. -/
inductive Decides (p : Parser) (window : Bytes) (offset ordinal : Nat) :
    Decision → Parser → Prop where
  | needMore : Decides p window offset ordinal .needMore p
  | lostSync {tag : UInt8} {rest : Bytes} (hwindow : window = tag :: rest)
      (htable : p.table.get? tag = none) (hopen : p.openText = none) :
    Decides p window offset ordinal (.lostSync offset tag) p
  | pending {text : OpenText} (hsound : { p with openText := some text : Parser }.Sound (offset + 2))
      (hstart : text.offset = p.start offset) (hlen : 2 ≤ window.length) :
    Decides p window offset ordinal (.pending 2) { p with openText := some text }
  | complete {r : Record} {n : Nat} (hordinal : r.ordinal = ordinal)
      (hoffset : r.offset = p.start offset) (hlen : n ≤ window.length) :
    Decides p window offset ordinal (.complete r n) p.reset

theorem close_eq_ok {text : OpenText} {stop : Nat} (h : text.offset ≤ stop) (ordinal : Nat)
    (terminated : Bool) :
    ∃ r, text.close stop ordinal terminated = .ok r ∧ r.ordinal = ordinal ∧
      r.offset = text.offset := by
  have hsub : Word.sub stop text.offset = .ok (stop - text.offset) :=
    Word.sub_eq_ok_iff.2 ⟨h, rfl⟩
  exact ⟨_, by simp only [OpenText.close, hsub]; rfl, rfl, rfl⟩

theorem openText_of_interrupted {p : Parser} {tag : UInt8} {text : OpenText}
    (h : p.interrupted tag = some text) : p.openText = some text :=
  (Option.filter_eq_some_iff.1 h).1

theorem tag_of_not_interrupted {p : Parser} {tag : UInt8} {text : OpenText}
    (h : p.interrupted tag = none) (ht : p.openText = some text) : text.tag = tag := by
  rw [interrupted, ht, Option.filter_some] at h
  split at h
  · simp at h
  · next hne => simpa using hne

/-- The next pair of a text, which an overflow cannot stop. -/
theorem Sound.decideText {p : Parser} {offset : Nat} (h : p.Sound offset) {tag : UInt8} {t : Tag}
    (hi : p.interrupted tag = none) (ht : p.table.get? tag = some t) (hl : t.layout = .text)
    (rest : Bytes) (ordinal : Nat) (hfit : rest ≠ [] → offset + 2 < Word.size) :
    ∃ d p', p.decideText tag rest offset ordinal = .ok (d, p') ∧
      p.Decides (tag :: rest) offset ordinal d p' := by
  cases rest with
  | nil => exact ⟨_, _, rfl, .needMore⟩
  | cons char rest =>
    obtain ⟨text, htext⟩ : ∃ text, text = p.openText.getD { tag, offset } := ⟨_, rfl⟩
    have hstart : text.offset = p.start offset := by
      rw [htext, start, pendingOffset]
      cases p.openText <;> rfl
    have hle : text.offset ≤ offset := by
      rw [htext]
      cases hp : p.openText with
      | none => exact Nat.le_refl offset
      | some text => exact h.offset_le text hp
    have htag : text.tag = tag := by
      rw [htext]
      cases hp : p.openText with
      | none => rfl
      | some text => exact tag_of_not_interrupted hi hp
    simp only [Parser.decideText, ← htext]
    split_ifs with hzero hfull
    · have hadd : Word.add offset 2 = .ok (offset + 2) :=
        Word.add_eq_ok_iff.2 ⟨hfit (List.cons_ne_nil _ _), rfl⟩
      have hle' : text.offset ≤ offset + 2 := by omega
      obtain ⟨r, hr, hordinal, hoffset⟩ := close_eq_ok hle' ordinal true
      refine ⟨.complete r 2, p.reset, by simp only [hadd, bind, Except.bind, hr]; rfl, ?_⟩
      exact .complete hordinal (hoffset.trans hstart) (by simp)
    · obtain ⟨r, hr, hordinal, hoffset⟩ := close_eq_ok hle ordinal false
      refine ⟨.complete r 0, p.reset, by simp only [bind, Except.bind, hr]; rfl, ?_⟩
      exact .complete hordinal (hoffset.trans hstart) (Nat.zero_le _)
    · refine ⟨_, _, rfl, .pending ⟨?_, ?_⟩ hstart (by simp)⟩
      · intro text' h'
        simp only [Option.some.injEq] at h'
        subst h'
        exact ⟨t, htag ▸ ht, hl⟩
      · intro text' h'
        simp only [Option.some.injEq] at h'
        subst h'
        exact Nat.le_succ_of_le (Nat.le_succ_of_le hle)

/-- A look does not overflow if the position behind a pair of a text is a word. -/
theorem Sound.decode {p : Parser} {offset : Nat} (h : p.Sound offset) (window : Bytes)
    (ordinal : Nat) (hfit : 2 ≤ window.length → offset + 2 < Word.size) :
    ∃ d p', p.decode window offset ordinal = .ok (d, p') ∧ p.Decides window offset ordinal d p' := by
  cases window with
  | nil => exact ⟨_, _, rfl, .needMore⟩
  | cons tag rest =>
    simp only [Parser.decode]
    rcases hi : p.interrupted tag with _ | text
    · have hnone : ∀ u, p.table.get? tag = u → (∀ t, u = some t → t.layout ≠ .text) →
          p.openText = none := by
        intro u hu hlayout
        by_contra hne
        obtain ⟨text, htext⟩ := Option.ne_none_iff_exists'.1 hne
        obtain ⟨t, ht, hl⟩ := h.layout_eq text htext
        rw [tag_of_not_interrupted hi htext, hu] at ht
        exact hlayout t ht hl
      rcases ht : p.table.get? tag with _ | t
      · exact ⟨_, _, rfl, .lostSync rfl ht (hnone none ht (by simp))⟩
      · dsimp only
        rcases hl : t.layout with ⟨length, timestamp⟩ | _
        · dsimp only [decideFixed]
          have hopen := hnone (some t) ht fun t' h' => by
            simp only [Option.some.injEq] at h'
            simp [← h', hl]
          split_ifs with hlen
          · exact ⟨_, _, rfl, .needMore⟩
          · rw [List.length_take] at hlen
            refine ⟨_, _, rfl, ?_⟩
            nth_rewrite 2 [← reset_of_openText hopen]
            refine .complete rfl (start_of_openText hopen offset).symm ?_
            simp only [List.length_cons]
            omega
        · refine h.decideText hi ht hl rest ordinal fun hne => hfit ?_
          exact Nat.succ_le_succ (List.length_pos_iff.2 hne)
    · have htext := openText_of_interrupted hi
      obtain ⟨r, hr, hordinal, hoffset⟩ := close_eq_ok (h.offset_le text htext) ordinal false
      refine ⟨.complete r 0, p.reset, by simp only [bind, Except.bind, hr]; rfl, ?_⟩
      refine .complete hordinal ?_ (Nat.zero_le _)
      rw [hoffset, start, pendingOffset, htext]
      rfl

theorem Sound.decides {p p' : Parser} {offset ordinal : Nat} (h : p.Sound offset)
    {window : Bytes} {d : Decision} (hfit : offset + window.length < Word.size)
    (hd : p.decode window offset ordinal = .ok (d, p')) :
    p.Decides window offset ordinal d p' := by
  obtain ⟨d', q, hq, hdec⟩ := h.decode window ordinal fun hlen => by omega
  rw [hd] at hq
  simp only [Except.ok.injEq, Prod.mk.injEq] at hq
  obtain ⟨rfl, rfl⟩ := hq
  exact hdec

end Parser

/-- What the rest of a stream parses into. -/
structure Parse where
  records : List Record
  /-- Why there are no more, without the last good record. -/
  finish : StreamEnd
  /-- Where the parser stands then. -/
  offset : Nat

namespace Parser

/-- What the end of the data means with `tail` bytes left. -/
def endOf (p : Parser) (tail offset : Nat) : StreamEnd :=
  match p.pendingOffset with
  | some start => .truncated start (offset - start + tail)
  | none => if tail = 0 then .eof else .truncated offset tail

/-- Parses all of `rest`, which starts at `offset`, up to the limit.  An overflow, which the bytes
of a stream do not cause, counts as the end of the data. -/
def parse (p : Parser) (limit : Option Nat) (rest : Bytes) (offset ordinal : Nat) : Parse :=
  match limit.filter (· ≤ ordinal) with
  | some l => ⟨[], .limit l, offset⟩
  | none =>
    match _h : p.decode rest offset ordinal with
    | .ok (.complete r n, p') =>
      let tail := p'.parse limit (rest.drop n) (offset + n) (ordinal + 1)
      { tail with records := r :: tail.records }
    | .ok (.pending n, p') => p'.parse limit (rest.drop n) (offset + n) ordinal
    | .ok (.lostSync position tag, _) => ⟨[], .lostSync ordinal position tag none, offset⟩
    | .ok (.needMore, _) => ⟨[], p.endOf rest.length offset, offset⟩
    | .error _ => ⟨[], p.endOf rest.length offset, offset⟩
termination_by 2 * rest.length + if p.openText.isSome then 1 else 0
decreasing_by
  · rcases progress_of_complete _h with ⟨rfl, hopen, hnone⟩ | ⟨hpos, hle, himp⟩
    · simp [hopen, hnone]
    · rw [List.length_drop]
      by_cases hopen : p'.openText.isSome
      · rw [if_pos hopen, if_pos (himp hopen)]
        omega
      · rw [if_neg hopen]
        omega
  · obtain ⟨rfl, hle⟩ := consumed_of_pending _h
    rw [List.length_drop]
    split_ifs <;> omega

section Parse

variable {p p' : Parser} {limit : Option Nat} {rest : Bytes} {offset ordinal n : Nat}

theorem parse_of_limit {l : Nat} (h : limit.filter (· ≤ ordinal) = some l) :
    p.parse limit rest offset ordinal = ⟨[], .limit l, offset⟩ := by
  rw [parse, h]

theorem parse_of_complete {r : Record} (h : limit.filter (· ≤ ordinal) = none)
    (hd : p.decode rest offset ordinal = .ok (.complete r n, p')) :
    p.parse limit rest offset ordinal =
      { p'.parse limit (rest.drop n) (offset + n) (ordinal + 1) with
        records := r :: (p'.parse limit (rest.drop n) (offset + n) (ordinal + 1)).records } := by
  rw [parse, h]
  dsimp only
  split <;> simp_all

theorem parse_of_pending (h : limit.filter (· ≤ ordinal) = none)
    (hd : p.decode rest offset ordinal = .ok (.pending n, p')) :
    p.parse limit rest offset ordinal = p'.parse limit (rest.drop n) (offset + n) ordinal := by
  rw [parse, h]
  dsimp only
  split <;> simp_all

theorem parse_of_lostSync {position : Nat} {tag : UInt8} (h : limit.filter (· ≤ ordinal) = none)
    (hd : p.decode rest offset ordinal = .ok (.lostSync position tag, p')) :
    p.parse limit rest offset ordinal = ⟨[], .lostSync ordinal position tag none, offset⟩ := by
  rw [parse, h]
  dsimp only
  split <;> simp_all

theorem parse_of_needMore (h : limit.filter (· ≤ ordinal) = none)
    (hd : p.decode rest offset ordinal = .ok (.needMore, p')) :
    p.parse limit rest offset ordinal = ⟨[], p.endOf rest.length offset, offset⟩ := by
  rw [parse, h]
  dsimp only
  split <;> simp_all

theorem parse_of_error {o : Overflow} (h : limit.filter (· ≤ ordinal) = none)
    (hd : p.decode rest offset ordinal = .error o) :
    p.parse limit rest offset ordinal = ⟨[], p.endOf rest.length offset, offset⟩ := by
  rw [parse, h]
  dsimp only
  split <;> simp_all

end Parse

/-- Parsing can be taken up at any record: what is in the parser then does not matter. -/
theorem parse_drop {data : Bytes} (limit : Option Nat) (p : Parser) (rest : Bytes)
    (offset ordinal : Nat) (h : p.Sound offset) (hrest : rest = data.drop offset)
    (hfit : offset + rest.length < Word.size)
    (hstart : p.reset.parse limit (data.drop (p.start offset)) (p.start offset) ordinal =
      p.parse limit rest offset ordinal) :
    ∀ {i : Nat} {r : Record}, (p.parse limit rest offset ordinal).records[i]? = some r →
      r.ordinal = ordinal + i ∧
        p.reset.parse limit (data.drop r.offset) r.offset r.ordinal =
          { p.parse limit rest offset ordinal with
            records := (p.parse limit rest offset ordinal).records.drop i } := by
  induction p, rest, offset, ordinal using parse.induct limit with
  | case1 p rest offset ordinal l hl =>
    intro i r hr
    simp [parse_of_limit hl] at hr
  | case2 p rest offset ordinal hl r n p' hd ih =>
    intro i r' hr
    obtain - | - | - | ⟨hordinal, hoffset, hlen⟩ := h.decides hfit hd
    rw [parse_of_complete hl hd] at hr ⊢
    rcases i with _ | i
    · simp only [List.getElem?_cons_zero, Option.some.injEq] at hr
      subst hr
      refine ⟨hordinal, ?_⟩
      rw [hordinal, hoffset, hstart, parse_of_complete hl hd]
      rfl
    · rw [List.getElem?_cons_succ] at hr
      have hdrop : rest.drop n = data.drop (offset + n) := by rw [hrest, List.drop_drop]
      have hnext := ih (p.sound_reset _) hdrop (by rw [List.length_drop]; omega)
        (by rw [start_of_openText rfl, hdrop]; rfl) hr
      refine ⟨by omega, hnext.2⟩
  | case3 p rest offset ordinal hl n p' hd ih =>
    intro i r hr
    obtain - | - | ⟨hsound, hbegin, hlen⟩ := h.decides hfit hd
    rw [parse_of_pending hl hd] at hr hstart ⊢
    have hdrop : rest.drop 2 = data.drop (offset + 2) := by rw [hrest, List.drop_drop]
    -- the text began where it did: parsing it from there again leads to this pair
    refine ih hsound hdrop (by rw [List.length_drop]; omega) ?_ hr
    rw [← hstart, ← hbegin]
    rfl
  | case4 p rest offset ordinal hl position tag p' hd =>
    intro i r hr
    simp [parse_of_lostSync hl hd] at hr
  | case5 p rest offset ordinal hl p' hd =>
    intro i r hr
    simp [parse_of_needMore hl hd] at hr
  | case6 p rest offset ordinal hl o hd =>
    obtain ⟨d, p', hd', -⟩ := h.decode rest ordinal fun _ => by omega
    rw [hd] at hd'
    cases hd'

/-- A record begins within the data. -/
theorem offset_le_of_mem_parse {limit : Option Nat} (p : Parser) (rest : Bytes)
    (offset ordinal : Nat) (h : p.Sound offset) (hfit : offset + rest.length < Word.size) :
    ∀ r ∈ (p.parse limit rest offset ordinal).records, r.offset ≤ offset + rest.length := by
  induction p, rest, offset, ordinal using parse.induct limit with
  | case1 p rest offset ordinal l hl =>
    intro r hr
    simp [parse_of_limit hl] at hr
  | case2 p rest offset ordinal hl r n p' hd ih =>
    intro r' hr
    obtain - | - | - | ⟨-, hoffset, hlen⟩ := h.decides hfit hd
    rw [parse_of_complete hl hd] at hr
    have hlength := List.length_drop (i := n) (l := rest)
    rcases List.mem_cons.1 hr with rfl | hr
    · have := h.start_le
      omega
    · have := ih (p.sound_reset _) (by omega) r' hr
      omega
  | case3 p rest offset ordinal hl n p' hd ih =>
    intro r hr
    obtain - | - | ⟨hsound, -, hlen⟩ := h.decides hfit hd
    rw [parse_of_pending hl hd] at hr
    have hlength := List.length_drop (i := 2) (l := rest)
    have := ih hsound (by omega) r hr
    omega
  | case4 p rest offset ordinal hl position tag p' hd =>
    intro r hr
    simp [parse_of_lostSync hl hd] at hr
  | case5 p rest offset ordinal hl p' hd =>
    intro r hr
    simp [parse_of_needMore hl hd] at hr
  | case6 p rest offset ordinal hl o hd =>
    intro r hr
    simp [parse_of_error hl hd] at hr

theorem filter_limit_of_le {l ordinal : Nat} (h : l ≤ ordinal) :
    (some l).filter (· ≤ ordinal) = some l := by
  simp [h]

theorem filter_limit_of_lt {l ordinal : Nat} (h : ordinal < l) :
    (some l).filter (· ≤ ordinal) = none := by
  simp [h]

theorem records_parse_of_le {l : Nat} {p : Parser} {rest : Bytes} {offset ordinal : Nat}
    (h : l ≤ ordinal) (rs : List Record) :
    (p.parse (some l) rest offset ordinal).records = rs.take (l - ordinal) := by
  rw [parse_of_limit (filter_limit_of_le h), Nat.sub_eq_zero_of_le h, List.take_zero]

/-- A limit leaves the records before it. -/
theorem records_parse_limit (l : Nat) (p : Parser) (rest : Bytes) (offset ordinal : Nat) :
    (p.parse (some l) rest offset ordinal).records =
      (p.parse none rest offset ordinal).records.take (l - ordinal) := by
  induction p, rest, offset, ordinal using parse.induct none with
  | case1 p rest offset ordinal l' hl => simp at hl
  | case2 p rest offset ordinal hl r n p' hd ih =>
    rcases Nat.lt_or_ge ordinal l with hlt | hge
    · rw [parse_of_complete (filter_limit_of_lt hlt) hd, parse_of_complete hl hd]
      dsimp only
      rw [ih, show l - ordinal = l - (ordinal + 1) + 1 by omega, List.take_succ_cons]
    · exact records_parse_of_le hge _
  | case3 p rest offset ordinal hl n p' hd ih =>
    rcases Nat.lt_or_ge ordinal l with hlt | hge
    · rw [parse_of_pending (filter_limit_of_lt hlt) hd, parse_of_pending hl hd, ih]
    · exact records_parse_of_le hge _
  | case4 p rest offset ordinal hl position tag p' hd =>
    rcases Nat.lt_or_ge ordinal l with hlt | hge
    · rw [parse_of_lostSync (filter_limit_of_lt hlt) hd, parse_of_lostSync hl hd, List.take_nil]
    · exact records_parse_of_le hge _
  | case5 p rest offset ordinal hl p' hd =>
    rcases Nat.lt_or_ge ordinal l with hlt | hge
    · rw [parse_of_needMore (filter_limit_of_lt hlt) hd, parse_of_needMore hl hd, List.take_nil]
    · exact records_parse_of_le hge _
  | case6 p rest offset ordinal hl o hd =>
    rcases Nat.lt_or_ge ordinal l with hlt | hge
    · rw [parse_of_error (filter_limit_of_lt hlt) hd, parse_of_error hl hd, List.take_nil]
    · exact records_parse_of_le hge _

end Parser

end Record

end Telemetry
