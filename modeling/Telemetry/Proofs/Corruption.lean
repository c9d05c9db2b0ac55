import Telemetry.Proofs.RoundTrip
import Telemetry.Proofs.StreamOrder

/-!
# A tag that is overwritten

Where a parser found that a record ends, the bytes that follow show it (`parted_parse`).  An unknown
tag in the place of the next one shows it too, so overwriting a tag leaves all that comes before it:
the records before, and of a text the characters before (`run_overwritten`).
-/

namespace Telemetry

theorem set_append_cons {α : Type} (xs : List α) (y : α) (ys : List α) (z : α) :
    (xs ++ y :: ys).set xs.length z = xs ++ z :: ys := by
  rw [List.set_append_right _ _ (Nat.le_refl _), Nat.sub_self]
  rfl

namespace Record

/-- The record that is left of a text which is cut short after some characters. -/
def firstChars (r : Record) (count : Nat) : Record :=
  { r with
    kind := .text false
    payload := r.payload.take count
    length := 2 * count }

namespace Body

variable {table : Tag.Table} {b b' : Body}

/-- Two bytes show where a body ends, if any do. -/
theorem ShownBy.congr {xs ys : Bytes} (h : b.ShownBy xs) (hxy : xs.take 2 = ys.take 2) :
    b.ShownBy ys := by
  intro hkind
  obtain ⟨next, hhead, hnext⟩ := h hkind
  have hget : ∀ i < 2, ys[i]? = xs[i]? := fun i hi => by
    rw [← List.getElem?_take_of_lt hi, ← hxy, List.getElem?_take_of_lt hi]
  refine ⟨next, ?_, hnext.imp_right fun ⟨hfull, c, hc, hzero⟩ => ⟨hfull, c, ?_, hzero⟩⟩
  · rw [List.head?_eq_getElem?, hget 0 (by decide), ← List.head?_eq_getElem?, hhead]
  · rw [hget 1 (by decide), hc]

theorem Valid.shownBy_unknown (h : b.Valid table) {bad : UInt8} (hbad : table.get? bad = none)
    (rest : Bytes) : b.ShownBy (bad :: rest) := by
  refine fun _ => ⟨bad, rfl, .inl fun hsame => ?_⟩
  rw [hsame] at hbad
  cases h with
  | fixed ht => simp [hbad] at ht
  | text ht => simp [hbad] at ht

theorem Valid.two_le_length_encode (h : b.Valid table) {t : Tag}
    (ht : table.get? b.tag = some t) (hl : t.layout = .text) : 2 ≤ b.encode.length := by
  rcases h with ⟨ht', hl'⟩ | @⟨tag, payload, _, terminated, _, _, _, _, hne⟩
  · rw [ht] at ht'
    cases ht'
    rw [hl] at hl'
    cases hl'
  · rcases terminated
    · have := List.length_pos_iff.2 (hne rfl)
      simp only [encode, List.length_append, length_pairs]
      omega
    · simp [encode]

/-- A record that shows where a text ends does so whatever comes after it. -/
theorem Valid.shownBy_encode (h' : b'.Valid table) (h : b.Valid table) {xs : Bytes}
    (hb : b.ShownBy (b'.encode ++ xs)) (ys : Bytes) : b.ShownBy (b'.encode ++ ys) := by
  by_cases hlen : 2 ≤ b'.encode.length
  · refine hb.congr ?_
    rw [List.take_append_of_le_length hlen, List.take_append_of_le_length hlen]
  · -- a single byte is no text, so its tag is another one
    refine fun hkind => ⟨b'.tag, ?_, .inl fun hsame => hlen ?_⟩
    · rw [List.head?_append, h'.head?_encode]
      rfl
    · rcases h with _ | ⟨ht, hl⟩
      · cases hkind
      · exact h'.two_le_length_encode (hsame ▸ ht) hl

theorem parted_cons {bs : List Body} {tail : Bytes} :
    Parted (b :: bs) tail ↔ b.ShownBy (bs.flatMap encode ++ tail) ∧ Parted bs tail := by
  refine ⟨fun h => ?_, fun h => .cons h.1 h.2⟩
  cases h with
  | cons hb h => exact ⟨hb, h⟩

theorem Parted.replace {bs : List Body} {rest rest' : Bytes} (h : Parted bs rest)
    (hvalid : ∀ b ∈ bs, b.Valid table)
    (hrest : ∀ b ∈ bs, b.ShownBy rest → b.ShownBy rest') : Parted bs rest' := by
  induction h with
  | nil => exact .nil
  | @cons b bs rest hb h ih =>
    refine .cons ?_ (ih (fun b' hb' => hvalid b' (List.mem_cons_of_mem _ hb'))
      fun b' hb' => hrest b' (List.mem_cons_of_mem _ hb'))
    rcases bs with _ | ⟨b', bs⟩
    · exact hrest b (List.mem_cons_self ..) hb
    · have hb' := hvalid b' (List.mem_cons_of_mem _ (List.mem_cons_self ..))
      rw [List.flatMap_cons, List.append_assoc] at hb ⊢
      exact hb'.shownBy_encode (hvalid b (List.mem_cons_self ..)) hb _

theorem parted_append {bs bs' : List Body} {tail : Bytes} :
    Parted (bs ++ bs') tail ↔ Parted bs (bs'.flatMap encode ++ tail) ∧ Parted bs' tail := by
  induction bs with
  | nil => exact ⟨fun h => ⟨.nil, h⟩, And.right⟩
  | cons b bs ih =>
    rw [List.cons_append, parted_cons, parted_cons, ih, List.flatMap_append, List.append_assoc,
      and_assoc]

/-- The first characters of a text that is cut short after them. -/
def firstChars (b : Body) (count : Nat) : Body where
  tag := b.tag
  kind := .text false
  payload := b.payload.take count

section FirstChars

variable {tag : UInt8} {payload : Bytes} {terminated : Bool} {count : Nat}

/-- Behind the first characters of a text comes its tag again. -/
theorem exists_encode_eq (h : 2 * count < (⟨tag, .text terminated, payload⟩ : Body).encode.length) :
    count ≤ payload.length ∧ ∃ rest, (⟨tag, .text terminated, payload⟩ : Body).encode =
      ((⟨tag, .text terminated, payload⟩ : Body).firstChars count).encode ++ tag :: rest := by
  have hle : count ≤ payload.length := by
    rcases terminated
    · simp only [encode, Bool.false_eq_true, if_false, List.append_nil, length_pairs] at h
      omega
    · simp only [encode, if_true, List.length_append, length_pairs, List.length_cons,
        List.length_nil] at h
      omega
  refine ⟨hle, ?_⟩
  have hfirst : ((⟨tag, .text terminated, payload⟩ : Body).firstChars count).encode =
      pairs tag (payload.take count) := List.append_nil _
  rcases hdrop : payload.drop count with _ | ⟨c, chars⟩
  · have hcount : payload.take count = payload :=
      List.take_of_length_le (List.drop_eq_nil_iff.1 hdrop)
    rw [hfirst, hcount]
    rcases terminated
    · rw [List.drop_eq_nil_iff] at hdrop
      simp only [encode, Bool.false_eq_true, if_false, List.append_nil, length_pairs] at h
      omega
    · exact ⟨[0], rfl⟩
  · rw [hfirst]
    have hpairs : pairs tag payload = pairs tag (payload.take count) ++ pairs tag (c :: chars) := by
      rw [← pairs_append, ← hdrop, List.take_append_drop]
    refine ⟨c :: (pairs tag chars ++ if terminated then [tag, 0] else []), ?_⟩
    change pairs tag payload ++ _ = _
    rw [hpairs, List.append_assoc]
    rfl

theorem length_encode_firstChars (b : Body) (h : count ≤ b.payload.length) :
    (b.firstChars count).encode.length = 2 * count := by
  simp [firstChars, encode, length_pairs, h]

end FirstChars

section Overwritten

variable {front back : List Body} {tail : Bytes} {bad : UInt8}

theorem exists_set_tag (hb : b.Valid table) (front back : List Body) (tail : Bytes) (bad : UInt8) :
    ∃ more, ((front ++ b :: back).flatMap encode ++ tail).set (front.flatMap encode).length bad =
      front.flatMap encode ++ bad :: more := by
  obtain ⟨rest, hrest⟩ := List.head?_eq_some_iff.1 hb.head?_encode
  refine ⟨rest ++ (back.flatMap encode ++ tail), ?_⟩
  rw [← set_append_cons (front.flatMap encode) b.tag, List.flatMap_append, List.flatMap_cons, hrest]
  simp only [List.append_assoc, List.cons_append]

theorem Parted.overwritten (h : Parted (front ++ b :: back) tail)
    (hvalid : ∀ b' ∈ front, b'.Valid table) (hbad : table.get? bad = none) (more : Bytes) :
    Parted front (bad :: more) :=
  (parted_append.1 h).1.replace hvalid fun b' hb' _ => (hvalid b' hb').shownBy_unknown hbad more

variable {terminated : Bool} {count : Nat} (hkind : b.kind = .text terminated)
  (hcount : 2 * count < b.encode.length)

include hkind hcount

theorem length_flatMap_firstChars (front : List Body) :
    ((front ++ [b.firstChars count]).flatMap encode).length =
      (front.flatMap encode).length + 2 * count := by
  obtain ⟨tag, kind, payload⟩ := b
  cases hkind
  rw [List.flatMap_append, List.flatMap_singleton, List.length_append,
    length_encode_firstChars _ (exists_encode_eq hcount).1]

theorem exists_set_pair (front back : List Body) (tail : Bytes) (bad : UInt8) :
    ∃ more, ((front ++ b :: back).flatMap encode ++ tail).set
        ((front.flatMap encode).length + 2 * count) bad =
      (front ++ [b.firstChars count]).flatMap encode ++ bad :: more := by
  rw [← length_flatMap_firstChars hkind hcount front]
  obtain ⟨tag, kind, payload⟩ := b
  cases hkind
  obtain ⟨hle, rest, hrest⟩ := exists_encode_eq hcount
  refine ⟨rest ++ (back.flatMap encode ++ tail), ?_⟩
  rw [← set_append_cons _ tag, List.flatMap_append, List.flatMap_append, List.flatMap_cons, hrest,
    List.flatMap_singleton]
  simp only [List.append_assoc, List.cons_append]

theorem valid_firstChars (hb : b.Valid table) (hpos : 1 ≤ count) :
    (b.firstChars count).Valid table := by
  rcases hb with _ | ⟨ht, hl, hzero, hlen, hne⟩
  · cases hkind
  · obtain ⟨hle, -⟩ := exists_encode_eq hcount
    refine .text ht hl (fun hmem => hzero (List.mem_of_mem_take hmem)) ?_ fun _ => ?_
    · rw [List.length_take]
      omega
    · refine List.ne_nil_of_length_pos ?_
      rw [List.length_take, Nat.lt_min]
      exact ⟨hpos, hpos.trans hle⟩

theorem place_firstChars (hb : b.Valid table) (offset ordinal : Nat) :
    (b.firstChars count).place table offset ordinal =
      (b.place table offset ordinal).firstChars count := by
  rcases hb with _ | @⟨tag, payload, _, terminated, ht, hl, -, -, -⟩
  · cases hkind
  · obtain ⟨hle, -⟩ := exists_encode_eq hcount
    have hlength := length_encode_firstChars ⟨tag, .text terminated, payload⟩ hle
    have hstamp : (firstChars ⟨tag, .text terminated, payload⟩ count).stamp? table =
        (⟨tag, .text terminated, payload⟩ : Body).stamp? table := by
      simp only [stamp?, firstChars, ht, Option.map_some, hl]
    rw [place, hlength, hstamp]
    rfl

theorem Parted.overwritten_pair (h : Parted (front ++ b :: back) tail)
    (hvalid : ∀ b' ∈ front ++ b :: back, b'.Valid table) (hpos : 1 ≤ count)
    (hbad : table.get? bad = none) (more : Bytes) :
    Parted (front ++ [b.firstChars count]) (bad :: more) := by
  have hb := hvalid b (by simp)
  have hfirst := valid_firstChars hkind hcount hb hpos
  refine parted_append.2 ⟨?_, .cons (hfirst.shownBy_unknown hbad more) .nil⟩
  refine (parted_append.1 h).1.replace (fun b' hb' => hvalid b' (List.mem_append_left _ hb'))
    fun b' hb' hshown => ?_
  obtain ⟨tag, kind, payload⟩ := b
  cases hkind
  obtain ⟨hle, rest, hrest⟩ := exists_encode_eq hcount
  rw [List.flatMap_cons, hrest, List.append_assoc, List.append_assoc] at hshown
  rw [List.flatMap_singleton]
  exact hfirst.shownBy_encode (hvalid b' (List.mem_append_left _ hb')) hshown _

end Overwritten

end Body

namespace Parser

theorem ReadTo.sound {p : Parser} {offset : Nat} (h : p.ReadTo offset) : p.Sound offset := by
  refine ⟨fun text ht => (h.openText text ht).layout_eq, fun text ht => ?_⟩
  have := (h.openText text ht).offset_eq
  omega

/-- What a look leaves shows where the record ends that it completes. -/
theorem ReadTo.shownBy {p p' : Parser} {offset ordinal n : Nat} (h : p.ReadTo offset)
    (hlimit : p.textLimit = maxTextLength) {window : Bytes} {r : Record}
    (hfit : offset + window.length < Word.size)
    (hd : p.decode window offset ordinal = .ok (.complete r n, p')) :
    r.body.ShownBy (window.drop n) := by
  rcases window with _ | ⟨tag, rest⟩
  · cases hd
  rcases hi : p.interrupted tag with _ | text
  · rcases ht : p.table.get? tag with _ | t
    · simp only [Parser.decode, hi, ht] at hd
      cases hd
    rcases hl : t.layout with ⟨length, timestamp⟩ | _
    · simp only [Parser.decode, hi, ht, hl, Parser.decideFixed] at hd
      split_ifs at hd
      · cases hd
      · cases hd
        exact fun hkind => by cases hkind
    · rw [decode_eq_decideText hi ht hl] at hd
      rcases rest with _ | ⟨c, rest⟩
      · cases hd
      by_cases hc : c = 0
      · simp only [List.length_cons] at hfit
        rw [hc, h.decideText_zero ordinal ht hl hi rest (by omega)] at hd
        cases hd
        exact fun hkind => by cases hkind
      by_cases hfull : p.textLimit ≤ (p.textAt tag offset).length
      · rw [h.decideText_full ordinal ht hl hi hc hfull rest] at hd
        cases hd
        refine fun _ => ⟨tag, rfl, .inr ⟨?_, c, rfl, hc⟩⟩
        have hlen := (h.length_textAt tag).2
        show (p.textAt tag offset).chars.length = maxTextLength
        rw [OpenText.length_chars]
        omega
      · rw [decideText_push hc (Nat.not_le.1 hfull) rest ordinal] at hd
        cases hd
  · rw [h.decode_interrupted ordinal hi rest] at hd
    cases hd
    refine fun _ => ⟨tag, rfl, .inl fun hsame => ?_⟩
    have hne := (Option.filter_eq_some_iff.1 hi).2
    change tag = text.tag at hsame
    simp [hsame] at hne

theorem parted_parse (p : Parser) (rest : Bytes) (offset ordinal : Nat) (h : p.ReadTo offset)
    (hlimit : p.textLimit = maxTextLength) (hfit : offset + rest.length < Word.size) :
    ∀ (bs : List Body) (tail : Bytes), p.held ++ rest = bs.flatMap Body.encode ++ tail →
      (p.parse none rest offset ordinal).records.map Record.body = bs → Body.Parted bs tail := by
  induction p, rest, offset, ordinal using parse.induct none with
  | case1 p rest offset ordinal l hl => simp at hl
  | case2 p rest offset ordinal hl r n p' hd ih =>
    intro bs tail hbytes hbodies
    have hshown := h.shownBy hlimit hfit hd
    obtain - | - | - | ⟨hvalid, hlen, hencode⟩ := h.takes hfit hd
    rename_i b
    rw [parse_of_complete hl hd] at hbodies
    rw [← hbodies, List.map_cons, List.flatMap_cons] at hbytes
    change _ = b.encode ++ _ ++ tail at hbytes
    -- the bytes that the look takes are those of the record, so the others are of the next ones
    have hrest : rest.drop n = (List.map Record.body (p.reset.parse none (rest.drop n) (offset + n)
        (ordinal + 1)).records).flatMap Body.encode ++ tail := by
      rw [hencode, List.append_assoc, List.append_assoc] at hbytes
      have hcancel := List.append_cancel_left hbytes
      exact List.append_cancel_left ((List.take_append_drop n rest).trans hcancel)
    rw [← hbodies]
    have hdrop := List.length_drop (i := n) (l := rest)
    refine .cons ?_ (ih (h.reset _) hlimit (by omega) _ tail hrest rfl)
    rw [← hrest]
    exact hshown
  | case3 p rest offset ordinal hl n p' hd ih =>
    obtain - | - | ⟨hread, htable, hstart, hlen, hheld⟩ := h.takes hfit hd
    have hdrop := List.length_drop (i := 2) (l := rest)
    have hlimit' : p'.textLimit = p.textLimit := by
      cases h.sound.decides hfit hd
      rfl
    rw [parse_of_pending hl hd]
    intro bs tail hbytes
    rw [← List.take_append_drop 2 rest, ← List.append_assoc, ← hheld] at hbytes
    exact ih hread (hlimit'.trans hlimit) (by omega) bs tail hbytes
  | case4 p rest offset ordinal hl position tag p' hd =>
    rw [parse_of_lostSync hl hd]
    rintro bs tail - rfl
    exact .nil
  | case5 p rest offset ordinal hl p' hd =>
    rw [parse_of_needMore hl hd]
    rintro bs tail - rfl
    exact .nil
  | case6 p rest offset ordinal hl o hd =>
    rw [parse_of_error hl hd]
    rintro bs tail - rfl
    exact .nil

theorem parse_unknown {p : Parser} (hopen : p.openText = none) {bad : UInt8}
    (hbad : p.table.get? bad = none) (more : Bytes) (offset ordinal : Nat) :
    p.parse none (bad :: more) offset ordinal =
      ⟨[], .lostSync ordinal offset bad none, offset⟩ := by
  have hi : p.interrupted bad = none := interrupted_eq_none (by simp [hopen])
  have hd : p.decode (bad :: more) offset ordinal = .ok (.lostSync offset bad, p) := by
    simp only [decode, hi, hbad]
    rfl
  exact parse_of_lostSync rfl hd

/-- What a stream parses into, with all that shows where the records end. -/
theorem exists_parted (table : Tag.Table) {data : Bytes} (hlen : data.length < Word.size) :
    ∃ bs tail, data = bs.flatMap Body.encode ++ tail ∧ (∀ b ∈ bs, b.Valid table) ∧
      Body.Parted bs tail ∧
      (({ table } : Parser).parse none data 0 0).records = placeAll table bs 0 0 := by
  have hread : ({ table } : Parser).ReadTo 0 := readTo_of_openText rfl (Nat.le_refl _) 0
  have hfit : 0 + data.length < Word.size := by rwa [Nat.zero_add]
  obtain ⟨bs, tail, hdiv⟩ := divides_parse _ data 0 0 hread hfit
  refine ⟨bs, tail, hdiv.bytes_eq, hdiv.valid, ?_, hdiv.records_eq⟩
  refine parted_parse _ data 0 0 hread rfl hfit bs tail hdiv.bytes_eq ?_
  rw [hdiv.records_eq, map_body_placeAll]

end Parser

end Record

namespace Session

section Run

variable {σ : Type} [Source σ] {table : Tag.Table} {clock : Clock.Config} {source : σ}
  {data : Bytes} {last : Nat}

/-- A run over some records and an unknown tag. -/
theorem run_lostSync {bs : List Record.Body} {bad : UInt8} {more : Bytes}
    (hs : Source.Delivers source (bs.flatMap Record.Body.encode ++ bad :: more) last)
    (hvalid : ∀ b ∈ bs, b.Valid table) (hparted : Record.Body.Parted bs (bad :: more))
    (hbad : table.get? bad = none)
    (hline : (clock.timeline {} (Record.placeAll table bs 0 0)).fault = none) :
    let run := (new table clock).run source
    let items := (clock.timeline {} (Record.placeAll table bs 0 0)).items
    run.fault = none ∧ run.stream = items.map Clocked.timed ∧
      run.session.finish = some (.lostSync bs.length (bs.flatMap Record.Body.encode).length bad
        (items.getLast?.map Clocked.mark)) := by
  intro run items
  have hfit : 0 + (bs.flatMap Record.Body.encode).length < Word.size := by
    have hle := hs.length_le
    have hlt := hs.last_lt
    rw [List.length_append] at hle
    omega
  have hparse : (new table clock).toParse (bs.flatMap Record.Body.encode ++ bad :: more) =
      ⟨Record.placeAll table bs 0 0, .lostSync bs.length (bs.flatMap Record.Body.encode).length bad
        none, (bs.flatMap Record.Body.encode).length⟩ := by
    have h := Record.Parser.parse_parted (p := { table }) rfl rfl hvalid hparted 0 0 hfit
    rw [Record.Parser.parse_unknown rfl hbad, Nat.zero_add, Nat.zero_add] at h
    dsimp only at h
    rw [List.append_nil] at h
    exact h
  have hclock : (new table clock).toClock (bs.flatMap Record.Body.encode ++ bad :: more) =
      clock.timeline {} (Record.placeAll table bs 0 0) := by
    rw [toClock, hparse]
    rfl
  rw [← hclock] at hline
  obtain ⟨hfault, hsummary⟩ := summary_new hs hline
  have hstream := stream_new hs hline
  rw [hclock] at hstream hsummary
  refine ⟨hfault, hstream, ?_⟩
  have hfinish := congrArg Summary.finish hsummary
  rw [hparse] at hfinish
  exact hfinish

/-- The body of the record that an item is about. -/
theorem exists_body_of_item {bs : List Record.Body} {k : Nat} {item : Clocked}
    (hline : (clock.timeline {} (Record.placeAll table bs 0 0)).fault = none)
    (hitem : (clock.timeline {} (Record.placeAll table bs 0 0)).items[k]? = some item) :
    ∃ b front back, bs = front ++ b :: back ∧ k = front.length ∧
      item.record = b.place table (front.flatMap Record.Body.encode).length k := by
  have hget := congrArg (fun rs => rs[k]?) (clock.records_timeline {} _ hline)
  simp only [List.getElem?_map, hitem, Record.getElem?_placeAll, Nat.zero_add] at hget
  obtain ⟨b, hb, hplace⟩ := Option.map_eq_some_iff.1 hget.symm
  obtain ⟨hk, hbk⟩ := List.getElem?_eq_some_iff.1 hb
  refine ⟨b, bs.take k, bs.drop (k + 1), ?_, (List.length_take_of_le hk.le).symm, hplace.symm⟩
  rw [← hbk, ← List.drop_eq_getElem_cons hk, List.take_append_drop]

variable {τ : Type} [Source τ] {overwritten : τ} {last' : Nat}

section Bodies

variable {front back : List Record.Body} {b : Record.Body} {tail : Bytes} {bad : UInt8}
  (hvalid : ∀ b' ∈ front ++ b :: back, b'.Valid table)
  (hparted : Record.Body.Parted (front ++ b :: back) tail) (hbad : table.get? bad = none)
  (hline : (clock.timeline {} (Record.placeAll table (front ++ b :: back) 0 0)).fault = none)

include hvalid hparted hbad hline

theorem run_overwritten_tag (hover : Source.Delivers overwritten
      (((front ++ b :: back).flatMap Record.Body.encode ++ tail).set
        (front.flatMap Record.Body.encode).length bad) last') :
    let run := (new table clock).run overwritten
    let items := (clock.timeline {} (Record.placeAll table (front ++ b :: back) 0 0)).items
    run.fault = none ∧ run.stream = (items.take front.length).map Clocked.timed ∧
      run.session.finish = some (.lostSync front.length (front.flatMap Record.Body.encode).length
        bad ((items.take front.length).getLast?.map Clocked.mark)) := by
  intro run items
  have hfront : ∀ b' ∈ front, b'.Valid table := fun b' hb' => hvalid b' (List.mem_append_left _ hb')
  obtain ⟨more, hset⟩ := Record.Body.exists_set_tag (hvalid b (by simp)) front back tail bad
  rw [hset] at hover
  obtain ⟨hnone, hitems⟩ := clock.timeline_take {} _ hline front.length
  rw [Record.take_placeAll_append] at hnone hitems
  have hrun := run_lostSync hover hfront (hparted.overwritten hfront hbad more) hbad hnone
  rwa [hitems] at hrun

theorem run_overwritten_pair {terminated : Bool} {count : Nat}
    (hkind : b.kind = .text terminated) (hpos : 1 ≤ count) (hcount : 2 * count < b.encode.length)
    (hover : Source.Delivers overwritten
      (((front ++ b :: back).flatMap Record.Body.encode ++ tail).set
        ((front.flatMap Record.Body.encode).length + 2 * count) bad) last')
    {item : Clocked}
    (hitem : (clock.timeline {} (Record.placeAll table (front ++ b :: back) 0 0)).items[
      front.length]? = some item)
    (hrecord : item.record =
      b.place table (front.flatMap Record.Body.encode).length front.length) :
    let run := (new table clock).run overwritten
    let items := (clock.timeline {} (Record.placeAll table (front ++ b :: back) 0 0)).items
    let cut := { item with record := item.record.firstChars count }
    run.fault = none ∧ run.stream = (items.take front.length ++ [cut]).map Clocked.timed ∧
      run.session.finish = some (.lostSync (front.length + 1)
        ((front.flatMap Record.Body.encode).length + 2 * count) bad (some cut.mark)) := by
  intro run items cut
  have hb := hvalid b (by simp)
  obtain ⟨more, hset⟩ := Record.Body.exists_set_pair hkind hcount front back tail bad
  rw [hset] at hover
  have hshort : Record.placeAll table (front ++ [b.firstChars count]) 0 0 =
      (Record.placeAll table (front ++ b :: back) 0 0).take front.length ++
        [item.record.firstChars count] := by
    rw [Record.take_placeAll_append, Record.placeAll_append, Record.placeAll, Record.placeAll,
      Record.Body.place_firstChars hkind hcount hb, Nat.zero_add, Nat.zero_add, hrecord]
  -- the clock does not look at the characters of a text
  obtain ⟨hnone, hitems⟩ :=
    clock.timeline_replace {} _ hline (item.record.firstChars count) hitem rfl rfl
  rw [← hshort] at hnone hitems
  have hvalid' : ∀ b' ∈ front ++ [b.firstChars count], b'.Valid table := by
    intro b' hb'
    rcases List.mem_append.1 hb' with hb' | hb'
    · exact hvalid b' (List.mem_append_left _ hb')
    · rw [List.mem_singleton.1 hb']
      exact Record.Body.valid_firstChars hkind hcount hb hpos
  obtain ⟨hfault, hstream, hfinish⟩ := run_lostSync hover hvalid'
    (hparted.overwritten_pair hkind hcount hvalid hpos hbad more) hbad hnone
  rw [hitems] at hstream hfinish
  rw [List.getLast?_concat, List.length_append,
    Record.Body.length_flatMap_firstChars hkind hcount] at hfinish
  exact ⟨hfault, hstream, hfinish⟩

end Bodies

/-- An unknown tag in the place of another one ends the run there, and changes nothing before: in
the place of the tag of record `k`, the records before that one are left; in the place of a later
tag of a text, its characters up to there are left too, as a text that is cut short. -/
theorem run_overwritten (hs : Source.Delivers source data last)
    (hfit : ∀ o, ((new table clock).run source).fault ≠ some (.overflow o)) {bad : UInt8}
    (hbad : table.get? bad = none) {position : Nat}
    (hover : Source.Delivers overwritten (data.set position bad) last') {k : Nat} {t : Timed}
    (ht : ((new table clock).run source).stream[k]? = some t) :
    let run := (new table clock).run source
    let run' := (new table clock).run overwritten
    (position = t.record.offset →
      run'.fault = none ∧ run'.stream = run.stream.take k ∧
        run'.session.finish = some (.lostSync k position bad
          ((run.stream.take k).getLast?.map fun u => u.record.mark))) ∧
      ∀ terminated count, t.record.kind = .text terminated → 1 ≤ count →
        2 * count < t.record.length → position = t.record.offset + 2 * count →
          run'.fault = none ∧
            run'.stream = run.stream.take k ++ [{ t with record := t.record.firstChars count }] ∧
            run'.session.finish =
              some (.lostSync (k + 1) position bad (some ⟨k, t.record.offset⟩)) := by
  intro run run'
  have hlen : data.length < Word.size := Nat.lt_of_le_of_lt hs.length_le hs.last_lt
  have hline := toClock_fits hs hfit
  have hstream : run.stream = _ := stream_new hs hline
  obtain ⟨bs, tail, rfl, hvalid, hparted, hrecords⟩ := Record.Parser.exists_parted table hlen
  have hclock : (new table clock).toClock (bs.flatMap Record.Body.encode ++ tail) =
      clock.timeline {} (Record.placeAll table bs 0 0) :=
    congrArg (clock.timeline {}) hrecords
  rw [hclock] at hline hstream
  change run.stream[k]? = some t at ht
  rw [hstream, List.getElem?_map, Option.map_eq_some_iff] at ht
  obtain ⟨item, hitem, rfl⟩ := ht
  obtain ⟨b, front, back, rfl, rfl, hrecord⟩ := exists_body_of_item hline hitem
  have hoffset : item.timed.record.offset = (front.flatMap Record.Body.encode).length :=
    congrArg Record.offset hrecord
  rw [hoffset, hstream, ← List.map_take]
  refine ⟨?_, ?_⟩
  · rintro rfl
    obtain ⟨hfault, hstream', hfinish⟩ := run_overwritten_tag hvalid hparted hbad hline hover
    refine ⟨hfault, hstream', hfinish.trans ?_⟩
    rw [List.getLast?_map, Option.map_map]
    rfl
  · rintro terminated count hkind hpos hcount rfl
    rw [show item.timed.record = _ from hrecord] at hkind hcount
    obtain ⟨hfault, hstream', hfinish⟩ :=
      run_overwritten_pair hvalid hparted hbad hline hkind hpos hcount hover hitem hrecord
    refine ⟨hfault, hstream'.trans List.map_append, hfinish.trans ?_⟩
    rw [Clocked.mark, hrecord]
    rfl

/-- The tag that had shown where a text ends is overwritten, and the last one of another text. -/
theorem run_overwritten_texts :
    let data : Bytes := [1, 5, 0, 33, 120, 32, 104, 32, 105, 32, 0, 1, 4, 0]
    let run := (new Tag.Table.standard {}).run (Memory.plain data)
    let first := (new Tag.Table.standard {}).run (Memory.plain (data.set 5 255))
    let closing := (new Tag.Table.standard {}).run (Memory.plain (data.set 9 255))
    let t : Timed := ⟨⟨2, 32, .text true, [104, 105], 5, 6, none⟩, 2, .inOrder⟩
    Tag.Table.standard.get? 255 = none ∧ run.stream[2]? = some t ∧
      first.stream = run.stream.take 2 ∧
      first.session.finish = some (.lostSync 2 5 255 (some ⟨1, 3⟩)) ∧
      closing.stream = run.stream.take 2 ++
        [⟨⟨2, 32, .text false, [104, 105], 5, 4, none⟩, 2, .inOrder⟩] ∧
      closing.session.finish = some (.lostSync 3 9 255 (some ⟨2, 5⟩)) := by
  intro data run first closing t
  have hs : Source.Delivers (Memory.plain data) data 14 :=
    (Memory.holds_plain (by decide) (by decide)).toDelivers
  have hfirst : Source.Delivers (Memory.plain (data.set 5 255)) (data.set 5 255) 14 :=
    (Memory.holds_plain (by decide) (by decide)).toDelivers
  have hclosing : Source.Delivers (Memory.plain (data.set 9 255)) (data.set 9 255) 14 :=
    (Memory.holds_plain (by decide) (by decide)).toDelivers
  have hfault : run.fault = none := by decide +kernel
  have hfit : ∀ o, run.fault ≠ some (.overflow o) := fun o h => by simp [hfault] at h
  have hbad : Tag.Table.standard.get? 255 = none := by decide +kernel
  -- nothing is swapped here, so the records come out in the order of the stream
  have horder : run.stream = run.emitted.toList := List.mergeSort_of_pairwise (by decide +kernel)
  have ht : run.stream[2]? = some t := by
    rw [horder]
    decide +kernel
  have hlast : (run.stream.take 2).getLast?.map (fun u => u.record.mark) = some ⟨1, 3⟩ := by
    rw [horder]
    decide +kernel
  obtain ⟨-, hstream, hfinish⟩ := (run_overwritten hs hfit hbad hfirst ht).1 rfl
  obtain ⟨-, hstream', hfinish'⟩ := (run_overwritten hs hfit hbad hclosing ht).2 true 2 rfl
    (by decide) (by decide) rfl
  exact ⟨hbad, ht, hstream, hlast ▸ hfinish, hstream', hfinish'⟩

end Run

end Session

end Telemetry
