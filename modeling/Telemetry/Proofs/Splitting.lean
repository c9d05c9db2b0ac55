import Telemetry.Proofs.RoundTrip

/-!
# Texts of more than one record

A text that is longer than a record may be is split: its records take as many characters as they
can, and the last one takes the others and is closed as the text is, by its zero or by a byte that
is not its tag (`looks_splitBodies`).  No record of a split is so long that its length cannot be
told (`Body.place_text`).
-/

namespace Telemetry

namespace Record

/-- The bodies of a text that fills `count` of them before the last one. -/
def splitBodies (most : Nat) (tag : UInt8) (terminated : Bool) : (count : Nat) → Bytes → List Body
  | 0, chars => [⟨tag, .text terminated, chars⟩]
  | count + 1, chars =>
    ⟨tag, .text false, chars.take most⟩ :: splitBodies most tag terminated count (chars.drop most)

/-- The characters fill `count` records before the last one, which is left some if there are any. -/
structure Fills (most count : Nat) (chars : Bytes) : Prop where
  length_le : chars.length ≤ (count + 1) * most
  lt_length : 0 < count → count * most < chars.length

/-- How a text is closed: by its zero, or by a byte that is not its tag and is left for the next
record. -/
inductive Closing (tag : UInt8) : Bool → Bytes → Bytes → Prop where
  | zero (rest : Bytes) : Closing tag true (tag :: 0 :: rest) rest
  | foreign {next : UInt8} (hne : next ≠ tag) (rest : Bytes) :
    Closing tag false (next :: rest) (next :: rest)

variable {most count : Nat} {tag : UInt8} {terminated : Bool} {chars : Bytes}

theorem fills (hmost : 0 < most) (chars : Bytes) :
    Fills most ((chars.length - 1) / most) chars := by
  have hdiv := Nat.div_add_mod (chars.length - 1) most
  have hmod := Nat.mod_lt (chars.length - 1) hmost
  rw [Nat.mul_comm] at hdiv
  refine ⟨?_, fun hpos => ?_⟩
  · rw [Nat.succ_mul]
    omega
  · have := Nat.le_mul_of_pos_left most hpos
    omega

theorem Fills.lt (h : Fills most (count + 1) chars) : most < chars.length := by
  have := h.lt_length (Nat.succ_pos count)
  rw [Nat.succ_mul] at this
  omega

theorem Fills.drop (h : Fills most (count + 1) chars) : Fills most count (chars.drop most) := by
  have hle := h.length_le
  have hlt := h.lt_length (Nat.succ_pos count)
  rw [Nat.succ_mul] at hle hlt
  refine ⟨?_, fun _ => ?_⟩
  · rw [List.length_drop]
    omega
  · rw [List.length_drop]
    omega

theorem length_encode_text (tag : UInt8) (terminated : Bool) (chars : Bytes) :
    (⟨tag, .text terminated, chars⟩ : Body).encode.length =
      2 * chars.length + if terminated then 2 else 0 := by
  cases terminated <;> simp [Body.encode, length_pairs]

/-- All the bodies but the last one are full and not terminated. -/
theorem splitBodies_eq (tag : UInt8) (terminated : Bool) (h : Fills most count chars) :
    ∃ init last, splitBodies most tag terminated count chars =
        init ++ [⟨tag, .text terminated, last⟩] ∧ init.length = count ∧
      (∀ b ∈ init, b.tag = tag ∧ b.kind = .text false ∧ b.payload.length = most) ∧
      init.flatMap Body.payload ++ last = chars ∧ last.length ≤ most ∧
      (last = [] ↔ chars = []) := by
  induction count generalizing chars with
  | zero =>
    refine ⟨[], chars, rfl, rfl, by simp, rfl, ?_, Iff.rfl⟩
    simpa using h.length_le
  | succ count ih =>
    have hlt := h.lt
    obtain ⟨init, last, heq, hlen, hinit, hchars, hle, hnil⟩ := ih h.drop
    refine ⟨⟨tag, .text false, chars.take most⟩ :: init, last, ?_, ?_, ?_, ?_, hle, ?_⟩
    · rw [splitBodies, heq, List.cons_append]
    · rw [List.length_cons, hlen]
    · rw [List.forall_mem_cons]
      exact ⟨⟨rfl, rfl, List.length_take_of_le hlt.le⟩, hinit⟩
    · rw [List.flatMap_cons, List.append_assoc, hchars, List.take_append_drop]
    · rw [hnil, List.drop_eq_nil_iff]
      refine ⟨fun hle => absurd hle (Nat.not_le.2 hlt), fun hempty => ?_⟩
      rw [hempty] at hlt
      exact absurd hlt (Nat.not_lt_zero _)

theorem length_flatMap_encode_splitBodies (h : Fills most count chars) :
    ((splitBodies most tag terminated count chars).flatMap Body.encode).length =
      2 * chars.length + if terminated then 2 else 0 := by
  induction count generalizing chars with
  | zero => simp [splitBodies, length_encode_text]
  | succ count ih =>
    have hlt := h.lt
    rw [splitBodies, List.flatMap_cons, List.length_append, ih h.drop, length_encode_text,
      List.length_take_of_le hlt.le, List.length_drop, if_neg Bool.false_ne_true]
    omega

namespace Parser

variable {p : Parser} (hopen : p.openText = none) {t : Tag} (ht : p.table.get? tag = some t)
  (hl : t.layout = .text) (hlimit : p.textLimit ≤ maxTextLength) {closing rest : Bytes}
  (hclosing : Closing tag terminated closing rest)

include hopen ht hl hlimit hclosing

/-- The last record of a text is closed as the text is. -/
theorem looks_closing (hzero : 0 ∉ chars) (hlen : chars.length ≤ p.textLimit)
    (hne : terminated = false → chars ≠ []) {offset : Nat}
    (hfit : offset + (2 * chars.length + if terminated then 2 else 0) < Word.size) (ordinal : Nat) :
    let b : Body := ⟨tag, .text terminated, chars⟩
    Site.Looks ⟨p, pairs tag chars ++ closing, offset, ordinal⟩ [b.place p.table offset ordinal]
      ⟨p, rest, offset + b.encode.length, ordinal + 1⟩ := by
  intro b
  cases hclosing with
  | zero rest =>
    have hlooks : Site.Looks ⟨p, b.encode ++ rest, offset, ordinal⟩ _ _ :=
      looks_terminated hopen ht hl hzero hlen hlimit rest hfit
    have hbytes : b.encode ++ rest = pairs tag chars ++ tag :: 0 :: rest := by simp [b, Body.encode]
    rwa [hbytes] at hlooks
  | @foreign next hnext rest =>
    have hlooks : Site.Looks ⟨p, b.encode ++ next :: rest, offset, ordinal⟩ _ _ :=
      looks_cut_short hopen ht hl hzero hlen hlimit (hne rfl) hnext rest
    have hbytes : b.encode = pairs tag chars := by simp [b, Body.encode]
    rwa [hbytes] at hlooks ⊢

/-- A text is taken apart record by record. -/
theorem looks_splitBodies (hfills : Fills p.textLimit count chars) (hzero : 0 ∉ chars)
    (hne : terminated = false → chars ≠ []) {offset : Nat}
    (hfit : offset + (2 * chars.length + if terminated then 2 else 0) < Word.size) (ordinal : Nat) :
    let bs := splitBodies p.textLimit tag terminated count chars
    Site.Looks ⟨p, pairs tag chars ++ closing, offset, ordinal⟩
      (placeAll p.table bs offset ordinal)
      ⟨p, rest, offset + (bs.flatMap Body.encode).length, ordinal + bs.length⟩ := by
  induction count generalizing chars offset ordinal with
  | zero =>
    have hlen : chars.length ≤ p.textLimit := by simpa using hfills.length_le
    have hlooks := looks_closing hopen ht hl hlimit hclosing hzero hlen hne hfit ordinal
    simpa [splitBodies, placeAll] using hlooks
  | succ count ih =>
    have hlt := hfills.lt
    obtain ⟨c, others, hdrop⟩ : ∃ c others, chars.drop p.textLimit = c :: others :=
      List.exists_cons_of_ne_nil (by rw [Ne, List.drop_eq_nil_iff]; omega)
    have hc : c ≠ 0 := by
      rintro rfl
      exact hzero (List.mem_of_mem_drop (hdrop ▸ List.mem_cons_self))
    obtain ⟨b, hb⟩ : ∃ b : Body, b = ⟨tag, .text false, chars.take p.textLimit⟩ := ⟨_, rfl⟩
    have hencode : b.encode = pairs tag (chars.take p.textLimit) := by simp [hb, Body.encode]
    have hbytes : pairs tag chars ++ closing =
        b.encode ++ (pairs tag (chars.drop p.textLimit) ++ closing) := by
      rw [hencode, ← List.append_assoc, ← pairs_append, List.take_append_drop]
    -- the character after a full record shows that the record is full
    have hfull : Site.Looks ⟨p, pairs tag chars ++ closing, offset, ordinal⟩
        [b.place p.table offset ordinal]
        ⟨p, pairs tag (chars.drop p.textLimit) ++ closing, offset + b.encode.length,
          ordinal + 1⟩ := by
      rw [hbytes, hdrop, hb]
      exact looks_full hopen ht hl (fun h => hzero (List.mem_of_mem_take h)) hlimit
        (List.length_take_of_le hlt.le) hc _
    have hlength : b.encode.length = 2 * p.textLimit := by
      rw [hencode, length_pairs, List.length_take_of_le hlt.le]
    have hne' : terminated = false → chars.drop p.textLimit ≠ [] := fun _ => by
      rw [hdrop]
      exact List.cons_ne_nil _ _
    have hfit' : offset + b.encode.length + (2 * (chars.drop p.textLimit).length +
        if terminated then 2 else 0) < Word.size := by
      rw [hlength, List.length_drop]
      omega
    have hrest := ih hfills.drop (fun h => hzero (List.mem_of_mem_drop h)) hne' hfit' (ordinal + 1)
    have hlooks := hfull.trans hrest
    simpa [splitBodies, placeAll, ← hb, Nat.add_assoc, Nat.add_comm 1] using hlooks

end Parser

/-- The records of a text that is split: `init`, which are full, and the last one. -/
structure Split (tag : UInt8) (most : Nat) (terminated : Bool) (chars : Bytes)
    (offset ordinal : Nat) (init : List Record) (last : Record) : Prop where
  count_eq : init.length + 1 = max 1 ((chars.length + most - 1) / most)
  payload_eq : init.flatMap Record.payload ++ last.payload = chars
  init_eq : ∀ r ∈ init, r.kind = .text false ∧ r.payload.length = most
  last_eq : last.kind = .text terminated ∧ last.payload.length ≤ most ∧
    (last.payload = [] ↔ chars = [])
  each_eq : ∀ (i : Nat) (r : Record), (init ++ [last])[i]? = some r →
    r.tag = tag ∧ r.ordinal = ordinal + i ∧ r.rawTicks = none
  /-- The length is the one that is told, and not the greatest that can be. -/
  length_eq : ∀ r ∈ init ++ [last],
    r.length = 2 * r.payload.length + (if r.kind = .text true then 2 else 0) ∧
      r.length < maxLength
  offset_first : ∀ r, (init ++ [last])[0]? = some r → r.offset = offset
  offset_next : ∀ (i : Nat) (r r' : Record), (init ++ [last])[i]? = some r →
    (init ++ [last])[i + 1]? = some r' → r'.offset = r.offset + r.length
  stop_eq : last.offset + last.length =
    offset + (2 * chars.length + if terminated then 2 else 0)

theorem count_of_fills (hmost : 0 < most) (chars : Bytes) :
    (chars.length - 1) / most + 1 = max 1 ((chars.length + most - 1) / most) := by
  rcases chars with _ | ⟨c, chars⟩
  · have : (most - 1) / most = 0 := Nat.div_eq_of_lt (by omega)
    simp [this]
  · have hsum : (c :: chars).length + most - 1 = chars.length + most := by
      rw [List.length_cons]
      omega
    rw [hsum, Nat.add_div_right _ hmost, List.length_cons, Nat.add_sub_cancel]
    exact (Nat.max_eq_right (Nat.le_add_left 1 _)).symm

/-- A record that is placed for a part of a text. -/
theorem Body.place_text {table : Tag.Table} {t : Tag} (ht : table.get? tag = some t)
    (hl : t.layout = .text) (hlen : chars.length ≤ maxTextLength) (offset ordinal : Nat) :
    let r := (⟨tag, .text terminated, chars⟩ : Body).place table offset ordinal
    r.rawTicks = none ∧
      r.length = 2 * r.payload.length + (if r.kind = .text true then 2 else 0) ∧
      r.length < maxLength := by
  intro r
  have hlength : r.length = 2 * chars.length + if terminated then 2 else 0 :=
    length_encode_text tag terminated chars
  refine ⟨?_, ?_, ?_⟩
  · simp only [r, place, stamp?, ht, Option.map_some, hl]
  · rw [hlength]
    cases terminated <;> rfl
  · rw [hlength]
    simp only [maxTextLength, maxLength, UInt32.size] at hlen ⊢
    split_ifs <;> omega

/-- Bodies of a split that are placed one after another. -/
theorem split_placeAll {table : Tag.Table} {t : Tag} (ht : table.get? tag = some t)
    (hl : t.layout = .text) (hmost : 0 < most) (hlimit : most ≤ maxTextLength)
    (terminated : Bool) (chars : Bytes) (offset ordinal : Nat) :
    ∃ init last, placeAll table (splitBodies most tag terminated ((chars.length - 1) / most) chars)
        offset ordinal = init ++ [last] ∧
      Split tag most terminated chars offset ordinal init last := by
  obtain ⟨bs, hbs⟩ :
      ∃ bs, bs = splitBodies most tag terminated ((chars.length - 1) / most) chars := ⟨_, rfl⟩
  have hfills := fills hmost chars
  have hbytes : (bs.flatMap Body.encode).length = _ :=
    hbs ▸ length_flatMap_encode_splitBodies hfills
  obtain ⟨init, payload, hbodies, hcount, hinit, hchars, hle, hnil⟩ :=
    splitBodies_eq tag terminated hfills
  rw [← hbs] at hbodies ⊢
  have htexts : ∀ b ∈ bs, ∃ terminated chars, b = ⟨tag, .text terminated, chars⟩ ∧
      chars.length ≤ maxTextLength := by
    intro b hb
    rw [hbodies, List.mem_append, List.mem_singleton] at hb
    rcases hb with hb | rfl
    · obtain ⟨htag, hkind, hlen⟩ := hinit b hb
      exact ⟨false, b.payload, by rw [← htag, ← hkind], hlen.le.trans hlimit⟩
    · exact ⟨terminated, payload, rfl, hle.trans hlimit⟩
  have heach : ∀ (i : Nat) (r : Record), (placeAll table bs offset ordinal)[i]? = some r →
      (r.tag = tag ∧ r.ordinal = ordinal + i ∧ r.rawTicks = none) ∧
        r.length = 2 * r.payload.length + (if r.kind = .text true then 2 else 0) ∧
        r.length < maxLength := by
    intro i r hr
    rw [getElem?_placeAll, Option.map_eq_some_iff] at hr
    obtain ⟨b, hb, rfl⟩ := hr
    obtain ⟨terminated, chars, rfl, hlen⟩ := htexts b (List.mem_of_getElem? hb)
    obtain ⟨hticks, hlength⟩ := Body.place_text ht hl hlen _ (ordinal + i)
    exact ⟨⟨rfl, rfl, hticks⟩, hlength⟩
  have hplaced : placeAll table bs offset ordinal = placeAll table init offset ordinal ++
      [(⟨tag, .text terminated, payload⟩ : Body).place table
        (offset + (init.flatMap Body.encode).length) (ordinal + init.length)] := by
    rw [hbodies, placeAll_append]
    rfl
  refine ⟨_, _, hplaced, ?_, ?_, ?_, ⟨rfl, hle, hnil⟩, ?_, ?_, ?_, ?_, ?_⟩
  · rw [length_placeAll, hcount, count_of_fills hmost]
  · have hpayload := congrArg (List.flatMap Body.payload)
      (map_body_placeAll table init offset ordinal)
    rw [List.flatMap_map] at hpayload
    exact (congrArg (· ++ payload) hpayload).trans hchars
  · intro r hr
    have hbody : r.body ∈ (placeAll table init offset ordinal).map body := List.mem_map_of_mem hr
    rw [map_body_placeAll] at hbody
    exact (hinit r.body hbody).2
  · rw [← hplaced]
    exact fun i r hr => (heach i r hr).1
  · rw [← hplaced]
    intro r hr
    obtain ⟨i, hi⟩ := List.mem_iff_getElem?.1 hr
    exact (heach i r hi).2
  · rw [← hplaced]
    intro r hr
    rw [getElem?_placeAll, Option.map_eq_some_iff] at hr
    obtain ⟨b, -, rfl⟩ := hr
    rfl
  · rw [← hplaced]
    exact fun i r r' => offset_next_placeAll table bs offset ordinal
  · rw [← hbytes, hbodies, List.flatMap_append, List.length_append, ← Nat.add_assoc]
    simp [Body.place]

namespace Parser

/-- A text of any length is split, however the looks at it are made: what they complete are the
records of the split, and what comes after the text is left for the next record. -/
theorem looks_split {p : Parser} (hopen : p.openText = none) {t : Tag}
    (ht : p.table.get? tag = some t) (hl : t.layout = .text) (hzero : 0 ∉ chars)
    {closing rest : Bytes} (hclosing : Closing tag terminated closing rest)
    (hne : terminated = false → chars ≠ []) (limit : Nat) {offset : Nat}
    (hfit : offset + (2 * chars.length + if terminated then 2 else 0) < Word.size) (ordinal : Nat) :
    let q := p.withTextLimit limit
    let x : Site := ⟨q, pairs tag chars ++ closing, offset, ordinal⟩
    ∃ init last,
      Split tag (max 1 (min limit maxTextLength)) terminated chars offset ordinal init last ∧
      let y : Site := ⟨q, rest, last.offset + last.length, ordinal + (init ++ [last]).length⟩
      x.Looks (init ++ [last]) y ∧
        ∀ rs z, x.Looks rs z → (∃ more, init ++ [last] = rs ++ more ∧ z.Looks more y) ∨
          ∃ more, rs = init ++ [last] ++ more ∧ y.Looks more z := by
  intro q x
  have hmost : 0 < q.textLimit := q.textLimit_pos
  have hlimit : q.textLimit ≤ maxTextLength := by
    change max 1 (min limit maxTextLength) ≤ maxTextLength
    simp only [maxTextLength]
    omega
  have hfills := fills hmost chars
  obtain ⟨init, last, hplaced, hsplit⟩ :=
    split_placeAll ht hl hmost hlimit terminated chars offset ordinal
  refine ⟨init, last, hsplit, ?_⟩
  have hlooks :=
    looks_splitBodies (p := q) hopen ht hl hlimit hclosing hfills hzero hne hfit ordinal
  have hlength := congrArg List.length hplaced
  rw [length_placeAll] at hlength
  have hstop := hsplit.stop_eq
  rw [← length_flatMap_encode_splitBodies hfills] at hstop
  dsimp only at hlooks
  rw [hlength, ← hstop] at hlooks
  have hlooks' : x.Looks (init ++ [last]) _ := hplaced ▸ hlooks
  exact ⟨hlooks', fun rs z hz => hlooks'.compare hz⟩

/-- Four characters in records of two at most, which end with the zero, and three before a byte that
is no tag. -/
theorem looks_split_by_two :
    let p : Parser := { table := Tag.Table.standard }
    let q := p.withTextLimit 2
    (∃ init last, Split 32 2 true [97, 98, 99, 100] 10 5 init last ∧ init.length = 1 ∧
      Site.Looks ⟨q, [32, 97, 32, 98, 32, 99, 32, 100, 32, 0], 10, 5⟩ (init ++ [last])
        ⟨q, [], 20, 7⟩) ∧
    ∃ init last, Split 32 2 false [97, 98, 99] 10 5 init last ∧ init.length = 1 ∧
      Site.Looks ⟨q, [32, 97, 32, 98, 32, 99, 255], 10, 5⟩ (init ++ [last]) ⟨q, [255], 16, 7⟩ := by
  intro p q
  obtain ⟨t, ht, hl⟩ : ∃ t, p.table.get? 32 = some t ∧ t.layout = .text := ⟨_, rfl, rfl⟩
  constructor
  · have hzero : (0 : UInt8) ∉ [97, 98, 99, 100] := by decide
    have hfit : 10 + (2 * 4 + 2) < Word.size := by decide
    obtain ⟨init, last, hsplit, hlooks, -⟩ :=
      looks_split rfl ht hl hzero (.zero []) (by decide) 2 hfit 5
    have hcount : init.length = 1 := Nat.succ.inj hsplit.count_eq
    have hstop : last.offset + last.length = 20 := hsplit.stop_eq
    rw [hstop, List.length_append, hcount] at hlooks
    exact ⟨init, last, hsplit, hcount, hlooks⟩
  · have hzero : (0 : UInt8) ∉ [97, 98, 99] := by decide
    have hnext : (255 : UInt8) ≠ 32 := by decide
    have hfit : 10 + (2 * 3 + 0) < Word.size := by decide
    obtain ⟨init, last, hsplit, hlooks, -⟩ :=
      looks_split rfl ht hl hzero (.foreign hnext []) (by decide) 2 hfit 5
    have hcount : init.length = 1 := Nat.succ.inj hsplit.count_eq
    have hstop : last.offset + last.length = 16 := hsplit.stop_eq
    rw [hstop, List.length_append, hcount] at hlooks
    exact ⟨init, last, hsplit, hcount, hlooks⟩

end Parser

end Record

end Telemetry
