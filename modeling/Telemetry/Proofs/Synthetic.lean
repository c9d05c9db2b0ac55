import Mathlib.Algebra.Ring.Nat
import Telemetry.Proofs.RoundTrip
import Telemetry.Proofs.Statistics
import Telemetry.Synthesis

/-!
# Made-up streams

Whatever is drawn, each item that is made up is written as valid records, and moves the counter of
ticks by far less than half a turn (`Item.Written`); an exchanged pair lags by seven ticks at most.
So a made-up stream is decoded without anything left over, and the clock finds just the pairs that
were exchanged (`run_generate`).
-/

namespace Telemetry

namespace Record.Body

theorem stamp?_of_untimed {table : Tag.Table} {b : Body} {t : Tag} (ht : table.get? b.tag = some t)
    (h : ∀ length position, t.layout ≠ .fixed length (some position)) : b.stamp? table = none := by
  rw [stamp?, ht, Option.map_some]
  rcases hl : t.layout with ⟨length, _ | position⟩ | _
  · rfl
  · exact absurd hl (h length position)
  · rfl

end Record.Body

namespace Corrections

/-- The only corrections are exchanges, of seven ticks at most. -/
structure OnlySwaps (c : Corrections) (count : Nat) : Prop where
  swaps_eq : c.swaps = count
  maxSwapTicks_le : c.maxSwapTicks.toNat ≤ 7
  clamped_eq : c.clamped = 0
  ambiguous_eq : c.ambiguous = 0

theorem onlySwaps_empty : OnlySwaps {} 0 :=
  ⟨rfl, by decide, rfl, rfl⟩

theorem OnlySwaps.merge {c c' : Corrections} {n n' : Nat} (h : c.OnlySwaps n)
    (h' : c'.OnlySwaps n') : (c.merge c').OnlySwaps (n + n') where
  swaps_eq := by rw [Corrections.merge, h.swaps_eq, h'.swaps_eq]
  maxSwapTicks_le := by
    rw [Corrections.merge, toNat_max]
    exact Nat.max_le.2 ⟨h.maxSwapTicks_le, h'.maxSwapTicks_le⟩
  clamped_eq := by rw [Corrections.merge, h.clamped_eq, h'.clamped_eq]
  ambiguous_eq := by rw [Corrections.merge, h.ambiguous_eq, h'.ambiguous_eq]

theorem onlySwaps_inOrder {t : Timed} (h : t.order = .inOrder) : (ofList [t]).OnlySwaps 0 := by
  simp only [ofList, List.foldl_cons, List.foldl_nil, h]
  exact onlySwaps_empty

theorem onlySwaps_swap {t : Timed} {ahead : Nat} (h : t.order = .swapWithPrevious (.ofNat ahead))
    (hahead : ahead < 8) : (ofList [t]).OnlySwaps 1 := by
  simp only [ofList, List.foldl_cons, List.foldl_nil, h]
  refine ⟨rfl, ?_, rfl, rfl⟩
  rw [observe, toNat_max, UInt16.toNat_ofNat']
  exact Nat.max_le.2 ⟨Nat.zero_le _, by omega⟩

end Corrections

namespace Clock

/-- A clock that has been set stands where the counter does. -/
def State.Stands (s : State) (ticks : UInt16) : Prop :=
  s.anchored = true → s.lastRaw = ticks

namespace Config

variable {c : Config} {s : State} {ticks : UInt16} {a : Advance}

/-- The clock moves to a stamp less than half a turn ahead. -/
theorem Advances.order_of_ahead {step : Nat}
    (h : c.Advances s (some (ticks + UInt16.ofNat step)) a) (hs : s.Stands ticks)
    (hstep : step < 32768) : a.order = .inOrder ∧ a.state.anchored = true ∧
      a.state.lastRaw = ticks + UInt16.ofNat step ∧ a.state.swappable = true := by
  have hahead : s.anchored = true → s.ahead (ticks + UInt16.ofNat step) < period / 2 := by
    intro hanchored
    rw [State.ahead, hs hanchored, UInt16.toNat_sub, UInt16.toNat_add, UInt16.toNat_ofNat', period]
    have := ticks.toNat_lt
    omega
  cases h with
  | first => exact ⟨rfl, rfl, rfl, rfl⟩
  | forward => exact ⟨rfl, rfl, rfl, rfl⟩
  | ambiguous hanchored hback => exact absurd (hahead hanchored) (Nat.not_lt.2 hback)
  | swap hanchored hback => exact absurd (hahead hanchored) (Nat.not_lt.2 hback)
  | clamped hanchored hback => exact absurd (hahead hanchored) (Nat.not_lt.2 hback)

/-- The stamp of the record before, which lags a little, is swapped. -/
theorem Advances.order_of_behind {ahead : Nat} (h : c.Advances s (some ticks) a)
    (hanchored : s.anchored = true) (hraw : s.lastRaw = ticks + UInt16.ofNat ahead)
    (hswap : s.swappable = true) (hpos : 0 < ahead) (hhalf : ahead ≤ 32768)
    (hwindow : ahead ≤ c.window.toNat) :
    a.order = .swapWithPrevious (.ofNat ahead) ∧ a.state.lastRaw = s.lastRaw := by
  have hback : s.ahead ticks = period - ahead := by
    rw [State.ahead, hraw, UInt16.toNat_sub, UInt16.toNat_add, UInt16.toNat_ofNat', period]
    have := ticks.toNat_lt
    omega
  have hlag : period - s.ahead ticks = ahead := by
    rw [hback, period]
    omega
  cases h with
  | first hs => simp [hanchored] at hs
  | forward _ hlt =>
    rw [hback, period] at hlt
    omega
  | ambiguous _ _ hlt => omega
  | swap => exact ⟨by rw [hlag], rfl⟩
  | clamped _ _ _ hs => simp [hswap] at hs

theorem timeline_cons {r : Record} {rs : List Record}
    (h : (c.timeline s (r :: rs)).fault = none) :
    ∃ a, c.Advances s r.rawTicks a ∧ (c.timeline a.state rs).fault = none ∧
      (c.timeline s (r :: rs)).items = ⟨r, s, a⟩ :: (c.timeline a.state rs).items := by
  rcases ha : c.enter s r with o | a
  · rw [timeline_of_error ha] at h
    cases h
  · rw [timeline_of_ok ha] at h ⊢
    exact ⟨a, enter_advances ha, h, rfl⟩

end Config

end Clock

namespace Synthesis

open Record

namespace Item

/-- What the records of an item say. -/
def bodies : Item → List Body
  | fixed tag payload => [⟨tag, .fixed, payload⟩]
  | text tag message => [⟨tag, .text true, Writer.textBytes message⟩]
  | inverted tag later earlier => [⟨tag, .fixed, later⟩, ⟨tag, .fixed, earlier⟩]

def isInverted : Item → Bool
  | inverted .. => true
  | _ => false

theorem flatMap_encode_bodies (i : Item) : i.bodies.flatMap Body.encode = i.encode := by
  cases i <;> simp [bodies, encode, Body.encode, Writer.text]

theorem length_bodies (i : Item) : i.bodies.length = i.size := by
  cases i <;> rfl

theorem size_of_not_isInverted {i : Item} (h : i.isInverted = false) : i.size = 1 := by
  cases i <;> simp_all [isInverted, size]

/-- What may be written where the counter stands at `ticks`, and where it stands then. -/
inductive Written (table : Tag.Table) (ticks : UInt16) : Item → UInt16 → Prop where
  | untimed {tag : UInt8} {payload : Bytes} (hb : Body.Valid table ⟨tag, .fixed, payload⟩)
      (hstamp : Body.stamp? table ⟨tag, .fixed, payload⟩ = none) :
    Written table ticks (.fixed tag payload) ticks
  | text {tag : UInt8} {message : String}
      (hb : Body.Valid table ⟨tag, .text true, Writer.textBytes message⟩)
      (hstamp : Body.stamp? table ⟨tag, .text true, Writer.textBytes message⟩ = none) :
    Written table ticks (.text tag message) ticks
  | stamped {tag : UInt8} {payload : Bytes} {step : Nat}
      (hb : Body.Valid table ⟨tag, .fixed, payload⟩)
      (hstamp : Body.stamp? table ⟨tag, .fixed, payload⟩ = some (ticks + UInt16.ofNat step))
      (hstep : step < 2000) : Written table ticks (.fixed tag payload) (ticks + UInt16.ofNat step)
  | inverted {tag : UInt8} {later earlier : Bytes} {step ahead : Nat}
      (hlater : Body.Valid table ⟨tag, .fixed, later⟩)
      (hearlier : Body.Valid table ⟨tag, .fixed, earlier⟩)
      (hfirst : Body.stamp? table ⟨tag, .fixed, later⟩ =
        some (ticks + UInt16.ofNat step + UInt16.ofNat ahead))
      (hsecond : Body.stamp? table ⟨tag, .fixed, earlier⟩ = some (ticks + UInt16.ofNat step))
      (hstep : step < 2000) (hpos : 0 < ahead) (hahead : ahead < 8) :
    Written table ticks (.inverted tag later earlier)
      (ticks + UInt16.ofNat step + UInt16.ofNat ahead)

/-- Items written one after another. -/
inductive AllWritten (table : Tag.Table) : UInt16 → List Item → Prop where
  | nil {ticks : UInt16} : AllWritten table ticks []
  | cons {ticks ticks' : UInt16} {i : Item} {is : List Item} (hi : Written table ticks i ticks')
      (h : AllWritten table ticks' is) : AllWritten table ticks (i :: is)

variable {table : Tag.Table} {ticks ticks' : UInt16} {i : Item} {is : List Item}

theorem Written.bodies (h : Written table ticks i ticks') :
    ∀ b ∈ i.bodies, b.Valid table ∧ b.kind ≠ .text false := by
  cases h <;> simp_all [Item.bodies]

theorem AllWritten.bodies (h : AllWritten table ticks is) :
    ∀ b ∈ is.flatMap Item.bodies, b.Valid table ∧ b.kind ≠ .text false := by
  induction h with
  | nil => simp
  | cons hi _ ih =>
    intro b hb
    rw [List.flatMap_cons, List.mem_append] at hb
    exact hb.elim (hi.bodies b) (ih b)

end Item

/-- Bodies that all end by themselves may be written in any order. -/
theorem recorded_of_terminated {table : Tag.Table} : ∀ {bs : List Body},
    (∀ b ∈ bs, b.Valid table ∧ b.kind ≠ .text false) → Body.Recorded table bs
  | [], _ => .nil
  | b :: bs, h => by
    obtain ⟨hvalid, hkind⟩ := h b List.mem_cons_self
    exact .cons hvalid (fun hcut => absurd hcut hkind)
      (recorded_of_terminated fun b' hb' => h b' (List.mem_cons_of_mem _ hb'))

section Draws

variable {γ : Type} [RandomSource γ] {table : Tag.Table} {ticks : UInt16}

theorem choose_mem {α : Type} {items : List α} (hne : items ≠ []) (default : α) (g : γ) :
    (choose default items g).1 ∈ items := by
  have hlt := RandomSource.below_lt g items.length (List.length_pos_iff.2 hne)
  simp only [choose, List.getElem?_eq_getElem hlt, Option.getD_some]
  exact List.getElem_mem hlt

theorem length_stampedPayload {length position : Nat} (h : position + 2 ≤ length) (stamp : UInt16)
    (g : γ) : (stampedPayload length position stamp g).1.length = length := by
  have hbytes := RandomSource.length_bytes g length
  simp only [stampedPayload, List.length_append, List.length_take, List.length_drop, hbytes,
    Bytes.ofWord16, List.length_cons, List.length_nil]
  omega

theorem word16_stampedPayload {length position : Nat} (h : position + 2 ≤ length) (stamp : UInt16)
    (g : γ) : Bytes.word16 ((stampedPayload length position stamp g).1.drop position) = stamp := by
  have htake : ((RandomSource.bytes g length).1.take position).length = position := by
    rw [List.length_take, RandomSource.length_bytes]
    omega
  simp only [stampedPayload, List.append_assoc]
  rw [List.drop_left' htake, Bytes.word16_ofWord16]

variable {t : Tag} (ht : t ∈ table.toList)

include ht in
theorem valid_stampedPayload {length position : Nat} (hl : t.layout = .fixed length (some position))
    (stamp : UInt16) (g : γ) :
    let b : Body := ⟨t.byte, .fixed, (stampedPayload length position stamp g).1⟩
    b.Valid table ∧ b.stamp? table = some stamp := by
  have hvalid := table.valid t ht
  rw [hl] at hvalid
  have hget := Tag.Table.get?_of_mem ht
  have hlayout : t.layout = .fixed (stampedPayload length position stamp g).1.length
      (some position) := by
    rw [hl, length_stampedPayload hvalid.2]
  refine ⟨.fixed hget hlayout, ?_⟩
  simp only [Body.stamp?, hget, Option.map_some, hl, word16_stampedPayload hvalid.2 stamp g]

include ht in
/-- Two records are written only where there is room. -/
theorem written_stampedItem {length position : Nat} (hl : t.layout = .fixed length (some position))
    (room : Bool) (ticks : UInt16) (g : γ) :
    let drawn := stampedItem t.byte length position room ticks g
    drawn.1.Written table ticks drawn.2.1 ∧ (drawn.1.isInverted = true → room = true) := by
  intro drawn
  have hstep := RandomSource.between_lt g 1 2000 (by decide)
  have hone : ∀ g' : γ, (Item.fixed t.byte (stampedPayload length position
      (ticks + UInt16.ofNat (RandomSource.between g 1 2000).1) g').1).Written table ticks
        (ticks + UInt16.ofNat (RandomSource.between g 1 2000).1) := fun g' =>
    .stamped (valid_stampedPayload ht hl _ g').1 (valid_stampedPayload ht hl _ g').2 hstep
  cases room with
  | false => exact ⟨hone _, fun h => by cases h⟩
  | true =>
    refine ⟨?_, fun _ => rfl⟩
    simp only [drawn, stampedItem, if_true]
    split_ifs
    · exact .inverted (valid_stampedPayload ht hl _ _).1 (valid_stampedPayload ht hl _ _).1
        (valid_stampedPayload ht hl _ _).2 (valid_stampedPayload ht hl _ _).2 hstep
        (RandomSource.le_between _ 1 8) (RandomSource.between_lt _ 1 8 (by decide))
    · exact hone _

theorem valid_message {message : String} (h : message ∈ messages) (ht : t ∈ table.toList)
    (hl : t.layout = .text) : Body.Valid table ⟨t.byte, .text true, Writer.textBytes message⟩ := by
  refine .text (Tag.Table.get?_of_mem ht) hl ?_ ?_ (by simp)
  · simp [Writer.textBytes]
  · have hshort : ∀ m ∈ messages, (Writer.textBytes m).length ≤ maxTextLength := by
      decide +kernel
    exact hshort message h

/-- An item is written by the table, whatever is drawn. -/
theorem written_item (first : Tag) {tags : List Tag} (hne : tags ≠ [])
    (htags : ∀ t ∈ tags, t ∈ table.toList) (room : Bool) (ticks : UInt16) (g : γ) :
    let drawn := item first tags room ticks g
    drawn.1.Written table ticks drawn.2.1 ∧ (drawn.1.isInverted = true → room = true) := by
  intro drawn
  have ht := htags _ (choose_mem hne first g)
  have hget := Tag.Table.get?_of_mem ht
  simp only [drawn, item]
  split
  · next length position hl => exact written_stampedItem ht hl room ticks _
  · next length hl =>
    have hlength := RandomSource.length_bytes (choose first tags g).2 length
    refine ⟨.untimed (.fixed hget (hl.trans (by rw [hlength])))
      (Body.stamp?_of_untimed hget (by simp [hl])), fun h => by cases h⟩
  · next hl =>
    have hsome : messages ≠ [] := by simp [messages]
    have hmessage := choose_mem hsome "" (choose first tags g).2
    exact ⟨.text (valid_message hmessage ht hl) (Body.stamp?_of_untimed hget (by simp [hl])),
      fun h => by cases h⟩

/-- As many records are written as were asked for. -/
theorem written_itemsAfter (first : Tag) {tags : List Tag} (hne : tags ≠ [])
    (htags : ∀ t ∈ tags, t ∈ table.toList) (written : List Item) (count : Nat) (ticks : UInt16)
    (g : γ) : ∃ is, (itemsAfter written first tags count ticks g).1 = written.reverse ++ is ∧
      Item.AllWritten table ticks is ∧ (is.map Item.size).sum = count := by
  induction count using Nat.strong_induction_on generalizing written ticks g with
  | _ count ih =>
    rcases count with _ | n
    · exact ⟨[], by simp [itemsAfter], .nil, rfl⟩
    · obtain ⟨hitem, hroom⟩ := written_item first hne htags (0 < n) ticks g
      have hunfold := itemsAfter.eq_def written first tags (n + 1) ticks g
      rcases hdrawn : item first tags (0 < n) ticks g with ⟨i, ticks', g'⟩
      rw [hdrawn] at hitem hroom
      have hpos : 0 < i.size := by cases i <;> simp [Item.size]
      have hsize : i.size ≤ n + 1 := by
        rcases hi : i.isInverted with _ | _
        · have := Item.size_of_not_isInverted hi
          omega
        · have hlt := of_decide_eq_true (hroom hi)
          cases i <;> simp only [Item.size] <;> omega
      obtain ⟨is, hitems, hwritten, hsum⟩ :=
        ih (n + 1 - i.size) (by omega) (i :: written) ticks' g'
      refine ⟨i :: is, ?_, .cons hitem hwritten, ?_⟩
      · simp only [hunfold, hdrawn, hitems, List.reverse_cons, List.append_assoc,
          List.singleton_append]
      · rw [List.map_cons, List.sum_cons, hsum]
        omega

theorem written_items (hne : table.toList ≠ []) (count : Nat) (g : γ) :
    ∃ ticks, Item.AllWritten table ticks (items table count g).1 ∧
      (((items table count g).1).flatMap Item.bodies).length = count := by
  have hcount : ∀ is : List Item, (is.flatMap Item.bodies).length = (is.map Item.size).sum := by
    intro is
    rw [List.length_flatMap]
    congr 1
    exact List.map_congr_left fun i _ => i.length_bodies
  unfold items
  split
  · next h => exact absurd h hne
  · next first rest hlist =>
    have htags : ∀ t ∈ first :: rest, t ∈ table.toList := by simp [hlist]
    obtain ⟨is, hitems, hwritten, hsum⟩ := written_itemsAfter first (List.cons_ne_nil _ _) htags []
      count (RandomSource.word16 g).1 (RandomSource.word16 g).2
    rw [List.reverse_nil, List.nil_append] at hitems
    exact ⟨_, by rwa [hitems], by rw [hitems, hcount, hsum]⟩

theorem generate_eq (table : Tag.Table) (count : Nat) (g : γ) : (generate table count g).1 =
    (((items table count g).1).flatMap Item.bodies).flatMap Body.encode := by
  rw [List.flatMap_assoc]
  simp only [Item.flatMap_encode_bodies]
  rfl

end Draws

section Clock

open Clock

variable {table : Tag.Table} {ticks ticks' : UInt16} {i : Item} {is : List Item} {c : Clock.Config}

/-- The clock takes in the records of an item, goes where the counter goes, and finds the exchange
if there is one. -/
theorem Item.Written.timeline (h : i.Written table ticks ticks') (hwindow : 7 ≤ c.window.toNat)
    {s : State} (hs : s.Stands ticks) (offset ordinal : Nat) {more : List Record}
    (hfault : (c.timeline s (placeAll table i.bodies offset ordinal ++ more)).fault = none) :
    ∃ items s', s'.Stands ticks' ∧ (c.timeline s' more).fault = none ∧
      (c.timeline s (placeAll table i.bodies offset ordinal ++ more)).items =
        items ++ (c.timeline s' more).items ∧
      (Corrections.ofList (items.map Clocked.timed)).OnlySwaps i.isInverted.toNat := by
  cases h with
  | untimed _ hstamp | text _ hstamp =>
    simp only [Item.bodies, placeAll, List.cons_append, List.nil_append] at hfault ⊢
    obtain ⟨a, ha, hrest, hitems⟩ := Clock.Config.timeline_cons hfault
    simp only [Body.place, hstamp] at ha
    have horder : a.order = .inOrder ∧ a.state.Stands ticks := by
      cases ha
      exact ⟨rfl, hs⟩
    exact ⟨[⟨_, s, a⟩], a.state, horder.2, hrest, hitems,
      Corrections.onlySwaps_inOrder horder.1⟩
  | stamped _ hstamp hstep =>
    simp only [Item.bodies, placeAll, List.cons_append, List.nil_append] at hfault ⊢
    obtain ⟨a, ha, hrest, hitems⟩ := Clock.Config.timeline_cons hfault
    simp only [Body.place, hstamp] at ha
    obtain ⟨horder, -, hraw, -⟩ := ha.order_of_ahead hs (by omega)
    exact ⟨[⟨_, s, a⟩], a.state, fun _ => hraw, hrest, hitems,
      Corrections.onlySwaps_inOrder horder⟩
  | @inverted tag later earlier step ahead _ _ hfirst hsecond hstep hpos hahead =>
    simp only [Item.bodies, placeAll, List.cons_append, List.nil_append] at hfault ⊢
    obtain ⟨a, ha, hrest, hitems⟩ := Clock.Config.timeline_cons hfault
    obtain ⟨a', ha', hrest', hitems'⟩ := Clock.Config.timeline_cons hrest
    simp only [Body.place, hfirst, hsecond] at ha ha'
    have hsum : ticks + UInt16.ofNat step + UInt16.ofNat ahead =
        ticks + UInt16.ofNat (step + ahead) := by
      rw [UInt16.add_assoc, UInt16.ofNat_add]
    rw [hsum] at ha ⊢
    obtain ⟨horder, hanchored, hraw, hswap⟩ := ha.order_of_ahead hs (by omega)
    obtain ⟨horder', hraw'⟩ := ha'.order_of_behind hanchored (hraw.trans hsum.symm) hswap hpos
      (by omega) (by omega)
    rw [hitems'] at hitems
    refine ⟨[⟨_, s, a⟩, ⟨_, a.state, a'⟩], a'.state, fun _ => hraw'.trans hraw, hrest', hitems, ?_⟩
    rw [List.map_cons, List.map_cons, Corrections.ofList_cons, List.map_nil]
    exact (Corrections.onlySwaps_inOrder horder).merge (Corrections.onlySwaps_swap horder' hahead)

/-- As many exchanges are found as were written. -/
theorem Item.AllWritten.timeline (h : Item.AllWritten table ticks is)
    (hwindow : 7 ≤ c.window.toNat) {s : State} (hs : s.Stands ticks) (offset ordinal : Nat)
    (hfault :
      (c.timeline s (placeAll table (is.flatMap Item.bodies) offset ordinal)).fault = none) :
    (Corrections.ofList ((c.timeline s (placeAll table (is.flatMap Item.bodies) offset
      ordinal)).items.map Clocked.timed)).OnlySwaps (is.countP Item.isInverted) := by
  induction h generalizing s offset ordinal with
  | nil => exact Corrections.onlySwaps_empty
  | @cons ticks ticks' i is hi _ ih =>
    rw [List.flatMap_cons, placeAll_append] at hfault ⊢
    obtain ⟨items, s', hs', hrest, hitems, hswaps⟩ := hi.timeline hwindow hs offset ordinal hfault
    have hcount : (i :: is).countP Item.isInverted =
        i.isInverted.toNat + is.countP Item.isInverted := by
      rw [List.countP_cons, Nat.add_comm]
      cases i.isInverted <;> rfl
    rw [hitems, List.map_append, Corrections.ofList_append, hcount]
    exact hswaps.merge (ih hs' _ _ hrest)

variable {γ σ : Type} [RandomSource γ] [Source σ] {source : σ} {last : Nat}

/-- A made-up stream is decoded into as many records as were asked for, up to its last byte; its
texts are all terminated, and what the clock corrects are just the pairs that were exchanged. -/
theorem run_generate (hne : table.toList ≠ []) (count : Nat) (g : γ)
    (hwindow : 7 ≤ c.window.toNat)
    (hs : Source.Delivers source (generate table count g).1 last)
    (hfit : ∀ o, ((Session.new table c).run source).fault ≠ some (.overflow o)) :
    let run := (Session.new table c).run source
    let corrections := run.session.corrections
    run.fault = none ∧ run.emitted.size = count ∧ run.session.ordinal = count ∧
      run.session.finish = some .eof ∧ run.session.offset = (generate table count g).1.length ∧
      (∀ t ∈ run.emitted.toList, t.record.kind ≠ .text false) ∧
      corrections.clamped = 0 ∧ corrections.ambiguous = 0 ∧
      corrections.swaps = (items table count g).1.countP Item.isInverted ∧
      corrections.maxSwapTicks.toNat ≤ 7 := by
  intro run corrections
  obtain ⟨ticks, hwritten, hcount⟩ := written_items hne count g
  rw [generate_eq] at hs ⊢
  generalize hbodies : ((items table count g).1).flatMap Item.bodies = bs at hs hcount ⊢
  have hvalid : ∀ b ∈ bs, b.Valid table ∧ b.kind ≠ .text false := hbodies ▸ hwritten.bodies
  have hlen : 0 + (bs.flatMap Body.encode).length < Word.size := by
    have := hs.length_le
    have := hs.last_lt
    omega
  have hdecodes := Session.decodes_of_delivers hs hfit
  rw [Parser.parse_flatMap_encode rfl rfl (recorded_of_terminated hvalid) 0 0 hlen] at hdecodes
  have hrecords : run.records = placeAll table bs 0 0 := hdecodes.records_eq
  have hlength : run.records.length = count := by
    rw [hrecords, length_placeAll, hcount]
  have hline : (run.line (Session.new table c)) = c.timeline {} (placeAll table bs 0 0) :=
    congrArg (c.timeline {}) hrecords
  have hfault := (Session.run_course source (s := Session.new table c) rfl).fault_eq
  have hcorrections : corrections = Corrections.ofList _ := Session.corrections_run table c source
  rw [hline, ← hbodies] at hfault
  rw [Session.Run.timed, hline, ← hbodies] at hcorrections
  obtain ⟨hswaps, hticks, hclamped, hambiguous⟩ :=
    hwritten.timeline hwindow (fun h => by cases h) 0 0 hfault
  refine ⟨hdecodes.fault_eq, ?_, hdecodes.ordinal_eq.trans hlength, hdecodes.finish_eq, ?_, ?_,
    hcorrections ▸ hclamped, hcorrections ▸ hambiguous, hcorrections ▸ hswaps,
    hcorrections ▸ hticks⟩
  · rw [← Array.length_toList, ← hlength, ← hdecodes.emitted_perm.length_eq, List.length_map]
  · rw [hdecodes.offset_eq, Nat.zero_add]
  · intro t ht
    have hmem : t.record ∈ run.records :=
      hdecodes.emitted_perm.mem_iff.1 (List.mem_map_of_mem ht)
    rw [hrecords] at hmem
    have hbody := List.mem_map_of_mem (f := body) hmem
    rw [map_body_placeAll] at hbody
    exact (hvalid _ hbody).2

/-- Three records with an exchanged pair at the end. -/
theorem run_generate_standard :
    let g : SplitMix := ⟨10⟩
    let data : Bytes := [2, 12, 50, 61, 40, 3, 146, 52, 108, 3, 145, 52, 20]
    let run := (Session.new Tag.Table.standard {}).run (Memory.plain data)
    (generate Tag.Table.standard 3 g).1 = data ∧ Tag.Table.standard.toList ≠ [] ∧
      7 ≤ (Clock.Config.window {}).toNat ∧ Source.Delivers (Memory.plain data) data 13 ∧
      (∀ o, run.fault ≠ some (.overflow o)) ∧ run.emitted.size = 3 ∧
      run.session.finish = some .eof ∧ run.session.offset = 13 ∧
      run.session.corrections.swaps = 1 := by
  intro g data run
  have hdata : (generate Tag.Table.standard 3 g).1 = data := by decide +kernel
  have hpairs : (items Tag.Table.standard 3 g).1.countP Item.isInverted = 1 := by decide +kernel
  have hne : Tag.Table.standard.toList ≠ [] := by decide +kernel
  have hs : Source.Delivers (Memory.plain data) data 13 :=
    (Memory.holds_plain (by decide) (by decide)).toDelivers
  have hfault : run.fault = none := by decide +kernel
  have hfit : ∀ o, run.fault ≠ some (.overflow o) := fun o h => by simp [hfault] at h
  obtain ⟨-, hsize, -, hfinish, hoffset, -, -, -, hswaps, -⟩ :=
    run_generate hne 3 g (by decide) (by rwa [hdata]) hfit
  rw [hdata] at hoffset
  exact ⟨hdata, hne, by decide, hs, hfit, hsize, hfinish, hoffset, hswaps.trans hpairs⟩

end Clock

end Synthesis

end Telemetry
