import Telemetry.Codec.Config
import Telemetry.Codec.Index
import Telemetry.Codec.Record
import Telemetry.Proofs.JsonFields

/-!
# Values that survive their text

Settings, tags, clocks and what decoding found are read back from the text that is written for them
as they were, whatever their texts and as far as their numbers are in the range of their types
(`Json.values_survive`).  Each is written as a plain tree and read back from that tree
(`Json.Restores`); a tag's layout and a stream's clock share the object that they stand in, so there
the fields that are set aside are exactly those of the layout and the clock.
-/

namespace Telemetry

open Json

namespace Json

/-- A value is read back from what is written for it. -/
structure Restores {α : Type} (write : α → Json) (read : Json → Option α) (a : α) : Prop where
  plain : (write a).Plain
  read_eq : read (write a) = some a

theorem Restores.parse {α : Type} {write : α → Json} {read : Json → Option α} {a : α}
    (h : Restores write read a) : Json.parse (write a).print >>= read = some a := by
  rw [parse_print h.plain]
  exact h.read_eq

end Json

namespace Clock

def Config.InRange (c : Config) : Prop :=
  c.tickNs < Word.size

structure State.InRange (s : State) : Prop where
  now : s.now < Word.size
  untimed : s.untimed < Word.size
  floor : s.floor < Word.size

theorem Config.restores {c : Config} (h : c.InRange) : Restores Config.toJson Config.ofJson? c where
  plain := .struct (by simp)
  read_eq := by
    simp [Config.ofJson?, Config.toJson, Config.ofFields?, Fields.withDefault, word64?_nat h]

theorem State.restores {s : State} (h : s.InRange) : Restores State.toJson State.ofJson? s where
  plain := .struct (by simp)
  read_eq := by
    simp [State.ofJson?, State.toJson, Fields.required, word64?_nat h.now, word64?_nat h.untimed,
      word64?_nat h.floor]

theorem Order.restores (o : Order) : Restores Order.toJson Order.ofJson? o where
  plain := by
    cases o with
    | inOrder => exact .text _
    | _ ticks => exact plain_variant _ (by simp)
  read_eq := by
    have hticks : ∀ ticks : UInt16, ofJson?.ticks? (some (struct [("ticks", nat ticks.toNat)])) =
        some ticks := fun ticks => by simp [ofJson?.ticks?, Fields.required]
    cases o with
    | inOrder =>
      rw [Order.ofJson?, Order.toJson, variant?_text]
      rfl
    | _ ticks =>
      rw [Order.ofJson?, Order.toJson, variant?_variant]
      simp [hticks]

end Clock

namespace Corrections

structure InRange (c : Corrections) : Prop where
  swaps : c.swaps < Word.size
  clamped : c.clamped < Word.size
  ambiguous : c.ambiguous < Word.size

theorem restores {c : Corrections} (h : c.InRange) : Restores toJson ofJson? c where
  plain := .struct (by simp)
  read_eq := by
    simp [ofJson?, toJson, Fields.required, word64?_nat h.swaps, word64?_nat h.clamped,
      word64?_nat h.ambiguous]

end Corrections

namespace Mark

structure InRange (m : Mark) : Prop where
  ordinal : m.ordinal < Word.size
  offset : m.offset < Word.size

theorem restores {m : Mark} (h : m.InRange) : Restores toJson ofJson? m where
  plain := .struct (by simp)
  read_eq := by
    simp [ofJson?, toJson, Fields.required, word64?_nat h.ordinal, word64?_nat h.offset]

end Mark

namespace StreamEnd

def InRange : StreamEnd → Prop
  | eof => True
  | truncated offset trailing => offset < Word.size ∧ trailing < Word.size
  | lostSync ordinal offset _ lastGood =>
    ordinal < Word.size ∧ offset < Word.size ∧ ∀ m ∈ lastGood, m.InRange
  | limit ordinal => ordinal < Word.size

theorem restores {e : StreamEnd} (h : e.InRange) : Restores toJson ofJson? e where
  plain := by
    cases e with
    | eof => exact .text _
    | truncated offset trailing => exact plain_variant _ (by simp)
    | lostSync ordinal offset tag lastGood =>
      have hlast : (ofOption Mark.toJson lastGood).Plain :=
        plain_ofOption fun m hm => (Mark.restores (h.2.2 m hm)).plain
      exact plain_variant _ (by simp [hlast])
    | limit ordinal => exact plain_variant _ (by simp)
  read_eq := by
    cases e with
    | eof =>
      rw [ofJson?, toJson, variant?_text]
      rfl
    | truncated offset trailing =>
      obtain ⟨hoffset, htrailing⟩ := h
      simp [ofJson?, toJson, Fields.required, word64?_nat hoffset, word64?_nat htrailing]
    | lostSync ordinal offset tag lastGood =>
      obtain ⟨hordinal, hoffset, hlast⟩ := h
      have hgood : option? Mark.ofJson? (ofOption Mark.toJson lastGood) = some lastGood :=
        option?_ofOption (fun _ => Json.noConfusion) fun m hm =>
          (Mark.restores (hlast m hm)).read_eq
      simp [ofJson?, toJson, Fields.required, Fields.optional, word64?_nat hordinal,
        word64?_nat hoffset, hgood]
    | limit ordinal => simp [ofJson?, toJson, Fields.required, word64?_nat h]

end StreamEnd

namespace Checkpoint

structure InRange (c : Checkpoint) : Prop where
  ordinal : c.ordinal < Word.size
  offset : c.offset < Word.size
  state : c.state.InRange

theorem restores {c : Checkpoint} (h : c.InRange) : Restores toJson ofJson? c where
  plain := .struct (by simp [(Clock.State.restores h.state).plain])
  read_eq := by
    simp [ofJson?, toJson, Fields.required, word64?_nat h.ordinal, word64?_nat h.offset,
      (Clock.State.restores h.state).read_eq]

end Checkpoint

namespace Record

theorem Kind.restores (k : Kind) : Restores Kind.toJson Kind.ofJson? k where
  plain := by
    cases k with
    | fixed => exact .text _
    | text terminated => exact plain_variant _ (by simp)
  read_eq := by
    cases k with
    | fixed =>
      rw [Kind.ofJson?, Kind.toJson, variant?_text]
      rfl
    | text terminated => simp [Kind.ofJson?, Kind.toJson, Fields.required]

structure InRange (r : Record) : Prop where
  ordinal : r.ordinal < Word.size
  offset : r.offset < Word.size
  length : r.length < UInt32.size

theorem restores {r : Record} (h : r.InRange) : Restores toJson ofJson? r where
  plain := by
    have hpayload : (list (fun b => nat b.toNat) r.payload).Plain := plain_list fun _ _ => .nat _
    have hticks : (ofOption (fun t => nat t.toNat) r.rawTicks).Plain :=
      plain_ofOption fun _ _ => .nat _
    exact .struct (by simp [(Kind.restores r.kind).plain, hpayload, hticks])
  read_eq := by
    have hpayload : list? byte? (list (fun b => nat b.toNat) r.payload) = some r.payload :=
      list?_list fun b _ => byte?_nat b
    have hticks : option? word16? (ofOption (fun t => nat t.toNat) r.rawTicks) = some r.rawTicks :=
      option?_ofOption (fun _ => Json.noConfusion) fun t _ => word16?_nat t
    simp [ofJson?, toJson, Fields.required, Fields.optional, word64?_nat h.ordinal,
      word64?_nat h.offset, word32?_nat h.length, (Kind.restores r.kind).read_eq, hpayload, hticks]

end Record

namespace Timed

structure InRange (t : Timed) : Prop where
  record : t.record.InRange
  ns : t.ns < Word.size

theorem restores {t : Timed} (h : t.InRange) : Restores toJson ofJson? t where
  plain := .struct (by
    simp [(Record.restores h.record).plain, (Clock.Order.restores t.order).plain])
  read_eq := by
    simp [ofJson?, toJson, Fields.required, word64?_nat h.ns, (Record.restores h.record).read_eq,
      (Clock.Order.restores t.order).read_eq]

end Timed

namespace Tag

def Layout.InRange : Layout → Prop
  | fixed length timestamp => length < Word.size ∧ ∀ position ∈ timestamp, position < Word.size
  | text => True

namespace Layout

theorem plain_fields (l : Layout) : ∀ f ∈ l.fields, f.2.Plain := by
  rcases l with ⟨length, _ | position⟩ | _ <;> simp [fields]

theorem nodup_fields (l : Layout) : (l.fields.map Prod.fst).Nodup := by
  rcases l with ⟨length, _ | position⟩ | _ <;> simp [fields]

/-- No field of a layout has the name of another field of the tag. -/
theorem notMem_fields (l : Layout) : ∀ f ∈ l.fields, f.1 ∉ ["tag", "name"] := by
  rcases l with ⟨length, _ | position⟩ | _ <;> simp [fields]

theorem isReadable_fields {l : Layout} (h : l.InRange) (room : Nat) :
    ∀ f ∈ l.fields, isReadable room f.2 = true := by
  rcases l with ⟨length, _ | position⟩ | _
  · simp [fields, isReadable_text, isReadable_nat h.1]
  · simp [fields, isReadable_text, isReadable_nat h.1, isReadable_nat (h.2 position rfl)]
  · simp [fields, isReadable_text]

theorem ofFields?_fields {l : Layout} (h : l.InRange) : ofFields? l.fields = some l := by
  have hfixed : Case.ofJson? (Json.text "fixed") = some .fixed := by simp [Case.ofJson?]
  have htext : Case.ofJson? (Json.text "text") = some .text := by simp [Case.ofJson?]
  simp only [ofFields?, chosen?_of_nodup l.nodup_fields]
  rcases l with ⟨length, _ | position⟩ | _
  · simp [fields, Fields.required, Fields.optional, hfixed, word64?_nat h.1]
  · have hposition : option? word64? (nat position) = some (some position) :=
      option?_of_ne_null Json.noConfusion (word64?_nat (h.2 position rfl))
    simp [fields, Fields.required, Fields.optional, hfixed, word64?_nat h.1, hposition]
  · simp [fields, Fields.required, htext]

end Layout

def InRange (t : Tag) : Prop :=
  t.layout.InRange

/-- A tag is read back at any depth, since it holds numbers and texts only. -/
theorem restores {t : Tag} (h : t.InRange) (depth : Nat) :
    Restores toJson (ofJsonAt? depth) t where
  plain := .struct (List.forall_mem_append.2 ⟨by simp, t.layout.plain_fields⟩)
  read_eq := by
    have hnames := t.layout.notMem_fields
    have hknown : t.layout.fields.filter (·.1 ∈ ["tag", "name"]) = [] :=
      List.filter_eq_nil_iff.2 fun f hf => by simpa using hnames f hf
    have hother : t.layout.fields.filter (·.1 ∉ ["tag", "name"]) = t.layout.fields :=
      List.filter_eq_self.2 fun f hf => by simpa using hnames f hf
    rw [ofJsonAt?, toJson, setAside?_struct (by rw [List.filter_append, hknown])
      (by rw [List.filter_append, hother])]
    · simp [Fields.required, Layout.ofFields?_fields h]
    · simp
    · exact t.layout.isReadable_fields h _

end Tag

namespace Config

structure Stream.InRange (c : Stream) : Prop where
  interval : c.interval < Word.size
  cacheCapacity : c.cacheCapacity < Word.size
  clock : c.clock.InRange
  tags : ∀ tags ∈ c.tags, ∀ t ∈ tags, t.InRange

/-- The settings of the clock are the ones that are set aside. -/
theorem Stream.setAside?_toJson {c : Stream} (h : c.InRange) (room : Nat) :
    c.toJson.setAside? room ["file", "checkpoint_interval", "cache_capacity", "tags"] =
      some (⟨[
          ("file", text c.file),
          ("checkpoint_interval", nat c.interval),
          ("cache_capacity", nat c.cacheCapacity)] ++
          (c.tags.map fun tags => ("tags", list Tag.toJson tags)).toList, true⟩,
        [("tick_ns", nat c.clock.tickNs), ("reorder_window_ticks", nat c.clock.window.toNat)]) := by
  have hwindow : c.clock.window.toNat < Word.size := c.clock.window.toNat_lt.trans (by decide)
  refine setAside?_struct ?_ ?_ ?_ ?_
  · cases c.tags <;> simp
  · cases c.tags <;> simp
  · cases c.tags <;> simp
  · simp [isReadable_nat h.clock, isReadable_nat hwindow]

theorem Stream.restores {c : Stream} (h : c.InRange) (depth : Nat) :
    Restores toJson (ofJsonAt? depth) c where
  plain := by
    have htags : ∀ tags ∈ c.tags, (list Tag.toJson tags).Plain := fun tags htags =>
      plain_list fun t ht => (Tag.restores (h.tags tags htags t ht) 0).plain
    refine .struct (List.forall_mem_append.2 ⟨by simp, ?_⟩)
    rcases hc : c.tags with _ | tags
    · simp
    · simp [htags tags hc]
  read_eq := by
    rw [ofJsonAt?, setAside?_toJson h]
    rcases c with ⟨file, interval, cacheCapacity, clock, _ | tags⟩
    · simp [chosen?_of_nodup, Clock.Config.ofFields?, Fields.withDefault, word64?_nat h.interval,
        word64?_nat h.cacheCapacity, word64?_nat h.clock]
    · have htags : option? (list? (Tag.ofJsonAt? (depth + 2))) (list Tag.toJson tags) =
          some (some tags) :=
        option?_of_ne_null Json.noConfusion
          (list?_list fun t ht => (Tag.restores (h.tags tags rfl t ht) _).read_eq)
      simp [chosen?_of_nodup, Clock.Config.ofFields?, Fields.withDefault, word64?_nat h.interval,
        word64?_nat h.cacheCapacity, word64?_nat h.clock, htags]

theorem Web.restores (c : Web) : Restores toJson ofJson? c where
  plain := .struct (by simp)
  read_eq := by simp [ofJson?, toJson, Fields.required]

def InRange (c : Config) : Prop :=
  c.stream.InRange

theorem plain_toJson {c : Config} (h : c.InRange) : c.toJson.Plain :=
  .struct (by simp [(Web.restores c.web).plain, (Stream.restores h 1).plain])

theorem ofJson?_toJson {c : Config} (h : c.InRange) (workDir : String) :
    ofJson? workDir c.toJson = some { c with workDir } := by
  simp [ofJson?, toJson, Fields.withDefault, (Web.restores c.web).read_eq,
    (Stream.restores h 1).read_eq]

theorem parse?_print {c : Config} (h : c.InRange) (workDir : String) :
    parse? workDir c.toJson.print = some { c with workDir } := by
  rw [parse?, parse_print (plain_toJson h)]
  exact ofJson?_toJson h workDir

end Config

/-- Settings are read back but for the working directory, which the reader gives, and every other
value is read back as it was. -/
theorem Json.values_survive :
    (∀ (c : Config) (workDir : String), c.InRange →
      Config.parse? workDir c.toJson.print = some { c with workDir }) ∧
    (∀ t : Tag, t.InRange → parse t.toJson.print >>= Tag.ofJson? = some t) ∧
    (∀ c : Clock.Config, c.InRange → parse c.toJson.print >>= Clock.Config.ofJson? = some c) ∧
    (∀ s : Clock.State, s.InRange → parse s.toJson.print >>= Clock.State.ofJson? = some s) ∧
    (∀ c : Checkpoint, c.InRange → parse c.toJson.print >>= Checkpoint.ofJson? = some c) ∧
    (∀ o : Clock.Order, parse o.toJson.print >>= Clock.Order.ofJson? = some o) ∧
    (∀ c : Corrections, c.InRange → parse c.toJson.print >>= Corrections.ofJson? = some c) ∧
    (∀ e : StreamEnd, e.InRange → parse e.toJson.print >>= StreamEnd.ofJson? = some e) ∧
    (∀ t : Timed, t.InRange → parse t.toJson.print >>= Timed.ofJson? = some t) :=
  ⟨fun _ workDir h => Config.parse?_print h workDir, fun _ h => (Tag.restores h 0).parse,
    fun _ h => (Clock.Config.restores h).parse, fun _ h => (Clock.State.restores h).parse,
    fun _ h => (Checkpoint.restores h).parse, fun o => (Clock.Order.restores o).parse,
    fun _ h => (Corrections.restores h).parse, fun _ h => (StreamEnd.restores h).parse,
    fun _ h => (Timed.restores h).parse⟩

theorem Json.values_survive_extremes :
    let odd := "\"\\u0041\x00\x08\x0c\n\r\t\x1f\x7f/\x7b\"tag\":[1]\x7d é€😀"
    let last := Word.size - 1
    let tags := [Tag.timed 255 odd last last, .fixed 0 "" 0, .text 7 odd]
    let clock : Clock.Config := ⟨last, 65535⟩
    let c : Config := ⟨odd, ⟨odd, 0⟩, ⟨odd, last, 0, clock, some tags⟩⟩
    let state : Clock.State := ⟨65535, last, 0, true, false, last⟩
    let checkpoint : Checkpoint := ⟨last, 0, state⟩
    let corrections : Corrections := ⟨last, 65535, 0, last⟩
    let finish := StreamEnd.lostSync last 0 255 (some ⟨0, last⟩)
    let timed : Timed := ⟨⟨last, 0, .text false, [0, 255], last, UInt32.size - 1, some 0⟩, last,
      .ambiguous 65535⟩
    Config.parse? "/data" c.toJson.print = some { c with workDir := "/data" } ∧
    (∀ t ∈ tags, parse t.toJson.print >>= Tag.ofJson? = some t) ∧
    parse clock.toJson.print >>= Clock.Config.ofJson? = some clock ∧
    parse state.toJson.print >>= Clock.State.ofJson? = some state ∧
    parse checkpoint.toJson.print >>= Checkpoint.ofJson? = some checkpoint ∧
    parse timed.order.toJson.print >>= Clock.Order.ofJson? = some timed.order ∧
    parse corrections.toJson.print >>= Corrections.ofJson? = some corrections ∧
    parse finish.toJson.print >>= StreamEnd.ofJson? = some finish ∧
    parse timed.toJson.print >>= Timed.ofJson? = some timed := by
  intro odd last tags clock c state checkpoint corrections finish timed
  have hlast : last < Word.size := by decide
  have hzero : 0 < Word.size := by decide
  have htags : ∀ t ∈ tags, t.InRange := by
    have hedge : (Tag.timed 255 odd last last).InRange := ⟨hlast, by rintro _ ⟨⟩; exact hlast⟩
    have hempty : (Tag.fixed 0 "" 0).InRange := ⟨hzero, by rintro _ ⟨⟩⟩
    have htext : (Tag.text 7 odd).InRange := trivial
    simp [tags, hedge, hempty, htext]
  have hstate : state.InRange := ⟨hlast, hzero, hlast⟩
  have hrecord : timed.record.InRange := ⟨hlast, hlast, by decide⟩
  have hfinish : finish.InRange := ⟨hlast, hzero, by rintro _ ⟨⟩; exact ⟨hzero, hlast⟩⟩
  obtain ⟨hconfig, htag, hclock, hstates, hcheckpoint, horder, hcorrections, hend, htimed⟩ :=
    Json.values_survive
  refine ⟨hconfig c "/data" ⟨hlast, hzero, hlast, ?_⟩, fun t ht => htag t (htags t ht),
    hclock clock hlast, hstates state hstate, hcheckpoint checkpoint ⟨hlast, hzero, hstate⟩,
    horder _, hcorrections corrections ⟨hlast, hzero, hlast⟩, hend finish hfinish,
    htimed timed ⟨hrecord, hlast⟩⟩
  rintro _ ⟨⟩
  exact htags

end Telemetry
