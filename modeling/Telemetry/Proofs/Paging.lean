import Mathlib.Algebra.Ring.Nat
import Mathlib.Data.List.Forall2
import Telemetry.Proofs.Answers
import Telemetry.Proofs.RandomAccess

/-!
# Paging

A client that asks for one page after the other is sent every record once and in order
(`walks_of_start`), whatever others ask for in between: no request changes what the service is one
of (`Serves.handle`), and a page shows the records at its positions, as far as there are any
(`Serves.page`).  Pages of the default length end where the next one begins, until one ends with the
stream.
-/

namespace Telemetry

namespace File

/-- A regular file holds its contents, if no reading of them reaches too far. -/
theorem holds_regular {contents : Array UInt8}
    (h : contents.size + Window.fillSize ≤ lastPosition) :
    Source.Holds (regular contents) contents.toList (lastPosition - Window.fillSize) := by
  have hread : ∀ position ≤ lastPosition - Window.fillSize,
      Source.read (regular contents) position Window.fillSize =
        (.ok (Bytes.slice contents position Window.fillSize), regular contents) := by
    intro position hposition
    have hreach : ¬ lastPosition < position + Window.fillSize := by omega
    change (File.read (regular contents) position Window.fillSize, regular contents) = _
    rw [File.read, if_neg hreach]
  have heq : ∀ f, Source.Reaches (lastPosition - Window.fillSize) (regular contents) f →
      f = regular contents := by
    intro f hf
    induction hf with
    | refl => rfl
    | read _ hposition ih => rw [ih, hread _ hposition]
  refine ⟨⟨⟨?_, by decide, ?_⟩, ?_⟩, ?_⟩
  · rw [Array.length_toList]
    omega
  · intro f hf position hposition bytes hbytes
    rw [heq f hf, hread position hposition] at hbytes
    rw [← Except.ok.inj hbytes, Bytes.slice_eq]
    refine ⟨List.take_prefix _ _, fun hnil => ?_⟩
    rcases List.take_eq_nil_iff.1 hnil with hsize | hdrop
    · exact absurd hsize (by decide)
    · exact List.drop_eq_nil_iff.1 hdrop
  · rintro e ⟨f, hf, position, hposition, herror⟩
    rw [heq f hf, hread position hposition] at herror
    cases herror
  · intro f hf
    rw [heq f hf, Array.length_toList]
    rfl

end File

theorem Index.reaches_build {σ : Type} [Source σ] {source : σ} {data : Bytes} {last : Nat}
    (hs : Source.Delivers source data last) (table : Tag.Table) (clock : Clock.Config)
    (interval : Nat) : Source.Reaches last source (build table clock interval source).2 := by
  have hcovers := Session.covers_of_delivers (Session.within_new table clock data last) hs rfl
  unfold build
  split_ifs
  · exact .refl
  · rcases Source.count source with e | totalBytes
    · exact .refl
    · dsimp only
      split <;> exact hcovers.reaches

namespace Chunk

/-- An index of a source makes a reader of its data, which the source still holds. -/
theorem Reader.serves_of_build {σ : Type} [Source σ] {source source' : σ} {data : Bytes}
    {last interval : Nat} {table : Tag.Table} {clock : Clock.Config} {index : Index}
    (hs : Source.Holds source data last)
    (h : Index.build table clock interval source = (.ok index, source')) (capacity : Nat) :
    Serves { index, table, clock, cache := .new capacity } table clock data ∧
      Source.Holds source' data last := by
  have hdescribes := Index.describes_of_build hs (congrArg Prod.fst h)
  have hreach := Index.reaches_build hs.toDelivers table clock interval
  rw [h] at hreach
  exact ⟨⟨rfl, rfl, hdescribes, Cache.sound_new capacity _⟩, hs.of_reaches hreach⟩

variable (emission : List Timed) (start stop : Nat)

theorem total_answer : (answer emission start stop).total = emission.length := by
  unfold answer
  split_ifs <;> rfl

theorem stop_answer_le : (answer emission start stop).stop ≤ emission.length := by
  unfold answer
  split_ifs
  · exact Nat.min_le_right _ _
  · exact Nat.min_le_right _ _

variable {start stop}

theorem stop_answer (hstart : start ≤ emission.length) (h : start ≤ stop) :
    (answer emission start stop).stop = min stop emission.length := by
  unfold answer
  split_ifs with hlt
  · rfl
  · change min start emission.length = _
    omega

theorem records_answer (start stop : Nat) :
    (answer emission start stop).records = (emission.drop start).take (stop - start) := by
  unfold answer
  split_ifs with hlt
  · change (emission.drop start).take (min stop emission.length - start) = _
    rw [List.take_eq_take_iff, List.length_drop]
    omega
  · refine (List.eq_nil_of_length_eq_zero ?_).symm
    rw [List.length_take, List.length_drop]
    omega

end Chunk

namespace Service

namespace Request

/-- The request is one for the records from `start` on, however it is written. -/
structure AsksRange (request : Request) (start : Nat) (stop? : Option Nat) : Prop where
  method_eq : request.method = "GET"
  route_eq : Route.ofPath? (splitTarget request.target).1 = some .range
  numbers_eq : ∃ found, Query.numbers ["start", "end"] (splitTarget request.target).2 = .ok found ∧
    found.lookup "start" = some start ∧ found.lookup "end" = stop?

variable {request : Request} {start : Nat} {stop? : Option Nat}

theorem AsksRange.handle (h : request.AsksRange start stop?) (s : Service) :
    s.handle request = match s.range start stop? with
      | (.error e, s) => (.refused e, s)
      | (.ok j, s) => (.ok j, s) := by
  obtain ⟨found, hfound, hstart, hstop⟩ := h.numbers_eq
  rw [Service.handle, if_neg (not_not.2 h.method_eq)]
  rcases hrange : s.range start stop? with ⟨e | j, s'⟩ <;>
    simp only [h.route_eq, answerRange, hfound, Query.required, bind, Except.bind, hstart, hstop,
      pure, Except.pure, hrange]

theorem asksRange_get {ps : List (String × Nat)} (hnames : ∀ p ∈ ps, p.1 ∈ ["start", "end"])
    (hnodup : (ps.map Prod.fst).Nodup) (hlt : ∀ p ∈ ps, p.2 < UInt64.size)
    (hstart : ps.reverse.lookup "start" = some start) :
    (Request.get "/range" ps).AsksRange start (ps.reverse.lookup "end") := by
  have hall : ∀ name ∈ ["start", "end"], Query.isPlainText name = true := by decide +kernel
  have hplain : ∀ p ∈ ps, Query.isPlainText p.1 = true := fun p hp => hall p.1 (hnames p hp)
  have hquery : '#' ∉ (Query.ofNumbers ps).toList := by
    intro hmem
    rcases Query.mem_ofNumbers hplain _ hmem with h | h | h
    · exact absurd h (by decide)
    · cases h
    · cases h
  have hsplit : splitTarget (Request.get "/range" ps).target = ("/range", Query.ofNumbers ps) :=
    splitTarget_get (by decide +kernel) (by decide +kernel) (by decide +kernel) hquery
  refine ⟨rfl, ?_, ps.reverse, ?_, hstart, rfl⟩
  · rw [hsplit]
    have hroute : Route.ofPath? "/range" = some .range := by decide +kernel
    exact hroute
  · rw [hsplit]
    exact Query.numbers_ofNumbers hplain hnames hnodup hlt

theorem asksRange_from (hstart : start < UInt64.size) :
    (Request.get "/range" [("start", start)]).AsksRange start none :=
  asksRange_get (by simp) (by simp) (by simpa using hstart) rfl

theorem asksRange_fromTo {stop : Nat} (hstart : start < UInt64.size) (hstop : stop < UInt64.size) :
    (Request.get "/range" [("start", start), ("end", stop)]).AsksRange start (some stop) :=
  asksRange_get (by simp) (by simp) (by simp [hstart, hstop]) rfl

end Request

/-- The service after some requests. -/
def after (s : Service) (requests : List Request) : Service :=
  requests.foldl (fun s request => (s.handle request).2) s

/-- The answers to a client that asks for the records from `start` on, and then for those from where
the answer ends, until that is the end of the stream. Before each of its requests others have made
theirs. -/
def walk (s : Service) (start : Nat) : List (List Request) → List Response
  | [] => []
  | others :: interludes =>
    let (page, s) := (s.after others).handle (.get "/range" [("start", start)])
    match page.number? "end", page.number? "total" with
    | some stop, some total => if stop = total then [page] else page :: s.walk stop interludes
    | _, _ => [page]

/-- The answers to a client that asks for pages of these sizes. Before each of its requests others
have made theirs. -/
def walkBy (s : Service) (start : Nat) : List (Nat × List Request) → List Response
  | [] => []
  | (size, others) :: turns =>
    let stop := start + size
    let (page, s) := (s.after others).handle (.get "/range" [("start", start), ("end", stop)])
    page :: s.walkBy stop turns

/-- The pages show the records, each once and in their order. -/
structure Delivers (pages : List Response) (records : List Timed) : Prop where
  ok : ∀ page ∈ pages, page.status = 200
  shows : List.Forall₂ Shows (pages.flatMap Response.records) records

theorem delivers_nil : Delivers [] [] :=
  ⟨by simp, .nil⟩

theorem Delivers.cons {pages : List Response} {records : List Timed} (h : Delivers pages records)
    (table : Tag.Table) (c : Chunk) :
    Delivers (.ok (chunkJson table c) :: pages) (c.records ++ records) where
  ok := List.forall_mem_cons.2 ⟨rfl, h.ok⟩
  shows := by
    rw [List.flatMap_cons, Response.records_ok_chunkJson]
    refine List.rel_append ?_ h.shows
    exact List.forall₂_map_left_iff.2 (List.forall₂_same.2 fun t _ => shows_recordJson table t)

/-- The service is one of the data. -/
structure Serves (s : Service) (table : Tag.Table) (clock : Clock.Config) (data : Bytes)
    (last : Nat) : Prop where
  reader : s.reader.Serves table clock data
  file : Source.Holds s.file data last

theorem range_of_spanError {start stop : Nat} {e : Error} (h : spanError start stop = some e)
    (s : Service) : s.range start (some stop) = (.error e, s) := by
  rw [range, Option.getD_some, h]

theorem status_of_spanError {start stop : Nat} (h : stop < start ∨ maxSpan < stop - start) :
    ∃ e, spanError start stop = some e ∧ e.status = 400 := by
  unfold spanError
  split_ifs
  · exact ⟨_, rfl, rfl⟩
  · exact ⟨_, rfl, rfl⟩
  · omega

theorem spanError_eq_none {start stop : Nat} (h : start ≤ stop) (hspan : stop - start ≤ maxSpan) :
    spanError start stop = none := by
  rw [spanError, if_neg (Nat.not_lt.2 h), if_neg (Nat.not_lt.2 hspan)]

section Serves

variable {s : Service} {table : Tag.Table} {clock : Clock.Config} {data : Bytes} {last : Nat}

theorem Serves.fetch (h : s.Serves table clock data last) (start stop : Nat) :
    ∃ reader file, s.reader.fetch start stop s.file =
        (.ok (Chunk.answer ((Session.new table clock).toEmit data) start stop), reader, file) ∧
      reader.Serves table clock data ∧ Source.Holds file data last := by
  obtain ⟨reader, file, hfetch, hreader, hreach⟩ := h.reader.fetch h.file start stop
  exact ⟨reader, file, hfetch, hreader, h.file.of_reaches hreach⟩

theorem Serves.range (h : s.Serves table clock data last) {start stop : Nat} {stop? : Option Nat}
    (hstop : stop?.getD (Word.addSat start defaultSpan) = stop)
    (hspan : spanError start stop = none) :
    ∃ s', s.range start stop? = (.ok (chunkJson table
        (Chunk.answer ((Session.new table clock).toEmit data) start stop)), s') ∧
      s'.Serves table clock data last := by
  obtain ⟨reader, file, hfetch, hreader, hfile⟩ := h.fetch start stop
  refine ⟨{ s with reader, file }, ?_, hreader, hfile⟩
  rw [Service.range, hstop, hspan]
  simp only [hfetch, hreader.table_eq]

/-- A page shows the records at its positions. -/
theorem Serves.page (h : s.Serves table clock data last) {request : Request} {start stop : Nat}
    {stop? : Option Nat} (hr : request.AsksRange start stop?)
    (hstop : stop?.getD (Word.addSat start defaultSpan) = stop)
    (hspan : spanError start stop = none) :
    ∃ s', s.handle request = (.ok (chunkJson table
        (Chunk.answer ((Session.new table clock).toEmit data) start stop)), s') ∧
      s'.Serves table clock data last := by
  obtain ⟨s', hrange, hs'⟩ := h.range hstop hspan
  refine ⟨s', ?_, hs'⟩
  rw [hr.handle, hrange]

theorem Serves.snd_range (h : s.Serves table clock data last) (start : Nat)
    (stop? : Option Nat) : (s.range start stop?).2.Serves table clock data last := by
  rcases hspan : spanError start (stop?.getD (Word.addSat start defaultSpan)) with _ | e
  · obtain ⟨s', hrange, hs'⟩ := h.range rfl hspan
    rwa [hrange]
  · rwa [Service.range, hspan]

/-- No request changes what the service is one of. -/
theorem Serves.handle (h : s.Serves table clock data last) (request : Request) :
    (s.handle request).2.Serves table clock data last := by
  unfold Service.handle
  split_ifs
  · exact h
  · dsimp only
    split
    · exact h
    · exact h
    · unfold answerRange
      dsimp only
      split
      · exact h
      · next start stop? _ =>
        have hrange := h.snd_range start stop?
        split <;> next heq => rwa [heq] at hrange
    · exact h

theorem Serves.after (h : s.Serves table clock data last) (requests : List Request) :
    (s.after requests).Serves table clock data last := by
  induction requests generalizing s with
  | nil => exact h
  | cons request requests ih => exact ih (h.handle request)

variable {emission : List Timed}

theorem Serves.length_lt (h : s.Serves table clock data last) :
    ((Session.new table clock).toEmit data).length < UInt64.size := by
  rw [h.reader.describes.length_toEmit]
  exact h.reader.describes.totalRecords_lt (Nat.lt_of_le_of_lt h.file.length_le h.file.last_lt)

theorem Serves.pageFrom (h : s.Serves table clock data last)
    (hemission : (Session.new table clock).toEmit data = emission) {start : Nat}
    (hstart : start ≤ emission.length) :
    ∃ chunk s', s.handle (.get "/range" [("start", start)]) =
        (.ok (chunkJson table chunk), s') ∧ s'.Serves table clock data last ∧
      (Response.ok (chunkJson table chunk)).EndsAt (min (start + 100) emission.length)
        emission.length ∧
      chunk.records = (emission.drop start).take 100 := by
  have hlen : emission.length < UInt64.size := hemission ▸ h.length_lt
  obtain ⟨stop, hstop⟩ : ∃ stop, stop = min (start + 100) (UInt64.size - 1) := ⟨_, rfl⟩
  have hspan : spanError start stop = none :=
    spanError_eq_none (by omega) (by rw [maxSpan]; omega)
  obtain ⟨s', hpage, hs'⟩ :=
    h.page (Request.asksRange_from (Nat.lt_of_le_of_lt hstart hlen)) hstop.symm hspan
  rw [hemission] at hpage
  have hends := Response.endsAt_ok_chunkJson table (c := Chunk.answer emission start stop)
    (Nat.lt_of_le_of_lt (Chunk.stop_answer_le emission start stop) hlen)
    (by rwa [Chunk.total_answer])
  have hmin : min stop emission.length = min (start + 100) emission.length := by omega
  rw [Chunk.total_answer, Chunk.stop_answer emission hstart (by omega), hmin] at hends
  refine ⟨_, s', hpage, hs', hends, ?_⟩
  rw [Chunk.records_answer, List.take_eq_take_iff, List.length_drop]
  omega

theorem walk_cons {others : List Request} {interludes : List (List Request)} {s s' : Service}
    {start stop total : Nat} {page : Response}
    (h : (s.after others).handle (.get "/range" [("start", start)]) = (page, s'))
    (hends : page.EndsAt stop total) :
    s.walk start (others :: interludes) =
      if stop = total then [page] else page :: s'.walk stop interludes := by
  rw [Service.walk]
  simp only [h, hends.stop_eq, hends.total_eq]

/-- Pages of the default length: as many as are needed, and one if nothing is left. -/
theorem Serves.walk {interludes : List (List Request)} (h : s.Serves table clock data last)
    {start : Nat} (hemission : (Session.new table clock).toEmit data = emission)
    (hstart : start ≤ emission.length)
    (hpages : max 1 ((emission.length - start + 99) / 100) ≤ interludes.length) :
    let pages := s.walk start interludes
    pages.length = max 1 ((emission.length - start + 99) / 100) ∧
      (∃ page, pages.getLast? = some page ∧ page.EndsAt emission.length emission.length) ∧
      Delivers pages (emission.drop start) := by
  induction interludes generalizing s start with
  | nil => simp at hpages
  | cons others interludes ih =>
    obtain ⟨chunk, s', hpage, hs', hends, hrecords⟩ := (h.after others).pageFrom hemission hstart
    rw [walk_cons hpage hends]
    split_ifs with hlast
    · -- the page ends with the stream
      have hall : chunk.records ++ [] = emission.drop start := by
        rw [List.append_nil, hrecords, List.take_of_length_le]
        rw [List.length_drop]
        omega
      rw [hlast] at hends
      refine ⟨?_, ⟨_, rfl, hends⟩, hall ▸ delivers_nil.cons table chunk⟩
      rw [List.length_singleton]
      omega
    · have hstop : min (start + 100) emission.length = start + 100 := by omega
      rw [hstop]
      have hnext : start + 100 ≤ emission.length := by omega
      obtain ⟨hcount, ⟨page, hpage, hend⟩, hrest⟩ := ih hs' hnext
        (by rw [List.length_cons] at hpages; omega)
      have hall : chunk.records ++ emission.drop (start + 100) = emission.drop start := by
        rw [hrecords, ← List.drop_drop, List.take_append_drop]
      refine ⟨?_, ⟨page, ?_, hend⟩, hall ▸ hrest.cons table chunk⟩
      · rw [List.length_cons, hcount]
        omega
      · rw [List.getLast?_cons, hpage]
        rfl

/-- Pages of any length. -/
theorem Serves.walkBy {turns : List (Nat × List Request)} (h : s.Serves table clock data last)
    {start : Nat} (hemission : (Session.new table clock).toEmit data = emission)
    (hsizes : ∀ turn ∈ turns, turn.1 ≤ maxSpan)
    (hcover : emission.length ≤ start + (turns.map Prod.fst).sum)
    (hlt : start + (turns.map Prod.fst).sum < UInt64.size) :
    Delivers (s.walkBy start turns) (emission.drop start) := by
  induction turns generalizing s start with
  | nil =>
    have hnil : emission.drop start = [] := List.drop_of_length_le hcover
    rw [hnil]
    exact delivers_nil
  | cons turn turns ih =>
    obtain ⟨size, others⟩ := turn
    obtain ⟨hsize, hsizes⟩ := List.forall_mem_cons.1 hsizes
    rw [List.map_cons, List.sum_cons, ← Nat.add_assoc] at hcover hlt
    have hspan : spanError start (start + size) = none :=
      spanError_eq_none (Nat.le_add_right _ _) (by rwa [Nat.add_sub_cancel_left])
    obtain ⟨s', hpage, hs'⟩ := (h.after others).page
      (Request.asksRange_fromTo (by omega) (by omega)) rfl hspan
    rw [hemission] at hpage
    have hall : (Chunk.answer emission start (start + size)).records ++
        emission.drop (start + size) = emission.drop start := by
      rw [Chunk.records_answer, Nat.add_sub_cancel_left, ← List.drop_drop, List.take_append_drop]
    simp only [Service.walkBy, hpage]
    exact hall ▸ (ih hs' hsizes hcover hlt).cons table _

end Serves

section Start

variable {c : Config.Stream} {workDir exeDir : String} {tree tree' : FileTree} {s : Service}
  {file : File} {data : Bytes} {last : Nat}

theorem run_start (hopen : tree.openFile (c.filePath workDir exeDir) = .ok file) :
    (start (m := StateM FileTree) c workDir exeDir).run tree =
      (c.table.mapError .tags >>= fun table => ofFile c table (c.filePath workDir exeDir) file,
        tree) := by
  have hfound : (FileSystem.openFile (m := StateM FileTree) (c.filePath workDir exeDir)).run tree =
      (.ok file, tree) := congrArg (·, tree) hopen
  unfold start
  rcases c.table with e | table
  · rfl
  · dsimp only
    rw [StateT.run_bind, hfound]
    rfl

theorem serves_of_ofFile {table : Tag.Table} {name : String}
    (hfile : Source.Holds file data last) (h : ofFile c table name file = .ok s) :
    s.Serves table c.clock data last ∧
      (Session.new table c.clock).toEmit data =
        ((Session.new table c.clock).run file).emitted.toList := by
  unfold ofFile at h
  rcases hbuild : Index.build table c.clock c.interval file with ⟨_ | index, file'⟩
  · rw [hbuild] at h
    cases h
  · rw [hbuild] at h
    cases h
    obtain ⟨hreader, hfile'⟩ := Chunk.Reader.serves_of_build hfile hbuild _
    exact ⟨⟨hreader, hfile'⟩, (Index.emitted_of_build hfile (congrArg Prod.fst hbuild)).symm⟩

/-- A stream that is paged through is sent once and in order, whoever else asks for what. -/
theorem walks_of_start (hopen : tree.openFile (c.filePath workDir exeDir) = .ok file)
    (hfile : Source.Holds file data last)
    (hstart : (start (m := StateM FileTree) c workDir exeDir).run tree = (.ok s, tree')) :
    ∃ table, c.table = .ok table ∧
      let emission := ((Session.new table c.clock).run file).emitted.toList
      let total := emission.length
      (∀ interludes : List (List Request), max 1 ((total + 99) / 100) ≤ interludes.length →
        let pages := s.walk 0 interludes
        pages.length = max 1 ((total + 99) / 100) ∧
          (∃ page, pages.getLast? = some page ∧ page.EndsAt total total) ∧
          Delivers pages emission) ∧
      (∀ turns : List (Nat × List Request), (∀ turn ∈ turns, turn.1 ≤ 10000) →
        total ≤ (turns.map Prod.fst).sum → (turns.map Prod.fst).sum < UInt64.size →
          Delivers (s.walkBy 0 turns) emission) ∧
      ∀ (history : List Request) (request : Request) (start stop : Nat),
        request.AsksRange start (some stop) → stop < start ∨ 10000 < stop - start →
          ((s.after history).handle request).1.status = 400 := by
  rw [run_start hopen] at hstart
  have hopened := congrArg Prod.fst hstart
  rcases htable : c.table with e | table
  · rw [htable] at hopened
    cases hopened
  rw [htable] at hopened
  obtain ⟨hserves, hemission⟩ := serves_of_ofFile hfile hopened
  refine ⟨table, rfl, fun interludes hpages => ?_, fun turns hsizes hcover hlt => ?_,
    fun history request start stop hasks hspan => ?_⟩
  · exact hserves.walk hemission (Nat.zero_le _) hpages
  · rw [← Nat.zero_add (turns.map Prod.fst).sum] at hcover hlt
    exact hserves.walkBy hemission hsizes hcover hlt
  · obtain ⟨e, he, hstatus⟩ := status_of_spanError hspan
    rw [hasks.handle, range_of_spanError he]
    exact hstatus

/-- Four records in pages of up to three, while another client asks for a part of them. -/
theorem walks_of_start_inside_swap :
    let data : Bytes := [1, 5, 0, 1, 9, 0, 1, 8, 0, 1, 12, 0]
    let file := File.regular data.toArray
    let tree : FileTree := { entries := [(["a.bin"], file)] }
    let c : Config.Stream := { file := "/a.bin", interval := 1 }
    let emission := ((Session.new Tag.Table.standard c.clock).run file).emitted.toList
    tree.openFile (c.filePath "." "/") = .ok file ∧
      Source.Holds file data (File.lastPosition - Window.fillSize) ∧
      emission.map Timed.ns = [0, 6000, 8000, 14000] ∧
      ∃ s tree', (start (m := StateM FileTree) c "." "/").run tree = (.ok s, tree') ∧
        (s.walk 0 [[]]).length = 1 ∧
        Delivers (s.walkBy 0 [(2, []), (3, [.get "/range" [("start", 1), ("end", 3)]])]) emission ∧
        ((s.after [.get "/range" [("start", 1)]]).handle
          (.get "/range" [("start", 3), ("end", 2)])).1.status = 400 := by
  intro data file tree c emission
  have hpath : c.filePath "." "/" = "/a.bin" := by decide +kernel
  have hname : FileTree.checkName "/a.bin" = .ok () := by
    have hshort : ¬ FileTree.maxPath ≤ "/a.bin".utf8ByteSize := by decide +kernel
    simp [FileTree.checkName, hshort]
  have hopen : tree.openFile (c.filePath "." "/") = .ok file := by
    rw [hpath, FileTree.openFile, FileTree.locate, hname]
    decide +kernel
  have hfile : Source.Holds file data (File.lastPosition - Window.fillSize) :=
    File.holds_regular (by decide)
  have htimes : emission.map Timed.ns = [0, 6000, 8000, 14000] := by decide +kernel
  have htotal : emission.length = 4 := by rw [← List.length_map (f := Timed.ns), htimes]; rfl
  have hok : ((start (m := StateM FileTree) c "." "/").run tree).1.isOk = true := by
    rw [run_start hopen]
    decide +kernel
  refine ⟨hopen, hfile, htimes, ?_⟩
  rcases hstart : (start (m := StateM FileTree) c "." "/").run tree with ⟨_ | s, tree'⟩
  · rw [hstart] at hok
    cases hok
  · obtain ⟨table, htable, hwalk, hwalkBy, hrefused⟩ := walks_of_start hopen hfile hstart
    cases htable
    have hone := (hwalk [[]] (by rw [htotal]; decide)).1
    rw [htotal] at hone
    refine ⟨s, tree', rfl, hone, ?_, ?_⟩
    · exact hwalkBy _ (by simp) (by rw [htotal]; decide) (by decide)
    · exact hrefused _ _ 3 2 (Request.asksRange_fromTo (by decide) (by decide)) (by decide)

end Start

end Service

end Telemetry
