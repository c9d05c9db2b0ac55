import Telemetry.Proofs.History
import Telemetry.Proofs.Recency

/-!
# The counts of a reader

Each request that gets as far as the cache is a hit or a miss, and each miss is decoded.  A decoding
is tracked when it comes to its end, whether it succeeds or a read fails, so only one that is
stopped by an overflow is missing among those tracked (`Counted.after`).
-/

namespace Telemetry

/-- How often an operation ran, by the summaries. -/
def Tracker.runs (t : Tracker) (name : String) : Nat :=
  ((t.snapshot.find? (·.name == name)).map Timing.Summary.count).getD 0

namespace Chunk

/-- An answer that is none: a number left its range. -/
def isOverflow : Except Error Chunk → Bool
  | .error (.decode (.overflow _)) => true
  | _ => false

namespace Cache

variable {c cache : Cache} {key : Key}

theorem counts_of_hit {chunk : Chunk} (h : c.get key = (some chunk, cache)) :
    cache.hits = c.hits + 1 ∧ cache.misses = c.misses := by
  unfold get at h
  split at h <;> cases h
  exact ⟨rfl, rfl⟩

theorem counts_of_miss (h : c.get key = (none, cache)) :
    cache.hits = c.hits ∧ cache.misses = c.misses + 1 := by
  unfold get at h
  split at h <;> cases h
  exact ⟨rfl, rfl⟩

end Cache

section Requests

variable {σ : Type} [Source σ]

/-- The source has the length that was indexed, and some of the records asked for are there. -/
def Request.Passes (q : Request σ) (index : Index) : Prop :=
  Source.count q.source = .ok index.totalBytes ∧ q.start < min q.stop index.totalRecords

instance (q : Request σ) (index : Index) : Decidable (q.Passes index) :=
  inferInstanceAs (Decidable (_ ∧ _))

namespace Reader

/-- A tracker of `n` decodings. -/
def tracked (n : Nat) : Tracker :=
  .running (if n = 0 then [] else [(decodeName, ⟨n, .zero⟩)])

theorem track_tracked (n : Nat) : (tracked n).track decodeName = tracked (n + 1) := by
  have hzero : Duration.zero.add .zero = .ok .zero := rfl
  cases n with
  | zero => rfl
  | succ n =>
    have hupdate : ∀ tally, Timing.update decodeName (fun c => ⟨c.count + 1, .zero⟩)
        [(decodeName, tally)] = [(decodeName, ⟨tally.count + 1, .zero⟩)] := fun tally => by
      rw [Timing.update, if_neg (String.lt_irrefl _), if_pos rfl]
    simp [tracked, Tracker.track, Tracker.add, Timing.find, hupdate, hzero]

theorem runs_tracked (n : Nat) : (tracked n).runs decodeName = n := by
  cases n <;> simp [tracked, Tracker.runs, Tracker.snapshot, Tracker.tallies]

/-- What a reader has counted, when so many requests have got to the cache and so many of them were
stopped. -/
structure Counted (r : Reader) (passed stopped : Nat) : Prop where
  passed_eq : r.cache.hits + r.cache.misses = passed
  tracker_eq : ∃ n, r.tracker = tracked n ∧ r.cache.misses = n + stopped

variable {r : Reader} {passed stopped : Nat}

/-- Decoding after a miss that has been counted. -/
theorem counted_load {n : Nat} (hpassed : r.cache.hits + r.cache.misses = passed)
    (htracker : r.tracker = tracked n) (hmisses : r.cache.misses = n + stopped + 1)
    (start stop : Nat) (source : σ) :
    (r.load start stop source).2.1.index = r.index ∧
      (r.load start stop source).2.1.Counted passed
        (stopped + if isOverflow (r.load start stop source).1 then 1 else 0) := by
  have hnext : r.tracker.track decodeName = tracked (n + 1) := by
    rw [htracker, track_tracked]
  have htracked : r.cache.misses = n + 1 + stopped := by omega
  unfold load
  rcases r.decode start stop source with ⟨(e | o) | chunk, source'⟩
  · exact ⟨rfl, hpassed, n + 1, hnext, htracked⟩
  · exact ⟨rfl, hpassed, n, htracker, hmisses⟩
  · exact ⟨rfl, hpassed, n + 1, hnext, htracked⟩

theorem ask_of_not_passes {q : Request σ} (h : ¬ q.Passes r.index) :
    (r.ask q).2 = r ∧ isOverflow (r.ask q).1 = false := by
  unfold Request.Passes at h
  unfold Reader.ask fetch
  rcases hcount : Source.count q.source with e | actual
  · exact ⟨rfl, rfl⟩
  rw [hcount] at h
  dsimp only
  split_ifs with hstale hle
  · exact ⟨rfl, rfl⟩
  · exact ⟨rfl, rfl⟩
  · exact absurd ⟨congrArg _ (not_not.1 hstale), Nat.lt_of_not_le hle⟩ h

theorem fetch_of_passes {q : Request σ} (h : q.Passes r.index) {found : Option Chunk}
    {cache : Cache}
    (hget : r.cache.get (q.start, min q.stop r.index.totalRecords) = (found, cache)) :
    r.fetch q.start q.stop q.source =
      match found with
      | some chunk => (.ok chunk, { r with cache }, q.source)
      | none =>
        { r with cache : Reader }.load q.start (min q.stop r.index.totalRecords) q.source := by
  obtain ⟨hcount, hlt⟩ := h
  unfold fetch
  rw [hcount]
  simp only [ne_eq, not_true_eq_false, if_false, if_neg (Nat.not_le.2 hlt), hget]
  cases found <;> rfl

theorem Counted.ask (h : r.Counted passed stopped) (q : Request σ) :
    (r.ask q).2.index = r.index ∧
      (r.ask q).2.Counted (passed + if q.Passes r.index then 1 else 0)
        (stopped + if isOverflow (r.ask q).1 then 1 else 0) := by
  by_cases hpasses : q.Passes r.index
  · obtain ⟨hpassed, n, htracker, hmisses⟩ := h
    rw [if_pos hpasses, Reader.ask]
    rcases hget : r.cache.get (q.start, min q.stop r.index.totalRecords) with ⟨_ | chunk, cache⟩
    · obtain ⟨hhits', hmisses'⟩ := Cache.counts_of_miss hget
      rw [fetch_of_passes hpasses hget]
      have hpassed' : cache.hits + cache.misses = passed + 1 := by omega
      have hmissed : cache.misses = n + stopped + 1 := by omega
      exact counted_load (r := { r with cache }) hpassed' htracker hmissed q.start _ q.source
    · obtain ⟨hhits', hmisses'⟩ := Cache.counts_of_hit hget
      rw [fetch_of_passes hpasses hget]
      refine ⟨rfl, ?_, n, htracker, hmisses'.trans hmisses⟩
      simp only [hhits', hmisses', ← hpassed, Nat.add_right_comm]
  · obtain ⟨hsame, hnone⟩ := ask_of_not_passes hpasses
    rw [hsame, hnone, if_neg hpasses]
    exact ⟨rfl, h⟩

theorem Counted.after (h : r.Counted passed stopped) (qs : List (Request σ)) :
    (r.after qs).Counted (passed + qs.countP (·.Passes r.index))
      (stopped + (r.answers qs).countP isOverflow) := by
  induction qs generalizing r passed stopped with
  | nil => exact h
  | cons q qs ih =>
    obtain ⟨hindex, hask⟩ := h.ask q
    have hafter := ih hask
    have hcons : r.after (q :: qs) = (r.ask q).2.after qs := rfl
    rw [hindex, Nat.add_right_comm, Nat.add_right_comm stopped] at hafter
    rw [hcons, List.countP_cons, answers, List.countP_cons, ← Nat.add_assoc, ← Nat.add_assoc]
    simpa only [decide_eq_true_eq] using hafter

theorem counted_new (index : Index) (table : Tag.Table) (clock : Clock.Config) (capacity : Nat) :
    ({ index, table, clock, cache := .new capacity } : Reader).Counted 0 0 :=
  ⟨rfl, 0, rfl, rfl⟩

end Reader

end Requests

/-- A cache finds what was put under a key last, while fewer other keys than it has room for have
been put or found since the key was; it counts what it was asked for and what it found, and holds
as many chunks as it can.  Of a reader's requests, each that gets to the cache is a hit or a miss,
and each miss is a decoding that is tracked, but for those that an overflow stops.

A call raises a counter by one at most, so counters of 64 bits tell these numbers for up to
`2 ^ 64 - 1` calls or requests; after more of them they may have wrapped. -/
theorem remembers_recent (capacity : Nat) :
    (∀ calls : List Cache.Call,
      let fresh := Cache.new capacity
      let cache := fresh.after calls
      (∀ key, (cache.get key).1 =
          if (Cache.since key (fresh.touches calls)).toFinset.card < max 1 capacity then
            Cache.lastPut calls key
          else none) ∧
        cache.hits = (fresh.found calls).countP Option.isSome ∧
        cache.hits + cache.misses = calls.countP Cache.Call.isGet ∧
        cache.size = min (max 1 capacity) ((Cache.puts calls).map Prod.fst).toFinset.card ∧
        cache.capacity = max 1 capacity) ∧
      ∀ (σ : Type) [Source σ] (index : Index) (table : Tag.Table) (clock : Clock.Config)
        (requests : List (Request σ)),
        let fresh : Reader := { index, table, clock, cache := .new capacity }
        let reader := fresh.after requests
        reader.cache.hits + reader.cache.misses = requests.countP (·.Passes index) ∧
          reader.cache.misses = reader.tracker.runs Reader.decodeName +
            (fresh.answers requests).countP isOverflow := by
  refine ⟨fun calls => ?_, fun σ _ index table clock requests => ?_⟩
  · intro fresh cache
    obtain ⟨order, hrecent⟩ := Cache.recent_after capacity calls
    obtain ⟨hcapacity, hhits, hcalls⟩ := fresh.counts_after calls
    have hroom : cache.capacity = max 1 capacity := hcapacity
    have hfresh : fresh.hits = 0 ∧ fresh.misses = 0 := ⟨rfl, rfl⟩
    rw [hfresh.1, Nat.zero_add] at hhits
    rw [hfresh.1, hfresh.2, Nat.zero_add] at hcalls
    refine ⟨fun key => ?_, hhits, by simpa using hcalls, ?_, hroom⟩
    · rw [hrecent.get_eq key, ← hroom]
    · rw [hrecent.size_eq, ← hroom]
  · intro fresh reader
    obtain ⟨hpassed, n, htracker, hmisses⟩ :=
      (Reader.counted_new index table clock capacity).after requests
    rw [Nat.zero_add] at hpassed hmisses
    refine ⟨hpassed, ?_⟩
    rw [htracker, Reader.runs_tracked, hmisses]

/-- A stamp changed after the indexing takes the time out of its range: the request is a miss that
no run is tracked for. -/
theorem misses_ne_runs_of_overflow :
    let clock : Clock.Config := { tickNs := 1152921504606846976 }
    let source := Memory.plain [1, 1, 0, 1, 2, 0]
    let index := Index.ofRun 1 6 ((Session.new Tag.Table.standard clock).run source)
    let fresh : Reader := { index, table := .standard, clock, cache := .new 16 }
    let request : Request Memory := ⟨.plain [1, 1, 0, 1, 255, 0], 0, 2⟩
    let reader := fresh.after [request]
    (Index.build Tag.Table.standard clock 1 source).1 = .ok index ∧ request.Passes index ∧
      (fresh.ask request).1 = .error (.decode (.overflow .multiplication)) ∧
      reader.cache.hits + reader.cache.misses = 1 ∧
      reader.cache.misses ≠ reader.tracker.runs Reader.decodeName := by
  decide +kernel

end Chunk

end Telemetry
