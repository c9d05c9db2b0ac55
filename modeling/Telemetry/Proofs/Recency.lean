import Mathlib.Data.Finset.Card
import Mathlib.Data.List.Induction
import Telemetry.Proofs.RandomAccess

/-!
# What a cache remembers

The keys that a cache was given, in the order of their last use, the last one first, are the list
that it keeps cut to its capacity (`Recent`).  So what it knows of a key depends only on how many
others have been used since (`Recent.get_eq`), and its counts are those of the calls
(`counts_after`).
-/

namespace Telemetry.Chunk

section Order

variable {α : Type} [BEq α] [LawfulBEq α] {key other : α} {order : List α}

/-- The keys in the order of their last use, after one more use. -/
def used (key : α) (order : List α) : List α :=
  key :: order.erase key

/-- The keys that were used after `key` was. -/
def newer (key : α) (order : List α) : List α :=
  order.takeWhile (· != key)

theorem nodup_used (h : order.Nodup) (key : α) : (used key order).Nodup :=
  List.nodup_cons.2 ⟨h.not_mem_erase, h.erase key⟩

theorem mem_used : other ∈ used key order ↔ other = key ∨ other ∈ order := by
  rw [used, List.mem_cons]
  by_cases hne : other = key
  · simp [hne]
  · simp [hne, List.mem_erase_of_ne]

theorem newer_erase (h : other ≠ key) :
    newer other (order.erase key) = (newer other order).erase key := by
  unfold newer
  induction order with
  | nil => rfl
  | cons k order ih =>
    by_cases hk : k = key
    · have hother : key ≠ other := h.symm
      simp [hk, hother]
    · by_cases hko : k = other
      · simp [hko, h]
      · simp [hk, hko, ih]

theorem newer_used_self : newer key (used key order) = [] := by
  simp [newer, used]

theorem toFinset_newer_used [DecidableEq α] (h : other ≠ key) :
    (newer other (used key order)).toFinset = insert key (newer other order).toFinset := by
  have hcons : newer other (used key order) = key :: (newer other order).erase key := by
    rw [← newer_erase h]
    simp [newer, used, h.symm]
  rw [hcons, List.toFinset_cons]
  ext k
  by_cases hk : k = key
  · simp [hk]
  · simp [hk, List.mem_erase_of_ne]

theorem length_newer (key : α) (order : List α) : (newer key order).length = order.idxOf key := by
  unfold newer
  induction order with
  | nil => rfl
  | cons k order ih =>
    by_cases hk : k = key
    · simp [hk]
    · simp [hk, ih]

/-- Used keys may be forgotten beyond a number of them, before or after one more is used. -/
theorem take_used (n : Nat) (key : α) (order : List α) :
    (used key (order.take n)).take n = (used key order).take n := by
  have herase : ∀ (order : List α) (m : Nat),
      ((order.take (m + 1)).erase key).take m = (order.erase key).take m := by
    intro order
    induction order with
    | nil => simp
    | cons k order ih =>
      intro m
      by_cases hk : k = key
      · simp [hk]
      · rcases m with _ | m
        · simp
        · simpa [List.erase_cons, hk] using ih m
  rcases n with _ | n
  · simp
  · simp only [used, List.take_succ_cons, herase]

end Order

namespace Cache

/-- What a cache is asked to do. -/
inductive Call where
  | put (key : Key) (chunk : Chunk)
  | get (key : Key)
  deriving DecidableEq

def Call.put? : Call → Option (Key × Chunk)
  | put key chunk => some (key, chunk)
  | get _ => none

def Call.isGet : Call → Bool
  | put _ _ => false
  | get _ => true

/-- What a call finds, and the cache after it. -/
def call (c : Cache) : Call → Option Chunk × Cache
  | .put key chunk => (none, c.put key chunk)
  | .get key => c.get key

def after (c : Cache) (calls : List Call) : Cache :=
  calls.foldl (fun c x => (c.call x).2) c

/-- What each call finds. -/
def found (c : Cache) : List Call → List (Option Chunk)
  | [] => []
  | x :: calls => (c.call x).1 :: (c.call x).2.found calls

/-- The key that a call puts or finds. -/
def touched? (c : Cache) : Call → Option Key
  | .put key _ => some key
  | .get key => (c.get key).1.map fun _ => key

/-- The keys that are put or found, in this order. -/
def touches (c : Cache) : List Call → List Key
  | [] => []
  | x :: calls => (c.touched? x).toList ++ (c.call x).2.touches calls

/-- The chunks that are put, with their keys, in this order. -/
def puts (calls : List Call) : List (Key × Chunk) :=
  calls.filterMap Call.put?

/-- The chunk that was put last under a key. -/
def lastPut (calls : List Call) (key : Key) : Option Chunk :=
  (puts calls).reverse.lookup key

/-- The keys touched since `key` was. -/
def since (key : Key) (touches : List Key) : List Key :=
  touches.reverse.takeWhile (· != key)

section Calls

variable (c : Cache) (calls : List Call) (x : Call)

theorem after_concat : c.after (calls ++ [x]) = ((c.after calls).call x).2 := by
  simp [after]

theorem found_concat : c.found (calls ++ [x]) = c.found calls ++ [((c.after calls).call x).1] := by
  induction calls generalizing c with
  | nil => rfl
  | cons y calls ih => exact congrArg _ (ih _)

theorem touches_concat :
    c.touches (calls ++ [x]) = c.touches calls ++ ((c.after calls).touched? x).toList := by
  induction calls generalizing c with
  | nil => simp [touches, after]
  | cons y calls ih =>
    rw [List.cons_append, touches, touches, ih, List.append_assoc]
    rfl

theorem lastPut_put (key : Key) (chunk : Chunk) (k : Key) :
    lastPut (calls ++ [.put key chunk]) k = if k = key then some chunk else lastPut calls k := by
  simp only [lastPut, puts, List.filterMap_append, List.filterMap_cons, List.filterMap_nil,
    Call.put?, List.reverse_append, List.reverse_cons, List.reverse_nil, List.nil_append,
    List.singleton_append, List.lookup_cons]
  by_cases hk : k = key
  · simp [hk]
  · simp [hk, beq_false_of_ne hk]

theorem puts_get (key : Key) : puts (calls ++ [.get key]) = puts calls := by
  simp [puts, Call.put?]

theorem mem_puts_iff {k : Key} : k ∈ (puts calls).map Prod.fst ↔ (lastPut calls k).isSome := by
  rw [lastPut, List.lookup_isSome_iff]
  simp

theorem since_concat_self (key : Key) (touches : List Key) : since key (touches ++ [key]) = [] := by
  simp [since]

theorem since_concat_of_ne {key other : Key} (h : other ≠ key) (touches : List Key) :
    since other (touches ++ [key]) = key :: since other touches := by
  simp [since, h.symm]

end Calls

/-- The keys in the order of their last use, after some calls. -/
structure Recent (calls : List Call) (touches : List Key) (c : Cache) (order : List Key) :
    Prop where
  nodup : order.Nodup
  mem_iff : ∀ key, key ∈ order ↔ (lastPut calls key).isSome
  keys_eq : c.entries.map Prod.fst = order.take c.capacity
  value_eq : ∀ e ∈ c.entries, lastPut calls e.1 = some e.2
  newer_eq : ∀ key ∈ order, (newer key order).toFinset = (since key touches).toFinset

variable {capacity : Nat} {calls calls' : List Call} {ts : List Key} {c : Cache} {order : List Key}

theorem recent_new (capacity : Nat) : Recent [] [] (new capacity) [] where
  nodup := .nil
  mem_iff key := by simp [lastPut, puts]
  keys_eq := by simp [new]
  value_eq e he := by simp [new] at he
  newer_eq key hkey := by simp at hkey

theorem Recent.nodup_keys (h : Recent calls ts c order) : (c.entries.map Prod.fst).Nodup := by
  rw [h.keys_eq]
  exact h.nodup.sublist (List.take_sublist _ _)

theorem Recent.mem_keys_iff (h : Recent calls ts c order) (key : Key) :
    key ∈ c.entries.map Prod.fst ↔
      (lastPut calls key).isSome ∧ (since key ts).toFinset.card < c.capacity := by
  rw [h.keys_eq, ← h.mem_iff]
  by_cases hkey : key ∈ order
  · have hnodup : (newer key order).Nodup := h.nodup.sublist (List.takeWhile_sublist _)
    rw [List.mem_take_iff_idxOf_lt hkey, ← length_newer, ← h.newer_eq key hkey,
      List.toFinset_card_of_nodup hnodup]
    simp [hkey]
  · exact iff_of_false (fun hmem => hkey (List.mem_of_mem_take hmem)) (fun hmem => hkey hmem.1)

/-- A key is known while fewer others than there is room for have been touched since. -/
theorem Recent.get_eq (h : Recent calls ts c order) (key : Key) :
    (c.get key).1 =
      if (since key ts).toFinset.card < c.capacity then lastPut calls key else none := by
  have hmem := h.mem_keys_iff key
  unfold Cache.get
  split
  · next chunk hlookup =>
    obtain ⟨before, later, hentries, -⟩ := List.lookup_eq_some_iff.1 hlookup
    have hentry : (key, chunk) ∈ c.entries := by simp [hentries]
    have hcard := (hmem.1 (List.mem_map_of_mem hentry)).2
    rw [if_pos hcard, h.value_eq _ hentry]
  · next hlookup =>
    rw [List.lookup_eq_none_iff] at hlookup
    have hkey : key ∉ c.entries.map Prod.fst := by
      intro hkey
      obtain ⟨e, he, rfl⟩ := List.mem_map.1 hkey
      simpa using hlookup e he
    rw [hmem, not_and'] at hkey
    split_ifs with hcard
    · exact (Option.not_isSome_iff_eq_none.1 (hkey hcard)).symm
    · rfl

theorem map_fst_without (key : Key) {entries : List (Key × Chunk)}
    (h : (entries.map Prod.fst).Nodup) :
    (without key entries).map Prod.fst = (entries.map Prod.fst).erase key := by
  rw [h.erase_eq_filter, without, List.filter_map]
  rfl

/-- A key is put, or found: it is used last, with what was put under it last. -/
theorem Recent.touch (h : Recent calls ts c order) {key : Key} (chunk : Chunk) {c' : Cache}
    (hlast : ∀ k, lastPut calls' k = if k = key then some chunk else lastPut calls k)
    (hcapacity : c'.capacity = c.capacity)
    (hentries : c'.entries = ((key, chunk) :: without key c.entries).take c.capacity) :
    Recent calls' (ts ++ [key]) c' (used key order) where
  nodup := nodup_used h.nodup key
  mem_iff k := by
    rw [mem_used, hlast, h.mem_iff]
    split_ifs with hk <;> simp [hk]
  keys_eq := by
    rw [hcapacity, hentries, List.map_take, List.map_cons, map_fst_without key h.nodup_keys,
      h.keys_eq]
    exact take_used _ _ _
  value_eq e he := by
    rw [hentries] at he
    rw [hlast]
    rcases List.mem_cons.1 (List.mem_of_mem_take he) with rfl | he
    · simp
    · obtain ⟨hmem, hne⟩ := List.mem_filter.1 he
      rw [if_neg (by simpa using hne)]
      exact h.value_eq e hmem
  newer_eq k hk := by
    by_cases hkey : k = key
    · rw [hkey, newer_used_self, since_concat_self]
    · have hmem := (mem_used.1 hk).resolve_left hkey
      rw [toFinset_newer_used hkey, since_concat_of_ne hkey, List.toFinset_cons,
        h.newer_eq k hmem]

theorem Recent.put (h : Recent calls ts c order) (key : Key) (chunk : Chunk) :
    Recent (calls ++ [.put key chunk]) (ts ++ [key]) (c.put key chunk) (used key order) :=
  h.touch chunk (lastPut_put calls key chunk) rfl rfl

theorem Recent.get (h : Recent calls ts c order) (key : Key) :
    ∃ order', Recent (calls ++ [.get key]) (ts ++ (c.touched? (.get key)).toList) (c.get key).2
      order' := by
  have hlast : lastPut (calls ++ [.get key]) = lastPut calls := by
    funext k
    rw [lastPut, lastPut, puts_get]
  rcases hlookup : c.entries.lookup key with _ | chunk
  · refine ⟨order, ?_⟩
    simp only [touched?, Cache.get, hlookup, Option.map_none, Option.toList_none, List.append_nil]
    exact ⟨h.nodup, fun k => hlast ▸ h.mem_iff k, h.keys_eq, fun e he => hlast ▸ h.value_eq e he,
      h.newer_eq⟩
  · obtain ⟨before, later, hentries, -⟩ := List.lookup_eq_some_iff.1 hlookup
    have hentry : (key, chunk) ∈ c.entries := by simp [hentries]
    have hkey : key ∈ c.entries.map Prod.fst := List.mem_map_of_mem hentry
    refine ⟨used key order, ?_⟩
    simp only [touched?, Cache.get, hlookup, Option.map_some, Option.toList_some]
    refine h.touch chunk (fun k => ?_) rfl ?_
    · rw [hlast]
      split_ifs with hk
      · rw [hk, h.value_eq _ hentry]
      · rfl
    · -- one entry is taken out and put back, so there is room for all of them
      have hlength := List.length_erase_of_mem hkey
      rw [← map_fst_without key h.nodup_keys, List.length_map, List.length_map] at hlength
      have hroom : c.entries.length ≤ c.capacity := by
        rw [← List.length_map, h.keys_eq]
        exact List.length_take_le _ _
      have hpos : 0 < c.entries.length := List.length_pos_of_mem hentry
      refine (List.take_of_length_le ?_).symm
      rw [List.length_cons]
      omega

theorem Recent.call (h : Recent calls ts c order) (x : Call) :
    ∃ order', Recent (calls ++ [x]) (ts ++ (c.touched? x).toList) (c.call x).2 order' := by
  cases x with
  | put key chunk => exact ⟨_, h.put key chunk⟩
  | get key => exact h.get key

theorem recent_after (capacity : Nat) (calls : List Call) :
    ∃ order, Recent calls ((new capacity).touches calls) ((new capacity).after calls) order := by
  induction calls using List.reverseRecOn with
  | nil => exact ⟨[], recent_new capacity⟩
  | append_singleton calls x ih =>
    obtain ⟨order, h⟩ := ih
    rw [after_concat, touches_concat]
    exact h.call x

theorem Recent.size_eq (h : Recent calls ts c order) :
    c.size = min c.capacity ((puts calls).map Prod.fst).toFinset.card := by
  have hkeys : ((puts calls).map Prod.fst).toFinset = order.toFinset := by
    ext key
    rw [List.mem_toFinset, List.mem_toFinset, mem_puts_iff, h.mem_iff]
  rw [hkeys, List.toFinset_card_of_nodup h.nodup, size, ← List.length_map, h.keys_eq,
    List.length_take]

/-- The counts of a cache are those of the calls, and its capacity stays. -/
structure Counts (calls : List Call) (found : List (Option Chunk)) (c c' : Cache) : Prop where
  capacity_eq : c'.capacity = c.capacity
  hits_eq : c'.hits = c.hits + found.countP Option.isSome
  calls_eq : c'.hits + c'.misses = c.hits + c.misses + calls.countP Call.isGet

theorem counts_call (c : Cache) (x : Call) : Counts [x] [(c.call x).1] c (c.call x).2 := by
  cases x with
  | put key chunk => exact ⟨rfl, rfl, rfl⟩
  | get key =>
    change Counts [.get key] [(c.get key).1] c (c.get key).2
    unfold Cache.get
    split
    · exact ⟨rfl, rfl, Nat.add_right_comm _ _ _⟩
    · exact ⟨rfl, rfl, (Nat.add_assoc _ _ _).symm⟩

theorem counts_after (c : Cache) (calls : List Call) :
    Counts calls (c.found calls) c (c.after calls) := by
  induction calls using List.reverseRecOn with
  | nil => exact ⟨rfl, rfl, rfl⟩
  | append_singleton calls x ih =>
    obtain ⟨hcapacity, hhits, hcalls⟩ := counts_call (c.after calls) x
    rw [after_concat, found_concat]
    refine ⟨hcapacity.trans ih.capacity_eq, ?_, ?_⟩
    · rw [hhits, ih.hits_eq, List.countP_append, Nat.add_assoc]
    · rw [hcalls, ih.calls_eq, List.countP_append, Nat.add_assoc]

end Cache

end Telemetry.Chunk
