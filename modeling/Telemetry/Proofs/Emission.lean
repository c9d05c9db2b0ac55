import Mathlib.Tactic.Common
import Telemetry.Proofs.Timeline

/-!
# The order of emission

`Queue.emission` is what comes out of a queue that takes in some records and is flushed: a
permutation of them (`emission_perm`), in which position `k` holds record `k`, but for the two
records of a swap.  So the positions from `k` on do not depend on the records before `k`
(`drop_emission`), unless record `k` itself is swapped, and the positions before `k` do not depend
on the records after `k` (`take_emission`).
-/

namespace Telemetry

namespace Corrections

/-- The corrections of two stretches of a stream together. -/
def merge (a b : Corrections) : Corrections where
  swaps := a.swaps + b.swaps
  maxSwapTicks := max a.maxSwapTicks b.maxSwapTicks
  clamped := a.clamped + b.clamped
  ambiguous := a.ambiguous + b.ambiguous

theorem toNat_max (a b : UInt16) : (max a b).toNat = max a.toNat b.toNat := by
  change (if a ≤ b then b else a).toNat = _
  split
  · next h =>
    have := UInt16.le_iff_toNat_le.1 h
    omega
  · next h =>
    have := mt UInt16.le_iff_toNat_le.2 h
    omega

theorem max_assoc16 (a b c : UInt16) : max (max a b) c = max a (max b c) := by
  apply UInt16.toNat.inj
  simp only [toNat_max]
  omega

theorem max_right_comm16 (a b c : UInt16) : max (max a b) c = max (max a c) b := by
  apply UInt16.toNat.inj
  simp only [toNat_max]
  omega

theorem observe_merge (a b : Corrections) (o : Clock.Order) :
    (a.merge b).observe o = a.merge (b.observe o) := by
  cases o <;> simp [observe, merge, Nat.add_assoc, max_assoc16]

theorem merge_empty (a : Corrections) : a.merge {} = a := by
  have h : max a.maxSwapTicks 0 = a.maxSwapTicks := by
    apply UInt16.toNat.inj
    rw [toNat_max]
    simp
  simp [merge, h]

theorem empty_merge (a : Corrections) : merge {} a = a := by
  have h : max 0 a.maxSwapTicks = a.maxSwapTicks := by
    apply UInt16.toNat.inj
    rw [toNat_max]
    simp
  simp [merge, h]

theorem foldl_observe (a b : Corrections) (ts : List Timed) :
    ts.foldl (fun c t => c.observe t.order) (a.merge b) =
      a.merge (ts.foldl (fun c t => c.observe t.order) b) := by
  induction ts generalizing b with
  | nil => rfl
  | cons t ts ih => rw [List.foldl_cons, List.foldl_cons, observe_merge, ih]

/-- Observing records adds what there is in them. -/
theorem foldl_observe_eq (c : Corrections) (ts : List Timed) :
    ts.foldl (fun c t => c.observe t.order) c = c.merge (ofList ts) := by
  rw [ofList, ← foldl_observe, merge_empty]

theorem ofList_append (ts us : List Timed) :
    ofList (ts ++ us) = (ofList ts).merge (ofList us) := by
  rw [ofList, List.foldl_append, foldl_observe_eq]
  rfl

theorem observe_comm (c : Corrections) (o o' : Clock.Order) :
    (c.observe o).observe o' = (c.observe o').observe o := by
  cases o <;> cases o' <;> simp [observe, max_right_comm16]

/-- The order of the records does not count. -/
theorem ofList_perm {ts us : List Timed} (h : ts.Perm us) : ofList ts = ofList us :=
  h.foldl_eq' (fun x _ y _ c => observe_comm c x.order y.order) {}

end Corrections

namespace Queue

/-- Takes in records and lets go of those whose place is settled. -/
def pushAll (q : Queue) : List Timed → Queue × List Timed
  | [] => (q, [])
  | t :: ts => (((q.push t).1.pushAll ts).1, (q.push t).2 ++ ((q.push t).1.pushAll ts).2)

/-- What comes out when no records follow. -/
def emission (q : Queue) (ts : List Timed) : List Timed :=
  (q.pushAll ts).2 ++ (q.pushAll ts).1.held.toList

theorem push_of_swap {q : Queue} {t : Timed} (h : t.order.isSwap = true) :
    q.push t = (⟨none⟩, t :: q.held.toList) := by
  unfold push
  cases ho : t.order <;> simp_all [Clock.Order.isSwap]

theorem push_of_not_swap {q : Queue} {t : Timed} (h : t.order.isSwap = false) :
    q.push t = (⟨some t⟩, q.held.toList) := by
  unfold push
  cases ho : t.order <;> simp_all [Clock.Order.isSwap]

theorem emission_cons (q : Queue) (t : Timed) (ts : List Timed) :
    q.emission (t :: ts) = (q.push t).2 ++ (q.push t).1.emission ts := by
  simp only [emission, pushAll, List.append_assoc]

theorem emission_append (q : Queue) (ts us : List Timed) :
    q.emission (ts ++ us) = (q.pushAll ts).2 ++ (q.pushAll ts).1.emission us := by
  induction ts generalizing q with
  | nil => rfl
  | cons t ts ih => rw [List.cons_append, emission_cons, ih, pushAll, List.append_assoc]

theorem length_pushAll (q : Queue) (ts : List Timed) :
    (q.pushAll ts).2.length + (q.pushAll ts).1.held.toList.length =
      q.held.toList.length + ts.length := by
  induction ts generalizing q with
  | nil => simp [pushAll]
  | cons t ts ih =>
    have hpush := q.length_push t
    have hrest := ih (q.push t).1
    simp only [pushAll, List.length_append, List.length_cons]
    omega

theorem length_emission (q : Queue) (ts : List Timed) :
    (q.emission ts).length = q.held.toList.length + ts.length := by
  rw [emission, List.length_append, length_pushAll]

theorem push_perm (q : Queue) (t : Timed) :
    ((q.push t).2 ++ (q.push t).1.held.toList).Perm (q.held.toList ++ [t]) := by
  rcases hs : t.order.isSwap
  · rw [push_of_not_swap hs]
    exact .refl _
  · rw [push_of_swap hs]
    simpa using (List.perm_append_singleton t q.held.toList).symm

/-- Every record comes out once. -/
theorem emission_perm (q : Queue) (ts : List Timed) :
    (q.emission ts).Perm (q.held.toList ++ ts) := by
  induction ts generalizing q with
  | nil => simp [emission, pushAll]
  | cons t ts ih =>
    rw [emission_cons]
    have hrest := (ih (q.push t).1).append_left (q.push t).2
    have hpush := (q.push_perm t).append_right ts
    rw [List.append_assoc, List.append_assoc] at hpush
    exact hrest.trans hpush

/-- Of what is not told of records that come out before the previous one, the order is kept. -/
theorem filterMap_emission {α : Type} {f : Timed → Option α}
    (hf : ∀ t, t.order.isSwap = true → f t = none) (q : Queue) (ts : List Timed) :
    (q.emission ts).filterMap f = (q.held.toList ++ ts).filterMap f := by
  induction ts generalizing q with
  | nil => simp [emission, pushAll]
  | cons t ts ih =>
    rw [emission_cons, List.filterMap_append, ih]
    by_cases hs : t.order.isSwap = true
    · rw [push_of_swap hs]
      simp [hf t hs, List.filterMap_append]
    · rw [push_of_not_swap (by simpa using hs)]
      simp [List.filterMap_append]

/-- The last record is held back, unless it has come out before the previous one. -/
theorem held_pushAll (q : Queue) (ts : List Timed) (t : Timed) :
    (q.pushAll (ts ++ [t])).1.held = if t.order.isSwap then none else some t := by
  induction ts generalizing q with
  | nil =>
    rcases hs : t.order.isSwap
    · simp [pushAll, push_of_not_swap hs]
    · simp [pushAll, push_of_swap hs]
  | cons u us ih => exact ih (q.push u).1

theorem emission_empty_of_swap {t : Timed} (h : t.order.isSwap = true) (ts : List Timed) :
    ({} : Queue).emission (t :: ts) = t :: ({} : Queue).emission ts := by
  rw [emission_cons, push_of_swap h]
  rfl

theorem emission_held_of_swap {t : Timed} (h : t.order.isSwap = true) (u : Timed)
    (ts : List Timed) :
    (⟨some u⟩ : Queue).emission (t :: ts) = t :: u :: ({} : Queue).emission ts := by
  rw [emission_cons, push_of_swap h]
  rfl

theorem emission_held_of_not_swap {ts : List Timed}
    (h : ∀ t, ts.head? = some t → t.order.isSwap = false) (u : Timed) :
    (⟨some u⟩ : Queue).emission ts = u :: ({} : Queue).emission ts := by
  cases ts with
  | nil => rfl
  | cons t ts =>
    have ht := h t rfl
    rw [emission_cons, emission_cons, push_of_not_swap ht, push_of_not_swap ht]
    rfl

/-- After `k` records the queue has let go of those before the one that it holds. -/
theorem emission_split {ts : List Timed} {k : Nat} (hk : k ≤ ts.length) :
    ∃ out : List Timed,
      (out.length = k ∧ ({} : Queue).emission ts = out ++ ({} : Queue).emission (ts.drop k) ∧
          ({} : Queue).emission (ts.take k) = out) ∨
        ∃ u, out.length + 1 = k ∧ ts[k - 1]? = some u ∧
          ({} : Queue).emission ts = out ++ (⟨some u⟩ : Queue).emission (ts.drop k) ∧
          ({} : Queue).emission (ts.take k) = out ++ [u] := by
  have hsplit := ({} : Queue).emission_append (ts.take k) (ts.drop k)
  rw [List.take_append_drop] at hsplit
  have htake : ({} : Queue).emission (ts.take k) = (({} : Queue).pushAll (ts.take k)).2 ++
    (({} : Queue).pushAll (ts.take k)).1.held.toList := rfl
  have hlen := ({} : Queue).length_pushAll (ts.take k)
  rw [List.length_take, Nat.min_eq_left hk] at hlen
  refine ⟨(({} : Queue).pushAll (ts.take k)).2, ?_⟩
  rw [hsplit, htake]
  rcases hq : (({} : Queue).pushAll (ts.take k)).1 with ⟨_ | u⟩
  · rw [hq] at hlen
    exact .inl ⟨by simpa using hlen, rfl, List.append_nil _⟩
  · rw [hq] at hlen
    simp only [Option.toList_some, List.length_singleton, Option.toList_none, List.length_nil,
      Nat.zero_add] at hlen
    obtain ⟨j, rfl⟩ : ∃ j, k = j + 1 := ⟨k - 1, by omega⟩
    have hj : j < ts.length := hk
    have hlast := ({} : Queue).held_pushAll (ts.take j) ts[j]
    rw [List.take_append_getElem hj, hq] at hlast
    split_ifs at hlast
    refine .inr ⟨u, hlen, ?_, rfl, rfl⟩
    rw [Nat.add_sub_cancel, List.getElem?_eq_getElem hj]
    exact hlast.symm

/-- The positions from `k` on do not depend on the records before `k`, unless record `k` comes out
before the previous one. -/
theorem drop_emission {ts : List Timed} {k : Nat}
    (h : ∀ t, ts[k]? = some t → t.order.isSwap = false) :
    (({} : Queue).emission ts).drop k = ({} : Queue).emission (ts.drop k) := by
  rcases Nat.lt_or_ge ts.length k with hlt | hk
  · rw [List.drop_eq_nil_of_le (by rw [length_emission]; simpa using hlt.le),
      List.drop_eq_nil_of_le hlt.le]
    rfl
  obtain ⟨out, ⟨hlen, hemit, -⟩ | ⟨u, hlen, -, hemit, -⟩⟩ := emission_split hk
  · rw [hemit, ← hlen, List.drop_left]
  · have hhead : ∀ t, (ts.drop k).head? = some t → t.order.isSwap = false := by
      rwa [List.head?_drop]
    rw [hemit, emission_held_of_not_swap hhead, List.append_cons]
    exact List.drop_left' (by simpa using hlen)

/-- The positions after `k` do not depend on the records before `k`. -/
theorem drop_succ_emission (ts : List Timed) (k : Nat) :
    (({} : Queue).emission ts).drop (k + 1) = (({} : Queue).emission (ts.drop k)).drop 1 := by
  by_cases h : ∀ t, ts[k]? = some t → t.order.isSwap = false
  · rw [← drop_emission h, List.drop_drop]
  push Not at h
  obtain ⟨t, ht, hswap⟩ := h
  replace hswap : t.order.isSwap = true := by simpa using hswap
  have hk : k < ts.length := (List.getElem?_eq_some_iff.1 ht).1
  have hdrop : ts.drop k = t :: ts.drop (k + 1) := by
    rw [List.drop_eq_getElem_cons hk, (List.getElem?_eq_some_iff.1 ht).2]
  obtain ⟨out, ⟨hlen, hemit, -⟩ | ⟨u, hlen, -, hemit, -⟩⟩ := emission_split hk.le
  · rw [hemit, hdrop, emission_empty_of_swap hswap, List.append_cons]
    exact List.drop_left' (by simp [hlen])
  · rw [hemit, hdrop, emission_held_of_swap hswap, emission_empty_of_swap hswap, List.append_cons,
      List.append_cons]
    exact List.drop_left' (by simp [hlen])

/-- A record that comes out before the previous one, where the previous one is held. -/
theorem emission_at_swap {ts : List Timed} {k : Nat} {t u : Timed} (ht : ts[k + 1]? = some t)
    (hu : ts[k]? = some u) (hts : t.order.isSwap = true) (hus : u.order.isSwap = false) :
    (({} : Queue).emission ts)[k]? = some t ∧ (({} : Queue).emission ts)[k + 1]? = some u ∧
      ({} : Queue).emission (ts.drop (k + 1)) = t :: (({} : Queue).emission ts).drop (k + 2) := by
  have hk : k + 1 < ts.length := (List.getElem?_eq_some_iff.1 ht).1
  have hdrop : ts.drop (k + 1) = t :: ts.drop (k + 2) := by
    rw [List.drop_eq_getElem_cons hk, (List.getElem?_eq_some_iff.1 ht).2]
  have hdrop' : ts.drop k = u :: ts.drop (k + 1) := by
    rw [List.drop_eq_getElem_cons (Nat.lt_of_succ_lt hk), (List.getElem?_eq_some_iff.1 hu).2]
  have hnot : ∀ v, ts[k]? = some v → v.order.isSwap = false := by
    intro v hv
    rw [hu] at hv
    rwa [← Option.some.inj hv]
  have hemit : (({} : Queue).emission ts).drop k =
      t :: u :: ({} : Queue).emission (ts.drop (k + 2)) := by
    rw [drop_emission hnot, hdrop', emission_cons, push_of_not_swap hus, hdrop]
    exact emission_held_of_swap hts u _
  refine ⟨?_, ?_, ?_⟩
  · rw [← List.head?_drop, hemit]
    rfl
  · rw [← List.head?_drop, ← List.drop_drop, hemit]
    rfl
  · have hrest := congrArg (List.drop 2) hemit
    rw [List.drop_drop] at hrest
    rw [hdrop, emission_empty_of_swap hts, hrest]
    rfl

/-- The positions before `k` do not depend on the records after `k`. -/
theorem take_emission (ts : List Timed) {k n : Nat} (h : k < n) :
    (({} : Queue).emission (ts.take n)).take k = (({} : Queue).emission ts).take k := by
  rcases Nat.lt_or_ge ts.length n with hlt | hn
  · rw [List.take_of_length_le hlt.le]
  obtain ⟨out, ⟨hlen, hemit, htake⟩ | ⟨u, hlen, -, hemit, htake⟩⟩ := emission_split hn
  · rw [hemit, htake, List.take_append_of_le_length (by omega)]
  · rw [hemit, htake, List.take_append_of_le_length (by omega),
      List.take_append_of_le_length (by omega)]

/-- The record that is held comes out first or second. -/
theorem emission_held (u : Timed) (ts : List Timed) :
    ((⟨some u⟩ : Queue).emission ts)[0]? = some u ∨
      ((⟨some u⟩ : Queue).emission ts)[1]? = some u := by
  rcases ts with _ | ⟨t, ts⟩
  · exact .inl rfl
  · by_cases hs : t.order.isSwap = true
    · rw [emission_held_of_swap hs]
      exact .inr rfl
    · rw [emission_cons, push_of_not_swap (by simpa using hs)]
      exact .inl rfl

/-- Further records leave what came out, but for the last one, which they may move by one. -/
theorem emission_of_prefix {ts us : List Timed} (h : ts <+: us) :
    (({} : Queue).emission ts).take (ts.length - 1) =
        (({} : Queue).emission us).take (ts.length - 1) ∧
      ∀ t, (({} : Queue).emission ts).getLast? = some t →
        (({} : Queue).emission us)[ts.length - 1]? = some t ∨
          (({} : Queue).emission us)[ts.length]? = some t := by
  obtain ⟨out, hsplit⟩ := emission_split h.length_le
  rw [← List.prefix_iff_eq_take.1 h] at hsplit
  rcases hsplit with ⟨hlen, hus, hts⟩ | ⟨u, hlen, -, hus, hts⟩
  · rw [hts, hus, ← hlen]
    refine ⟨by rw [List.take_append_of_le_length (by omega)], fun t ht => .inl ?_⟩
    rw [List.getLast?_eq_getElem?] at ht
    have hlt := (List.getElem?_eq_some_iff.1 ht).1
    rw [List.getElem?_append_left hlt, ht]
  · rw [hts, hus, ← hlen, Nat.add_sub_cancel]
    refine ⟨by rw [List.take_left, List.take_left], fun t ht => ?_⟩
    rw [List.getLast?_concat] at ht
    rw [← Option.some.inj ht, List.getElem?_append_right (Nat.le_refl _),
      List.getElem?_append_right (Nat.le_add_right _ 1), Nat.sub_self, Nat.add_sub_cancel_left]
    exact emission_held u _

/-- What comes out at the positions from `start` to `stop` when the records from `first` to `limit`
are taken in: what a full emission has there, if one more record than needed comes on either
side. -/
theorem slice_emission {ts : List Timed} {first start stop limit : Nat} (hlt : start < stop)
    (hfirst : first = 0 ∨ first < start) (hlimit : stop < limit ∨ ts.length ≤ limit) :
    ((({} : Queue).emission ((ts.drop first).take (limit - first))).drop (start - first)).take
        (stop - start) =
      ((({} : Queue).emission ts).drop start).take (stop - start) := by
  have hahead : (({} : Queue).emission ((ts.drop first).take (limit - first))).take
      (stop - first) = (({} : Queue).emission (ts.drop first)).take (stop - first) := by
    rcases hlimit with hlimit | hlimit
    · exact take_emission _ (by omega)
    · rw [List.take_of_length_le (i := limit - first) (by rw [List.length_drop]; omega)]
  have hbehind : (({} : Queue).emission (ts.drop first)).drop (start - first) =
      (({} : Queue).emission ts).drop start := by
    rcases hfirst with rfl | hfirst
    · rfl
    · have hdrop := congrArg (List.drop (start - (first + 1))) (drop_succ_emission ts first)
      rw [List.drop_drop, List.drop_drop] at hdrop
      rw [show start - first = 1 + (start - (first + 1)) by omega, ← hdrop]
      congr 1
      omega
  have hwidth : stop - start = stop - first - (start - first) := by omega
  rw [← hbehind, hwidth, ← List.drop_take, hahead, List.drop_take]

end Queue

end Telemetry
