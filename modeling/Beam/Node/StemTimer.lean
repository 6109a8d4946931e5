import Mathlib.Algebra.Order.Ring.Nat
import Beam.Lib.SortedMerge

/-!
# The stem timers of `TxPool::Stem`

`src/node/txpool.cpp`.  Each stem element may carry a deadline `m_Time`, a
`uint32` count of milliseconds that wraps every 49.7 days; the elements with a
deadline sit in `m_setTime`, a multiset ordered by the raw value.
`get_NextTimeout` picks the element to wait for: the first one at or after
`now - (2^31 - 1)`, or the first one of the set when there is none, which is
the earliest deadline in circular order from `now - (2^31 - 1)` (`circ`).  It is
late when its deadline is at or before `now` in serial-number arithmetic
(`Late`), and otherwise the timer waits `deadline - now`.  `OnTimer` hands the
late elements one after the other to `OnTimedOut` and re-arms the timer for the
first one that is not late.

The set is the list of its elements, each an id with its deadline, in the
set's order.

* `late_iff_circ_le`: the late deadlines are those in the first half of the
  circle, so they all come before the others;
* `getNextTimeout_spec`: the element returned has the least place on the circle,
  the timeout is `0` exactly when it is late, and `deadline - now` otherwise;
* `onTimer_spec`: `OnTimer` delivers exactly the late elements, in circular
  order, and re-arms for the earliest of the others, or kills the timer when
  there is none;
* `TimeSetOK.setTimer`, `TimeSetOK.deleteTimer`: the operations keep the set
  sorted, with each element once;
* `stem_timer_selection`: the two together, for every set the operations keep;
* `onTimerWith_rearms`: with `OnTimedOut` as a parameter that may change the
  set, `OnTimer` ends and re-arms for the set the callback leaves;
  `onTimerWith_id`: with a callback that changes nothing it is `onTimer`.
-/

namespace Beam.TxPool.Stem

open SortedMerge

/-- `uint32_t(-1) >> 1`. -/
def halfRange : UInt32 := (0xFFFFFFFF : UInt32) >>> 1

/-- A deadline at or before `now` in serial-number arithmetic: `now` is less than
half the clock past it. -/
def Late (now d : UInt32) : Prop :=
  (now - d).toNat < 2 ^ 31

instance (now d : UInt32) : Decidable (Late now d) :=
  inferInstanceAs (Decidable (_ < _))

/-- The place of a deadline on the clock, counted from `now - halfRange`. -/
def circ (now d : UInt32) : Nat :=
  (d - (now - halfRange)).toNat

/-! ## The clock -/

section Clock

theorem toNat_halfRange : halfRange.toNat = 2 ^ 31 - 1 := by decide

/-- The deadlines at or before `now` are the first half of the circle from
`now - halfRange`, up to `now` itself. -/
theorem late_iff_circ_le (now d : UInt32) : Late now d ↔ circ now d ≤ 2 ^ 31 - 1 := by
  have hn := now.toNat_lt
  have hd := d.toNat_lt
  simp only [Late, circ, UInt32.toNat_sub, toNat_halfRange, Nat.reducePow, Nat.reduceSub] at hn hd ⊢
  omega

/-- `bLate` of `get_NextTimeout`: the three comparisons against `tmPrev` and `now`
tell whether the deadline is in the circular interval from `tmPrev` to `now`. -/
theorem bLate_iff (now d : UInt32) :
    (((d ≥ now - halfRange) == (now ≥ d)) == (now > now - halfRange)) = true ↔ Late now d := by
  have hn := now.toNat_lt
  have hd := d.toNat_lt
  simp only [Late, Bool.beq_eq_decide_eq, decide_eq_decide, ge_iff_le, gt_iff_lt, UInt32.le_iff_toNat_le,
    UInt32.lt_iff_toNat_lt, UInt32.toNat_sub, toNat_halfRange, Nat.reducePow, Nat.reduceSub,
    decide_eq_true_eq] at hn hd ⊢
  omega

/-- A deadline at or after `tmPrev` in raw value comes on the circle before every
deadline below it. -/
theorem circ_le_of_le (now d e : UInt32) (hd : now - halfRange ≤ d) (hde : d ≤ e ∨ e < now - halfRange) :
    circ now d ≤ circ now e := by
  have hn := now.toNat_lt
  have hd' := d.toNat_lt
  have he := e.toNat_lt
  simp only [circ, UInt32.le_iff_toNat_le, UInt32.lt_iff_toNat_lt, UInt32.toNat_sub, toNat_halfRange,
    Nat.reducePow, Nat.reduceSub] at hn hd' he hd hde ⊢
  omega

/-- Below `tmPrev` the circle keeps the raw order. -/
theorem circ_le_of_lt (now d e : UInt32) (hd : d < now - halfRange) (he : e < now - halfRange) (hde : d ≤ e) :
    circ now d ≤ circ now e := by
  have hn := now.toNat_lt
  have hd' := d.toNat_lt
  have he' := e.toNat_lt
  simp only [circ, UInt32.le_iff_toNat_le, UInt32.lt_iff_toNat_lt, UInt32.toNat_sub, toNat_halfRange,
    Nat.reducePow, Nat.reduceSub] at hn hd' he' hd he hde ⊢
  omega

/-- Past `now`, the wait is not zero. -/
theorem sub_ne_zero_of_not_late {now d : UInt32} (h : ¬Late now d) : d - now ≠ 0 := by
  intro h0
  have hz := congrArg UInt32.toNat h0
  have hn := now.toNat_lt
  have hd := d.toNat_lt
  simp only [Late, UInt32.toNat_sub, UInt32.toNat_zero, Nat.reducePow] at hz hn hd h
  omega

end Clock

/-! ## The time set and its operations -/

variable {ε : Type} [DecidableEq ε]

/-- `TxPool::Stem::get_NextTimeout` with the clock at `now`: the element
`lower_bound(tmPrev)` finds, or `begin()` past the end, and the timeout. -/
def getNextTimeout (now : UInt32) (setTime : List (ε × UInt32)) : Option ((ε × UInt32) × UInt32) :=
  match setTime with
  | [] => none
  | first :: _ =>
    let tmPrev := now - halfRange
    let ret := (setTime.find? fun e => tmPrev ≤ e.2).getD first
    let bLate := ((ret.2 ≥ tmPrev) == (now ≥ ret.2)) == (now > tmPrev)
    some (ret, if bLate then 0 else ret.2 - now)

/-- `TxPool::Stem::DeleteTimer`: the element leaves `m_setTime`. -/
def deleteTimer (x : ε) (setTime : List (ε × UInt32)) : List (ε × UInt32) :=
  setTime.filter fun e => e.1 != x

/-- `m_setTime.insert`: a multiset puts an element after those of equal value. -/
def insertTime (x : ε × UInt32) : List (ε × UInt32) → List (ε × UInt32)
  | [] => [x]
  | e :: es => if x.2 < e.2 then x :: e :: es else e :: insertTime x es

/-- `TxPool::Stem::SetTimer(nTimeout_ms, x)` with the clock at `now`: the old
deadline goes, the new one is `now + nTimeout_ms`, moved off `0`, which marks an
element without a timer.  Returns the set and the timeout `SetTimerRaw` is
started with when `x` is now the one to wait for. -/
def setTimer (now nTimeout : UInt32) (x : ε) (setTime : List (ε × UInt32)) :
    List (ε × UInt32) × Option UInt32 :=
  let d := now + nTimeout
  let s := insertTime (x, if d = 0 then 1 else d) (deleteTimer x setTime)
  match getNextTimeout now s with
  | some (e, ms) => (s, if e.1 = x then some ms else none)
  | none => (s, none)

omit [DecidableEq ε] in
theorem mem_of_getNextTimeout {now : UInt32} {setTime : List (ε × UInt32)} {ret : ε × UInt32} {ms : UInt32}
    (h : getNextTimeout now setTime = some (ret, ms)) : ret ∈ setTime := by
  match setTime, h with
  | first :: rest, h =>
    simp only [getNextTimeout, Option.some.injEq, Prod.mk.injEq] at h
    rw [← h.1]
    cases hf : (first :: rest).find? fun e => now - halfRange ≤ e.2 with
    | none => exact List.mem_cons_self
    | some r => exact List.mem_of_find?_eq_some hf

theorem length_deleteTimer_lt {x : ε × UInt32} {setTime : List (ε × UInt32)} (hx : x ∈ setTime) :
    (deleteTimer x.1 setTime).length < setTime.length :=
  List.length_filter_lt_length_iff_exists.2 ⟨x, hx, by simp⟩

/-- `TxPool::Stem::OnTimer` with the clock at `now` throughout, and an
`OnTimedOut` that leaves the timers alone: the elements handed to `OnTimedOut`, in
turn, and the timeout the timer is started with again (`none`: `KillTimer`). -/
def onTimer (now : UInt32) (setTime : List (ε × UInt32)) : List (ε × UInt32) × Option UInt32 :=
  match _h : getNextTimeout now setTime with
  | none => ([], none)
  | some (e, ms) =>
    if ms > 0 then ([], some ms)
    else
      -- `DeleteTimer`, then `OnTimedOut`
      let r := onTimer now (deleteTimer e.1 setTime)
      (e :: r.1, r.2)
termination_by setTime.length
decreasing_by exact length_deleteTimer_lt (mem_of_getNextTimeout _h)

/-! ## What `get_NextTimeout` finds -/

/-- The set as `SetTimer` and `DeleteTimer` keep it: in the order of the
deadlines, each element at most once. -/
structure TimeSetOK (setTime : List (ε × UInt32)) : Prop where
  sorted : SortedBy (fun e => e.2.toNat) setTime
  nodup : (setTime.map Prod.fst).Nodup

omit [DecidableEq ε] in
/-- The element `get_NextTimeout` looks at has the least place on the circle: the
first one at or after `tmPrev` comes before all the others, and when there is none
the first of the set does. -/
theorem circ_getD_find?_le {first : ε × UInt32} {rest : List (ε × UInt32)}
    (hs : SortedBy (fun e => e.2.toNat) (first :: rest)) (now : UInt32) :
    ∀ e ∈ first :: rest,
      circ now (((first :: rest).find? fun e => now - halfRange ≤ e.2).getD first).2 ≤ circ now e.2 := by
  intro e he
  cases hf : (first :: rest).find? fun e => now - halfRange ≤ e.2 with
  | none =>
    -- every deadline is below `tmPrev`, and the first is the least
    have hbelow : ∀ x ∈ first :: rest, x.2 < now - halfRange := fun x hx => by
      simpa using List.find?_eq_none.1 hf x hx
    have hle : first.2 ≤ e.2 := by
      rcases List.mem_cons.1 he with rfl | he
      · exact UInt32.le_iff_toNat_le.2 (Nat.le_refl _)
      · exact UInt32.le_iff_toNat_le.2 ((sortedBy_cons.1 hs).1 e he)
    exact circ_le_of_lt now _ _ (hbelow first List.mem_cons_self) (hbelow e he) hle
  | some r =>
    have hr : now - halfRange ≤ r.2 := by simpa using List.find?_some hf
    refine circ_le_of_le now _ _ hr ?_
    by_cases hpe : now - halfRange ≤ e.2
    · exact Or.inl (UInt32.le_iff_toNat_le.2 (SortedBy.key_find?_le hs hf he (by simpa using hpe)))
    · exact Or.inr (UInt32.lt_iff_toNat_lt.2 (Nat.lt_of_not_le (fun h => hpe (UInt32.le_iff_toNat_le.2 h))))

omit [DecidableEq ε] in
theorem ne_nil_of_getNextTimeout {now : UInt32} {setTime : List (ε × UInt32)} {r : (ε × UInt32) × UInt32}
    (h : getNextTimeout now setTime = some r) : setTime ≠ [] := by
  rintro rfl
  cases h

omit [DecidableEq ε] in
/-- **`get_NextTimeout`.**  On a sorted set that is not empty it returns an element
of the set with the least place on the circle from `now - halfRange`; the timeout
is `0` exactly when that deadline is late, and `deadline - now` otherwise. -/
theorem getNextTimeout_spec {setTime : List (ε × UInt32)} (hs : SortedBy (fun e => e.2.toNat) setTime)
    (now : UInt32) (hne : setTime ≠ []) :
    ∃ ret ms, getNextTimeout now setTime = some (ret, ms) ∧ ret ∈ setTime ∧
      (∀ e ∈ setTime, circ now ret.2 ≤ circ now e.2) ∧ (ms = 0 ↔ Late now ret.2) ∧
      (¬Late now ret.2 → ms = ret.2 - now) := by
  obtain ⟨first, rest, rfl⟩ := List.exists_cons_of_ne_nil hne
  refine ⟨_, _, rfl, mem_of_getNextTimeout rfl, circ_getD_find?_le hs now, ?_, ?_⟩
  · split
    · next hlate => exact iff_of_true rfl ((bLate_iff _ _).1 hlate)
    · next hlate =>
      rw [bLate_iff] at hlate
      exact iff_of_false (sub_ne_zero_of_not_late hlate) hlate
  · intro hlate
    rw [if_neg (by rwa [bLate_iff])]

omit [DecidableEq ε] in
theorem getNextTimeout_some {setTime : List (ε × UInt32)} (hs : SortedBy (fun e => e.2.toNat) setTime)
    {now : UInt32} {ret : ε × UInt32} {ms : UInt32} (h : getNextTimeout now setTime = some (ret, ms)) :
    ret ∈ setTime ∧ (∀ e ∈ setTime, circ now ret.2 ≤ circ now e.2) ∧ (ms = 0 ↔ Late now ret.2) ∧
      (¬Late now ret.2 → ms = ret.2 - now) := by
  obtain ⟨ret', ms', h', hspec⟩ := getNextTimeout_spec hs now (ne_nil_of_getNextTimeout h)
  rw [h, Option.some.injEq, Prod.mk.injEq] at h'
  obtain ⟨rfl, rfl⟩ := h'
  exact hspec

omit [DecidableEq ε] in
/-- Only the empty set has nothing to wait for. -/
theorem eq_nil_of_getNextTimeout {setTime : List (ε × UInt32)} (hs : SortedBy (fun e => e.2.toNat) setTime)
    {now : UInt32} (h : getNextTimeout now setTime = none) : setTime = [] := by
  by_contra hne
  obtain ⟨_, _, h', -⟩ := getNextTimeout_spec hs now hne
  rw [h] at h'
  cases h'

omit [DecidableEq ε] in
/-- When the element waited for is not late, no element is: it comes first on the
circle, and the late deadlines are the first half of it. -/
theorem not_late_of_getNextTimeout {setTime : List (ε × UInt32)} (hs : SortedBy (fun e => e.2.toNat) setTime)
    {now : UInt32} {e : ε × UInt32} {ms : UInt32} (h : getNextTimeout now setTime = some (e, ms)) (hms : ms ≠ 0) :
    ∀ x ∈ setTime, ¬Late now x.2 := by
  obtain ⟨-, hmin, hzero, -⟩ := getNextTimeout_some hs h
  have hlate : ¬Late now e.2 := fun hl => hms (hzero.2 hl)
  intro x hx hx'
  rw [late_iff_circ_le] at hlate hx'
  exact hlate ((hmin x hx).trans hx')

/-! ## The set stays sorted -/

section Keep

variable {x : ε} {setTime : List (ε × UInt32)}

theorem TimeSetOK.deleteTimer (hs : TimeSetOK setTime) (x : ε) : TimeSetOK (Stem.deleteTimer x setTime) :=
  ⟨hs.sorted.sublist List.filter_sublist, hs.nodup.sublist (List.filter_sublist.map Prod.fst)⟩

omit [DecidableEq ε] in
theorem perm_insertTime (y : ε × UInt32) : ∀ l : List (ε × UInt32), (insertTime y l).Perm (y :: l)
  | [] => List.Perm.refl _
  | e :: es => by
    unfold insertTime
    split
    · exact List.Perm.refl _
    · exact ((perm_insertTime y es).cons e).trans (List.Perm.swap y e es)

omit [DecidableEq ε] in
theorem sortedBy_insertTime (y : ε × UInt32) :
    ∀ l : List (ε × UInt32), SortedBy (fun e => e.2.toNat) l → SortedBy (fun e => e.2.toNat) (insertTime y l)
  | [] => fun _ => by simp [insertTime]
  | e :: es => fun hs => by
    rw [sortedBy_cons] at hs
    unfold insertTime
    split
    · next hlt =>
      have hlt' := UInt32.lt_iff_toNat_lt.1 hlt
      refine sortedBy_cons.2 ⟨fun b hb => ?_, sortedBy_cons.2 hs⟩
      rcases List.mem_cons.1 hb with rfl | hb
      · exact hlt'.le
      · exact hlt'.le.trans (hs.1 b hb)
    · next hge =>
      have hge' : e.2.toNat ≤ y.2.toNat := Nat.le_of_not_lt fun h => hge (UInt32.lt_iff_toNat_lt.2 h)
      refine sortedBy_cons.2 ⟨fun b hb => ?_, sortedBy_insertTime y es hs.2⟩
      rcases List.mem_cons.1 ((perm_insertTime y es).subset hb) with rfl | hb
      · exact hge'
      · exact hs.1 b hb

/-- **`SetTimer` keeps the set sorted, with each element once.** -/
theorem TimeSetOK.setTimer (hs : TimeSetOK setTime) (now nTimeout : UInt32) (x : ε) :
    TimeSetOK (Stem.setTimer now nTimeout x setTime).1 := by
  have hd := hs.deleteTimer x
  have hfst : (Stem.setTimer now nTimeout x setTime).1 =
      insertTime (x, if now + nTimeout = 0 then 1 else now + nTimeout) (Stem.deleteTimer x setTime) := by
    unfold Stem.setTimer
    dsimp only
    cases getNextTimeout now (insertTime (x, if now + nTimeout = 0 then 1 else now + nTimeout)
      (Stem.deleteTimer x setTime)) with
    | none => rfl
    | some r => rfl
  rw [hfst]
  refine ⟨sortedBy_insertTime _ _ hd.sorted, ?_⟩
  rw [((perm_insertTime _ _).map Prod.fst).nodup_iff, List.map_cons, List.nodup_cons]
  refine ⟨fun hx => ?_, hd.nodup⟩
  obtain ⟨e, he, hex⟩ := List.mem_map.1 hx
  simpa [hex] using (List.mem_filter.1 he).2

/-- Taking an element out of the set: it and the rest. -/
theorem perm_cons_deleteTimer {e : ε × UInt32} :
    ∀ {l : List (ε × UInt32)}, (l.map Prod.fst).Nodup → e ∈ l → l.Perm (e :: Stem.deleteTimer e.1 l)
  | [], _, he => absurd he List.not_mem_nil
  | a :: l, hnd, he => by
    rw [List.map_cons, List.nodup_cons] at hnd
    by_cases hae : a = e
    · -- no other element has `e`'s id
      subst hae
      have hl : Stem.deleteTimer a.1 (a :: l) = l := by
        rw [Stem.deleteTimer, List.filter_cons_of_neg (by simp), List.filter_eq_self]
        intro b hb
        simpa using fun (h : b.1 = a.1) => hnd.1 (h ▸ List.mem_map_of_mem hb)
      rw [hl]
    · have he' : e ∈ l := (List.mem_cons.1 he).resolve_left (Ne.symm hae)
      have hid : (a.1 != e.1) = true := by
        simpa using fun (h : a.1 = e.1) => hnd.1 (h ▸ List.mem_map_of_mem he')
      rw [Stem.deleteTimer, List.filter_cons_of_pos (p := fun x : ε × UInt32 => x.1 != e.1) hid]
      exact ((perm_cons_deleteTimer hnd.2 he').cons a).trans (List.Perm.swap e a _)

end Keep

/-! ## What `OnTimer` does -/

/-- **`OnTimer`.**  From a sorted set, with the clock standing at `now`, it hands
to `OnTimedOut` exactly the elements whose deadlines are late, in circular order
from `now - halfRange`, and then kills the timer when no element is left, or
starts it again for the earliest of the elements that are not late, with the
wait to its deadline. -/
theorem onTimer_spec (now : UInt32) {setTime : List (ε × UInt32)} (hs : TimeSetOK setTime) :
    (onTimer now setTime).1.Perm (setTime.filter fun e => decide (Late now e.2)) ∧
      (onTimer now setTime).1.Pairwise (fun a b => circ now a.2 ≤ circ now b.2) ∧
      ((onTimer now setTime).2 = none ↔ ∀ e ∈ setTime, Late now e.2) ∧
      ∀ ms, (onTimer now setTime).2 = some ms →
        ∃ e ∈ setTime, ¬Late now e.2 ∧ (∀ e' ∈ setTime, ¬Late now e'.2 → circ now e.2 ≤ circ now e'.2) ∧
          ms = e.2 - now := by
  fun_induction onTimer now setTime with
  | case1 setTime h =>
    obtain rfl := eq_nil_of_getNextTimeout hs.sorted h
    simp
  | case2 setTime e ms h hms =>
    obtain ⟨hmem, hmin, -, hwait⟩ := getNextTimeout_some hs.sorted h
    have hnone := not_late_of_getNextTimeout hs.sorted h (by rintro rfl; exact absurd hms (by decide))
    have hlate := hnone e hmem
    refine ⟨by simpa using hnone, List.Pairwise.nil, ?_, ?_⟩
    · simp only [reduceCtorEq, false_iff, not_forall]
      exact ⟨e, hmem, hlate⟩
    · intro ms' hms'
      rw [Option.some.injEq] at hms'
      exact ⟨e, hmem, hlate, fun e' he' _ => hmin e' he', hms' ▸ hwait hlate⟩
  | case3 setTime e ms h hms r ih =>
    obtain ⟨hmem, hmin, hzero, -⟩ := getNextTimeout_some hs.sorted h
    have hlate : Late now e.2 := hzero.1 (by simpa using hms)
    obtain ⟨hperm, hsorted, hnone, hsome⟩ := ih (hs.deleteTimer e.1)
    have hsplit := perm_cons_deleteTimer hs.nodup hmem
    have hsub : ∀ x ∈ deleteTimer e.1 setTime, x ∈ setTime := fun x hx => List.mem_of_mem_filter hx
    refine ⟨?_, ?_, ?_, ?_⟩
    · -- the late elements are `e` and the late ones left
      refine (hperm.cons e).trans ?_
      have := hsplit.filter fun e => decide (Late now e.2)
      rw [List.filter_cons_of_pos (by simpa using hlate)] at this
      exact this.symm
    · refine List.pairwise_cons.2 ⟨fun x hx => hmin x (hsub x ?_), hsorted⟩
      exact (List.mem_filter.1 (hperm.subset hx)).1
    · rw [hnone]
      constructor
      · intro hall x hx
        rcases List.mem_cons.1 (hsplit.subset hx) with rfl | hx
        · exact hlate
        · exact hall x hx
      · exact fun hall x hx => hall x (hsub x hx)
    · -- the elements that are not late are those left
      intro ms' hms'
      obtain ⟨x, hx, hxl, hxmin, hxms⟩ := hsome ms' hms'
      refine ⟨x, hsub x hx, hxl, fun e' he' hl' => hxmin e' ?_ hl', hxms⟩
      rcases List.mem_cons.1 (hsplit.subset he') with rfl | he'
      · exact absurd hlate hl'
      · exact he'

/-- **Stem timers under the wrap-around of the clock.**  For every time `now` and
every set of stem deadlines as `SetTimer` and `DeleteTimer` keep it,
`get_NextTimeout` returns, when the set is not empty, an element whose deadline
is the earliest in circular order from `now - (2^31 - 1)`, with the timeout `0`
exactly when that deadline is at or before `now` in serial-number arithmetic and
`deadline - now` otherwise; and `OnTimer` delivers `OnTimedOut` for exactly the
expired elements, earliest first, and then starts the timer again for the
earliest pending one, or kills it when there is none. -/
theorem stem_timer_selection (now : UInt32) {setTime : List (ε × UInt32)} (hs : TimeSetOK setTime) :
    (setTime ≠ [] → ∃ ret ms, getNextTimeout now setTime = some (ret, ms) ∧ ret ∈ setTime ∧
      (∀ e ∈ setTime, circ now ret.2 ≤ circ now e.2) ∧ (ms = 0 ↔ Late now ret.2) ∧
      (¬Late now ret.2 → ms = ret.2 - now)) ∧
    (onTimer now setTime).1.Perm (setTime.filter fun e => decide (Late now e.2)) ∧
      (onTimer now setTime).1.Pairwise (fun a b => circ now a.2 ≤ circ now b.2) ∧
      ((onTimer now setTime).2 = none ↔ ∀ e ∈ setTime, Late now e.2) ∧
      ∀ ms, (onTimer now setTime).2 = some ms →
        ∃ e ∈ setTime, ¬Late now e.2 ∧ (∀ e' ∈ setTime, ¬Late now e'.2 → circ now e.2 ≤ circ now e'.2) ∧
          ms = e.2 - now :=
  ⟨getNextTimeout_spec hs.sorted now, onTimer_spec now hs⟩

/-- Ten milliseconds after the clock wrapped: the deadline six milliseconds before
the wrap and the one at `3` are late, the one at `20` is pending. -/
theorem stem_timer_selection_after_wrap :
    let s : List (Nat × UInt32) := [(0, 3), (1, 20), (2, 4294967290)]
    TimeSetOK s ∧
      ((s ≠ [] → ∃ ret ms, getNextTimeout 10 s = some (ret, ms) ∧ ret ∈ s ∧
        (∀ e ∈ s, circ 10 ret.2 ≤ circ 10 e.2) ∧ (ms = 0 ↔ Late 10 ret.2) ∧
        (¬Late 10 ret.2 → ms = ret.2 - 10)) ∧
      (onTimer 10 s).1.Perm (s.filter fun e => decide (Late 10 e.2)) ∧
        (onTimer 10 s).1.Pairwise (fun a b => circ 10 a.2 ≤ circ 10 b.2) ∧
        ((onTimer 10 s).2 = none ↔ ∀ e ∈ s, Late 10 e.2) ∧
        ∀ ms, (onTimer 10 s).2 = some ms →
          ∃ e ∈ s, ¬Late 10 e.2 ∧ (∀ e' ∈ s, ¬Late 10 e'.2 → circ 10 e.2 ≤ circ 10 e'.2) ∧
            ms = e.2 - 10) :=
  have hs : TimeSetOK ([(0, 3), (1, 20), (2, 4294967290)] : List (Nat × UInt32)) := ⟨by decide, by decide⟩
  ⟨hs, stem_timer_selection 10 hs⟩

/-! ## `OnTimer` with a callback that changes the set -/

section Callback

variable (onTimedOut : ε × UInt32 → List (ε × UInt32) → List (ε × UInt32))

/-- `TxPool::Stem::OnTimer` with the clock at `now` and `OnTimedOut` given as
`onTimedOut`: it gets the element, whose timer is already deleted, and the set,
and returns the set it leaves.  The node's `Dandelion::OnTimedOut` may `SetTimer`
the element again (`OnTransactionAggregated`) or delete elements.  At most `fuel`
rounds: the elements handed to `OnTimedOut`, the set left, and the timeout the
timer is started with (`none`: `KillTimer`); `none` when the rounds run out. -/
def onTimerWith (now : UInt32) :
    Nat → List (ε × UInt32) → Option (List (ε × UInt32) × List (ε × UInt32) × Option UInt32)
  | 0, _ => none
  | fuel + 1, setTime =>
    match getNextTimeout now setTime with
    | none => some ([], setTime, none)
    | some (e, ms) =>
      if ms > 0 then some ([], setTime, some ms)
      else (onTimerWith now fuel (onTimedOut e (deleteTimer e.1 setTime))).map fun r => (e :: r.1, r.2)

variable {onTimedOut}

/-- The late elements of a set without one late element of it. -/
theorem length_late_deleteTimer {now : UInt32} {setTime : List (ε × UInt32)} (hs : TimeSetOK setTime)
    {e : ε × UInt32} (he : e ∈ setTime) (hlate : Late now e.2) :
    ((deleteTimer e.1 setTime).filter fun x => decide (Late now x.2)).length + 1 =
      (setTime.filter fun x => decide (Late now x.2)).length := by
  have h := ((perm_cons_deleteTimer hs.nodup he).filter fun x => decide (Late now x.2)).length_eq
  rw [List.filter_cons_of_pos (by simpa using hlate), List.length_cons] at h
  exact h.symm

/-- **`OnTimer` re-arms for the set its callback leaves.**  Whatever
`OnTimedOut` does, as long as it keeps the set sorted with each element once, a
run of `OnTimer` that ends has handed `OnTimedOut` only elements that were late,
and then kills the timer when the set left is empty, or starts it for the
earliest element on the circle of the set left, with the wait to its deadline,
when no element left is late. -/
theorem onTimerWith_spec (hcb : ∀ e s, TimeSetOK s → TimeSetOK (onTimedOut e s)) (now : UInt32) :
    ∀ (fuel : Nat) {setTime : List (ε × UInt32)}, TimeSetOK setTime →
      ∀ {delivered setLeft : List (ε × UInt32)} {t : Option UInt32},
        onTimerWith onTimedOut now fuel setTime = some (delivered, setLeft, t) →
        (∀ e ∈ delivered, Late now e.2) ∧ TimeSetOK setLeft ∧ (t = none ↔ setLeft = []) ∧
          ∀ ms, t = some ms → ∃ e ∈ setLeft,
            (∀ e' ∈ setLeft, ¬Late now e'.2 ∧ circ now e.2 ≤ circ now e'.2) ∧ ms = e.2 - now := by
  intro fuel
  induction fuel with
  | zero => intro _ _ _ _ _ h; cases h
  | succ fuel ih =>
    intro setTime hs delivered setLeft t h
    simp only [onTimerWith] at h
    cases hn : getNextTimeout now setTime with
    | none =>
      -- only the empty set has nothing to wait for
      rw [hn, Option.some.injEq, Prod.mk.injEq, Prod.mk.injEq] at h
      obtain ⟨rfl, rfl, rfl⟩ := h
      obtain rfl := eq_nil_of_getNextTimeout hs.sorted hn
      simp [hs]
    | some r =>
      obtain ⟨e, ms⟩ := r
      obtain ⟨hmem, hmin, hzero, hwait⟩ := getNextTimeout_some hs.sorted hn
      rw [hn] at h
      dsimp only at h
      split at h
      · -- the element waited for is not late, so none is
        rename_i hms
        rw [Option.some.injEq, Prod.mk.injEq, Prod.mk.injEq] at h
        obtain ⟨rfl, rfl, rfl⟩ := h
        have hnone := not_late_of_getNextTimeout hs.sorted hn (by rintro rfl; exact absurd hms (by decide))
        refine ⟨by simp, hs, by simpa using List.ne_nil_of_mem hmem, fun ms' hms' => ?_⟩
        rw [Option.some.injEq] at hms'
        exact ⟨e, hmem, fun e' he' => ⟨hnone e' he', hmin e' he'⟩, hms' ▸ hwait (hnone e hmem)⟩
      · -- `DeleteTimer`, then `OnTimedOut`, then the next round
        rename_i hms
        have hlate : Late now e.2 := hzero.1 (by simpa using hms)
        obtain ⟨⟨r1, r2⟩, hr, hrd⟩ := Option.map_eq_some_iff.mp h
        rw [Prod.mk.injEq] at hrd
        obtain ⟨rfl, rfl⟩ := hrd
        obtain ⟨hlates, hsl, hnone, hsome⟩ := ih (hcb e _ (hs.deleteTimer e.1)) hr
        refine ⟨?_, hsl, hnone, hsome⟩
        intro x hx
        rcases List.mem_cons.1 hx with rfl | hx
        · exact hlate
        · exact hlates x hx

/-- **With a callback that sets no late deadline, `OnTimer` ends** within one
round more than the set has late elements.  The node's callback re-arms with
`m_TimeoutMin_ms` to `m_TimeoutMax_ms`, below `2 ^ 31`, which is not late. -/
theorem onTimerWith_isSome (hcb : ∀ e s, TimeSetOK s → TimeSetOK (onTimedOut e s)) {now : UInt32}
    (hlate : ∀ e s, ((onTimedOut e s).filter fun x => decide (Late now x.2)).length ≤
      (s.filter fun x => decide (Late now x.2)).length) :
    ∀ (fuel : Nat) {setTime : List (ε × UInt32)}, TimeSetOK setTime →
      (setTime.filter fun x => decide (Late now x.2)).length < fuel → (onTimerWith onTimedOut now fuel setTime).isSome := by
  intro fuel
  induction fuel with
  | zero => intro _ _ h; exact absurd h (Nat.not_lt_zero _)
  | succ fuel ih =>
    intro setTime hs hfuel
    simp only [onTimerWith]
    cases hn : getNextTimeout now setTime with
    | none => rfl
    | some r =>
      obtain ⟨e, ms⟩ := r
      obtain ⟨hmem, -, hzero, -⟩ := getNextTimeout_some hs.sorted hn
      dsimp only
      split
      · rfl
      · -- the late element leaves, and the callback adds no late one
        rename_i hms
        have hl : Late now e.2 := hzero.1 (by simpa using hms)
        have hdel := length_late_deleteTimer hs hmem hl
        rw [Option.isSome_map]
        exact ih (hcb e _ (hs.deleteTimer e.1)) (by have := hlate e (deleteTimer e.1 setTime); omega)

/-- **`OnTimer` with its callback ends and re-arms for the set left.**  For a
callback that keeps the set sorted with each element once and adds no late
deadline, a run with one round more than the set has late elements returns; it
has handed `OnTimedOut` only late elements, and kills the timer when the set
left is empty, or starts it for the earliest element of the set left, none of
which is late, with the wait to its deadline. -/
theorem onTimerWith_rearms (hcb : ∀ e s, TimeSetOK s → TimeSetOK (onTimedOut e s)) {now : UInt32}
    (hlate : ∀ e s, ((onTimedOut e s).filter fun x => decide (Late now x.2)).length ≤
      (s.filter fun x => decide (Late now x.2)).length)
    {setTime : List (ε × UInt32)} (hs : TimeSetOK setTime) :
    ∃ delivered setLeft t,
      onTimerWith onTimedOut now ((setTime.filter fun x => decide (Late now x.2)).length + 1) setTime =
          some (delivered, setLeft, t) ∧
        (∀ e ∈ delivered, Late now e.2) ∧ TimeSetOK setLeft ∧ (t = none ↔ setLeft = []) ∧
        ∀ ms, t = some ms → ∃ e ∈ setLeft,
          (∀ e' ∈ setLeft, ¬Late now e'.2 ∧ circ now e.2 ≤ circ now e'.2) ∧ ms = e.2 - now := by
  obtain ⟨⟨delivered, setLeft, t⟩, h⟩ :=
    Option.isSome_iff_exists.mp (onTimerWith_isSome hcb hlate _ hs (Nat.lt_succ_self _))
  exact ⟨delivered, setLeft, t, h, onTimerWith_spec hcb now _ hs h⟩

/-- A callback that deletes the timer of the next id, ten milliseconds after the
clock wrapped. -/
theorem onTimerWith_rearms_after_wrap :
    let s : List (Nat × UInt32) := [(0, 3), (1, 20), (2, 4294967290)]
    TimeSetOK s ∧ ∃ delivered setLeft t,
      onTimerWith (fun e s => deleteTimer (e.1 + 1) s) 10 ((s.filter fun x => decide (Late 10 x.2)).length + 1) s =
          some (delivered, setLeft, t) ∧
        (∀ e ∈ delivered, Late 10 e.2) ∧ TimeSetOK setLeft ∧ (t = none ↔ setLeft = []) ∧
        ∀ ms, t = some ms → ∃ e ∈ setLeft,
          (∀ e' ∈ setLeft, ¬Late 10 e'.2 ∧ circ 10 e.2 ≤ circ 10 e'.2) ∧ ms = e.2 - 10 :=
  have hs : TimeSetOK ([(0, 3), (1, 20), (2, 4294967290)] : List (Nat × UInt32)) := ⟨by decide, by decide⟩
  have hcb : ∀ (e : Nat × UInt32) s, TimeSetOK s → TimeSetOK (deleteTimer (e.1 + 1) s) :=
    fun e _ h => h.deleteTimer (e.1 + 1)
  have hlate : ∀ (e : Nat × UInt32) (s : List (Nat × UInt32)),
      ((deleteTimer (e.1 + 1) s).filter fun x => decide (Late 10 x.2)).length ≤
        (s.filter fun x => decide (Late 10 x.2)).length :=
    fun _ s => ((List.filter_sublist (l := s)).filter _).length_le
  ⟨hs, onTimerWith_rearms hcb hlate hs⟩

end Callback

end Beam.TxPool.Stem
