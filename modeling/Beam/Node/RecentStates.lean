import Mathlib.Data.List.Induction
import Mathlib.Data.Nat.ModEq
import Mathlib.Data.List.Chain

/-!
# `NodeProcessor::RecentStates`

`src/node/processor.cpp`.  The node keeps the last block headers it applied in a
cyclic buffer `m_vec`, for the difficulty and the moving medians: `m_Count`
entries, the newest at slot `(m_i0 + m_Count - 1) % size`, the older ones before
it.  `Push` of a header first drops from the tail every entry down to the one of
the height just below (`RollbackTo(h - 1)`), then takes a free slot or, when the
buffer is full, the oldest one.  `Get(h)` finds an entry by its height's distance
from the tail.

Heights are `uint64_t` and wrap.

* `window`: the entries read from the tail, `get_FromTail(0), get_FromTail(1), ...`;
  `window_push` and `window_rollbackTo` say what `Push` and `RollbackTo` do to it,
  and `get_eq` how `Get` reads it;
* `Inv`: along every run the window is at most the buffer's size, its heights
  go down by one from the tail modulo `2 ^ 64`, and each entry is the last one
  pushed with its height (`inv_run`);
* `get_spec`: so `Get(h)` returns an entry of height `h`, the last one pushed, and
  returns one exactly when `h` is at most `d` below the tail's height, for `d`
  below the window's length.  A window that runs through height `0` to
  `2 ^ 64 - 1` does not descend in `Nat`, and `Get` misses its older part.
-/

namespace Beam.NodeProcessor

/-- The fields of `Rules::DA` that size the cache. -/
structure DAWindows where
  windowWork : UInt32
  windowMedian0 : UInt32
  windowMedian1 : UInt32

/-- The size `Push` gives `m_vec`: `max(WindowWork + WindowMedian1, WindowMedian0) + 5`,
computed in `uint32_t`. -/
def DAWindows.cacheSize (da : DAWindows) : Nat :=
  (max (da.windowWork + da.windowMedian1) da.windowMedian0 + 5).toNat

/-- `RecentStates::Entry`: the row of a header and the header. -/
structure RecentStates.Entry (S : Type) where
  rowID : UInt64
  state : S

instance {S : Type} [Inhabited S] : Inhabited (RecentStates.Entry S) := ⟨⟨0, default⟩⟩

/-- `RecentStates`: `m_vec`, `m_i0` and `m_Count`. -/
structure RecentStates (S : Type) where
  vec : List (RecentStates.Entry S)
  i0 : Nat
  count : Nat

namespace RecentStates

variable {S : Type} [Inhabited S] (height : S → UInt64)

/-- `get_FromTail(x)`: slot `(m_i0 + m_Count - x - 1) % m_vec.size()`. -/
def fromTail (rs : RecentStates S) (x : Nat) : Entry S :=
  rs.vec.getD ((rs.i0 + rs.count - x - 1) % rs.vec.length) default

/-- `Get(h)`: `nullptr` (`none`) on an empty cache, above the tail's height, or
`Count` or more below it. -/
def get (rs : RecentStates S) (h : UInt64) : Option (Entry S) :=
  if rs.count = 0 then none
  else
    let e := rs.fromTail 0
    if h > height e.state then none
    else
      let dh := height e.state - h
      if rs.count ≤ dh.toNat then none else some (rs.fromTail dh.toNat)

/-- The loop `for (; m_Count; m_Count--)` of `RollbackTo(h)` over the entries of
`m_vec` from `m_i0`: the count it stops at. -/
def rollbackCount (vec : List (Entry S)) (i0 : Nat) (h : UInt64) : Nat → Nat
  | 0 => 0
  | c + 1 => if height (fromTail ⟨vec, i0, c + 1⟩ 0).state = h then c + 1 else rollbackCount vec i0 h c

/-- `RollbackTo(h)`: drop entries from the tail until the tail has height `h`. -/
def rollbackTo (rs : RecentStates S) (h : UInt64) : RecentStates S :=
  { rs with count := rollbackCount height rs.vec rs.i0 h rs.count }

/-- `Push(rowID, s)`: size the buffer on the first push, otherwise roll back to the
height below `s`'s; then grow the count, or move `m_i0` on when the buffer is full;
and write the entry at the tail. -/
def push (da : DAWindows) (rs : RecentStates S) (rowID : UInt64) (s : S) : RecentStates S :=
  let rs := if rs.vec.isEmpty then { rs with vec := List.replicate da.cacheSize default }
    else rollbackTo height rs (height s - 1)
  let rs := if rs.count < rs.vec.length then { rs with count := rs.count + 1 } else { rs with i0 := rs.i0 + 1 }
  { rs with vec := rs.vec.set ((rs.i0 + rs.count - 0 - 1) % rs.vec.length) ⟨rowID, s⟩ }

/-- The calls a run makes. -/
inductive Op (S : Type) where
  | push (rowID : UInt64) (s : S)
  | rollbackTo (h : UInt64)

/-- One call. -/
def step (da : DAWindows) (rs : RecentStates S) : Op S → RecentStates S
  | .push rowID s => push height da rs rowID s
  | .rollbackTo h => rollbackTo height rs h

/-- The calls in turn, from the empty cache. -/
def run (da : DAWindows) (ops : List (Op S)) : RecentStates S :=
  ops.foldl (step height da) ⟨[], 0, 0⟩

/-- The last entry the calls pushed with height `h`. -/
def lastPush (ops : List (Op S)) (h : UInt64) : Option (Entry S) :=
  (ops.filterMap fun
    | .push rowID s => if height s = h then some ⟨rowID, s⟩ else none
    | .rollbackTo _ => none).getLast?

/-- The entries read from the tail: `get_FromTail(0)`, `get_FromTail(1)`, ... -/
def window (rs : RecentStates S) : List (Entry S) :=
  (List.range rs.count).map rs.fromTail

/-! ## The window of the cyclic buffer -/

section Ring

variable {vec : List (Entry S)} {i0 c : Nat}

/-- Distinct places less than one turn apart are distinct slots. -/
theorem add_mod_ne {a d L : Nat} (hd : 0 < d) (hdL : d < L) : (a + d) % L ≠ a % L := fun h => by
  have := Nat.ModEq.add_left_cancel' a (show a + d ≡ a + 0 [MOD L] from h)
  rw [Nat.ModEq, Nat.mod_eq_of_lt hdL, Nat.zero_mod] at this
  omega

/-- Reading from the tail depends on `m_i0 + m_Count` only: one more there is one
entry further from the tail. -/
theorem fromTail_succ {i0' c' : Nat} (h : i0 + c = i0' + c' + 1) (x : Nat) :
    fromTail ⟨vec, i0, c⟩ (x + 1) = fromTail ⟨vec, i0', c'⟩ x := by
  show vec.getD ((i0 + c - (x + 1) - 1) % vec.length) default = vec.getD ((i0' + c' - x - 1) % vec.length) default
  rw [show i0 + c - (x + 1) - 1 = i0' + c' - x - 1 by omega]

theorem length_window (rs : RecentStates S) : (window rs).length = rs.count := by
  simp [window]

theorem getElem?_window {rs : RecentStates S} {x : Nat} (hx : x < rs.count) :
    (window rs)[x]? = some (rs.fromTail x) := by
  simp [window, hx]

/-- The window with one more entry counted is that entry, then the old window. -/
theorem window_succ (vec : List (Entry S)) (i0 c : Nat) :
    window ⟨vec, i0, c + 1⟩ = fromTail ⟨vec, i0, c + 1⟩ 0 :: window ⟨vec, i0, c⟩ := by
  unfold window
  rw [List.range_succ_eq_map, List.map_cons, List.map_map]
  congr 1
  exact List.map_congr_left fun x _ => fromTail_succ (by omega) x

/-- With `m_i0` moved on, the window loses its oldest entry. -/
theorem window_shift (vec : List (Entry S)) (i0 c : Nat) :
    (window ⟨vec, i0 + 1, c⟩).tail = (window ⟨vec, i0, c⟩).take (c - 1) := by
  cases c with
  | zero => rfl
  | succ c =>
    have hl : (window ⟨vec, i0 + 1, c + 1⟩).tail = (List.range c).map (fromTail ⟨vec, i0, c + 1⟩) := by
      unfold window
      rw [List.range_succ_eq_map, List.map_cons, List.tail_cons, List.map_map]
      exact List.map_congr_left fun x _ => fromTail_succ (by omega) x
    have hr : (window ⟨vec, i0, c + 1⟩).take c = (List.range c).map (fromTail ⟨vec, i0, c + 1⟩) := by
      unfold window
      rw [List.range_succ, List.map_append, List.take_left' (by simp)]
    rw [hl, Nat.add_sub_cancel, hr]

/-- **Writing the tail slot** puts the entry at the head of the window and keeps the
entries after it. -/
theorem window_set_tail (hc : 0 < c) (hcL : c ≤ vec.length) (e : Entry S) :
    window ⟨vec.set ((i0 + c - 0 - 1) % vec.length) e, i0, c⟩ = e :: (window ⟨vec, i0, c⟩).tail := by
  obtain ⟨c, rfl⟩ : ∃ c', c = c' + 1 := Nat.exists_eq_add_one.mpr hc
  have hL : 0 < vec.length := by omega
  rw [window_succ, window_succ, List.tail_cons]
  congr 1
  · simp [fromTail, List.getD_eq_getElem?_getD, Nat.mod_lt _ hL]
  · -- the slots of the older entries are less than a turn from the tail's
    unfold window
    refine List.map_congr_left fun x hx => ?_
    have hx : x < c := List.mem_range.mp hx
    have hne : (i0 + (c + 1) - 0 - 1) % vec.length ≠ (i0 + c - x - 1) % vec.length := by
      rw [show i0 + (c + 1) - 0 - 1 = (i0 + c - x - 1) + (x + 1) by omega]
      exact add_mod_ne (by omega) (by omega)
    simp only [fromTail, List.getD_eq_getElem?_getD, List.length_set, List.getElem?_set_ne hne]

end Ring

/-! ## What `RollbackTo`, `Push` and `Get` do to the window -/

section Ops

/-- The sizes the buffer has: empty before the first `Push`, then the cache size,
with the count within it. -/
def SizeOK (da : DAWindows) (rs : RecentStates S) : Prop :=
  rs.vec = [] ∧ rs.count = 0 ∨ rs.vec.length = da.cacheSize ∧ rs.count ≤ da.cacheSize

theorem rollbackCount_le (vec : List (Entry S)) (i0 : Nat) (h : UInt64) :
    ∀ c, rollbackCount height vec i0 h c ≤ c
  | 0 => le_rfl
  | c + 1 => by
    rw [rollbackCount]
    split
    · exact le_rfl
    · exact Nat.le_succ_of_le (rollbackCount_le vec i0 h c)

/-- **`RollbackTo(h)`** drops entries from the tail until one of height `h`. -/
theorem window_rollbackTo (rs : RecentStates S) (h : UInt64) :
    window (rollbackTo height rs h) = (window rs).dropWhile fun e => height e.state != h := by
  obtain ⟨vec, i0, c⟩ := rs
  simp only [rollbackTo]
  induction c with
  | zero => rfl
  | succ c ih =>
    rw [rollbackCount, window_succ]
    by_cases hh : height (fromTail ⟨vec, i0, c + 1⟩ 0).state = h
    · rw [if_pos hh, window_succ, List.dropWhile_cons_of_neg (by simp [hh])]
    · rw [if_neg hh, ih, List.dropWhile_cons_of_pos (by simpa using hh)]

theorem sizeOK_rollbackTo {da : DAWindows} {rs : RecentStates S} (hs : SizeOK da rs) (h : UInt64) :
    SizeOK da (rollbackTo height rs h) := by
  have hle := rollbackCount_le height rs.vec rs.i0 h rs.count
  rcases hs with ⟨hv, hc⟩ | ⟨hv, hc⟩
  · exact Or.inl ⟨hv, by simp only [rollbackTo]; omega⟩
  · exact Or.inr ⟨hv, by simp only [rollbackTo]; omega⟩

/-- `Push` on a buffer already sized: the count `RollbackTo(h - 1)` leaves, then a
free slot or, when there is none, the oldest one. -/
theorem push_of_ne_nil (da : DAWindows) {rs : RecentStates S} (hv : rs.vec ≠ []) (rowID : UInt64) (s : S) :
    push height da rs rowID s =
      if rollbackCount height rs.vec rs.i0 (height s - 1) rs.count < rs.vec.length then
        ⟨rs.vec.set ((rs.i0 + (rollbackCount height rs.vec rs.i0 (height s - 1) rs.count + 1) - 0 - 1) %
          rs.vec.length) ⟨rowID, s⟩, rs.i0, rollbackCount height rs.vec rs.i0 (height s - 1) rs.count + 1⟩
      else
        ⟨rs.vec.set ((rs.i0 + 1 + rollbackCount height rs.vec rs.i0 (height s - 1) rs.count - 0 - 1) %
          rs.vec.length) ⟨rowID, s⟩, rs.i0 + 1, rollbackCount height rs.vec rs.i0 (height s - 1) rs.count⟩ := by
  have hne : rs.vec.isEmpty = false := List.isEmpty_eq_false_iff.mpr hv
  unfold push rollbackTo
  simp only [hne, Bool.false_eq_true, ↓reduceIte]
  split <;> rfl

/-- **`Push(rowID, s)`** puts the entry at the tail, over what `RollbackTo(h - 1)`
leaves of the window, of which it keeps at most `size - 1` entries. -/
theorem window_push (da : DAWindows) (hcap : 0 < da.cacheSize) {rs : RecentStates S} (hs : SizeOK da rs)
    (rowID : UInt64) (s : S) :
    window (push height da rs rowID s) =
        ⟨rowID, s⟩ :: ((window rs).dropWhile fun e => height e.state != height s - 1).take (da.cacheSize - 1) ∧
      SizeOK da (push height da rs rowID s) := by
  obtain ⟨vec, i0, c⟩ := rs
  rcases hs with ⟨hv, hc⟩ | ⟨hv, hc⟩
  · -- the first push sizes the buffer and takes its first free slot
    simp only at hv hc
    subst hv hc
    have hp : push height da ⟨[], i0, 0⟩ rowID s =
        ⟨(List.replicate da.cacheSize default).set ((i0 + 1 - 0 - 1) % da.cacheSize) ⟨rowID, s⟩, i0, 1⟩ := by
      simp [push, hcap]
    have hset := @window_set_tail S _ (List.replicate da.cacheSize default) i0 1
      Nat.one_pos (by rw [List.length_replicate]; exact hcap) ⟨rowID, s⟩
    rw [List.length_replicate] at hset
    rw [hp, hset, window_succ, List.tail_cons]
    exact ⟨by simp [window], Or.inr ⟨by simp, hcap⟩⟩
  · -- later pushes roll back first, then take a free slot or the oldest one
    simp only at hv hc
    have hne : vec ≠ [] := List.ne_nil_of_length_pos (by omega)
    have hrb := window_rollbackTo height ⟨vec, i0, c⟩ (height s - 1)
    have hle := rollbackCount_le height vec i0 (height s - 1) c
    simp only [rollbackTo] at hrb
    generalize hc' : rollbackCount height vec i0 (height s - 1) c = c' at hrb hle
    rw [push_of_ne_nil height da hne]
    simp only [hc', hv]
    split
    · -- a free slot: the window grows by the new entry
      next hfree =>
      rw [← hv, window_set_tail (by omega) (by omega), hv, window_succ, List.tail_cons, ← hrb,
        List.take_of_length_le (by rw [length_window]; dsimp only; omega)]
      exact ⟨rfl, Or.inr ⟨by simp [hv], by dsimp only; omega⟩⟩
    · -- a full buffer: the slot of the oldest entry is taken
      next hfree =>
      have hfull : c' = da.cacheSize := by omega
      subst hfull
      rw [← hv, window_set_tail (by omega) le_rfl, window_shift, ← hrb, hv]
      exact ⟨rfl, Or.inr ⟨by simp [hv], le_rfl⟩⟩

/-- **`Get(h)` reads the window** at the distance of `h` below the tail's height. -/
theorem get_eq (rs : RecentStates S) (h : UInt64) :
    get height rs h = (window rs).head?.bind fun t =>
      if h ≤ height t.state ∧ (height t.state - h).toNat < (window rs).length
      then (window rs)[(height t.state - h).toNat]? else none := by
  obtain ⟨vec, i0, c⟩ := rs
  cases c with
  | zero => rfl
  | succ c =>
    rw [window_succ, List.head?_cons, ← window_succ, length_window]
    simp only [get, Nat.add_one_ne_zero, ↓reduceIte, gt_iff_lt, Option.bind_some]
    by_cases hle : h ≤ height (fromTail ⟨vec, i0, c + 1⟩ 0).state
    · have hlt : ¬height (fromTail ⟨vec, i0, c + 1⟩ 0).state < h := by
        rw [UInt64.lt_iff_toNat_lt]; rw [UInt64.le_iff_toNat_le] at hle; omega
      rw [if_neg hlt]
      by_cases hd : c + 1 ≤ (height (fromTail ⟨vec, i0, c + 1⟩ 0).state - h).toNat
      · rw [if_pos hd, if_neg fun hc => Nat.not_lt.mpr hd hc.2]
      · rw [if_neg hd, if_pos ⟨hle, Nat.lt_of_not_le hd⟩, getElem?_window (Nat.lt_of_not_le hd)]
    · have hlt : height (fromTail ⟨vec, i0, c + 1⟩ 0).state < h := by
        rw [UInt64.lt_iff_toNat_lt]; rw [UInt64.le_iff_toNat_le] at hle; omega
      rw [if_pos hlt, if_neg fun hc => hle hc.1]

end Ops

/-! ## The window along a run -/

section Run

/-- Heights go down by one from the tail, modulo `2 ^ 64`. -/
def Descends (W : List (Entry S)) : Prop :=
  W.IsChain fun a b => height b.state + 1 = height a.state

omit [Inhabited S] in
/-- In a descending window the entry `x` places from the tail is `x` below the
tail's height. -/
theorem Descends.height_getElem : ∀ {a : Entry S} {W : List (Entry S)}, Descends height (a :: W) →
    ∀ (x : Nat) (hx : x < (a :: W).length), height (a :: W)[x].state = height a.state - UInt64.ofNat x
  | a, W, _, 0, _ => by simp
  | a, [], _, x + 1, hx => absurd hx (by simp)
  | a, b :: W, hW, x + 1, hx => by
    have hab : height b.state + 1 = height a.state := (List.isChain_cons_cons.mp hW).1
    have ih := Descends.height_getElem (List.isChain_cons_cons.mp hW).2 x (by simpa using hx)
    simp only [List.getElem_cons_succ] at ih ⊢
    rw [ih, UInt64.ofNat_add, ← hab]
    grind

omit [Inhabited S] in
/-- Less than a turn down from its tail, a descending window has no entry one
above the tail. -/
theorem Descends.height_ne {t : Entry S} {T : List (Entry S)} (hD : Descends height (t :: T)) (j : Nat)
    (hj : j < (t :: T).length) (hj64 : j + 1 < 2 ^ 64) : height (t :: T)[j].state ≠ height t.state + 1 := by
  rw [Descends.height_getElem height hD j hj]
  -- `t - j = t + 1` would make `j + 1` a multiple of `2 ^ 64`
  intro h
  have := congrArg UInt64.toNat h
  simp only [UInt64.toNat_sub, UInt64.toNat_add, UInt64.toNat_ofNat', UInt64.toNat_one] at this
  have := (height t.state).toNat_lt
  omega

omit [Inhabited S] in
/-- What `RollbackTo(h - 1)` keeps of a window starts at height `h - 1`. -/
theorem height_head_dropWhile {W : List (Entry S)} {hs : UInt64}
    (hne : (W.dropWhile fun e => height e.state != hs - 1) ≠ []) :
    height ((W.dropWhile fun e => height e.state != hs - 1).head hne).state = hs - 1 := by
  simpa using List.head_dropWhile_not (fun e : Entry S => height e.state != hs - 1) hne

omit [Inhabited S] in
/-- Of a descending window, the first `k < 2 ^ 64` entries that `RollbackTo(hs - 1)`
keeps have another height than `hs`. -/
theorem height_ne_of_mem_take {W : List (Entry S)} (hW : Descends height W) {hs : UInt64} {k : Nat}
    (hk : k < 2 ^ 64) {e : Entry S} (he : e ∈ (W.dropWhile fun e => height e.state != hs - 1).take k) :
    height e.state ≠ hs := by
  have hne : (W.dropWhile fun e => height e.state != hs - 1) ≠ [] :=
    List.ne_nil_of_mem (List.mem_of_mem_take he)
  have hhead := height_head_dropWhile height hne
  have hD : Descends height (W.dropWhile fun e => height e.state != hs - 1) := hW.suffix (List.dropWhile_suffix _)
  obtain ⟨t, T, hTT⟩ := List.exists_cons_of_ne_nil hne
  simp only [hTT, List.head_cons] at he hhead hD
  obtain ⟨j, hj, rfl⟩ := List.mem_iff_getElem.mp he
  have hjT : j < (t :: T).length := by simp only [List.length_take] at hj; omega
  rw [List.getElem_take]
  have := Descends.height_ne height hD j hjT (by simp only [List.length_take] at hj; omega)
  rwa [hhead, UInt64.sub_add_cancel] at this

omit [Inhabited S] in
theorem descends_push {W : List (Entry S)} (hW : Descends height W) (p : Entry S) (k : Nat) :
    Descends height (p :: (W.dropWhile fun e => height e.state != height p.state - 1).take k) := by
  refine List.isChain_cons.mpr ⟨fun b hb => ?_, (hW.suffix (List.dropWhile_suffix _)).take k⟩
  -- the entry below the new one is the first that `RollbackTo` keeps
  have hne : (W.dropWhile fun e => height e.state != height p.state - 1) ≠ [] := by
    rintro h
    simp [h] at hb
  rw [List.head?_take] at hb
  split at hb
  · simp at hb
  · rw [List.head?_eq_some_head hne, Option.mem_def, Option.some.injEq] at hb
    rw [← hb, height_head_dropWhile height hne]
    grind

omit [Inhabited S] in
theorem lastPush_push (ops : List (Op S)) (rowID : UInt64) (s : S) (h : UInt64) :
    lastPush height (ops ++ [.push rowID s]) h = if height s = h then some ⟨rowID, s⟩ else lastPush height ops h := by
  unfold lastPush
  rw [List.filterMap_append, List.getLast?_append]
  split <;> simp [*]

omit [Inhabited S] in
theorem lastPush_rollbackTo (ops : List (Op S)) (h' h : UInt64) :
    lastPush height (ops ++ [.rollbackTo h']) h = lastPush height ops h := by
  simp [lastPush, List.filterMap_append]

/-- What holds of the cache along every run: its size, the heights of its window,
and that each entry of the window is the last one pushed with its height. -/
structure Inv (da : DAWindows) (ops : List (Op S)) (rs : RecentStates S) : Prop where
  size : SizeOK da rs
  descends : Descends height (window rs)
  last : ∀ e ∈ window rs, lastPush height ops (height e.state) = some e

variable {height}

theorem Inv.rollbackTo {da : DAWindows} {ops : List (Op S)} {rs : RecentStates S} (hinv : Inv height da ops rs)
    (h : UInt64) : Inv height da (ops ++ [.rollbackTo h]) (rollbackTo height rs h) := by
  have hsub : ∀ e ∈ window (RecentStates.rollbackTo height rs h), e ∈ window rs := fun e he => by
    rw [window_rollbackTo] at he
    exact (List.dropWhile_suffix _).subset he
  refine ⟨sizeOK_rollbackTo height hinv.size h, ?_, fun e he => ?_⟩
  · rw [window_rollbackTo]
    exact hinv.descends.suffix (List.dropWhile_suffix _)
  · rw [lastPush_rollbackTo]
    exact hinv.last e (hsub e he)

theorem Inv.push {da : DAWindows} (hcap : 0 < da.cacheSize) {ops : List (Op S)} {rs : RecentStates S}
    (hinv : Inv height da ops rs) (rowID : UInt64) (s : S) :
    Inv height da (ops ++ [.push rowID s]) (push height da rs rowID s) := by
  obtain ⟨hw, hsize⟩ := window_push height da hcap hinv.size rowID s
  have hk : da.cacheSize - 1 < 2 ^ 64 := by
    have := (max (da.windowWork + da.windowMedian1) da.windowMedian0 + 5).toNat_lt
    unfold DAWindows.cacheSize
    omega
  refine ⟨hsize, hw ▸ descends_push height hinv.descends ⟨rowID, s⟩ _, fun e he => ?_⟩
  rw [hw, List.mem_cons] at he
  rw [lastPush_push]
  rcases he with rfl | he
  · exact if_pos rfl
  · -- an older entry kept by `RollbackTo` has another height than the new one
    rw [if_neg (Ne.symm (height_ne_of_mem_take height hinv.descends hk he))]
    exact hinv.last e ((List.dropWhile_suffix _).subset (List.mem_of_mem_take he))

omit [Inhabited S] in
/-- The last push with height `h` has height `h`. -/
theorem height_of_lastPush {ops : List (Op S)} {h : UInt64} {e : Entry S}
    (he : lastPush height ops h = some e) : height e.state = h := by
  obtain ⟨op, -, hop⟩ := List.mem_filterMap.mp (List.mem_of_getLast? he)
  cases op with
  | push rowID s =>
    by_cases hs : height s = h
    · simp only [hs, if_pos] at hop
      cases hop
      exact hs
    · simp only [hs, if_false, reduceCtorEq] at hop
  | rollbackTo _ => cases hop

theorem length_window_le {da : DAWindows} {rs : RecentStates S} (hs : SizeOK da rs) :
    (window rs).length ≤ rs.vec.length := by
  rw [length_window]
  rcases hs with ⟨-, hc⟩ | ⟨hL, hc⟩ <;> omega

/-- Under `Inv`, `Get(h)` is the last push of height `h` whenever `h` lies within
the window counted down from the tail in 64-bit arithmetic, and `nullptr`
otherwise. -/
theorem Inv.get_eq_lastPush {da : DAWindows} {ops : List (Op S)} {rs : RecentStates S}
    (hinv : Inv height da ops rs) (h : UInt64) :
    get height rs h = (window rs).head?.bind fun t =>
      if h ≤ height t.state ∧ (height t.state - h).toNat < (window rs).length
      then lastPush height ops h else none := by
  have hD := hinv.descends
  have hlast := hinv.last
  rw [get_eq]
  cases hW : window rs with
  | nil => rfl
  | cons t T =>
    rw [hW] at hD hlast
    simp only [List.head?_cons, Option.bind_some]
    by_cases hin : h ≤ height t.state ∧ (height t.state - h).toNat < (t :: T).length
    · rw [if_pos hin, if_pos hin]
      -- the entry `t - h` places down from the tail has height `h`
      have hget := Descends.height_getElem height hD _ hin.2
      have hback : height t.state - (height t.state - h) = h := by grind
      rw [UInt64.ofNat_toNat, hback] at hget
      have hpush := hlast _ (List.getElem_mem hin.2)
      rw [hget] at hpush
      rw [List.getElem?_eq_getElem hin.2, hpush]
    · rw [if_neg hin, if_neg hin]

/-- **The run lemma**: every cache a run builds keeps `Inv`. -/
theorem inv_run {da : DAWindows} (hcap : 0 < da.cacheSize) (ops : List (Op S)) :
    Inv height da ops (run height da ops) := by
  induction ops using List.reverseRecOn with
  | nil => exact ⟨Or.inl ⟨rfl, rfl⟩, List.isChain_nil, fun e he => by simp [window, run] at he⟩
  | append_singleton ops op ih =>
    rw [run, List.foldl_append, List.foldl_cons, List.foldl_nil, ← run]
    cases op with
    | push rowID s => exact ih.push hcap rowID s
    | rollbackTo h => exact ih.rollbackTo h

/-- After a push the tail is the pushed entry. -/
theorem head?_window_run_push {da : DAWindows} (hcap : 0 < da.cacheSize) (ops : List (Op S)) (rowID : UInt64)
    (s : S) : (window (run height da (ops ++ [.push rowID s]))).head? = some ⟨rowID, s⟩ := by
  rw [run, List.foldl_append, List.foldl_cons, List.foldl_nil, ← run, step,
    (window_push height da hcap (inv_run hcap ops).size rowID s).1, List.head?_cons]

variable (height) in
theorem recent_states_window {da : DAWindows} (hcap : 0 < da.cacheSize) (ops : List (Op S)) :
    (window (run height da ops)).length ≤ (run height da ops).vec.length ∧
      Descends height (window (run height da ops)) ∧
      (∀ rowID s, ops.getLast? = some (.push rowID s) →
        (window (run height da ops)).head? = some ⟨rowID, s⟩) ∧
      (∀ h, get height (run height da ops) h =
        (window (run height da ops)).head?.bind fun t =>
          if h ≤ height t.state ∧ (height t.state - h).toNat < (window (run height da ops)).length
          then lastPush height ops h else none) ∧
      ∀ h e, get height (run height da ops) h = some e → height e.state = h := by
  have hinv : Inv height da ops (run height da ops) := inv_run hcap ops
  refine ⟨length_window_le hinv.size, hinv.descends, fun rowID s hops => ?_, hinv.get_eq_lastPush, fun h e he => ?_⟩
  · obtain ⟨ops', rfl⟩ := List.getLast?_eq_some_iff.mp hops
    exact head?_window_run_push hcap ops' rowID s
  · -- what `Get` returns is a last push of height `h`
    rw [hinv.get_eq_lastPush] at he
    obtain ⟨t, -, ht⟩ := Option.bind_eq_some_iff.mp he
    split_ifs at ht
    exact height_of_lastPush ht

/-- The default windows, `120`, `25` and `7`: three pushes and a rollback. -/
theorem recent_states_window_rules :
    let da : DAWindows := ⟨120, 25, 7⟩
    let ops : List (Op UInt64) := [.push 0 5, .push 1 6, .push 2 7, .rollbackTo 6]
    0 < da.cacheSize ∧
      ((window (run id da ops)).length ≤ (run id da ops).vec.length ∧
      Descends id (window (run id da ops)) ∧
      (∀ rowID s, ops.getLast? = some (.push rowID s) →
        (window (run id da ops)).head? = some ⟨rowID, s⟩) ∧
      (∀ h, get id (run id da ops) h =
        (window (run id da ops)).head?.bind fun t =>
          if h ≤ id t.state ∧ (id t.state - h).toNat < (window (run id da ops)).length
          then lastPush id ops h else none) ∧
      ∀ h e, get id (run id da ops) h = some e → id e.state = h) :=
  ⟨by decide, recent_states_window id (by decide) [.push 0 5, .push 1 6, .push 2 7, .rollbackTo 6]⟩

set_option maxRecDepth 2000 in
/-- Heights are 64-bit: after the push at `2 ^ 64 - 1` the next height is `0`, so
the window's heights, `0` then `2 ^ 64 - 1`, do not decrease, and `Get` misses
the cached entry at `2 ^ 64 - 1`. -/
theorem recent_states_wrap :
    (window (run id ⟨120, 25, 7⟩ [.push 0 18446744073709551615, .push 1 (0 : UInt64)])).map (·.state) =
        [0, 18446744073709551615] ∧
      get id (run id ⟨120, 25, 7⟩ [.push 0 18446744073709551615, .push 1 (0 : UInt64)])
        18446744073709551615 = none := by
  decide

end Run

end RecentStates

end Beam.NodeProcessor
