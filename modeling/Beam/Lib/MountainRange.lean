import Mathlib.Data.Nat.Basic
import Mathlib.Data.List.Basic
import Mathlib.Tactic.Ring

/-!
# Merkle mountain ranges

A Merkle mountain range over the leaves `f 0, f 1, …` with the hash `hJ` of two
hashes.  The tree of height `h` and index `x` is the perfect binary tree over the
leaves `x * 2 ^ h ..< (x + 1) * 2 ^ h` (`node`).  The first `n` leaves split into
perfect trees, one for each bit of `n`, the highest first: the peaks (`peaks`).
The root bags them from the right, each peak hashed with the bag of those after
it (`bag`, `root`).

`peaks` is written from the lowest bit up: of `n` trees of one height, the last
one is a peak when `n` is odd, and the others pair up one height higher.  The
two facts everything else rests on read it the other way:

* `peaks_top`: the first peak of a range aligned to its size is its largest
  power of two, and the rest are the peaks of what is left;
* `bag_peaks_succ`: the peaks of `n + 1` leaves bag to the peaks of `n` leaves
  bagged onto the new leaf, so appending a leaf merges the trailing peaks.

`cut` is the root of the leaves of one tree that lie below `n`; the inclusion
proof of a leaf climbs through the `cut`s of its ancestors (`cut_succ_odd`,
`cut_succ_even_*`) up to the root (`cut_eq_root`).
-/

namespace MountainRange

variable {α : Type} (hJ : α → α → α) (f : Nat → α)

/-- The perfect tree of height `h` over the leaves `x * 2 ^ h ..< (x + 1) * 2 ^ h`. -/
def node : Nat → Nat → α
  | 0, x => f x
  | h + 1, x => hJ (node h (2 * x)) (node h (2 * x + 1))

/-- The peaks of the `n` trees of height `h` from the index `x` on, highest first,
as (height, index): the last tree when `n` is odd, after the peaks of the others
paired one height up. -/
def peaks (h x n : Nat) : List (Nat × Nat) :=
  if n = 0 then []
  else peaks (h + 1) (x / 2) (n / 2) ++ if n % 2 = 1 then [(h, x + n - 1)] else []
termination_by n
decreasing_by omega

/-- Bagging from the right: each hash hashed with the bag of those after it,
the last one onto `acc` when there is one. -/
def bag (l : List α) (acc : Option α) : Option α :=
  l.foldr (fun p r => some (r.elim p (hJ p))) acc

/-- The root of the `m` leaves from `a` on: the bag of their peaks, `none` for none. -/
def rangeRoot (a m : Nat) : Option α :=
  bag hJ ((peaks 0 a m).map fun q => node hJ f q.1 q.2) none

/-- The root of the first `n` leaves. -/
def root (n : Nat) : Option α :=
  rangeRoot hJ f 0 n

/-- The root of the leaves of the tree `(h, x)` below `n`: the tree itself when
it is full, otherwise the root of its leaves below `n`. -/
def cut (n h x : Nat) : Option α :=
  if (x + 1) * 2 ^ h ≤ n then some (node hJ f h x) else rangeRoot hJ f (x * 2 ^ h) (n - x * 2 ^ h)

/-! ## Trees -/

section Node

variable {hJ f}

@[simp] theorem node_zero (x : Nat) : node hJ f 0 x = f x := rfl

theorem node_succ (h x : Nat) : node hJ f (h + 1) x = hJ (node hJ f h (2 * x)) (node hJ f h (2 * x + 1)) := rfl

/-- A right child and its left sibling make their parent. -/
theorem node_succ_of_odd {h x : Nat} (hodd : x % 2 = 1) :
    hJ (node hJ f h (x - 1)) (node hJ f h x) = node hJ f (h + 1) (x / 2) := by
  rw [node_succ, show 2 * (x / 2) = x - 1 by omega, show x - 1 + 1 = x by omega]

/-- A tree reads only its own leaves. -/
theorem node_congr {g : Nat → α} : ∀ {h x : Nat},
    (∀ i, x * 2 ^ h ≤ i → i < (x + 1) * 2 ^ h → f i = g i) → node hJ f h x = node hJ g h x
  | 0, x, hfg => by simpa using hfg x (by simp) (by simp)
  | h + 1, x, hfg => by
    -- the two halves of the leaves of `(h + 1, x)`
    have e1 : x * 2 ^ (h + 1) = 2 * x * 2 ^ h := by ring
    have e2 : (x + 1) * 2 ^ (h + 1) = (2 * x + 1) * 2 ^ h + 2 ^ h := by ring
    have e3 : (2 * x + 1) * 2 ^ h = 2 * x * 2 ^ h + 2 ^ h := by ring
    have e4 : (2 * x + 1 + 1) * 2 ^ h = (2 * x + 1) * 2 ^ h + 2 ^ h := by ring
    rw [node_succ, node_succ]
    congr 1
    · exact node_congr fun i hi1 hi2 => hfg i (by omega) (by omega)
    · exact node_congr fun i hi1 hi2 => hfg i (by omega) (by omega)

end Node

/-! ## Peaks -/

section Peaks

theorem peaks_eq (h x n : Nat) : peaks h x n =
    if n = 0 then []
    else peaks (h + 1) (x / 2) (n / 2) ++ if n % 2 = 1 then [(h, x + n - 1)] else [] := by
  rw [peaks]

@[simp] theorem peaks_zero (h x : Nat) : peaks h x 0 = [] := by
  rw [peaks_eq]; simp

/-- Every peak is a whole tree inside the range. -/
theorem peaks_full : ∀ (n h x : Nat), ∀ q ∈ peaks h x n, (q.2 + 1) * 2 ^ q.1 ≤ (x + n) * 2 ^ h := by
  intro n
  induction n using Nat.strong_induction_on with
  | _ n ih =>
    intro h x q hq
    rw [peaks_eq] at hq
    split at hq
    · simp at hq
    · rcases List.mem_append.mp hq with hq | hq
      · -- a peak of the trees paired one height up
        have := ih (n / 2) (by omega) (h + 1) (x / 2) q hq
        have hle : (x / 2 + n / 2) * 2 ^ (h + 1) ≤ (x + n) * 2 ^ h := by
          rw [show (x / 2 + n / 2) * 2 ^ (h + 1) = 2 * (x / 2 + n / 2) * 2 ^ h by ring]
          exact Nat.mul_le_mul_right _ (by omega)
        omega
      · split at hq
        · simp only [List.mem_singleton] at hq
          subst hq
          exact Nat.mul_le_mul_right _ (by omega)
        · simp at hq

/-- **The first peak is the largest power of two.**  In a range of `m` trees
aligned to `2 ^ (t + 1)` with `2 ^ t ≤ m < 2 ^ (t + 1)`, the first peak is the
tree of the first `2 ^ t`, and the rest are the peaks of what is left. -/
theorem peaks_top : ∀ (t k c m : Nat), 2 ^ t ≤ m → m < 2 ^ (t + 1) →
    peaks k (2 ^ (t + 1) * c) m = (k + t, 2 * c) :: peaks k (2 ^ (t + 1) * c + 2 ^ t) (m - 2 ^ t) := by
  intro t
  induction t with
  | zero =>
    intro k c m hlo hhi
    have hm : m = 1 := by simp at hlo hhi; omega
    subst hm
    rw [peaks_eq]
    simp
  | succ t ih =>
    intro k c m hlo hhi
    have hP : 2 ^ (t + 1) = 2 * 2 ^ t := by rw [Nat.pow_succ, Nat.mul_comm]
    have hP2 : 2 ^ (t + 1 + 1) = 2 * 2 ^ (t + 1) := by rw [Nat.pow_succ, Nat.mul_comm]
    have hA : 2 ^ (t + 1 + 1) * c = 2 * (2 ^ (t + 1) * c) := by rw [hP2, Nat.mul_assoc]
    -- one height up the range is aligned to `2 ^ (t + 1)`, with `2 ^ t ≤ m / 2 < 2 ^ (t + 1)`
    have hup := ih (k + 1) c (m / 2) (by omega) (by omega)
    rw [peaks_eq k _ m, if_neg (by omega), hA, show 2 * (2 ^ (t + 1) * c) / 2 = 2 ^ (t + 1) * c by omega,
      hup, Nat.add_right_comm k 1 t, List.cons_append]
    congr 1
    -- what is left of the range pairs up the same way
    by_cases hrest : m - 2 ^ (t + 1) = 0
    · have hm2 : m / 2 - 2 ^ t = 0 := by omega
      have hpar : m % 2 = 0 := by omega
      simp [hrest, hm2, hpar]
    · rw [peaks_eq k _ (m - 2 ^ (t + 1)), if_neg hrest,
        show (2 * (2 ^ (t + 1) * c) + 2 ^ (t + 1)) / 2 = 2 ^ (t + 1) * c + 2 ^ t by omega,
        show (m - 2 ^ (t + 1)) / 2 = m / 2 - 2 ^ t by omega,
        show (m - 2 ^ (t + 1)) % 2 = m % 2 by omega,
        show 2 * (2 ^ (t + 1) * c) + 2 ^ (t + 1) + (m - 2 ^ (t + 1)) - 1 = 2 * (2 ^ (t + 1) * c) + m - 1 by omega]

theorem peaks_even {h x n : Nat} (hn : n % 2 = 0) : peaks h x n = peaks (h + 1) (x / 2) (n / 2) := by
  rw [peaks_eq]
  split
  · next h0 => subst h0; simp
  · simp [hn]

theorem peaks_odd {h x n : Nat} (hn : n % 2 = 1) :
    peaks h x n = peaks (h + 1) (x / 2) (n / 2) ++ [(h, x + n - 1)] := by
  rw [peaks_eq, if_neg (by omega), if_pos hn]

/-- A range with leaves has a peak. -/
theorem peaks_ne_nil : ∀ {m : Nat} {h x : Nat}, 0 < m → peaks h x m ≠ [] := by
  intro m
  induction m using Nat.strong_induction_on with
  | _ m ih =>
    intro h x hm
    rcases Nat.mod_two_eq_zero_or_one m with hpar | hpar
    · rw [peaks_even hpar]
      exact ih (m / 2) (by omega) (by omega)
    · simp [peaks_odd hpar]

end Peaks

/-! ## Bagging -/

section Bag

variable {hJ f}

@[simp] theorem bag_nil (acc : Option α) : bag hJ [] acc = acc := rfl

@[simp] theorem bag_cons (p : α) (l : List α) (acc : Option α) :
    bag hJ (p :: l) acc = some ((bag hJ l acc).elim p (hJ p)) := rfl

theorem bag_append (l₁ l₂ : List α) (acc : Option α) : bag hJ (l₁ ++ l₂) acc = bag hJ l₁ (bag hJ l₂ acc) := by
  simp [bag, List.foldr_append]

theorem bag_some (l : List α) (a : α) : bag hJ l (some a) = some (l.foldr hJ a) := by
  induction l with
  | nil => rfl
  | cons p l ih => simp [ih]

theorem bag_isSome_of_ne_nil {l : List α} (hl : l ≠ []) (acc : Option α) : (bag hJ l acc).isSome := by
  cases l with
  | nil => exact absurd rfl hl
  | cons => rfl

/-- **Appending a leaf.**  The peaks of `m + 1` trees bag to the peaks of the
first `m` bagged onto the last tree: where the last trees merge into one peak,
the merged peak is that same right-nested hash. -/
theorem bag_peaks_succ : ∀ (m h : Nat),
    bag hJ ((peaks h 0 (m + 1)).map fun q => node hJ f q.1 q.2) none =
      bag hJ ((peaks h 0 m).map fun q => node hJ f q.1 q.2) (some (node hJ f h m)) := by
  intro m
  induction m using Nat.strong_induction_on with
  | _ m ih =>
    intro h
    rcases Nat.mod_two_eq_zero_or_one m with hm | hm
    · -- the new tree is a peak of its own
      rw [peaks_odd (by omega), peaks_even hm, List.map_append, bag_append,
        show 0 + (m + 1) - 1 = m by omega, show (m + 1) / 2 = m / 2 by omega]
      rfl
    · -- the new tree merges with the last peak, one height up
      rw [peaks_even (by omega), show (m + 1) / 2 = m / 2 + 1 by omega, ih (m / 2) (by omega) (h + 1),
        peaks_odd hm, List.map_append, bag_append, Nat.zero_div]
      simp only [List.map_cons, List.map_nil, bag_cons, bag_nil, Option.elim_some, node_succ]
      rw [show 2 * (m / 2) + 1 = m by omega, show 2 * (m / 2) = 0 + m - 1 by omega]

/-- The peaks of a range read only the leaves of the range. -/
theorem nodes_peaks_congr {g : Nat → α} {a m : Nat} (hfg : ∀ i < a + m, f i = g i) :
    ((peaks 0 a m).map fun q => node hJ f q.1 q.2) = (peaks 0 a m).map fun q => node hJ g q.1 q.2 := by
  refine List.map_congr_left fun q hq => node_congr fun i _ hi => hfg i ?_
  have := peaks_full m 0 a q hq
  simp only [Nat.pow_zero, Nat.mul_one] at this
  omega

/-- The root after appending the leaf `f n`: the peaks of the first `n` leaves
bagged onto it. -/
theorem root_succ (n : Nat) :
    root hJ f (n + 1) = some (((peaks 0 0 n).map fun q => node hJ f q.1 q.2).foldr hJ (f n)) := by
  rw [root, rangeRoot, bag_peaks_succ, bag_some, node_zero]

end Bag

/-! ## Cuts -/

section Cut

variable {hJ f}

@[simp] theorem rangeRoot_zero (a : Nat) : rangeRoot hJ f a 0 = none := by
  simp [rangeRoot]

theorem rangeRoot_isSome {a m : Nat} (hm : 0 < m) : (rangeRoot hJ f a m).isSome := by
  apply bag_isSome_of_ne_nil
  simpa using peaks_ne_nil hm

/-- The first peak of a range aligned to its size, from `peaks_top`. -/
theorem rangeRoot_top {t c m : Nat} (hlo : 2 ^ t ≤ m) (hhi : m < 2 ^ (t + 1)) :
    rangeRoot hJ f (2 ^ (t + 1) * c) m =
      some ((rangeRoot hJ f (2 ^ (t + 1) * c + 2 ^ t) (m - 2 ^ t)).elim (node hJ f t (2 * c))
        (hJ (node hJ f t (2 * c)))) := by
  rw [rangeRoot, peaks_top t 0 c m hlo hhi]
  simp [rangeRoot]

theorem cut_of_full {n h x : Nat} (hfull : (x + 1) * 2 ^ h ≤ n) : cut hJ f n h x = some (node hJ f h x) := by
  rw [cut, if_pos hfull]

theorem cut_zero {n i : Nat} (hi : i < n) : cut hJ f n 0 i = some (f i) := by
  rw [cut_of_full (by simp; omega), node_zero]

/-- Above the highest leaf, the cut of the first tree is the root. -/
theorem cut_eq_root {n h : Nat} (hn : n < 2 ^ h) : cut hJ f n h 0 = root hJ f n := by
  rw [cut, if_neg (by omega)]
  simp [root]

/-- A right child: its left sibling is full, and is hashed on its left. -/
theorem cut_succ_odd {n h i : Nat} (hodd : i % 2 = 1) (hin : i * 2 ^ h < n) :
    cut hJ f n (h + 1) (i / 2) = (cut hJ f n h i).map (hJ (node hJ f h (i - 1))) := by
  obtain ⟨c, rfl⟩ : ∃ c, i = 2 * c + 1 := ⟨i / 2, by omega⟩
  have hc : (2 * c + 1) / 2 = c := by omega
  have hP : 2 ^ (h + 1) = 2 * 2 ^ h := by rw [Nat.pow_succ, Nat.mul_comm]
  have e1 : (c + 1) * 2 ^ (h + 1) = (2 * c + 1 + 1) * 2 ^ h := by ring
  have e2 : c * 2 ^ (h + 1) = 2 ^ (h + 1) * c := Nat.mul_comm _ _
  have e3 : (2 * c + 1) * 2 ^ h = 2 ^ (h + 1) * c + 2 ^ h := by ring
  have e4 : (2 * c + 1 + 1) * 2 ^ h = 2 ^ (h + 1) * c + 2 * 2 ^ h := by ring
  rw [hc, show 2 * c + 1 - 1 = 2 * c by omega]
  by_cases hfull : (2 * c + 1 + 1) * 2 ^ h ≤ n
  · rw [cut_of_full (by omega), cut_of_full hfull, node_succ]
    rfl
  · -- both cuts are partial; the parent's first peak is the left sibling
    rw [cut, if_neg (by omega), cut, if_neg hfull, e2, rangeRoot_top (by omega) (by omega), e3, Nat.sub_sub]
    have hsome : (rangeRoot hJ f (2 ^ (h + 1) * c + 2 ^ h) (n - (2 ^ (h + 1) * c + 2 ^ h))).isSome :=
      rangeRoot_isSome (by omega)
    obtain ⟨r, hr⟩ := Option.isSome_iff_exists.mp hsome
    rw [hr]
    rfl

/-- A left child whose sibling starts at or past `n`: the parent's leaves below
`n` are the child's. -/
theorem cut_succ_even_of_le {n h i : Nat} (heven : i % 2 = 0) (hle : n ≤ (i + 1) * 2 ^ h) :
    cut hJ f n (h + 1) (i / 2) = cut hJ f n h i := by
  obtain ⟨c, rfl⟩ : ∃ c, i = 2 * c := ⟨i / 2, by omega⟩
  have hP : 2 ^ (h + 1) = 2 * 2 ^ h := by rw [Nat.pow_succ, Nat.mul_comm]
  have hp : 0 < 2 ^ h := Nat.two_pow_pos h
  have e1 : (c + 1) * 2 ^ (h + 1) = (2 * c + 1) * 2 ^ h + 2 ^ h := by ring
  have e2 : c * 2 ^ (h + 1) = 2 ^ (h + 1) * c := Nat.mul_comm _ _
  have e3 : (2 * c + 1) * 2 ^ h = 2 ^ (h + 1) * c + 2 ^ h := by ring
  have e4 : 2 * c * 2 ^ h = 2 ^ (h + 1) * c := by ring
  rw [show 2 * c / 2 = c by omega, cut, if_neg (by omega), e2]
  by_cases hfull : (2 * c + 1) * 2 ^ h ≤ n
  · -- the child is full and is the parent's only peak
    rw [cut_of_full hfull, rangeRoot_top (by omega) (by omega), show n - 2 ^ (h + 1) * c - 2 ^ h = 0 by omega,
      rangeRoot_zero]
    rfl
  · rw [cut, if_neg hfull, e4]

/-- A left child whose sibling is full. -/
theorem cut_succ_even_full {n h i : Nat} (heven : i % 2 = 0) (hfull : (i + 2) * 2 ^ h ≤ n) :
    cut hJ f n (h + 1) (i / 2) = some (hJ (node hJ f h i) (node hJ f h (i + 1))) := by
  obtain ⟨c, rfl⟩ : ∃ c, i = 2 * c := ⟨i / 2, by omega⟩
  have e1 : (2 * c / 2 + 1) * 2 ^ (h + 1) = (2 * c + 2) * 2 ^ h := by
    rw [show 2 * c / 2 = c by omega]; ring
  rw [cut_of_full (by omega), node_succ, show 2 * c / 2 = c by omega]

/-- A left child whose sibling is partial: the child is full, and the sibling's
leaves below `n` bag to the root of the range after the child. -/
theorem cut_succ_even_short {n h i : Nat} (heven : i % 2 = 0) (hlo : (i + 1) * 2 ^ h < n)
    (hhi : n < (i + 2) * 2 ^ h) :
    cut hJ f n (h + 1) (i / 2) = (rangeRoot hJ f ((i + 1) * 2 ^ h) (n - (i + 1) * 2 ^ h)).map (hJ (node hJ f h i)) := by
  obtain ⟨c, rfl⟩ : ∃ c, i = 2 * c := ⟨i / 2, by omega⟩
  have hP : 2 ^ (h + 1) = 2 * 2 ^ h := by rw [Nat.pow_succ, Nat.mul_comm]
  have e1 : (c + 1) * 2 ^ (h + 1) = (2 * c + 2) * 2 ^ h := by ring
  have e2 : c * 2 ^ (h + 1) = 2 ^ (h + 1) * c := Nat.mul_comm _ _
  have e3 : (2 * c + 1) * 2 ^ h = 2 ^ (h + 1) * c + 2 ^ h := by ring
  have e4 : (2 * c + 2) * 2 ^ h = 2 ^ (h + 1) * c + 2 * 2 ^ h := by ring
  rw [show 2 * c / 2 = c by omega, cut, if_neg (by omega), e2, rangeRoot_top (by omega) (by omega), e3,
    Nat.sub_sub]
  have hsome : (rangeRoot hJ f (2 ^ (h + 1) * c + 2 ^ h) (n - (2 ^ (h + 1) * c + 2 ^ h))).isSome :=
    rangeRoot_isSome (by omega)
  obtain ⟨r, hr⟩ := Option.isSome_iff_exists.mp hsome
  rw [hr]
  rfl

end Cut

end MountainRange
