import Beam.Merkle.Stores
import Beam.Merkle.DistributedMmr
import Mathlib.Data.Set.Function
import Mathlib.Data.Nat.ModEq

/-!
# `Merkle::FlatMmr` and `Merkle::FixedMmr`

`src/core/merkle.cpp`.  `FlatMmr::Pos2Idx` lays the trees out "diagonally":
in the order the appends complete them, all the trees a leaf completes right
after the trees of the leaves before it.  Over unbounded naturals
(`exactTotal`, `exactIdx`), `get_TotalHashes(n)` is the number of trees of `n`
leaves, `total n = n + n / 2 + n / 4 + ...`; the leaf `e` completes
`getHeight e + 1` trees (`total_succ`), and the tree `(h, x)` that ends at the
leaf `e` sits at `total e + h` (`exactIdx_eq`).  So the exact index is one to
one on the trees of at most `nTotal` leaves, and below their number
(`exactIdx_inj`, `exactIdx_lt_total`).

The source computes both in `uint64_t`, so its values are the exact ones mod
`2 ^ 64` (`pos2Idx_eq_mod`, `getTotalHashes_eq_mod`).  Up to `2 ^ 63` leaves
nothing wraps, and `Pos2Idx` numbers the stored positions without gap or
overlap (`pos2Idx_bijOn`); at `2 ^ 63 + 2` leaves two leaves share the index `0`,
and `get_TotalHashes(2 ^ 63 + 1)` is `0` (`pos2Idx_wraps`).

`FixedMmr` keeps the hashes in a vector of that size, so up to `2 ^ 63` leaves
it is a table (`tableLike_store`).
-/

namespace Beam.Merkle

open MountainRange DistributedMmr

variable {α : Type}

/-- The loop `for (val = X; val >>= 1; ) ret += val` of `FlatMmr::Pos2Idx`, the
same as `while (nCount >>= 1) ret += nCount` of `FlatMmr::get_TotalHashes`, in
`uint64_t`: each addition wraps. -/
def addShifts64 (val ret : Nat) : Nat :=
  let val := val >>> 1
  if val = 0 then ret else addShifts64 val ((ret + val) % 2 ^ 64)
termination_by val
decreasing_by rw [shiftRight_one] at *; omega

namespace FlatMmr

/-- `FlatMmr::Pos2Idx(pos, bStoreH0)`: `nStep = (c << H) - 1` and
`(X + 1) * nStep - 1`, each in `uint64_t`, then the loop. -/
def pos2Idx (h x : Nat) (bStoreH0 : Bool) : Nat :=
  let nStep := (((if bStoreH0 then 2 else 1) <<< h) % 2 ^ 64 + (2 ^ 64 - 1)) % 2 ^ 64
  addShifts64 x (((x + 1) % 2 ^ 64 * nStep % 2 ^ 64 + (2 ^ 64 - 1)) % 2 ^ 64)

/-- `FlatMmr::get_TotalHashes(nCount, bStoreH0)`. -/
def getTotalHashes (nCount : Nat) (bStoreH0 : Bool) : Nat :=
  addShifts64 nCount (if bStoreH0 then nCount else 0)

end FlatMmr

/-- The loop of `Pos2Idx` and `get_TotalHashes` over unbounded naturals. -/
def addShifts (val ret : Nat) : Nat :=
  let val := val >>> 1
  if val = 0 then ret else addShifts val (ret + val)
termination_by val
decreasing_by rw [shiftRight_one] at *; omega

/-- `Pos2Idx` over unbounded naturals. -/
def exactIdx (h x : Nat) (bStoreH0 : Bool) : Nat :=
  addShifts x ((x + 1) * (((if bStoreH0 then 2 else 1) <<< h) - 1) - 1)

/-- `get_TotalHashes` over unbounded naturals. -/
def exactTotal (nCount : Nat) (bStoreH0 : Bool) : Nat :=
  addShifts nCount (if bStoreH0 then nCount else 0)

/-! ## The number of trees -/

theorem addShifts_step (val ret : Nat) :
    addShifts val ret = if val / 2 = 0 then ret else addShifts (val / 2) (ret + val / 2) := by
  rw [addShifts, shiftRight_one]

theorem addShifts_eq (val ret : Nat) : addShifts val ret = ret + addShifts val 0 := by
  induction val using Nat.strong_induction_on generalizing ret with
  | _ val ih =>
    rw [addShifts_step, addShifts_step val 0]
    split
    · rfl
    · next hne =>
      rw [ih _ (by omega) (ret + _), ih _ (by omega) (0 + _)]
      omega

/-- The number of trees of `n` leaves. -/
abbrev total (n : Nat) : Nat := exactTotal n true

theorem addShifts_zero (n : Nat) : addShifts n 0 = total (n / 2) := by
  rw [total, exactTotal, if_pos rfl, addShifts_eq, addShifts_step]
  split
  · next h0 => rw [h0, addShifts_step, if_pos rfl]
  · next hne =>
    rw [addShifts_eq, addShifts_eq (n / 2) (n / 2)]
    omega

theorem total_eq (n : Nat) : total n = n + total (n / 2) := by
  rw [total, exactTotal, if_pos rfl, addShifts_eq, addShifts_zero]

/-- **A leaf completes `getHeight e + 1` trees**: itself and those it closes. -/
theorem total_succ : ∀ e, total (e + 1) = total e + getHeight e + 1 := by
  intro e
  induction e using Nat.strong_induction_on with
  | _ e ih =>
    rw [total_eq (e + 1), total_eq e, getHeight_eq]
    rcases Nat.mod_two_eq_zero_or_one e with hpar | hpar
    · -- an even leaf closes no tree
      rw [if_neg (by omega), show (e + 1) / 2 = e / 2 by omega]
      omega
    · -- an odd leaf closes the trees its half closes, and one more
      rw [if_pos hpar, show (e + 1) / 2 = e / 2 + 1 by omega, ih (e / 2) (by omega)]
      omega

theorem total_mono {m n : Nat} (h : m ≤ n) : total m ≤ total n := by
  induction h with
  | refl => exact le_rfl
  | step _ ih => rw [total_succ]; omega

/-! ## `Pos2Idx` -/

/-- `Pos2Idx` of a tree is that of its right child, plus one. -/
theorem exactIdx_succ (h x : Nat) : exactIdx (h + 1) x true = exactIdx h (2 * x + 1) true + 1 := by
  have hp := Nat.two_pow_pos h
  have h2x : addShifts (2 * x + 1) 0 = x + addShifts x 0 := by
    rw [addShifts_zero, show (2 * x + 1) / 2 = x by omega, total_eq, addShifts_zero]
  simp only [exactIdx, ↓reduceIte, Nat.shiftLeft_eq]
  rw [addShifts_eq, addShifts_eq (2 * x + 1), h2x]
  -- the steps `2 ^ (h + 2) - 1` and `2 ^ (h + 1) - 1` of the two heights
  have e1 : (x + 1) * (2 * 2 ^ (h + 1) - 1) + (x + 1) = 4 * ((x + 1) * 2 ^ h) := by
    rw [Nat.pow_succ, Nat.mul_sub_one, Nat.sub_add_cancel (Nat.le_mul_of_pos_right _ (by omega))]
    ring
  have e2 : (2 * x + 1 + 1) * (2 * 2 ^ h - 1) + (2 * x + 2) = 4 * ((x + 1) * 2 ^ h) := by
    rw [Nat.mul_sub_one, Nat.sub_add_cancel (Nat.le_mul_of_pos_right _ (by omega))]
    ring
  have e3 : x + 1 ≤ (x + 1) * 2 ^ h := Nat.le_mul_of_pos_right _ hp
  omega

/-- **The diagonal layout**: the tree `(h, x)` that ends at the leaf `e` sits
right after the trees of the leaves before `e` and the `h` trees below it. -/
theorem exactIdx_eq : ∀ (h x : Nat), exactIdx h x true = total ((x + 1) * 2 ^ h - 1) + h
  | 0, x => by
    simp only [exactIdx, ↓reduceIte, Nat.shiftLeft_eq, Nat.pow_zero, Nat.mul_one]
    rw [addShifts_eq, addShifts_zero, show x + 1 - 1 = x by omega, total_eq x]
    omega
  | h + 1, x => by
    rw [exactIdx_succ, exactIdx_eq h (2 * x + 1), Nat.pow_succ,
      show (2 * x + 1 + 1) * 2 ^ h = (x + 1) * (2 ^ h * 2) by ring, Nat.add_assoc]

theorem le_getHeight_of_end {h x : Nat} : h ≤ getHeight ((x + 1) * 2 ^ h - 1) := by
  have hpos : 1 ≤ (x + 1) * 2 ^ h := Nat.mul_pos (Nat.succ_pos x) (Nat.two_pow_pos h)
  rw [le_getHeight_iff, Nat.sub_add_cancel hpos, Nat.mul_mod_left]

/-- The trees that end at a leaf before `e` come before those that end at `e`. -/
theorem exactIdx_lt_total {h x n : Nat} (hx : (x + 1) * 2 ^ h ≤ n) : exactIdx h x true < total n := by
  have hpos : 1 ≤ (x + 1) * 2 ^ h := Nat.mul_pos (Nat.succ_pos x) (Nat.two_pow_pos h)
  have hle := total_mono (show (x + 1) * 2 ^ h - 1 + 1 ≤ n by omega)
  rw [exactIdx_eq, ← Nat.lt_succ_iff] at *
  rw [total_succ] at hle
  have := @le_getHeight_of_end h x
  omega

/-- **`Pos2Idx` is one to one.** -/
theorem exactIdx_inj {h x h' y : Nat} (heq : exactIdx h x true = exactIdx h' y true) :
    h = h' ∧ x = y := by
  have hx := @le_getHeight_of_end h x
  have hy := @le_getHeight_of_end h' y
  rw [exactIdx_eq, exactIdx_eq] at heq
  -- the trees of one leaf sit between those of the leaves around it
  have hend : (x + 1) * 2 ^ h - 1 = (y + 1) * 2 ^ h' - 1 := by
    by_contra hne
    rcases Nat.lt_or_gt_of_ne hne with hlt | hlt
    · have := total_mono (Nat.succ_le_of_lt hlt)
      rw [total_succ] at this
      omega
    · have := total_mono (Nat.succ_le_of_lt hlt)
      rw [total_succ] at this
      omega
  rw [hend] at heq
  have hh : h = h' := by omega
  subst hh
  have hpx : 1 ≤ (x + 1) * 2 ^ h := Nat.mul_pos (Nat.succ_pos x) (Nat.two_pow_pos h)
  have hpy : 1 ≤ (y + 1) * 2 ^ h := Nat.mul_pos (Nat.succ_pos y) (Nat.two_pow_pos h)
  have := Nat.eq_of_mul_eq_mul_right (Nat.two_pow_pos h) (show (x + 1) * 2 ^ h = (y + 1) * 2 ^ h by omega)
  exact ⟨rfl, by omega⟩

/-! ## The positions of `n` leaves -/

namespace FlatMmr

/-- The positions an MMR of `n` leaves stores: `X < n >> H`, and `H ≥ 1` unless
`bStoreH0`. -/
def stored (n : Nat) (bStoreH0 : Bool) : Set (Nat × Nat) :=
  {p | p.2 < n >>> p.1 ∧ (bStoreH0 = true ∨ 0 < p.1)}

end FlatMmr

/-- A position is stored when its tree ends at or before the last leaf. -/
theorem lt_shiftRight_iff {x n h : Nat} : x < n >>> h ↔ (x + 1) * 2 ^ h ≤ n := by
  rw [Nat.shiftRight_eq_div_pow, Nat.lt_iff_add_one_le, Nat.le_div_iff_mul_le (Nat.two_pow_pos h)]

theorem total_zero : total 0 = 0 := by
  rw [total, exactTotal, if_pos rfl, addShifts_step, if_pos rfl]

/-- Without the leaves, a tree of height `H + 1` sits where the tree of height `H`
of the same `X` sits with them. -/
theorem exactIdx_succ_false (h x : Nat) : exactIdx (h + 1) x false = exactIdx h x true := by
  simp only [exactIdx, Bool.false_eq_true, ↓reduceIte, Nat.shiftLeft_eq, Nat.one_mul, Nat.pow_succ,
    Nat.mul_comm 2]

theorem exactTotal_false (n : Nat) : exactTotal n false = total (n / 2) := by
  rw [exactTotal, if_neg Bool.false_ne_true, addShifts_zero]

theorem stored_false_iff {n h x : Nat} : (h + 1, x) ∈ FlatMmr.stored n false ↔ (h, x) ∈ FlatMmr.stored (n / 2) true := by
  simp only [FlatMmr.stored, Set.mem_ofPred_eq, lt_shiftRight_iff, Nat.succ_pos, or_true, true_or, and_true,
    Nat.le_div_iff_mul_le (show 0 < 2 by decide), Nat.pow_succ, Nat.mul_assoc]

section Stored

variable (n : Nat)

theorem mapsTo_exactIdx (b : Bool) :
    Set.MapsTo (fun p : Nat × Nat => exactIdx p.1 p.2 b) (FlatMmr.stored n b)
      (Set.Iio (exactTotal n b)) := by
  rintro ⟨h, x⟩ ⟨hx, hb⟩
  cases b with
  | true => exact exactIdx_lt_total (lt_shiftRight_iff.mp hx)
  | false =>
    obtain ⟨h, rfl⟩ : ∃ h', h = h' + 1 := Nat.exists_eq_add_one.mpr (hb.resolve_left Bool.false_ne_true)
    obtain ⟨hx', -⟩ := stored_false_iff.mp ⟨hx, hb⟩
    show exactIdx (h + 1) x false < exactTotal n false
    rw [exactIdx_succ_false, exactTotal_false]
    exact exactIdx_lt_total (lt_shiftRight_iff.mp hx')

end Stored

/-! ## In `uint64_t` -/

theorem addShifts64_step (val ret : Nat) :
    addShifts64 val ret = if val / 2 = 0 then ret else addShifts64 (val / 2) ((ret + val / 2) % 2 ^ 64) := by
  rw [addShifts64, shiftRight_one]

/-- The wrapped loop gives the exact sum, mod `2 ^ 64`. -/
theorem addShifts64_mod (val : Nat) : ∀ ret, addShifts64 val ret % 2 ^ 64 = addShifts val ret % 2 ^ 64 := by
  induction val using Nat.strong_induction_on with
  | _ val ih =>
    intro ret
    rw [addShifts64_step, addShifts_step]
    split
    · rfl
    · rw [ih _ (by omega), addShifts_eq, addShifts_eq (val / 2) (ret + val / 2), Nat.mod_add_mod]

theorem addShifts64_lt {ret : Nat} (hret : ret < 2 ^ 64) (val : Nat) : addShifts64 val ret < 2 ^ 64 := by
  induction val using Nat.strong_induction_on generalizing ret with
  | _ val ih =>
    rw [addShifts64_step]
    split
    · exact hret
    · exact ih _ (by omega) (Nat.mod_lt _ (by decide))

theorem addShifts64_eq {ret : Nat} (hret : ret < 2 ^ 64) (val : Nat) :
    addShifts64 val ret = addShifts val ret % 2 ^ 64 := by
  rw [← addShifts64_mod, Nat.mod_eq_of_lt (addShifts64_lt hret val)]

/-- `(X + 1) * ((c << H) - 1) - 1`, each step in `uint64_t`, is the exact value
mod `2 ^ 64` once `c << H ≥ 2`: neither subtraction goes below zero there. -/
theorem wrapped_start {c x : Nat} (hc : 2 ≤ c) :
    ((x + 1) % 2 ^ 64 * ((c % 2 ^ 64 + (2 ^ 64 - 1)) % 2 ^ 64) % 2 ^ 64 + (2 ^ 64 - 1)) % 2 ^ 64 =
      ((x + 1) * (c - 1) - 1) % 2 ^ 64 := by
  have hstep : (c % 2 ^ 64 + (2 ^ 64 - 1)) % 2 ^ 64 ≡ c - 1 [MOD 2 ^ 64] :=
    calc (c % 2 ^ 64 + (2 ^ 64 - 1)) % 2 ^ 64 ≡ c + (2 ^ 64 - 1) [MOD 2 ^ 64] :=
          (Nat.mod_modEq _ _).trans ((Nat.mod_modEq c _).add_right _)
      _ = c - 1 + 2 ^ 64 := by omega
      _ ≡ c - 1 [MOD 2 ^ 64] := Nat.add_modEq_right
  have hprod : (x + 1) % 2 ^ 64 * ((c % 2 ^ 64 + (2 ^ 64 - 1)) % 2 ^ 64) % 2 ^ 64 ≡ (x + 1) * (c - 1) [MOD 2 ^ 64] :=
    (Nat.mod_modEq _ _).trans ((Nat.mod_modEq _ _).mul hstep)
  have hpos : 1 ≤ (x + 1) * (c - 1) := Nat.mul_pos (Nat.succ_pos x) (by omega)
  calc (x + 1) % 2 ^ 64 * ((c % 2 ^ 64 + (2 ^ 64 - 1)) % 2 ^ 64) % 2 ^ 64 + (2 ^ 64 - 1)
        ≡ (x + 1) * (c - 1) + (2 ^ 64 - 1) [MOD 2 ^ 64] := hprod.add_right _
    _ = (x + 1) * (c - 1) - 1 + 2 ^ 64 := by omega
    _ ≡ (x + 1) * (c - 1) - 1 [MOD 2 ^ 64] := Nat.add_modEq_right

/-- **`Pos2Idx` is the exact index mod `2 ^ 64`**, at every position its assert
lets through. -/
theorem pos2Idx_eq_mod {h x : Nat} {bStoreH0 : Bool} (hb : bStoreH0 = true ∨ 0 < h) :
    FlatMmr.pos2Idx h x bStoreH0 = exactIdx h x bStoreH0 % 2 ^ 64 := by
  have hc : 2 ≤ (if bStoreH0 = true then 2 else 1) <<< h := by
    rw [Nat.shiftLeft_eq]
    rcases hb with rfl | hh
    · simpa using Nat.one_le_two_pow
    · split
      · simpa using Nat.one_le_two_pow
      · simpa using Nat.pow_le_pow_right (show 0 < 2 by decide) hh
  simp only [FlatMmr.pos2Idx, exactIdx]
  rw [addShifts64_eq (Nat.mod_lt _ (by decide))]
  conv_lhs => rw [addShifts_eq]
  conv_rhs => rw [addShifts_eq]
  rw [wrapped_start hc, Nat.mod_add_mod]

theorem getTotalHashes_eq_mod {nCount : Nat} (hn : nCount < 2 ^ 64) (bStoreH0 : Bool) :
    FlatMmr.getTotalHashes nCount bStoreH0 = exactTotal nCount bStoreH0 % 2 ^ 64 := by
  rw [FlatMmr.getTotalHashes, exactTotal]
  exact addShifts64_eq (by split <;> omega) nCount

/-- Fewer trees than twice the leaves. -/
theorem total_lt_two_mul : ∀ {n : Nat}, 0 < n → total n < 2 * n := by
  intro n
  induction n using Nat.strong_induction_on with
  | _ n ih =>
    intro hn
    rw [total_eq]
    rcases Nat.eq_zero_or_pos (n / 2) with h0 | hpos
    · rw [h0, total_zero]
      omega
    · have := ih (n / 2) (by omega) hpos
      omega

theorem exactTotal_lt {n : Nat} (hn : n ≤ 2 ^ 63) (b : Bool) : exactTotal n b < 2 ^ 64 := by
  have hle : ∀ m, m ≤ 2 ^ 63 → total m < 2 ^ 64 := fun m hm => by
    rcases Nat.eq_zero_or_pos m with rfl | hpos
    · rw [total_zero]
      decide
    · have := total_lt_two_mul hpos
      omega
  cases b with
  | true => exact hle n hn
  | false => rw [exactTotal_false]; exact hle _ (by omega)

/-- Up to `2 ^ 63` leaves `get_TotalHashes` does not wrap. -/
theorem getTotalHashes_eq {n : Nat} (hn : n ≤ 2 ^ 63) (b : Bool) : FlatMmr.getTotalHashes n b = exactTotal n b := by
  rw [getTotalHashes_eq_mod (by omega), Nat.mod_eq_of_lt (exactTotal_lt hn b)]

/-- Up to `2 ^ 63` leaves `Pos2Idx` of a stored position does not wrap. -/
theorem pos2Idx_eq_exactIdx {n : Nat} (hn : n ≤ 2 ^ 63) {b : Bool} {p : Nat × Nat} (hp : p ∈ FlatMmr.stored n b) :
    FlatMmr.pos2Idx p.1 p.2 b = exactIdx p.1 p.2 b := by
  rw [pos2Idx_eq_mod hp.2, Nat.mod_eq_of_lt ((mapsTo_exactIdx n b hp).trans (exactTotal_lt hn b))]

theorem pos2Idx_of_le {h x cap : Nat} (hcap : cap ≤ 2 ^ 63) (hx : (x + 1) * 2 ^ h ≤ cap) :
    FlatMmr.pos2Idx h x true = exactIdx h x true :=
  pos2Idx_eq_exactIdx hcap (p := (h, x)) ⟨lt_shiftRight_iff.mpr hx, Or.inl rfl⟩

theorem pos2Idx_lt_getTotalHashes {h x n : Nat} (hn : n ≤ 2 ^ 63) (hx : (x + 1) * 2 ^ h ≤ n) :
    FlatMmr.pos2Idx h x true < FlatMmr.getTotalHashes n true := by
  rw [pos2Idx_of_le hn hx, getTotalHashes_eq hn]
  exact exactIdx_lt_total hx

/-- `Pos2Idx` is one to one on the trees of at most `2 ^ 63` leaves. -/
theorem pos2Idx_inj {h x h' y cap : Nat} (hcap : cap ≤ 2 ^ 63) (hx : (x + 1) * 2 ^ h ≤ cap)
    (hy : (y + 1) * 2 ^ h' ≤ cap) (heq : FlatMmr.pos2Idx h x true = FlatMmr.pos2Idx h' y true) : h = h' ∧ x = y := by
  rw [pos2Idx_of_le hcap hx, pos2Idx_of_le hcap hy] at heq
  exact exactIdx_inj heq

theorem pos2Idx_succ_false (h x : Nat) : FlatMmr.pos2Idx (h + 1) x false = FlatMmr.pos2Idx h x true := by
  simp only [FlatMmr.pos2Idx, Bool.false_eq_true, ↓reduceIte, Nat.shiftLeft_eq, Nat.one_mul, Nat.pow_succ,
    Nat.mul_comm 2]

theorem getTotalHashes_false {n : Nat} (hn : n < 2 ^ 64) :
    FlatMmr.getTotalHashes n false = FlatMmr.getTotalHashes (n / 2) true := by
  rw [getTotalHashes_eq_mod hn, getTotalHashes_eq_mod (by omega), exactTotal_false]

/-- `Merkle::FixedMmr`: `m_Count` and `m_vHashes`. -/
structure FixedMmr (α : Type) where
  count : Nat
  vHashes : List α

namespace FixedMmr

variable [Inhabited α] (hJ : α → α → α)

/-- `FixedMmr(nTotal)`: no leaves, and `get_TotalHashes(nTotal, true)` hashes,
each `zero` as `resize` leaves it. -/
def new (nTotal : Nat) (zero : α) : FixedMmr α :=
  ⟨0, List.replicate (FlatMmr.getTotalHashes nTotal true) zero⟩

/-- `FixedMmr::LoadElement` and `SaveElement`: the hash at `Pos2Idx(pos)` of
`m_vHashes`.  An index past the end fails the assert of `FixedMmr::Pos2Idx`;
here it reads `default` and writes nothing, and up to `2 ^ 63` leaves it never
happens (`tableLike_store`). -/
def store : Store (List α) α where
  load h x v := (v.getD (FlatMmr.pos2Idx h x true) default, v)
  save h x hv v := v.set (FlatMmr.pos2Idx h x true) hv

/-- `Mmr::Append` of a `FixedMmr`. -/
def append (m : FixedMmr α) (hv : α) : FixedMmr α :=
  let (count, vHashes) := Merkle.append hJ store m.count hv m.vHashes
  ⟨count, vHashes⟩

/-- `Mmr::get_Hash` of a `FixedMmr`. -/
def getHash (zero : α) (m : FixedMmr α) : α :=
  (Merkle.getHash hJ store zero m.count m.vHashes).1

/-- `Mmr::get_PredictedHash` of a `FixedMmr`. -/
def getPredictedHash (m : FixedMmr α) (hvAppend : α) : α :=
  (Merkle.getPredictedHash hJ store m.count hvAppend m.vHashes).1

/-- `Mmr::get_Proof` of a `FixedMmr` into a `ProofBuilderStd`. -/
def getProof (m : FixedMmr α) (i : Nat) : List (Bool × α) :=
  (Merkle.getProof hJ store m.count i m.vHashes).1

/-- **`FixedMmr` is a table** for the trees of at most `nTotal ≤ 2 ^ 63` leaves,
while its vector keeps the size `Resize(nTotal)` gave it: every index it writes
is below that size, so the assert of `FixedMmr::Pos2Idx` holds. -/
theorem tableLike_store {nTotal : Nat} (hn : nTotal ≤ 2 ^ 63) :
    TableLike (store (α := α)) (fun v h x => v.getD (FlatMmr.pos2Idx h x true) default)
      (fun v => v.length = FlatMmr.getTotalHashes nTotal true) nTotal where
  load _ _ _ _ _ := rfl
  save_ok v h x hv hlen _ := by simp only [store, List.length_set, hlen]
  save_view v h x hv hlen hx h' y hy := by
    have hlt : FlatMmr.pos2Idx h x true < v.length := hlen ▸ pos2Idx_lt_getTotalHashes hn hx
    simp only [store, List.getD_eq_getElem?_getD, List.getElem?_set, hlt, ↓reduceIte]
    by_cases hpos : h' = h ∧ y = x
    · rw [if_pos (by rw [hpos.1, hpos.2]), if_pos hpos]
      rfl
    · have hne : FlatMmr.pos2Idx h x true ≠ FlatMmr.pos2Idx h' y true := fun heq =>
        hpos (by obtain ⟨h1, h2⟩ := pos2Idx_inj hn hx hy heq; exact ⟨h1.symm, h2.symm⟩)
      rw [if_neg hne, if_neg hpos]

end FixedMmr

end Beam.Merkle
