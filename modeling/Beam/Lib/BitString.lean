import Mathlib.Data.List.Basic

/-!
# Bit strings

A key of a binary trie is a finite sequence of bits, read from the most
significant end.  This file gives the notions the trie proofs are written in:

* `bit k i`: the `i`-th bit of `k`, `false` past its end;
* `Agree a b lo hi`: `a` and `b` have the same bits at every position of
  `[lo, hi)`.  Two strings of length `n` that agree on `[0, n)` are equal
  (`eq_of_agree`);
* `firstMismatch a b n c`: the first position of `[n, n + c)` where `a` and `b`
  differ, found by the bit-serial scan a trie descent performs.  It is
  specified by `firstMismatch_eq_none_iff` and `firstMismatch_eq_some_iff`.
-/

namespace BitString

/-- The `i`-th bit of a bit string, most significant first; `false` past the end. -/
def bit (k : List Bool) (i : Nat) : Bool := k.getD i false

theorem bit_eq_getElem {k : List Bool} {i : Nat} (h : i < k.length) : bit k i = k[i] := by
  simp [bit, List.getD_eq_getElem?_getD, h]

/-! ## Agreement on a range of positions -/

/-- `a` and `b` have the same bit at every position of `[lo, hi)`. -/
def Agree (a b : List Bool) (lo hi : Nat) : Prop :=
  ∀ i, lo ≤ i → i < hi → bit a i = bit b i

theorem agree_refl (a : List Bool) (lo hi : Nat) : Agree a a lo hi := fun _ _ _ => rfl

theorem Agree.symm {a b : List Bool} {lo hi : Nat} (h : Agree a b lo hi) : Agree b a lo hi :=
  fun i h1 h2 => (h i h1 h2).symm

theorem Agree.trans {a b c : List Bool} {lo hi : Nat} (h : Agree a b lo hi)
    (g : Agree b c lo hi) : Agree a c lo hi :=
  fun i h1 h2 => (h i h1 h2).trans (g i h1 h2)

theorem Agree.mono {a b : List Bool} {lo hi lo' hi' : Nat} (h : Agree a b lo hi)
    (hlo : lo ≤ lo') (hhi : hi' ≤ hi) : Agree a b lo' hi' :=
  fun i h1 h2 => h i (by omega) (by omega)

/-- Agreement on two adjacent ranges is agreement on their union. -/
theorem Agree.append {a b : List Bool} {lo mid hi : Nat} (h : Agree a b lo mid)
    (g : Agree a b mid hi) : Agree a b lo hi := by
  intro i h1 h2
  by_cases hi' : i < mid
  · exact h i h1 hi'
  · exact g i (by omega) h2

/-- Agreeing up to `m` and at `m` itself is agreeing up to `m + 1`. -/
theorem Agree.succ {a b : List Bool} {lo m : Nat} (h : Agree a b lo m) (hm : bit a m = bit b m) :
    Agree a b lo (m + 1) := by
  intro i h1 h2
  by_cases him : i < m
  · exact h i h1 him
  · obtain rfl : i = m := by omega
    exact hm

/-- Two strings of length `n` with the same first `n` bits are equal. -/
theorem eq_of_agree {a b : List Bool} {n : Nat} (ha : a.length = n) (hb : b.length = n)
    (h : Agree a b 0 n) : a = b := by
  apply List.ext_getElem (ha.trans hb.symm)
  intro i h1 h2
  have := h i (Nat.zero_le i) (ha ▸ h1)
  rwa [bit_eq_getElem h1, bit_eq_getElem h2] at this

/-! ## The bit-serial scan -/

/-- The first position of `[n, n + c)` at which `a` and `b` differ. -/
def firstMismatch (a b : List Bool) : Nat → Nat → Option Nat
  | _, 0 => none
  | n, c + 1 => if bit a n = bit b n then firstMismatch a b (n + 1) c else some n

/-- **The scan finds nothing exactly when the strings agree on the range.** -/
theorem firstMismatch_eq_none_iff {a b : List Bool} :
    ∀ {n c : Nat}, firstMismatch a b n c = none ↔ Agree a b n (n + c) := by
  intro n c
  induction c generalizing n with
  | zero => exact ⟨fun _ i h1 h2 => absurd h2 (by omega), fun _ => rfl⟩
  | succ c ih =>
    simp only [firstMismatch]
    split
    · rename_i hn
      rw [ih]
      constructor
      · intro h i h1 h2
        by_cases hi : i = n
        · subst hi; exact hn
        · exact h i (by omega) (by omega)
      · intro h
        exact h.mono (by omega) (by omega)
    · rename_i hn
      simp only [reduceCtorEq, false_iff]
      intro h
      exact hn (h n (Nat.le_refl _) (by omega))

/-- **The scan stops at the first position where the strings differ.** -/
theorem firstMismatch_eq_some_iff {a b : List Bool} {m : Nat} :
    ∀ {n c : Nat}, firstMismatch a b n c = some m ↔
      n ≤ m ∧ m < n + c ∧ Agree a b n m ∧ bit a m ≠ bit b m := by
  intro n c
  induction c generalizing n with
  | zero => simp [firstMismatch]; omega
  | succ c ih =>
    simp only [firstMismatch]
    split
    · rename_i hn
      rw [ih]
      constructor
      · rintro ⟨h1, h2, h3, h4⟩
        refine ⟨by omega, by omega, ?_, h4⟩
        intro i hi1 hi2
        by_cases hi : i = n
        · subst hi; exact hn
        · exact h3 i (by omega) hi2
      · rintro ⟨h1, h2, h3, h4⟩
        have hmn : m ≠ n := fun he => h4 (he ▸ hn)
        exact ⟨by omega, by omega, h3.mono (by omega) (Nat.le_refl _), h4⟩
    · rename_i hn
      simp only [Option.some.injEq]
      constructor
      · rintro rfl
        exact ⟨Nat.le_refl _, by omega, fun i h1 h2 => absurd h2 (by omega), hn⟩
      · rintro ⟨h1, h2, h3, h4⟩
        by_contra hmn
        exact hn (h3 n (Nat.le_refl _) (by omega))

end BitString
