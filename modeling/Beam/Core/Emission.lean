import Mathlib.Algebra.BigOperators.Intervals
import Mathlib.Order.Interval.Finset.Nat

/-!
# Emission

`Rules::get_EmissionEx` (`core/block_crypt.cpp`) gives the coinbase of one block: `base`
up to height `Drop0`, then halved at the start of each `Drop1` cycle, with a quarter
added from the second cycle on, and zero after 64 cycles.  It also reports `hEnd`, the
first height where the amount may change.  `Rules::get_Emission(res, hr, base)` adds up
the emission of a range of heights by jumping from one `hEnd` to the next.

Heights and amounts are `uint64_t`: the model keeps them as numbers, with the wrap-around
of the source's arithmetic written out (`sub64`, `add64`), and the 128-bit
`AmountBig::Type` as a number mod `2^128`.  The loop of `get_Emission` runs on `fuel`.

Under the rules of the claim (`Params.Valid`) nothing wraps from the genesis height on,
and `getEmissionEx_eq` gives the amount and `hEnd` in closed form through the cycle index
`period`.  The amount is constant up to `hEnd` (`getEmissionEx_const`), once zero it stays
zero (`amountOf_eq_zero_of_le`), and so the loop adds exactly the per-block amounts
(`emissionLoop_spec`), in at most 65 rounds.
-/

namespace Beam.Emission

/-- `Rules::HeightGenesis`. -/
def heightGenesis : Nat := 1

/-- `MaxHeight`, the largest `Height`. -/
def maxHeight : Nat := 2 ^ 64 - 1

/-- `uint64_t` subtraction, wrapping below zero. -/
def sub64 (a b : Nat) : Nat := (a + 2 ^ 64 - b) % 2 ^ 64

/-- `uint64_t` addition, wrapping at `2^64`. -/
def add64 (a b : Nat) : Nat := (a + b) % 2 ^ 64

theorem sub64_of_le {a b : Nat} (hb : b ≤ a) (ha : a < 2 ^ 64) : sub64 a b = a - b := by
  unfold sub64
  rw [show a + 2 ^ 64 - b = a - b + 2 ^ 64 by omega, Nat.add_mod_right, Nat.mod_eq_of_lt (by omega)]

theorem add64_of_lt {a b : Nat} (h : a + b < 2 ^ 64) : add64 a b = a + b :=
  Nat.mod_eq_of_lt h

theorem add64_lt (a b : Nat) : add64 a b < 2 ^ 64 :=
  Nat.mod_lt _ (Nat.two_pow_pos 64)

/-- The fields of `Rules::Emission` that `get_EmissionEx` reads. -/
structure Params where
  drop0 : Nat
  drop1 : Nat

/-- The rules the emission is computed under: `Drop1` is not zero (`get_EmissionEx`
asserts it), and `HeightGenesis + Drop0 + 64 * Drop1` is a `Height`. -/
structure Params.Valid (e : Params) : Prop where
  drop1_pos : 0 < e.drop1
  fits : heightGenesis + e.drop0 + 64 * e.drop1 < 2 ^ 64

/-- `Rules::get_EmissionEx(h, hEnd, base)`: the amount of the block at height `h`, and
`hEnd`. -/
def getEmissionEx (e : Params) (h base : Nat) : Nat × Nat :=
  let h := sub64 h heightGenesis
  if h < e.drop0 then (base, add64 heightGenesis e.drop0)
  else
    let n := add64 1 ((h - e.drop0) / e.drop1)
    if 64 ≤ n then (0, maxHeight)
    else
      let hEnd := add64 (add64 heightGenesis e.drop0) (n * e.drop1 % 2 ^ 64)
      let base := if 2 ≤ n then add64 base (base / 4) else base
      (base / 2 ^ n, hEnd)

theorem maxHeight_lt : maxHeight < 2 ^ 64 := by
  unfold maxHeight
  omega

theorem getEmissionEx_snd_lt (e : Params) (h base : Nat) : (getEmissionEx e h base).2 < 2 ^ 64 := by
  simp only [getEmissionEx]
  split_ifs
  · exact add64_lt _ _
  · exact maxHeight_lt
  all_goals exact add64_lt _ _

/-- A `HeightRange`: `m_Min` and `m_Max`, empty when `m_Min > m_Max`. -/
structure HeightRange where
  min : Nat
  max : Nat

/-- The loop of `Rules::get_Emission(res, hr, base)` from `hPos` on, for at most `fuel`
rounds (`none` if it needs more); `res` is the 128-bit sum so far. -/
def emissionLoop (e : Params) (hMax base : Nat) : Nat → Nat → Nat → Option Nat
  | 0, _, _ => none
  | fuel + 1, hPos, res =>
    let r := getEmissionEx e hPos base
    if r.1 = 0 then some res
    else if hMax < r.2 then some ((res + r.1 * add64 (sub64 hMax hPos) 1) % 2 ^ 128)
    else emissionLoop e hMax base fuel r.2 ((res + r.1 * sub64 r.2 hPos) % 2 ^ 128)

/-- `Rules::get_Emission(res, hr, base)`, its loop run for at most `fuel` rounds. -/
def getEmission (e : Params) (hr : HeightRange) (base fuel : Nat) : Option Nat :=
  if hr.min > hr.max then some 0 else emissionLoop e hr.max base fuel hr.min 0

/-! ## Cycles -/

/-- The cycle of a height from the genesis on: 0 up to `Drop0`, then one more for each
`Drop1` blocks, and 64 once the emission has stopped. -/
def period (e : Params) (h : Nat) : Nat :=
  if h - heightGenesis < e.drop0 then 0
  else min 64 (1 + (h - heightGenesis - e.drop0) / e.drop1)

/-- The amount of a block of cycle `p`. -/
def amountOf (base p : Nat) : Nat :=
  if 64 ≤ p then 0 else (if 2 ≤ p then add64 base (base / 4) else base) / 2 ^ p

/-- The first height after cycle `p`. -/
def periodEnd (e : Params) (p : Nat) : Nat :=
  if 64 ≤ p then maxHeight else heightGenesis + e.drop0 + p * e.drop1

theorem period_le (e : Params) (h : Nat) : period e h ≤ 64 := by
  unfold period
  split
  · omega
  · exact min_le_left _ _

theorem period_mono (e : Params) {h h' : Nat} (hh : h ≤ h') : period e h ≤ period e h' := by
  unfold period
  split_ifs with h0 h0'
  · exact le_rfl
  · exact Nat.zero_le _
  · omega
  · exact min_le_min_left _ (Nat.add_le_add_left (Nat.div_le_div_right (by omega)) 1)

/-- Once the amount is zero it stays zero: the shifts only grow, and the quarter added
from the second cycle on cannot lift an amount that was already below 2. -/
theorem amountOf_eq_zero_of_le {base p q : Nat} (hp : amountOf base p = 0) (hpq : p ≤ q) :
    amountOf base q = 0 := by
  by_cases hq64 : 64 ≤ q
  · rw [amountOf, if_pos hq64]
  have hpow : 2 ^ p ≤ 2 ^ q := Nat.pow_le_pow_right Nat.two_pos hpq
  unfold amountOf at hp ⊢
  rw [if_neg (by omega)] at hp
  rw [if_neg hq64]
  rw [Nat.div_eq_zero_iff_lt (Nat.two_pow_pos _)] at hp ⊢
  by_cases hp2 : 2 ≤ p
  · rw [if_pos hp2] at hp
    rw [if_pos (hp2.trans hpq)]
    omega
  · rw [if_neg hp2] at hp
    have hp1 : 2 ^ p ≤ 2 ^ 1 := Nat.pow_le_pow_right Nat.two_pos (by omega)
    by_cases hq2 : 2 ≤ q
    · have hq4 : 2 ^ 2 ≤ 2 ^ q := Nat.pow_le_pow_right Nat.two_pos hq2
      rw [if_pos hq2, add64_of_lt (by omega)]
      omega
    · rw [if_neg hq2]
      omega

section Valid

variable {e : Params} (he : e.Valid)
include he

theorem periodEnd_lt (p : Nat) : periodEnd e p < 2 ^ 64 := by
  have hfit := he.fits
  unfold periodEnd
  split_ifs with h64
  · exact maxHeight_lt
  · have : p * e.drop1 ≤ 64 * e.drop1 := Nat.mul_le_mul_right _ (by omega)
    omega

/-- `get_EmissionEx` in closed form from the genesis height on: nothing wraps there. -/
theorem getEmissionEx_eq {h : Nat} (h1 : heightGenesis ≤ h) (h2 : h < 2 ^ 64) (base : Nat) :
    getEmissionEx e h base = (amountOf base (period e h), periodEnd e (period e h)) := by
  have hfit := he.fits
  have hg : heightGenesis = 1 := rfl
  unfold getEmissionEx period
  rw [sub64_of_le h1 h2]
  by_cases h0 : h - heightGenesis < e.drop0
  · rw [if_pos h0, if_pos h0, add64_of_lt (by omega)]
    simp [amountOf, periodEnd]
  · rw [if_neg h0, if_neg h0]
    have hq : (h - heightGenesis - e.drop0) / e.drop1 ≤ h - heightGenesis - e.drop0 :=
      Nat.div_le_self _ _
    rw [add64_of_lt (a := 1) (by omega)]
    by_cases h64 : 64 ≤ 1 + (h - heightGenesis - e.drop0) / e.drop1
    · rw [if_pos h64, min_eq_left h64]
      simp [amountOf, periodEnd]
    · rw [if_neg h64, min_eq_right (by omega)]
      have hmul : (1 + (h - heightGenesis - e.drop0) / e.drop1) * e.drop1 ≤ 64 * e.drop1 :=
        Nat.mul_le_mul_right _ (by omega)
      rw [Nat.mod_eq_of_lt (by omega), add64_of_lt (a := heightGenesis) (by omega),
        add64_of_lt (a := heightGenesis + e.drop0) (by omega)]
      simp [amountOf, periodEnd, h64]

theorem lt_periodEnd {h : Nat} (h1 : heightGenesis ≤ h) (hp : period e h < 64) :
    h < periodEnd e (period e h) := by
  have hd := he.drop1_pos
  unfold periodEnd
  rw [if_neg (by omega)]
  unfold period at hp ⊢
  split_ifs at hp ⊢ with h0
  · omega
  · rw [min_eq_right (by omega)]
    have := Nat.lt_mul_div_succ (h - heightGenesis - e.drop0) hd
    rw [Nat.add_comm 1, Nat.mul_comm]
    omega

/-- Heights up to `hEnd` are in the same cycle. -/
theorem period_eq_of_lt_periodEnd {h h' : Nat} (h1 : heightGenesis ≤ h) (hh : h ≤ h')
    (hlt : h' < periodEnd e (period e h)) : period e h' = period e h := by
  have hd := he.drop1_pos
  by_cases h64 : period e h < 64
  swap
  · have := period_le e h
    have := period_le e h'
    have := period_mono e hh
    omega
  unfold periodEnd at hlt
  rw [if_neg (by omega)] at hlt
  by_cases h0 : h - heightGenesis < e.drop0
  · -- the first cycle ends at `Drop0`
    have hp0 : period e h = 0 := by rw [period, if_pos h0]
    rw [hp0] at hlt ⊢
    rw [period, if_pos (by omega)]
  · -- a later cycle: the quotient by `Drop1` is the same at `h'`
    have hq64 : 1 + (h - heightGenesis - e.drop0) / e.drop1 < 64 := by
      rw [period, if_neg h0] at h64
      exact lt_of_le_of_lt (le_min (by omega) le_rfl) h64 |>.trans_le' le_rfl
    have hp : period e h = 1 + (h - heightGenesis - e.drop0) / e.drop1 := by
      rw [period, if_neg h0, min_eq_right hq64.le]
    rw [hp] at hlt ⊢
    have hge : (h - heightGenesis - e.drop0) / e.drop1 ≤ (h' - heightGenesis - e.drop0) / e.drop1 :=
      Nat.div_le_div_right (by omega)
    have hlt' : (h' - heightGenesis - e.drop0) / e.drop1 < 1 + (h - heightGenesis - e.drop0) / e.drop1 := by
      rw [Nat.div_lt_iff_lt_mul hd]
      omega
    rw [period, if_neg (by omega), min_eq_right (by omega)]
    omega

/-- The first height after a cycle is in the next one. -/
theorem period_periodEnd {p : Nat} (hp : p < 64) : period e (periodEnd e p) = p + 1 := by
  have hd := he.drop1_pos
  rw [periodEnd, if_neg (show ¬64 ≤ p by omega), period, if_neg (by omega),
    show heightGenesis + e.drop0 + p * e.drop1 - heightGenesis - e.drop0 = p * e.drop1 by omega,
    Nat.mul_div_cancel _ hd, min_eq_right (by omega), Nat.add_comm]

/-- The amount `get_EmissionEx` returns at `h` holds at every height up to its `hEnd`. -/
theorem getEmissionEx_const {h h' : Nat} (h1 : heightGenesis ≤ h) (hh : h ≤ h') (base : Nat)
    (hlt : h' < (getEmissionEx e h base).2) :
    (getEmissionEx e h' base).1 = (getEmissionEx e h base).1 := by
  have h'64 : h' < 2 ^ 64 := hlt.trans (getEmissionEx_snd_lt e h base)
  rw [getEmissionEx_eq he h1 (by omega)] at hlt ⊢
  rw [getEmissionEx_eq he (h1.trans hh) h'64, period_eq_of_lt_periodEnd he h1 hh hlt]

/-- `hEnd` lies beyond `h`, except at `MaxHeight` itself, where the amount is zero and
`hEnd` is `h`. -/
theorem lt_getEmissionEx_snd {h : Nat} (h1 : heightGenesis ≤ h) (hlt : h < maxHeight)
    (base : Nat) : h < (getEmissionEx e h base).2 := by
  have h64 : h < 2 ^ 64 := hlt.trans maxHeight_lt
  rw [getEmissionEx_eq he h1 h64]
  by_cases hp : period e h < 64
  · exact lt_periodEnd he h1 hp
  · rwa [periodEnd, if_pos (by omega)]

/-- Over a stretch of one cycle the emission is the amount times the length. -/
theorem sum_Ico_of_le_periodEnd {a b : Nat} (h1 : heightGenesis ≤ a)
    (hb : b ≤ periodEnd e (period e a)) (base : Nat) :
    ∑ h ∈ Finset.Ico a b, (getEmissionEx e h base).1 = (b - a) * amountOf base (period e a) := by
  have hb64 := periodEnd_lt he (period e a)
  rw [← Nat.card_Ico a b]
  refine Finset.sum_const_nat fun h hh => ?_
  obtain ⟨hah, hhb⟩ := Finset.mem_Ico.1 hh
  rw [getEmissionEx_eq he (h1.trans hah) (by omega),
    period_eq_of_lt_periodEnd he h1 hah (by omega)]

/-- After a block of zero amount, every block has zero amount. -/
theorem sum_Ico_eq_zero {a b : Nat} (h1 : heightGenesis ≤ a) (hb : b ≤ 2 ^ 64) (base : Nat)
    (h0 : amountOf base (period e a) = 0) :
    ∑ h ∈ Finset.Ico a b, (getEmissionEx e h base).1 = 0 := by
  refine Finset.sum_eq_zero fun h hh => ?_
  obtain ⟨hah, hhb⟩ := Finset.mem_Ico.1 hh
  rw [getEmissionEx_eq he (h1.trans hah) (by omega)]
  exact amountOf_eq_zero_of_le h0 (period_mono e hah)

/-- The loop of `get_Emission` adds up the per-block amounts from `hPos` to `hMax`, given
one round more than the cycles left, as long as the sum fits in 128 bits. -/
theorem emissionLoop_spec {hMax : Nat} (hMax64 : hMax < 2 ^ 64) (base : Nat) :
    ∀ fuel hPos res, 64 < period e hPos + fuel → heightGenesis ≤ hPos → hPos ≤ hMax →
      res + ∑ h ∈ Finset.Ico hPos (hMax + 1), (getEmissionEx e h base).1 < 2 ^ 128 →
      emissionLoop e hMax base fuel hPos res =
        some (res + ∑ h ∈ Finset.Ico hPos (hMax + 1), (getEmissionEx e h base).1)
  | 0, hPos, _, hf, _, _, _ => absurd hf (by have := period_le e hPos; omega)
  | fuel + 1, hPos, res, hf, h1, hle, hfit => by
    have hEx := getEmissionEx_eq he h1 (by omega : hPos < 2 ^ 64) base
    have hEnd64 := periodEnd_lt he (period e hPos)
    simp only [emissionLoop, hEx]
    by_cases h0 : amountOf base (period e hPos) = 0
    · rw [if_pos h0, sum_Ico_eq_zero he h1 (by omega) base h0, Nat.add_zero]
    rw [if_neg h0]
    have h64 : period e hPos < 64 := by
      by_contra h64
      exact h0 (by rw [amountOf, if_pos (by omega)])
    have hlt := lt_periodEnd he h1 h64
    by_cases hcut : hMax < periodEnd e (period e hPos)
    · -- the range ends inside this cycle
      have hg : heightGenesis = 1 := rfl
      rw [if_pos hcut, sub64_of_le hle hMax64, add64_of_lt (by omega),
        show hMax - hPos + 1 = hMax + 1 - hPos by omega]
      rw [sum_Ico_of_le_periodEnd he h1 (by omega) base] at hfit ⊢
      rw [Nat.mod_eq_of_lt (by rw [Nat.mul_comm]; omega), Nat.mul_comm]
    · -- the cycle ends inside the range: add it and go on from its end
      rw [if_neg hcut, sub64_of_le hlt.le hEnd64]
      have hsplit := Finset.sum_Ico_consecutive (fun h => (getEmissionEx e h base).1)
        hlt.le (by omega : periodEnd e (period e hPos) ≤ hMax + 1)
      rw [sum_Ico_of_le_periodEnd he h1 le_rfl base] at hsplit
      rw [← hsplit] at hfit ⊢
      rw [Nat.mod_eq_of_lt (by rw [Nat.mul_comm]; omega),
        emissionLoop_spec hMax64 base fuel _ _ (by rw [period_periodEnd he h64]; omega)
          (h1.trans hlt.le) (by omega) (by rw [Nat.mul_comm]; omega),
        Nat.mul_comm, Nat.add_assoc]

/-- `Rules::get_Emission(res, hr, base)` over a non-empty range from the genesis on ends
within 65 rounds of its loop with the sum of the per-block amounts, when that sum fits in
128 bits; and each `get_EmissionEx(h, hEnd, base)` gives its amount at every height up to
`hEnd`, which lies beyond `h` below `MaxHeight`. -/
theorem getEmission_eq_sum (hr : HeightRange) (base fuel : Nat) (hmin : heightGenesis ≤ hr.min)
    (hne : hr.min ≤ hr.max) (hmax : hr.max < 2 ^ 64)
    (hfit : ∑ h ∈ Finset.Icc hr.min hr.max, (getEmissionEx e h base).1 < 2 ^ 128)
    (hfuel : 65 ≤ fuel) :
    getEmission e hr base fuel =
        some (∑ h ∈ Finset.Icc hr.min hr.max, (getEmissionEx e h base).1) ∧
      (∀ h, heightGenesis ≤ h → h < maxHeight → h < (getEmissionEx e h base).2) ∧
      ∀ h h', heightGenesis ≤ h → h ≤ h' → h' < (getEmissionEx e h base).2 →
        (getEmissionEx e h' base).1 = (getEmissionEx e h base).1 := by
  refine ⟨?_, fun h h1 hlt => lt_getEmissionEx_snd he h1 hlt base,
    fun h h' h1 hh hlt => getEmissionEx_const he h1 hh base hlt⟩
  rw [← Finset.Ico_add_one_right_eq_Icc] at hfit ⊢
  have hloop := emissionLoop_spec he hmax base fuel hr.min 0
    (by have := period_le e hr.min; omega) hmin hne (by rwa [Nat.zero_add])
  rw [getEmission, if_neg (by omega), hloop, Nat.zero_add]

end Valid

theorem getEmission_eq_sum_twelve_blocks :
    getEmission ⟨2, 3⟩ ⟨1, 12⟩ 8 65 =
        some (∑ h ∈ Finset.Icc 1 12, (getEmissionEx ⟨2, 3⟩ h 8).1) ∧
      (∀ h, heightGenesis ≤ h → h < maxHeight → h < (getEmissionEx ⟨2, 3⟩ h 8).2) ∧
      ∀ h h', heightGenesis ≤ h → h ≤ h' → h' < (getEmissionEx ⟨2, 3⟩ h 8).2 →
        (getEmissionEx ⟨2, 3⟩ h' 8).1 = (getEmissionEx ⟨2, 3⟩ h 8).1 :=
  getEmission_eq_sum ⟨by decide, by decide⟩ ⟨1, 12⟩ 8 65 (by decide) (by decide) (by decide)
    (by decide) (by decide)

/-- **Below the genesis height.**  `get_EmissionEx` wraps height `0` to
`2 ^ 64 - 1`, past the 64 halvings: the amount is `0` and `hEnd` is `MaxHeight`,
although height `1` has the base amount.  Only with `Drop0 = 0` and `Drop1 = 1`
does the cycle count `1 + (2 ^ 64 - 1)` wrap to `0` as well, and the call
returns the base amount with `hEnd = 1`. -/
theorem getEmissionEx_zero {e : Params} (he : e.Valid) (base : Nat) :
    getEmissionEx e 0 base = if e.drop0 = 0 ∧ e.drop1 = 1 then (base, 1) else (0, maxHeight) := by
  have hfits := he.fits
  have hpos := he.drop1_pos
  unfold heightGenesis at hfits
  have hwrap : sub64 0 heightGenesis = 2 ^ 64 - 1 := by decide
  have hafter : ¬(2 ^ 64 - 1 < e.drop0) := by omega
  simp only [getEmissionEx, hwrap, if_neg hafter]
  by_cases hsmall : e.drop0 = 0 ∧ e.drop1 = 1
  · -- the count `1 + (2 ^ 64 - 1)` wraps to `0`
    obtain ⟨h0, h1⟩ := hsmall
    have hn : add64 1 ((2 ^ 64 - 1 - 0) / 1) = 0 := by decide
    have hEnd : add64 (add64 heightGenesis 0) (0 * 1 % 2 ^ 64) = 1 := by decide
    rw [h0, h1, hn, hEnd]
    simp
  · -- otherwise it is past `64`, with no wrap: at least `64` cycles of `Drop1` fit
    have hq : 64 ≤ (2 ^ 64 - 1 - e.drop0) / e.drop1 := by
      rw [Nat.le_div_iff_mul_le hpos]
      omega
    have hlt : (2 ^ 64 - 1 - e.drop0) / e.drop1 < 2 ^ 64 - 1 := by
      rcases Nat.lt_or_ge 1 e.drop1 with h2 | h1
      · exact lt_of_le_of_lt (Nat.div_le_div_left (show 2 ≤ e.drop1 by omega) (by decide)) (by omega)
      · have hd1 : e.drop1 = 1 := by omega
        have hd0 : e.drop0 ≠ 0 := fun h0 => hsmall ⟨h0, hd1⟩
        rw [hd1, Nat.div_one]
        omega
    have hn : 64 ≤ add64 1 ((2 ^ 64 - 1 - e.drop0) / e.drop1) := by
      rw [add64_of_lt (by omega)]
      omega
    rw [if_pos hn, if_neg hsmall]

theorem getEmissionEx_zero_one_two :
    Params.Valid ⟨1, 2⟩ ∧ getEmissionEx ⟨1, 2⟩ 0 8 = if (1 = 0 ∧ 2 = 1) then (8, 1) else (0, maxHeight) :=
  have he : Params.Valid ⟨1, 2⟩ := ⟨by decide, by decide⟩
  ⟨he, getEmissionEx_zero he 8⟩

end Beam.Emission
