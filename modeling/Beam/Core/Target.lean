import Beam.Core.Difficulty
import Beam.Core.UintBigMul

/-!
# The proof-of-work target

`src/core/difficulty.cpp`.  A block's hash meets its packed difficulty in two
ways.  The validator, `IsTargetReached`, multiplies the 256-bit hash by the raw
difficulty `D` in 64 bytes and asks that the top 29 of them be zero, that is that
the product be below `2 ^ 280`.  The miner, `get_Target`, divides `2 ^ 280 - 1`
(35 bytes of ones) by `D` with `SetDiv` and compares hashes with the quotient.
Both refuse a packed value above `s_Inf`.

* `isTargetReached_iff`: the validator's test is `hv * D < 2 ^ 280`;
* `val_getTarget`: the miner's target is `(2 ^ 280 - 1) / D`, which always fits in
  256 bits because `D` is at least `2 ^ 24`;
* `isTargetReached_iff_getTarget`: the two paths accept the same hashes.
-/

namespace Beam.Difficulty

open BigEndian UintBig

/-- `Difficulty::IsTargetReached`: the hash times the raw difficulty, in the
64 bytes `operator *` gives, has its top `Raw::nBytes - s_MantissaBits / 8`
bytes zero. -/
def isTargetReached (packed : Nat) (hv : Nat → Nat) : Bool :=
  if packed > inf then false
  else memis0 (mul (fun _ => 0) 64 hv 32 (unpackRaw packed) 32) 0 (32 - mantissaBits / 8)

/-- `Difficulty::get_Target`: whether the difficulty is valid, and the hash, zero
or else `rMax` (the `Raw::nBytes + s_MantissaBits / 8` bytes of ones) divided by
the raw difficulty with `SetDiv`.  The scratch buffers of `SetDiv` start
uninitialised; `div_spec` holds whatever they hold. -/
def getTarget (packed : Nat) : Bool × (Nat → Nat) :=
  let hv := fill (fun _ => 0) 0 32 0
  if packed > inf then (false, hv)
  else (true, (setDiv hv 32 (fun _ => 255) (32 + mantissaBits / 8) (unpackRaw packed) 32
    (fun _ => 0) (fun _ => 0)).1)

/-! ## The raw difficulty -/

theorem pow_256_35 : (256 : Nat) ^ 35 = 2 ^ 280 := by
  -- through the exponent, so that `2 ^ 280` is never evaluated
  have h : (8 * 35 : Nat) = 280 := rfl
  rw [← h, Nat.pow_mul]

/-- A range of bytes all `255` is one less than a power of `256`. -/
theorem val_ones (p : Nat → Nat) (off : Nat) (hp : ∀ i, p i = 255) : ∀ n, val p off n = 256 ^ n - 1
  | 0 => rfl
  | n + 1 => by
    have hpos := Nat.one_le_pow n 256 (by norm_num)
    rw [val_succ, val_ones p off hp n, hp, Nat.pow_succ]
    omega

/-- The mantissa `Unpack` gives has its leading bit, and nothing above it. -/
theorem unpack_bounds (packed : Nat) :
    (unpack packed).2 = 2 ^ mantissaBits + packed % 2 ^ mantissaBits ∧
      (unpack packed).1 = packed / 2 ^ mantissaBits := by
  have hlow := Nat.mod_lt packed (Nat.two_pow_pos mantissaBits)
  have hor := Nat.shiftLeft_add_eq_or_of_lt hlow 1
  rw [Nat.one_shiftLeft] at hor
  unfold unpack
  rw [Nat.one_shiftLeft, Nat.and_two_pow_sub_one_eq_mod, ← hor, Nat.shiftRight_eq_div_pow]
  exact ⟨rfl, rfl⟩

/-- **The raw difficulty** is at least `2 ^ 24`: below `s_Inf` it is the
mantissa, with its leading bit, moved left by the order, and from `s_Inf` on it
is all ones. -/
theorem unpackRaw_bounds (packed : Nat) :
    Bytes (unpackRaw packed) 0 32 ∧ 2 ^ mantissaBits ≤ val (unpackRaw packed) 0 32 := by
  unfold unpackRaw
  by_cases hlt : packed < inf
  · rw [if_pos hlt]
    obtain ⟨hm, ho⟩ := unpack_bounds packed
    have hmod := Nat.mod_lt packed (Nat.two_pow_pos mantissaBits)
    have hord : (unpack packed).1 ≤ maxOrder := by
      rw [ho, Nat.le_iff_lt_add_one, Nat.div_lt_iff_lt_mul (Nat.two_pow_pos _)]
      rw [inf_eq] at hlt
      exact hlt
    have hfit : (unpack packed).1 / 8 + 4 ≤ 32 := by unfold maxOrder mantissaBits at hord; omega
    have hshift : 2 ^ ((unpack packed).1 % 8) ≤ 2 ^ 7 := Nat.pow_le_pow_right (by norm_num) (by omega)
    have hx : (unpack packed).2 * 2 ^ ((unpack packed).1 % 8) < 2 ^ (8 * 4) := by
      rw [hm]
      unfold mantissaBits at hmod ⊢
      calc (2 ^ 24 + packed % 2 ^ 24) * 2 ^ ((unpack packed).1 % 8)
          < 2 ^ 25 * 2 ^ 7 := Nat.mul_lt_mul_of_lt_of_le (by omega) hshift (Nat.two_pow_pos _)
        _ = 2 ^ (8 * 4) := by norm_num
    obtain ⟨hval, hbytes⟩ := assignSafe_val (fun _ _ => rfl) (by norm_num) (by norm_num) hfit hx
    refine ⟨hbytes, ?_⟩
    rw [hval, hm]
    calc 2 ^ mantissaBits ≤ 2 ^ mantissaBits + packed % 2 ^ mantissaBits := Nat.le_add_right _ _
      _ ≤ (2 ^ mantissaBits + packed % 2 ^ mantissaBits) * 2 ^ (unpack packed).1 :=
        Nat.le_mul_of_pos_right _ (Nat.two_pow_pos _)
  · rw [if_neg hlt]
    have hones : val (inv (fun _ => 0) 32) 0 32 = val (fun _ => 255) 0 32 :=
      val_congr fun i hi => by simp [inv, hi]
    have hval : val (inv (fun _ => 0) 32) 0 32 = 256 ^ 32 - 1 := by
      rw [hones]
      exact val_ones _ 0 (fun _ => rfl) 32
    refine ⟨fun i hi => by simp [inv, hi], ?_⟩
    rw [hval]
    unfold mantissaBits
    norm_num

/-! ## The two paths -/

/-- **The validator's test** is that the product of the hash and the raw
difficulty is below `2 ^ 280`. -/
theorem isTargetReached_iff {packed : Nat} (h : packed ≤ inf) {hv : Nat → Nat} (hb : Bytes hv 0 32) :
    isTargetReached packed hv = true ↔ val hv 0 32 * val (unpackRaw packed) 0 32 < 2 ^ 280 := by
  obtain ⟨hD, -⟩ := unpackRaw_bounds packed
  obtain ⟨hval, hbytes⟩ := mul_val (fun _ => 0) (by norm_num : (64 : Nat) ≤ 2 ^ 31) hb hD
  have hprod : val hv 0 32 * val (unpackRaw packed) 0 32 < 256 ^ 64 :=
    calc val hv 0 32 * val (unpackRaw packed) 0 32 < 256 ^ 32 * 256 ^ 32 :=
          Nat.mul_lt_mul'' (val_lt hb) (val_lt hD)
      _ = 256 ^ 64 := by norm_num
  rw [Nat.mod_eq_of_lt hprod] at hval
  -- the top 29 bytes of the product are its value cut below `256 ^ 35`
  have hlow : Bytes (mul (fun _ => 0) 64 hv 32 (unpackRaw packed) 32) (0 + 29) 35 :=
    hbytes.mono ⟨by norm_num, by norm_num⟩
  have htop : val (mul (fun _ => 0) 64 hv 32 (unpackRaw packed) 32) 0 29 =
      val hv 0 32 * val (unpackRaw packed) 0 32 / 256 ^ 35 := by
    rw [← val_div_pow hlow, ← hval]
  unfold isTargetReached
  rw [if_neg (Nat.not_lt.mpr h), show 32 - mantissaBits / 8 = 29 by rfl, memis0_iff, htop,
    Nat.div_eq_zero_iff_lt (by norm_num), pow_256_35]

/-- **The miner's target** is `(2 ^ 280 - 1) / D`, never cut to 256 bits. -/
theorem val_getTarget {packed : Nat} (h : packed ≤ inf) :
    (getTarget packed).1 = true ∧ val (getTarget packed).2 0 32 = (2 ^ 280 - 1) / val (unpackRaw packed) 0 32 := by
  obtain ⟨hD, hge⟩ := unpackRaw_bounds packed
  have hpos : 0 < val (unpackRaw packed) 0 32 := Nat.lt_of_lt_of_le (Nat.two_pow_pos _) hge
  have hmax : val (fun _ => 255) 0 (32 + mantissaBits / 8) = 2 ^ 280 - 1 := by
    rw [val_ones _ 0 (fun _ => rfl), show 32 + mantissaBits / 8 = 35 by rfl, pow_256_35]
  -- dividing by at least `2 ^ 24` leaves less than `2 ^ 256`
  have hfits : (2 ^ 280 - 1) / val (unpackRaw packed) 0 32 ≤ 2 ^ (8 * 32) - 1 := by
    have hle : (2 ^ 280 - 1) / val (unpackRaw packed) 0 32 ≤ (2 ^ 280 - 1) / 2 ^ mantissaBits :=
      Nat.div_le_div_left hge (Nat.two_pow_pos _)
    have hlt : (2 ^ 280 - 1) / 2 ^ mantissaBits < 2 ^ (8 * 32) := by
      rw [Nat.div_lt_iff_lt_mul (Nat.two_pow_pos _), ← Nat.pow_add]
      have := Nat.two_pow_pos 280
      unfold mantissaBits
      omega
    omega
  have hones : Bytes (fun _ => 255) 0 (32 + mantissaBits / 8) := fun _ _ => by norm_num
  have hdiv := (setDiv_eq (fill (fun _ => 0) 0 32 0) (fun _ => 0) (fun _ => 0) (by norm_num : 0 < 32) hones hD).1
  rw [if_neg (Nat.pos_iff_ne_zero.mp hpos), hmax, Nat.min_eq_left hfits] at hdiv
  dsimp only [getTarget]
  rw [if_neg (Nat.not_lt.mpr h)]
  exact ⟨rfl, hdiv⟩

/-- A hash meets a target exactly when its product with the divisor stays below
the bound the target was cut from. -/
theorem le_target_iff {h D : Nat} (hD : 0 < D) : h ≤ (2 ^ 280 - 1) / D ↔ h * D < 2 ^ 280 := by
  rw [Nat.le_div_iff_mul_le hD]
  omega

/-- **The validator and the miner agree.**  For every packed difficulty and every
256-bit hash, `IsTargetReached` accepts the hash exactly when `get_Target`
succeeds and the hash is at most its target; above `s_Inf` both refuse. -/
theorem isTargetReached_iff_getTarget (packed : Nat) {hv : Nat → Nat} (hb : Bytes hv 0 32) :
    isTargetReached packed hv = true ↔ (getTarget packed).1 = true ∧ val hv 0 32 ≤ val (getTarget packed).2 0 32 := by
  by_cases h : packed ≤ inf
  · obtain ⟨hok, htarget⟩ := val_getTarget h
    have hpos : 0 < val (unpackRaw packed) 0 32 :=
      Nat.lt_of_lt_of_le (Nat.two_pow_pos _) (unpackRaw_bounds packed).2
    rw [isTargetReached_iff h hb, htarget, le_target_iff hpos]
    exact ⟨fun hlt => ⟨hok, hlt⟩, fun hh => hh.2⟩
  · have hgt : packed > inf := Nat.lt_of_not_le h
    simp [isTargetReached, getTarget, hgt]

/-- The easiest difficulty and a zero hash. -/
theorem isTargetReached_iff_getTarget_zero :
    isTargetReached 0 (fun _ => 0) = true ↔
      (getTarget 0).1 = true ∧ val (fun _ => 0) 0 32 ≤ val (getTarget 0).2 0 32 :=
  isTargetReached_iff_getTarget 0 (fun _ _ => by norm_num)

end Beam.Difficulty
