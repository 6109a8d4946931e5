import Beam.Core.UintBig
import Mathlib.Algebra.Order.Field.Power
import Mathlib.Algebra.Order.Field.Rat
import Mathlib.Data.Nat.Cast.Order.Field
import Mathlib.Tactic.FieldSimp
import Mathlib.Tactic.Positivity

/-!
# Difficulty retargeting

`src/core/difficulty.cpp`.  A difficulty is kept packed in 32 bits, `m_Packed`: an
order, and the 24 bits of a mantissa below its leading one (`Pack`, `Unpack`).  Its
raw value is the mantissa moved left by the order, in the 32 bytes of `Raw`
(`unpackRaw`).  `Calculate` retargets a work `ref` by `dtTrg_s / (dh * dtSrc_s)` in
`BigFloat`s, each a 32-bit value with its top bit set and a signed order, every
operation cutting its result back to 32 bits.

* `ofUintBig_eq`, `mul_eq`, `div_eq`: what `BigFloat`'s assignment, `*` and `/`
  compute on values, through `normalize`;
* `Approx f q`: `f` is `q` cut to 32 significant bits.  `normalize_approx`,
  `mul_approx` and `div_approx` say each operation gives one, and `div_floor` bounds
  what the division of the values drops;
* `unpack_pack`, `unpackRaw_pack`: the packed format reads back its order and
  mantissa, whose raw value is the mantissa moved left by the order;
* `calculate_accuracy`: `Calculate` packs at most `s_Inf`, and where the exact ratio
  is in `[2 ^ 25, 2 ^ 255]` the raw difficulty it packs is that ratio within a
  relative `2 ^ -22`.
-/

namespace Beam.Difficulty

open BigEndian UintBig

/-! ## The packed difficulty -/

/-- `Difficulty::s_MantissaBits`. -/
def mantissaBits : Nat := 24

/-- `Difficulty::s_MaxOrder`: `Raw::nBits - s_MantissaBits - 1`, with the 256-bit `Raw`. -/
def maxOrder : Nat := 256 - mantissaBits - 1

/-- `Difficulty::s_Inf`. -/
def inf : Nat := (maxOrder + 1) <<< mantissaBits

/-- `Difficulty::Pack(order, mantissa)`: `m_Packed`, the mantissa below its leading
bit and the order above it, or `s_Inf` for an order too large. -/
def pack (order mantissa : Nat) : Nat :=
  if order ≤ maxOrder then (mantissa &&& ((1 <<< mantissaBits) - 1)) ||| (order <<< mantissaBits) else inf

/-- `Difficulty::Unpack(order, mantissa)`: the order, and the mantissa with its
leading bit. -/
def unpack (packed : Nat) : Nat × Nat :=
  (packed >>> mantissaBits, (1 <<< mantissaBits) ||| (packed &&& ((1 <<< mantissaBits) - 1)))

/-- `Difficulty::Unpack(Raw&)`: from zero, the mantissa moved left by the order into
the 32 bytes of `Raw` (`AssignSafe` of a `uint32_t`), or all ones from `s_Inf` up. -/
def unpackRaw (packed : Nat) : Nat → Nat :=
  if packed < inf then (assignSafe (fun _ => 0) 32 4 (unpack packed).2 (unpack packed).1).1
  else inv (fun _ => 0) 32

/-! ## `BigFloat` and `Calculate` -/

/-- `Difficulty::BigFloat`: the number `m_Value * 2 ^ m_Order`. -/
structure BigFloat where
  order : Int
  value : Nat
  deriving DecidableEq, Repr

namespace BigFloat

/-- `BigFloat::nBits`. -/
def nBits : Nat := 32

/-- `BigFloat::operator = (const uintBig_t<nBytes_>&)` of the `nBytes` bytes at `p`:
the 32 bits from the top one down, and how far they were moved. -/
def ofUintBig (p : Nat → Nat) (nBytes : Nat) : BigFloat :=
  let nOrder := getOrder p nBytes
  if nOrder ≠ 0 then
    let order : Int := nOrder - nBits
    -- either shift writes all of `x`, so what it held before is never read
    let x := if 0 < order then shiftRight (fun _ => 0) 4 p nBytes order.toNat
      else shiftLeft (fun _ => 0) 4 p nBytes (-order).toNat
    ⟨order, exportAligned 32 x 4⟩
  else ⟨0, 0⟩

/-- `BigFloat::operator = (T)` for an unsigned `T` of `size` bytes, through the
`uintBig_t<size>` that holds it. -/
def ofOrdinal (v size : Nat) : BigFloat := ofUintBig (assignOrdinal (fun _ => 0) size size v) size

/-- `BigFloat::operator *`: the 64-bit product of the values, normalised, with the
orders added. -/
def mul (a x : BigFloat) : BigFloat :=
  let res := ofOrdinal (a.value * x.value % 2 ^ 64) 8
  { res with order := res.order + (a.order + x.order) }

/-- `BigFloat::operator /`: the value moved up by 32 bits in 64 and divided, normalised,
with the orders subtracted.  Lean's division by zero gives zero where the source
asserts. -/
def div (a x : BigFloat) : BigFloat :=
  let res := ofOrdinal ((a.value <<< nBits) % 2 ^ 64 / x.value) 8
  { res with order := res.order + (a.order - (x.order + nBits)) }

instance : Mul BigFloat := ⟨mul⟩

instance : Div BigFloat := ⟨div⟩

end BigFloat

/-- `Difficulty::Calculate(ref, dh, dtTrg_s, dtSrc_s)`: `m_Packed`.  The top bit of the
quotient's value is the mantissa's leading bit, so the order is raised by the bits
below the mantissa. -/
def calculate (ref : Nat → Nat) (dh dtTrg dtSrc : Nat) : Nat :=
  let div := dtSrc * dh % 2 ^ 64
  let x := BigFloat.ofUintBig ref 32 * BigFloat.ofOrdinal dtTrg 4 / BigFloat.ofOrdinal div 8
  if x.value ≠ 0 then
    let order := x.order + (BigFloat.nBits - 1 - mantissaBits : Nat)
    if 0 ≤ order then pack order.toNat (x.value >>> (BigFloat.nBits - 1 - mantissaBits)) else 0
  else 0


/-! ## Packing -/

section Pack

theorem inf_eq : inf = (maxOrder + 1) * 2 ^ mantissaBits := Nat.shiftLeft_eq _ _

/-- Below `s_MaxOrder`, `Pack` puts the mantissa's low bits under the order. -/
theorem pack_eq {order : Nat} (mantissa : Nat) (h : order ≤ maxOrder) :
    pack order mantissa = mantissa % 2 ^ mantissaBits + order * 2 ^ mantissaBits := by
  unfold pack
  rw [if_pos h, Nat.one_shiftLeft, Nat.and_two_pow_sub_one_eq_mod, Nat.or_comm,
    ← Nat.shiftLeft_add_eq_or_of_lt (Nat.mod_lt _ (Nat.two_pow_pos _)), Nat.shiftLeft_eq, Nat.add_comm]

theorem pack_lt_inf {order : Nat} (mantissa : Nat) (h : order ≤ maxOrder) : pack order mantissa < inf := by
  have hlow := Nat.mod_lt mantissa (Nat.two_pow_pos mantissaBits)
  have hhigh := Nat.mul_le_mul_right (2 ^ mantissaBits) h
  rw [pack_eq mantissa h, inf_eq, Nat.add_mul, Nat.one_mul]
  omega

/-- `Pack` never gives more than `s_Inf`. -/
theorem pack_le_inf (order mantissa : Nat) : pack order mantissa ≤ inf := by
  by_cases h : order ≤ maxOrder
  · exact (pack_lt_inf mantissa h).le
  · unfold pack
    rw [if_neg h]

/-- **`Unpack` undoes `Pack`** for an order up to `s_MaxOrder` and a mantissa with its
leading bit at `s_MantissaBits`. -/
theorem unpack_pack {order mantissa : Nat} (h : order ≤ maxOrder) (hm : 2 ^ mantissaBits ≤ mantissa)
    (hm' : mantissa < 2 ^ (mantissaBits + 1)) : unpack (pack order mantissa) = (order, mantissa) := by
  have hpos := Nat.two_pow_pos mantissaBits
  have hlow := Nat.mod_lt mantissa hpos
  -- the mantissa is its leading bit and the bits below it
  have hlead : mantissa / 2 ^ mantissaBits = 1 := by
    apply Nat.div_eq_of_lt_le
    · rw [Nat.one_mul]; exact hm
    · rw [Nat.pow_succ] at hm'; omega
  have hsplit := Nat.div_add_mod mantissa (2 ^ mantissaBits)
  rw [hlead, Nat.mul_one] at hsplit
  have hor := Nat.shiftLeft_add_eq_or_of_lt hlow 1
  rw [Nat.one_shiftLeft, hsplit] at hor
  rw [pack_eq mantissa h]
  unfold unpack
  rw [Nat.shiftRight_eq_div_pow, Nat.add_mul_div_right _ _ hpos, Nat.div_eq_of_lt hlow, Nat.zero_add,
    Nat.one_shiftLeft, Nat.and_two_pow_sub_one_eq_mod, Nat.add_mul_mod_self_right, Nat.mod_mod, ← hor]

example : unpack (pack 231 (2 ^ 25 - 1)) = (231, 2 ^ 25 - 1) := by decide

/-- **The raw difficulty of a packed one** is its mantissa moved left by its order. -/
theorem unpackRaw_pack {order mantissa : Nat} (h : order ≤ maxOrder) (hm : 2 ^ mantissaBits ≤ mantissa)
    (hm' : mantissa < 2 ^ (mantissaBits + 1)) :
    val (unpackRaw (pack order mantissa)) 0 32 = mantissa * 2 ^ order ∧ Bytes (unpackRaw (pack order mantissa)) 0 32 := by
  unfold unpackRaw
  rw [if_pos (pack_lt_inf mantissa h), unpack_pack h hm hm']
  have hfit : order / 8 + 4 ≤ 32 := by unfold maxOrder mantissaBits at h; omega
  have hx : mantissa * 2 ^ (order % 8) < 2 ^ (8 * 4) :=
    calc mantissa * 2 ^ (order % 8) < 2 ^ 25 * 2 ^ 7 :=
          Nat.mul_lt_mul_of_lt_of_le hm' (Nat.pow_le_pow_right (by norm_num) (by omega)) (Nat.two_pow_pos _)
      _ = 2 ^ (8 * 4) := by norm_num
  exact assignSafe_val (fun _ _ => rfl) (by norm_num) (by norm_num) hfit hx

end Pack

/-! ## What `BigFloat` computes -/

/-- What `BigFloat`'s assignment computes on values: the 32 bits of `v` from its top
one down, and how far they were moved. -/
def normalize (v : Nat) : BigFloat :=
  if v = 0 then ⟨0, 0⟩
  else if 32 < Nat.size v then ⟨(Nat.size v : Int) - 32, v / 2 ^ (Nat.size v - 32)⟩
  else ⟨(Nat.size v : Int) - 32, v * 2 ^ (32 - Nat.size v)⟩

section Normalize

/-- **`BigFloat`'s assignment normalises the value of the bytes.** -/
theorem ofUintBig_eq {p : Nat → Nat} {n : Nat} (hp : Bytes p 0 n) : BigFloat.ofUintBig p n = normalize (val p 0 n) := by
  unfold BigFloat.ofUintBig normalize BigFloat.nBits
  rw [getOrder_eq_size hp]
  by_cases h0 : val p 0 n = 0
  · rw [h0, Nat.size_zero, if_pos rfl]
    rfl
  have hs : Nat.size (val p 0 n) ≠ 0 := Nat.pos_iff_ne_zero.1 (Nat.size_pos.2 (Nat.pos_iff_ne_zero.2 h0))
  have hlt := Nat.lt_size_self (val p 0 n)
  have h256 : (256 : Nat) ^ 4 = 2 ^ 32 := by norm_num
  rw [if_pos hs, if_neg h0]
  dsimp only
  by_cases h32 : 32 < Nat.size (val p 0 n)
  · -- more than 32 bits: the top 32 moved down
    rw [if_pos h32, if_pos (by omega), show ((Nat.size (val p 0 n) : Int) - (32 : Nat)).toNat = Nat.size (val p 0 n) - 32 by omega]
    have hsr : val (shiftRight (fun _ => 0) 4 p n (Nat.size (val p 0 n) - 32)) 0 4 =
          val p 0 n / 2 ^ (Nat.size (val p 0 n) - 32) % 256 ^ 4 ∧
        Bytes (shiftRight (fun _ => 0) 4 p n (Nat.size (val p 0 n) - 32)) 0 4 :=
      shiftRight_val (fun _ => 0) hp
    obtain ⟨hval, hbytes⟩ := hsr
    have hfit : val p 0 n / 2 ^ (Nat.size (val p 0 n) - 32) < 2 ^ 32 := by
      rw [Nat.div_lt_iff_lt_mul (Nat.two_pow_pos _), ← Nat.pow_add, Nat.add_sub_cancel' h32.le]
      exact hlt
    rw [exportAligned_eq 4 (by norm_num) (by norm_num) hbytes, hval, h256, Nat.mod_eq_of_lt hfit]
    rfl
  · -- at most 32 bits: moved up to the top
    rw [if_neg h32, if_neg (by omega), show (-((Nat.size (val p 0 n) : Int) - (32 : Nat))).toNat = 32 - Nat.size (val p 0 n) by omega]
    have hsl : val (shiftLeft (fun _ => 0) 4 p n (32 - Nat.size (val p 0 n))) 0 4 =
          val p 0 n * 2 ^ (32 - Nat.size (val p 0 n)) % 256 ^ 4 ∧
        Bytes (shiftLeft (fun _ => 0) 4 p n (32 - Nat.size (val p 0 n))) 0 4 :=
      shiftLeft_val (fun _ => 0) hp
    obtain ⟨hval, hbytes⟩ := hsl
    have hfit : val p 0 n * 2 ^ (32 - Nat.size (val p 0 n)) < 2 ^ 32 := by
      calc val p 0 n * 2 ^ (32 - Nat.size (val p 0 n)) < 2 ^ Nat.size (val p 0 n) * 2 ^ (32 - Nat.size (val p 0 n)) :=
            Nat.mul_lt_mul_of_pos_right hlt (Nat.two_pow_pos _)
        _ = 2 ^ 32 := by rw [← Nat.pow_add, Nat.add_sub_cancel' (by omega)]
    rw [exportAligned_eq 4 (by norm_num) (by norm_num) hbytes, hval, h256, Nat.mod_eq_of_lt hfit]
    rfl

theorem ofOrdinal_eq {v size : Nat} (hv : v < 256 ^ size) : BigFloat.ofOrdinal v size = normalize v := by
  unfold BigFloat.ofOrdinal
  obtain ⟨hval, hbytes⟩ := assignOrdinal_val (fun _ => 0) v (Nat.le_refl size)
  rw [ofUintBig_eq hbytes, hval, Nat.mod_eq_of_lt hv]

end Normalize

/-! ## How far a `BigFloat` is from the number it stands for -/

namespace BigFloat

/-- The number a `BigFloat` stands for. -/
def toRat (f : BigFloat) : ℚ := f.value * 2 ^ f.order

/-- The top bit of the 32-bit value is set. -/
def Normal (f : BigFloat) : Prop := 2 ^ 31 ≤ f.value ∧ f.value < 2 ^ 32

end BigFloat

/-- `f` is `q` cut to 32 significant bits: normalised, at most `q`, and less than a
unit of its last bit below it. -/
structure Approx (f : BigFloat) (q : ℚ) : Prop where
  normal : f.Normal
  le : f.toRat ≤ q
  lt : q < f.toRat + 2 ^ f.order

/-- The factor by which a number can exceed its cut to 32 significant bits. -/
def cutFactor : ℚ := 1 + 1 / 2 ^ 31

section Approx

variable {f : BigFloat} {q : ℚ}

theorem BigFloat.Normal.toRat_pos (h : f.Normal) : 0 < f.toRat := by
  have hv : (0 : ℚ) < f.value := by exact_mod_cast lt_of_lt_of_le (Nat.two_pow_pos 31) h.1
  exact mul_pos hv (zpow_pos (by norm_num) _)

/-- A normalised `BigFloat` is at least `2 ^ 31` units of its last bit. -/
theorem BigFloat.Normal.unit_le (h : f.Normal) : 2 ^ f.order * 2 ^ 31 ≤ f.toRat := by
  unfold BigFloat.toRat
  rw [mul_comm]
  exact mul_le_mul_of_nonneg_right (by exact_mod_cast h.1) (zpow_nonneg (by norm_num) _)

theorem Approx.lt_mul (h : Approx f q) : q < f.toRat * cutFactor := by
  have hunit := h.normal.unit_le
  have hlt := h.lt
  unfold cutFactor
  linarith

/-- Moving the order moves the number it approximates. -/
theorem Approx.shift (h : Approx f q) (e : ℤ) : Approx { f with order := f.order + e } (q * 2 ^ e) := by
  have he : (0 : ℚ) < 2 ^ e := zpow_pos (by norm_num) e
  have htr : BigFloat.toRat { f with order := f.order + e } = f.toRat * 2 ^ e := by
    unfold BigFloat.toRat
    rw [zpow_add₀ two_ne_zero, mul_assoc]
  refine ⟨h.normal, ?_, ?_⟩
  · rw [htr]
    exact mul_le_mul_of_nonneg_right h.le he.le
  · rw [htr]
    show q * 2 ^ e < f.toRat * 2 ^ e + 2 ^ (f.order + e)
    rw [zpow_add₀ two_ne_zero]
    have := mul_lt_mul_of_pos_right h.lt he
    linarith

/-- **Normalising cuts to 32 significant bits.** -/
theorem normalize_approx {v : Nat} (hv : 0 < v) : Approx (normalize v) v := by
  have hs := Nat.size_pos.2 hv
  have hlo : 2 ^ (Nat.size v - 1) ≤ v := Nat.lt_size.1 (by omega)
  have hhi := Nat.lt_size_self v
  unfold normalize
  rw [if_neg (Nat.pos_iff_ne_zero.1 hv)]
  by_cases h32 : 32 < Nat.size v
  · -- cut: the bits below the top 32 are dropped
    rw [if_pos h32]
    have hk : ((Nat.size v : Int) - 32) = ((Nat.size v - 32 : Nat) : Int) := by omega
    have hfloor := Nat.div_mul_le_self v (2 ^ (Nat.size v - 32))
    have hceil := Nat.lt_div_mul_add (a := v) (Nat.two_pow_pos (Nat.size v - 32))
    refine ⟨⟨?_, ?_⟩, ?_, ?_⟩
    · rw [Nat.le_div_iff_mul_le (Nat.two_pow_pos _), ← Nat.pow_add]
      exact le_trans (Nat.pow_le_pow_right (by norm_num) (by omega)) hlo
    · rw [Nat.div_lt_iff_lt_mul (Nat.two_pow_pos _), ← Nat.pow_add, Nat.add_sub_cancel' h32.le]
      exact hhi
    · unfold BigFloat.toRat
      rw [hk, zpow_natCast]
      exact_mod_cast hfloor
    · unfold BigFloat.toRat
      rw [hk, zpow_natCast]
      exact_mod_cast hceil
  · -- exact: the value moved up to the top bit
    rw [if_neg h32]
    have hk : ((Nat.size v : Int) - 32) = -((32 - Nat.size v : Nat) : Int) := by omega
    have htr : BigFloat.toRat ⟨(Nat.size v : Int) - 32, v * 2 ^ (32 - Nat.size v)⟩ = v := by
      unfold BigFloat.toRat
      rw [hk, zpow_neg, zpow_natCast]
      push_cast
      field_simp
    refine ⟨⟨?_, ?_⟩, ?_, ?_⟩
    · calc 2 ^ 31 = 2 ^ (Nat.size v - 1) * 2 ^ (32 - Nat.size v) := by rw [← Nat.pow_add]; congr 1; omega
        _ ≤ v * 2 ^ (32 - Nat.size v) := Nat.mul_le_mul_right _ hlo
    · calc v * 2 ^ (32 - Nat.size v) < 2 ^ Nat.size v * 2 ^ (32 - Nat.size v) := Nat.mul_lt_mul_of_pos_right hhi (Nat.two_pow_pos _)
        _ = 2 ^ 32 := by rw [← Nat.pow_add]; congr 1; omega
    · rw [htr]
    · rw [htr]
      exact lt_add_of_pos_right _ (zpow_pos (by norm_num) _)

end Approx

/-! ## What `*` and `/` compute -/

section Ops

variable {a b : BigFloat}

theorem value_mul_lt (ha : a.Normal) (hb : b.Normal) : a.value * b.value < 2 ^ 64 :=
  calc a.value * b.value < 2 ^ 32 * 2 ^ 32 := Nat.mul_lt_mul'' ha.2 hb.2
    _ = 2 ^ 64 := by norm_num

/-- **`*` of normalised `BigFloat`s** normalises the exact product of the values. -/
theorem mul_eq (ha : a.Normal) (hb : b.Normal) :
    a * b = { normalize (a.value * b.value) with order := (normalize (a.value * b.value)).order + (a.order + b.order) } := by
  show BigFloat.mul a b = _
  unfold BigFloat.mul
  rw [Nat.mod_eq_of_lt (value_mul_lt ha hb), ofOrdinal_eq (by norm_num; exact value_mul_lt ha hb)]

/-- The quotient `/` normalises: the value moved up by 32 bits, divided. -/
theorem quot_bounds (ha : a.Normal) (hb : b.Normal) :
    2 ^ 31 ≤ a.value * 2 ^ 32 / b.value ∧ a.value * 2 ^ 32 / b.value < 2 ^ 64 := by
  have hbpos : 0 < b.value := lt_of_lt_of_le (Nat.two_pow_pos 31) hb.1
  constructor
  · rw [Nat.le_div_iff_mul_le hbpos]
    calc 2 ^ 31 * b.value ≤ 2 ^ 31 * 2 ^ 32 := Nat.mul_le_mul_left _ hb.2.le
      _ ≤ a.value * 2 ^ 32 := Nat.mul_le_mul_right _ ha.1
  · rw [Nat.div_lt_iff_lt_mul hbpos]
    calc a.value * 2 ^ 32 < 2 ^ 32 * 2 ^ 32 := Nat.mul_lt_mul_of_pos_right ha.2 (Nat.two_pow_pos 32)
      _ = 2 ^ 64 * 2 ^ 31 / 2 ^ 31 := by norm_num
      _ ≤ 2 ^ 64 * b.value := by
        rw [Nat.mul_div_cancel _ (Nat.two_pow_pos 31)]
        exact Nat.le_mul_of_pos_right _ hbpos

/-- **`/` of normalised `BigFloat`s** normalises the value moved up by 32 bits and
divided. -/
theorem div_eq (ha : a.Normal) (hb : b.Normal) :
    a / b = { normalize (a.value * 2 ^ 32 / b.value) with
      order := (normalize (a.value * 2 ^ 32 / b.value)).order + (a.order - (b.order + 32)) } := by
  have hmoved : a.value * 2 ^ 32 < 2 ^ 64 :=
    calc a.value * 2 ^ 32 < 2 ^ 32 * 2 ^ 32 := Nat.mul_lt_mul_of_pos_right ha.2 (Nat.two_pow_pos 32)
      _ = 2 ^ 64 := by norm_num
  show BigFloat.div a b = _
  unfold BigFloat.div BigFloat.nBits
  rw [Nat.shiftLeft_eq, Nat.mod_eq_of_lt hmoved, ofOrdinal_eq (by norm_num; exact (quot_bounds ha hb).2)]
  rfl

theorem mul_approx (ha : a.Normal) (hb : b.Normal) : Approx (a * b) (a.toRat * b.toRat) := by
  have hpos : 0 < a.value * b.value := Nat.mul_pos (lt_of_lt_of_le (Nat.two_pow_pos 31) ha.1) (lt_of_lt_of_le (Nat.two_pow_pos 31) hb.1)
  have h := (normalize_approx hpos).shift (a.order + b.order)
  have hprod : ((a.value * b.value : Nat) : ℚ) * 2 ^ (a.order + b.order) = a.toRat * b.toRat := by
    unfold BigFloat.toRat
    rw [zpow_add₀ two_ne_zero]
    push_cast
    ring
  rw [mul_eq ha hb, ← hprod]
  exact h

theorem div_approx (ha : a.Normal) (hb : b.Normal) :
    Approx (a / b) (((a.value * 2 ^ 32 / b.value : Nat) : ℚ) * 2 ^ (a.order - (b.order + 32))) := by
  rw [div_eq ha hb]
  exact (normalize_approx (lt_of_lt_of_le (Nat.two_pow_pos 31) (quot_bounds ha hb).1)).shift _

/-- The division of the values drops less than one unit of the quotient. -/
theorem div_floor (ha : a.Normal) (hb : b.Normal) :
    ((a.value * 2 ^ 32 / b.value : Nat) : ℚ) * 2 ^ (a.order - (b.order + 32)) ≤ a.toRat / b.toRat ∧
      a.toRat / b.toRat < ((a.value * 2 ^ 32 / b.value : Nat) : ℚ) * 2 ^ (a.order - (b.order + 32)) * cutFactor := by
  have hbpos : 0 < b.value := lt_of_lt_of_le (Nat.two_pow_pos 31) hb.1
  have hbq : (0 : ℚ) < b.value := by exact_mod_cast hbpos
  have he : (0 : ℚ) < 2 ^ (a.order - (b.order + 32)) := zpow_pos (by norm_num) _
  set Q := a.value * 2 ^ 32 / b.value with hQ
  -- the quotient of the numbers is that of the values, moved
  have hquot : a.toRat / b.toRat = ((a.value * 2 ^ 32 : Nat) : ℚ) / b.value * 2 ^ (a.order - (b.order + 32)) := by
    unfold BigFloat.toRat
    rw [zpow_sub₀ two_ne_zero, zpow_add₀ two_ne_zero]
    push_cast
    field_simp
  have hfloor : (Q : ℚ) ≤ ((a.value * 2 ^ 32 : Nat) : ℚ) / b.value := Nat.cast_div_le
  have hceil : ((a.value * 2 ^ 32 : Nat) : ℚ) / b.value < Q + 1 := by
    rw [div_lt_iff₀ hbq]
    exact_mod_cast (by rw [Nat.mul_comm (Q + 1)]; exact Nat.lt_mul_div_succ _ hbpos : a.value * 2 ^ 32 < (Q + 1) * b.value)
  have hQ31 : (2 : ℚ) ^ 31 ≤ Q := by exact_mod_cast (quot_bounds ha hb).1
  have hunit : (Q : ℚ) + 1 ≤ Q * cutFactor := by
    unfold cutFactor
    linarith
  rw [hquot]
  constructor
  · exact mul_le_mul_of_nonneg_right hfloor he.le
  · calc ((a.value * 2 ^ 32 : Nat) : ℚ) / b.value * 2 ^ (a.order - (b.order + 32))
        < (Q + 1) * 2 ^ (a.order - (b.order + 32)) := mul_lt_mul_of_pos_right hceil he
      _ ≤ Q * cutFactor * 2 ^ (a.order - (b.order + 32)) := mul_le_mul_of_nonneg_right hunit he.le
      _ = Q * 2 ^ (a.order - (b.order + 32)) * cutFactor := by ring

end Ops

/-! ## What `Calculate` computes -/

section Calculate

/-- **The quotient of `Calculate`** is at most a factor `cutFactor` above the exact
ratio of the numbers its operands approximate and less than `cutFactor ^ 5` below it:
the operands, the product and the quotient are each cut to 32 bits, and the division
of the values drops a unit more. -/
theorem quotient_bounds {A B C : BigFloat} {R T S : ℚ} (hA : Approx A R) (hB : Approx B T) (hC : Approx C S) :
    (A * B / C).Normal ∧ (A * B / C).toRat < R * T / S * cutFactor ∧ R * T / S < (A * B / C).toRat * cutFactor ^ 5 := by
  have hP := mul_approx hA.normal hB.normal
  have hX := div_approx hP.normal hC.normal
  have hF := div_floor hP.normal hC.normal
  have ha := hA.normal.toRat_pos
  have hb := hB.normal.toRat_pos
  have hc := hC.normal.toRat_pos
  have hR : 0 < R := lt_of_lt_of_le ha hA.le
  have hT : 0 < T := lt_of_lt_of_le hb hB.le
  have hS : 0 < S := lt_of_lt_of_le hc hC.le
  have hκ : 0 < cutFactor := by unfold cutFactor; norm_num
  refine ⟨hX.normal, ?_, ?_⟩
  · calc (A * B / C).toRat ≤ (A * B).toRat / C.toRat := le_trans hX.le hF.1
      _ ≤ A.toRat * B.toRat / C.toRat := div_le_div_of_nonneg_right hP.le hc.le
      _ ≤ R * T / C.toRat := div_le_div_of_nonneg_right (mul_le_mul hA.le hB.le hb.le hR.le) hc.le
      _ < R * T / S * cutFactor := by
        rw [div_mul_eq_mul_div, div_lt_div_iff₀ hc hS]
        have := mul_lt_mul_of_pos_left hC.lt_mul (mul_pos hR hT)
        linarith
  · have hRT : R * T < A.toRat * B.toRat * cutFactor ^ 2 := by
      have := mul_lt_mul'' hA.lt_mul hB.lt_mul hR.le hT.le
      linarith
    have hAB : A.toRat * B.toRat * cutFactor ^ 2 < (A * B).toRat * cutFactor ^ 3 := by
      have := mul_lt_mul_of_pos_right hP.lt_mul (pow_pos hκ 2)
      linarith
    calc R * T / S < (A * B).toRat * cutFactor ^ 3 / S := (div_lt_div_iff_of_pos_right hS).2 (hRT.trans hAB)
      _ ≤ (A * B).toRat * cutFactor ^ 3 / C.toRat := div_le_div_of_nonneg_left (mul_pos hP.normal.toRat_pos (pow_pos hκ 3)).le hc hC.le
      _ = (A * B).toRat / C.toRat * cutFactor ^ 3 := by ring
      _ < (A * B / C).toRat * cutFactor ^ 2 * cutFactor ^ 3 := by
        apply mul_lt_mul_of_pos_right _ (pow_pos hκ 3)
        have := mul_lt_mul_of_pos_right hX.lt_mul hκ
        linarith [hF.2]
      _ = (A * B / C).toRat * cutFactor ^ 5 := by ring

/-- Where the quotient is normalised with an order from `-7`, `Calculate` packs its
top 25 bits with the order raised by 7. -/
theorem calculate_eq {ref : Nat → Nat} {dh dtTrg dtSrc : Nat} {x : BigFloat}
    (hx : BigFloat.ofUintBig ref 32 * BigFloat.ofOrdinal dtTrg 4 / BigFloat.ofOrdinal (dtSrc * dh % 2 ^ 64) 8 = x)
    (hN : x.Normal) (ho : -7 ≤ x.order) :
    calculate ref dh dtTrg dtSrc = pack (x.order + 7).toNat (x.value / 2 ^ 7) := by
  unfold calculate
  simp only [hx, BigFloat.nBits, mantissaBits]
  rw [if_pos (by have := hN.1; omega), if_pos (by omega), Nat.shiftRight_eq_div_pow]
  rfl

/-- `Calculate` never packs more than `s_Inf`. -/
theorem calculate_le_inf (ref : Nat → Nat) (dh dtTrg dtSrc : Nat) : calculate ref dh dtTrg dtSrc ≤ inf := by
  unfold calculate
  dsimp only
  split
  · split
    · exact pack_le_inf _ _
    · exact Nat.zero_le _
  · exact Nat.zero_le _

/-- The mantissa `Calculate` keeps drops the low 7 bits of the quotient's value, less
than `2 ^ -24` of it. -/
theorem mantissa_bounds {x : BigFloat} (hN : x.Normal) (ho : -7 ≤ x.order) :
    ((x.value / 2 ^ 7 * 2 ^ (x.order + 7).toNat : Nat) : ℚ) ≤ x.toRat ∧
      x.toRat < ((x.value / 2 ^ 7 * 2 ^ (x.order + 7).toNat : Nat) : ℚ) * (1 + 1 / 2 ^ 24) := by
  have he : (0 : ℚ) < 2 ^ x.order := zpow_pos (by norm_num) _
  have hM : 2 ^ 24 ≤ x.value / 2 ^ 7 := by
    rw [Nat.le_div_iff_mul_le (Nat.two_pow_pos 7)]
    exact hN.1
  have hMq : (2 : ℚ) ^ 24 ≤ (x.value / 2 ^ 7 : Nat) := by exact_mod_cast hM
  have hfloor : ((x.value / 2 ^ 7 : Nat) : ℚ) * 2 ^ 7 ≤ x.value := by exact_mod_cast Nat.div_mul_le_self _ _
  have hceil : (x.value : ℚ) < ((x.value / 2 ^ 7 : Nat) : ℚ) * 2 ^ 7 + 2 ^ 7 := by
    exact_mod_cast Nat.lt_div_mul_add (Nat.two_pow_pos 7)
  have hcast : ((x.value / 2 ^ 7 * 2 ^ (x.order + 7).toNat : Nat) : ℚ) = ((x.value / 2 ^ 7 : Nat) : ℚ) * 2 ^ 7 * 2 ^ x.order := by
    rw [Nat.cast_mul, Nat.cast_pow, Nat.cast_ofNat, ← zpow_natCast, show (((x.order + 7).toNat : Nat) : Int) = x.order + 7 by omega,
      zpow_add₀ two_ne_zero]
    norm_num
    ring
  rw [hcast]
  unfold BigFloat.toRat
  constructor
  · exact mul_le_mul_of_nonneg_right hfloor he.le
  · have hstep : ((x.value / 2 ^ 7 : Nat) : ℚ) * 2 ^ 7 + 2 ^ 7 ≤ ((x.value / 2 ^ 7 : Nat) : ℚ) * 2 ^ 7 * (1 + 1 / 2 ^ 24) := by
      nlinarith
    calc (x.value : ℚ) * 2 ^ x.order < (((x.value / 2 ^ 7 : Nat) : ℚ) * 2 ^ 7 + 2 ^ 7) * 2 ^ x.order :=
          mul_lt_mul_of_pos_right hceil he
      _ ≤ ((x.value / 2 ^ 7 : Nat) : ℚ) * 2 ^ 7 * (1 + 1 / 2 ^ 24) * 2 ^ x.order := mul_le_mul_of_nonneg_right hstep he.le
      _ = ((x.value / 2 ^ 7 : Nat) : ℚ) * 2 ^ 7 * 2 ^ x.order * (1 + 1 / 2 ^ 24) := by ring

/-- Within the bounds of the quotient, a ratio in `[2 ^ 25, 2 ^ 255]` leaves the packed
order between `0` and `s_MaxOrder`. -/
theorem order_bounds {x : BigFloat} {q : ℚ} (hN : x.Normal) (hup : x.toRat < q * cutFactor)
    (hdown : q < x.toRat * cutFactor ^ 5) (hlo : 2 ^ 25 ≤ q) (hhi : q ≤ 2 ^ 255) :
    -7 ≤ x.order ∧ x.order + 7 ≤ maxOrder := by
  have hv : (2 : ℚ) ^ 31 ≤ x.value := by exact_mod_cast hN.1
  have hv' : (x.value : ℚ) < 2 ^ 32 := by exact_mod_cast hN.2
  have hκ : 0 < cutFactor := by unfold cutFactor; norm_num
  constructor
  · by_contra h
    -- an order below `-7` leaves the quotient under `2 ^ 24`
    have hsmall : x.toRat < 2 ^ 24 :=
      calc x.toRat < 2 ^ 32 * 2 ^ x.order := mul_lt_mul_of_pos_right hv' (zpow_pos (by norm_num) _)
        _ ≤ 2 ^ 32 * 2 ^ (-8 : Int) := by
          apply mul_le_mul_of_nonneg_left (zpow_le_zpow_right₀ (by norm_num) (by omega)) (by norm_num)
        _ = 2 ^ 24 := by norm_num
    have hκ5 : (2 : ℚ) ^ 24 * cutFactor ^ 5 < 2 ^ 25 := by unfold cutFactor; norm_num
    have := mul_lt_mul_of_pos_right hsmall (pow_pos hκ 5)
    linarith
  · by_contra h
    -- an order above `s_MaxOrder - 7` leaves the quotient at least `2 ^ 256`
    have hlarge : 2 ^ 256 ≤ x.toRat :=
      calc (2 : ℚ) ^ 256 = 2 ^ 31 * 2 ^ (225 : Int) := by norm_num
        _ ≤ (x.value : ℚ) * 2 ^ x.order := by
          apply mul_le_mul hv (zpow_le_zpow_right₀ (by norm_num) _) (by positivity) (by positivity)
          unfold maxOrder mantissaBits at h
          omega
    have hκ1 : (2 : ℚ) ^ 255 * cutFactor < 2 ^ 256 := by unfold cutFactor; norm_num
    have := mul_le_mul_of_nonneg_right hhi hκ.le
    linarith

/-- **Difficulty retarget accuracy.**  `Calculate` packs at most `s_Inf`; and when the
exact ratio `q = ref * dtTrg_s / (dh * dtSrc_s)` is in `[2 ^ 25, 2 ^ 255]`, the raw
difficulty of what it packs is within `q * 2 ^ -22` of `q`. -/
theorem calculate_accuracy (ref : Nat → Nat) (href : Bytes ref 0 32) (dh dtTrg dtSrc : Nat)
    (hdh : 1 ≤ dh) (hdh' : dh < 2 ^ 32) (htrg : 1 ≤ dtTrg) (htrg' : dtTrg < 2 ^ 32)
    (hsrc : 1 ≤ dtSrc) (hsrc' : dtSrc < 2 ^ 32) :
    calculate ref dh dtTrg dtSrc ≤ inf ∧
      ((2 : ℚ) ^ 25 ≤ val ref 0 32 * dtTrg / (dh * dtSrc) → (val ref 0 32 * dtTrg / (dh * dtSrc) : ℚ) ≤ 2 ^ 255 →
        |(val (unpackRaw (calculate ref dh dtTrg dtSrc)) 0 32 : ℚ) - val ref 0 32 * dtTrg / (dh * dtSrc)| ≤
          val ref 0 32 * dtTrg / (dh * dtSrc) * 2 ^ (-22 : Int)) := by
  refine ⟨calculate_le_inf ref dh dtTrg dtSrc, fun hlo hhi => ?_⟩
  set q : ℚ := val ref 0 32 * dtTrg / (dh * dtSrc) with hq
  have hR : 0 < val ref 0 32 := by
    rcases Nat.eq_zero_or_pos (val ref 0 32) with h0 | h0
    · rw [hq, h0] at hlo
      norm_num at hlo
    · exact h0
  have hS : dtSrc * dh < 2 ^ 64 :=
    calc dtSrc * dh < 2 ^ 32 * 2 ^ 32 := Nat.mul_lt_mul'' hsrc' hdh'
      _ = 2 ^ 64 := by norm_num
  -- the three operands, each cut to 32 bits
  have hA : Approx (BigFloat.ofUintBig ref 32) (val ref 0 32) := by
    rw [ofUintBig_eq href]
    exact normalize_approx hR
  have hB : Approx (BigFloat.ofOrdinal dtTrg 4) dtTrg := by
    rw [ofOrdinal_eq (by norm_num; omega)]
    exact normalize_approx (by omega)
  have hC : Approx (BigFloat.ofOrdinal (dtSrc * dh % 2 ^ 64) 8) ((dtSrc * dh : Nat) : ℚ) := by
    rw [Nat.mod_eq_of_lt hS, ofOrdinal_eq (by norm_num; exact hS)]
    exact normalize_approx (Nat.mul_pos (by omega) (by omega))
  obtain ⟨hN, hup, hdown⟩ := quotient_bounds hA hB hC
  have hqeq : (val ref 0 32 : ℚ) * dtTrg / ((dtSrc * dh : Nat) : ℚ) = q := by
    rw [hq]
    push_cast
    ring
  rw [hqeq] at hup hdown
  set x := BigFloat.ofUintBig ref 32 * BigFloat.ofOrdinal dtTrg 4 / BigFloat.ofOrdinal (dtSrc * dh % 2 ^ 64) 8 with hx
  obtain ⟨ho, ho'⟩ := order_bounds hN hup hdown hlo hhi
  -- the packed mantissa has its leading bit at `s_MantissaBits`
  have hM : 2 ^ mantissaBits ≤ x.value / 2 ^ 7 := by
    rw [Nat.le_div_iff_mul_le (Nat.two_pow_pos 7)]
    exact hN.1
  have hM' : x.value / 2 ^ 7 < 2 ^ (mantissaBits + 1) := by
    rw [Nat.div_lt_iff_lt_mul (Nat.two_pow_pos 7)]
    exact hN.2
  rw [calculate_eq hx.symm hN ho, (unpackRaw_pack (by omega) hM hM').1]
  obtain ⟨hD, hD'⟩ := mantissa_bounds hN ho
  set D : ℚ := ((x.value / 2 ^ 7 * 2 ^ (x.order + 7).toNat : Nat) : ℚ) with hDdef
  have hq0 : 0 < q := lt_of_lt_of_le (by norm_num) hlo
  have hD0 : 0 ≤ D := Nat.cast_nonneg _
  rw [show (2 : ℚ) ^ (-22 : Int) = 1 / 2 ^ 22 by norm_num, abs_sub_le_iff]
  constructor
  · -- above: by at most the cut of the quotient
    unfold cutFactor at hup
    linarith
  · -- below: by the five cuts of the quotient and the bits dropped from the mantissa
    have hqD : q < D * (cutFactor ^ 5 * (1 + 1 / 2 ^ 24)) := by
      have hκ : 0 < cutFactor ^ 5 := by unfold cutFactor; norm_num
      have := mul_lt_mul_of_pos_right hD' hκ
      linarith
    have hc : cutFactor ^ 5 * (1 + 1 / 2 ^ 24) * (1 - 1 / 2 ^ 22) ≤ 1 := by unfold cutFactor; norm_num
    have h1 := mul_lt_mul_of_pos_right hqD (by norm_num : (0 : ℚ) < 1 - 1 / 2 ^ 22)
    have h2 := mul_le_mul_of_nonneg_left hc hD0
    linarith

theorem calculate_accuracy_doubling :
    calculate (fun j => if j = 28 then 1 else 0) 1 2 1 ≤ inf ∧
      ((2 : ℚ) ^ 25 ≤ val (fun j => if j = 28 then 1 else 0) 0 32 * (2 : Nat) / ((1 : Nat) * (1 : Nat)) →
        (val (fun j => if j = 28 then 1 else 0) 0 32 * (2 : Nat) / ((1 : Nat) * (1 : Nat)) : ℚ) ≤ 2 ^ 255 →
        |(val (unpackRaw (calculate (fun j => if j = 28 then 1 else 0) 1 2 1)) 0 32 : ℚ) -
            val (fun j => if j = 28 then 1 else 0) 0 32 * (2 : Nat) / ((1 : Nat) * (1 : Nat))| ≤
          val (fun j => if j = 28 then 1 else 0) 0 32 * (2 : Nat) / ((1 : Nat) * (1 : Nat)) * 2 ^ (-22 : Int)) :=
  calculate_accuracy (fun j => if j = 28 then 1 else 0) (fun i _ => by dsimp only; split <;> norm_num) 1 2 1
    (by norm_num) (by norm_num) (by norm_num) (by norm_num) (by norm_num) (by norm_num)

end Calculate

end Beam.Difficulty
