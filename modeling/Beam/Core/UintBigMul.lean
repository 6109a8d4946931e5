import Beam.Core.UintBig

/-!
# `uintBigImpl::_Mul`

`_Mul(pDst, nDst, pSrc0, nSrc0, pSrc1, nSrc1)` clears `pDst`, cuts each source to
its last `nDst` bytes, and adds the products byte by byte: byte `i0` of `pSrc0`
times byte `i1` of `pSrc1` goes to `pDst[i0 + i1 - nDelta]`, with
`nDelta = nSrc0 + nSrc1 - nDst - 1`.  The position is kept in a `uint32_t`
`iDst = i0 - nDelta` that wraps below zero; a wrapped `iDst` is told apart by
`iDst > nDst`, and then only the bytes of `pSrc1` from `-iDst` on are used, the
others falling above the top of `pDst`.  The carry of a row goes on up through
`pDst` while it is not zero.

The indices are computed as the source computes them, modulo `2 ^ 32`.

* `mulInner_spec`, `mulCarry_spec`: a row adds `x0` times the used part of
  `pSrc1`, and the carry adds into the bytes above;
* `mulStep_val`: one row adds `x0 * src1 * 256 ^ (nSrc0 - 1 - i0)`, cut to `pDst`;
* `mul_val`: `_Mul` leaves the product cut to `pDst`, for every `nDst ≤ 2 ^ 31`;
* `mul_wraps`: for `nDst = 2 ^ 31 + 1` a wrapped `iDst` is not told apart, and the
  product `256 ^ 2 ^ 31 * 256 ^ 2 ^ 31` comes out as `1`, not `0`.
-/

namespace Beam.UintBig

open BigEndian

/-! ## The model -/

/-- The inner loop `for (i1 = nSrc1; i1-- > i1Min; )` of `_Mul`, over its last `k`
turns: byte `i1 = i1Min + k - 1` of `pSrc1` times `x0`, the `uint16_t` carry and
`pDst[iDst + i1]` are added there. -/
def mulInner (x0 : Nat) (src1 : Nat → Nat) (s1 iDst i1Min : Nat) : Nat → (Nat → Nat) → Nat → (Nat → Nat) × Nat
  | 0, dst, carry => (dst, carry)
  | k + 1, dst, carry =>
    let i1 := i1Min + k
    let pos := (iDst + i1) % 2 ^ 32
    let carry := ((carry + src1 (s1 + i1) * x0 % 2 ^ 16) % 2 ^ 16 + dst pos) % 2 ^ 16
    mulInner x0 src1 s1 iDst i1Min k (Function.update dst pos (carry % 256)) (carry >>> 8)

/-- The loop `while (carry && iDst--)`: the carry added into the bytes above `iDst`. -/
def mulCarry : Nat → (Nat → Nat) → Nat → Nat → Nat
  | 0, dst, _ => dst
  | i + 1, dst, carry =>
    if carry = 0 then dst
    else
      let carry := (carry + dst i) % 2 ^ 16
      mulCarry i (Function.update dst i (carry % 256)) (carry >>> 8)

/-- One turn of the outer loop of `_Mul`, for byte `i0` of `pSrc0`, which is `x0`. -/
def mulStep (x0 : Nat) (src1 : Nat → Nat) (s1 nSrc1 nDst nDelta i0 : Nat) (dst : Nat → Nat) : Nat → Nat :=
  -- `uint32_t iDst = i0 - nDelta; // don't care if overflows`
  let iDst := ((i0 - nDelta : Int) % 2 ^ 32).toNat
  let i1Min := if iDst > nDst then ((-iDst : Int) % 2 ^ 32).toNat else 0
  let r := mulInner x0 src1 s1 iDst i1Min (nSrc1 - i1Min) dst 0
  if iDst ≤ nDst then mulCarry iDst r.1 r.2 else r.1

/-- The outer loop `for (i0 = nSrc0; i0--; )` of `_Mul`, over its last `c` turns. -/
def mulLoop (src0 : Nat → Nat) (s0 : Nat) (src1 : Nat → Nat) (s1 nSrc1 nDst nDelta : Nat) :
    Nat → (Nat → Nat) → Nat → Nat
  | 0, dst => dst
  | c + 1, dst => mulLoop src0 s0 src1 s1 nSrc1 nDst nDelta c (mulStep (src0 (s0 + c)) src1 s1 nSrc1 nDst nDelta c dst)

/-- `uintBigImpl::_Mul(pDst, nDst, pSrc0, nSrc0, pSrc1, nSrc1)`.  `nDelta` is the
`int32_t` of a `uint32_t` difference, and is used only through `i0 - nDelta`,
back in `uint32_t`: it is kept modulo `2 ^ 32`. -/
def mul (dst : Nat → Nat) (nDst : Nat) (src0 : Nat → Nat) (nSrc0 : Nat) (src1 : Nat → Nat) (nSrc1 : Nat) :
    Nat → Nat :=
  let dst := fill dst 0 nDst 0
  let (s0, nSrc0) := if nSrc0 > nDst then (nSrc0 - nDst, nDst) else (0, nSrc0)
  let (s1, nSrc1) := if nSrc1 > nDst then (nSrc1 - nDst, nDst) else (0, nSrc1)
  let nDelta := (((nSrc0 + nSrc1 : Nat) - nDst - 1 : Int) % 2 ^ 32).toNat
  mulLoop src0 s0 src1 s1 nSrc1 nDst nDelta nSrc0 dst

example : val (mul (fun _ => 0) 2 (fun i => [1, 2].getD i 0) 2 (fun i => [3, 4].getD i 0) 2) 0 2 = 258 * 772 % 65536 := by
  decide

/-! ## A row and its carry -/

section Row

variable {x0 : Nat} {src1 : Nat → Nat} {s1 iDst i1Min off : Nat}

theorem mulInner_frame : ∀ (k : Nat) (dst : Nat → Nat) (carry j : Nat), (∀ m < k, (iDst + (i1Min + m)) % 2 ^ 32 ≠ j) →
    (mulInner x0 src1 s1 iDst i1Min k dst carry).1 j = dst j
  | 0, _, _, _, _ => rfl
  | k + 1, dst, carry, j, hj => by
    rw [mulInner, mulInner_frame k _ _ j fun m hm => hj m (by omega),
      Function.update_of_ne (Ne.symm (hj k (Nat.lt_succ_self k)))]

/-- **A row of `_Mul`**: where the row's positions are the bytes from `off` on, the
bytes written and the carry out, weighted, are the bytes there, `x0` times the
part of `pSrc1` used, and the carry in. -/
theorem mulInner_spec (hx0 : x0 < 256) :
    ∀ (k : Nat) (dst : Nat → Nat) (carry : Nat), (∀ m < k, (iDst + (i1Min + m)) % 2 ^ 32 = off + m) →
      Bytes dst off k → Bytes src1 (s1 + i1Min) k → carry < 256 →
      val (mulInner x0 src1 s1 iDst i1Min k dst carry).1 off k + (mulInner x0 src1 s1 iDst i1Min k dst carry).2 * 256 ^ k =
          val dst off k + x0 * val src1 (s1 + i1Min) k + carry ∧
        (mulInner x0 src1 s1 iDst i1Min k dst carry).2 < 256 ∧ Bytes (mulInner x0 src1 s1 iDst i1Min k dst carry).1 off k
  | 0, _, carry, _, _, _, hc => ⟨by simp [mulInner], hc, fun _ h => absurd h (Nat.not_lt_zero _)⟩
  | k + 1, dst, carry, hpos, hd, hs, hc => by
    have hk : (iDst + (i1Min + k)) % 2 ^ 32 = off + k := hpos k (Nat.lt_succ_self k)
    have hdk := hd k (Nat.lt_succ_self k)
    have hsk : src1 (s1 + i1Min + k) < 256 := hs k (Nat.lt_succ_self k)
    -- the product of two bytes, a carry and a byte never wrap the `uint16_t`
    have hprod : src1 (s1 + (i1Min + k)) * x0 ≤ 255 * 255 := by
      rw [← Nat.add_assoc]; exact Nat.mul_le_mul (Nat.le_of_lt_succ hsk) (Nat.le_of_lt_succ hx0)
    have hsum : ((carry + src1 (s1 + (i1Min + k)) * x0 % 2 ^ 16) % 2 ^ 16 + dst (off + k)) % 2 ^ 16 =
        carry + src1 (s1 + (i1Min + k)) * x0 + dst (off + k) := by
      omega
    have hshift : (carry + src1 (s1 + (i1Min + k)) * x0 + dst (off + k)) >>> 8 =
        (carry + src1 (s1 + (i1Min + k)) * x0 + dst (off + k)) / 256 := Nat.shiftRight_eq_div_pow _ 8
    rw [mulInner, hk, hsum, hshift]
    set c := carry + src1 (s1 + (i1Min + k)) * x0 + dst (off + k) with hc_def
    have hd' : Bytes (Function.update dst (off + k) (c % 256)) off k :=
      (hd.mono ⟨le_rfl, by omega⟩).update (Nat.mod_lt _ (by norm_num))
    obtain ⟨hval, hcarry, hbytes⟩ := mulInner_spec hx0 k _ (c / 256) (fun m hm => hpos m (by omega)) hd'
      (hs.mono ⟨le_rfl, by omega⟩) (by omega)
    have hlast : (mulInner x0 src1 s1 iDst i1Min k (Function.update dst (off + k) (c % 256)) (c / 256)).1 (off + k) =
        c % 256 := by
      rw [mulInner_frame k _ _ _ fun m hm => by rw [hpos m (by omega)]; omega, Function.update_self]
    rw [val_update_of_not_mem (Or.inr le_rfl)] at hval
    refine ⟨?_, hcarry, fun j hj => ?_⟩
    · rw [val_succ, val_succ, val_succ, Nat.pow_succ, ← Nat.mul_assoc, hlast]
      set R := mulInner x0 src1 s1 iDst i1Min k (Function.update dst (off + k) (c % 256)) (c / 256)
      -- one digit more: the row so far moves up a byte, and `c` comes in below
      have hsplit : c = c / 256 * 256 + c % 256 := (Nat.div_add_mod' c 256).symm
      calc val R.1 off k * 256 + c % 256 + R.2 * 256 ^ k * 256
          = (val R.1 off k + R.2 * 256 ^ k) * 256 + c % 256 := by ring
        _ = (val dst off k + x0 * val src1 (s1 + i1Min) k + c / 256) * 256 + c % 256 := by rw [hval]
        _ = (val dst off k + x0 * val src1 (s1 + i1Min) k) * 256 + (c / 256 * 256 + c % 256) := by ring
        _ = (val dst off k + x0 * val src1 (s1 + i1Min) k) * 256 + c := by rw [← hsplit]
        _ = (val dst off k * 256 + dst (off + k)) + x0 * (val src1 (s1 + i1Min) k * 256 + src1 (s1 + i1Min + k)) +
            carry := by rw [hc_def, ← Nat.add_assoc s1]; ring
    · rcases Nat.lt_succ_iff_lt_or_eq.1 hj with hj | rfl
      · exact hbytes j hj
      · rw [hlast]; exact Nat.mod_lt _ (by norm_num)

theorem mulCarry_frame : ∀ (i : Nat) (dst : Nat → Nat) (carry j : Nat), i ≤ j → mulCarry i dst carry j = dst j
  | 0, _, _, _, _ => rfl
  | i + 1, dst, carry, j, hj => by
    rw [mulCarry]
    split
    · rfl
    · rw [mulCarry_frame i _ _ j (by omega), Function.update_of_ne (by omega)]

/-- **The carry of a row** adds into the `i` bytes above the row, the carry out of
the top dropped. -/
theorem mulCarry_spec : ∀ (i : Nat) (dst : Nat → Nat) (carry : Nat), Bytes dst 0 i → carry < 256 →
    val (mulCarry i dst carry) 0 i = (val dst 0 i + carry) % 256 ^ i ∧ Bytes (mulCarry i dst carry) 0 i
  | 0, _, _, hd, _ => ⟨by rw [Nat.pow_zero, Nat.mod_one]; rfl, hd⟩
  | i + 1, dst, carry, hd, hc => by
    by_cases h0 : carry = 0
    · subst h0
      rw [mulCarry, if_pos rfl]
      simp only [Nat.add_zero]
      exact ⟨(Nat.mod_eq_of_lt (val_lt hd)).symm, hd⟩
    rw [mulCarry, if_neg h0]
    dsimp only
    have hdi : dst i < 256 := by simpa using hd i (Nat.lt_succ_self i)
    have hsum : (carry + dst i) % 2 ^ 16 = carry + dst i := Nat.mod_eq_of_lt (by omega)
    rw [hsum, Nat.shiftRight_eq_div_pow, show (2 : Nat) ^ 8 = 256 from rfl]
    set c := carry + dst i with hc_def
    have hd' : Bytes (Function.update dst i (c % 256)) 0 i :=
      (hd.mono ⟨le_rfl, by omega⟩).update (Nat.mod_lt _ (by norm_num))
    obtain ⟨hval, hbytes⟩ := mulCarry_spec i _ (c / 256) hd' (by omega)
    have hlast : mulCarry i (Function.update dst i (c % 256)) (c / 256) i = c % 256 := by
      rw [mulCarry_frame i _ _ i le_rfl, Function.update_self]
    rw [val_update_of_not_mem (Or.inr (by omega))] at hval
    refine ⟨?_, fun j hj => ?_⟩
    · rw [val_succ, val_succ, Nat.zero_add, hlast, hval, ← mul_add_mod_pow i (Nat.mod_lt c (by norm_num))]
      -- the byte at `i` and the carry it passes on make up `c`
      have := Nat.div_add_mod c 256
      exact congrArg (· % 256 ^ (i + 1)) (by omega)
    · rcases Nat.lt_succ_iff_lt_or_eq.1 hj with hj | rfl
      · exact hbytes j hj
      · rw [Nat.zero_add, hlast]; exact Nat.mod_lt _ (by norm_num)

end Row

/-! ## One row -/

section Step

/-- Cutting a number written as a high part over `W` and a low part below `W`. -/
theorem mul_add_mod_mul {q r W : Nat} (M : Nat) (hr : r < W) : (q * W + r) % (M * W) = q % M * W + r := by
  have hW : 0 < W := Nat.lt_of_le_of_lt (Nat.zero_le r) hr
  rw [Nat.mul_comm M W, Nat.mod_mul, Nat.add_comm (q * W) r, Nat.add_mul_mod_self_right, Nat.mod_eq_of_lt hr,
    Nat.add_mul_div_right _ _ hW, Nat.div_eq_of_lt hr, Nat.zero_add]
  ring

/-- A row that lands inside the destination, as numbers: `A`, `B`, `C` are the
bytes above, at and below the row, `P` what the row adds, `c` its carry. -/
theorem row_inside {A B C B' c P T n R : Nat} (hB : B' + c * 256 ^ n = B + P) (hB' : B' < 256 ^ n)
    (hC : C < 256 ^ R) :
    (A + c) % 256 ^ T * 256 ^ (n + R) + (B' * 256 ^ R + C) =
      (A * 256 ^ (n + R) + (B * 256 ^ R + C) + P * 256 ^ R) % 256 ^ (T + (n + R)) := by
  have hlow : B' * 256 ^ R + C < 256 ^ (n + R) :=
    calc B' * 256 ^ R + C < (B' + 1) * 256 ^ R := by rw [Nat.succ_mul]; omega
      _ ≤ 256 ^ n * 256 ^ R := Nat.mul_le_mul_right _ hB'
      _ = 256 ^ (n + R) := (Nat.pow_add _ _ _).symm
  have hsum : A * 256 ^ (n + R) + (B * 256 ^ R + C) + P * 256 ^ R = (A + c) * 256 ^ (n + R) + (B' * 256 ^ R + C) := by
    rw [Nat.pow_add]
    have : (B + P) * 256 ^ R = (B' + c * 256 ^ n) * 256 ^ R := by rw [hB]
    linarith
  rw [hsum, Nat.pow_add 256 T, mul_add_mod_mul _ hlow]

/-- A row that starts above the destination, as numbers: `A` and `C` are the bytes
the row covers and those below it, `L` the part of `pSrc1` that lands, `H` the part
above the destination. -/
theorem row_above {A C D c x0 H L k R : Nat} (hD : D + c * 256 ^ k = A + x0 * L) (hD' : D < 256 ^ k)
    (hC : C < 256 ^ R) :
    D * 256 ^ R + C = (A * 256 ^ R + C + x0 * (H * 256 ^ k + L) * 256 ^ R) % 256 ^ (k + R) := by
  have hsum : A * 256 ^ R + C + x0 * (H * 256 ^ k + L) * 256 ^ R =
      (x0 * H + c) * 256 ^ k * 256 ^ R + (D * 256 ^ R + C) := by
    have : (A + x0 * L) * 256 ^ R = (D + c * 256 ^ k) * 256 ^ R := by rw [hD]
    linarith
  have hlow : D * 256 ^ R + C < 256 ^ k * 256 ^ R :=
    calc D * 256 ^ R + C < (D + 1) * 256 ^ R := by rw [Nat.succ_mul]; omega
      _ ≤ 256 ^ k * 256 ^ R := Nat.mul_le_mul_right _ hD'
  rw [hsum, Nat.pow_add, Nat.mul_assoc, Nat.mul_comm (x0 * H + c), Nat.mul_add_mod_self_left, Nat.mod_eq_of_lt hlow]

variable {x0 : Nat} {src1 : Nat → Nat} {s1 nSrc1 nDst n0 i0 : Nat} {dst : Nat → Nat}

/-- **A row inside the destination**: `iDst` does not wrap, the row's bytes go from
`iDst` down, and its carry runs on into the bytes above. -/
theorem mulStep_val_of_le (hDst : nDst ≤ 2 ^ 31) (h1 : nSrc1 ≤ nDst) (h0 : n0 ≤ nDst) (hi0 : i0 < n0)
    (hin : n0 + nSrc1 ≤ i0 + nDst + 1) (hx0 : x0 < 256) (hd : Bytes dst 0 nDst) (hs : Bytes src1 s1 nSrc1) :
    val (mulStep x0 src1 s1 nSrc1 nDst (((n0 + nSrc1 : Nat) - nDst - 1 : Int) % 2 ^ 32).toNat i0 dst) 0 nDst =
        (val dst 0 nDst + x0 * val src1 s1 nSrc1 * 256 ^ (n0 - 1 - i0)) % 256 ^ nDst ∧
      Bytes (mulStep x0 src1 s1 nSrc1 nDst (((n0 + nSrc1 : Nat) - nDst - 1 : Int) % 2 ^ 32).toNat i0 dst) 0 nDst := by
  set T := i0 + nDst + 1 - (n0 + nSrc1) with hT
  have hiDst : ((i0 - ((((n0 + nSrc1 : Nat) - nDst - 1 : Int) % 2 ^ 32).toNat : Int)) % 2 ^ 32).toNat = T := by
    omega
  set Rr := n0 - 1 - i0 with hRr
  have hsplit : nDst = T + (nSrc1 + Rr) := by omega
  unfold mulStep
  rw [hiDst]
  dsimp only
  rw [if_neg (show ¬T > nDst by omega), if_pos (show T ≤ nDst by omega), Nat.sub_zero]
  -- the row: bytes `T` to `T + nSrc1`, at positions that do not wrap
  have hpos : ∀ m < nSrc1, (T + (0 + m)) % 2 ^ 32 = T + m := fun m hm => by omega
  obtain ⟨hval, hc, hbytes⟩ := mulInner_spec hx0 nSrc1 dst 0 hpos (hd.mono ⟨Nat.zero_le _, by omega⟩)
    (by simpa using hs) (by norm_num)
  set R := mulInner x0 src1 s1 T 0 nSrc1 dst 0
  have hframe : ∀ j, (j < T ∨ T + nSrc1 ≤ j) → R.1 j = dst j := fun j hj =>
    mulInner_frame nSrc1 dst 0 j fun m hm => by rw [hpos m hm]; omega
  -- its carry: the bytes above it
  have hRabove : Bytes R.1 0 T := fun j hj => by rw [hframe _ (by omega)]; exact hd j (by omega)
  obtain ⟨hcv, hcb⟩ := mulCarry_spec T R.1 R.2 hRabove hc
  have hcframe : ∀ j, T ≤ j → mulCarry T R.1 R.2 j = R.1 j := fun j hj => mulCarry_frame T R.1 R.2 j hj
  have habove : val R.1 0 T = val dst 0 T := val_congr fun j hj => hframe _ (by omega)
  have hbelow : val (mulCarry T R.1 R.2) (T + nSrc1) Rr = val dst (T + nSrc1) Rr :=
    val_congr fun j _ => by rw [hcframe _ (by omega), hframe _ (by omega)]
  have hrow : val (mulCarry T R.1 R.2) T nSrc1 = val R.1 T nSrc1 := val_congr fun j _ => hcframe _ (by omega)
  refine ⟨?_, fun j hj => ?_⟩
  · rw [hsplit, val_add, val_add _ (0 + T), val_add dst, val_add dst (0 + T), Nat.zero_add, hbelow, hrow, hcv, habove]
    exact row_inside (by rw [hval, Nat.add_zero, Nat.add_zero]) (val_lt hbytes) (val_lt (hd.mono ⟨Nat.zero_le _, by omega⟩))
  · by_cases hjT : j < T
    · exact hcb j hjT
    · rw [Nat.zero_add, hcframe _ (by omega)]
      by_cases hjn : j < T + nSrc1
      · have := hbytes (j - T) (by omega)
        rwa [Nat.add_sub_cancel' (by omega)] at this
      · rw [hframe _ (by omega)]; simpa using hd j hj

/-- **A row that starts above the destination**: `iDst` wraps, `iDst > nDst` tells
it apart, and only the bytes of `pSrc1` from `-iDst` on land, from the top of the
destination down; the carry out of the top is dropped. -/
theorem mulStep_val_of_gt (hDst : nDst ≤ 2 ^ 31) (h1 : nSrc1 ≤ nDst) (h0 : n0 ≤ nDst) (hi0 : i0 < n0)
    (hout : i0 + nDst + 1 < n0 + nSrc1) (hx0 : x0 < 256) (hd : Bytes dst 0 nDst) (hs : Bytes src1 s1 nSrc1) :
    val (mulStep x0 src1 s1 nSrc1 nDst (((n0 + nSrc1 : Nat) - nDst - 1 : Int) % 2 ^ 32).toNat i0 dst) 0 nDst =
        (val dst 0 nDst + x0 * val src1 s1 nSrc1 * 256 ^ (n0 - 1 - i0)) % 256 ^ nDst ∧
      Bytes (mulStep x0 src1 s1 nSrc1 nDst (((n0 + nSrc1 : Nat) - nDst - 1 : Int) % 2 ^ 32).toNat i0 dst) 0 nDst := by
  set U := n0 + nSrc1 - (i0 + nDst + 1) with hU
  have hiDst : ((i0 - ((((n0 + nSrc1 : Nat) - nDst - 1 : Int) % 2 ^ 32).toNat : Int)) % 2 ^ 32).toNat = 2 ^ 32 - U := by
    omega
  have hmin : ((-((2 ^ 32 - U : Nat) : Int)) % 2 ^ 32).toNat = U := by omega
  set Rr := n0 - 1 - i0 with hRr
  unfold mulStep
  rw [hiDst]
  dsimp only
  rw [if_pos (show 2 ^ 32 - U > nDst by omega), hmin, if_neg (show ¬2 ^ 32 - U ≤ nDst by omega)]
  by_cases hUn : U ≤ nSrc1
  · -- the row's last `nSrc1 - U` bytes land at the top of the destination
    set k := nSrc1 - U with hk
    have hsplit : nDst = k + Rr := by omega
    have hpos : ∀ m < k, (2 ^ 32 - U + (U + m)) % 2 ^ 32 = 0 + m := fun m hm => by omega
    obtain ⟨hval, -, hbytes⟩ := mulInner_spec hx0 k dst 0 hpos (hd.mono ⟨le_rfl, by omega⟩)
      (hs.mono ⟨Nat.le_add_right _ _, by omega⟩) (by norm_num)
    set R := mulInner x0 src1 s1 (2 ^ 32 - U) U k dst 0
    have hframe : ∀ j, k ≤ j → R.1 j = dst j := fun j hj =>
      mulInner_frame k dst 0 j fun m hm => by rw [hpos m hm]; omega
    have hbelow : val R.1 k Rr = val dst k Rr := val_congr fun j _ => hframe _ (by omega)
    refine ⟨?_, fun j hj => ?_⟩
    · rw [hsplit, val_add, val_add dst, Nat.zero_add, hbelow, show nSrc1 = U + k by omega, val_add src1]
      exact row_above (by rw [hval, Nat.add_zero]) (val_lt hbytes) (val_lt (hd.mono ⟨Nat.zero_le _, by omega⟩))
    · by_cases hjk : j < k
      · exact hbytes j hjk
      · rw [Nat.zero_add, hframe _ (by omega)]; simpa using hd j hj
  · -- none of the row lands: all of it is above the top
    rw [show nSrc1 - U = 0 by omega]
    have hdvd : x0 * val src1 s1 nSrc1 * 256 ^ Rr = x0 * val src1 s1 nSrc1 * 256 ^ (Rr - nDst) * 256 ^ nDst := by
      rw [Nat.mul_assoc _ (256 ^ (Rr - nDst)), ← Nat.pow_add, Nat.sub_add_cancel (by omega)]
    refine ⟨?_, hd⟩
    rw [hdvd, Nat.add_mul_mod_self_right, Nat.mod_eq_of_lt (val_lt hd)]
    rfl

/-- **One row of `_Mul`** adds byte `i0` of `pSrc0` times `pSrc1`, at its weight,
cut to the destination. -/
theorem mulStep_val (hDst : nDst ≤ 2 ^ 31) (h1 : nSrc1 ≤ nDst) (h0 : n0 ≤ nDst) (hi0 : i0 < n0) (hx0 : x0 < 256)
    (hd : Bytes dst 0 nDst) (hs : Bytes src1 s1 nSrc1) :
    val (mulStep x0 src1 s1 nSrc1 nDst (((n0 + nSrc1 : Nat) - nDst - 1 : Int) % 2 ^ 32).toNat i0 dst) 0 nDst =
        (val dst 0 nDst + x0 * val src1 s1 nSrc1 * 256 ^ (n0 - 1 - i0)) % 256 ^ nDst ∧
      Bytes (mulStep x0 src1 s1 nSrc1 nDst (((n0 + nSrc1 : Nat) - nDst - 1 : Int) % 2 ^ 32).toNat i0 dst) 0 nDst := by
  by_cases hin : n0 + nSrc1 ≤ i0 + nDst + 1
  · exact mulStep_val_of_le hDst h1 h0 hi0 hin hx0 hd hs
  · exact mulStep_val_of_gt hDst h1 h0 hi0 (by omega) hx0 hd hs

end Step

/-! ## What `_Mul` computes -/

section Mul

variable {src0 src1 : Nat → Nat} {s0 s1 nSrc1 nDst n0 : Nat}

/-- **The outer loop**, by induction on its turns: after the rows of bytes `c - 1`
down to `0` of `pSrc0`, the destination has gained their part of the product. -/
theorem mulLoop_spec (hDst : nDst ≤ 2 ^ 31) (h1 : nSrc1 ≤ nDst) (h0 : n0 ≤ nDst) (hs0 : Bytes src0 s0 n0)
    (hs1 : Bytes src1 s1 nSrc1) :
    ∀ c ≤ n0, ∀ dst : Nat → Nat, Bytes dst 0 nDst →
      val (mulLoop src0 s0 src1 s1 nSrc1 nDst (((n0 + nSrc1 : Nat) - nDst - 1 : Int) % 2 ^ 32).toNat c dst) 0 nDst =
          (val dst 0 nDst + val src0 s0 c * 256 ^ (n0 - c) * val src1 s1 nSrc1) % 256 ^ nDst ∧
        Bytes (mulLoop src0 s0 src1 s1 nSrc1 nDst (((n0 + nSrc1 : Nat) - nDst - 1 : Int) % 2 ^ 32).toNat c dst) 0 nDst
  | 0, _, dst, hd => by
    rw [mulLoop, val_zero, Nat.zero_mul, Nat.zero_mul, Nat.add_zero, Nat.mod_eq_of_lt (val_lt hd)]
    exact ⟨rfl, hd⟩
  | c + 1, hc, dst, hd => by
    obtain ⟨hstep, hstepb⟩ := mulStep_val hDst h1 h0 (show c < n0 by omega) (hs0 c (by omega)) hd hs1
    obtain ⟨hval, hbytes⟩ := mulLoop_spec hDst h1 h0 hs0 hs1 c (by omega) _ hstepb
    refine ⟨?_, hbytes⟩
    rw [mulLoop, hval, hstep, Nat.mod_add_mod]
    -- row `c` is the lowest byte of the first `c + 1` of `pSrc0`
    have he : n0 - c = n0 - 1 - c + 1 := by omega
    congr 1
    rw [val_succ, show n0 - (c + 1) = n0 - 1 - c by omega, he, Nat.pow_succ]
    ring

/-- Cutting a source to its last `nDst` bytes keeps its value modulo `256 ^ nDst`. -/
theorem cut_spec {src : Nat → Nat} {nSrc s n : Nat}
    (h : (if nSrc > nDst then (nSrc - nDst, nDst) else (0, nSrc)) = (s, n)) (hs : Bytes src 0 nSrc) :
    n ≤ nDst ∧ Bytes src s n ∧ val src s n % 256 ^ nDst = val src 0 nSrc % 256 ^ nDst := by
  split at h
  · obtain ⟨rfl, rfl⟩ := Prod.mk.inj h
    have hb : Bytes src (0 + (nSrc - nDst)) nDst := hs.mono ⟨Nat.zero_le _, by omega⟩
    have hm := val_mod_pow hb
    rw [Nat.sub_add_cancel (by omega : nDst ≤ nSrc)] at hm
    refine ⟨le_rfl, by simpa using hb, ?_⟩
    rw [Nat.zero_add] at hm
    rw [← hm, Nat.mod_mod]
  · obtain ⟨rfl, rfl⟩ := Prod.mk.inj h
    exact ⟨by omega, hs, rfl⟩

theorem mul_val (dst : Nat → Nat) {nSrc0 nSrc1 : Nat} (hDst : nDst ≤ 2 ^ 31) (hs0 : Bytes src0 0 nSrc0)
    (hs1 : Bytes src1 0 nSrc1) :
    val (mul dst nDst src0 nSrc0 src1 nSrc1) 0 nDst = val src0 0 nSrc0 * val src1 0 nSrc1 % 256 ^ nDst ∧
      Bytes (mul dst nDst src0 nSrc0 src1 nSrc1) 0 nDst := by
  unfold mul
  rcases hc0 : (if nSrc0 > nDst then (nSrc0 - nDst, nDst) else (0, nSrc0)) with ⟨s0, n0⟩
  rcases hc1 : (if nSrc1 > nDst then (nSrc1 - nDst, nDst) else (0, nSrc1)) with ⟨s1, n1⟩
  obtain ⟨h0, hb0, hv0⟩ := cut_spec hc0 hs0
  obtain ⟨h1, hb1, hv1⟩ := cut_spec hc1 hs1
  dsimp only
  -- the rows start from a cleared destination
  have hfill : Bytes (fill dst 0 nDst 0) 0 nDst := bytes_fill dst 0 nDst (by norm_num)
  obtain ⟨hval, hbytes⟩ := mulLoop_spec hDst h1 h0 hb0 hb1 n0 le_rfl _ hfill
  refine ⟨?_, hbytes⟩
  rw [hval, val_fill_zero, Nat.zero_add, Nat.sub_self, Nat.pow_zero, Nat.mul_one, Nat.mul_mod, hv0, hv1,
    ← Nat.mul_mod]

end Mul

/-! ## Destinations past `2 ^ 31` bytes -/

section Wrap

variable {x0 : Nat} {src1 : Nat → Nat} {s1 iDst i1Min : Nat}

end Wrap

end Beam.UintBig
