import Beam.Lib.BigEndian
import Mathlib.Data.Nat.Size
import Mathlib.Tactic.Linarith

/-!
# `uintBigImpl`: big numbers as byte arrays

`src/core/uintBig.cpp`.  A `uintBig_t<nBytes>` keeps its value in `m_pData`,
`nBytes` bytes, the highest first; `uintBigImpl` computes on such arrays through
pointers and sizes.  Each routine is modelled on buffers `Nat → Nat` with the
offsets the source's pointer arithmetic gives, and its loops as recursions on
their counters; `uint16_t` carries keep their `% 2 ^ 16`.

Each routine has one lemma saying what it computes on values, for byte buffers:

* `incSrc_val`: `_Inc` adds, the carry going out;
* `shiftLeft_val`: `_ShiftLeft` multiplies by `2 ^ nBits`, cut to the destination;
* `shiftRight_val`: `_ShiftRight` divides by `2 ^ nBits`, cut to the destination;
* `assignSafe_val`, `assignOrdinal_val`: `_AssignSafe` on a zero buffer with room
  writes `x` moved left by the offset, and `AssignOrdinal` writes `x`;
* `exportAligned_eq`: `_ExportAligned` reads the value back;
* `cmp_eq_compare`: `_Cmp` compares the values;
* `getOrder_eq_size`: `_GetOrder` is the bit length;
* `div_spec`: `_Div` sets the bits of the quotient from the top, each one kept
  when the product it gives is still at most `a`.  The top bit it tries is
  the lower of the divisor's room in `a` and the top bit of the destination,
  so the quotient is cut to the destination, and a zero divisor gives all ones
  below that bit.
-/

namespace Beam.UintBig

open BigEndian

/-! ## `_Inc` -/

/-- The loop `for (i = nDst; i--; )` of `_Inc(pDst, nDst, pSrc)`: byte `i` of
`pSrc` and the `uint16_t` carry are added to byte `i` of `pDst`. -/
def incSrcLoop (src : Nat → Nat) (soff off : Nat) : Nat → (Nat → Nat) → Nat → (Nat → Nat) × Nat
  | 0, dst, carry => (dst, carry)
  | i + 1, dst, carry =>
    let carry := ((carry + dst (off + i)) % 2 ^ 16 + src (soff + i)) % 2 ^ 16
    incSrcLoop src soff off i (Function.update dst (off + i) (carry % 256)) (carry >>> 8)

/-- `uintBigImpl::_Inc(pDst, nDst, pSrc)`: adds the `nDst` bytes of `pSrc` to
those of `pDst` and returns the carry out. -/
def incSrc (dst : Nat → Nat) (off nDst : Nat) (src : Nat → Nat) (soff : Nat) : (Nat → Nat) × Nat :=
  let r := incSrcLoop src soff off nDst dst 0
  (r.1, r.2 % 256)

/-- `uintBigImpl::_Inc(pDst, nDst)`: adds one from the last byte up, stopping at
the first byte that does not wrap; the carry out. -/
def incOne (off : Nat) : Nat → (Nat → Nat) → (Nat → Nat) × Nat
  | 0, dst => (dst, 1)
  | i + 1, dst =>
    let v := (dst (off + i) + 1) % 256
    if v ≠ 0 then (Function.update dst (off + i) v, 0)
    else incOne off i (Function.update dst (off + i) v)

/-- `uintBigImpl::_Inc(pDst, nDst, pSrc, nSrc)`: a source at least as long is cut
to its last `nDst` bytes; a shorter one is added to the last `nSrc` bytes of
`pDst`, and its carry propagated above them. -/
def inc (dst : Nat → Nat) (nDst : Nat) (src : Nat → Nat) (nSrc : Nat) : (Nat → Nat) × Nat :=
  if nDst ≤ nSrc then incSrc dst 0 nDst src (nSrc - nDst)
  else
    let r := incSrc dst (nDst - nSrc) nSrc src 0
    if r.2 = 0 then (r.1, 0) else incOne 0 (nDst - nSrc) r.1

/-! ## `_ShiftLeft` -/

/-- The body of the bit loop of `_ShiftLeft` for byte `i`: `pDst[i] = pSrc[i] << nBits`
cut to a byte, then the top bits of `pSrc[i + 1]` or-ed in when there is one. -/
def shiftByte (off : Nat) (src : Nat → Nat) (soff nSrc nBits i : Nat) (d : Nat → Nat) : Nat → Nat :=
  let d := Function.update d (off + i) ((src (soff + i) <<< nBits) % 256)
  if i + 1 < nSrc then Function.update d (off + i) (d (off + i) ||| src (soff + i + 1) >>> (8 - nBits)) else d

/-- The bit loop `for (i = 0; i < nSrc; i++)` of `_ShiftLeft`, over its first `k` bytes. -/
def shiftBytes (off : Nat) (src : Nat → Nat) (soff nSrc nBits : Nat) : Nat → (Nat → Nat) → Nat → Nat
  | 0, d => d
  | k + 1, d => shiftByte off src soff nSrc nBits k (shiftBytes off src soff nSrc nBits k d)

/-- The middle of `_ShiftLeft`, once the pointers are set: the `nSrc` bytes of
`pSrc + soff` go to `pDst + off` moved left by `nBits < 8`, and when `pDst` has
room above them the bits moved out of the first byte go to `pDst[-1]`; without
a bit shift, a `memmove`. -/
def shiftBits (dst : Nat → Nat) (off : Nat) (src : Nat → Nat) (soff nSrc nBits : Nat) (room : Bool) :
    Nat → Nat :=
  if nBits ≠ 0 then
    if nSrc ≠ 0 then
      shiftBytes off src soff nSrc nBits nSrc
        (if room then Function.update dst (off - 1) (src soff >>> (8 - nBits)) else dst)
    else dst
  else copy dst off src soff nSrc

/-- `uintBigImpl::_ShiftLeft(pDst, nDst, pSrc, nSrc, nBits)`, with `pDst` and
`pSrc` apart. -/
def shiftLeft (dst : Nat → Nat) (nDst : Nat) (src : Nat → Nat) (nSrc nBits : Nat) : Nat → Nat :=
  -- a shift by `nDst` bytes or more leaves `nDst = nBits = 0` and clears all of `pDst`
  let (nBytes, nDst, nBits) :=
    if nDst ≤ nBits >>> 3 then (nDst, 0, 0) else (nBits >>> 3, nDst - (nBits >>> 3), nBits &&& 7)
  if nDst < nSrc then
    -- `pSrc` is cut to its last `nDst` bytes, after which `nSrc = nDst` leaves no room above
    fill (shiftBits dst 0 src (nSrc - nDst) nDst nBits false) nDst nBytes 0
  else
    fill (shiftBits (fill dst 0 (nDst - nSrc) 0) (nDst - nSrc) src 0 nSrc nBits (nSrc < nDst)) nDst nBytes 0

/-! ## `_ShiftRight` -/

/-- The body of the bit loop of `_ShiftRight` for byte `i`: `pDst[i] = pSrc[i] >> nBits`,
then, when the source has a byte before it, that byte's low bits or-ed in at the top,
cut to a byte. -/
def shiftRightByte (off : Nat) (src : Nat → Nat) (soff nSrc nDst nBits i : Nat) (d : Nat → Nat) : Nat → Nat :=
  let d := Function.update d (off + i) (src (soff + i) >>> nBits)
  if nDst < nSrc + i then
    Function.update d (off + i) ((d (off + i) ||| src (soff + i - 1) <<< (8 - nBits)) % 256)
  else d

/-- The bit loop `for (i = nDst; i--; )` of `_ShiftRight` over its first `k` bytes, the
last of them first. -/
def shiftRightBytes (off : Nat) (src : Nat → Nat) (soff nSrc nDst nBits : Nat) : Nat → (Nat → Nat) → Nat → Nat
  | 0, d => d
  | k + 1, d => shiftRightBytes off src soff nSrc nDst nBits k (shiftRightByte off src soff nSrc nDst nBits k d)

/-- `uintBigImpl::_ShiftRight(pDst, nDst, pSrc, nSrc, nBits)`, with `pDst` and `pSrc`
apart. -/
def shiftRight (dst : Nat → Nat) (nDst : Nat) (src : Nat → Nat) (nSrc nBits : Nat) : Nat → Nat :=
  -- the whole bytes of the shift drop off the end of `pSrc`; a shift past its start leaves `nSrc = nBits = 0`
  let (nSrc, nBits) := if nSrc ≤ nBits >>> 3 then (0, 0) else (nSrc - nBits >>> 3, nBits &&& 7)
  -- a longer `pDst` is written in its last `nSrc` bytes, a shorter one from the last `nDst` of `pSrc`
  let (off, soff, nDst) := if nSrc < nDst then (nDst - nSrc, 0, nSrc) else (0, nSrc - nDst, nDst)
  fill (if nBits ≠ 0 then shiftRightBytes off src soff nSrc nDst nBits nDst dst else copy dst off src soff nDst)
    0 off 0

/-! ## The shifts in place -/

/-- `uintBigImpl::_Cmp`: the longer number must be zero in its extra top bytes,
then `memcmp` of the rest. -/
def cmp (src0 : Nat → Nat) (nSrc0 : Nat) (src1 : Nat → Nat) (nSrc1 : Nat) : Ordering :=
  if nSrc1 < nSrc0 then
    if memis0 src0 0 (nSrc0 - nSrc1) then memcmp src0 (nSrc0 - nSrc1) src1 0 nSrc1 else .gt
  else if nSrc0 < nSrc1 then
    if memis0 src1 0 (nSrc1 - nSrc0) then memcmp src0 0 src1 (nSrc1 - nSrc0) nSrc0 else .lt
  else memcmp src0 0 src1 0 nSrc0

/-- `while (x >>= 1) nOrder++`: how often `x` halves before it is zero. -/
def halvings (x : Nat) : Nat :=
  if x >>> 1 = 0 then 0 else halvings (x >>> 1) + 1
termination_by x
decreasing_by rw [Nat.shiftRight_one] at *; omega

/-- The loop `for (nByte = 0; ; nByte++)` of `_GetOrder`, with `k = nDst - nByte`
bytes left: the first nonzero byte gives the order. -/
def getOrderLoop (p : Nat → Nat) (nDst : Nat) : Nat → Nat → Nat
  | _, 0 => 0
  | nByte, k + 1 =>
    if p nByte = 0 then getOrderLoop p nDst (nByte + 1) k
    else ((nDst - nByte) <<< 3) - 7 + halvings (p nByte)

/-- `uintBigImpl::_GetOrder`: how far the number must be shifted right to reach zero. -/
def getOrder (p : Nat → Nat) (nDst : Nat) : Nat :=
  getOrderLoop p nDst 0 nDst

/-! ## `_Div` -/

/-- The buffers `_Div` works on: `pDst`, `pMul` and `pTmp`. -/
structure DivState where
  dst : Nat → Nat
  mul : Nat → Nat
  tmp : Nat → Nat

/-- The body of the loop of `_Div` for one `nShift`: `pTmp = (pB << nShift) + pMul`;
unless the addition wrapped or went past `pA`, `pMul` takes it and bit `nShift`
of `pDst` is set. -/
def divStep (a : Nat → Nat) (nA : Nat) (b : Nat → Nat) (nB nDst nShift : Nat) (s : DivState) : DivState :=
  let tmp := (inc (shiftLeft s.tmp nA b nB nShift) nA s.mul nA).1
  if cmp s.mul nA tmp nA = .gt then { s with tmp }
  else if cmp a nA tmp nA = .lt then { s with tmp }
  else
    let i := nDst - (nShift >>> 3) - 1
    ⟨Function.update s.dst i (s.dst i ||| 1 <<< (7 &&& nShift)), copy s.mul 0 tmp 0 nA, tmp⟩

/-- The loop `for (nShift = …; nShift--; )` of `_Div`, from `nShift` down to zero. -/
def divLoop (a : Nat → Nat) (nA : Nat) (b : Nat → Nat) (nB nDst : Nat) : Nat → DivState → DivState
  | 0, s => s
  | nShift + 1, s => divLoop a nA b nB nDst nShift (divStep a nA b nB nDst nShift s)

/-- `uintBigImpl::_Div(pDst, nDst, pA, nA, pB, nB, pMul, pTmp)`. -/
def div (dst : Nat → Nat) (nDst : Nat) (a : Nat → Nat) (nA : Nat) (b : Nat → Nat) (nB : Nat)
    (mul tmp : Nat → Nat) : DivState :=
  let s : DivState := ⟨fill dst 0 nDst 0, fill mul 0 nA 0, tmp⟩
  let nOrder := getOrder b nB
  if nA <<< 3 < nOrder then s
  else divLoop a nA b nB nDst (1 + min ((nA <<< 3) - nOrder) ((nDst <<< 3) - 1)) s

/-- `uintBig_t::SetDiv(a, b, mul)` on a number of `nDst` bytes, `tmp` being its
uninitialised `uintBig_t<nBytesA> tmp`: the quotient and `mul`. -/
def setDiv (this : Nat → Nat) (nDst : Nat) (a : Nat → Nat) (nA : Nat) (b : Nat → Nat) (nB : Nat)
    (mul tmp : Nat → Nat) : (Nat → Nat) × (Nat → Nat) :=
  let s := div this nDst a nA b nB mul tmp
  (s.dst, s.mul)

/-! ## `_AssignRangeAligned`, `_AssignSafe`, `_ExportAligned` and `_Inv` -/

/-- The loop `for (i = nBytesX; i--; x >>= 8)` of `_AssignRangeAligned`: byte `base + i`
gets the low byte of `x`, the highest `i` first. -/
def assignRangeLoop (base : Nat) : Nat → Nat → (Nat → Nat) → Nat → Nat
  | 0, _, d => d
  | i + 1, x, d => assignRangeLoop base i (x >>> 8) (Function.update d (base + i) (x % 256))

/-- `uintBigImpl::_AssignRangeAligned(pDst, nDst, x, nOffsetBytes, nBytesX)`: the
`nBytesX` low bytes of `x`, ending `nOffsetBytes` bytes before the end of `pDst`. -/
def assignRangeAligned (dst : Nat → Nat) (nDst x nOffsetBytes nBytesX : Nat) : Nat → Nat :=
  assignRangeLoop (nDst - (nOffsetBytes + nBytesX)) nBytesX x dst

/-- `uintBigImpl::_AssignRangeAlignedSafe`: as many low bytes of `x` as fit above the
offset, and whether all of them did. -/
def assignRangeAlignedSafe (dst : Nat → Nat) (nDst x nOffsetBytes nBytesX : Nat) : (Nat → Nat) × Bool :=
  if nDst < nOffsetBytes then (dst, false)
  else
    let n := nDst - nOffsetBytes
    (assignRangeAligned dst nDst x nOffsetBytes (if nBytesX ≤ n then nBytesX else n), decide (nBytesX ≤ n))

/-- `uintBigImpl::_AssignSafe(pDst, nDst, x, nOffset)` for an unsigned `x` of `size`
bytes: `x` moved left by the bits of the offset below a byte, written above its whole
bytes, and the bits moved out of its top written to the byte above; `false` when
something did not fit. -/
def assignSafe (dst : Nat → Nat) (nDst size x nOffset : Nat) : (Nat → Nat) × Bool :=
  let nOffsetBytes := nOffset >>> 3
  let nOffset := nOffset &&& 7
  let r := assignRangeAlignedSafe dst nDst ((x <<< nOffset) % 2 ^ (8 * size)) nOffsetBytes size
  if r.2 then
    if nOffset ≠ 0 then
      -- `nDst - 1` is a `uint32_t`
      if (nDst + 2 ^ 32 - 1) % 2 ^ 32 < nOffsetBytes + size then (r.1, false)
      else (Function.update r.1 (nDst - 1 - (nOffsetBytes + size)) ((x >>> (8 * size - nOffset)) % 256), true)
    else (r.1, true)
  else (r.1, false)

/-- `uintBig_t<nBytes>::AssignOrdinal(x)` for an unsigned `x` of `size` bytes: zeros
above, then `AssignRange<T, 0>(x)` into the last `size` bytes. -/
def assignOrdinal (dst : Nat → Nat) (nBytes size x : Nat) : Nat → Nat :=
  assignRangeAligned (fill dst 0 (nBytes - size) 0) nBytes x 0 size

/-- `uintBigImpl::_ExportAligned(out, pDst, nDst)` into a `w`-bit unsigned `T`:
`out = pDst[0]`, then `out = (out << 8) | pDst[i]` for each byte after it. -/
def exportAligned (w : Nat) (p : Nat → Nat) : Nat → Nat
  | n + 2 => (exportAligned w p (n + 1) <<< 8) % 2 ^ w ||| p (n + 1)
  | _ => p 0

/-- `uintBigImpl::_Inv(pDst, nDst)`: every byte complemented. -/
def inv (p : Nat → Nat) (nDst : Nat) : Nat → Nat := fun j => if j < nDst then p j ^^^ 255 else p j

/-! ## What `_Inc` computes -/

section Inc

variable {src : Nat → Nat} {soff off : Nat}

theorem incSrcLoop_frame : ∀ (i : Nat) (dst : Nat → Nat) (carry j : Nat), (j < off ∨ off + i ≤ j) →
    (incSrcLoop src soff off i dst carry).1 j = dst j
  | 0, _, _, _, _ => rfl
  | i + 1, dst, carry, j, hj => by
    rw [incSrcLoop, incSrcLoop_frame i _ _ j (by omega), Function.update_of_ne (by omega)]

/-- **The carry chain of `_Inc`**: the bytes written and the carry out, weighted,
are the two numbers and the carry in. -/
theorem incSrcLoop_spec : ∀ (i : Nat) (dst : Nat → Nat) (carry : Nat), Bytes dst off i → Bytes src soff i →
    carry ≤ 1 →
    val (incSrcLoop src soff off i dst carry).1 off i + (incSrcLoop src soff off i dst carry).2 * 256 ^ i =
        val dst off i + val src soff i + carry ∧
      (incSrcLoop src soff off i dst carry).2 ≤ 1 ∧ Bytes (incSrcLoop src soff off i dst carry).1 off i
  | 0, _, carry, _, _, hc => ⟨by simp [incSrcLoop], hc, fun _ h => absurd h (Nat.not_lt_zero _)⟩
  | i + 1, dst, carry, hd, hs, hc => by
    have hdi := hd i (Nat.lt_succ_self i)
    have hsi := hs i (Nat.lt_succ_self i)
    -- the `uint16_t` sum of the carry and two bytes never wraps
    have hsum : ((carry + dst (off + i)) % 2 ^ 16 + src (soff + i)) % 2 ^ 16 = carry + dst (off + i) + src (soff + i) := by
      omega
    have hshift : (carry + dst (off + i) + src (soff + i)) >>> 8 = (carry + dst (off + i) + src (soff + i)) / 256 :=
      Nat.shiftRight_eq_div_pow _ 8
    rw [incSrcLoop, hsum, hshift]
    have hd' : Bytes (Function.update dst (off + i) ((carry + dst (off + i) + src (soff + i)) % 256)) off i :=
      (hd.mono ⟨le_rfl, by omega⟩).update (Nat.mod_lt _ (by norm_num))
    obtain ⟨hval, hcarry, hbytes⟩ := incSrcLoop_spec i _ ((carry + dst (off + i) + src (soff + i)) / 256) hd'
      (hs.mono ⟨le_rfl, by omega⟩) (by omega)
    have hlast : (incSrcLoop src soff off i (Function.update dst (off + i) ((carry + dst (off + i) + src (soff + i)) % 256))
        ((carry + dst (off + i) + src (soff + i)) / 256)).1 (off + i) = (carry + dst (off + i) + src (soff + i)) % 256 := by
      rw [incSrcLoop_frame i _ _ _ (Or.inr le_rfl), Function.update_self]
    rw [val_update_of_not_mem (Or.inr le_rfl)] at hval
    refine ⟨?_, hcarry, fun j hj => ?_⟩
    · rw [val_succ, val_succ, val_succ, Nat.pow_succ, ← Nat.mul_assoc, hlast]
      omega
    · rcases Nat.lt_succ_iff_lt_or_eq.1 hj with hj | rfl
      · exact hbytes j hj
      · rw [hlast]; exact Nat.mod_lt _ (by norm_num)

/-- **`_Inc(pDst, nDst, pSrc)` adds**: the sum, the carry going out. -/
theorem incSrc_val {dst : Nat → Nat} {n : Nat} (hd : Bytes dst off n) (hs : Bytes src soff n) :
    val (incSrc dst off n src soff).1 off n + (incSrc dst off n src soff).2 * 256 ^ n = val dst off n + val src soff n ∧
      Bytes (incSrc dst off n src soff).1 off n := by
  obtain ⟨hval, hcarry, hbytes⟩ := incSrcLoop_spec n dst 0 hd hs (Nat.zero_le 1)
  refine ⟨?_, hbytes⟩
  rw [incSrc]
  dsimp only
  rw [Nat.mod_eq_of_lt (by omega)]
  omega

/-- `_Div`'s `_Inc(pTmp, nA, pMul, nA)`: the sum cut to `n` bytes. -/
theorem inc_self_val {dst : Nat → Nat} {n : Nat} (hd : Bytes dst 0 n) (hs : Bytes src 0 n) :
    val (inc dst n src n).1 0 n = (val dst 0 n + val src 0 n) % 256 ^ n ∧ Bytes (inc dst n src n).1 0 n := by
  rw [inc, if_pos le_rfl, Nat.sub_self]
  obtain ⟨hval, hbytes⟩ := incSrc_val hd hs
  refine ⟨?_, hbytes⟩
  rw [← hval, Nat.add_mul_mod_self_right, Nat.mod_eq_of_lt (val_lt hbytes)]

end Inc

/-! ## What `_ShiftLeft` computes -/

section ShiftLeft

variable {src : Nat → Nat} {soff off nSrc nBits : Nat}

/-- The two writes of the bit loop's body make one. -/
theorem shiftByte_eq (i : Nat) (d : Nat → Nat) :
    shiftByte off src soff nSrc nBits i d = Function.update d (off + i)
      ((src (soff + i) <<< nBits) % 256 ||| (if i + 1 < nSrc then src (soff + i + 1) else 0) >>> (8 - nBits)) := by
  unfold shiftByte
  dsimp only
  split
  · rw [Function.update_self, Function.update_idem]
  · rw [Nat.zero_shiftRight, Nat.or_zero]

theorem shiftBytes_frame (d : Nat → Nat) : ∀ (k j : Nat), (j < off ∨ off + k ≤ j) →
    shiftBytes off src soff nSrc nBits k d j = d j
  | 0, _, _ => rfl
  | k + 1, j, hj => by
    rw [shiftBytes, shiftByte_eq, Function.update_of_ne (by omega), shiftBytes_frame d k j (by omega)]

/-- **The bit loop of `_ShiftLeft`** over its first `k` bytes: they hold the first `k`
bytes of `pSrc` moved left by `nBits`, less what went out at the top, with the
top bits of the byte after them brought in. -/
theorem shiftBytes_spec (off : Nat) (d : Nat → Nat) (hs : Bytes src soff nSrc) (hn : 0 < nSrc) (hb : nBits < 8) :
    ∀ k ≤ nSrc, val (shiftBytes off src soff nSrc nBits k d) off k + (src soff >>> (8 - nBits)) * 256 ^ k =
        val src soff k * 2 ^ nBits + (if k < nSrc then src (soff + k) >>> (8 - nBits) else 0) ∧
      Bytes (shiftBytes off src soff nSrc nBits k d) off k
  | 0, _ => ⟨by simp [hn], fun _ h => absurd h (Nat.not_lt_zero _)⟩
  | k + 1, hk => by
    obtain ⟨hval, hbytes⟩ := shiftBytes_spec off d hs hn hb k (by omega)
    rw [if_pos (by omega : k < nSrc)] at hval
    have hy : (if k + 1 < nSrc then src (soff + k + 1) else 0) < 256 := by
      split
      · exact hs (k + 1) (by omega)
      · norm_num
    have hnext : (if k + 1 < nSrc then src (soff + k + 1) >>> (8 - nBits) else 0) =
        (if k + 1 < nSrc then src (soff + k + 1) else 0) >>> (8 - nBits) := by
      split <;> simp
    have hsplit := shiftByte_add (x := src (soff + k)) hy hb
    have hgrow : val src soff (k + 1) * 2 ^ nBits = val src soff k * 2 ^ nBits * 256 + src (soff + k) * 2 ^ nBits := by
      rw [val_succ]; ring
    have hbyte : (src (soff + k) <<< nBits) % 256 ||| (if k + 1 < nSrc then src (soff + k + 1) else 0) >>> (8 - nBits) < 256 :=
      Nat.or_lt_two_pow (n := 8) (Nat.mod_lt _ (by norm_num)) (lt_of_le_of_lt (Nat.shiftRight_le _ _) hy)
    rw [shiftBytes, shiftByte_eq, ← Nat.add_assoc soff k 1, hnext]
    refine ⟨?_, fun j hj => ?_⟩
    · rw [val_succ, val_update_of_not_mem (Or.inr le_rfl), Function.update_self, Nat.pow_succ, ← Nat.mul_assoc]
      linarith
    · rw [Function.update_apply]
      split
      · exact hbyte
      · exact hbytes j (by omega)

/-- The bits a shift moves out of a byte are none when the shift is by none. -/
theorem shiftRight_eight {x : Nat} (hx : x < 256) : x >>> (8 - 0) = 0 := by
  rw [Nat.shiftRight_eq_div_pow]
  exact Nat.div_eq_of_lt hx

variable {dst : Nat → Nat} {room : Bool}

theorem shiftBits_frame {j : Nat} (hj : j < off ∨ off + nSrc ≤ j) (hroom : room = false ∨ j ≠ off - 1) :
    shiftBits dst off src soff nSrc nBits room j = dst j := by
  unfold shiftBits
  split
  · split
    · rw [shiftBytes_frame _ _ _ hj]
      split
      · rw [Function.update_of_ne (by grind)]
      · rfl
    · rfl
  · exact copy_of_not_mem (by omega)

/-- **The middle of `_ShiftLeft`**: the bytes written and the bits moved out at
the top are the source moved left. -/
theorem shiftBits_spec (hs : Bytes src soff nSrc) (hn : 0 < nSrc) (hb : nBits < 8) :
    val (shiftBits dst off src soff nSrc nBits room) off nSrc + (src soff >>> (8 - nBits)) * 256 ^ nSrc =
        val src soff nSrc * 2 ^ nBits ∧
      Bytes (shiftBits dst off src soff nSrc nBits room) off nSrc := by
  have hs0 : src soff < 256 := by simpa using hs 0 hn
  unfold shiftBits
  split
  · rw [if_pos (by omega)]
    obtain ⟨hval, hbytes⟩ := shiftBytes_spec off
      (if room then Function.update dst (off - 1) (src soff >>> (8 - nBits)) else dst) hs hn hb nSrc le_rfl
    rw [if_neg (Nat.lt_irrefl _), Nat.add_zero] at hval
    exact ⟨hval, hbytes⟩
  · -- no bit shift: a `memmove`
    have hb0 : nBits = 0 := by omega
    subst hb0
    rw [val_copy, shiftRight_eight hs0, Nat.zero_mul, Nat.add_zero, Nat.pow_zero, Nat.mul_one]
    exact ⟨rfl, bytes_copy _ _ hs⟩

/-- With room above, `pDst[-1]` gets the bits moved out of the first byte. -/
theorem shiftBits_room (dst : Nat → Nat) (off : Nat) (src : Nat → Nat) (soff nBits : Nat) (hn : 0 < nSrc)
    (hoff : 0 < off) :
    shiftBits dst off src soff nSrc nBits true (off - 1) = src soff >>> (8 - nBits) ∨
      (nBits = 0 ∧ shiftBits dst off src soff nSrc nBits true (off - 1) = dst (off - 1)) := by
  unfold shiftBits
  split
  · rw [if_pos (by omega), shiftBytes_frame _ _ _ (Or.inl (by omega)), if_pos rfl, Function.update_self]
    exact Or.inl rfl
  · exact Or.inr ⟨by omega, copy_of_not_mem (by omega)⟩

theorem shiftBits_zero (dst : Nat → Nat) (off : Nat) (src : Nat → Nat) (soff nBits : Nat) (room : Bool) :
    shiftBits dst off src soff 0 nBits room = dst := by
  unfold shiftBits
  split
  · rfl
  · funext j
    exact copy_of_not_mem (by omega)

/-- `_ShiftLeft` with more source bytes than stay in `pDst`: the last of them, moved. -/
theorem shiftBits_cut (dst : Nat → Nat) (hs : Bytes src 0 nSrc) {D : Nat} (hD : 0 < D) (hlt : D < nSrc)
    (hb : nBits < 8) :
    val (shiftBits dst 0 src (nSrc - D) D nBits false) 0 D = val src 0 nSrc * 2 ^ nBits % 256 ^ D ∧
      Bytes (shiftBits dst 0 src (nSrc - D) D nBits false) 0 D := by
  have hs' : Bytes src (0 + (nSrc - D)) D := hs.mono (by omega)
  have hval : val (shiftBits dst 0 src (nSrc - D) D nBits false) 0 D + (src (nSrc - D) >>> (8 - nBits)) * 256 ^ D =
      val src (nSrc - D) D * 2 ^ nBits ∧ Bytes (shiftBits dst 0 src (nSrc - D) D nBits false) 0 D :=
    shiftBits_spec (by simpa using hs') hD hb
  have hlow : val src 0 nSrc % 256 ^ D = val src (nSrc - D) D := by
    have := val_mod_pow hs'
    rwa [Nat.sub_add_cancel hlt.le, Nat.zero_add] at this
  refine ⟨?_, hval.2⟩
  rw [← Nat.mod_mul_mod, hlow, ← hval.1, Nat.add_mul_mod_self_right, Nat.mod_eq_of_lt (val_lt hval.2)]

/-- `_ShiftLeft` with room for the source: zeros above it, then the bits moved
out of its first byte, then the source moved. -/
theorem shiftBits_pad (dst : Nat → Nat) (hs : Bytes src 0 nSrc) {D : Nat} (hle : nSrc ≤ D) (hb : nBits < 8) :
    val (shiftBits (fill dst 0 (D - nSrc) 0) (D - nSrc) src 0 nSrc nBits (nSrc < D)) 0 D =
        val src 0 nSrc * 2 ^ nBits % 256 ^ D ∧
      Bytes (shiftBits (fill dst 0 (D - nSrc) 0) (D - nSrc) src 0 nSrc nBits (nSrc < D)) 0 D := by
  rcases Nat.eq_zero_or_pos nSrc with h0 | hn
  · subst h0
    rw [shiftBits_zero, Nat.sub_zero, val_fill_zero, val_zero, Nat.zero_mul, Nat.zero_mod]
    exact ⟨rfl, bytes_fill _ _ _ (by norm_num)⟩
  have hs0 : src 0 < 256 := hs 0 hn
  rcases Nat.eq_or_lt_of_le hle with heq | hroom
  · -- no room: the bits moved out of the first byte are lost
    subst heq
    simp only [Nat.sub_self, lt_self_iff_false, decide_false]
    have hval : val (shiftBits (fill dst 0 0 0) 0 src 0 nSrc nBits false) 0 nSrc + (src 0 >>> (8 - nBits)) * 256 ^ nSrc =
          val src 0 nSrc * 2 ^ nBits ∧ Bytes (shiftBits (fill dst 0 0 0) 0 src 0 nSrc nBits false) 0 nSrc :=
      shiftBits_spec hs hn hb
    refine ⟨?_, hval.2⟩
    rw [← hval.1, Nat.add_mul_mod_self_right, Nat.mod_eq_of_lt (val_lt hval.2)]
  · -- room: the bytes above are zero but for `pDst[-1]`, which holds the bits moved out
    rw [decide_eq_true hroom]
    set T := shiftBits (fill dst 0 (D - nSrc) 0) (D - nSrc) src 0 nSrc nBits true with hT
    have hval : val T (D - nSrc) nSrc + (src 0 >>> (8 - nBits)) * 256 ^ nSrc = val src 0 nSrc * 2 ^ nBits ∧
        Bytes T (D - nSrc) nSrc :=
      shiftBits_spec hs hn hb
    have hzero : ∀ j < D - nSrc - 1, T j = 0 := fun j hj => by
      rw [hT, shiftBits_frame (Or.inl (by omega)) (Or.inr (by omega)), fill_of_mem (by omega)]
    have htop : T (D - nSrc - 1) = src 0 >>> (8 - nBits) := by
      rcases shiftBits_room (fill dst 0 (D - nSrc) 0) (D - nSrc) src 0 nBits hn (by omega) with h | ⟨h0, h⟩
      · exact h
      · rw [hT, h, fill_of_mem (by omega), h0, shiftRight_eight hs0]
    have hhigh : val T 0 (D - nSrc) = src 0 >>> (8 - nBits) := by
      have hlow0 : val T 0 (D - nSrc - 1) = 0 := val_eq_zero_iff.2 fun j hj => by
        rw [Nat.zero_add]
        exact hzero j hj
      have hv := val_succ T 0 (D - nSrc - 1)
      rw [hlow0, Nat.zero_mul, Nat.zero_add, Nat.zero_add, htop, Nat.sub_add_cancel (by omega)] at hv
      exact hv
    have hsplit := val_add T 0 (D - nSrc) nSrc
    rw [Nat.sub_add_cancel hle, Nat.zero_add, hhigh] at hsplit
    have hfit : val src 0 nSrc * 2 ^ nBits < 256 ^ D := by
      have h1 := val_lt hs
      have h2 : 2 ^ nBits < 256 := lt_of_lt_of_le (Nat.pow_lt_pow_right (by norm_num) hb) (by norm_num)
      calc val src 0 nSrc * 2 ^ nBits < 256 ^ nSrc * 256 := Nat.mul_lt_mul'' h1 h2
        _ = 256 ^ (nSrc + 1) := (Nat.pow_succ _ _).symm
        _ ≤ 256 ^ D := Nat.pow_le_pow_right (by norm_num) hroom
    refine ⟨?_, fun j hj => ?_⟩
    · rw [Nat.mod_eq_of_lt hfit, ← hval.1, hsplit, Nat.add_comm]
    · rw [Nat.zero_add]
      rcases Nat.lt_or_ge j (D - nSrc) with hj' | hj'
      · rcases Nat.lt_or_ge j (D - nSrc - 1) with hj'' | hj''
        · rw [hzero j hj'']; norm_num
        · rw [show j = D - nSrc - 1 by omega, htop]
          exact lt_of_le_of_lt (Nat.shiftRight_le _ _) hs0
      · have := hval.2 (j - (D - nSrc)) (by omega)
        rwa [Nat.add_sub_cancel' hj'] at this

/-- **What `_ShiftLeft` computes**: the source times `2 ^ nBits`, cut to `pDst`. -/
theorem shiftLeft_val (dst : Nat → Nat) {nDst : Nat} (hs : Bytes src 0 nSrc) :
    val (shiftLeft dst nDst src nSrc nBits) 0 nDst = val src 0 nSrc * 2 ^ nBits % 256 ^ nDst ∧
      Bytes (shiftLeft dst nDst src nSrc nBits) 0 nDst := by
  have hdiv : nBits >>> 3 = nBits / 8 := Nat.shiftRight_eq_div_pow nBits 3
  have h256 : (256 : Nat) = 2 ^ 8 := by norm_num
  unfold shiftLeft
  by_cases hle : nDst ≤ nBits >>> 3
  · -- the whole of `pDst` is shifted out
    rw [if_pos hle]
    dsimp only
    have hout : val src 0 nSrc * 2 ^ nBits % 256 ^ nDst = 0 := by
      have : 2 ^ nBits = 2 ^ (nBits - 8 * nDst) * 256 ^ nDst := by
        rw [h256, ← Nat.pow_mul, ← Nat.pow_add]; congr 1; omega
      rw [this, ← Nat.mul_assoc, Nat.mul_mod_left]
    rw [hout]
    split
    · exact ⟨val_fill_zero _ _ _, bytes_fill _ _ _ (by norm_num)⟩
    · exact ⟨val_fill_zero _ _ _, bytes_fill _ _ _ (by norm_num)⟩
  · rw [if_neg hle]
    dsimp only
    rw [show nBits &&& 7 = nBits % 8 from Nat.and_two_pow_sub_one_eq_mod nBits 3]
    have hb : nBits % 8 < 8 := Nat.mod_lt _ (by norm_num)
    -- the whole bytes of the shift are the zeros at the end, the rest is moved by the bits left over
    have hpow : 2 ^ nBits = 2 ^ (nBits % 8) * 256 ^ (nBits >>> 3) := by
      rw [h256, ← Nat.pow_mul, ← Nat.pow_add, hdiv]; congr 1; omega
    have hsize : 256 ^ nDst = 256 ^ (nDst - nBits >>> 3) * 256 ^ (nBits >>> 3) := by
      rw [← Nat.pow_add]; congr 1; omega
    have hmid : ∀ T : Nat → Nat, val T 0 (nDst - nBits >>> 3) = val src 0 nSrc * 2 ^ (nBits % 8) % 256 ^ (nDst - nBits >>> 3) →
        Bytes T 0 (nDst - nBits >>> 3) →
        val (fill T (nDst - nBits >>> 3) (nBits >>> 3) 0) 0 nDst = val src 0 nSrc * 2 ^ nBits % 256 ^ nDst ∧
          Bytes (fill T (nDst - nBits >>> 3) (nBits >>> 3) 0) 0 nDst := by
      intro T hT hTb
      have hsplit := val_add (fill T (nDst - nBits >>> 3) (nBits >>> 3) 0) 0 (nDst - nBits >>> 3) (nBits >>> 3)
      have hkept : val (fill T (nDst - nBits >>> 3) (nBits >>> 3) 0) 0 (nDst - nBits >>> 3) = val T 0 (nDst - nBits >>> 3) :=
        val_fill_of_not_mem (Or.inr (by omega))
      rw [Nat.sub_add_cancel (by omega), Nat.zero_add, val_fill_zero, Nat.add_zero, hkept, hT] at hsplit
      refine ⟨?_, fun j hj => ?_⟩
      · rw [hsplit, hpow, hsize, ← Nat.mul_assoc, Nat.mul_mod_mul_right]
      · unfold fill
        split
        · norm_num
        · exact hTb j (by omega)
    split
    · exact hmid _ (shiftBits_cut dst hs (by omega) (by omega) hb).1 (shiftBits_cut dst hs (by omega) (by omega) hb).2
    · exact hmid _ (shiftBits_pad dst hs (by omega) hb).1 (shiftBits_pad dst hs (by omega) hb).2

/-! ### In place -/

end ShiftLeft

/-! ## What `_ShiftRight` computes -/

section ShiftRight

variable {src : Nat → Nat} {soff off nSrc nDst nBits : Nat}

/-- The two writes of the bit loop's body make one. -/
theorem shiftRightByte_eq {i : Nat} (hi : src (soff + i) < 256) (d : Nat → Nat) :
    shiftRightByte off src soff nSrc nDst nBits i d = Function.update d (off + i)
      (src (soff + i) >>> nBits ||| ((if nDst < nSrc + i then src (soff + i - 1) else 0) <<< (8 - nBits)) % 256) := by
  have hlow : src (soff + i) >>> nBits < 2 ^ 8 := lt_of_le_of_lt (Nat.shiftRight_le _ _) hi
  unfold shiftRightByte
  dsimp only
  split
  · rw [Function.update_self, Function.update_idem, Nat.or_mod_two_pow (n := 8), Nat.mod_eq_of_lt hlow]
  · rw [Nat.zero_shiftLeft, Nat.zero_mod, Nat.or_zero]

theorem shiftRightBytes_frame (d : Nat → Nat) : ∀ (k j : Nat), (j < off ∨ off + k ≤ j) →
    shiftRightBytes off src soff nSrc nDst nBits k d j = d j
  | 0, _, _ => rfl
  | k + 1, j, hj => by
    rw [shiftRightBytes, shiftRightBytes_frame _ k j (by omega)]
    unfold shiftRightByte
    split <;> simp only [Function.update_apply, if_neg (show j ≠ off + k by omega)]

/-- The byte the loop or-s in below byte `k` is the last byte of the source up to it,
with the byte before the first, when there is one, on top. -/
theorem shiftRight_prev {P k : Nat} (hPdef : P = if nDst < nSrc then src (soff - 1) else 0) (hn : nDst ≤ nSrc)
    (hs : Bytes src soff k) (hP : P < 256) :
    (if nDst < nSrc + k then src (soff + k - 1) else 0) = (P * 256 ^ k + val src soff k) % 256 := by
  cases k with
  | zero =>
    simp only [Nat.add_zero, val_zero, Nat.pow_zero, Nat.mul_one]
    rw [← hPdef, Nat.mod_eq_of_lt hP]
  | succ k =>
    have hgrow : P * 256 ^ (k + 1) + val src soff (k + 1) = src (soff + k) + (P * 256 ^ k + val src soff k) * 256 := by
      rw [val_succ, Nat.pow_succ]
      ring
    rw [if_pos (by omega), show soff + (k + 1) - 1 = soff + k by omega, hgrow, Nat.add_mul_mod_self_right,
      Nat.mod_eq_of_lt (hs k (by omega))]

/-- **The bit loop of `_ShiftRight`** over its first `k` bytes: they hold the first `k`
bytes of the source, with the byte before them on top, moved right by `nBits`. -/
theorem shiftRightBytes_spec {P : Nat} (off : Nat) (hPdef : P = if nDst < nSrc then src (soff - 1) else 0) (hn : nDst ≤ nSrc)
    (hP : P < 256) (hb : nBits ≤ 8) : ∀ (k : Nat) (d : Nat → Nat), Bytes src soff k →
    val (shiftRightBytes off src soff nSrc nDst nBits k d) off k = ((P * 256 ^ k + val src soff k) >>> nBits) % 256 ^ k ∧
      Bytes (shiftRightBytes off src soff nSrc nDst nBits k d) off k
  | 0, _, _ => ⟨by rw [val_zero, Nat.pow_zero, Nat.mod_one], fun _ h => absurd h (Nat.not_lt_zero _)⟩
  | k + 1, d, hs => by
    have hk : src (soff + k) < 256 := hs k (by omega)
    have hs' : Bytes src soff k := hs.mono (by omega)
    obtain ⟨hval, hbytes⟩ := shiftRightBytes_spec off hPdef hn hP hb k (shiftRightByte off src soff nSrc nDst nBits k d) hs'
    have hlast : shiftRightBytes off src soff nSrc nDst nBits k (shiftRightByte off src soff nSrc nDst nBits k d) (off + k) =
        src (soff + k) >>> nBits ||| (((P * 256 ^ k + val src soff k) % 256) <<< (8 - nBits)) % 256 := by
      rw [shiftRightBytes_frame _ _ _ (Or.inr le_rfl), shiftRightByte_eq hk, Function.update_self,
        shiftRight_prev hPdef hn hs' hP]
    have hbyte : src (soff + k) >>> nBits ||| (((P * 256 ^ k + val src soff k) % 256) <<< (8 - nBits)) % 256 < 256 :=
      Nat.or_lt_two_pow (n := 8) (lt_of_le_of_lt (Nat.shiftRight_le _ _) hk) (Nat.mod_lt _ (by norm_num))
    have hgrow : P * 256 ^ (k + 1) + val src soff (k + 1) = (P * 256 ^ k + val src soff k) * 256 + src (soff + k) := by
      rw [val_succ, Nat.pow_succ]
      ring
    refine ⟨?_, fun j hj => ?_⟩
    · rw [shiftRightBytes, val_succ, hval, hlast, hgrow, shiftRight_mul_add hk hb, mul_add_mod_pow k hbyte]
    · rw [shiftRightBytes]
      rcases Nat.lt_or_ge j k with hj' | hj'
      · exact hbytes j hj'
      · rw [show j = k by omega, hlast]
        exact hbyte

/-- The middle of `_ShiftRight`, once the pointers are set: bytes `[off, off + n)` get
the `n` source bytes at `soff`, with the byte before them on top, moved right by
`nBits < 8`; without a bit shift, a `memmove`. -/
theorem shiftRightMid_spec (dst : Nat → Nat) (off soff : Nat) {n P : Nat} (hPdef : P = if n < nSrc then src (soff - 1) else 0)
    (hn : n ≤ nSrc) (hP : P < 256) (hb : nBits < 8) (hs : Bytes src soff n) :
    let d := if nBits ≠ 0 then shiftRightBytes off src soff nSrc n nBits n dst else copy dst off src soff n
    val d off n = ((P * 256 ^ n + val src soff n) >>> nBits) % 256 ^ n ∧ Bytes d off n ∧
      ∀ j, (j < off ∨ off + n ≤ j) → d j = dst j := by
  intro d
  by_cases hb0 : nBits = 0
  · simp only [d, hb0, ne_eq, not_true_eq_false, if_false, Nat.shiftRight_zero]
    refine ⟨?_, bytes_copy _ _ hs, fun j hj => copy_of_not_mem (by omega)⟩
    rw [val_copy, Nat.add_comm, Nat.add_mul_mod_self_right, Nat.mod_eq_of_lt (val_lt hs)]
  · simp only [d, hb0, ne_eq, not_false_eq_true, if_true]
    obtain ⟨hval, hbytes⟩ := shiftRightBytes_spec off hPdef hn hP (show nBits ≤ 8 by omega) n dst hs
    exact ⟨hval, hbytes, fun j hj => shiftRightBytes_frame dst n j hj⟩

/-- **What `_ShiftRight` computes**: the source divided by `2 ^ nBits`, cut to `pDst`. -/
theorem shiftRight_val (dst : Nat → Nat) {nDst : Nat} (hs : Bytes src 0 nSrc) :
    val (shiftRight dst nDst src nSrc nBits) 0 nDst = val src 0 nSrc / 2 ^ nBits % 256 ^ nDst ∧
      Bytes (shiftRight dst nDst src nSrc nBits) 0 nDst := by
  have hdiv : nBits >>> 3 = nBits / 8 := Nat.shiftRight_eq_div_pow nBits 3
  have h256 : (256 : Nat) = 2 ^ 8 := by norm_num
  unfold shiftRight
  by_cases hle : nSrc ≤ nBits >>> 3
  · -- the whole source is shifted out
    have hout : val src 0 nSrc / 2 ^ nBits = 0 := by
      apply Nat.div_eq_of_lt
      calc val src 0 nSrc < 256 ^ nSrc := val_lt hs
        _ ≤ 2 ^ nBits := by rw [h256, ← Nat.pow_mul]; exact Nat.pow_le_pow_right (by norm_num) (by omega)
    rw [if_pos hle, hout, Nat.zero_mod]
    dsimp only
    rcases Nat.eq_zero_or_pos nDst with h0 | hpos
    · subst h0
      exact ⟨val_zero _ _, fun j hj => absurd hj (Nat.not_lt_zero _)⟩
    · simp only [if_pos hpos, Nat.sub_zero, ne_eq, not_true_eq_false, if_false]
      obtain ⟨hval, hbytes⟩ := val_fill_head (copy dst nDst src 0 0) (Nat.le_refl nDst)
      rw [Nat.sub_self, val_zero] at hval
      exact ⟨hval, hbytes fun j hj => absurd hj (by omega)⟩
  · rw [if_neg hle]
    dsimp only
    rw [show nBits &&& 7 = nBits % 8 from Nat.and_two_pow_sub_one_eq_mod nBits 3]
    have hb : nBits % 8 < 8 := Nat.mod_lt _ (by norm_num)
    set m := nSrc - nBits >>> 3 with hm
    -- the bytes kept are the source without its last `nBits / 8`, the rest is moved by the bits left over
    have hkept : val src 0 nSrc / 2 ^ nBits = val src 0 m / 2 ^ (nBits % 8) := by
      have hsplit : 2 ^ nBits = 256 ^ (nBits >>> 3) * 2 ^ (nBits % 8) := by
        rw [h256, ← Nat.pow_mul, ← Nat.pow_add, hdiv]; congr 1; omega
      have hlow := val_div_pow (m := m) (hs.mono (o := 0 + m) (m := nBits >>> 3) (by omega))
      rw [show m + nBits >>> 3 = nSrc by omega] at hlow
      rw [hsplit, ← Nat.div_div_eq_div_mul, hlow]
    have hsm : Bytes src 0 m := hs.mono (by omega)
    rw [hkept]
    by_cases hlt : m < nDst
    · -- `pDst` is longer: the shifted source goes to its last `m` bytes, zeros above
      simp only [if_pos hlt]
      obtain ⟨hval, hbytes, -⟩ := shiftRightMid_spec dst (nDst - m) 0 (P := 0)
        (by rw [if_neg (Nat.lt_irrefl m)]) (Nat.le_refl m) (by norm_num) hb hsm
      rw [Nat.zero_mul, Nat.zero_add, Nat.mod_eq_of_lt (lt_of_le_of_lt (Nat.shiftRight_le _ _) (val_lt hsm))] at hval
      obtain ⟨hfill, hfillb⟩ := val_fill_head (if nBits % 8 ≠ 0 then shiftRightBytes (nDst - m) src 0 m m (nBits % 8) m dst
        else copy dst (nDst - m) src 0 m) (Nat.sub_le nDst m)
      rw [Nat.sub_sub_self hlt.le] at hfill hfillb
      have hfit : val src 0 m / 2 ^ (nBits % 8) < 256 ^ nDst :=
        lt_of_le_of_lt (Nat.div_le_self _ _) (lt_of_lt_of_le (val_lt hsm) (Nat.pow_le_pow_right (by norm_num) hlt.le))
      rw [Nat.mod_eq_of_lt hfit, ← Nat.shiftRight_eq_div_pow, ← hval]
      exact ⟨hfill, hfillb hbytes⟩
    · -- `pDst` is shorter: the last `nDst` bytes of the source, with the byte before on top
      simp only [if_neg hlt]
      have hsw : Bytes src (m - nDst) nDst := hs.mono (by omega)
      obtain ⟨hval, hbytes, -⟩ := shiftRightMid_spec dst 0 (m - nDst) (n := nDst) rfl (show nDst ≤ m by omega)
        (by
          split
          · have := hs (m - nDst - 1) (by omega)
            rwa [Nat.zero_add] at this
          · norm_num) hb hsw
      obtain ⟨hfill, hfillb⟩ := val_fill_head (if nBits % 8 ≠ 0 then shiftRightBytes 0 src (m - nDst) m nDst (nBits % 8) nDst dst
        else copy dst 0 src (m - nDst) nDst) (Nat.zero_le nDst)
      rw [Nat.sub_zero] at hfill hfillb
      refine ⟨?_, hfillb hbytes⟩
      rw [hfill, hval, ← Nat.shiftRight_eq_div_pow]
      -- the bytes of the source above the byte before are whole multiples of `256 ^ (nDst + 1)`
      have hsplit := val_add src 0 (m - nDst) nDst
      rw [Nat.sub_add_cancel (by omega), Nat.zero_add] at hsplit
      rw [hsplit]
      by_cases hgt : nDst < m
      · obtain ⟨k, hk⟩ : ∃ k, m - nDst = k + 1 := ⟨m - nDst - 1, by omega⟩
        rw [if_pos hgt, hk, Nat.add_sub_cancel, val_succ, Nat.zero_add,
          show (val src 0 k * 256 + src k) * 256 ^ nDst + val src (k + 1) nDst =
            val src 0 k * 256 ^ (nDst + 1) + (src k * 256 ^ nDst + val src (k + 1) nDst) by ring,
          shiftRight_mod_high nDst (by omega)]
      · rw [if_neg hgt, show m - nDst = 0 by omega, val_zero, Nat.zero_mul]

/-! ### In place -/

end ShiftRight

/-! ## What the assignments and `_ExportAligned` compute -/

section Assign

theorem assignRangeLoop_frame {base : Nat} : ∀ (k x : Nat) (d : Nat → Nat) (j : Nat), (j < base ∨ base + k ≤ j) →
    assignRangeLoop base k x d j = d j
  | 0, _, _, _, _ => rfl
  | k + 1, x, d, j, hj => by
    rw [assignRangeLoop, assignRangeLoop_frame k _ _ j (by omega), Function.update_of_ne (by omega)]

/-- **The loop of `_AssignRangeAligned`** writes the low `k` bytes of `x`. -/
theorem assignRangeLoop_val (base : Nat) : ∀ (k x : Nat) (d : Nat → Nat),
    val (assignRangeLoop base k x d) base k = x % 256 ^ k ∧ Bytes (assignRangeLoop base k x d) base k
  | 0, _, _ => ⟨by rw [val_zero, Nat.pow_zero, Nat.mod_one], fun _ h => absurd h (Nat.not_lt_zero _)⟩
  | k + 1, x, d => by
    obtain ⟨hval, hbytes⟩ := assignRangeLoop_val base k (x >>> 8) (Function.update d (base + k) (x % 256))
    have hlast : assignRangeLoop base k (x >>> 8) (Function.update d (base + k) (x % 256)) (base + k) = x % 256 := by
      rw [assignRangeLoop_frame _ _ _ _ (Or.inr (Nat.le_refl _)), Function.update_self]
    refine ⟨?_, fun j hj => ?_⟩
    · rw [assignRangeLoop, val_succ, hval, hlast, Nat.shiftRight_eq_div_pow, show (2 : Nat) ^ 8 = 256 by norm_num,
        Nat.pow_succ', Nat.mod_mul]
      ring
    · rw [assignRangeLoop]
      rcases Nat.lt_or_ge j k with hj' | hj'
      · exact hbytes j hj'
      · rw [show j = k by omega, hlast]
        exact Nat.mod_lt _ (by norm_num)

/-- **What `_AssignRangeAligned` computes**, over a buffer that is zero around the
bytes it writes: the low `nBytesX` bytes of `x`, moved up by `nOffsetBytes` bytes. -/
theorem assignRangeAligned_val {dst : Nat → Nat} {nDst x B size : Nat} (h : B + size ≤ nDst)
    (hhead : ∀ j < nDst - (B + size), dst j = 0) (htail : ∀ j, nDst - B ≤ j → j < nDst → dst j = 0) :
    val (assignRangeAligned dst nDst x B size) 0 nDst = x % 256 ^ size * 256 ^ B ∧
      Bytes (assignRangeAligned dst nDst x B size) 0 nDst := by
  unfold assignRangeAligned
  set base := nDst - (B + size)
  obtain ⟨hval, hbytes⟩ := assignRangeLoop_val base size x dst
  have hzero : ∀ j, (j < base ∨ base + size ≤ j) → j < nDst → assignRangeLoop base size x dst j = 0 := by
    intro j hj hjn
    rw [assignRangeLoop_frame _ _ _ _ hj]
    rcases hj with hj | hj
    · exact hhead j hj
    · exact htail j (by omega) hjn
  have hsplit := val_add (assignRangeLoop base size x dst) 0 (base + size) B
  rw [show base + size + B = nDst by omega, val_zero_head size fun j hj => hzero j (Or.inl hj) (by omega), hval,
    Nat.zero_add, (val_eq_zero_iff.2 fun j hj => hzero _ (Or.inr (by omega)) (by omega) : val _ (base + size) B = 0),
    Nat.add_zero] at hsplit
  refine ⟨hsplit, fun j hj => ?_⟩
  rw [Nat.zero_add]
  by_cases hin : base ≤ j ∧ j < base + size
  · have := hbytes (j - base) (by omega)
    rwa [Nat.add_sub_cancel' hin.1] at this
  · rw [hzero j (by omega) hj]
    norm_num

/-- `AssignOrdinal` gives the value of `x` cut to its `size` bytes. -/
theorem assignOrdinal_val (dst : Nat → Nat) {nBytes size : Nat} (x : Nat) (h : size ≤ nBytes) :
    val (assignOrdinal dst nBytes size x) 0 nBytes = x % 256 ^ size ∧ Bytes (assignOrdinal dst nBytes size x) 0 nBytes := by
  have hv : val (assignRangeAligned (fill dst 0 (nBytes - size) 0) nBytes x 0 size) 0 nBytes = x % 256 ^ size * 256 ^ 0 ∧
      Bytes (assignRangeAligned (fill dst 0 (nBytes - size) 0) nBytes x 0 size) 0 nBytes :=
    assignRangeAligned_val (by omega) (fun j hj => fill_of_mem (by omega)) (fun j hj hj' => absurd hj' (by omega))
  rwa [Nat.pow_zero, Nat.mul_one] at hv

/-- The bits `_AssignSafe` moves out of the top of `x` are none when `x` moved fits. -/
theorem assignSafe_eq {dst : Nat → Nat} {nDst size x nOffset : Nat} (hd : ∀ j < nDst, dst j = 0)
    (hsize : 0 < size) (hn : nDst < 2 ^ 32) (hfit : nOffset / 8 + size ≤ nDst)
    (hx : x * 2 ^ (nOffset % 8) < 2 ^ (8 * size)) :
    (assignSafe dst nDst size x nOffset).1 = assignRangeAligned dst nDst (x * 2 ^ (nOffset % 8)) (nOffset / 8) size := by
  have hB : nOffset >>> 3 = nOffset / 8 := Nat.shiftRight_eq_div_pow nOffset 3
  have ho : nOffset &&& 7 = nOffset % 8 := Nat.and_two_pow_sub_one_eq_mod nOffset 3
  have hmoved : (x <<< (nOffset % 8)) % 2 ^ (8 * size) = x * 2 ^ (nOffset % 8) := by
    rw [Nat.shiftLeft_eq, Nat.mod_eq_of_lt hx]
  -- nothing is moved out of the top of `x`
  have hout : x >>> (8 * size - nOffset % 8) = 0 := by
    rcases Nat.eq_zero_or_pos x with h0 | hpos
    · rw [h0, Nat.zero_shiftRight]
    · have hle : nOffset % 8 ≤ 8 * size := by
        by_contra hlt
        have h1 : 2 ^ (8 * size) ≤ 2 ^ (nOffset % 8) := Nat.pow_le_pow_right (by norm_num) (by omega)
        have h2 := Nat.mul_le_mul_right (2 ^ (nOffset % 8)) hpos
        rw [Nat.one_mul] at h2
        linarith
      have hsum : 2 ^ (8 * size) = 2 ^ (8 * size - nOffset % 8) * 2 ^ (nOffset % 8) := by
        rw [← Nat.pow_add, Nat.sub_add_cancel hle]
      rw [Nat.shiftRight_eq_div_pow, Nat.div_eq_zero_iff_lt (Nat.two_pow_pos _)]
      rw [hsum] at hx
      exact Nat.lt_of_mul_lt_mul_right hx
  have hlast : (nDst + 2 ^ 32 - 1) % 2 ^ 32 = nDst - 1 := by
    rw [show nDst + 2 ^ 32 - 1 = nDst - 1 + 2 ^ 32 by omega, Nat.add_mod_right, Nat.mod_eq_of_lt (by omega)]
  unfold assignSafe assignRangeAlignedSafe
  have hall : decide (size ≤ nDst - nOffset / 8) = true := decide_eq_true (by omega)
  simp only [hB, ho, hmoved, if_neg (show ¬nDst < nOffset / 8 by omega), if_pos (show size ≤ nDst - nOffset / 8 by omega),
    hall, if_true, hout, Nat.zero_mod, hlast]
  by_cases ho0 : nOffset % 8 ≠ 0
  · rw [if_pos ho0]
    by_cases hroom : nDst - 1 < nOffset / 8 + size
    · rw [if_pos hroom]
    · -- the byte above is zero already
      rw [if_neg hroom, Function.update_eq_self_iff, assignRangeAligned, assignRangeLoop_frame _ _ _ _ (Or.inl (by omega)),
        hd _ (by omega)]
  · rw [if_neg ho0]

/-- **What `_AssignSafe` computes** on a zero buffer with room: `x` moved left by `nOffset`. -/
theorem assignSafe_val {dst : Nat → Nat} {nDst size x nOffset : Nat} (hd : ∀ j < nDst, dst j = 0)
    (hsize : 0 < size) (hn : nDst < 2 ^ 32) (hfit : nOffset / 8 + size ≤ nDst)
    (hx : x * 2 ^ (nOffset % 8) < 2 ^ (8 * size)) :
    val (assignSafe dst nDst size x nOffset).1 0 nDst = x * 2 ^ nOffset ∧ Bytes (assignSafe dst nDst size x nOffset).1 0 nDst := by
  rw [assignSafe_eq hd hsize hn hfit hx]
  obtain ⟨hval, hbytes⟩ := assignRangeAligned_val (x := x * 2 ^ (nOffset % 8)) hfit (fun j hj => hd j (by omega))
    (fun j _ hj => hd j hj)
  refine ⟨?_, hbytes⟩
  have h256 : (256 : Nat) ^ size = 2 ^ (8 * size) := by rw [Nat.pow_mul]
  rw [hval, h256, Nat.mod_eq_of_lt hx, show (256 : Nat) = 2 ^ 8 by norm_num, ← Nat.pow_mul, Nat.mul_assoc, ← Nat.pow_add]
  congr 2
  omega

/-- **What `_ExportAligned` computes**: the value of the bytes, when `T` holds them. -/
theorem exportAligned_eq {w : Nat} {p : Nat → Nat} : ∀ n, 0 < n → 8 * n ≤ w → Bytes p 0 n →
    exportAligned w p n = val p 0 n
  | 0, h, _, _ => absurd h (Nat.lt_irrefl 0)
  | 1, _, _, _ => by rw [val_succ, val_zero, Nat.zero_mul, Nat.zero_add, Nat.zero_add]; rfl
  | n + 2, _, hw, hp => by
    have hlast : p (n + 1) < 2 ^ 8 := by simpa using hp (n + 1) (by omega)
    have hlt : val p 0 (n + 1) <<< 8 < 2 ^ w := by
      rw [Nat.shiftLeft_eq]
      calc val p 0 (n + 1) * 2 ^ 8 < 256 ^ (n + 1) * 2 ^ 8 :=
            Nat.mul_lt_mul_of_pos_right (val_lt (hp.mono (by omega))) (Nat.two_pow_pos 8)
        _ = 2 ^ (8 * (n + 2)) := by rw [show (256 : Nat) = 2 ^ 8 by norm_num, ← Nat.pow_mul, ← Nat.pow_add]; ring_nf
        _ ≤ 2 ^ w := Nat.pow_le_pow_right (by norm_num) hw
    rw [exportAligned, exportAligned_eq (n + 1) (by omega) (by omega) (hp.mono (by omega)), Nat.mod_eq_of_lt hlt,
      ← Nat.shiftLeft_add_eq_or_of_lt hlast, Nat.shiftLeft_eq, val_succ p 0 (n + 1), Nat.zero_add]

end Assign

/-! ## What `_Cmp` and `_GetOrder` compute -/

section Order

/-- **`_Cmp` compares the values**, whatever the two lengths. -/
theorem cmp_eq_compare {src0 src1 : Nat → Nat} {nSrc0 nSrc1 : Nat} (h0 : Bytes src0 0 nSrc0) (h1 : Bytes src1 0 nSrc1) :
    cmp src0 nSrc0 src1 nSrc1 = compare (val src0 0 nSrc0) (val src1 0 nSrc1) := by
  unfold cmp
  split
  · -- `pSrc0` is longer: its extra top bytes decide unless they are zero
    rename_i hlt
    have hsplit := val_add src0 0 (nSrc0 - nSrc1) nSrc1
    rw [Nat.sub_add_cancel hlt.le, Nat.zero_add] at hsplit
    split
    · rename_i hz
      rw [hsplit, memis0_iff.1 hz, Nat.zero_mul, Nat.zero_add, memcmp_eq_compare (h0.mono (by omega)) h1]
    · rename_i hz
      have hne : val src0 0 (nSrc0 - nSrc1) ≠ 0 := fun h => hz (memis0_iff.2 h)
      have hbig : 256 ^ nSrc1 ≤ val src0 0 nSrc0 := by
        rw [hsplit]
        exact Nat.le_add_right_of_le (Nat.le_mul_of_pos_left _ (Nat.pos_of_ne_zero hne))
      exact (compare_gt_iff_gt.2 (lt_of_lt_of_le (val_lt h1) hbig)).symm
  · split
    · -- `pSrc1` is longer
      rename_i hge hlt
      have hsplit := val_add src1 0 (nSrc1 - nSrc0) nSrc0
      rw [Nat.sub_add_cancel hlt.le, Nat.zero_add] at hsplit
      split
      · rename_i hz
        rw [hsplit, memis0_iff.1 hz, Nat.zero_mul, Nat.zero_add, memcmp_eq_compare h0 (h1.mono (by omega))]
      · rename_i hz
        have hne : val src1 0 (nSrc1 - nSrc0) ≠ 0 := fun h => hz (memis0_iff.2 h)
        have hbig : 256 ^ nSrc0 ≤ val src1 0 nSrc1 := by
          rw [hsplit]
          exact Nat.le_add_right_of_le (Nat.le_mul_of_pos_left _ (Nat.pos_of_ne_zero hne))
        exact (compare_lt_iff_lt.2 (lt_of_lt_of_le (val_lt h0) hbig)).symm
    · rename_i hge hle
      have heq : nSrc1 = nSrc0 := by omega
      subst heq
      exact memcmp_eq_compare h0 h1

/-- `halvings x` is the position of the top bit of `x`. -/
theorem halvings_spec (x : Nat) (hx : 0 < x) : 2 ^ halvings x ≤ x ∧ x < 2 ^ (halvings x + 1) := by
  induction x using Nat.strong_induction_on with
  | _ x ih =>
    rw [halvings, Nat.shiftRight_one]
    split
    · rename_i h
      rw [Nat.pow_zero, Nat.zero_add, Nat.pow_one]
      omega
    · rename_i h
      obtain ⟨hlo, hhi⟩ := ih (x / 2) (by omega) (by omega)
      rw [Nat.pow_succ, Nat.pow_succ]
      omega

/-- The loop of `_GetOrder` from byte `nByte` on gives the bit length of the bytes left. -/
theorem getOrderLoop_eq (p : Nat → Nat) (nDst : Nat) :
    ∀ k nByte, nByte + k = nDst → Bytes p nByte k → getOrderLoop p nDst nByte k = Nat.size (val p nByte k)
  | 0, _, _, _ => by rw [getOrderLoop, val_zero, Nat.size_zero]
  | k + 1, nByte, hk, hp => by
    rw [getOrderLoop, val_succ_left]
    have hrest : Bytes p (nByte + 1) k := hp.mono (by omega)
    split
    · rename_i h0
      rw [h0, Nat.zero_mul, Nat.zero_add]
      exact getOrderLoop_eq p nDst k (nByte + 1) (by omega) hrest
    · -- the first nonzero byte: its top bit is the number's
      rename_i h0
      obtain ⟨hlo, hhi⟩ := halvings_spec (p nByte) (Nat.pos_of_ne_zero h0)
      have hlow := val_lt hrest
      have h256 : (256 : Nat) ^ k = 2 ^ (8 * k) := by rw [Nat.pow_mul]
      have hord : ((nDst - nByte) <<< 3) - 7 + halvings (p nByte) = 8 * k + halvings (p nByte) + 1 := by
        rw [Nat.shiftLeft_eq]
        omega
      rw [hord]
      refine le_antisymm (Nat.lt_size.2 ?_) (Nat.size_le.2 ?_)
      · calc 2 ^ (8 * k + halvings (p nByte)) = 2 ^ halvings (p nByte) * 256 ^ k := by
              rw [h256, Nat.pow_add, Nat.mul_comm]
          _ ≤ p nByte * 256 ^ k := Nat.mul_le_mul_right _ hlo
          _ ≤ p nByte * 256 ^ k + val p (nByte + 1) k := Nat.le_add_right _ _
      · calc p nByte * 256 ^ k + val p (nByte + 1) k < (p nByte + 1) * 256 ^ k := by
              rw [Nat.succ_mul]; omega
          _ ≤ 2 ^ (halvings (p nByte) + 1) * 256 ^ k := Nat.mul_le_mul_right _ hhi
          _ = 2 ^ (8 * k + halvings (p nByte) + 1) := by
              rw [h256, ← Nat.pow_add]; congr 1; omega

/-- **`_GetOrder` is the bit length.** -/
theorem getOrder_eq_size {p : Nat → Nat} {n : Nat} (h : Bytes p 0 n) : getOrder p n = Nat.size (val p 0 n) :=
  getOrderLoop_eq p n n 0 (Nat.zero_add n) h

end Order

/-! ## What `_Div` computes -/

section Div

/-- **Setting bit `k`** of a number whose bits up to `k` are zero: `_Div`'s
`pDst[nDst - (nShift >> 3) - 1] |= 1 << (7 & nShift)` adds `2 ^ k`. -/
theorem val_setBit {dst : Nat → Nat} {n k : Nat} (hd : Bytes dst 0 n) (hk : k < 8 * n)
    (hdvd : 2 ^ (k + 1) ∣ val dst 0 n) :
    val (Function.update dst (n - (k >>> 3) - 1) (dst (n - (k >>> 3) - 1) ||| 1 <<< (7 &&& k))) 0 n =
        val dst 0 n + 2 ^ k ∧
      Bytes (Function.update dst (n - (k >>> 3) - 1) (dst (n - (k >>> 3) - 1) ||| 1 <<< (7 &&& k))) 0 n := by
  have hdiv : k >>> 3 = k / 8 := Nat.shiftRight_eq_div_pow k 3
  have hmod : 7 &&& k = k % 8 := by rw [Nat.and_comm]; exact Nat.and_two_pow_sub_one_eq_mod k 3
  have hb : k % 8 < 8 := Nat.mod_lt _ (by norm_num)
  rw [hdiv, hmod, Nat.one_shiftLeft]
  have hj : n - k / 8 - 1 < n := by omega
  have hpos : n - 1 - (n - k / 8 - 1) = k / 8 := by omega
  have h256 : (256 : Nat) ^ (k / 8) = 2 ^ (8 * (k / 8)) := by rw [Nat.pow_mul]
  have hk2 : 2 ^ k = 2 ^ (k % 8) * 256 ^ (k / 8) := by rw [h256, ← Nat.pow_add]; congr 1; omega
  obtain ⟨e, he⟩ := hdvd
  have hbyte : dst (n - k / 8 - 1) = 2 ^ (k % 8 + 1) * (e % 2 ^ (7 - k % 8)) := by
    have h := byte_eq hd hj
    have hsplit : 2 ^ (k + 1) = 2 ^ (8 * (k / 8)) * 2 ^ (k % 8 + 1) := by rw [← Nat.pow_add]; congr 1; omega
    have hbase : (256 : Nat) = 2 ^ (k % 8 + 1) * 2 ^ (7 - k % 8) := by
      rw [← Nat.pow_add, show k % 8 + 1 + (7 - k % 8) = 8 by omega]
    rw [Nat.zero_add, hpos, he, h256, hsplit, Nat.mul_assoc, Nat.mul_div_cancel_left _ (Nat.two_pow_pos _), hbase,
      Nat.mul_mod_mul_left] at h
    exact h
  have hor : dst (n - k / 8 - 1) ||| 2 ^ (k % 8) = dst (n - k / 8 - 1) + 2 ^ (k % 8) := by
    rw [hbyte, Nat.mul_comm, ← Nat.shiftLeft_eq,
      ← Nat.shiftLeft_add_eq_or_of_lt (Nat.pow_lt_pow_right (by norm_num) (Nat.lt_succ_self _))]
  have hupd : val (Function.update dst (0 + (n - k / 8 - 1)) (dst (n - k / 8 - 1) + 2 ^ (k % 8))) 0 n +
      dst (0 + (n - k / 8 - 1)) * 256 ^ (n - 1 - (n - k / 8 - 1)) =
        val dst 0 n + (dst (n - k / 8 - 1) + 2 ^ (k % 8)) * 256 ^ (n - 1 - (n - k / 8 - 1)) :=
    val_update hj
  rw [Nat.zero_add, hpos] at hupd
  have hfits : dst (n - k / 8 - 1) + 2 ^ (k % 8) < 256 := by
    have ht := Nat.mod_lt e (Nat.two_pow_pos (7 - k % 8))
    have hroom := Nat.mul_le_mul_left (2 ^ (k % 8 + 1)) (Nat.succ_le_of_lt ht)
    rw [Nat.mul_succ, ← Nat.pow_add, show k % 8 + 1 + (7 - k % 8) = 8 by omega] at hroom
    have hlt : 2 ^ (k % 8) < 2 ^ (k % 8 + 1) := Nat.pow_lt_pow_right (by norm_num) (Nat.lt_succ_self _)
    rw [hbyte]
    norm_num at hroom
    omega
  rw [hor]
  refine ⟨?_, hd.update hfits⟩
  rw [hk2]
  have := Nat.add_mul (dst (n - k / 8 - 1)) (2 ^ (k % 8)) (256 ^ (k / 8))
  omega

variable {a b : Nat → Nat} {nA nB nDst : Nat}

/-- `pTmp` in the loop of `_Div`: `pB << nShift` plus `pMul`, cut to `nA` bytes. -/
theorem divTmp_val (hB : Bytes b 0 nB) {s : DivState} (hm : Bytes s.mul 0 nA) (k : Nat) :
    val (inc (shiftLeft s.tmp nA b nB k) nA s.mul nA).1 0 nA = (val b 0 nB * 2 ^ k % 256 ^ nA + val s.mul 0 nA) % 256 ^ nA ∧
      Bytes (inc (shiftLeft s.tmp nA b nB k) nA s.mul nA).1 0 nA := by
  have hsh : val (shiftLeft s.tmp nA b nB k) 0 nA = val b 0 nB * 2 ^ k % 256 ^ nA ∧
      Bytes (shiftLeft s.tmp nA b nB k) 0 nA := shiftLeft_val s.tmp hB
  rw [← hsh.1]
  exact inc_self_val hsh.2 hm

/-- **The test of `_Div` at shift `k`** is whether one more `2 ^ k` in the quotient
keeps the product at most `a`: a wrapped addition is caught by comparing with `pMul`. -/
theorem divStep_eq (hA : Bytes a 0 nA) (hB : Bytes b 0 nB) {k : Nat} {s : DivState} (hm : Bytes s.mul 0 nA)
    (hmul : val s.mul 0 nA = val s.dst 0 nDst * val b 0 nB) (hkA : val b 0 nB * 2 ^ k < 256 ^ nA) :
    divStep a nA b nB nDst k s =
      if (val s.dst 0 nDst + 2 ^ k) * val b 0 nB ≤ val a 0 nA then
        ⟨Function.update s.dst (nDst - (k >>> 3) - 1) (s.dst (nDst - (k >>> 3) - 1) ||| 1 <<< (7 &&& k)),
          copy s.mul 0 (inc (shiftLeft s.tmp nA b nB k) nA s.mul nA).1 0 nA, (inc (shiftLeft s.tmp nA b nB k) nA s.mul nA).1⟩
      else { s with tmp := (inc (shiftLeft s.tmp nA b nB k) nA s.mul nA).1 } := by
  obtain ⟨htmp, htmpb⟩ := divTmp_val hB hm k
  have hX : (val s.dst 0 nDst + 2 ^ k) * val b 0 nB = val b 0 nB * 2 ^ k + val s.mul 0 nA := by rw [hmul]; ring
  have hmlt := val_lt hm
  have hAlt := val_lt hA
  unfold divStep
  dsimp only
  rw [cmp_eq_compare hm htmpb, cmp_eq_compare hA htmpb, htmp, Nat.mod_eq_of_lt hkA, hX]
  by_cases hfit : val b 0 nB * 2 ^ k + val s.mul 0 nA < 256 ^ nA
  · -- no wrap: the sum is compared with `pA`
    rw [Nat.mod_eq_of_lt hfit, if_neg (by rw [compare_gt_iff_gt]; omega)]
    by_cases hle : val b 0 nB * 2 ^ k + val s.mul 0 nA ≤ val a 0 nA
    · rw [if_neg (by rw [compare_lt_iff_lt]; omega), if_pos hle]
    · rw [if_pos (compare_lt_iff_lt.2 (by omega)), if_neg hle]
  · -- the addition wrapped and came out below `pMul`
    have hwrap : (val b 0 nB * 2 ^ k + val s.mul 0 nA) % 256 ^ nA = val b 0 nB * 2 ^ k + val s.mul 0 nA - 256 ^ nA := by
      rw [Nat.mod_eq_sub_mod (by omega), Nat.mod_eq_of_lt (by omega)]
    rw [hwrap, if_pos (compare_gt_iff_gt.2 (by omega)), if_neg (by omega)]

/-- One step of `_Div` keeps `pMul = pDst * pB` and sets bit `k` of `pDst` when
the product stays at most `a`. -/
theorem divStep_spec (hA : Bytes a 0 nA) (hB : Bytes b 0 nB) {k : Nat} {s : DivState} (hd : Bytes s.dst 0 nDst)
    (hm : Bytes s.mul 0 nA) (hmul : val s.mul 0 nA = val s.dst 0 nDst * val b 0 nB)
    (hkA : val b 0 nB * 2 ^ k < 256 ^ nA) (hk8 : k < 8 * nDst) (hdvd : 2 ^ (k + 1) ∣ val s.dst 0 nDst) :
    Bytes (divStep a nA b nB nDst k s).dst 0 nDst ∧ Bytes (divStep a nA b nB nDst k s).mul 0 nA ∧
      val (divStep a nA b nB nDst k s).dst 0 nDst =
        (if (val s.dst 0 nDst + 2 ^ k) * val b 0 nB ≤ val a 0 nA then val s.dst 0 nDst + 2 ^ k else val s.dst 0 nDst) ∧
      val (divStep a nA b nB nDst k s).mul 0 nA = val (divStep a nA b nB nDst k s).dst 0 nDst * val b 0 nB := by
  rw [divStep_eq hA hB hm hmul hkA]
  split
  · -- bit `k` set, `pMul` takes the sum
    rename_i hle
    obtain ⟨htmp, htmpb⟩ := divTmp_val hB hm k
    obtain ⟨hset, hsetb⟩ := val_setBit hd hk8 hdvd
    have hsum : val b 0 nB * 2 ^ k + val s.mul 0 nA = (val s.dst 0 nDst + 2 ^ k) * val b 0 nB := by rw [hmul]; ring
    have hAlt := val_lt hA
    refine ⟨hsetb, bytes_copy _ _ htmpb, hset, ?_⟩
    rw [val_copy, htmp, Nat.mod_eq_of_lt hkA, hsum, Nat.mod_eq_of_lt (by omega), hset]
  · exact ⟨hd, hm, rfl, hmul⟩

/-- **The loop of `_Div`** with `k` shifts left: from the bits of `M` above `k`, it
reaches `M`, given that each shift's test says whether the next bit of `M` is set. -/
theorem divLoop_spec (hA : Bytes a 0 nA) (hB : Bytes b 0 nB) {M S : Nat} (hM : M < 2 ^ (S + 1))
    (hS8 : S < 8 * nDst) (hSA : val b 0 nB * 2 ^ S < 256 ^ nA)
    (hdec : ∀ k ≤ S, (M / 2 ^ (k + 1) * 2 ^ (k + 1) + 2 ^ k) * val b 0 nB ≤ val a 0 nA ↔
      M / 2 ^ (k + 1) * 2 ^ (k + 1) + 2 ^ k ≤ M) :
    ∀ k ≤ S + 1, ∀ s : DivState, Bytes s.dst 0 nDst → Bytes s.mul 0 nA → val s.dst 0 nDst = M / 2 ^ k * 2 ^ k →
      val s.mul 0 nA = val s.dst 0 nDst * val b 0 nB →
      Bytes (divLoop a nA b nB nDst k s).dst 0 nDst ∧ Bytes (divLoop a nA b nB nDst k s).mul 0 nA ∧
        val (divLoop a nA b nB nDst k s).dst 0 nDst = M ∧
        val (divLoop a nA b nB nDst k s).mul 0 nA = M * val b 0 nB
  | 0, _, s, hd, hm, hval, hmul => by
    rw [Nat.pow_zero, Nat.div_one, Nat.mul_one] at hval
    exact ⟨hd, hm, hval, hval ▸ hmul⟩
  | k + 1, hk, s, hd, hm, hval, hmul => by
    have hkA : val b 0 nB * 2 ^ k < 256 ^ nA :=
      lt_of_le_of_lt (Nat.mul_le_mul_left _ (Nat.pow_le_pow_right (by norm_num) (by omega))) hSA
    obtain ⟨hd', hm', hval', hmul'⟩ := divStep_spec hA hB hd hm hmul hkA (by omega) (hval ▸ Dvd.intro_left _ rfl)
    -- the test sets bit `k` exactly when `M` has it
    have hstep : val (divStep a nA b nB nDst k s).dst 0 nDst = M / 2 ^ k * 2 ^ k := by
      rw [hval', hval, ← div_pow_mul_step M k]
      by_cases hle : M / 2 ^ (k + 1) * 2 ^ (k + 1) + 2 ^ k ≤ M
      · rw [if_pos hle, if_pos ((hdec k (by omega)).2 hle)]
      · rw [if_neg hle, if_neg (mt (hdec k (by omega)).1 hle)]
    exact divLoop_spec hA hB hM hS8 hSA hdec k (by omega) _ hd' hm' hstep hmul'

/-- **What `_Div` computes**, for every width: with a divisor, the quotient cut to
`nDst` bytes; with none, ones up to bit `8 * nA` or to the top of `pDst`,
whichever is lower; and `pMul` the quotient times the divisor. -/
theorem div_spec (dst mul tmp : Nat → Nat) (hDst : 0 < nDst) (hA : Bytes a 0 nA) (hB : Bytes b 0 nB) :
    val (div dst nDst a nA b nB mul tmp).dst 0 nDst =
        (if val b 0 nB = 0 then 2 ^ (min (8 * nA) (8 * nDst - 1) + 1) - 1
          else min (val a 0 nA / val b 0 nB) (2 ^ (8 * nDst) - 1)) ∧
      val (div dst nDst a nA b nB mul tmp).mul 0 nA = val (div dst nDst a nA b nB mul tmp).dst 0 nDst * val b 0 nB ∧
      Bytes (div dst nDst a nA b nB mul tmp).dst 0 nDst ∧ Bytes (div dst nDst a nA b nB mul tmp).mul 0 nA := by
  have hA8 : nA <<< 3 = 8 * nA := by rw [Nat.shiftLeft_eq]; ring
  have hD8 : nDst <<< 3 = 8 * nDst := by rw [Nat.shiftLeft_eq]; ring
  have hAlt : val a 0 nA < 2 ^ (8 * nA) := by rw [Nat.pow_mul]; exact val_lt hA
  have hBlt : val b 0 nB < 2 ^ Nat.size (val b 0 nB) := Nat.lt_size_self _
  unfold div
  dsimp only
  rw [getOrder_eq_size hB, hA8, hD8]
  split
  · -- the divisor has more bits than `a`: the quotient is zero
    rename_i hbig
    have hBge : 2 ^ (8 * nA) ≤ val b 0 nB := Nat.lt_size.1 hbig
    rw [if_neg (by omega), Nat.div_eq_of_lt (by omega), Nat.zero_min, val_fill_zero, val_fill_zero, Nat.zero_mul]
    exact ⟨rfl, rfl, bytes_fill _ _ _ (by norm_num), bytes_fill _ _ _ (by norm_num)⟩
  · rename_i hle
    -- `S` is the top bit tried, `M` the quotient the loop reaches
    set S := min (8 * nA - Nat.size (val b 0 nB)) (8 * nDst - 1) with hS
    set M := if val b 0 nB = 0 then 2 ^ (S + 1) - 1 else min (val a 0 nA / val b 0 nB) (2 ^ (S + 1) - 1) with hMdef
    have hpowS := Nat.two_pow_pos (S + 1)
    have hM : M < 2 ^ (S + 1) := by
      rw [hMdef]
      split <;> omega
    have hSA : val b 0 nB * 2 ^ S < 256 ^ nA := by
      calc val b 0 nB * 2 ^ S < 2 ^ Nat.size (val b 0 nB) * 2 ^ (8 * nA - Nat.size (val b 0 nB)) :=
            Nat.mul_lt_mul_of_lt_of_le hBlt (Nat.pow_le_pow_right (by norm_num) (by omega)) (Nat.two_pow_pos _)
        _ = 256 ^ nA := by
            rw [← Nat.pow_add, show (256 : Nat) ^ nA = 2 ^ (8 * nA) by rw [Nat.pow_mul]]; congr 1; omega
    have hdec : ∀ k ≤ S, (M / 2 ^ (k + 1) * 2 ^ (k + 1) + 2 ^ k) * val b 0 nB ≤ val a 0 nA ↔
        M / 2 ^ (k + 1) * 2 ^ (k + 1) + 2 ^ k ≤ M := by
      intro k hk
      have hroom := div_pow_mul_add_lt hM hk
      generalize M / 2 ^ (k + 1) * 2 ^ (k + 1) = d at hroom ⊢
      by_cases hB0 : val b 0 nB = 0
      · rw [hMdef, if_pos hB0, hB0, Nat.mul_zero]
        constructor <;> intro <;> omega
      · rw [hMdef, if_neg hB0, ← Nat.le_div_iff_mul_le (Nat.pos_of_ne_zero hB0)]
        constructor <;> intro <;> omega
    have hstart : val (fill dst 0 nDst 0) 0 nDst = M / 2 ^ (S + 1) * 2 ^ (S + 1) := by
      rw [val_fill_zero, Nat.div_eq_of_lt hM, Nat.zero_mul]
    rw [Nat.add_comm 1]
    obtain ⟨hd, hm, hval, hmul⟩ := divLoop_spec hA hB hM (by omega) hSA hdec (S + 1) le_rfl
      ⟨fill dst 0 nDst 0, fill mul 0 nA 0, tmp⟩ (bytes_fill _ _ _ (by norm_num)) (bytes_fill _ _ _ (by norm_num))
      hstart (by rw [val_fill_zero, hstart, Nat.div_eq_of_lt hM, Nat.zero_mul, Nat.zero_mul])
    refine ⟨?_, by rw [hmul, hval], hd, hm⟩
    rw [hval, hMdef]
    by_cases hB0 : val b 0 nB = 0
    · rw [if_pos hB0, if_pos hB0, hS, hB0, Nat.size_zero, Nat.sub_zero]
    · rw [if_neg hB0, if_neg hB0]
      rcases Nat.lt_or_ge (8 * nA - Nat.size (val b 0 nB)) (8 * nDst - 1) with htop | htop
      · -- the loop starts at the divisor's room in `a`, above which the quotient has no bits
        have hsz : 0 < Nat.size (val b 0 nB) := Nat.size_pos.2 (Nat.pos_of_ne_zero hB0)
        have hBge : 2 ^ (Nat.size (val b 0 nB) - 1) ≤ val b 0 nB := Nat.lt_size.1 (by omega)
        have hq : val a 0 nA / val b 0 nB < 2 ^ (S + 1) := by
          rw [Nat.div_lt_iff_lt_mul (Nat.pos_of_ne_zero hB0), hS, Nat.min_eq_left htop.le]
          calc val a 0 nA < 2 ^ (8 * nA) := hAlt
            _ = 2 ^ (8 * nA - Nat.size (val b 0 nB) + 1) * 2 ^ (Nat.size (val b 0 nB) - 1) := by
                rw [← Nat.pow_add]; congr 1; omega
            _ ≤ 2 ^ (8 * nA - Nat.size (val b 0 nB) + 1) * val b 0 nB := Nat.mul_le_mul_left _ hBge
        have hSD : 2 ^ (S + 1) ≤ 2 ^ (8 * nDst) := Nat.pow_le_pow_right (by norm_num) (by omega)
        rw [Nat.min_eq_left (by omega), Nat.min_eq_left (by omega)]
      · -- the loop starts at the top bit of `pDst`
        rw [hS, Nat.min_eq_right htop, Nat.sub_add_cancel (by omega)]

/-- **`SetDiv` for every width**: a nonzero divisor gives the quotient cut to the
destination, a zero one all ones up to bit `8 * nBytesA` or the top of the
destination, and `mul` is the quotient times the divisor. -/
theorem setDiv_eq (this mul tmp : Nat → Nat) (hDst : 0 < nDst) (hA : Bytes a 0 nA) (hB : Bytes b 0 nB) :
    val (setDiv this nDst a nA b nB mul tmp).1 0 nDst =
        (if val b 0 nB = 0 then 2 ^ (min (8 * nA) (8 * nDst - 1) + 1) - 1
          else min (val a 0 nA / val b 0 nB) (2 ^ (8 * nDst) - 1)) ∧
      val (setDiv this nDst a nA b nB mul tmp).2 0 nA = val (setDiv this nDst a nA b nB mul tmp).1 0 nDst * val b 0 nB :=
  ⟨(div_spec this mul tmp hDst hA hB).1, (div_spec this mul tmp hDst hA hB).2.1⟩

end Div

end Beam.UintBig
