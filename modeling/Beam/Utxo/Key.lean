import Beam.Utxo.Tree
import Beam.Core.UintBig

/-!
# `UtxoTree::Key`: a commitment and a maturity in one key

`src/core/radixtree.cpp`.  The key of a UTXO is `Key::V`, a `uintBig_t` of `s_Bytes`
bytes: the 32 bytes of the commitment's X, then one bit for its Y, then the 64 bits of
the maturity, highest first, and seven zero bits.  `Key::operator = (const Data&)` packs
the maturity byte by byte, each byte shifted one bit right across two key bytes;
`Key::Data::operator = (const Key&)` shifts it back in, and reads the top bit of each
next key byte a second time as the low bit of the byte before, which is the bit it has
already.

* `val_ofData`: the key's value is `((X * 2 + Y) * 2 ^ 64 + maturity) * 2 ^ 7`;
* `toData_ofData`: unpacking gives the data back, for a `Y` of `0` or `1`;
* `cmp_ofData`: keys order by X, then Y, then maturity.
-/

namespace Beam.UtxoTree

open BigEndian

/-- `ECC::uintBig::nBytes`: the bytes of the commitment's X. -/
def nBytesX : Nat := 32

/-- `Key::s_Bytes`: the bytes of `Key::V`. -/
def sBytes : Nat := (sBits + 7) >>> 3

/-- `Key::Data`: the commitment, as the bytes of its X and its `m_Y`, and the maturity, a
`Height`. -/
structure KeyData where
  x : Nat → Nat
  y : Nat
  maturity : Nat
  x_bytes : Bytes x 0 nBytesX
  y_lt : y < 256
  maturity_lt : maturity < 2 ^ 64

namespace KeyData

/-- Two `Key::Data` alike: the same commitment (`ECC::Point::operator ==`, on the bytes of
X and on Y) and the same maturity. -/
def Same (d d' : KeyData) : Prop :=
  (∀ i < nBytesX, d.x i = d'.x i) ∧ d.y = d'.y ∧ d.maturity = d'.maturity

/-- The Y bit a key holds: `m_Y` tested for zero. -/
def yBit (d : KeyData) : Nat := if d.y = 0 then 0 else 1

/-- The 65 bits after X: the Y bit, then the maturity. -/
def tail (d : KeyData) : Nat := d.yBit * 2 ^ 64 + d.maturity

theorem yBit_le_one (d : KeyData) : d.yBit ≤ 1 := by
  unfold yBit; split <;> omega

theorem yBit_of_le_one {d : KeyData} (h : d.y ≤ 1) : d.yBit = d.y := by
  unfold yBit; split <;> omega

theorem tail_lt (d : KeyData) : d.tail < 2 ^ 65 := by
  have := d.yBit_le_one
  have := d.maturity_lt
  unfold tail
  omega

end KeyData

/-! ## Packing and unpacking -/

/-- The loop of `Key::operator = (const Data&)` at byte `i` of the maturity `m`, `k` bytes
left: the byte, highest first, goes one bit right into key byte `off + i`, and its low bit
starts key byte `off + i + 1`. -/
def packLoop (m off : Nat) : Nat → Nat → (Nat → Nat) → Nat → Nat
  | 0, _, v => v
  | k + 1, i, v =>
    let val := (m >>> ((8 - i - 1) <<< 3)) % 256
    let v := Function.update v (off + i) (v (off + i) ||| val >>> 1)
    packLoop m off k (i + 1) (Function.update v (off + i + 1) ((val <<< 7) % 256))

/-- `Key::operator = (const Data&)`: X copied, the bytes after it zeroed, the top bit of
the next set when `m_Y` is not zero, and the eight bytes of the maturity packed. -/
def ofData (d : KeyData) : Nat → Nat :=
  let v := fill (copy (fun _ => 0) 0 d.x 0 nBytesX) nBytesX (sBytes - nBytesX) 0
  let v := if d.y ≠ 0 then Function.update v nBytesX (v nBytesX ||| 1 <<< 7) else v
  packLoop d.maturity nBytesX 8 0 v

/-- The loop of `Key::Data::operator = (const Key&)` at key byte `off + i`, `k` bytes left:
the maturity moves a byte up and takes that key byte shifted left by one and the top bit of
the next key byte. -/
def unpackLoop (v : Nat → Nat) (off : Nat) : Nat → Nat → Nat → Nat
  | 0, _, m => m
  | k + 1, i, m => unpackLoop v off k (i + 1) ((m <<< 8) % 2 ^ 64 ||| v (off + i) <<< 1 ||| v (off + i + 1) >>> 7)

theorem unpackLoop_lt (v : Nat → Nat) (hv : Bytes v 0 sBytes) (off : Nat) (hoff : off + 8 < sBytes) :
    ∀ k i m, i + k ≤ 8 → m < 2 ^ 64 → unpackLoop v off k i m < 2 ^ 64
  | 0, _, _, _, hm => hm
  | k + 1, i, m, hik, _ => by
    have h1 : v (off + i) < 256 := by simpa using hv (off + i) (by omega)
    have h2 : v (off + i + 1) < 256 := by simpa using hv (off + i + 1) (by omega)
    apply unpackLoop_lt v hv off hoff k (i + 1) _ (by omega)
    refine Nat.or_lt_two_pow (Nat.or_lt_two_pow (Nat.mod_lt _ (Nat.two_pow_pos 64)) ?_) ?_
    · rw [Nat.shiftLeft_eq]; omega
    · rw [Nat.shiftRight_eq_div_pow]; omega

/-- `Key::Data::operator = (const Key&)` on the bytes `v` of a key. -/
def toData (v : Nat → Nat) (hv : Bytes v 0 sBytes) : KeyData where
  x := copy (fun _ => 0) 0 v 0 nBytesX
  y := 1 &&& (v nBytesX >>> 7)
  maturity := unpackLoop v nBytesX 8 0 0
  x_bytes := bytes_copy _ 0 (hv.mono (by decide))
  y_lt := Nat.lt_of_le_of_lt Nat.and_le_left (by decide)
  maturity_lt := unpackLoop_lt v hv nBytesX (by decide) 8 0 0 (by decide) (by decide)

/-! ## What a packed key holds -/

section Pack

/-- A byte down: `M / 2 ^ (8 * k)` is `M / 2 ^ (8 * (k + 1))` a byte up, over its own last
byte. -/
theorem div_pow_eight (M k : Nat) : M / 2 ^ (8 * k) = M / 2 ^ (8 * (k + 1)) * 256 + M / 2 ^ (8 * k) % 256 := by
  have h : 2 ^ (8 * (k + 1)) = 2 ^ (8 * k) * 256 := by rw [Nat.mul_succ, Nat.pow_add]
  rw [h, ← Nat.div_div_eq_div_mul]
  omega

/-- Below the top byte, the bytes of the Y bit over the maturity are the maturity's. -/
theorem tail_byte {yb m k : Nat} (hk : k < 8) : (yb * 2 ^ 64 + m) / 2 ^ (8 * k) % 256 = m / 2 ^ (8 * k) % 256 := by
  have h64 : yb * 2 ^ 64 = yb * 2 ^ (56 - 8 * k) * 256 * 2 ^ (8 * k) := by
    rw [Nat.mul_assoc, Nat.mul_assoc, show (256 : Nat) = 2 ^ 8 by rfl, ← Nat.pow_add, ← Nat.pow_add,
      show 56 - 8 * k + (8 + 8 * k) = 64 by omega]
  rw [h64, Nat.add_comm, Nat.add_mul_div_right _ _ (Nat.two_pow_pos _), Nat.add_mul_mod_self_right]

variable {m off : Nat}

theorem packLoop_frame : ∀ k i (v : Nat → Nat) j, j < off + i → packLoop m off k i v j = v j
  | 0, _, _, _, _ => rfl
  | k + 1, i, v, j, hj => by
    rw [packLoop, packLoop_frame k (i + 1) _ j (by omega), Function.update_of_ne (by omega),
      Function.update_of_ne (by omega)]

/-- **The packing loop**, `k` bytes of the maturity `m` left.  When the key bytes from `off`
through `off + i` hold the bits of `M` above its last `k` bytes, shifted seven left, with
the last of them open below its top bit, the loop ends with all of `M` there, shifted seven
left; `M`'s last eight bytes are those of `m`. -/
theorem packLoop_val {M : Nat} (hM : ∀ k < 8, M / 2 ^ (8 * k) % 256 = m / 2 ^ (8 * k) % 256) :
    ∀ k i (v : Nat → Nat), i + k = 8 → Bytes v off (i + 1) → v (off + i) % 128 = 0 →
      val v off (i + 1) = M / 2 ^ (8 * k) * 128 →
      Bytes (packLoop m off k i v) off 9 ∧ val (packLoop m off k i v) off 9 = M * 128 := by
  intro k
  induction k with
  | zero =>
    intro i v hik hb _ hval
    obtain rfl : i = 8 := by omega
    refine ⟨hb, ?_⟩
    rw [packLoop, hval, Nat.mul_zero, Nat.pow_zero, Nat.div_one]
  | succ k ih =>
    intro i v hik hb hlow hval
    -- the byte of the maturity this step packs is byte `k` of `M`
    have hbyte : (m >>> ((8 - i - 1) <<< 3)) % 256 = M / 2 ^ (8 * k) % 256 := by
      rw [hM k (by omega), Nat.shiftRight_eq_div_pow, Nat.shiftLeft_eq, show (8 - i - 1) * 2 ^ 3 = 8 * k by omega]
    rw [packLoop, hbyte]
    clear hbyte
    set b := M / 2 ^ (8 * k) % 256 with hb_def
    have hblt : b < 256 := Nat.mod_lt _ (by decide)
    have hvi : v (off + i) < 256 := hb i (by omega)
    -- its top seven bits go below the top bit of the open key byte, which has them zero
    have hor : v (off + i) ||| b >>> 1 = v (off + i) + b / 2 := by
      rw [Nat.shiftRight_eq_div_pow, Nat.pow_one, show v (off + i) = 2 ^ 7 * (v (off + i) / 128) by omega,
        ← Nat.two_pow_add_eq_or_of_lt (by omega)]
    set w := Function.update (Function.update v (off + i) (v (off + i) ||| b >>> 1)) (off + i + 1) ((b <<< 7) % 256)
      with hw_def
    have hw_i : w (off + i) = v (off + i) + b / 2 := by
      rw [hw_def, Function.update_of_ne (by omega), Function.update_self, hor]
    have hw_next : w (off + i + 1) = (b <<< 7) % 256 := by rw [hw_def, Function.update_self]
    have hw_below : val w off i = val v off i :=
      val_congr fun j hj => by rw [hw_def, Function.update_of_ne (by omega), Function.update_of_ne (by omega)]
    have hstep := div_pow_eight M k
    rw [← hb_def] at hstep
    clear_value b
    refine ih (i + 1) w (by omega) ?_ ?_ ?_
    · intro j hj
      rcases Nat.lt_succ_iff_lt_or_eq.mp hj with hj | rfl
      · rcases Nat.lt_succ_iff_lt_or_eq.mp hj with hj | rfl
        · rw [hw_def, Function.update_of_ne (by omega), Function.update_of_ne (by omega)]
          exact hb j (by omega)
        · rw [hw_i]; omega
      · rw [show off + (i + 1) = off + i + 1 by omega, hw_next, Nat.shiftLeft_eq]; omega
    · rw [show off + (i + 1) = off + i + 1 by omega, hw_next, Nat.shiftLeft_eq]; omega
    · rw [val_succ, val_succ, hw_below, hw_i, show off + (i + 1) = off + i + 1 by omega, hw_next, Nat.shiftLeft_eq]
      rw [val_succ] at hval
      generalize M / 2 ^ (8 * (k + 1)) = N at hval hstep
      generalize M / 2 ^ (8 * k) = Q at hstep ⊢
      rw [show b * 2 ^ 7 % 256 = b % 2 * 128 by omega]
      have := Nat.div_add_mod b 2
      linarith

/-- The X bytes of a packed key are the data's. -/
theorem ofData_of_lt (d : KeyData) {j : Nat} (hj : j < nBytesX) : ofData d j = d.x j := by
  unfold ofData
  rw [packLoop_frame 8 0 _ j (by omega)]
  split
  · rw [Function.update_of_ne (by omega), fill_of_not_mem (by omega), copy]
    simp [hj]
  · rw [fill_of_not_mem (by omega), copy]
    simp [hj]

/-- **The nine key bytes after X** hold the Y bit over the maturity, shifted seven left. -/
theorem ofData_tail (d : KeyData) : Bytes (ofData d) nBytesX 9 ∧ val (ofData d) nBytesX 9 = d.tail * 128 := by
  -- the buffer the loop starts from: zeros after X, and the Y bit on top of the first of them
  set v := fill (copy (fun _ => 0) 0 d.x 0 nBytesX) nBytesX (sBytes - nBytesX) 0 with hv
  have hv0 : v nBytesX = 0 := fill_of_mem (by decide)
  set v' := if d.y ≠ 0 then Function.update v nBytesX (v nBytesX ||| 1 <<< 7) else v with hv'
  have hv'0 : v' nBytesX = d.yBit * 128 := by
    rw [hv', KeyData.yBit]
    split
    · rw [Function.update_self, hv0]; rfl
    · next hy => rw [hv0, if_pos (not_not.mp hy)]
  have htop : d.tail / 2 ^ (8 * 8) = d.yBit := by
    have := d.maturity_lt
    rw [KeyData.tail, Nat.add_comm, Nat.add_mul_div_right _ _ (Nat.two_pow_pos _), Nat.div_eq_of_lt this,
      Nat.zero_add]
  have hM : ∀ k < 8, d.tail / 2 ^ (8 * k) % 256 = d.maturity / 2 ^ (8 * k) % 256 := fun k hk =>
    tail_byte hk
  refine packLoop_val hM 8 0 v' rfl ?_ ?_ ?_
  · intro j hj
    obtain rfl : j = 0 := by omega
    have := d.yBit_le_one
    rw [Nat.add_zero, hv'0]; omega
  · rw [Nat.add_zero, hv'0]; omega
  · rw [val_succ, val_zero, Nat.zero_mul, Nat.zero_add, Nat.add_zero, hv'0, htop]

theorem bytes_ofData (d : KeyData) : Bytes (ofData d) 0 sBytes := by
  intro j hj
  by_cases hx : j < nBytesX
  · rw [Nat.zero_add, ofData_of_lt d hx]
    simpa using d.x_bytes j hx
  · have hs : sBytes = nBytesX + 9 := rfl
    have := (ofData_tail d).1 (j - nBytesX) (by omega)
    rwa [show nBytesX + (j - nBytesX) = 0 + j by omega] at this

/-- **The value of a packed key**: X, then the Y bit, then the 64 bits of the maturity, then
seven zero bits. -/
theorem val_ofData (d : KeyData) :
    val (ofData d) 0 sBytes = ((val d.x 0 nBytesX * 2 + d.yBit) * 2 ^ 64 + d.maturity) * 2 ^ 7 := by
  have hx : val (ofData d) 0 nBytesX = val d.x 0 nBytesX := val_congr fun j hj => ofData_of_lt d (by omega)
  rw [show sBytes = nBytesX + 9 by rfl, val_add, hx, Nat.zero_add, (ofData_tail d).2, KeyData.tail]
  ring

end Pack

/-! ## Unpacking a packed key -/

section Unpack

theorem pow_256 (n : Nat) : 256 ^ n = 2 ^ (8 * n) := by rw [Nat.pow_mul]

/-- Key byte `7 - k`, when the key bytes hold `M` shifted seven left, holds the bits of `M`
one above its last `k` bytes. -/
theorem mul_div_pow_succ (M k : Nat) : M * 128 / 256 ^ (k + 1) = M / 2 ^ (8 * k) / 2 :=
  calc M * 128 / 256 ^ (k + 1) = M * 128 / (2 * 128) / 2 ^ (8 * k) := by
        rw [Nat.div_div_eq_div_mul, Nat.pow_succ, pow_256, Nat.mul_comm (2 ^ (8 * k)) 256]
    _ = M / 2 / 2 ^ (8 * k) := by rw [Nat.mul_div_mul_right _ _ (by decide : 0 < 128)]
    _ = M / 2 ^ (8 * k) / 2 := by rw [Nat.div_div_eq_div_mul, Nat.div_div_eq_div_mul, Nat.mul_comm]

/-- The top bit of key byte `8 - k` is the lowest of the bits of `M` above its last `k`
bytes. -/
theorem mul_div_pow_top (M k : Nat) : M * 128 / 256 ^ k % 256 / 128 = M / 2 ^ (8 * k) % 2 :=
  calc M * 128 / 256 ^ k % 256 / 128 = M * 128 / 256 ^ k / 128 % 2 := Nat.mod_mul_right_div_self _ 128 2
    _ = M / 2 ^ (8 * k) % 2 := by
        rw [Nat.div_div_eq_div_mul, Nat.mul_div_mul_right _ _ (by decide : 0 < 128), pow_256]

/-- Two key bytes give back a byte of `M` and the bit above it: the low seven bits of key
byte `7 - k`, and the top bit of the next. -/
theorem shift_pair (M k : Nat) :
    (M * 128 / 256 ^ (k + 1) % 256) <<< 1 ||| (M * 128 / 256 ^ k % 256) >>> 7 = M / 2 ^ (8 * k) % 512 := by
  -- an even number or-ed with a bit is their sum
  have hor : ∀ a b : Nat, b < 2 → a * 2 ||| b = a * 2 + b := fun a b hb => by
    have := Nat.two_pow_add_eq_or_of_lt (i := 1) (by omega : b < 2 ^ 1) a
    rw [Nat.pow_one] at this
    rw [Nat.mul_comm, this]
  rw [Nat.shiftLeft_eq, Nat.shiftRight_eq_div_pow, mul_div_pow_succ, show (2 : Nat) ^ 7 = 128 by rfl,
    mul_div_pow_top, Nat.pow_one, hor _ _ (Nat.mod_lt _ (by decide))]
  omega

/-- The maturity a byte up, cut to 64 bits, with the next nine bits of `M` or-ed in: the
lowest of those nine is already there. -/
theorem or_overlap (Q : Nat) : Q / 256 * 256 % 2 ^ 64 ||| Q % 512 = Q % 2 ^ 64 := by
  apply Nat.eq_of_testBit_eq
  intro j
  rw [show Q / 256 * 256 = Q >>> 8 <<< 8 by rw [Nat.shiftRight_eq_div_pow, Nat.shiftLeft_eq],
    show (512 : Nat) = 2 ^ 9 by rfl, Nat.testBit_or, Nat.testBit_mod_two_pow, Nat.testBit_mod_two_pow,
    Nat.testBit_mod_two_pow, Nat.testBit_shiftLeft, Nat.testBit_shiftRight]
  by_cases hj : j < 8
  · simp [show j < 9 by omega, show j < 64 by omega, show ¬ 8 ≤ j by omega]
  · by_cases hj9 : j < 9
    · obtain rfl : j = 8 := by omega
      simp
    · by_cases h64 : j < 64
      · simp [h64, hj9, show 8 ≤ j by omega, show 8 + (j - 8) = j by omega]
      · simp [h64, hj9]

variable {v : Nat → Nat} {off M : Nat}

/-- **The unpacking loop**, `k` key bytes left after the first: when the key bytes from
`off` hold `M` shifted seven left and the maturity so far holds the bits of `M` above its
last `k` bytes, the loop ends with the last 64 bits of `M`. -/
theorem unpackLoop_val (hv : ∀ j ≤ 8, v (off + j) = M * 128 / 256 ^ (8 - j) % 256) :
    ∀ k i m, i + k = 8 → 1 ≤ i → m = M / 2 ^ (8 * k) % 2 ^ 64 → unpackLoop v off k i m = M % 2 ^ 64 := by
  intro k
  induction k with
  | zero =>
    intro i m _ _ hm
    rw [unpackLoop, hm, Nat.mul_zero, Nat.pow_zero, Nat.div_one]
  | succ k ih =>
    intro i m hik hi hm
    rw [unpackLoop]
    apply ih (i + 1) _ (by omega) (by omega)
    have h1 : v (off + i) = M * 128 / 256 ^ (k + 1) % 256 := by rw [hv i (by omega), show 8 - i = k + 1 by omega]
    have h2 : v (off + i + 1) = M * 128 / 256 ^ k % 256 := by
      rw [Nat.add_assoc, hv (i + 1) (by omega), show 8 - (i + 1) = k by omega]
    -- the maturity so far is `M / 2 ^ (8 * k)` a byte down
    have hQ := div_pow_eight M k
    have hdown : M / 2 ^ (8 * (k + 1)) * 2 ^ 8 = M / 2 ^ (8 * k) / 256 * 256 := by
      rw [show (2 : Nat) ^ 8 = 256 by rfl]; omega
    rw [Nat.or_assoc, h1, h2, shift_pair, hm, Nat.shiftLeft_eq, Nat.mod_mul_mod, hdown, or_overlap]

/-- **Unpacking from the first key byte**: the first step starts from zero, and `M`, of 65
bits, has no bits above the nine it takes. -/
theorem unpackLoop_first (hv : ∀ j ≤ 8, v (off + j) = M * 128 / 256 ^ (8 - j) % 256) (hM : M < 2 ^ 65) :
    unpackLoop v off 8 0 0 = M % 2 ^ 64 := by
  rw [unpackLoop]
  apply unpackLoop_val hv 7 1 _ rfl le_rfl
  have h1 : v off = M * 128 / 256 ^ (7 + 1) % 256 := by simpa using hv 0 (by omega)
  have h2 : v (off + 1) = M * 128 / 256 ^ 7 % 256 := hv 1 (by omega)
  have hlt : M / 2 ^ (8 * 7) < 512 := Nat.div_lt_of_lt_mul (by omega)
  rw [Nat.add_zero, Nat.zero_shiftLeft, Nat.zero_mod, Nat.zero_or, h1, h2, shift_pair,
    Nat.mod_eq_of_lt hlt, Nat.mod_eq_of_lt (by omega)]

end Unpack

/-! ## The round trip and the order of keys -/

/-- The nine key bytes after X, each read back from the packed value. -/
theorem ofData_byte (d : KeyData) : ∀ j ≤ 8, ofData d (nBytesX + j) = d.tail * 128 / 256 ^ (8 - j) % 256 := by
  intro j hj
  obtain ⟨hb, hval⟩ := ofData_tail d
  rw [byte_eq hb (by omega : j < 9), hval, show 9 - 1 - j = 8 - j by omega]

/-- The top bit of the first key byte after X is the Y bit. -/
theorem ofData_yBit (d : KeyData) : 1 &&& (ofData d nBytesX >>> 7) = d.yBit := by
  have h0 := ofData_byte d 0 (by omega)
  rw [Nat.add_zero, show 8 - 0 = 7 + 1 by rfl, mul_div_pow_succ] at h0
  -- `tail / 2 ^ 56` is the Y bit over the maturity's top byte
  have hsplit : d.tail / 2 ^ (8 * 7) = d.yBit * 256 + d.maturity / 2 ^ (8 * 7) := by
    rw [KeyData.tail, show d.yBit * 2 ^ 64 = d.yBit * 256 * 2 ^ (8 * 7) by rw [Nat.mul_assoc]; rfl,
      Nat.add_comm, Nat.add_mul_div_right _ _ (Nat.two_pow_pos _), Nat.add_comm]
  have htop : d.maturity / 2 ^ (8 * 7) < 256 := Nat.div_lt_of_lt_mul d.maturity_lt
  have := d.yBit_le_one
  rw [h0, Nat.one_and_eq_mod_two, Nat.shiftRight_eq_div_pow, show (2 : Nat) ^ 7 = 128 by rfl, hsplit]
  omega

/-- **Unpacking a packed key gives its data back**, for a `Y` of `0` or `1`. -/
theorem toData_ofData (d : KeyData) (hy : d.y ≤ 1) : (toData (ofData d) (bytes_ofData d)).Same d := by
  refine ⟨fun i hi => ?_, ?_, ?_⟩
  · show copy (fun _ => 0) 0 (ofData d) 0 nBytesX i = d.x i
    rw [copy, if_pos ⟨Nat.zero_le _, hi⟩, Nat.sub_zero, Nat.zero_add, ofData_of_lt d hi]
  · show 1 &&& (ofData d nBytesX >>> 7) = d.y
    rw [ofData_yBit, KeyData.yBit_of_le_one hy]
  · show unpackLoop (ofData d) nBytesX 8 0 0 = d.maturity
    rw [unpackLoop_first (ofData_byte d) d.tail_lt, KeyData.tail, Nat.add_comm, Nat.mul_comm,
      Nat.add_mul_mod_self_left, Nat.mod_eq_of_lt d.maturity_lt]

theorem compare_mul_right {a b c : Nat} (hc : 0 < c) : compare (a * c) (b * c) = compare a b := by
  simpa using compare_mul_add (x := 0) (y := 0) (a := a) (b := b) hc hc

/-- **Keys order by X, then Y, then maturity**: the `uintBig` comparison of two packed keys. -/
theorem cmp_ofData (d d' : KeyData) :
    UintBig.cmp (ofData d) sBytes (ofData d') sBytes =
      ((compare (val d.x 0 nBytesX) (val d'.x 0 nBytesX)).then (compare d.yBit d'.yBit)).then
        (compare d.maturity d'.maturity) := by
  have hy := d.yBit_le_one
  have hy' := d'.yBit_le_one
  rw [UintBig.cmp_eq_compare (bytes_ofData d) (bytes_ofData d'), val_ofData, val_ofData,
    compare_mul_right (Nat.two_pow_pos 7), compare_mul_add d.maturity_lt d'.maturity_lt,
    compare_mul_add (by omega) (by omega)]

/-- **The UTXO key round trip and order.**  For data whose `m_Y` is `0` or `1`, assigning a
key from it and data from that key gives the same commitment and maturity; two such keys
compare as `uintBig`s by X, then Y, then maturity, so keys of one commitment compare as
their maturities. -/
theorem key_round_trip_order (d d' : KeyData) (hy : d.y ≤ 1) (hy' : d'.y ≤ 1) :
    (toData (ofData d) (bytes_ofData d)).Same d ∧
      UintBig.cmp (ofData d) sBytes (ofData d') sBytes =
        ((compare (val d.x 0 nBytesX) (val d'.x 0 nBytesX)).then (compare d.y d'.y)).then
          (compare d.maturity d'.maturity) ∧
      ((∀ i < nBytesX, d.x i = d'.x i) → d.y = d'.y →
        UintBig.cmp (ofData d) sBytes (ofData d') sBytes = compare d.maturity d'.maturity) := by
  have hcmp := cmp_ofData d d'
  rw [KeyData.yBit_of_le_one hy, KeyData.yBit_of_le_one hy'] at hcmp
  refine ⟨toData_ofData d hy, hcmp, fun hx hyy => ?_⟩
  -- one commitment: X and Y compare equal
  have hX : val d.x 0 nBytesX = val d'.x 0 nBytesX := val_congr fun i hi => by simpa using hx i hi
  rw [hcmp, hX, hyy, compare_eq_iff_eq.2 rfl, compare_eq_iff_eq.2 rfl, Ordering.eq_then, Ordering.eq_then]

theorem key_round_trip_order_two_maturities :
    let d : KeyData := ⟨fun _ => 7, 1, 300, fun _ _ => show 7 < 256 by decide, by decide, by decide⟩
    let d' : KeyData := ⟨fun _ => 7, 1, 5, fun _ _ => show 7 < 256 by decide, by decide, by decide⟩
    1 ≤ 1 ∧ (toData (ofData d) (bytes_ofData d)).Same d ∧
      UintBig.cmp (ofData d) sBytes (ofData d') sBytes =
        ((compare (val d.x 0 nBytesX) (val d'.x 0 nBytesX)).then (compare d.y d'.y)).then
          (compare d.maturity d'.maturity) ∧
      ((∀ i < nBytesX, d.x i = d'.x i) → d.y = d'.y →
        UintBig.cmp (ofData d) sBytes (ofData d') sBytes = compare d.maturity d'.maturity) :=
  ⟨le_rfl, key_round_trip_order _ _ (by decide) (by decide)⟩

end Beam.UtxoTree
