import Mathlib.Order.Compare
import Mathlib.Tactic.Ring

/-!
# Big-endian byte buffers

A buffer is a function from positions to bytes; a pointer into it is the buffer
and an offset.  `val p off n` is the number whose base-256 digits, highest
first, are `p off, …, p (off + n - 1)`, and `Bytes p off n` says those entries
are bytes.  `fill`, `copy`, `memcmp` and `memis0` are the C library's `memset`,
`memcpy`, `memcmp` and a zero test over such ranges.

The lemmas say how a value splits at a position (`val_add`), what a write does
to it (`val_update`), that it reads only its own range (`val_congr`), how large
it is (`val_lt`), and what the byte operations compute on values
(`memcmp_eq_compare`, `memis0_iff`, `val_fill_zero`, `val_copy`).
`shiftByte_add` and `shiftRight_mul_add` are the facts behind shifting a buffer by
a few bits: a byte shifted left splits into what stays in it and what moves to the
byte before, and one shifted right takes the low bits of the byte before.
`div_pow_mul_step` is the step of setting the bits of a number from the top.
-/

namespace BigEndian

/-- The number whose base-256 digits, highest first, are `p off, …, p (off + n - 1)`. -/
def val (p : Nat → Nat) (off : Nat) : Nat → Nat
  | 0 => 0
  | n + 1 => val p off n * 256 + p (off + n)

/-- The `n` entries of `p` from `off` on are bytes. -/
def Bytes (p : Nat → Nat) (off n : Nat) : Prop :=
  ∀ i < n, p (off + i) < 256

/-- `memset(p + off, v, n)`. -/
def fill (p : Nat → Nat) (off n v : Nat) : Nat → Nat :=
  fun j => if off ≤ j ∧ j < off + n then v else p j

/-- `memcpy(p + off, q + off', n)`. -/
def copy (p : Nat → Nat) (off : Nat) (q : Nat → Nat) (off' n : Nat) : Nat → Nat :=
  fun j => if off ≤ j ∧ j < off + n then q (off' + (j - off)) else p j

/-- `memcmp(p + i, q + j, n)`: the first pair of bytes that differ decides. -/
def memcmp (p : Nat → Nat) (i : Nat) (q : Nat → Nat) (j : Nat) : Nat → Ordering
  | 0 => .eq
  | n + 1 =>
    match compare (p i) (q j) with
    | .eq => memcmp p (i + 1) q (j + 1) n
    | o => o

/-- `memis0(p + off, n)`: all `n` bytes are zero. -/
def memis0 (p : Nat → Nat) (off n : Nat) : Bool :=
  (List.range n).all fun i => p (off + i) == 0

variable {p q : Nat → Nat} {off : Nat}

/-! ## The value of a range -/

@[simp] theorem val_zero (p : Nat → Nat) (off : Nat) : val p off 0 = 0 := rfl

theorem val_succ (p : Nat → Nat) (off n : Nat) : val p off (n + 1) = val p off n * 256 + p (off + n) := rfl

/-- **Splitting a range**: its first `m` digits, then the `n` after them. -/
theorem val_add (p : Nat → Nat) (off m : Nat) :
    ∀ n, val p off (m + n) = val p off m * 256 ^ n + val p (off + m) n
  | 0 => by simp
  | n + 1 => by
    rw [← Nat.add_assoc, val_succ, val_add p off m n, val_succ, Nat.pow_succ, Nat.add_assoc off m n]
    ring

theorem val_succ_left (p : Nat → Nat) (off n : Nat) : val p off (n + 1) = p off * 256 ^ n + val p (off + 1) n := by
  rw [Nat.add_comm n 1, val_add, val_succ, val_zero, Nat.zero_mul, Nat.zero_add, Nat.add_zero]

theorem val_congr {off' n : Nat} (h : ∀ i < n, p (off + i) = q (off' + i)) : val p off n = val q off' n := by
  induction n with
  | zero => rfl
  | succ n ih => rw [val_succ, val_succ, ih fun i hi => h i (by omega), h n (by omega)]

theorem val_lt {n : Nat} (h : Bytes p off n) : val p off n < 256 ^ n := by
  induction n with
  | zero => simp
  | succ n ih =>
    have hlow := ih fun i hi => h i (by omega)
    have hlast := h n (by omega)
    rw [val_succ, Nat.pow_succ]
    omega

theorem Bytes.mono {n m o : Nat} (h : Bytes p off n) (hsub : off ≤ o ∧ o + m ≤ off + n) : Bytes p o m :=
  fun i hi => by
    have := h (o - off + i) (by omega)
    rwa [show off + (o - off + i) = o + i by omega] at this

theorem val_eq_zero_iff {n : Nat} : val p off n = 0 ↔ ∀ i < n, p (off + i) = 0 := by
  induction n with
  | zero => simp
  | succ n ih =>
    rw [val_succ]
    constructor
    · intro h i hi
      rcases Nat.lt_succ_iff_lt_or_eq.1 hi with hi | rfl
      · exact ih.1 (by omega) i hi
      · omega
    · intro h
      have hlow := ih.2 fun i hi => h i (by omega)
      have hlast := h n (by omega)
      omega

/-- The top `m` digits of a range, the `n` below them cut off. -/
theorem val_div_pow {m n : Nat} (h : Bytes p (off + m) n) : val p off (m + n) / 256 ^ n = val p off m := by
  rw [val_add, Nat.mul_comm, Nat.mul_add_div (Nat.pos_of_ne_zero (by simp)), Nat.div_eq_of_lt (val_lt h),
    Nat.add_zero]

/-- The bottom `n` digits of a range. -/
theorem val_mod_pow {m n : Nat} (h : Bytes p (off + m) n) : val p off (m + n) % 256 ^ n = val p (off + m) n := by
  rw [val_add, Nat.mul_add_mod_self_right, Nat.mod_eq_of_lt (val_lt h)]

/-- **A digit of a range** read back from its value. -/
theorem byte_eq {n j : Nat} (h : Bytes p off n) (hj : j < n) : p (off + j) = val p off n / 256 ^ (n - 1 - j) % 256 := by
  obtain ⟨k, rfl⟩ : ∃ k, n = j + 1 + k := ⟨n - 1 - j, by omega⟩
  have hlow : Bytes p (off + (j + 1)) k := h.mono (by omega)
  have hdigit := h j hj
  rw [show j + 1 + k - 1 - j = k by omega, val_div_pow hlow, val_succ]
  omega

/-! ## Writes -/

theorem val_update_of_not_mem {n j v : Nat} (hj : j < off ∨ off + n ≤ j) :
    val (Function.update p j v) off n = val p off n :=
  val_congr fun i hi => Function.update_of_ne (by omega) _ _

/-- **A write into a range** changes its value by the difference at that digit. -/
theorem val_update {n j v : Nat} (hj : j < n) :
    val (Function.update p (off + j) v) off n + p (off + j) * 256 ^ (n - 1 - j) =
      val p off n + v * 256 ^ (n - 1 - j) := by
  obtain ⟨k, rfl⟩ : ∃ k, n = j + 1 + k := ⟨n - 1 - j, by omega⟩
  rw [val_add _ _ (j + 1), val_add p _ (j + 1), val_succ, val_succ, Function.update_self,
    val_update_of_not_mem (Or.inr le_rfl), val_update_of_not_mem (Or.inl (by omega)),
    show j + 1 + k - 1 - j = k by omega]
  ring

theorem Bytes.update {n j v : Nat} (h : Bytes p off n) (hv : v < 256) : Bytes (Function.update p j v) off n := by
  intro i hi
  rw [Function.update_apply]
  split
  · exact hv
  · exact h i hi

theorem fill_of_mem {n v j : Nat} (hj : off ≤ j ∧ j < off + n) : fill p off n v j = v := if_pos hj

theorem fill_of_not_mem {n v j : Nat} (hj : ¬(off ≤ j ∧ j < off + n)) : fill p off n v j = p j := if_neg hj

theorem val_fill_zero (p : Nat → Nat) (off n : Nat) : val (fill p off n 0) off n = 0 :=
  val_eq_zero_iff.2 fun _ hi => fill_of_mem (by omega)

theorem val_fill_of_not_mem {n m o v : Nat} (h : o + m ≤ off ∨ off + n ≤ o) : val (fill p o m v) off n = val p off n :=
  val_congr fun _ _ => fill_of_not_mem (by omega)

theorem bytes_fill (p : Nat → Nat) (off n : Nat) {v : Nat} (hv : v < 256) : Bytes (fill p off n v) off n :=
  fun _ hi => by rw [fill_of_mem (by omega)]; exact hv

theorem Bytes.fill {n m o v : Nat} (h : Bytes p off n) (hv : v < 256) : Bytes (fill p o m v) off n := by
  intro i hi
  unfold BigEndian.fill
  split
  · exact hv
  · exact h i hi

theorem val_copy {n : Nat} (p : Nat → Nat) (off : Nat) (q : Nat → Nat) (off' : Nat) :
    val (copy p off q off' n) off n = val q off' n :=
  val_congr fun i hi => by
    dsimp only [copy]
    rw [if_pos (by omega), Nat.add_sub_cancel_left]

theorem bytes_copy {n : Nat} (p : Nat → Nat) (off : Nat) {off' : Nat} (hq : Bytes q off' n) :
    Bytes (copy p off q off' n) off n := by
  intro i hi
  dsimp only [copy]
  rw [if_pos (by omega), Nat.add_sub_cancel_left]
  exact hq i hi

theorem copy_of_not_mem {n j : Nat} {off' : Nat} (hj : ¬(off ≤ j ∧ j < off + n)) : copy p off q off' n j = p j :=
  if_neg hj

theorem Bytes.copy {n m o o' : Nat} (h : Bytes p off n) (hq : Bytes q o' m) : Bytes (copy p o q o' m) off n := by
  intro i hi
  unfold BigEndian.copy
  split
  · exact hq _ (by omega)
  · exact h i hi

/-- Zeros in the first `a` bytes leave the value of the rest. -/
theorem val_zero_head {p : Nat → Nat} {a : Nat} (n : Nat) (h : ∀ j < a, p j = 0) : val p 0 (a + n) = val p a n := by
  have hhead : val p 0 a = 0 := val_eq_zero_iff.2 fun j hj => by rw [Nat.zero_add]; exact h j hj
  rw [val_add, hhead, Nat.zero_mul, Nat.zero_add, Nat.zero_add]

/-- Zeros written over the first `off` bytes leave the value of the rest. -/
theorem val_fill_head (d : Nat → Nat) {off n : Nat} (hle : off ≤ n) :
    val (fill d 0 off 0) 0 n = val d off (n - off) ∧ (Bytes d off (n - off) → Bytes (fill d 0 off 0) 0 n) := by
  have hsplit := val_add (fill d 0 off 0) 0 off (n - off)
  rw [Nat.add_sub_cancel' hle, Nat.zero_add, val_fill_zero, Nat.zero_mul, Nat.zero_add,
    val_fill_of_not_mem (show 0 + off ≤ off ∨ off + (n - off) ≤ 0 from Or.inl (by omega))] at hsplit
  refine ⟨hsplit, fun hd j hj => ?_⟩
  rw [Nat.zero_add]
  by_cases hjo : j < off
  · rw [fill_of_mem (by omega)]
    decide
  · rw [fill_of_not_mem (by omega)]
    have := hd (j - off) (by omega)
    rwa [Nat.add_sub_cancel' (by omega)] at this

/-! ## Comparing and testing -/

/-- Two numbers written with the same low part size compare by their high parts first. -/
theorem compare_mul_add {a b x y B : Nat} (hx : x < B) (hy : y < B) :
    compare (a * B + x) (b * B + y) = (compare a b).then (compare x y) := by
  rcases Nat.lt_trichotomy a b with hab | rfl | hab
  · have : a * B + x < b * B + y := by
      have := Nat.mul_le_mul_right B (Nat.succ_le_of_lt hab)
      rw [Nat.succ_mul] at this
      omega
    rw [compare_lt_iff_lt.2 this, compare_lt_iff_lt.2 hab]
    rfl
  · rw [compare_eq_iff_eq.2 rfl, Ordering.eq_then]
    rcases Nat.lt_trichotomy x y with hxy | rfl | hxy
    · rw [compare_lt_iff_lt.2 hxy, compare_lt_iff_lt.2 (by omega)]
    · rw [compare_eq_iff_eq.2 rfl, compare_eq_iff_eq.2 rfl]
    · rw [compare_gt_iff_gt.2 hxy, compare_gt_iff_gt.2 (by omega)]
  · have : b * B + y < a * B + x := by
      have := Nat.mul_le_mul_right B (Nat.succ_le_of_lt hab)
      rw [Nat.succ_mul] at this
      omega
    rw [compare_gt_iff_gt.2 this, compare_gt_iff_gt.2 hab]
    rfl

/-- **`memcmp` compares the values** of two ranges of bytes. -/
theorem memcmp_eq_compare {n : Nat} : ∀ {i j : Nat}, Bytes p i n → Bytes q j n →
    memcmp p i q j n = compare (val p i n) (val q j n) := by
  induction n with
  | zero => intro i j _ _; rfl
  | succ n ih =>
    intro i j hp hq
    have hp' : Bytes p (i + 1) n := hp.mono (by omega)
    have hq' : Bytes q (j + 1) n := hq.mono (by omega)
    rw [val_succ_left, val_succ_left, compare_mul_add (val_lt hp') (val_lt hq'), ← ih hp' hq', memcmp]
    rcases h : compare (p i) (q j) <;> rfl

theorem memis0_iff {n : Nat} : memis0 p off n = true ↔ val p off n = 0 := by
  rw [memis0, List.all_eq_true, val_eq_zero_iff]
  simp only [List.mem_range, beq_iff_eq]

/-! ## Shifting by a few bits -/

/-- **A byte shifted left by `b < 8` bits** splits into the bits that move to the
byte before and those that stay, which leave room for `b` bits from the byte after. -/
theorem shiftByte_add {x y b : Nat} (hy : y < 256) (hb : b < 8) :
    (x >>> (8 - b)) * 256 + ((x <<< b) % 256 ||| y >>> (8 - b)) = x * 2 ^ b + y >>> (8 - b) := by
  have h256 : (256 : Nat) = 2 ^ b * 2 ^ (8 - b) := by rw [← Nat.pow_add, Nat.add_sub_cancel' hb.le]
  have hpos : 0 < 2 ^ (8 - b) := Nat.two_pow_pos _
  -- what stays in the byte is `x % 2 ^ (8 - b)` moved up by `b` bits
  have hstay : (x <<< b) % 256 = (x % 2 ^ (8 - b)) <<< b := by
    rw [Nat.shiftLeft_eq, Nat.shiftLeft_eq, h256, Nat.mul_comm x, Nat.mul_mod_mul_left, Nat.mul_comm]
  have hin : y >>> (8 - b) < 2 ^ b := by
    rw [Nat.shiftRight_eq_div_pow, Nat.div_lt_iff_lt_mul hpos, ← h256]
    exact hy
  rw [hstay, ← Nat.shiftLeft_add_eq_or_of_lt hin, Nat.shiftLeft_eq, Nat.shiftRight_eq_div_pow]
  have hsplit := Nat.div_add_mod x (2 ^ (8 - b))
  calc x / 2 ^ (8 - b) * 256 + (x % 2 ^ (8 - b) * 2 ^ b + y >>> (8 - b))
      = (2 ^ (8 - b) * (x / 2 ^ (8 - b)) + x % 2 ^ (8 - b)) * 2 ^ b + y >>> (8 - b) := by rw [h256]; ring
    _ = x * 2 ^ b + y >>> (8 - b) := by rw [hsplit]

/-- **A byte shifted right by `b ≤ 8` bits** below a number `X`: the low `b` bits of
`X` move down into it, on top of what stays of the byte. -/
theorem shiftRight_mul_add {X s b : Nat} (hs : s < 256) (hb : b ≤ 8) :
    (X * 256 + s) >>> b = (X >>> b) * 256 + (s >>> b ||| ((X % 256) <<< (8 - b)) % 256) := by
  have h256 : (256 : Nat) = 2 ^ (8 - b) * 2 ^ b := by rw [← Nat.pow_add, Nat.sub_add_cancel hb]
  have hpos : 0 < 2 ^ b := Nat.two_pow_pos _
  -- what comes down from `X` is its low `b` bits, at the top of the byte
  have hdown : ((X % 256) <<< (8 - b)) % 256 = (X % 2 ^ b) <<< (8 - b) := by
    rw [Nat.shiftLeft_eq, Nat.shiftLeft_eq, h256, Nat.mul_comm (2 ^ (8 - b)) (2 ^ b), Nat.mul_mod_mul_right,
      Nat.mod_mod_of_dvd X (Dvd.intro _ rfl)]
  have hstay : s >>> b < 2 ^ (8 - b) := by
    rw [Nat.shiftRight_eq_div_pow, Nat.div_lt_iff_lt_mul hpos, ← h256]
    exact hs
  rw [hdown, Nat.or_comm, ← Nat.shiftLeft_add_eq_or_of_lt hstay, Nat.shiftLeft_eq, Nat.shiftRight_eq_div_pow,
    Nat.shiftRight_eq_div_pow, Nat.shiftRight_eq_div_pow]
  have hsplit := Nat.div_add_mod X (2 ^ b)
  calc (X * 256 + s) / 2 ^ b
      = (s + (X / 2 ^ b * 256 + X % 2 ^ b * 2 ^ (8 - b)) * 2 ^ b) / 2 ^ b := by
        congr 1
        nth_rewrite 1 [← hsplit]
        rw [h256]
        ring
    _ = X / 2 ^ b * 256 + (X % 2 ^ b * 2 ^ (8 - b) + s / 2 ^ b) := by
        rw [Nat.add_mul_div_right _ _ hpos]
        ring

/-- A number moved up by a byte, with a byte below it, cut to `k + 1` bytes. -/
theorem mul_add_mod_pow {a c : Nat} (k : Nat) (hc : c < 256) :
    (a * 256 + c) % 256 ^ (k + 1) = a % 256 ^ k * 256 + c := by
  have hsplit := Nat.div_add_mod a (256 ^ k)
  have hmod := Nat.mod_lt a (Nat.pow_pos (by decide : 0 < 256) : 0 < 256 ^ k)
  have hlt : a % 256 ^ k * 256 + c < 256 ^ (k + 1) :=
    calc a % 256 ^ k * 256 + c < (a % 256 ^ k + 1) * 256 := by omega
      _ ≤ 256 ^ k * 256 := Nat.mul_le_mul_right _ hmod
      _ = 256 ^ (k + 1) := (Nat.pow_succ _ _).symm
  have heq : a * 256 + c = a % 256 ^ k * 256 + c + 256 ^ (k + 1) * (a / 256 ^ k) := by
    rw [Nat.pow_succ]
    nth_rewrite 1 [← hsplit]
    ring
  rw [heq, Nat.add_mul_mod_self_left, Nat.mod_eq_of_lt hlt]

/-- Bytes above the last `n` shifted right by `b ≤ 8` bits stay above them. -/
theorem shiftRight_mod_high {Q X b : Nat} (n : Nat) (hb : b ≤ 8) :
    ((Q * 256 ^ (n + 1) + X) >>> b) % 256 ^ n = (X >>> b) % 256 ^ n := by
  have hsplit : Q * 256 ^ (n + 1) = Q * 2 ^ (8 - b) * 256 ^ n * 2 ^ b := by
    rw [Nat.pow_succ, show (256 : Nat) = 2 ^ (8 - b) * 2 ^ b by rw [← Nat.pow_add, Nat.sub_add_cancel hb]]
    ring
  rw [Nat.shiftRight_eq_div_pow, Nat.shiftRight_eq_div_pow, hsplit, Nat.add_comm,
    Nat.add_mul_div_right _ _ (Nat.two_pow_pos b), Nat.add_mul_mod_self_right]

/-! ## Setting bits from the top -/

/-- **One bit from the top.**  With the bits of `M` from `k + 1` up set, adding
`2 ^ k` stays at most `M` exactly when bit `k` of `M` is set; either way the
result holds the bits of `M` from `k` up. -/
theorem div_pow_mul_step (M k : Nat) :
    (if M / 2 ^ (k + 1) * 2 ^ (k + 1) + 2 ^ k ≤ M then M / 2 ^ (k + 1) * 2 ^ (k + 1) + 2 ^ k
      else M / 2 ^ (k + 1) * 2 ^ (k + 1)) = M / 2 ^ k * 2 ^ k := by
  have hk1 : M / 2 ^ (k + 1) = M / 2 ^ k / 2 := by rw [Nat.pow_succ, Nat.div_div_eq_div_mul]
  have hq := Nat.div_add_mod (M / 2 ^ k) 2
  have hM := Nat.div_add_mod M (2 ^ k)
  have hr := Nat.mod_lt M (Nat.two_pow_pos k)
  -- the bits from `k` up are those from `k + 1` up and bit `k`
  have hsplit : M / 2 ^ k * 2 ^ k = M / 2 ^ (k + 1) * 2 ^ (k + 1) + M / 2 ^ k % 2 * 2 ^ k := by
    rw [hk1, Nat.pow_succ]
    nth_rewrite 1 [← hq]
    ring
  have hM' : M = M / 2 ^ k * 2 ^ k + M % 2 ^ k := by rw [Nat.mul_comm]; exact hM.symm
  rcases Nat.mod_two_eq_zero_or_one (M / 2 ^ k) with hbit | hbit
  · rw [hbit, Nat.zero_mul, Nat.add_zero] at hsplit
    rw [if_neg (by omega), hsplit]
  · rw [hbit, Nat.one_mul] at hsplit
    rw [if_pos (by omega), hsplit]

/-- Below `2 ^ (S + 1)`, the bits of `M` from `k + 1` up leave room for bit `k`. -/
theorem div_pow_mul_add_lt {M S k : Nat} (hM : M < 2 ^ (S + 1)) (hk : k ≤ S) :
    M / 2 ^ (k + 1) * 2 ^ (k + 1) + 2 ^ k < 2 ^ (S + 1) := by
  have hpow : 2 ^ (S + 1) = 2 ^ (S - k) * 2 ^ (k + 1) := by rw [← Nat.pow_add]; congr 1; omega
  have hle : M / 2 ^ (k + 1) * 2 ^ (k + 1) ≤ M := Nat.div_mul_le_self M _
  have hD : M / 2 ^ (k + 1) < 2 ^ (S - k) :=
    Nat.lt_of_mul_lt_mul_right (a := 2 ^ (k + 1)) (by rw [← hpow]; omega)
  have hroom := Nat.mul_le_mul_right (2 ^ (k + 1)) (Nat.succ_le_of_lt hD)
  rw [Nat.succ_mul, ← hpow] at hroom
  have h2 : 2 ^ (k + 1) = 2 * 2 ^ k := by rw [Nat.pow_succ, Nat.mul_comm]
  have := Nat.two_pow_pos k
  omega

end BigEndian
