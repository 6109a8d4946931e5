import Beam.Lib.ByteStream

/-!
# `AES::StreamCipher`: AES in counter mode

`AES::StreamCipher::XCrypt` (`src/core/aes.cpp`) xors data with the stream of blocks
`Proceed(m_Counter)`, `Proceed(m_Counter + 1)`, …, keeping the bytes of the last block it
has not used yet in the tail `m_pBuf[16 - m_nBuf ..]` between calls.  The block cipher is a
parameter `enc`, a function of the counter's value: AES itself is not modelled.

`At c c0 p` says that the cipher `c` stands at byte `p` of the key stream of the counter
`c0`.  The main result, `xcrypt_spec`, is that `XCrypt` from such a state xors its data with
that key stream from `p` on and leaves the cipher at the byte after the data; by
`ByteStream.xorAt_append`, successive calls xor a stream with one key stream however the
stream is cut into calls.
-/

namespace Beam.Aes

open ByteStream

/-- `AES::StreamCipher`: the 128-bit counter `m_Counter`, the last block of cipher stream
`m_pBuf`, and the number `m_nBuf` of its last bytes not used yet. -/
structure StreamCipher where
  counter : Nat
  buf : Vector UInt8 16
  nBuf : Nat
  deriving DecidableEq, Repr

namespace StreamCipher

variable (enc : Nat → Vector UInt8 16)

/-- `StreamCipher::PerfXor`: the data xor-ed with the next unused bytes of the block. -/
def perfXor (c : StreamCipher) (data : List UInt8) : List UInt8 × StreamCipher :=
  (List.zipWith (· ^^^ ·) data (c.buf.toList.drop (16 - c.nBuf)), { c with nBuf := c.nBuf - data.length })

/-- The head of the loop of `StreamCipher::XCrypt`: with no unused byte left, the block of the
counter is made and the counter incremented (`uintBig_t::Inc`, modulo `2 ^ 128`). -/
def refill (c : StreamCipher) : StreamCipher :=
  if c.nBuf = 0 then { counter := (c.counter + 1) % 2 ^ 128, buf := enc c.counter, nBuf := 16 } else c

theorem nBuf_refill_pos (c : StreamCipher) : 0 < (refill enc c).nBuf := by
  unfold refill
  split
  · exact Nat.succ_pos _
  · omega

/-- `StreamCipher::XCrypt`. A block is made whenever none is left, also on a call with no
data. -/
def xcrypt (c : StreamCipher) (data : List UInt8) : List UInt8 × StreamCipher :=
  let cur := refill enc c
  if data.length ≤ cur.nBuf then perfXor cur data
  else
    let r := perfXor cur (data.take cur.nBuf)
    let t := xcrypt r.2 (data.drop cur.nBuf)
    (r.1 ++ t.1, t.2)
termination_by data.length
decreasing_by
  have := nBuf_refill_pos enc c
  rw [List.length_drop]
  omega

/-! ## The key stream -/

/-- Byte `p` of the key stream of the counter `c0`: byte `p % 16` of the block of the counter
`c0 + p / 16`. -/
def keyStream (c0 p : Nat) : UInt8 := (enc ((c0 + p / 16) % 2 ^ 128)).toList.getD (p % 16) 0

/-- The cipher stands within the block of byte `p`: its last `16 - p % 16` bytes are unused
and the counter is at the next block. -/
def Ready (c : StreamCipher) (c0 p : Nat) : Prop :=
  c.nBuf = 16 - p % 16 ∧ c.counter = (c0 + p / 16 + 1) % 2 ^ 128 ∧ c.buf = enc ((c0 + p / 16) % 2 ^ 128)

/-- The cipher stands at byte `p` of the key stream of `c0`: between two blocks with the
counter at the next one, or within a block. -/
def At (c : StreamCipher) (c0 p : Nat) : Prop :=
  (c.nBuf = 0 ∧ p % 16 = 0 ∧ c.counter = (c0 + p / 16) % 2 ^ 128) ∨ Ready enc c c0 p

variable {enc}

/-- A cipher that `Reset` or `InitCipherIV` left with no unused byte stands at the start of
the key stream of its counter. -/
theorem at_start {c : StreamCipher} (hn : c.nBuf = 0) (hc : c.counter < 2 ^ 128) : At enc c c.counter 0 :=
  Or.inl ⟨hn, rfl, by rw [Nat.zero_div, Nat.add_zero, Nat.mod_eq_of_lt hc]⟩

/-- After the head of the loop the cipher is within a block. -/
theorem ready_refill {c : StreamCipher} {c0 p : Nat} (h : At enc c c0 p) : Ready enc (refill enc c) c0 p := by
  rcases h with ⟨hn, hp, hc⟩ | hr
  · simp only [refill, hn, if_true]
    refine ⟨?_, ?_, ?_⟩
    · show 16 = 16 - p % 16
      omega
    · show (c.counter + 1) % 2 ^ 128 = _
      rw [hc, Nat.mod_add_mod]
    · show enc c.counter = _
      rw [hc]
  · have hn : c.nBuf ≠ 0 := by rw [hr.1]; omega
    simp only [refill, hn, if_false]
    exact hr

/-- `PerfXor` within a block xors with the key stream and moves the cipher on. -/
theorem perfXor_spec {c : StreamCipher} {c0 p : Nat} {data : List UInt8} (h : Ready enc c c0 p)
    (hlen : data.length ≤ c.nBuf) :
    (perfXor c data).1 = xorAt (keyStream enc c0) p data ∧ At enc (perfXor c data).2 c0 (p + data.length) := by
  obtain ⟨hn, hc, hb⟩ := h
  constructor
  · have hx := xorAt_eq_zipWith (keyStream enc c0) c.buf.toList p (p % 16) data
      (fun i hi => by
        rw [keyStream, hb, show (p + i) / 16 = p / 16 by omega, show (p + i) % 16 = p % 16 + i by omega])
      (by rw [Vector.length_toList]; omega)
    rw [hx, perfXor, hn, show 16 - (16 - p % 16) = p % 16 by omega]
  · by_cases hend : data.length = c.nBuf
    · -- the block is used up: the cipher stands between blocks
      refine Or.inl ⟨by simp only [perfXor]; omega, by omega, ?_⟩
      show c.counter = _
      rw [hc, show (p + data.length) / 16 = p / 16 + 1 by omega, Nat.add_assoc]
    · refine Or.inr ⟨by simp only [perfXor]; omega, ?_, ?_⟩
      · show c.counter = _
        rw [hc, show (p + data.length) / 16 = p / 16 by omega]
      · show c.buf = _
        rw [hb, show (p + data.length) / 16 = p / 16 by omega]

/-- **`XCrypt` is the key stream.** From byte `p` of the key stream of `c0`, `XCrypt` xors its
data with the key stream from `p` on and leaves the cipher at the byte after the data. -/
theorem xcrypt_spec (c : StreamCipher) (data : List UInt8) {c0 p : Nat} (h : At enc c c0 p) :
    (xcrypt enc c data).1 = xorAt (keyStream enc c0) p data ∧
      At enc (xcrypt enc c data).2 c0 (p + data.length) := by
  induction c, data using xcrypt.induct enc generalizing p with
  | case1 c data =>
    rename_i hle
    simp +zetaDelta only at hle
    rw [xcrypt, if_pos hle]
    exact perfXor_spec (ready_refill h) hle
  | case2 c data _ hlt =>
    rename_i ih
    simp +zetaDelta only at hlt ih
    -- the rest of the block first, then the rest of the data from the next block on
    have htake : (data.take (refill enc c).nBuf).length = (refill enc c).nBuf := by
      rw [List.length_take]; omega
    obtain ⟨h1, hat⟩ := perfXor_spec (ready_refill h) (Nat.le_of_eq htake)
    obtain ⟨h2, hat'⟩ := ih hat
    rw [xcrypt, if_neg hlt]
    dsimp only
    refine ⟨?_, ?_⟩
    · rw [h1, h2, ← xorAt_append, List.take_append_drop]
    · rw [htake, List.length_drop, Nat.add_assoc, Nat.add_sub_cancel' (by omega)] at hat'
      exact hat'

end StreamCipher

end Beam.Aes
