import Mathlib.Algebra.Order.Ring.Nat
import Mathlib.Data.List.Basic

/-!
# Byte streams

A key stream is a function from positions to bytes, and `xorAt ks pos data` is `data`
with each byte xor-ed with the key stream from `pos` on: what a stream cipher does to
the bytes at `pos`.  It splits at any point (`xorAt_append`) and undoes itself
(`xorAt_xorAt`), so a stream encrypted in one set of pieces decrypts in any other.

`overwrite dst off src` is a `memcpy` into a buffer seen through `dst`.

`feedChunks f s cs` gives the chunks `cs` to a consumer `f` one after another,
stopping at the first that fails.  A consumer `Splits` when reading a concatenation is
reading its parts in turn; for such a consumer the chunks do not matter
(`feedChunks_flatten`).  A consumer that does what another does on related states does so
over any chunks (`feedChunks_sim`).
-/

namespace ByteStream

variable {α β σ : Type*}

/-! ## Xor with a key stream -/

/-- `data` xor-ed with the key stream `ks` from position `pos` on. -/
def xorAt (ks : Nat → UInt8) : Nat → List UInt8 → List UInt8
  | _, [] => []
  | pos, b :: bs => (b ^^^ ks pos) :: xorAt ks (pos + 1) bs

section Xor

variable (ks : Nat → UInt8)

@[simp] theorem xorAt_nil (pos : Nat) : xorAt ks pos [] = [] := rfl

@[simp] theorem length_xorAt : ∀ (pos : Nat) (data : List UInt8), (xorAt ks pos data).length = data.length
  | _, [] => rfl
  | pos, _ :: bs => by rw [xorAt, List.length_cons, length_xorAt (pos + 1) bs, List.length_cons]

/-- **Xor splits** at any point of the data. -/
theorem xorAt_append : ∀ (pos : Nat) (a b : List UInt8), xorAt ks pos (a ++ b) = xorAt ks pos a ++ xorAt ks (pos + a.length) b
  | _, [], _ => rfl
  | pos, x :: a, b => by
    rw [List.cons_append, xorAt, xorAt, xorAt_append (pos + 1) a b, List.cons_append, List.length_cons,
      Nat.add_assoc, Nat.add_comm 1]

/-- **Xor undoes itself.** -/
theorem xorAt_xorAt : ∀ (pos : Nat) (data : List UInt8), xorAt ks pos (xorAt ks pos data) = data
  | _, [] => rfl
  | pos, b :: bs => by rw [xorAt, xorAt, UInt8.xor_assoc, UInt8.xor_self, UInt8.xor_zero, xorAt_xorAt (pos + 1) bs]

theorem take_xorAt : ∀ (pos n : Nat) (data : List UInt8), (xorAt ks pos data).take n = xorAt ks pos (data.take n)
  | _, 0, _ => rfl
  | _, _ + 1, [] => rfl
  | pos, n + 1, b :: bs => by rw [xorAt, List.take_succ_cons, List.take_succ_cons, xorAt, take_xorAt (pos + 1) n bs]

theorem drop_xorAt : ∀ (pos n : Nat) (data : List UInt8), (xorAt ks pos data).drop n = xorAt ks (pos + n) (data.drop n)
  | _, 0, _ => rfl
  | _, _ + 1, [] => rfl
  | pos, n + 1, b :: bs => by
    rw [xorAt, List.drop_succ_cons, List.drop_succ_cons, drop_xorAt (pos + 1) n bs, Nat.add_assoc, Nat.add_comm 1]

/-- Xor with a key stream that reads a block from an offset is a `zipWith` with the
rest of the block. -/
theorem xorAt_eq_zipWith (blk : List UInt8) : ∀ (p k : Nat) (data : List UInt8),
    (∀ i < data.length, ks (p + i) = blk.getD (k + i) 0) → k + data.length ≤ blk.length →
    xorAt ks p data = List.zipWith (· ^^^ ·) data (blk.drop k)
  | _, _, [], _, _ => by rw [xorAt_nil, List.zipWith_nil_left]
  | p, k, b :: bs, hks, hlen => by
    have hk : k < blk.length := by rw [List.length_cons] at hlen; omega
    have hhead : ks p = blk[k] := by
      have := hks 0 (Nat.succ_pos _)
      rwa [Nat.add_zero, Nat.add_zero, List.getD_eq_getElem?_getD, List.getElem?_eq_getElem hk,
        Option.getD_some] at this
    have hrest := xorAt_eq_zipWith blk (p + 1) (k + 1) bs
      (fun i hi => by
        have := hks (i + 1) (by rw [List.length_cons]; omega)
        rwa [← Nat.add_assoc, ← Nat.add_assoc, Nat.add_right_comm p, Nat.add_right_comm k] at this)
      (by rw [List.length_cons] at hlen; omega)
    rw [xorAt, List.drop_eq_getElem_cons hk, List.zipWith_cons_cons, hhead, hrest]

end Xor

/-! ## Copying into a buffer -/

/-- `memcpy(dst + off, src, n)` as seen through the buffer `dst`: the bytes of `src` from
`off` on, those past the end of `dst` not showing in it. -/
def overwrite (dst : List α) (off : Nat) (src : List α) : List α :=
  dst.take off ++ src.take (dst.length - off) ++ dst.drop (off + src.length)

section Overwrite

variable {dst src : List α} {off : Nat}

theorem length_overwrite (h : off ≤ dst.length) : (overwrite dst off src).length = dst.length := by
  simp only [overwrite, List.length_append, List.length_take, List.length_drop]
  omega

theorem overwrite_of_le (h : off + src.length ≤ dst.length) :
    overwrite dst off src = dst.take off ++ src ++ dst.drop (off + src.length) := by
  rw [overwrite, List.take_of_length_le (l := src) (by omega)]

/-- A copy that reaches the end of the buffer replaces its tail. -/
theorem overwrite_of_eq (h : off + src.length = dst.length) : overwrite dst off src = dst.take off ++ src := by
  rw [overwrite_of_le (Nat.le_of_eq h), List.drop_eq_nil_of_le (by omega), List.append_nil]

/-- A copy to the front of as many bytes as `a` has replaces `a`. -/
theorem overwrite_zero_append {a b : List α} (h : src.length = a.length) :
    overwrite (a ++ b) 0 src = src ++ b := by
  rw [overwrite_of_le (by rw [List.length_append]; omega), List.take_zero, List.nil_append, Nat.zero_add, h,
    List.drop_left]

end Overwrite

/-! ## Feeding a stream in chunks -/

/-- The chunks given to `f` one after another from `s`, with what each call produced
appended; `none` from the first call that fails. -/
def feedChunks (f : σ → List α → Option (σ × List β)) : σ → List (List α) → Option (σ × List β)
  | s, [] => some (s, [])
  | s, c :: cs => (f s c).bind fun r => (feedChunks f r.1 cs).map fun r' => (r'.1, r.2 ++ r'.2)

/-- `f` reads nothing without a change, and a concatenation as its parts in turn. -/
structure Splits (f : σ → List α → Option (σ × List β)) : Prop where
  nil : ∀ s, f s [] = some (s, [])
  append : ∀ s a b, f s (a ++ b) = (f s a).bind fun r => (f r.1 b).map fun r' => (r'.1, r.2 ++ r'.2)

/-- **Chunks do not matter** to a consumer that splits. -/
theorem feedChunks_flatten {f : σ → List α → Option (σ × List β)} (hf : Splits f) :
    ∀ (s : σ) (cs : List (List α)), feedChunks f s cs = f s cs.flatten
  | s, [] => (hf.nil s).symm
  | s, c :: cs => by
    rw [feedChunks, List.flatten_cons, hf.append]
    congr 1
    funext r
    rw [feedChunks_flatten hf r.1 cs]

/-- A consumer that does whatever another does on related states, with the same output, does
so over any chunks. -/
theorem feedChunks_sim {τ : Type*} {f : σ → List α → Option (σ × List β)} {g : τ → List α → Option (τ × List β)}
    (R : σ → τ → Prop)
    (hfg : ∀ s t a t' out, R s t → g t a = some (t', out) → ∃ s', f s a = some (s', out) ∧ R s' t') :
    ∀ (cs : List (List α)) (s : σ) (t t' : τ) (out : List β), R s t → feedChunks g t cs = some (t', out) →
      ∃ s', feedChunks f s cs = some (s', out) ∧ R s' t'
  | [], s, t, t', out, hR, h => by
    rw [feedChunks, Option.some.injEq, Prod.mk.injEq] at h
    obtain ⟨rfl, rfl⟩ := h
    exact ⟨s, rfl, hR⟩
  | c :: cs, s, t, t', out, hR, h => by
    rw [feedChunks, Option.bind_eq_some_iff] at h
    obtain ⟨⟨t1, o1⟩, hg, hrest⟩ := h
    rw [Option.map_eq_some_iff] at hrest
    obtain ⟨⟨t2, o2⟩, hg', heq⟩ := hrest
    cases heq
    obtain ⟨s1, hf, hR1⟩ := hfg s t c t1 o1 hR hg
    obtain ⟨s2, hf', hR2⟩ := feedChunks_sim R hfg cs s1 t1 t2 o2 hR1 hg'
    exact ⟨s2, by rw [feedChunks, hf, Option.bind_some, hf', Option.map_some], hR2⟩

end ByteStream
