import Beam.RadixTree.Shape

/-!
# What `Goto` finds

On a well-formed subtree `n` entered after `d` bits, with a key of `nBits` bits
that agrees with every key of `n` on the first `d` bits, `gotoNode` either

* finds the key (`Found`): its cursor path ends at the leaf that holds it; or
* stops where the key leaves the tree (`Missing`): its cursor path ends at a
  node `x`, and `m_nBits` is the first bit of `x`'s edge at which the key
  differs from every key below `x` (it agrees with all of them before it).

`gotoNode_spec` says which, according to whether the key is among `keys n`.
`Find` splits `x` at that bit, so `Missing` is exactly what its proof needs.
-/

namespace Beam.RadixTree

open BitString Node

variable {α H : Type} {nBits : Nat}

/-- The cursor ends at the leaf holding `key`. -/
def Found (key : Key) (n : Node α H) (cu : CursorBase) : Prop :=
  ∃ p, cu.pp = some p ∧ n.ValidPath p ∧ ∃ b c v, n.nodeAt p = leaf b c key v

/-- The cursor ends at the node `x` where `key` leaves the subtree entered after
`d` bits, and `m_nBits` is the first bit of `x`'s edge at which it differs. -/
def Missing (key : Key) (n : Node α H) (d : Nat) (cu : CursorBase) : Prop :=
  ∃ p, cu.pp = some p ∧ n.ValidPath p ∧
    n.depthAt d p ≤ cu.nBits ∧ cu.nBits < n.depthAt d p + (n.nodeAt p).getBits ∧
    cu.posInLastNode = cu.nBits - n.depthAt d p ∧
    ∀ k ∈ (n.nodeAt p).keys, Agree key k 0 cu.nBits ∧ bit key cu.nBits ≠ bit k cu.nBits

theorem found_push {key : Key} {b : Nat} {c : Bool} {kp : Key} {h : H} {c0 c1 : Node α H}
    (dd : Bool) {r : Bool × CursorBase} (hr : Found key (if dd then c1 else c0) r.2) :
    Found key (joint b c kp h c0 c1) (CursorBase.push dd r).2 := by
  obtain ⟨p, hp, hv, b', c', v', hl⟩ := hr
  cases dd
  · exact ⟨false :: p, by simp [CursorBase.push, hp], by simpa [ValidPath] using hv, b', c', v',
      by simpa using hl⟩
  · exact ⟨true :: p, by simp [CursorBase.push, hp], by simpa [ValidPath] using hv, b', c', v',
      by simpa using hl⟩

theorem missing_push {key : Key} {b : Nat} {c : Bool} {kp : Key} {h : H} {c0 c1 : Node α H}
    {d : Nat} (dd : Bool) {r : Bool × CursorBase}
    (hr : Missing key (if dd then c1 else c0) (d + b + 1) r.2) :
    Missing key (joint b c kp h c0 c1) d (CursorBase.push dd r).2 := by
  obtain ⟨p, hp, hv, h1, h2, h3, h4⟩ := hr
  refine ⟨dd :: p, by simp [CursorBase.push, hp], ?_⟩
  cases dd <;> exact ⟨hv, h1, h2, h3, h4⟩

/-- **`Goto` from a node.**  It succeeds exactly when the key is below the node,
with the cursor on its leaf, and otherwise stops where the key leaves the tree. -/
theorem gotoNode_spec {key : Key} (hlen : key.length = nBits) :
    ∀ {n : Node α H} {d : Nat}, n.WF nBits d → (∀ k ∈ n.keys, Agree key k 0 d) →
      ((gotoNode key nBits n d).1 = true ∧ Found key n (gotoNode key nBits n d).2 ∧
          key ∈ n.keys) ∨
        ((gotoNode key nBits n d).1 = false ∧ Missing key n d (gotoNode key nBits n d).2 ∧
          key ∉ n.keys) := by
  intro n
  induction n with
  | leaf b c k v =>
    intro d hwf hpre
    obtain ⟨hend, hklen⟩ := hwf
    have hthr : min (d + b) nBits = nBits := by omega
    have hpk : Agree key k 0 d := hpre k (by simp)
    simp only [gotoNode, stopAt, getBits, getNodeKey, hthr]
    cases hm : firstMismatch key k d (nBits - d) with
    | some m =>
      obtain ⟨h1, h2, h3, h4⟩ := firstMismatch_eq_some_iff.mp hm
      refine Or.inr ⟨rfl, ⟨[], rfl, trivial, by simpa using h1, by simp [getBits]; omega, rfl, ?_⟩, ?_⟩
      · simp only [nodeAt_nil, keys_leaf, List.mem_singleton]
        rintro _ rfl
        exact ⟨hpk.append h3, h4⟩
      · simp only [keys_leaf, List.mem_singleton]
        rintro rfl
        exact h4 rfl
    | none =>
      have hag := firstMismatch_eq_none_iff.mp hm
      have hkey : key = k :=
        eq_of_agree hlen hklen (hpk.append (hag.mono (Nat.le_refl _) (by omega)))
      subst hkey
      exact Or.inl ⟨rfl, ⟨[], rfl, trivial, b, c, v, rfl⟩, by simp⟩
  | joint b c kp hh c0 c1 ih0 ih1 =>
    intro d hwf hpre
    obtain ⟨hlt, h0, h1, hb0, hb1, hkp, -⟩ := hwf
    have hthr : min (d + b) nBits = d + b := by omega
    simp only [gotoNode, stopAt, getBits, getNodeKey, hthr, Nat.add_sub_cancel_left]
    cases hm : firstMismatch key kp d b with
    | some m =>
      obtain ⟨h1m, h2m, h3m, h4m⟩ := firstMismatch_eq_some_iff.mp hm
      have hdiff : ∀ k ∈ c0.keys ++ c1.keys, Agree key k 0 m ∧ bit key m ≠ bit k m := by
        intro k hk
        have hk' := hkp k hk
        refine ⟨(hpre k hk).append (h3m.trans (hk'.mono (Nat.le_refl _) (by omega)).symm), ?_⟩
        rw [hk' m h1m (by omega)]
        exact h4m
      refine Or.inr ⟨rfl, ⟨[], rfl, trivial, by simpa using h1m, by simp [getBits]; omega, rfl, hdiff⟩, ?_⟩
      intro hmem
      exact (hdiff key hmem).2 rfl
    | none =>
      have hag := firstMismatch_eq_none_iff.mp hm
      have hne : d + b ≠ nBits := by omega
      simp only [hne, ↓reduceIte]
      -- the descent: the key now agrees with the chosen child's keys one bit further
      have hchild : ∀ k ∈ c0.keys ++ c1.keys, bit k (d + b) = bit key (d + b) →
          Agree key k 0 (d + b + 1) := by
        intro k hk hbit
        exact ((hpre k hk).append (hag.trans (hkp k hk).symm)).succ hbit.symm
      cases hbk : bit key (d + b)
      · have hpre0 : ∀ k ∈ c0.keys, Agree key k 0 (d + b + 1) :=
          fun k hk => hchild k (by simp [hk]) (by rw [hb0 k hk, hbk])
        have hnot1 : key ∉ c1.keys := fun hk => by rw [hb1 key hk] at hbk; exact Bool.noConfusion hbk
        rcases ih0 h0 hpre0 with ⟨hr, hf, hk⟩ | ⟨hr, hm', hk⟩
        · exact Or.inl ⟨hr, found_push false hf, by simp [hk]⟩
        · exact Or.inr ⟨hr, missing_push false hm', by simp [hk, hnot1]⟩
      · have hpre1 : ∀ k ∈ c1.keys, Agree key k 0 (d + b + 1) :=
          fun k hk => hchild k (by simp [hk]) (by rw [hb1 k hk, hbk])
        have hnot0 : key ∉ c0.keys := fun hk => by rw [hb0 key hk] at hbk; exact Bool.noConfusion hbk
        rcases ih1 h1 hpre1 with ⟨hr, hf, hk⟩ | ⟨hr, hm', hk⟩
        · exact Or.inl ⟨hr, found_push true hf, by simp [hk]⟩
        · exact Or.inr ⟨hr, missing_push true hm', by simp [hk, hnot0]⟩

end Beam.RadixTree
