import Beam.RadixTree.Hash

/-!
# The hash depends on the contents only

A well-formed tree has one shape for a given set of keys: a joint entered after
`d` bits compresses exactly the bits all its keys share and branches on the
first bit where they part, so its bit count and the keys of each child are fixed
by the keys below it.  The key pointers may differ between two trees with the
same keys, but `hashOf` does not read them.  So two well-formed trees whose
leaves give the same (key, leaf hash) pairs, in any order, stand for the same
hash (`hashOf_eq_of_perm`).
-/

namespace Beam.RadixTree

open BitString

namespace Node

variable {α H : Type} {nBits : Nat}

/-- The leaves below a node, left to right, as key and payload. -/
def entries : Node α H → List (Key × α)
  | leaf _ _ k v => [(k, v)]
  | joint _ _ _ _ c0 c1 => entries c0 ++ entries c1

/-- Each leaf's key with the hash `get_LeafHash` gives it. -/
def leafHashes {H' : Type} (lh : Key → α → H') (n : Node α H) : List (Key × H') :=
  n.entries.map fun e => (e.1, lh e.1 e.2)

@[simp] theorem leafHashes_leaf {H' : Type} (lh : Key → α → H') (b : Nat) (c : Bool) (k : Key) (v : α) :
    (leaf b c k v : Node α H).leafHashes lh = [(k, lh k v)] := rfl

@[simp] theorem leafHashes_joint {H' : Type} (lh : Key → α → H') (b : Nat) (c : Bool) (kp : Key) (h : H)
    (c0 c1 : Node α H) :
    (joint b c kp h c0 c1).leafHashes lh = c0.leafHashes lh ++ c1.leafHashes lh := by
  simp [leafHashes, entries]

theorem map_fst_leafHashes {H' : Type} (lh : Key → α → H') (n : Node α H) :
    (n.leafHashes lh).map Prod.fst = n.keys := by
  induction n with
  | leaf => rfl
  | joint b c kp h c0 c1 ih0 ih1 => simp [ih0, ih1]

theorem keys_ne_nil (n : Node α H) : n.keys ≠ [] := by
  cases n <;> simp [keys_ne_nil]

theorem two_le_length_keys {b : Nat} {c : Bool} {kp : Key} {h : H} {c0 c1 : Node α H} :
    2 ≤ (joint b c kp h c0 c1).keys.length := by
  have h0 := List.length_pos_of_ne_nil (keys_ne_nil c0)
  have h1 := List.length_pos_of_ne_nil (keys_ne_nil c1)
  simp only [keys_joint, List.length_append]
  omega

/-- The children of a well-formed joint are the leaves on either side of its
branch bit. -/
theorem WF.filter_leafHashes {H' : Type} (lh : Key → α → H') {d b : Nat} {c : Bool} {kp : Key}
    {h : H} {c0 c1 : Node α H} (hw : (joint b c kp h c0 c1).WF nBits d) (side : Bool) :
    ((joint b c kp h c0 c1).leafHashes lh).filter (fun e => bit e.1 (d + b) = side) =
      if side then c1.leafHashes lh else c0.leafHashes lh := by
  obtain ⟨-, -, -, hb0, hb1, -⟩ := hw
  have h0 : ∀ e ∈ c0.leafHashes lh, bit e.1 (d + b) = false := fun e he =>
    hb0 e.1 (map_fst_leafHashes lh c0 ▸ List.mem_map_of_mem he)
  have h1 : ∀ e ∈ c1.leafHashes lh, bit e.1 (d + b) = true := fun e he =>
    hb1 e.1 (map_fst_leafHashes lh c1 ▸ List.mem_map_of_mem he)
  rw [leafHashes_joint, List.filter_append]
  cases side
  · rw [List.filter_eq_self.mpr (fun e he => by simp [h0 e he]),
      List.filter_eq_nil_iff.mpr (fun e he => by simp [h1 e he])]
    simp
  · rw [List.filter_eq_nil_iff.mpr (fun e he => by simp [h0 e he]),
      List.filter_eq_self.mpr (fun e he => by simp [h1 e he])]
    simp

/-- Of two well-formed joints at the same depth, the one whose keys are among
the other's compresses at least as many bits: it cannot branch inside the other's
compressed bits, where all the other's keys agree. -/
theorem WF.bits_le {b b' : Nat} {c c' : Bool} {kp kp' : Key} {h h' : H} {c0 c1 c0' c1' : Node α H}
    {d : Nat} (hw : (joint b c kp h c0 c1).WF nBits d) (hw' : (joint b' c' kp' h' c0' c1').WF nBits d)
    (hsub : ∀ k ∈ c0'.keys ++ c1'.keys, k ∈ c0.keys ++ c1.keys) : b ≤ b' := by
  by_contra hlt
  obtain ⟨-, -, -, -, -, hkp, -⟩ := hw
  obtain ⟨-, -, -, hb0', hb1', -⟩ := hw'
  obtain ⟨k0, hk0⟩ := List.exists_mem_of_ne_nil _ (keys_ne_nil c0')
  obtain ⟨k1, hk1⟩ := List.exists_mem_of_ne_nil _ (keys_ne_nil c1')
  -- both keys agree with `kp` on the bits `[d, d + b)`, which hold the branch bit `d + b'`
  have hag := (hkp k0 (hsub k0 (by simp [hk0]))).trans (hkp k1 (hsub k1 (by simp [hk1]))).symm
  have := hag (d + b') (by omega) (by omega)
  rw [hb0' k0 hk0, hb1' k1 hk1] at this
  exact Bool.noConfusion this

/-- **The hash of a well-formed tree is a function of its leaves.**  Two
well-formed nodes at the same depth whose leaves give the same (key, leaf hash)
pairs stand for the same hash, whatever their caches and key pointers. -/
theorem hashOf_eq_of_perm (hJ : H → H → H) (lh : Key → α → H) :
    ∀ {n n' : Node α H} {d : Nat}, n.WF nBits d → n'.WF nBits d →
      (n.leafHashes lh).Perm (n'.leafHashes lh) → n.hashOf hJ lh = n'.hashOf hJ lh := by
  intro n
  induction n with
  | leaf b c k v =>
    intro n' d _ _ hp
    cases n' with
    | leaf b' c' k' v' =>
      have := List.singleton_perm_singleton.mp hp
      simp only [Prod.mk.injEq] at this
      simp [hashOf, this.2]
    | joint =>
      have := (hp.map Prod.fst).length_eq
      simp only [map_fst_leafHashes, keys_leaf, List.length_singleton] at this
      exact absurd this.symm (Nat.ne_of_gt two_le_length_keys)
  | joint b c kp h c0 c1 ih0 ih1 =>
    intro n' d hw hw' hp
    cases n' with
    | leaf =>
      have := (hp.map Prod.fst).length_eq
      simp only [map_fst_leafHashes, keys_leaf, List.length_singleton] at this
      exact absurd this (Nat.ne_of_gt two_le_length_keys)
    | joint b' c' kp' h' c0' c1' =>
      -- the same keys on both sides, so the same bit count and the same split
      have hkeys := hp.map Prod.fst
      simp only [map_fst_leafHashes, keys_joint] at hkeys
      have hbb : b = b' := Nat.le_antisymm
        (WF.bits_le hw hw' fun k hk => hkeys.symm.mem_iff.mp hk)
        (WF.bits_le hw' hw fun k hk => hkeys.mem_iff.mp hk)
      subst hbb
      have hside : ∀ side : Bool, (if side then c1.leafHashes lh else c0.leafHashes lh).Perm
          (if side then c1'.leafHashes lh else c0'.leafHashes lh) := by
        intro side
        have := hp.filter (fun e => bit e.1 (d + b) = side)
        rwa [WF.filter_leafHashes lh hw, WF.filter_leafHashes lh hw'] at this
      simp only [hashOf]
      rw [ih0 hw.2.1 hw'.2.1 (by simpa using hside false), ih1 hw.2.2.1 hw'.2.2.1 (by simpa using hside true)]

end Node

end Beam.RadixTree
