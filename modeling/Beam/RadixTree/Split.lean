import Beam.RadixTree.Goto

/-!
# `Find`: lookup and insertion

The tree as a whole: `RadixTree.keys` is the set of keys it holds, `RadixTree.WF`
says its root is well-formed, and `OnKey t cu key` says the cursor stands on the
leaf of `key`.

* `goto_spec`: `Goto` succeeds exactly when the key is in the tree, and then its
  cursor stands on the key's leaf.
* `find_of_mem`: on a present key `Find` changes nothing, clears `bCreate` and
  returns the existing leaf.
* `find_create`: on an absent key with `bCreate = true` it inserts exactly that
  key, keeps the tree well-formed, and leaves the cursor on the new leaf.

The split itself is `wf_split`: the joint that replaces the node where `Goto`
stopped is well-formed at that node's depth, keeps its node key, and holds its
keys and the new one.
-/

namespace Beam.RadixTree

open BitString Node

variable {α H : Type} {nBits : Nat}

namespace Node

/-- Entering a node further down its own edge: the node keeps its end. -/
theorem WF.setBits_sub {d e : Nat} {n : Node α H} (h : n.WF nBits d) (hde : d ≤ e)
    (he : e ≤ d + n.getBits) : (n.setBits (n.getBits - (e - d))).WF nBits e := by
  cases n with
  | leaf b c k v =>
    obtain ⟨h1, h2⟩ := h
    simp only [getBits] at he
    simp only [setBits, getBits, WF]
    exact ⟨by omega, h2⟩
  | joint b c kp hh c0 c1 =>
    obtain ⟨hlt, h0, h1, hb0, hb1, hkp, hptr⟩ := h
    simp only [getBits] at he
    have hend : e + (b - (e - d)) = d + b := by omega
    simp only [setBits, getBits, WF, hend]
    exact ⟨hlt, h0, h1, hb0, hb1, fun k hk => (hkp k hk).mono hde (Nat.le_refl _), hptr⟩

/-- Entering a node higher up, over bits all its keys share with its node key. -/
theorem WF.setBits_add {d e : Nat} {n : Node α H} (h : n.WF nBits e) (hde : d ≤ e)
    (hag : ∀ k ∈ n.keys, Agree k n.getNodeKey d e) :
    (n.setBits (n.getBits + (e - d))).WF nBits d := by
  cases n with
  | leaf b c k v =>
    obtain ⟨h1, h2⟩ := h
    exact ⟨by simp only [getBits]; omega, h2⟩
  | joint b c kp hh c0 c1 =>
    obtain ⟨hlt, h0, h1, hb0, hb1, hkp, hptr⟩ := h
    have hend : d + (b + (e - d)) = e + b := by omega
    simp only [setBits, getBits, WF, hend]
    exact ⟨hlt, h0, h1, hb0, hb1, fun k hk => (hag k hk).append (hkp k hk), hptr⟩

end Node

section Split

variable [Inhabited H]

/-- **The split joint fits in place of the node it splits.**  `x` is entered
after `dx` bits and the key first differs from all of `x`'s keys at bit
`cu.nBits`, inside `x`'s edge. -/
theorem wf_split {x : Node α H} {dx : Nat} (hx : x.WF nBits dx) {key : Key}
    (hlen : key.length = nBits) {cu : CursorBase} (h1 : dx ≤ cu.nBits)
    (h2 : cu.nBits < dx + x.getBits) (h3 : cu.posInLastNode = cu.nBits - dx)
    (hdiff : ∀ k ∈ x.keys, Agree key k dx cu.nBits ∧ bit key cu.nBits ≠ bit k cu.nBits)
    (v0 : α) :
    (split x key nBits cu v0).WF nBits dx ∧ (split x key nBits cu v0).getNodeKey = x.getNodeKey ∧
      (split x key nBits cu v0).keys = if bit key cu.nBits then x.keys ++ [key] else key :: x.keys := by
  have hend := hx.end_le
  have hpos : dx + cu.posInLastNode = cu.nBits := by omega
  -- the old node, entered one bit below the split
  have hold : (x.setBits (x.getBits - (cu.posInLastNode + 1))).WF nBits (dx + cu.posInLastNode + 1) := by
    have := hx.setBits_sub (e := cu.nBits + 1) (by omega) (by omega)
    rwa [show cu.nBits + 1 - dx = cu.posInLastNode + 1 by omega, ← hpos] at this
  have hnew : (leaf (nBits - (cu.nBits + 1)) false key v0 : Node α H).WF nBits
      (dx + cu.posInLastNode + 1) := ⟨by omega, hlen⟩
  have hkeyag : Agree key x.getNodeKey dx (dx + cu.posInLastNode) := by
    rw [hpos]; exact (hdiff _ hx.nodeKey_mem).1
  have holdag : ∀ k ∈ x.keys, Agree k x.getNodeKey dx (dx + cu.posInLastNode) :=
    fun k hk => (hx.agree k hk).mono (Nat.le_refl _) (by omega)
  have hbit : ∀ k ∈ x.keys, bit k (dx + cu.posInLastNode) = !bit key (dx + cu.posInLastNode) := by
    intro k hk
    rw [hpos]
    exact Bool.eq_not_of_ne (Ne.symm (hdiff k hk).2)
  unfold split
  cases hiC : bit key cu.nBits
  · refine ⟨⟨by omega, hnew, hold, ?_, ?_, ?_, Or.inr (by simp)⟩, rfl, by simp⟩
    · simp only [keys_leaf, List.mem_singleton]; rintro _ rfl; rw [hpos, hiC]
    · simp only [keys_setBits]; intro k hk; rw [hbit k hk, hpos, hiC]; rfl
    · simp only [keys_leaf, keys_setBits, List.singleton_append, List.mem_cons]
      rintro k (rfl | hk)
      · exact hkeyag
      · exact holdag k hk
  · refine ⟨⟨by omega, hold, hnew, ?_, ?_, ?_, Or.inl (by simp)⟩, rfl, by simp⟩
    · simp only [keys_setBits]; intro k hk; rw [hbit k hk, hpos, hiC]; rfl
    · simp only [keys_leaf, List.mem_singleton]; rintro _ rfl; rw [hpos, hiC]
    · simp only [keys_leaf, keys_setBits, List.mem_append, List.mem_singleton]
      rintro k (hk | rfl)
      · exact holdag k hk
      · exact hkeyag

end Split

/-! ## The whole tree -/

/-- The keys the tree holds, left to right. -/
def keys (t : RadixTree α H) : List Key :=
  match t.root with
  | none => []
  | some r => r.keys

/-- The representation invariant of the whole tree. -/
def WF (nBits : Nat) (t : RadixTree α H) : Prop :=
  match t.root with
  | none => True
  | some r => r.WF nBits 0

/-- The cursor stands on the leaf of `key`. -/
def OnKey (t : RadixTree α H) (cu : CursorBase) (key : Key) : Prop :=
  ∃ r, t.root = some r ∧ Found key r cu

theorem Node.nodeAt_erase_congr {n n' : Node α H} (h : n.erase = n'.erase) (p : List Bool) :
    (n.nodeAt p).erase = (n'.nodeAt p).erase := by
  rw [erase_nodeAt, erase_nodeAt, h]

theorem goto_spec {t : RadixTree α H} (hn : 0 < nBits) (hwf : t.WF nBits) {key : Key}
    (hlen : key.length = nBits) :
    ((t.goto key nBits).1 = true ∧ t.OnKey (t.goto key nBits).2 key ∧ key ∈ t.keys) ∨
      ((t.goto key nBits).1 = false ∧ key ∉ t.keys ∧
        ∀ r, t.root = some r → Missing key r 0 (t.goto key nBits).2) := by
  cases hr : t.root with
  | none =>
    have : (nBits == 0) = false := by simpa using Nat.pos_iff_ne_zero.mp hn
    right
    simp [goto, keys, hr, this]
  | some r =>
    simp only [WF, hr] at hwf
    rcases gotoNode_spec hlen hwf (fun k _ i _ h => absurd h (Nat.not_lt_zero i)) with
      ⟨h1, h2, h3⟩ | ⟨h1, h2, h3⟩
    · left
      simp only [goto, keys, hr]
      exact ⟨h1, ⟨r, hr, h2⟩, h3⟩
    · right
      simp only [goto, keys, hr, Option.some.injEq, forall_eq']
      exact ⟨h1, h3, h2⟩

/-- `Goto` (and `Find` without creation) succeeds exactly on the keys the tree holds. -/
theorem goto_eq_true_iff {t : RadixTree α H} (hn : 0 < nBits) (hwf : t.WF nBits) {key : Key}
    (hlen : key.length = nBits) : (t.goto key nBits).1 = true ↔ key ∈ t.keys := by
  rcases goto_spec hn hwf hlen with ⟨h1, -, h3⟩ | ⟨h1, h2, -⟩
  · simp [h1, h3]
  · simp [h1, h2]

section Find

variable [Inhabited H]

/-- `Find` on a present key changes nothing, returns the key's leaf and clears `bCreate`. -/
theorem find_of_mem {t : RadixTree α H} (hn : 0 < nBits) (hwf : t.WF nBits) {key : Key}
    (hlen : key.length = nBits) (hk : key ∈ t.keys) (bCreate : Bool) (v0 : α) :
    t.find key nBits bCreate v0 = ⟨t, (t.goto key nBits).2, true, false⟩ ∧
      t.OnKey (t.goto key nBits).2 key := by
  rcases goto_spec hn hwf hlen with ⟨h1, h2, -⟩ | ⟨-, h2, -⟩
  · simp [find, h1, h2]
  · exact absurd hk h2

/-- **`Find` with creation on an absent key inserts exactly that key.**  The tree
stays well-formed, `bCreate` stays set, and the cursor stands on the new leaf. -/
theorem find_create {t : RadixTree α H} (hn : 0 < nBits) (hwf : t.WF nBits) {key : Key}
    (hlen : key.length = nBits) (hk : key ∉ t.keys) (v0 : α) :
    (t.find key nBits true v0).found = true ∧ (t.find key nBits true v0).bCreate = true ∧
      (t.find key nBits true v0).tree.WF nBits ∧
      (t.find key nBits true v0).tree.keys.Perm (key :: t.keys) ∧
      (t.find key nBits true v0).tree.OnKey (t.find key nBits true v0).cu key := by
  have hg := (goto_eq_true_iff hn hwf hlen).not.mpr hk
  simp only [Bool.not_eq_true] at hg
  cases hr : t.root with
  | none =>
    have hgo : t.goto key nBits = (false, ⟨none, 0, 0⟩) := by
      simp [goto, hr, Nat.pos_iff_ne_zero.mp hn]
    simp only [find, hgo, hr, Bool.false_eq_true, ↓reduceIte, Bool.not_true]
    refine ⟨trivial, trivial, ⟨by omega, hlen⟩, by simp [keys, hr], ⟨_, rfl, [], rfl, trivial, _, _, _, rfl⟩⟩
  | some r =>
    rcases goto_spec hn hwf hlen with ⟨h1, -, -⟩ | ⟨-, -, hmiss⟩
    · rw [h1] at hg; exact Bool.noConfusion hg
    obtain ⟨p, hpp, hv, h1, h2, h3, h4⟩ := hmiss r hr
    simp only [WF, hr] at hwf
    -- `InvalidateElement` leaves the erased tree as it was
    set r1 := (r.upward clearClean p).1 with hr1
    have herase : r1.erase = r.erase := erase_upward_clearClean r p
    have hwf1 : r1.WF nBits 0 := (wf_erase r1).mp (herase ▸ (wf_erase r).mpr hwf)
    have hv1 : r1.ValidPath p := (validPath_erase r1 p).mp (herase ▸ (validPath_erase r p).mpr hv)
    have hx := nodeAt_erase_congr herase p
    have hdepth : r1.depthAt 0 p = r.depthAt 0 p := by
      rw [← depthAt_erase r1, herase, depthAt_erase]
    have hxkeys : (r1.nodeAt p).keys = (r.nodeAt p).keys := by
      rw [← keys_erase, hx, keys_erase]
    have hxbits : (r1.nodeAt p).getBits = (r.nodeAt p).getBits := by
      rw [← getBits_erase, hx, getBits_erase]
    have hkeys1 : r1.keys = r.keys := by rw [← keys_erase, herase, keys_erase]
    obtain ⟨hs1, hs2, hs3⟩ := wf_split (hwf1.nodeAt hv1) hlen (by rw [hdepth]; exact h1)
      (by rw [hdepth, hxbits]; exact h2) (by rw [hdepth]; exact h3)
      (fun k hk => by
        rw [hxkeys] at hk
        exact ⟨(h4 k hk).1.mono (Nat.zero_le _) (Nat.le_refl _), (h4 k hk).2⟩) v0
    have hagree : ∀ k ∈ (split (r1.nodeAt p) key nBits (t.goto key nBits).2 v0).keys,
        Agree k (r1.nodeAt p).getNodeKey 0 (r1.depthAt 0 p) := by
      have hxk := (hwf1.nodeAt hv1).nodeKey_mem
      rw [hs3]
      intro k hk
      have hk' : k = key ∨ k ∈ (r1.nodeAt p).keys := by
        split at hk <;> simp at hk <;> tauto
      rcases hk' with rfl | hk'
      · rw [hxkeys] at hxk
        exact (h4 _ hxk).1.mono (Nat.le_refl _) (by rw [hdepth]; exact h1)
      · exact hwf1.agree_nodeAt hv1 k hk' _ hxk
    obtain ⟨hwf2, -⟩ := hwf1.replaceAt hv1 hs1 hs2 hagree
    obtain ⟨pre, post, hk1, hk2⟩ := keys_replaceAt hv1 (split (r1.nodeAt p) key nBits (t.goto key nBits).2 v0)
    simp only [find, hg, hr, hpp, Bool.false_eq_true, ↓reduceIte, Bool.not_true]
    refine ⟨trivial, trivial, hwf2, ?_, ?_⟩
    · simp only [keys, hr]
      rw [hk2, hs3, ← hkeys1, hk1]
      split
      · simpa using @List.perm_middle _ key (pre ++ (r1.nodeAt p).keys) post
      · simp
    · refine ⟨_, rfl, p ++ [bit key (t.goto key nBits).2.nBits], rfl,
        (validPath_replaceAt hv1 _ _).mpr ?_, ?_⟩
      · unfold split; split <;> simp [ValidPath]
      · rw [nodeAt_replaceAt hv1]
        unfold split
        split <;> simp_all

/-- `Find` with creation of an absent key keeps the tree well-formed. -/
theorem WF.find_absent {t : RadixTree α H} (hwf : t.WF nBits) (hn : 0 < nBits) {key : Key}
    (hlen : key.length = nBits) (hk : key ∉ t.keys) (v0 : α) : (t.find key nBits true v0).tree.WF nBits :=
  (find_create hn hwf hlen hk v0).2.2.1

end Find

end Beam.RadixTree
