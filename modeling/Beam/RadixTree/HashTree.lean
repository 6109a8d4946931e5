import Beam.RadixTree.FiniteSet
import Beam.RadixTree.Canonical

/-!
# The hash cache of the whole tree under every operation

Each operation that changes a `RadixHashTree` keeps its cache sound, so that
`get_Hash` returns the hash the tree stands for:

* `Find` invalidates the path to the node it splits, and the new joint and leaf
  are dirty (`cacheOK_find`);
* `Delete` invalidates the path to the leaf, and the sibling it hoists keeps its
  own sound cache (`cacheOK_delete`);
* a leaf changed through the pointer the cursor gives, followed by
  `InvalidateElement` on that cursor, as `UtxoTree::PushID`/`PopID` are used
  (`cacheOK_updateLeaf_invalidate`);
* `get_Hash` itself (`cacheOK_getHash`).

With the cache sound, the root hash of a well-formed tree depends on its
(key, leaf hash) pairs only (`getHash_eq_of_perm`), and it is `Zero` exactly
for the empty tree when no hash comes out as `Zero` (`getHash_eq_zero_iff`).
-/

namespace Beam.RadixTree

open BitString Node

variable {α H : Type} {nBits : Nat} {hJ : H → H → H} {lh : Key → α → H}

/-- The payload write through a leaf pointer; joints are left alone. -/
def Node.mapLeaf (f : α → α) : Node α H → Node α H
  | leaf b c k v => leaf b c k (f v)
  | joint b c kp h c0 c1 => joint b c kp h c0 c1

/-- A write through the leaf pointer at the end of the cursor, as
`Find` returns it or `CursorBase::get_Leaf` gives it. -/
def updateLeaf (t : RadixTree α H) (cu : CursorBase) (f : α → α) : RadixTree α H :=
  match t.root, cu.pp with
  | some r, some p => ⟨some (r.replaceAt p ((r.nodeAt p).mapLeaf f))⟩
  | _, _ => t

/-- The (key, leaf hash) pairs of the tree. -/
def leafHashes {H' : Type} (lh : Key → α → H') (t : RadixTree α H) : List (Key × H') :=
  match t.root with
  | none => []
  | some r => r.leafHashes lh

@[simp] theorem Node.isClean_mapLeaf (f : α → α) (n : Node α H) : (n.mapLeaf f).isClean = n.isClean := by
  cases n <;> rfl

@[simp] theorem Node.getNodeKey_mapLeaf (f : α → α) (n : Node α H) :
    (n.mapLeaf f).getNodeKey = n.getNodeKey := by
  cases n <;> rfl

@[simp] theorem Node.keys_mapLeaf (f : α → α) (n : Node α H) : (n.mapLeaf f).keys = n.keys := by
  cases n <;> rfl

theorem Node.WF.mapLeaf {d : Nat} {n : Node α H} (h : n.WF nBits d) (f : α → α) :
    (n.mapLeaf f).WF nBits d := by
  cases n with
  | leaf => exact h
  | joint => exact h

theorem Node.CacheOK.mapLeaf {n : Node α H} (h : n.CacheOK hJ lh) (f : α → α) :
    (n.mapLeaf f).CacheOK hJ lh := by
  cases n with
  | leaf => trivial
  | joint => exact h

/-! ## The shape is kept -/

theorem WF.invalidateElement {t : RadixTree α H} (h : t.WF nBits) (cu : CursorBase) :
    (t.invalidateElement cu).WF nBits := by
  unfold RadixTree.invalidateElement
  split
  · next r p hr _ =>
    simp only [WF, hr] at h ⊢
    rw [← wf_erase, erase_upward_clearClean, wf_erase]
    exact h
  · exact h

theorem WF.updateLeaf {t : RadixTree α H} (h : t.WF nBits) {cu : CursorBase} {key : Key}
    (hon : t.OnKey cu key) (f : α → α) : (t.updateLeaf cu f).WF nBits := by
  obtain ⟨r, hr, p, hpp, hv, -⟩ := hon
  simp only [WF, hr] at h
  simp only [RadixTree.updateLeaf, hr, hpp, WF]
  have hx := h.nodeAt hv
  exact (h.replaceAt hv (hx.mapLeaf f) (getNodeKey_mapLeaf f _)
    (fun k hk => h.agree_nodeAt hv k (by simpa using hk) _ hx.nodeKey_mem)).1

theorem WF.getHash {t : RadixTree α H} (h : t.WF nBits) (hc : t.CacheOK hJ lh) (zero : H) :
    (t.getHash hJ lh zero).2.WF nBits := by
  unfold RadixTree.getHash
  split
  · exact h
  · next r hr =>
    simp only [WF, hr, RadixTree.CacheOK] at h hc ⊢
    rw [← wf_erase, (getHash_spec hc).2.2.2, wf_erase]
    exact h

/-! ## The cache is kept sound -/

theorem cacheOK_invalidateElement {t : RadixTree α H} (hc : t.CacheOK hJ lh) {cu : CursorBase}
    {key : Key} (hon : t.OnKey cu key) : (t.invalidateElement cu).CacheOK hJ lh := by
  obtain ⟨r, hr, p, hpp, hv, -⟩ := hon
  simp only [RadixTree.CacheOK, hr] at hc
  simp only [invalidateElement, hr, hpp, RadixTree.CacheOK]
  exact (invalidate_spec hc hv).1

/-- **A leaf written through the cursor, then `InvalidateElement`**: the write
keeps the leaf's `s_Clean`, so the walk clears every clean ancestor. -/
theorem cacheOK_updateLeaf_invalidate {t : RadixTree α H} (hc : t.CacheOK hJ lh) {cu : CursorBase}
    {key : Key} (hon : t.OnKey cu key) (f : α → α) :
    ((t.updateLeaf cu f).invalidateElement cu).CacheOK hJ lh := by
  obtain ⟨r, hr, p, hpp, hv, -⟩ := hon
  simp only [RadixTree.CacheOK, hr] at hc
  simp only [updateLeaf, invalidateElement, hr, hpp, RadixTree.CacheOK]
  exact (invalidate_replaceAt ((hc.nodeAt p).mapLeaf f) hc hv (isClean_mapLeaf f _)).1

theorem cacheOK_split [Inhabited H] {old : Node α H} (h : old.CacheOK hJ lh) (key : Key) (cu : CursorBase)
    (v0 : α) : (split old key nBits cu v0).CacheOK hJ lh := by
  unfold split
  split
  · exact ⟨h.setBits _, trivial, fun hc => Bool.noConfusion hc⟩
  · exact ⟨trivial, h.setBits _, fun hc => Bool.noConfusion hc⟩

/-- **`Find` keeps the cache sound**: it invalidates the path to the node it
splits, and the joint it puts there is dirty. -/
theorem cacheOK_find [Inhabited H] (hn : 0 < nBits) {t : RadixTree α H} (hwf : t.WF nBits)
    (hc : t.CacheOK hJ lh) {key : Key} (hlen : key.length = nBits) (v0 : α) :
    (t.find key nBits true v0).tree.CacheOK hJ lh := by
  rcases goto_spec hn hwf hlen with ⟨h1, -, -⟩ | ⟨h1, -, hmiss⟩
  · simpa [find, h1] using hc
  · cases hr : t.root with
    | none =>
      simp only [find, h1, hr, Bool.false_eq_true, ↓reduceIte, Bool.not_true]
      trivial
    | some r =>
      obtain ⟨p, hpp, hv, -⟩ := hmiss r hr
      simp only [RadixTree.CacheOK, hr] at hc
      obtain ⟨hc1, hd1⟩ := invalidate_spec hc hv
      simp only [find, h1, hr, hpp, Bool.false_eq_true, ↓reduceIte, Bool.not_true, RadixTree.CacheOK]
      exact hc1.replaceAt hd1 (cacheOK_split (hc1.nodeAt p) _ _ _)

/-- **`Delete` keeps the cache sound**: the path to the leaf is invalidated
first, the re-pointing walk changes key pointers only, and the hoisted sibling
keeps its own sound cache. -/
theorem cacheOK_delete {t : RadixTree α H} (hc : t.CacheOK hJ lh) {cu : CursorBase} {key : Key}
    (hon : t.OnKey cu key) : (t.delete cu).CacheOK hJ lh := by
  obtain ⟨r, hr, p, hpp, hv, -⟩ := hon
  simp only [RadixTree.CacheOK, hr] at hc
  rcases List.eq_nil_or_concat p with rfl | ⟨q, dd, rfl⟩
  · simp [delete, hr, hpp, RadixTree.CacheOK]
  · rw [List.concat_eq_append] at hpp hv
    obtain ⟨hc1, hd1⟩ := invalidate_spec hc hv
    set r1 := (r.upward clearClean (q ++ [dd])).1
    obtain ⟨hc2, hd2⟩ := cacheOK_upward_repointKey (r1.nodeAt (q ++ [dd])).getNodeKey
      ((r1.nodeAt q).nodeAt [!dd]).getNodeKey hc1 hd1.of_append
    simp only [delete, hr, hpp, List.getLast?_concat, List.dropLast_concat, RadixTree.CacheOK]
    exact hc2.replaceAt hd2 (((hc1.nodeAt q).nodeAt [!dd]).setBits _)

/-- In `Delete`, the parent `pPrev` is dirty when `pN->m_Bits += pPrev->m_Bits + 1`
reads it, so that sum adds its bit count and no flag. -/
theorem delete_prev_dirty {t : RadixTree α H} (hc : t.CacheOK hJ lh) {r : Node α H} (hr : t.root = some r)
    {q : List Bool} {dd : Bool} (hv : r.ValidPath (q ++ [dd])) :
    ((r.upward clearClean (q ++ [dd])).1.nodeAt q).isClean = false := by
  simp only [RadixTree.CacheOK, hr] at hc
  exact (invalidate_spec hc hv).2.of_append.nodeAt_isClean

/-- Deleting the left leaf under a clean joint: the walk leaves the joint dirty. -/
theorem delete_prev_dirty_clean_joint :
    let r : Node Nat Nat := .joint 0 true [false] 3 (.leaf 0 true [false] 1) (.leaf 0 true [true] 2)
    ((r.upward clearClean ([] ++ [false])).1.nodeAt []).isClean = false :=
  delete_prev_dirty (t := ⟨some _⟩)
    (show RadixTree.CacheOK (· + ·) (fun _ v => v)
      ⟨some (.joint 0 true [false] 3 (.leaf 0 true [false] 1) (.leaf 0 true [true] 2))⟩ from
      ⟨trivial, trivial, fun _ => ⟨rfl, rfl, rfl⟩⟩) rfl (q := []) (show ValidPath _ [false] from trivial)

theorem cacheOK_getHash {t : RadixTree α H} (hc : t.CacheOK hJ lh) (zero : H) :
    (t.getHash hJ lh zero).2.CacheOK hJ lh := by
  unfold RadixTree.getHash
  split
  · exact hc
  · next r hr =>
    simp only [RadixTree.CacheOK, hr] at hc ⊢
    exact (getHash_spec hc).2.1

/-! ## The root hash -/

theorem getHash_fst {t : RadixTree α H} (hc : t.CacheOK hJ lh) (zero : H) :
    (t.getHash hJ lh zero).1 = match t.root with
      | none => zero
      | some r => r.hashOf hJ lh := by
  unfold RadixTree.getHash
  cases hr : t.root with
  | none => rfl
  | some r =>
    simp only [RadixTree.CacheOK, hr] at hc
    exact (getHash_spec hc).1

/-- **The root hash is a function of the leaves.**  Two well-formed trees with
sound caches whose (key, leaf hash) pairs are the same, in any order, give the
same `get_Hash`. -/
theorem getHash_eq_of_perm {t t' : RadixTree α H} (hwf : t.WF nBits) (hwf' : t'.WF nBits)
    (hc : t.CacheOK hJ lh) (hc' : t'.CacheOK hJ lh) (hp : (t.leafHashes lh).Perm (t'.leafHashes lh))
    (zero : H) : (t.getHash hJ lh zero).1 = (t'.getHash hJ lh zero).1 := by
  rw [getHash_fst hc, getHash_fst hc']
  unfold leafHashes at hp
  unfold WF at hwf hwf'
  -- an empty tree has no leaves, and a node has at least one
  have hne : ∀ n : Node α H, n.leafHashes lh ≠ [] := fun n h =>
    keys_ne_nil n (by rw [← map_fst_leafHashes lh n, h, List.map_nil])
  cases hr : t.root with
  | none =>
    cases hr' : t'.root with
    | none => rfl
    | some r' => simp only [hr, hr'] at hp; exact absurd hp.symm.eq_nil (hne r')
  | some r =>
    cases hr' : t'.root with
    | none => simp only [hr, hr'] at hp; exact absurd hp.eq_nil (hne r)
    | some r' =>
      simp only [hr, hr'] at hp hwf hwf'
      exact hashOf_eq_of_perm hJ lh hwf hwf' hp

/-- With hashes that never come out as `Zero`, `get_Hash` is `Zero` exactly for
the empty tree. -/
theorem getHash_eq_zero_iff {t : RadixTree α H} (hc : t.CacheOK hJ lh) {zero : H}
    (hJz : ∀ a b, hJ a b ≠ zero) (hlz : ∀ k v, lh k v ≠ zero) :
    (t.getHash hJ lh zero).1 = zero ↔ t.root = none := by
  rw [getHash_fst hc]
  cases hr : t.root with
  | none => simp
  | some r =>
    simp only [reduceCtorEq, iff_false]
    cases r with
    | leaf => exact hlz _ _
    | joint => exact hJz _ _

end Beam.RadixTree
