import Beam.RadixTree.Entries
import Beam.Merkle.Mmr

/-!
# `RadixHashTree::get_Proof`

`get_Proof` walks the cursor from its leaf up to the root.  At each joint it
hands out the hash of the child the cursor did not take, with `first` set when
that child is on the right.  It reads that hash with `get_Hash`, which fills in
the sibling's cache on the way, so the call changes the tree's cache.
`Merkle::Interpret` climbs the same joints from the leaf's hash.

* `interpret_getProof`: on a sound cache, interpreting the leaf's hash through
  the proof gives the hash the node stands for;
* `getProof_cacheOK`: the call leaves a sound cache over the same tree;
* `getProof_sound`: for a well-formed tree with a sound cache and a cursor on a
  leaf, the proof of the leaf leads to `get_Hash`, before the call and after it.
-/

namespace Beam.RadixTree

open Merkle Node

variable {α H : Type}

namespace Node

section Proof

variable (hJ : H → H → H) (lh : Key → α → H)

/-- The loop of `RadixHashTree::get_Proof` below a node, along the child
indices `p` of the cursor: one `Merkle::Node` for each joint on the path, from
the tip's parent up, with `first` set when the path takes child `0` and the
`get_Hash` of the other child. -/
def getProof : Node α H → List Bool → List (Bool × H) × Node α H
  | n, [] => ([], n)
  | joint b c kp h c0 c1, d :: p =>
    if d then
      let r := getProof c1 p
      let s := c0.getHash hJ lh
      (r.1 ++ [(false, s.1)], joint b c kp h s.2 r.2)
    else
      let r := getProof c0 p
      let s := c1.getHash hJ lh
      (r.1 ++ [(true, s.1)], joint b c kp h r.2 s.2)
  | leaf b c k v, _ :: _ => ([], leaf b c k v)

end Proof

variable {hJ : H → H → H} {lh : Key → α → H}

@[simp] theorem getProof_nil (n : Node α H) : n.getProof hJ lh [] = ([], n) := by
  cases n <;> rfl

theorem isClean_getProof (n : Node α H) (p : List Bool) : (n.getProof hJ lh p).2.isClean = n.isClean := by
  cases n with
  | leaf => cases p <;> rfl
  | joint b c kp h c0 c1 =>
    cases p with
    | nil => rfl
    | cons d p => cases d <;> rfl

/-- **The call keeps the cache sound**, over the same tree: the siblings are
hashed by `get_Hash`, and every joint on the path keeps its flag and hash. -/
theorem getProof_cacheOK {n : Node α H} (hn : n.CacheOK hJ lh) (p : List Bool) :
    (n.getProof hJ lh p).2.CacheOK hJ lh ∧ (n.getProof hJ lh p).2.erase = n.erase := by
  induction n generalizing p with
  | leaf => cases p <;> exact ⟨trivial, rfl⟩
  | joint b c kp h c0 c1 ih0 ih1 =>
    obtain ⟨h0, h1, hc⟩ := hn
    cases p with
    | nil => exact ⟨⟨h0, h1, hc⟩, rfl⟩
    | cons d p =>
      cases d
      · obtain ⟨k0, e0⟩ := ih0 h0 p
        obtain ⟨-, k1, l1, e1⟩ := getHash_spec h1
        refine ⟨⟨k0, k1, fun hcl => ?_⟩, by simp [getProof, erase, e0, e1]⟩
        obtain ⟨l0', -, hh⟩ := hc hcl
        exact ⟨(isClean_getProof c0 p).trans l0', l1, by rw [hashOf_congr e0, hashOf_congr e1, hh]⟩
      · obtain ⟨k1, e1⟩ := ih1 h1 p
        obtain ⟨-, k0, l0, e0⟩ := getHash_spec h0
        refine ⟨⟨k0, k1, fun hcl => ?_⟩, by simp [getProof, erase, e0, e1]⟩
        obtain ⟨-, l1', hh⟩ := hc hcl
        exact ⟨l0, (isClean_getProof c1 p).trans l1', by rw [hashOf_congr e0, hashOf_congr e1, hh]⟩

theorem interpretProof_append (hJ : H → H → H) (h : H) (p q : List (Bool × H)) :
    interpretProof hJ h (p ++ q) = interpretProof hJ (interpretProof hJ h p) q := by
  simp [interpretProof, List.foldl_append]

/-- **The proof climbs to the node's hash.**  On a sound cache, for a path to a
leaf, interpreting the leaf's hash through the proof `get_Proof` gives the
hash the node stands for. -/
theorem interpret_getProof {n : Node α H} (hn : n.CacheOK hJ lh) :
    ∀ {p : List Bool}, n.ValidPath p → ∀ {b : Nat} {c : Bool} {k : Key} {v : α}, n.nodeAt p = leaf b c k v →
      interpretProof hJ (lh k v) (n.getProof hJ lh p).1 = n.hashOf hJ lh := by
  induction n with
  | leaf b c k v =>
    intro p hp b' c' k' v' hx
    cases p with
    | nil => cases hx; rfl
    | cons => exact absurd hp id
  | joint b c kp h c0 c1 ih0 ih1 =>
    intro p hp b' c' k' v' hx
    obtain ⟨h0, h1, -⟩ := hn
    cases p with
    | nil => cases hx
    | cons d p =>
      -- the path goes on in one child; the other is the sibling of this joint
      cases d
      · simp only [getProof, Bool.false_eq_true, ↓reduceIte, interpretProof_append]
        rw [ih0 h0 hp hx]
        simp [interpretProof, interpretNode, interpret, hashOf, (getHash_spec h1).1]
      · simp only [getProof, ↓reduceIte, interpretProof_append]
        rw [ih1 h1 hp hx]
        simp [interpretProof, interpretNode, interpret, hashOf, (getHash_spec h0).1]

end Node

section Tree

variable (hJ : H → H → H) (lh : Key → α → H)

/-- `CursorBase::get_Leaf`: the key and payload of the leaf at the end of the
cursor. -/
def getLeaf (t : RadixTree α H) (cu : CursorBase) : Option (Key × α) :=
  match t.root, cu.pp with
  | some r, some p =>
    match r.nodeAt p with
    | leaf _ _ k v => some (k, v)
    | joint .. => none
  | _, _ => none

/-- `RadixHashTree::get_Proof(proof, cu)`: the nodes of the cursor's path
appended to `proof`, and the tree with the siblings' hashes cached. -/
def getProof (proof : List (Bool × H)) (t : RadixTree α H) (cu : CursorBase) :
    List (Bool × H) × RadixTree α H :=
  match t.root, cu.pp with
  | some r, some p =>
    let x := r.getProof hJ lh p
    (proof ++ x.1, ⟨some x.2⟩)
  | _, _ => (proof, t)

end Tree

variable {hJ : H → H → H} {lh : Key → α → H} {nBits : Nat}

/-- **The proof of a leaf is sound for the root hash.**  For a well-formed tree
with a sound cache and a cursor on the leaf of `key`, interpreting the leaf's
hash through `get_Proof` gives `get_Hash`.  The call keeps the tree, its
entries and a sound cache, so `get_Hash` after it is the same. -/
theorem getProof_sound {t : RadixTree α H} (hwf : t.WF nBits) (hc : t.CacheOK hJ lh) {cu : CursorBase}
    {key : Key} (hon : t.OnKey cu key) (zero : H) :
    ∃ v, t.getLeaf cu = some (key, v) ∧
      interpretProof hJ (lh key v) (t.getProof hJ lh [] cu).1 = (t.getHash hJ lh zero).1 ∧
      (t.getProof hJ lh [] cu).2.WF nBits ∧ (t.getProof hJ lh [] cu).2.CacheOK hJ lh ∧
      (t.getProof hJ lh [] cu).2.entries = t.entries ∧
      ((t.getProof hJ lh [] cu).2.getHash hJ lh zero).1 = (t.getHash hJ lh zero).1 := by
  obtain ⟨r, hr, p, hpp, hv, b, c, v, hx⟩ := hon
  simp only [RadixTree.WF, hr] at hwf
  simp only [RadixTree.CacheOK, hr] at hc
  obtain ⟨hc', he⟩ := getProof_cacheOK hc p
  have hroot : (r.getProof hJ lh p).2.hashOf hJ lh = r.hashOf hJ lh := hashOf_congr he
  refine ⟨v, by simp [getLeaf, hr, hpp, hx], ?_, ?_, by simpa [getProof, hr, hpp, RadixTree.CacheOK] using hc', ?_, ?_⟩
  · simp only [getProof, hr, hpp, List.nil_append, RadixTree.getHash, (getHash_spec hc).1]
    exact interpret_getProof hc hv hx
  · simpa [getProof, hr, hpp, RadixTree.WF] using (wf_erase _).mp (he ▸ (wf_erase r).mpr hwf)
  · simp only [getProof, hr, hpp, entries]
    rw [← entries_erase, he, entries_erase]
  · simp only [getProof, hr, hpp, RadixTree.getHash, (getHash_spec hc).1, (getHash_spec hc').1, hroot]

end Beam.RadixTree
