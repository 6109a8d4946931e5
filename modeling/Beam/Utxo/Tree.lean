import Beam.RadixTree.HashTree
import Beam.RadixTree.Proof

/-!
# `UtxoTree`

`src/core/radixtree.cpp`, `UtxoTree`: the radix hash tree of unspent outputs.
Outputs with the same key (commitment and maturity) share one leaf.  The leaf
holds the `TxoID` of each: in `m_ID` while there is one, and once there are more
in the stack `m_pIDs` with its count, marked by `s_User` (`IsExt`).  A leaf
hashes its key with `get_Count`, the number of IDs.

`PushID` and `PopID` change a leaf in place; the node processor follows each
with `InvalidateElement` on the leaf's cursor.  `Run` is every tree these and
`Find`, `Delete` and `get_Hash` build from the empty one, in any order.

* `run_invariant`: every such tree is well-formed with a sound hash cache;
* `utxo_root_history_independent`: its root hash is a function of the
  (key, count) pairs it holds;
* `run_getProof_sound`: the proof `get_Proof` gives for any cursor on a leaf
  climbs from the leaf's hash to `get_Hash`.
-/

namespace Beam

/-- `TxoID`. -/
abbrev TxoID := UInt64

namespace UtxoTree

open RadixTree

/-- `Key::s_BitsCommitment`: the X coordinate of the commitment and its Y flag. -/
def sBitsCommitment : Nat := 256 + 1

/-- `Key::s_Bits`: the commitment, then the 64 bits of the maturity. -/
def sBits : Nat := sBitsCommitment + 64

/-- `MyLeaf::IDQueue`: the IDs from `m_pTop` down the `m_pNext` chain, and
`m_Count` (`Input::Count`, 32 bits). -/
structure IDQueue where
  top : List TxoID
  count : UInt32
  deriving DecidableEq, Repr

/-- `UtxoTree::MyLeaf` apart from its key, which is the leaf's key in the tree:
the union of `m_ID` and `m_pIDs`, told apart by `s_User`. -/
inductive MyLeaf where
  | single (id : TxoID)
  | ext (q : IDQueue)
  deriving DecidableEq, Repr

namespace MyLeaf

/-- `MyLeaf::IsExt`. -/
def isExt : MyLeaf → Bool
  | single _ => false
  | ext _ => true

/-- `MyLeaf::get_Count`. -/
def getCount : MyLeaf → UInt32
  | single _ => 1
  | ext q => q.count

end MyLeaf

open MyLeaf

/-- `UtxoTree::PushIDRaw`. -/
def pushIDRaw (id : TxoID) (q : IDQueue) : IDQueue :=
  ⟨id :: q.top, q.count + 1⟩

/-- `UtxoTree::PopIDRaw`: the top ID and the queue without it.  The queue is
never empty there (`assert(q.m_Count)`); the empty case returns `0`. -/
def popIDRaw (q : IDQueue) : TxoID × IDQueue :=
  match q.top with
  | id :: rest => (id, ⟨rest, q.count - 1⟩)
  | [] => (0, ⟨[], q.count - 1⟩)

/-- `UtxoTree::PushID`: a single `m_ID` becomes a queue of it, then the new ID
is pushed on top. -/
def pushID (id : TxoID) : MyLeaf → MyLeaf
  | single val => ext (pushIDRaw id (pushIDRaw val ⟨[], 0⟩))
  | ext q => ext (pushIDRaw id q)

/-- `UtxoTree::PopID`: the ID on top, and the leaf without it; a queue left with
one ID goes back to a single `m_ID`.  It is only called on a leaf with
`IsExt` (`assert(x.IsExt())`); on a single ID it changes nothing. -/
def popID : MyLeaf → TxoID × MyLeaf
  | ext q =>
    let r := popIDRaw q
    if r.2.count = 1 then (r.1, single (popIDRaw r.2).1) else (r.1, ext r.2)
  | single id => (id, single id)

/-- `UtxoTree::get_LeafHash`: `MyLeaf::get_Hash` of the key and `get_Count`,
with `hLeaf` the hash of a key and a count. -/
def leafHash {H : Type} (hLeaf : Key → UInt32 → H) (k : Key) (x : MyLeaf) : H :=
  hLeaf k x.getCount

/-- The (key, `get_Count`) pairs of the tree. -/
def counts {H : Type} (t : RadixTree MyLeaf H) : List (Key × UInt32) :=
  match t.root with
  | none => []
  | some r => r.entries.map fun e => (e.1, e.2.getCount)

theorem counts_eq_map_entries {H : Type} (t : RadixTree MyLeaf H) :
    counts t = t.entries.map fun e => (e.1, e.2.getCount) := by
  unfold counts RadixTree.entries
  cases t.root <;> rfl

theorem leafHashes_leafHash {H : Type} (hLeaf : Key → UInt32 → H) (t : RadixTree MyLeaf H) :
    t.leafHashes (leafHash hLeaf) = (counts t).map fun e => (e.1, hLeaf e.1 e.2) := by
  unfold RadixTree.leafHashes counts
  cases t.root with
  | none => rfl
  | some r => simp [Node.leafHashes, leafHash]

section Run

variable {H : Type} [Inhabited H] (nBits : Nat) (hJ : H → H → H) (hLeaf : Key → UInt32 → H) (zero : H)

/-- The trees that `Find` with creation (the new leaf's `m_ID` set to `id`),
`Delete`, `PushID` and `PopID` (each followed by `InvalidateElement` on the
leaf's cursor), `InvalidateElement` and `get_Hash` build from the empty tree,
in any order, over keys of `nBits` bits. -/
inductive Run : RadixTree MyLeaf H → Prop
  | empty : Run ⟨none⟩
  | find {t : RadixTree MyLeaf H} {key : Key} (id : TxoID) :
      Run t → key.length = nBits → Run (t.find key nBits true (single id)).tree
  | delete {t : RadixTree MyLeaf H} {cu : CursorBase} {key : Key} :
      Run t → t.OnKey cu key → Run (t.delete cu)
  | pushID {t : RadixTree MyLeaf H} {cu : CursorBase} {key : Key} (id : TxoID) :
      Run t → t.OnKey cu key → Run ((t.updateLeaf cu (pushID id)).invalidateElement cu)
  | popID {t : RadixTree MyLeaf H} {cu : CursorBase} {key : Key} :
      Run t → t.OnKey cu key → Run ((t.updateLeaf cu fun x => (popID x).2).invalidateElement cu)
  | invalidate {t : RadixTree MyLeaf H} {cu : CursorBase} {key : Key} :
      Run t → t.OnKey cu key → Run (t.invalidateElement cu)
  | getHash {t : RadixTree MyLeaf H} : Run t → Run (t.getHash hJ (leafHash hLeaf) zero).2

variable {nBits hJ hLeaf zero}

/-- **The run lemma**: every tree of a run is well-formed and its hash cache is
sound. -/
theorem run_invariant (hn : 0 < nBits) {t : RadixTree MyLeaf H} (hr : Run nBits hJ hLeaf zero t) :
    t.WF nBits ∧ t.CacheOK hJ (leafHash hLeaf) := by
  induction hr with
  | empty => exact ⟨trivial, trivial⟩
  | find id _ hlen ih => exact ⟨(Abstracts.find hn ⟨ih.1, rfl⟩ hlen _).wf, cacheOK_find hn ih.1 ih.2 hlen _⟩
  | delete _ hon ih => exact ⟨(delete_spec ih.1 hon).1, cacheOK_delete ih.2 hon⟩
  | pushID id _ hon ih =>
    exact ⟨(ih.1.updateLeaf hon _).invalidateElement _, cacheOK_updateLeaf_invalidate ih.2 hon _⟩
  | popID _ hon ih =>
    exact ⟨(ih.1.updateLeaf hon _).invalidateElement _, cacheOK_updateLeaf_invalidate ih.2 hon _⟩
  | invalidate _ hon ih => exact ⟨ih.1.invalidateElement _, cacheOK_invalidateElement ih.2 hon⟩
  | getHash _ ih => exact ⟨ih.1.getHash ih.2 _, cacheOK_getHash ih.2 _⟩

/-- **The UTXO root is history independent.**  Two runs, whatever their
operations and their calls of `get_Hash`, that end with the same (key, count)
pairs give the same `get_Hash`; and when no hash comes out as `Zero`, the root
is `Zero` exactly when the tree is empty. -/
theorem utxo_root_history_independent (hn : 0 < nBits) {t1 t2 : RadixTree MyLeaf H}
    (h1 : Run nBits hJ hLeaf zero t1) (h2 : Run nBits hJ hLeaf zero t2) (hsame : (counts t1).Perm (counts t2)) :
    (t1.getHash hJ (leafHash hLeaf) zero).1 = (t2.getHash hJ (leafHash hLeaf) zero).1 ∧
      ((∀ a b, hJ a b ≠ zero) → (∀ k c, hLeaf k c ≠ zero) →
        ((t1.getHash hJ (leafHash hLeaf) zero).1 = zero ↔ t1.root = none)) := by
  obtain ⟨hw1, hc1⟩ := run_invariant hn h1
  obtain ⟨hw2, hc2⟩ := run_invariant hn h2
  refine ⟨getHash_eq_of_perm hw1 hw2 hc1 hc2 ?_ zero, fun hJz hLz => getHash_eq_zero_iff hc1 hJz ?_⟩
  · rw [leafHashes_leafHash, leafHashes_leafHash]
    exact hsame.map _
  · intro k x
    exact hLz k x.getCount

end Run

/-- Two keys of two bits inserted in either order give the same root. -/
theorem utxo_root_history_independent_two_orders :
    ((((⟨none⟩ : RadixTree MyLeaf Nat).find [false, true] 2 true (.single 7)).tree.find [true, false] 2 true
        (.single 8)).tree.getHash (fun a b => a + b + 1) (leafHash fun _ c => c.toNat + 1) 0).1 =
      ((((⟨none⟩ : RadixTree MyLeaf Nat).find [true, false] 2 true (.single 8)).tree.find [false, true] 2 true
        (.single 7)).tree.getHash (fun a b => a + b + 1) (leafHash fun _ c => c.toNat + 1) 0).1 :=
  (utxo_root_history_independent (show 0 < 2 by decide)
    (Run.find 8 (Run.find 7 Run.empty rfl) rfl) (Run.find 7 (Run.find 8 Run.empty rfl) rfl)
    (by decide)).1

section Proofs

variable {H : Type} [Inhabited H] {nBits : Nat} {hJ : H → H → H} {hLeaf : Key → UInt32 → H} {zero : H}

/-- **UTXO proofs are sound for the cached root.**  In every tree of a run, with
any earlier `get_Hash` and invalidations, for every cursor on the leaf of a key,
interpreting `MyLeaf::get_Hash` of the leaf's key and count through `get_Proof`
gives `get_Hash`; and after the call, which caches the siblings' hashes, the
tree is well-formed with a sound cache, holds the same leaves and has the same
`get_Hash`. -/
theorem run_getProof_sound (hn : 0 < nBits) {t : RadixTree MyLeaf H} (hr : Run nBits hJ hLeaf zero t)
    {cu : CursorBase} {key : Key} (hon : t.OnKey cu key) :
    ∃ x, t.getLeaf cu = some (key, x) ∧
      Merkle.interpretProof hJ (hLeaf key x.getCount) (t.getProof hJ (leafHash hLeaf) [] cu).1 =
        (t.getHash hJ (leafHash hLeaf) zero).1 ∧
      (t.getProof hJ (leafHash hLeaf) [] cu).2.WF nBits ∧
      (t.getProof hJ (leafHash hLeaf) [] cu).2.CacheOK hJ (leafHash hLeaf) ∧
      counts (t.getProof hJ (leafHash hLeaf) [] cu).2 = counts t ∧
      ((t.getProof hJ (leafHash hLeaf) [] cu).2.getHash hJ (leafHash hLeaf) zero).1 =
        (t.getHash hJ (leafHash hLeaf) zero).1 := by
  obtain ⟨hwf, hc⟩ := run_invariant hn hr
  obtain ⟨x, hx, hint, hwf', hc', hent, hhash⟩ := getProof_sound hwf hc hon zero
  refine ⟨x, hx, hint, hwf', hc', ?_, hhash⟩
  rw [counts_eq_map_entries, counts_eq_map_entries, hent]

end Proofs

/-- The second key of a two-key tree, with the cursor `Find` leaves on it. -/
theorem run_getProof_sound_two_keys :
    let r := ((⟨none⟩ : RadixTree MyLeaf Nat).find [false, true] 2 true (.single 7)).tree.find [true, false] 2 true
      (.single 8)
    ∃ x, r.tree.getLeaf r.cu = some ([true, false], x) ∧
      Merkle.interpretProof (fun a b => a + b + 1) ((fun _ c => c.toNat + 1) [true, false] x.getCount)
          (r.tree.getProof (fun a b => a + b + 1) (leafHash fun _ c => c.toNat + 1) [] r.cu).1 =
        (r.tree.getHash (fun a b => a + b + 1) (leafHash fun _ c => c.toNat + 1) 0).1 ∧
      (r.tree.getProof (fun a b => a + b + 1) (leafHash fun _ c => c.toNat + 1) [] r.cu).2.WF 2 ∧
      (r.tree.getProof (fun a b => a + b + 1) (leafHash fun _ c => c.toNat + 1) [] r.cu).2.CacheOK
        (fun a b => a + b + 1) (leafHash fun _ c => c.toNat + 1) ∧
      counts (r.tree.getProof (fun a b => a + b + 1) (leafHash fun _ c => c.toNat + 1) [] r.cu).2 = counts r.tree ∧
      ((r.tree.getProof (fun a b => a + b + 1) (leafHash fun _ c => c.toNat + 1) [] r.cu).2.getHash
          (fun a b => a + b + 1) (leafHash fun _ c => c.toNat + 1) 0).1 =
        (r.tree.getHash (fun a b => a + b + 1) (leafHash fun _ c => c.toNat + 1) 0).1 :=
  run_getProof_sound (show 0 < 2 by decide) (Run.find 8 (Run.find 7 Run.empty rfl) rfl)
    ⟨_, rfl, [true], rfl, True.intro, _, _, _, rfl⟩

end UtxoTree

end Beam
