import Beam.Merkle.ProofPath

/-!
# `Merkle::HardProof`

`src/core/merkle.cpp`.  A hard proof is a proof without its sides:
`ProofBuilderHard` keeps only the siblings' hashes, and
`HardVerifier::InterpretMmr` finds the sides again by running the leaf's path on
a `PathCaclulator`, reading one hash of the proof for each node.  What follows
the proof is left to the caller (`IsValidProofState` reads on with the proof of
the header's definition).

* `getProof_eq_map_pathNodes`, `getHardProof_eq_map_pathNodes`: both proofs are
  the path with the siblings' hashes;
* `interpretMmr_hardProof`: reading a hard proof back from the leaf's hash gives
  the root and leaves what follows it.
-/

namespace Beam.Merkle

open MountainRange

variable {σ β α : Type} (hJ : α → α → α)

/-- `ProofBuilderHard::AppendNode`: the sibling's hash is pushed, and the proof
goes on. -/
def proofBuilderHard (p : List α) (n : Bool × α) (_h _x : Nat) : List α × Bool :=
  (p ++ [n.2], true)

/-- `Mmr::get_Proof(IProofBuilder&, i)` into a `ProofBuilderHard`. -/
def getHardProof [Inhabited α] (st : Store σ α) (count i : Nat) (s : σ) : List α × σ :=
  let r := proofInternalLoop hJ st count false proofBuilderHard 0 count i [] s
  (r.1.1, r.2)

/-- `HardVerifier`: `m_hv`, and the hashes from `m_itPos` to `m_itEnd`. -/
structure HardVerifier (α : Type) where
  hv : α
  rest : List α

/-- `HardVerifier::InterpretOnce(bOnRight)`. -/
def HardVerifier.interpretOnce (v : HardVerifier α) (bOnRight : Bool) : HardVerifier α × Bool :=
  match v.rest with
  | [] => (v, false)
  | h :: rest => (⟨interpret hJ v.hv h bOnRight, rest⟩, true)

/-- `HardVerifier::InterpretMmr(iIdx, nCount)`: the `AppendNode` of its `MyMmr`
interprets the next hash on the side the path gives. -/
def HardVerifier.interpretMmr [Inhabited α] (v : HardVerifier α) (iIdx nCount : Nat) : HardVerifier α × Bool :=
  if iIdx ≥ nCount then (v, false)
  else (proofInternalLoop hJ pathCalculator nCount true
    (fun v n _ _ => HardVerifier.interpretOnce hJ v n.1) 0 nCount iIdx v ()).1

section Spec

variable {hJ} [Inhabited α]

omit [Inhabited α] in
/-- A builder that pushes one thing for each node and never stops. -/
theorem appendAll_push (app : List β → Bool × α → Nat → Nat → List β × Bool) (k : Bool × α → β)
    (happ : ∀ p n h x, app p n h x = (p ++ [k n], true)) (hash : Bool × Nat × Nat → α) :
    ∀ (l : List (Bool × Nat × Nat)) (p : List β),
      appendAll app hash p l = (p ++ l.map fun e => k (e.1, hash e), true)
  | [], p => by simp [appendAll]
  | e :: l, p => by
    simp only [appendAll, happ, if_true, List.map_cons]
    rw [appendAll_push app k happ hash l]
    simp

/-- The proof `ProofBuilderStd` gets from a store with no state is the path with
the siblings' hashes. -/
theorem getProof_eq_map_pathNodes (st : Store Unit α) (count i : Nat) :
    (getProof hJ st count i ()).1 =
      (pathNodes count 0 count i).map fun e => (e.1, (proofSibling hJ st count e.2.1 e.2.2 e.1 ()).1) := by
  simp only [getProof, proofLoop_eq_proofInternalLoop, proofInternalLoop_unit, proofBuilderStd, Bool.false_eq_true,
    if_false]
  rw [appendAll_push (fun b n _ _ => (b ++ [n], true)) id fun _ _ _ _ => rfl]
  simp

/-- So is the hard proof, without the sides. -/
theorem getHardProof_eq_map_pathNodes (st : Store Unit α) (count i : Nat) :
    (getHardProof hJ st count i ()).1 =
      (pathNodes count 0 count i).map fun e => (proofSibling hJ st count e.2.1 e.2.2 e.1 ()).1 := by
  simp only [getHardProof, proofInternalLoop_unit, Bool.false_eq_true, if_false]
  rw [appendAll_push proofBuilderHard Prod.snd fun _ _ _ _ => rfl]
  simp

omit [Inhabited α] in
/-- Handed the nodes of a list, the verifier interprets one hash of its stream
for each, on the node's side. -/
theorem appendAll_interpretOnce (g : Bool × Nat × Nat → α) (hash : Bool × Nat × Nat → α) :
    ∀ (l : List (Bool × Nat × Nat)) (hv : α) (tail : List α),
      appendAll (fun v n _ _ => HardVerifier.interpretOnce hJ v n.1) hash ⟨hv, l.map g ++ tail⟩ l =
        (⟨interpretProof hJ hv (l.map fun e => (e.1, g e)), tail⟩, true)
  | [], _, _ => rfl
  | e :: l, hv, tail => by
    simp only [appendAll, List.map_cons, List.cons_append, HardVerifier.interpretOnce, if_true]
    exact appendAll_interpretOnce g hash l _ tail

variable {st : Store σ α} {inv : σ → Prop} {f : Nat → α} {count : Nat}

/-- Whatever the store, the hard proof is the one of the trees. -/
theorem getHardProof_ofFun (hL : LoadsNodes hJ st inv f count) {i : Nat} {s : σ} (hs : inv s) (hi : i < count) :
    (getHardProof hJ st count i s).1 = (getHardProof hJ (Store.ofFun fun h x => node hJ f h x) count i ()).1 := by
  have h1 := (proofInternalLoop_ofFun hL proofBuilderHard count 0 i [] s hs (by simp) (by simpa using hi)).1
  simp only [getHardProof, h1]

/-- **A hard proof reads back to the root.**  For every MMR whose loads give the
trees of its leaves and every leaf below its count, a `HardVerifier` started
from the leaf's hash on its hard proof, followed by anything, succeeds in
`InterpretMmr`, holds the root, and is left at what follows the proof. -/
theorem interpretMmr_hardProof (hL : LoadsNodes hJ st inv f count) {s : σ} (hs : inv s) {i : Nat} (hi : i < count)
    (tail : List α) :
    ∃ r, HardVerifier.interpretMmr hJ ⟨f i, (getHardProof hJ st count i s).1 ++ tail⟩ i count = (⟨r, tail⟩, true) ∧
      some r = root hJ f count := by
  rw [getHardProof_ofFun hL hs hi, getHardProof_eq_map_pathNodes]
  refine ⟨_, ?_, interpretProof_getProof hi⟩
  simp only [HardVerifier.interpretMmr, if_neg (Nat.not_le.mpr hi), proofInternalLoop_unit, if_true]
  rw [appendAll_interpretOnce, getProof_eq_map_pathNodes]

/-- The hard proof of the last of three leaves, alone. -/
theorem interpretMmr_hardProof_last :
    ∃ r, HardVerifier.interpretMmr Nat.add
        ⟨id 2, (getHardProof Nat.add (Store.ofFun fun h x => node Nat.add id h x) 3 2 ()).1 ++ []⟩ 2 3 =
        (⟨r, []⟩, true) ∧ some r = root Nat.add id 3 :=
  interpretMmr_hardProof (loadsNodes_ofFun Nat.add id 3) trivial (by decide) []

end Spec

end Beam.Merkle
