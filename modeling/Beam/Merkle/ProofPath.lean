import Beam.Merkle.MmrSpec

/-!
# The path of `Mmr::get_ProofInternal`

`src/core/merkle.cpp`.  `get_ProofInternal(proof, i, bIgnoreHashes)` climbs from
leaf `i` to the root and hands an `IProofBuilder` each sibling it passes, with
its hash unless `bIgnoreHashes`; the builder may stop it.  `PathCaclulator`
runs it with no hash at all, to learn only the sides and positions.

* `proofInternalLoop_unit`: over a store with no state, the loop hands its
  builder the nodes `pathNodes` of the leaf, one after the other, until the
  builder stops it;
* `proofLoop_eq_proofInternalLoop`: the loop of `get_Proof` (`proofLoop`) is this
  one with a builder that never keeps its state on a stop;
* `proofInternalLoop_ofFun`: whatever the store, the loop reads the trees.
-/

namespace Beam.Merkle

open MountainRange

variable {σ β α : Type} (hJ : α → α → α)

section Internal

variable (st : Store σ α)

/-- `Mmr::get_ProofInternal(proof, i, bIgnoreHashes)` from height `h`, with `n` the
count and `i` the leaf's ancestor at that height, for an `IProofBuilder` whose
`AppendNode` updates its state `β` and says whether to go on: the builder's state,
and whether the loop ran to the top.  With `bIgnoreHashes` set no sibling is
read, and the node's hash is left unset (`default`). -/
def proofInternalLoop [Inhabited α] (count : Nat) (bIgnoreHashes : Bool)
    (appendNode : β → Bool × α → Nat → Nat → β × Bool) (h n i : Nat) (b : β) (s : σ) : (β × Bool) × σ :=
  if n = 0 then ((b, true), s)
  else
    let first := !(i &&& 1 != 0)
    let x := i ^^^ 1
    -- `continue`: on to the next height without a node
    if first ∧ count ≤ x <<< h then proofInternalLoop count bIgnoreHashes appendNode (h + 1) (n >>> 1) (i >>> 1) b s
    else
      let r := if bIgnoreHashes then (default, s) else proofSibling hJ st count h x first s
      let a := appendNode b (first, r.1) h x
      if a.2 then proofInternalLoop count bIgnoreHashes appendNode (h + 1) (n >>> 1) (i >>> 1) a.1 r.2
      else ((a.1, false), r.2)
termination_by n
decreasing_by all_goals rw [shiftRight_one]; omega

end Internal

/-- The nodes the loop of `get_ProofInternal` hands out from height `h`, as
(`first`, `H`, `X`): the path `PathCaclulator::InterpretPath` deduces. -/
def pathNodes (count h n i : Nat) : List (Bool × Nat × Nat) :=
  if n = 0 then []
  else if (!(i &&& 1 != 0)) = true ∧ count ≤ (i ^^^ 1) <<< h then pathNodes count (h + 1) (n >>> 1) (i >>> 1)
  else (!(i &&& 1 != 0), h, i ^^^ 1) :: pathNodes count (h + 1) (n >>> 1) (i >>> 1)
termination_by n
decreasing_by all_goals rw [shiftRight_one]; omega

/-- A builder handed the nodes of a list with their hashes, until it stops. -/
def appendAll (appendNode : β → Bool × α → Nat → Nat → β × Bool) (hash : Bool × Nat × Nat → α) :
    β → List (Bool × Nat × Nat) → β × Bool
  | b, [] => (b, true)
  | b, e :: es =>
    let a := appendNode b (e.1, hash e) e.2.1 e.2.2
    if a.2 then appendAll appendNode hash a.1 es else (a.1, false)

/-- `PathCaclulator`'s `LoadElement` and `SaveElement`, which are never called. -/
def pathCalculator [Inhabited α] : Store Unit α :=
  ⟨fun _ _ s => (default, s), fun _ _ _ s => s⟩

/-! ## The loop hands out the path -/

section Path

variable {hJ} [Inhabited α]

/-- **The proof loop is its path.**  Over a store with no state, the loop hands
the builder the nodes of `pathNodes` with their siblings' hashes (none when
`bIgnoreHashes`), one after the other, until the builder stops it. -/
theorem proofInternalLoop_unit (st : Store Unit α) (count : Nat) (bIgnoreHashes : Bool)
    (app : β → Bool × α → Nat → Nat → β × Bool) :
    ∀ (n h i : Nat) (b : β), proofInternalLoop hJ st count bIgnoreHashes app h n i b () =
      (appendAll app (fun e => if bIgnoreHashes then default else (proofSibling hJ st count e.2.1 e.2.2 e.1 ()).1) b
        (pathNodes count h n i), ()) := by
  intro n
  induction n using Nat.strong_induction_on with
  | _ n ih =>
    intro h i b
    rw [proofInternalLoop, pathNodes]
    by_cases h0 : n = 0
    · simp [h0, appendAll]
    · have hrec := ih (n >>> 1) (by rw [shiftRight_one]; omega) (h + 1) (i >>> 1)
      simp only [h0, if_false]
      by_cases hc : (!(i &&& 1 != 0)) = true ∧ count ≤ (i ^^^ 1) <<< h
      · simp only [hc, and_self, if_true]
        exact hrec b
      · simp only [hc, if_false, appendAll]
        cases bIgnoreHashes <;> simp only [Bool.false_eq_true, if_false, if_true] <;> split <;> simp_all

theorem pathNodes_eq {count h n i : Nat} (hn : n ≠ 0) :
    pathNodes count h n i =
      if (!(i &&& 1 != 0)) = true ∧ count ≤ (i ^^^ 1) <<< h then pathNodes count (h + 1) (n / 2) (i / 2)
      else (!(i &&& 1 != 0), h, i ^^^ 1) :: pathNodes count (h + 1) (n / 2) (i / 2) := by
  rw [pathNodes, if_neg hn, shiftRight_one, shiftRight_one]

/-- One height of the loop: skip the sibling, or hand it on and go up unless
the builder stops. -/
theorem proofInternalLoop_eq {st : Store σ α} {count : Nat} {bI : Bool} {app : β → Bool × α → Nat → Nat → β × Bool}
    {h n i : Nat} {b : β} {s : σ} (hn : n ≠ 0) :
    proofInternalLoop hJ st count bI app h n i b s =
      if (!(i &&& 1 != 0)) = true ∧ count ≤ (i ^^^ 1) <<< h then
        proofInternalLoop hJ st count bI app (h + 1) (n / 2) (i / 2) b s
      else
        let r := if bI then (default, s) else proofSibling hJ st count h (i ^^^ 1) (!(i &&& 1 != 0)) s
        let a := app b (!(i &&& 1 != 0), r.1) h (i ^^^ 1)
        if a.2 then proofInternalLoop hJ st count bI app (h + 1) (n / 2) (i / 2) a.1 r.2
        else ((a.1, false), r.2) := by
  rw [proofInternalLoop, if_neg hn, shiftRight_one, shiftRight_one]

/-- The loop of `get_ProofInternal` with its builder's state kept on a stop is
the one of `get_Proof` (`proofLoop`), whose builder's `none` is the stop. -/
theorem proofLoop_eq_proofInternalLoop {st : Store σ α} {count : Nat}
    (app : β → Bool × α → Nat → Nat → Option β) :
    ∀ (n h i : Nat) (b : β) (s : σ), proofLoop hJ st count app h n i b s =
      let r := proofInternalLoop hJ st count false
        (fun b n h x => match app b n h x with | none => (b, false) | some b' => (b', true)) h n i b s
      (if r.1.2 then some r.1.1 else none, r.2) := by
  intro n
  induction n using Nat.strong_induction_on with
  | _ n ih =>
    intro h i b s
    by_cases h0 : n = 0
    · subst h0
      simp [proofInternalLoop]
    rw [proofLoop_eq h0, proofInternalLoop_eq h0]
    by_cases hc : (!(i &&& 1 != 0)) = true ∧ count ≤ (i ^^^ 1) <<< h
    · rw [if_pos hc, if_pos hc]
      exact ih (n / 2) (by omega) (h + 1) (i / 2) b s
    · rw [if_neg hc, if_neg hc]
      simp only [Bool.false_eq_true, if_false]
      cases app b (!(i &&& 1 != 0), (proofSibling hJ st count h (i ^^^ 1) (!(i &&& 1 != 0)) s).1) h (i ^^^ 1) with
      | none => rfl
      | some b' => exact ih (n / 2) (by omega) (h + 1) (i / 2) b' _

section OfFun

variable {st : Store σ α} {inv : σ → Prop} {f : Nat → α} {count : Nat}

/-- Whatever the store, a loop reading hashes hands the builder those of the trees. -/
theorem proofInternalLoop_ofFun (hL : LoadsNodes hJ st inv f count) (app : β → Bool × α → Nat → Nat → β × Bool) :
    ∀ (n h i : Nat) (b : β) (s : σ), inv s → n = count / 2 ^ h → i * 2 ^ h < count →
      (proofInternalLoop hJ st count false app h n i b s).1 =
          (proofInternalLoop hJ (Store.ofFun fun h x => node hJ f h x) count false app h n i b ()).1 ∧
        inv (proofInternalLoop hJ st count false app h n i b s).2 := by
  intro n
  induction n using Nat.strong_induction_on with
  | _ n ih =>
    intro h i b s hs hn hi
    by_cases h0 : n = 0
    · subst h0
      simp [proofInternalLoop, hs]
    have hrec := fun b' s' hs' => ih (n / 2) (by omega) (h + 1) (i / 2) b' s' hs' (count_div_succ hn)
      (proof_next hi)
    rw [proofInternalLoop_eq h0, proofInternalLoop_eq h0]
    by_cases hc : (!(i &&& 1 != 0)) = true ∧ count ≤ (i ^^^ 1) <<< h
    · rw [if_pos hc, if_pos hc]
      exact hrec b s hs
    · rw [if_neg hc, if_neg hc]
      obtain ⟨hsib, hinv⟩ := proofSibling_ofFun hL hs hi hc
      simp only [Bool.false_eq_true, if_false, hsib]
      split
      · exact hrec _ _ hinv
      · exact ⟨rfl, hinv⟩

end OfFun

end Path

end Beam.Merkle
