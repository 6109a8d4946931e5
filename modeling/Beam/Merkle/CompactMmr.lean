import Beam.Merkle.MmrSpec

/-!
# `Merkle::CompactMmr`

`src/core/merkle.cpp`.  `CompactMmr` keeps only the peaks, highest first
(`m_vNodes`, "rightmost branch, in top-down order"), and their count of
leaves.  `Append` merges the trailing peaks into the new leaf while the count
ends in a one bit; `get_Hash` bags the peaks from the last; `get_PredictedHash`
bags them onto the new leaf.

`Peaks c f` says `m_vNodes` are the trees of `f` at the peaks of `m_Count`;
`append_peaks` keeps it, and from it `get_Hash` is the root and
`get_PredictedHash` the root after the append.
-/

namespace Beam.Merkle

open MountainRange

variable {α : Type} (hJ : α → α → α)

/-- `Merkle::CompactMmr`. -/
structure CompactMmr (α : Type) where
  count : Nat
  vNodes : List α

namespace CompactMmr

/-- `CompactMmr::get_Hash`: from the last peak, each earlier one hashed in on
the left; `Zero` without peaks. -/
def getHash (zero : α) (c : CompactMmr α) : α :=
  match c.vNodes.reverse with
  | [] => zero
  | hv :: rest => rest.foldl (fun hv p => interpret hJ hv p false) hv

/-- The loop of `CompactMmr::get_PredictedHash`: `n` the count at the current
height, `iPos` the peaks not yet used; the peak `m_vNodes[--iPos]` is hashed in
on the left for each one bit of the count. -/
def predictedLoop (nodes : List α) (n iPos : Nat) (hv : α) : α :=
  if n = 0 then hv
  else if 1 &&& n != 0 then
    match iPos with
    | 0 => hv
    | iPos + 1 => predictedLoop nodes (n >>> 1) iPos (interpret hJ hv (nodes.getD iPos hv) false)
  else predictedLoop nodes (n >>> 1) iPos hv
termination_by n
decreasing_by all_goals rw [shiftRight_one]; omega

/-- `CompactMmr::get_PredictedHash`. -/
def getPredictedHash (c : CompactMmr α) (hvAppend : α) : α :=
  predictedLoop hJ c.vNodes c.count c.vNodes.length hvAppend

/-- The loop of `CompactMmr::Append`: while the count ends in a one bit, the
last peak is hashed in on the left of the new tree and popped. -/
def appendLoop (n : Nat) (nodes : List α) (hv1 : α) : List α × α :=
  if 1 &&& n = 0 then (nodes, hv1)
  else
    match nodes.getLast? with
    | none => (nodes, hv1)
    | some p => appendLoop (n >>> 1) nodes.dropLast (interpret hJ hv1 p false)
termination_by n
decreasing_by rw [shiftRight_one, Nat.one_and_eq_mod_two] at *; omega

/-- `CompactMmr::Append`: the merged tree is pushed as the last peak. -/
def append (c : CompactMmr α) (hv : α) : CompactMmr α :=
  let (vNodes, hv1) := appendLoop hJ c.count c.vNodes hv
  ⟨c.count + 1, vNodes ++ [hv1]⟩

/-- `m_vNodes` are the trees of `f` at the peaks of `m_Count`. -/
def Peaks (f : Nat → α) (c : CompactMmr α) : Prop :=
  c.vNodes = nodes hJ f (peaks 0 0 c.count)

variable {hJ}

/-- **`get_Hash` is the root.** -/
theorem getHash_eq {f : Nat → α} {c : CompactMmr α} (hc : Peaks hJ f c) (zero : α) :
    getHash hJ zero c = (root hJ f c.count).getD zero := by
  rw [root, rangeRoot, ← nodes, ← hc, getHash]
  rcases List.eq_nil_or_concat c.vNodes with hnil | ⟨l, last, hl⟩
  · simp [hnil]
  · rw [hl, List.concat_eq_append, List.reverse_append, List.reverse_singleton, List.singleton_append,
      bag_append, bag_cons, bag_nil, Option.elim_none, bag_some, Option.getD_some]
    show List.foldl _ last l.reverse = _
    rw [List.foldl_reverse]
    rfl

theorem predictedLoop_spec : ∀ (n h iPos : Nat) (ns : List α) (f : Nat → α) (hv : α),
    ns.take iPos = nodes hJ f (peaks h 0 n) → iPos ≤ ns.length →
    predictedLoop hJ ns n iPos hv = (nodes hJ f (peaks h 0 n)).foldr hJ hv := by
  intro n
  induction n using Nat.strong_induction_on with
  | _ n ih =>
    intro h iPos ns f hv htake hlen
    rw [predictedLoop.eq_def]
    by_cases hn : n = 0
    · subst hn; simp
    simp only [hn, ↓reduceIte, Nat.one_and_eq_mod_two, shiftRight_one]
    rcases Nat.mod_two_eq_zero_or_one n with hpar | hpar
    · simp only [hpar, bne_self_eq_false, Bool.false_eq_true, ↓reduceIte]
      rw [peaks_even hpar] at htake ⊢
      exact ih (n / 2) (by omega) (h + 1) iPos ns f hv htake hlen
    · -- the last unused peak is that of this height
      rw [peaks_odd hpar, nodes, List.map_append] at htake
      simp only [hpar, ne_eq, one_ne_zero, not_false_eq_true, bne_iff_ne, ↓reduceIte]
      rcases iPos with _ | iPos
      · simp at htake
      · have hlast : ns.take (iPos + 1) = ns.take iPos ++ [ns.getD iPos hv] := by
          rw [List.take_add_one, List.getD_eq_getElem?_getD, List.getElem?_eq_getElem (by omega)]
          simp
        rw [hlast] at htake
        obtain ⟨hpre, hp⟩ := List.append_inj' htake (by simp)
        simp only [List.map_cons, List.map_nil, List.cons.injEq, and_true] at hp
        dsimp only
        rw [peaks_odd hpar, nodes, List.map_append, List.foldr_append, ih (n / 2) (by omega) (h + 1) iPos ns f _ hpre
          (by omega), hp]
        rfl

/-- **`get_PredictedHash` is the root after the append.** -/
theorem getPredictedHash_eq {f f' : Nat → α} {c : CompactMmr α} (hc : Peaks hJ f c) {hv : α}
    (hf' : ∀ i < c.count, f' i = f i) (hnew : f' c.count = hv) :
    some (getPredictedHash hJ c hv) = root hJ f' (c.count + 1) := by
  rw [getPredictedHash, predictedLoop_spec c.count 0 c.vNodes.length c.vNodes f hv (by rw [List.take_length, hc])
    le_rfl, root_succ, hnew, nodes, nodes_peaks_congr (g := f') fun i hi => (hf' i (by omega)).symm]

theorem appendLoop_spec : ∀ (n h : Nat) (f : Nat → α),
    (appendLoop hJ n (nodes hJ f (peaks h 0 n)) (node hJ f h n)).1 ++
        [(appendLoop hJ n (nodes hJ f (peaks h 0 n)) (node hJ f h n)).2] =
      nodes hJ f (peaks h 0 (n + 1)) := by
  intro n
  induction n using Nat.strong_induction_on with
  | _ n ih =>
    intro h f
    rw [appendLoop]
    simp only [Nat.one_and_eq_mod_two]
    rcases Nat.mod_two_eq_zero_or_one n with hpar | hpar
    · -- the new tree stays a peak of its own
      simp only [hpar, ↓reduceIte]
      rw [peaks_odd (show (n + 1) % 2 = 1 by omega), peaks_even hpar, show (n + 1) / 2 = n / 2 by omega,
        show 0 + (n + 1) - 1 = n by omega]
      simp [nodes]
    · -- it merges with the last peak, one height up
      have hne : n % 2 ≠ 0 := by omega
      simp only [hne, ↓reduceIte]
      rw [peaks_odd hpar]
      simp only [nodes, List.map_append, List.map_cons, List.map_nil, Nat.zero_div, shiftRight_one,
        List.getLast?_concat, List.dropLast_concat]
      have hmerge : interpret hJ (node hJ f h n) (node hJ f h (0 + n - 1)) false = node hJ f (h + 1) (n / 2) := by
        rw [node_succ, show 2 * (n / 2) = 0 + n - 1 by omega, show 0 + n - 1 + 1 = n by omega]
        rfl
      rw [hmerge, ← nodes, ih (n / 2) (by omega) (h + 1) f, peaks_even (show (n + 1) % 2 = 0 by omega),
        show (n + 1) / 2 = n / 2 + 1 by omega]

/-- **`Append` keeps the peaks.** -/
theorem append_peaks {f f' : Nat → α} {c : CompactMmr α} (hc : Peaks hJ f c) {hv : α}
    (hf' : ∀ i < c.count, f' i = f i) (hnew : f' c.count = hv) :
    Peaks hJ f' (append hJ c hv) := by
  have hc' : c.vNodes = nodes hJ f' (peaks 0 0 c.count) := by
    rw [hc, nodes, nodes_peaks_congr (g := f') fun i hi => (hf' i (by omega)).symm]
  have hv' : hv = node hJ f' 0 c.count := by rw [node_zero, hnew]
  unfold Peaks append
  rw [hc', hv']
  exact appendLoop_spec c.count 0 f'

end CompactMmr

end Beam.Merkle
