import Beam.Lib.SortedMerge
import Mathlib.Data.Prod.Lex

/-!
# Cut-through: `NormalizeP` and `Combine`

`TxVectors::Perishable::NormalizeP` (`core/block_crypt.cpp`) sorts the inputs and the
outputs of a transaction and removes each input together with an output of the same
commitment.  `TxBase::IWriter::Combine` (`core/block_rw.cpp`) does the same on the fly,
while it merges the sorted inputs, outputs and kernels of several readers.

The elements are modelled by what the comparisons read.  An input is compared by its
commitment `ci` (`TxElement::cmp`); an output by its commitment `co` and then by the
fields that `Output::cmp` reads after it, `ro` (`outKey`); a kernel by the key `kk` of
`TxKernel::cmp`.  An input meets an output through `TxBase::CmpInOut`, which compares the
two commitments.

`normalizeP` is the loop of `NormalizeP` after the two sorts, with `advance` its inner
loop; `normalizeP_eq_cancel` says it computes `SortedMerge.cancel`, whose laws give the
multiset description of the result.  `combineUtxo` is the first loop of `Combine`;
`combineUtxo_eq_cancel` says it is `cancel` applied to the k-way merges of the readers'
inputs and outputs, and the second loop is `SortedMerge.kMerge` of the kernels.
-/

namespace Beam.CutThrough

open SortedMerge

variable {I O Kr C R KK : Type*} [LinearOrder C] [LinearOrder R] [LinearOrder KK]

/-! ## Keys -/

section Keys

variable (co : O → C) (ro : O → R)

/-- The key `Output::cmp` compares: the commitment first, then `m_Coinbase`,
`m_RecoveryOnly`, `m_Incubation`, `m_pConfidential` and `m_pPublic`, here `ro`. -/
def outKey (o : O) : C ×ₗ R :=
  toLex (co o, ro o)

variable {co ro}

theorem co_le_of_outKey_le {a b : O} (h : outKey co ro a ≤ outKey co ro b) : co a ≤ co b :=
  Prod.Lex.monotone_fst _ _ h

omit [LinearOrder C] [LinearOrder R] in
theorem co_eq_of_outKey_eq {a b : O} (h : outKey co ro a = outKey co ro b) : co a = co b :=
  congrArg (fun k => (ofLex k).1) h

end Keys

/-! ## `NormalizeP` -/

section NormalizeP

variable (ci : I → C) (co : O → C)

/-- The inner loop of `NormalizeP`, `for (; i1 < m_vOutputs.size(); i1++)`, for the input
`x`: the outputs the cursor steps over, whether it stops at an output of `x`'s commitment
(the two are then reset and `i1` moves past it), and the outputs from the cursor on. -/
def advance (x : I) : List O → List O × Bool × List O
  | [] => ([], false, [])
  | o :: os =>
    match compare (ci x) (co o) with
    | .gt => let r := advance x os; (o :: r.1, r.2)
    | .eq => ([], true, os)
    | .lt => ([], false, o :: os)

/-- `NormalizeP` from the point where both vectors are sorted: the loop over the inputs,
the output cursor `i1` carried from one input to the next, then
`RebuildVectorWithoutNulls`.  Returns the inputs and the outputs that were not reset, in
order, and `nDel`. -/
def normalizeP : List I → List O → List I × List O × Nat
  | [], os => ([], os, 0)
  | x :: xs, os =>
    let a := advance ci co x os
    let r := normalizeP xs a.2.2
    if a.2.1 then (r.1, a.1 ++ r.2.1, r.2.2 + 1) else (x :: r.1, a.1 ++ r.2.1, r.2.2)

example : normalizeP id Prod.fst [1, 2, 2] [(2, 0), (2, 1), (3, 0)] = ([1], [(3, 0)], 2) := by
  decide

variable {ci co}

theorem normalizeP_cons_of_lt {x : I} {o : O} (xs : List I) (os : List O) (h : ci x < co o) :
    normalizeP ci co (x :: xs) (o :: os) =
      (x :: (normalizeP ci co xs (o :: os)).1, (normalizeP ci co xs (o :: os)).2) := by
  simp [normalizeP, advance, compare_lt_iff_lt.2 h]

theorem normalizeP_cons_of_eq {x : I} {o : O} (xs : List I) (os : List O) (h : ci x = co o) :
    normalizeP ci co (x :: xs) (o :: os) =
      ((normalizeP ci co xs os).1, (normalizeP ci co xs os).2.1,
        (normalizeP ci co xs os).2.2 + 1) := by
  simp [normalizeP, advance, compare_eq_iff_eq.2 h]

/-- An output below the input is stepped over and kept, and the input goes on with the
next output. -/
theorem normalizeP_cons_of_gt {x : I} {o : O} (xs : List I) (os : List O) (h : co o < ci x) :
    normalizeP ci co (x :: xs) (o :: os) =
      ((normalizeP ci co (x :: xs) os).1, o :: (normalizeP ci co (x :: xs) os).2.1,
        (normalizeP ci co (x :: xs) os).2.2) := by
  simp only [normalizeP, advance, compare_gt_iff_gt.2 h]
  split <;> rfl

/-- The loop of `NormalizeP` is the two-stream cancellation. -/
theorem normalizeP_eq_cancel (xs : List I) (os : List O) :
    normalizeP ci co xs os = cancel ci co xs os := by
  induction xs generalizing os with
  | nil => simp [normalizeP]
  | cons x xs ih =>
    -- the input `x` stays while the cursor runs over the outputs below it
    induction os with
    | nil => simp [normalizeP, advance, ih]
    | cons o os ih' =>
      rcases lt_trichotomy (ci x) (co o) with hlt | heq | hgt
      · rw [normalizeP_cons_of_lt _ _ hlt, cancel_of_lt _ _ hlt, ih]
      · rw [normalizeP_cons_of_eq _ _ heq, cancel_of_eq _ _ heq, ih]
      · rw [normalizeP_cons_of_gt _ _ hgt, cancel_of_gt _ _ hgt, ih']

variable (ci co) (ro : O → R)

/-- What cut-through must leave of the inputs `ins` and the outputs `outs`: `r` holds the
inputs and the outputs left, each sorted, and the number of pairs removed, which is the
size of the multiset intersection of the commitments; the commitments left on each side
are the multiset difference, and none is left on both sides. -/
structure IsCutThrough (ins : List I) (outs : List O) (r : List I × List O × Nat) : Prop where
  sorted_ins : SortedBy ci r.1
  sorted_outs : SortedBy (outKey co ro) r.2.1
  count_eq : r.2.2 =
    Multiset.card (((ins.map ci : List C) : Multiset C) ∩ ((outs.map co : List C) : Multiset C))
  ins_eq : ((r.1.map ci : List C) : Multiset C) =
    ((ins.map ci : List C) : Multiset C) - ((outs.map co : List C) : Multiset C)
  outs_eq : ((r.2.1.map co : List C) : Multiset C) =
    ((outs.map co : List C) : Multiset C) - ((ins.map ci : List C) : Multiset C)
  disjoint : ∀ c ∈ r.1.map ci, c ∉ r.2.1.map co

variable {ci co}

/-- `NormalizeP` does cut-through, whatever order the two `std::sort`s leave among elements
that compare equal: `ins'` and `outs'` are the vectors after the sorts. -/
theorem normalizeP_cut_through (ins ins' : List I) (outs outs' : List O)
    (hi : ins'.Perm ins) (hsi : SortedBy ci ins') (ho : outs'.Perm outs)
    (hso : SortedBy (outKey co ro) outs') :
    IsCutThrough ci co ro ins outs (normalizeP ci co ins' outs') := by
  have hco : SortedBy co outs' := hso.coarsen fun _ _ => co_le_of_outKey_le
  have hmi : ((ins'.map ci : List C) : Multiset C) = ((ins.map ci : List C) : Multiset C) :=
    Multiset.coe_eq_coe.2 (hi.map ci)
  have hmo : ((outs'.map co : List C) : Multiset C) = ((outs.map co : List C) : Multiset C) :=
    Multiset.coe_eq_coe.2 (ho.map co)
  rw [normalizeP_eq_cancel]
  refine ⟨hsi.sublist (cancel_sublist_left _ _), hso.sublist (cancel_sublist_right _ _), ?_, ?_, ?_,
    fun c hc => cancel_keys_disjoint hsi hco hc⟩
  · rw [← hmi, ← hmo]
    exact cancel_count hsi hco
  · rw [← hmi, ← hmo]
    exact cancel_keys_left hsi hco
  · rw [← hmi, ← hmo]
    exact cancel_keys_right hsi hco

theorem normalizeP_cut_through_duplicates :
    IsCutThrough id Prod.fst Prod.snd [2, 1, 2] [((2 : ℕ), (1 : ℕ)), (2, 0), (3, 0)]
      (normalizeP id Prod.fst [1, 2, 2] [(2, 0), (2, 1), (3, 0)]) :=
  normalizeP_cut_through Prod.snd _ _ _ _ (by decide) (by decide) (by decide) (by decide)

end NormalizeP

/-! ## `Combine` -/

section Combine

variable (ci : I → C) (co : O → C) (ro : O → R) (kk : Kr → KK)

/-- What an `IReader` walks: the sorted inputs, outputs and kernels of one transaction. -/
structure Reader (I O Kr : Type*) where
  ins : List I
  outs : List O
  kernels : List Kr

/-- The first loop of `Combine`.  It takes the least input and the least output over the
readers (`m_pUtxoIn`, `m_pUtxoOut`; the earliest reader on ties).  When `CmpInOut` finds
their commitments equal both are skipped; otherwise the smaller one is written and its
reader advanced. -/
def combineUtxo (ss : List (List I)) (ts : List (List O)) : List I × List O :=
  match _hI : minHead ci ss, _hO : minHead (outKey co ro) ts with
  | none, none => ([], [])
  | some (i, x), none => let r := combineUtxo (ss.modify i List.tail) ts; (x :: r.1, r.2)
  | none, some (j, y) => let r := combineUtxo ss (ts.modify j List.tail); (r.1, y :: r.2)
  | some (i, x), some (j, y) =>
    match compare (ci x) (co y) with
    | .gt => let r := combineUtxo ss (ts.modify j List.tail); (r.1, y :: r.2)
    | .eq => combineUtxo (ss.modify i List.tail) (ts.modify j List.tail)
    | .lt => let r := combineUtxo (ss.modify i List.tail) ts; (x :: r.1, r.2)
termination_by ss.flatten.length + ts.flatten.length
decreasing_by
  · have := minHead_length_lt _hI
    omega
  · have := minHead_length_lt _hO
    omega
  · have := minHead_length_lt _hO
    omega
  · have := minHead_length_lt _hI
    have := minHead_length_lt _hO
    omega
  · have := minHead_length_lt _hI
    omega

/-- `TxBase::IWriter::Combine` with `bStop` never set: after `Reset`, the loop over the
inputs and outputs, then the loop over the kernels, which takes the least kernel over the
readers again and again.  Returns what was written: inputs, outputs and kernels. -/
def combine (rs : List (Reader I O Kr)) : List I × List O × List Kr :=
  let u := combineUtxo ci co ro (rs.map Reader.ins) (rs.map Reader.outs)
  (u.1, u.2, kMerge kk (rs.map Reader.kernels))

variable {ci co ro}

/-- The first loop of `Combine` cancels the k-way merge of the inputs against the k-way
merge of the outputs. -/
theorem combineUtxo_eq_cancel (ss : List (List I)) (ts : List (List O)) :
    combineUtxo ci co ro ss ts =
      ((cancel ci co (kMerge ci ss) (kMerge (outKey co ro) ts)).1,
        (cancel ci co (kMerge ci ss) (kMerge (outKey co ro) ts)).2.1) := by
  fun_induction combineUtxo ci co ro ss ts with
  | case1 ss ts hI hO =>
    rw [kMerge_of_none hI, kMerge_of_none hO, cancel_nil_left]
  | case2 ss ts i x hI hO r ih =>
    dsimp only [r]
    rw [ih, kMerge_of_some hI, kMerge_of_none hO, cancel_nil_right, cancel_nil_right]
  | case3 ss ts j y hI hO r ih =>
    dsimp only [r]
    rw [ih, kMerge_of_none hI, kMerge_of_some hO, cancel_nil_left, cancel_nil_left]
  | case4 ss ts i x j y hI hO hc r ih =>
    dsimp only [r]
    rw [ih, kMerge_of_some hI, kMerge_of_some hO, cancel_of_gt _ _ (compare_gt_iff_gt.1 hc)]
  | case5 ss ts i x j y hI hO hc ih =>
    rw [ih, kMerge_of_some hI, kMerge_of_some hO, cancel_of_eq _ _ (compare_eq_iff_eq.1 hc)]
  | case6 ss ts i x j y hI hO hc r ih =>
    dsimp only [r]
    rw [ih, kMerge_of_some hI, kMerge_of_some hO, cancel_of_lt _ _ (compare_lt_iff_lt.1 hc)]

variable {kk}

/-- `Combine` on sorted readers writes what `Normalize` leaves of the readers laid end to
end, up to elements that compare equal: `ins`, `outs` and `kernels` are the vectors after
the sorts of `NormalizeP` and `NormalizeE`, in whatever order those leave equal elements. -/
theorem combine_eq_normalize (rs : List (Reader I O Kr))
    (hrs : ∀ r ∈ rs, SortedBy ci r.ins ∧ SortedBy (outKey co ro) r.outs ∧ SortedBy kk r.kernels)
    (ins : List I) (outs : List O) (kernels : List Kr)
    (hi : ins.Perm (rs.map Reader.ins).flatten) (hsi : SortedBy ci ins)
    (ho : outs.Perm (rs.map Reader.outs).flatten) (hso : SortedBy (outKey co ro) outs)
    (hk : kernels.Perm (rs.map Reader.kernels).flatten) (hsk : SortedBy kk kernels) :
    List.Forall₂ (fun a b => ci a = ci b)
        (combine ci co ro kk rs).1 (normalizeP ci co ins outs).1 ∧
      List.Forall₂ (fun a b => outKey co ro a = outKey co ro b)
        (combine ci co ro kk rs).2.1 (normalizeP ci co ins outs).2.1 ∧
      List.Forall₂ (fun a b => kk a = kk b) (combine ci co ro kk rs).2.2 kernels := by
  -- the k-way merges are sorted permutations of the concatenations, as the sorted vectors are
  have hmi : SortedBy ci (kMerge ci (rs.map Reader.ins)) :=
    kMerge_sortedBy _ (List.forall_mem_map.2 fun r hr => (hrs r hr).1)
  have hmo : SortedBy (outKey co ro) (kMerge (outKey co ro) (rs.map Reader.outs)) :=
    kMerge_sortedBy _ (List.forall_mem_map.2 fun r hr => (hrs r hr).2.1)
  have hmk : SortedBy kk (kMerge kk (rs.map Reader.kernels)) :=
    kMerge_sortedBy _ (List.forall_mem_map.2 fun r hr => (hrs r hr).2.2)
  have hki := hmi.map_eq_of_perm hsi ((kMerge_perm _).trans hi.symm)
  have hko := hmo.map_eq_of_perm hso ((kMerge_perm _).trans ho.symm)
  have hkk := hmk.map_eq_of_perm hsk ((kMerge_perm _).trans hk.symm)
  obtain ⟨h1, h2, -⟩ := cancel_congr (fun a a' (h : ci a = ci a') => h)
    (fun b b' (h : outKey co ro b = outKey co ro b') => co_eq_of_outKey_eq h) _ _
    (forall₂_key_iff.2 hki) (forall₂_key_iff.2 hko)
  rw [combine, combineUtxo_eq_cancel, normalizeP_eq_cancel]
  exact ⟨h1, h2, forall₂_key_iff.2 hkk⟩

theorem combine_eq_normalize_two_readers :
    let rs : List (Reader ℕ (ℕ × ℕ) ℕ) := [⟨[1], [(1, 0)], [5]⟩, ⟨[2], [(3, 0)], [4]⟩]
    List.Forall₂ (fun a b => id a = id b)
        (combine id Prod.fst Prod.snd id rs).1 (normalizeP id Prod.fst [1, 2] [(1, 0), (3, 0)]).1 ∧
      List.Forall₂ (fun a b => outKey Prod.fst Prod.snd a = outKey Prod.fst Prod.snd b)
        (combine id Prod.fst Prod.snd id rs).2.1
        (normalizeP id Prod.fst [1, 2] [(1, 0), (3, 0)]).2.1 ∧
      List.Forall₂ (fun a b => id a = id b) (combine id Prod.fst Prod.snd id rs).2.2 [4, 5] :=
  combine_eq_normalize _ (by decide) _ _ _ (by decide) (by decide) (by decide) (by decide)
    (by decide) (by decide)

end Combine

end Beam.CutThrough
