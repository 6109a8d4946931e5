import Beam.Core.CutThrough

/-!
# The cover test `TxBase::IReader::Compare`

`Compare(rOther, bICover, bOtherCovers)` (`core/block_crypt.cpp`) walks the
inputs, then the outputs, then the kernels of two readers side by side with the
macro `COMPARE_TYPE`.  The head of smaller `cmp` is one the other reader lacks,
and clears the flag of the reader that does not hold it; two heads that compare
equal are both passed.  Both flags start `true` and are only ever cleared, so
they carry over from one kind of element to the next.

The loop is the two-stream cancellation of `SortedMerge` with the elements
dropped (`compareType_eq_cancel`): a flag stays set exactly when the
cancellation keeps nothing of the other side.  On sorted readers, as
`Normalize` leaves them, `bICover` says that the other's elements form a
sub-multiset of this one's, up to elements that compare equal, and
`bOtherCovers` the converse (`compare_covers`).

`Node::OnTransactionStem` reads the two flags of a stem transaction against a
new one that shares a kernel with it: the new one is dropped when it does not
cover the old one, is a duplicate when both cover each other, and replaces the
old one otherwise (`stemMatch`).
-/

namespace Beam.CutThrough

open SortedMerge

variable {α I O Kr C R KK K : Type*} [LinearOrder C] [LinearOrder R] [LinearOrder KK] [LinearOrder K]

/-! ## One kind of element -/

section CompareType

variable (k : α → K)

/-- `COMPARE_TYPE(var, fnNext)` on what is left of this reader's elements and the
other's, with the flags `(bICover, bOtherCovers)` as they stand.  When this reader
runs out, the other's elements left clear `bICover`; when the other runs out
first, `bOtherCovers` is cleared and the loop breaks. -/
def compareType : List α → List α → Bool × Bool → Bool × Bool
  | [], other, (bICover, bOtherCovers) => (bICover && other.isEmpty, bOtherCovers)
  | _ :: _, [], (bICover, _) => (bICover, false)
  | a :: as, b :: bs, (bICover, bOtherCovers) =>
    match compare (k a) (k b) with
    | .lt => compareType as (b :: bs) (bICover, false)
    | .gt => compareType (a :: as) bs (false, bOtherCovers)
    | .eq => compareType as bs (bICover, bOtherCovers)
termination_by as bs => as.length + bs.length

variable {k}

/-- The loop clears each flag exactly when the cancellation of the two lists keeps
something of the side that flag is about. -/
theorem compareType_eq_cancel (as bs : List α) (flags : Bool × Bool) :
    compareType k as bs flags =
      (flags.1 && (cancel k k as bs).2.1.isEmpty, flags.2 && (cancel k k as bs).1.isEmpty) := by
  fun_induction compareType k as bs flags with
  | case1 other bICover bOtherCovers => simp
  | case2 a as bICover _ => simp
  | case3 a as b bs bICover bOtherCovers hc ih =>
    rw [ih, cancel_of_lt _ _ (compare_lt_iff_lt.1 hc)]
    simp
  | case4 a as b bs bICover bOtherCovers hc ih =>
    rw [ih, cancel_of_gt _ _ (compare_gt_iff_gt.1 hc)]
    simp
  | case5 a as b bs bICover bOtherCovers hc ih =>
    rw [ih, cancel_of_eq _ _ (compare_eq_iff_eq.1 hc)]

/-- **One kind of element, on sorted lists.**  `bICover` stays set exactly when the
other's keys are a sub-multiset of this reader's, and `bOtherCovers` exactly when
this reader's keys are a sub-multiset of the other's. -/
theorem compareType_sorted {as bs : List α} (has : SortedBy k as) (hbs : SortedBy k bs) (flags : Bool × Bool) :
    ((compareType k as bs flags).1 = true ↔
        flags.1 = true ∧ ((bs.map k : List K) : Multiset K) ≤ (as.map k : List K)) ∧
      ((compareType k as bs flags).2 = true ↔
        flags.2 = true ∧ ((as.map k : List K) : Multiset K) ≤ (bs.map k : List K)) := by
  rw [compareType_eq_cancel, ← cancel_snd_eq_nil_iff has hbs, ← cancel_fst_eq_nil_iff has hbs]
  simp [List.isEmpty_iff]

end CompareType

/-! ## `Compare` -/

section Compare

variable (ci : I → C) (co : O → C) (ro : O → R) (kk : Kr → KK)

/-- `TxBase::IReader::Compare(rOther, bICover, bOtherCovers)`: after `Reset` of both
readers, both flags set, then `COMPARE_TYPE` over the inputs (`Input::cmp`), the
outputs (`Output::cmp`) and the kernels (`TxKernel::cmp`). -/
def compareReaders (r rOther : Reader I O Kr) : Bool × Bool :=
  compareType kk r.kernels rOther.kernels
    (compareType (outKey co ro) r.outs rOther.outs (compareType ci r.ins rOther.ins (true, true)))

/-- A reader as `Normalize` leaves it: each kind of element in ascending `cmp`. -/
def Sorted (r : Reader I O Kr) : Prop :=
  SortedBy ci r.ins ∧ SortedBy (outKey co ro) r.outs ∧ SortedBy kk r.kernels

/-- `r` covers `r'`: of each kind, the elements of `r'` form a sub-multiset of those of
`r`, up to elements that compare equal. -/
def Covers (r r' : Reader I O Kr) : Prop :=
  ((r'.ins.map ci : List C) : Multiset C) ≤ (r.ins.map ci : List C) ∧
    ((r'.outs.map (outKey co ro) : List (C ×ₗ R)) : Multiset (C ×ₗ R)) ≤ (r.outs.map (outKey co ro) : List _) ∧
    ((r'.kernels.map kk : List KK) : Multiset KK) ≤ (r.kernels.map kk : List KK)

variable {ci co ro kk}

omit [LinearOrder C] [LinearOrder R] [LinearOrder KK] in
theorem covers_antisymm {r r' : Reader I O Kr} (h : Covers ci co ro kk r r') (h' : Covers ci co ro kk r' r) :
    ((r.ins.map ci : List C) : Multiset C) = (r'.ins.map ci : List C) ∧
      ((r.outs.map (outKey co ro) : List (C ×ₗ R)) : Multiset (C ×ₗ R)) = (r'.outs.map (outKey co ro) : List _) ∧
      ((r.kernels.map kk : List KK) : Multiset KK) = (r'.kernels.map kk : List KK) :=
  ⟨le_antisymm h'.1 h.1, le_antisymm h'.2.1 h.2.1, le_antisymm h'.2.2 h.2.2⟩

/-- **The cover test.**  On two sorted readers, `bICover` comes out set exactly when
this reader covers the other, `bOtherCovers` exactly when the other covers this
one; so both are set exactly when the two hold the same multisets of elements, up
to elements that compare equal. -/
theorem compare_covers {r rOther : Reader I O Kr} (hr : Sorted ci co ro kk r)
    (hother : Sorted ci co ro kk rOther) :
    ((compareReaders ci co ro kk r rOther).1 = true ↔ Covers ci co ro kk r rOther) ∧
      ((compareReaders ci co ro kk r rOther).2 = true ↔ Covers ci co ro kk rOther r) ∧
      ((compareReaders ci co ro kk r rOther).1 = true ∧ (compareReaders ci co ro kk r rOther).2 = true ↔
        ((r.ins.map ci : List C) : Multiset C) = (rOther.ins.map ci : List C) ∧
          ((r.outs.map (outKey co ro) : List (C ×ₗ R)) : Multiset (C ×ₗ R)) =
            (rOther.outs.map (outKey co ro) : List _) ∧
          ((r.kernels.map kk : List KK) : Multiset KK) = (rOther.kernels.map kk : List KK)) := by
  obtain ⟨hi, ho, hk⟩ := hr
  obtain ⟨hi', ho', hk'⟩ := hother
  -- the three loops in turn, each passing on the flags of the one before
  have h1 := compareType_sorted hi hi' (true, true)
  have h2 := compareType_sorted ho ho' (compareType ci r.ins rOther.ins (true, true))
  have h3 := compareType_sorted hk hk'
    (compareType (outKey co ro) r.outs rOther.outs (compareType ci r.ins rOther.ins (true, true)))
  have hI : (compareReaders ci co ro kk r rOther).1 = true ↔ Covers ci co ro kk r rOther := by
    rw [compareReaders, h3.1, h2.1, h1.1, Covers]
    simp only [true_and, and_assoc]
  have hO : (compareReaders ci co ro kk r rOther).2 = true ↔ Covers ci co ro kk rOther r := by
    rw [compareReaders, h3.2, h2.2, h1.2, Covers]
    simp only [true_and, and_assoc]
  refine ⟨hI, hO, ?_⟩
  rw [hI, hO]
  constructor
  · exact fun ⟨h, h'⟩ => covers_antisymm h h'
  · rintro ⟨e1, e2, e3⟩
    exact ⟨⟨e1.ge, e2.ge, e3.ge⟩, ⟨e1.le, e2.le, e3.le⟩⟩

theorem compare_covers_two_readers :
    let r : Reader Nat Nat Nat := ⟨[1, 2], [3], [5]⟩
    let rOther : Reader Nat Nat Nat := ⟨[2], [3], [5]⟩
    ((compareReaders id id (fun _ => (0 : Nat)) id r rOther).1 = true ↔
        Covers id id (fun _ => (0 : Nat)) id r rOther) ∧
      ((compareReaders id id (fun _ => (0 : Nat)) id r rOther).2 = true ↔
        Covers id id (fun _ => (0 : Nat)) id rOther r) ∧
      ((compareReaders id id (fun _ => (0 : Nat)) id r rOther).1 = true ∧
          (compareReaders id id (fun _ => (0 : Nat)) id r rOther).2 = true ↔
        ((r.ins.map id : List Nat) : Multiset Nat) = (rOther.ins.map id : List Nat) ∧
          ((r.outs.map (outKey id fun _ => (0 : Nat)) : List (Nat ×ₗ Nat)) : Multiset (Nat ×ₗ Nat)) =
            (rOther.outs.map (outKey id fun _ => (0 : Nat)) : List _) ∧
          ((r.kernels.map id : List Nat) : Multiset Nat) = (rOther.kernels.map id : List Nat)) :=
  compare_covers ⟨by decide, by decide, by decide⟩ ⟨by decide, by decide, by decide⟩

/-! ## What `OnTransactionStem` makes of the flags -/

/-- How `Node::OnTransactionStem` treats a new transaction against a stem element
found through one of its kernels. -/
inductive StemMatch where
  /-- `TxStatus::Obscured`: the new transaction does not cover the element and is
  dropped. -/
  | obscured
  /-- The exact match `pDup`. -/
  | duplicate
  /-- The element is deleted, obscured by the newer transaction. -/
  | replaced
  deriving DecidableEq, Repr

/-- The branch taken on `(bElemCovers, bNewCovers)`, the flags of the element's
reader compared with the new transaction's. -/
def stemMatch (flags : Bool × Bool) : StemMatch :=
  if !flags.2 then .obscured else if flags.1 then .duplicate else .replaced

/-- On sorted transactions the stem decision is the order of covering: the new
transaction is dropped unless it covers the element, is a duplicate when the two
cover each other, and replaces the element when it covers it strictly. -/
theorem stemMatch_compareReaders {elem tx : Reader I O Kr} (helem : Sorted ci co ro kk elem)
    (htx : Sorted ci co ro kk tx) :
    (stemMatch (compareReaders ci co ro kk elem tx) = .obscured ↔ ¬Covers ci co ro kk tx elem) ∧
      (stemMatch (compareReaders ci co ro kk elem tx) = .duplicate ↔
        Covers ci co ro kk tx elem ∧ Covers ci co ro kk elem tx) ∧
      (stemMatch (compareReaders ci co ro kk elem tx) = .replaced ↔
        Covers ci co ro kk tx elem ∧ ¬Covers ci co ro kk elem tx) := by
  obtain ⟨hI, hO, -⟩ := compare_covers helem htx
  rw [← hI, ← hO]
  unfold stemMatch
  cases (compareReaders ci co ro kk elem tx).1 <;> cases (compareReaders ci co ro kk elem tx).2 <;> decide

/-- A stem element with one input fewer than the new transaction, which covers it
strictly. -/
theorem stemMatch_compareReaders_strict :
    let elem : Reader Nat Nat Nat := ⟨[2], [3], [5]⟩
    let tx : Reader Nat Nat Nat := ⟨[1, 2], [3], [5]⟩
    (stemMatch (compareReaders id id (fun _ => (0 : Nat)) id elem tx) = .obscured ↔
        ¬Covers id id (fun _ => (0 : Nat)) id tx elem) ∧
      (stemMatch (compareReaders id id (fun _ => (0 : Nat)) id elem tx) = .duplicate ↔
        Covers id id (fun _ => (0 : Nat)) id tx elem ∧ Covers id id (fun _ => (0 : Nat)) id elem tx) ∧
      (stemMatch (compareReaders id id (fun _ => (0 : Nat)) id elem tx) = .replaced ↔
        Covers id id (fun _ => (0 : Nat)) id tx elem ∧ ¬Covers id id (fun _ => (0 : Nat)) id elem tx) :=
  stemMatch_compareReaders ⟨by decide, by decide, by decide⟩ ⟨by decide, by decide, by decide⟩

end Compare

end Beam.CutThrough
