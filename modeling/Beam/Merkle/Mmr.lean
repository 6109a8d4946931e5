import Beam.Lib.MountainRange
import Mathlib.Data.Nat.Bitwise

/-!
# `Merkle::Mmr`

`src/core/merkle.cpp`.  `Mmr` keeps `m_Count` and reaches its hashes through
the virtual `LoadElement` and `SaveElement` at a position `(H, X)`: the tree of
height `H` over the leaves `X * 2 ^ H ..< (X + 1) * 2 ^ H`.  The classes that
implement them keep state of their own (a table, a stack of visited nodes), so
a `Store` threads a state `σ` through every load and save.

Each loop of the source walks the heights from `0` up, shifting its counters
right by one at each step; each is a function here, by well-founded recursion
on the counter that reaches `0`.

* `Replace` / `Append` write the new leaf and every tree it completes;
* `get_HashForRange` bags the peaks of a range, `get_Hash` those of all leaves;
* `get_PredictedHash` bags the peaks onto a hash as if it were appended;
* `get_ProofInternal` hands the sibling of each ancestor of a leaf to a proof
  builder; `Interpret` climbs back up from the leaf.

What they compute, for a store whose loads give the trees of
`MountainRange.node` at the full positions, is proved in `Merkle.MmrSpec`.
-/

namespace Beam.Merkle

variable {σ β α : Type} (hJ : α → α → α)

/-- `Merkle::Interpret(hOld, hNew, bNewOnRight)`: `Interpret(out, hLeft, hRight)`
is `hJ`. -/
def interpret (hOld hNew : α) (bNewOnRight : Bool) : α :=
  if bNewOnRight then hJ hOld hNew else hJ hNew hOld

/-- `Merkle::Interpret(hash, Node)`: a `Node` is the sibling's hash with
`first` set when the sibling is on the right. -/
def interpretNode (hash : α) (n : Bool × α) : α :=
  interpret hJ hash n.2 n.1

/-- `Merkle::Interpret(hash, Proof)`. -/
def interpretProof (hash : α) (p : List (Bool × α)) : α :=
  p.foldl (interpretNode hJ) hash

/-- `LoadElement` and `SaveElement` of a class derived from `Mmr`, over its
state `σ`; a load may change the state too (a cache, a cursor). -/
structure Store (σ α : Type) where
  load : Nat → Nat → σ → α × σ
  save : Nat → Nat → α → σ → σ

/-! ## Bits -/

section Bits

theorem shiftRight_one (n : Nat) : n >>> 1 = n / 2 := by
  rw [Nat.shiftRight_eq_div_pow, Nat.pow_one]

theorem xor_one_of_mod_two_eq_zero {x : Nat} (h : x % 2 = 0) : x ^^^ 1 = x + 1 :=
  Nat.xor_one_of_even (Nat.even_iff.mpr h)

theorem xor_one_of_mod_two_eq_one {x : Nat} (h : x % 2 = 1) : x ^^^ 1 = x - 1 :=
  Nat.xor_one_of_odd (Nat.odd_iff.mpr h)

theorem xor_one_shiftRight (x : Nat) : (x ^^^ 1) >>> 1 = x >>> 1 := by
  rw [shiftRight_one, shiftRight_one]
  rcases Nat.mod_two_eq_zero_or_one x with h | h
  · rw [xor_one_of_mod_two_eq_zero h]; omega
  · rw [xor_one_of_mod_two_eq_one h]; omega

end Bits

/-! ## The loops -/

section Loops

variable (st : Store σ α)

/-- The loop of `Mmr::Replace` at height `h`: `x` is `pos.X` and `n` the
count of trees of that height.  It saves the hash, and while the sibling
`x ^ 1` exists, hashes the sibling in on its side and goes one height up. -/
def replaceLoop (h x n : Nat) (hv1 : α) (s : σ) : σ :=
  let s := st.save h x hv1 s
  let x := x ^^^ 1
  if n ≤ x then s
  else
    let (hv0, s) := st.load h x s
    replaceLoop (h + 1) (x >>> 1) (n >>> 1) (interpret hJ hv1 hv0 (x &&& 1 != 0)) s
termination_by n
decreasing_by rw [shiftRight_one]; omega

/-- `Mmr::Replace(n, hv)`, with `count` the current `m_Count`. -/
def replace (count n : Nat) (hv : α) (s : σ) : σ :=
  replaceLoop hJ st 0 n count hv s

/-- `Mmr::Append`: the new `m_Count`, and the state after `Replace` of the new
last leaf. -/
def append (count : Nat) (hv : α) (s : σ) : Nat × σ :=
  (count + 1, replace hJ st (count + 1) count hv s)

/-- The loop of `Mmr::get_PredictedHash` at height `h`, `x` the count of trees
of that height: each peak is hashed in on the left. -/
def predictedLoop (h x : Nat) (hv : α) (s : σ) : α × σ :=
  if x = 0 then (hv, s)
  else if 1 &&& x != 0 then
    let x := x ^^^ 1
    let (hv0, s) := st.load h x s
    predictedLoop (h + 1) (x >>> 1) (interpret hJ hv hv0 false) s
  else predictedLoop (h + 1) (x >>> 1) hv s
termination_by x
decreasing_by
  · rw [xor_one_shiftRight, shiftRight_one]; omega
  · rw [shiftRight_one]; omega

/-- `Mmr::get_PredictedHash`: the root after appending `hvAppend`. -/
def getPredictedHash (count : Nat) (hvAppend : α) (s : σ) : α × σ :=
  predictedLoop hJ st 0 count hvAppend s

/-- The loop of `Mmr::get_HashForRange` at height `h`, with `n0` and `n` the
start and the count of the range in trees of that height; `none` while
`bEmpty`. -/
def hashForRangeLoop (h n0 n : Nat) (hv : Option α) (s : σ) : Option α × σ :=
  if n = 0 then (hv, s)
  else
    let (hv, s) :=
      if 1 &&& n != 0 then
        let (hv0, s) := st.load h ((n0 + n) ^^^ 1) s
        (some (match hv with
          | none => hv0
          | some hv => interpret hJ hv hv0 false), s)
      else (hv, s)
    hashForRangeLoop (h + 1) (n0 >>> 1) (n >>> 1) hv s
termination_by n
decreasing_by rw [shiftRight_one]; omega

/-- `Mmr::get_HashForRange(hv, n0, n)`: `none` when it returns `false`. -/
def getHashForRange (n0 n : Nat) (s : σ) : Option α × σ :=
  hashForRangeLoop hJ st 0 n0 n none s

/-- `Mmr::get_Hash`: `Zero` when there are no leaves. -/
def getHash (zero : α) (count : Nat) (s : σ) : α × σ :=
  let (hv, s) := getHashForRange hJ st 0 count s
  (hv.getD zero, s)

/-- The sibling's hash at height `h` in `Mmr::get_ProofInternal` once it is
known not to start past `m_Count`: loaded when it is full, which it always is on
the left (`first` unset), and otherwise hashed from its leaves, which are never
none there (`BEAM_VERIFY`). -/
def proofSibling [Inhabited α] (count h x : Nat) (first : Bool) (s : σ) : α × σ :=
  if !first ∨ (count - x <<< h) >>> h != 0 then st.load h x s
  else
    let (hv, s) := getHashForRange hJ st (x <<< h) (count - x <<< h) s
    (hv.getD default, s)

/-- The loop of `Mmr::get_ProofInternal` with `bIgnoreHashes` unset, at height
`h`, with `n` the count and `i` the leaf's ancestor at that height.  The sibling
`i ^ 1` is on the right when `first`; there it is skipped when it starts past
`m_Count`.  `appendNode` is `IProofBuilder::AppendNode`, which stops the proof
when it returns `false` (`none` here). -/
def proofLoop [Inhabited α] (count : Nat) (appendNode : β → Bool × α → Nat → Nat → Option β)
    (h n i : Nat) (b : β) (s : σ) : Option β × σ :=
  if n = 0 then (some b, s)
  else
    let first := !(i &&& 1 != 0)
    let x := i ^^^ 1
    -- `continue`: on to the next height without a node
    if first ∧ count ≤ x <<< h then proofLoop count appendNode (h + 1) (n >>> 1) (i >>> 1) b s
    else
      let (hv, s) := proofSibling hJ st count h x first s
      match appendNode b (first, hv) h x with
      | none => (none, s)
      | some b => proofLoop count appendNode (h + 1) (n >>> 1) (i >>> 1) b s
termination_by n
decreasing_by all_goals rw [shiftRight_one]; omega

/-- `ProofBuilderStd::AppendNode`: the node is pushed on the proof. -/
def proofBuilderStd (p : List (Bool × α)) (n : Bool × α) (_h _x : Nat) : Option (List (Bool × α)) :=
  some (p ++ [n])

/-- `Mmr::get_Proof(Proof&, i)`: `get_Proof` into a `ProofBuilderStd`. -/
def getProof [Inhabited α] (count i : Nat) (s : σ) : List (Bool × α) × σ :=
  let (p, s) := proofLoop hJ st count proofBuilderStd 0 count i [] s
  (p.getD [], s)

end Loops

end Beam.Merkle
