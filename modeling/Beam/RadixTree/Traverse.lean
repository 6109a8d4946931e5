import Beam.RadixTree.Split

/-!
# `Traverse` and `Count`

`RadixTree::Traverse` walks the tree left to right and calls `ITraveler::OnLeaf`
on each leaf until it returns `false`.  The traveler may carry a lower bound
`m_pBound[0]` and an upper bound `m_pBound[1]`: a node whose key bits so far are
below the lower bound or above the upper one is skipped, and a bound is dropped
as soon as the path leaves it behind.  The traveler's cursor `m_pCu` is
maintained along the walk, so `OnLeaf` sees the cursor on its leaf.

The model passes the traveler's state explicitly: `onLeaf` gets the state, the
cursor and the leaf, and returns whether to go on with the new state.  The
bounds are saved and restored around the children of a joint by the source, so
here they are passed by value.

* `traverseNode_count`, `count_eq_length`: `Count` is the number of keys.
-/

namespace Beam.RadixTree

open BitString Node

variable {α H σ : Type}

/-- `ITraveler::m_pBound`: the optional lower and upper bound. -/
structure Bounds where
  lo : Option Key
  hi : Option Key

/-- `RadixTree::Cmp`: the bits `[n0, n0 + dn)` of `pKey` against those of `pThreshold`. -/
def cmp (pKey pThreshold : Key) : Nat → Nat → Ordering
  | _, 0 => .eq
  | n0, dn + 1 =>
    match bit pKey n0, bit pThreshold n0 with
    | false, true => .lt
    | true, false => .gt
    | _, _ => cmp pKey pThreshold (n0 + 1) dn

/-- `RadixTree::Cmp1`: the child index `n` against bit `n0` of `pThreshold`. -/
def cmp1 (n : Bool) (pThreshold : Key) (n0 : Nat) : Ordering :=
  match n, bit pThreshold n0 with
  | false, true => .lt
  | true, false => .gt
  | _, _ => .eq

/-- One bound in the loops of `Traverse`: when `(nCmp < 0) == !iBound` the node
is skipped (`none`); any other nonzero comparison drops the bound (`pB = NULL`),
and an equal prefix keeps it. -/
def passBound (upper : Bool) (c : Key → Ordering) : Option Key → Option (Option Key)
  | none => some none
  | some pB =>
    match c pB with
    | .eq => some (some pB)
    | .lt => if upper then some none else none
    | .gt => if upper then none else some none

/-- The loop over `m_pBound[0]` and `m_pBound[1]`, in that order. -/
def passBounds (c : Key → Ordering) (bd : Bounds) : Option Bounds :=
  match passBound false c bd.lo with
  | none => none
  | some lo =>
    match passBound true c bd.hi with
    | none => none
    | some hi => some ⟨lo, hi⟩

/-- The bounds against the bits a node compresses, entered with `m_nBits = nb`. -/
def enterNode (n : Node α H) (nb : Nat) (bd : Bounds) : Option Bounds :=
  if n.getBits = 0 then some bd else passBounds (cmp n.getNodeKey · nb n.getBits) bd

/-- `RadixTree::Traverse(const Node&, ITraveler&)` from a node reached along the
cursor path `pp` and entered with `m_nBits = nb`: whether the walk goes on, and
the traveler's state. -/
def traverseNode (onLeaf : σ → CursorBase → Key → α → Bool × σ) :
    Node α H → List Bool → Nat → Bounds → σ → Bool × σ
  | leaf b c k v, pp, nb, bd, s =>
    match enterNode (leaf b c k v : Node α H) nb bd with
    | none => (true, s)
    | some _ => onLeaf s ⟨some pp, nb + b, 0⟩ k v
  | joint b c kp h c0 c1, pp, nb, bd, s =>
    match enterNode (joint b c kp h c0 c1) nb bd with
    | none => (true, s)
    | some bd =>
      -- the two children, each with the bounds as they stood after the node itself
      let r0 :=
        match passBounds (cmp1 false · (nb + b)) bd with
        | none => (true, s)
        | some bd0 => traverseNode onLeaf c0 (pp ++ [false]) (nb + b + 1) bd0 s
      if r0.1 then
        match passBounds (cmp1 true · (nb + b)) bd with
        | none => (true, r0.2)
        | some bd1 => traverseNode onLeaf c1 (pp ++ [true]) (nb + b + 1) bd1 r0.2
      else r0

/-- `RadixTree::Traverse(ITraveler&)`. -/
def traverse (t : RadixTree α H) (onLeaf : σ → CursorBase → Key → α → Bool × σ) (bd : Bounds)
    (s : σ) : Bool × σ :=
  match t.root with
  | none => (true, s)
  | some r => traverseNode onLeaf r [] 0 bd s

/-- The `OnLeaf` of `Count`'s traveler. -/
def countLeaf (n : Nat) (_ : CursorBase) (_ : Key) (_ : α) : Bool × Nat := (true, n + 1)

/-- `RadixTree::Count`: a traversal without bounds that counts the leaves. -/
def count (t : RadixTree α H) : Nat :=
  (t.traverse countLeaf ⟨none, none⟩ 0).2

/-! ## Without bounds every leaf is visited -/

@[simp] theorem passBounds_none (c : Key → Ordering) : passBounds c ⟨none, none⟩ = some ⟨none, none⟩ :=
  rfl

@[simp] theorem enterNode_none (n : Node α H) (nb : Nat) : enterNode n nb ⟨none, none⟩ = some ⟨none, none⟩ := by
  unfold enterNode; split <;> rfl

theorem traverseNode_count (n : Node α H) :
    ∀ (pp : List Bool) (nb c : Nat), traverseNode countLeaf n pp nb ⟨none, none⟩ c = (true, c + n.keys.length) := by
  induction n with
  | leaf b cl k v => intro pp nb c; simp [traverseNode, countLeaf]
  | joint b cl kp h c0 c1 ih0 ih1 =>
    intro pp nb c
    simp only [traverseNode, enterNode_none, passBounds_none, ih0, ih1, ↓reduceIte, keys_joint,
      List.length_append]
    rw [Nat.add_assoc]

/-- **`Count` is the number of keys.** -/
theorem count_eq_length (t : RadixTree α H) : t.count = t.keys.length := by
  unfold count traverse keys
  cases t.root with
  | none => rfl
  | some r => simp [traverseNode_count]

/-! ## Comparing ranges of bits -/

@[simp] theorem cmp_zero (a b : Key) (n0 : Nat) : cmp a b n0 0 = .eq := rfl

/-- Comparing one bit is `Cmp1` with that bit as the child index. -/
theorem cmp_one (a b : Key) (n0 : Nat) : cmp a b n0 1 = cmp1 (bit a n0) b n0 := by
  unfold cmp cmp1
  cases bit a n0 <;> cases bit b n0 <;> rfl

theorem cmp_succ (a b : Key) (n0 dn : Nat) :
    cmp a b n0 (dn + 1) = (cmp a b n0 1).then (cmp a b (n0 + 1) dn) := by
  cases ha : bit a n0 <;> cases hb : bit b n0 <;> simp [cmp, ha, hb]

/-- A comparison over two adjacent ranges is the first, then the second on a tie. -/
theorem cmp_add (a b : Key) (n0 x y : Nat) :
    cmp a b n0 (x + y) = (cmp a b n0 x).then (cmp a b (n0 + x) y) := by
  induction x generalizing n0 with
  | zero => simp
  | succ x ih =>
    rw [Nat.add_right_comm, cmp_succ, ih, cmp_succ a b n0 x, Ordering.then_assoc,
      show n0 + (x + 1) = n0 + 1 + x by omega]

theorem cmp_self (a : Key) (n0 x : Nat) : cmp a a n0 x = .eq := by
  induction x generalizing n0 with
  | zero => rfl
  | succ x ih =>
    rw [cmp_succ, ih, cmp_one]
    unfold cmp1
    cases bit a n0 <;> rfl

/-- The comparison reads only the bits in its range. -/
theorem cmp_congr {a a' b : Key} {n0 x : Nat} (h : Agree a a' n0 (n0 + x)) :
    cmp a b n0 x = cmp a' b n0 x := by
  induction x generalizing n0 with
  | zero => rfl
  | succ x ih =>
    rw [cmp_succ, cmp_succ a', cmp_one, cmp_one a', h n0 (Nat.le_refl n0) (by omega),
      ih (h.mono (by omega) (by omega))]

/-- Past a range where the two keys agree, the comparison is that of the rest. -/
theorem cmp_of_agree {a b : Key} {n0 x y : Nat} (h : Agree a b n0 (n0 + x)) :
    cmp a b n0 (x + y) = cmp a b (n0 + x) y := by
  rw [cmp_add, cmp_congr h, cmp_self]
  rfl

/-- The keys below a well-formed node ascend strictly, compared from its depth on. -/
theorem Node.WF.keys_ascending {nBits d : Nat} {n : Node α H} (h : n.WF nBits d) :
    n.keys.Pairwise fun a b => cmp a b d (nBits - d) = .lt := by
  induction n generalizing d with
  | leaf => exact List.pairwise_singleton _ _
  | joint b c kp hh c0 c1 ih0 ih1 =>
    have hagree : ∀ {k k' : Key}, k ∈ keys (joint b c kp hh c0 c1) →
        k' ∈ keys (joint b c kp hh c0 c1) → Agree k k' d (d + b) := fun hk hk' =>
      h.agree_keys hk hk'
    obtain ⟨hlt, hw0, hw1, hb0, hb1, -⟩ := h
    have hsplit : nBits - d = b + 1 + (nBits - (d + b + 1)) := by omega
    -- two keys of one child agree up to the branch bit, then compare as in the child
    have hsame : ∀ (i : Bool) (k k' : Key), k ∈ keys (joint b c kp hh c0 c1) →
        k' ∈ keys (joint b c kp hh c0 c1) → bit k (d + b) = i → bit k' (d + b) = i →
        cmp k k' d (nBits - d) = cmp k k' (d + b + 1) (nBits - (d + b + 1)) := by
      intro i k k' hk hk' hi hi'
      rw [hsplit, cmp_of_agree ((hagree hk hk').succ (hi.trans hi'.symm)), ← Nat.add_assoc]
    refine List.pairwise_append.2 ⟨?_, ?_, fun k hk k' hk' => ?_⟩
    · refine (ih0 hw0).imp_of_mem fun {k k'} hk hk' hkk => ?_
      rw [hsame false k k' (by simp [hk]) (by simp [hk']) (hb0 k hk) (hb0 k' hk')]
      exact hkk
    · refine (ih1 hw1).imp_of_mem fun {k k'} hk hk' hkk => ?_
      rw [hsame true k k' (by simp [hk]) (by simp [hk']) (hb1 k hk) (hb1 k' hk')]
      exact hkk
    · -- a key of the first child and one of the second part at the branch bit
      have hag : Agree k k' d (d + b) := hagree (by simp [hk]) (by simp [hk'])
      rw [show nBits - d = b + (1 + (nBits - (d + b + 1))) by omega, cmp_of_agree hag, cmp_add,
        cmp_one, hb0 k hk]
      simp [cmp1, hb1 k' hk']

/-! ## The bounds along a split range -/

/-- Checking a bound against a range split in two is checking it against the first part,
then what is left of it against the second. -/
theorem passBound_split (upper : Bool) (k : Key) (d x y : Nat) (o : Option Key) :
    passBound upper (cmp k · d (x + y)) o =
      (passBound upper (cmp k · d x) o).bind (passBound upper (cmp k · (d + x) y)) := by
  cases o with
  | none => rfl
  | some B =>
    simp only [passBound, cmp_add]
    cases cmp k B d x <;> cases upper <;> rfl

theorem passBounds_split (k : Key) (d x y : Nat) (bd : Bounds) :
    passBounds (cmp k · d (x + y)) bd =
      (passBounds (cmp k · d x) bd).bind (passBounds (cmp k · (d + x) y)) := by
  simp only [passBounds, passBound_split]
  cases passBound false (cmp k · d x) bd.lo with
  | none => rfl
  | some lo =>
    cases passBound true (cmp k · d x) bd.hi with
    | none =>
      simp only [Option.bind_some, Option.bind_none]
      cases passBound false (cmp k · (d + x) y) lo <;> rfl
    | some hi => rfl

@[simp] theorem passBounds_zero (k : Key) (d : Nat) (bd : Bounds) :
    passBounds (cmp k · d 0) bd = some bd := by
  obtain ⟨lo, hi⟩ := bd
  cases lo <;> cases hi <;> rfl

/-- The bounds still held at bit `d` let the key through on the bits from `d` on. -/
def Passes (nBits d : Nat) (bd : Bounds) (k : Key) : Bool :=
  (passBounds (cmp k · d (nBits - d)) bd).isSome

theorem passes_split {nBits d x : Nat} (hx : d + x ≤ nBits) (bd : Bounds) (k : Key) :
    Passes nBits d bd k =
      match passBounds (cmp k · d x) bd with
      | none => false
      | some bd' => Passes nBits (d + x) bd' k := by
  unfold Passes
  rw [show nBits - d = x + (nBits - (d + x)) by omega, passBounds_split]
  cases passBounds (cmp k · d x) bd <;> rfl

theorem passes_self (nBits : Nat) (bd : Bounds) (k : Key) : Passes nBits nBits bd k = true := by
  rw [Passes, Nat.sub_self, passBounds_zero]
  rfl

/-- Entering a node decides the bounds on the bits it compresses, the same way for every
key below it. -/
theorem passes_enterNode {nBits d : Nat} {n : Node α H} (hn : n.WF nBits d) (bd : Bounds)
    {k : Key} (hk : k ∈ n.keys) :
    Passes nBits d bd k =
      match enterNode n d bd with
      | none => false
      | some bd' => Passes nBits (d + n.getBits) bd' k := by
  have henter : enterNode n d bd = passBounds (cmp k · d n.getBits) bd := by
    unfold enterNode
    split
    · rename_i h0
      rw [h0, passBounds_zero]
    · congr 1
      funext B
      exact (cmp_congr (hn.agree k hk)).symm
  rw [henter, passes_split hn.end_le]

/-- Taking the child `i` at bit `n0` decides the bounds on that bit by `Cmp1`. -/
theorem passes_child {nBits n0 : Nat} (hn0 : n0 < nBits) (bd : Bounds) {k : Key} {i : Bool}
    (hk : bit k n0 = i) :
    Passes nBits n0 bd k =
      match passBounds (cmp1 i · n0) bd with
      | none => false
      | some bd' => Passes nBits (n0 + 1) bd' k := by
  rw [passes_split (x := 1) hn0]
  congr 2
  funext B
  rw [cmp_one, hk]

/-! ## What a bounded traversal visits -/

/-- The leaves below a node, left to right, each with the child indices leading to it. -/
def Node.leaves : Node α H → List (List Bool × Key × α)
  | leaf _ _ k v => [([], k, v)]
  | joint _ _ _ _ c0 c1 =>
    c0.leaves.map (fun l => (false :: l.1, l.2)) ++ c1.leaves.map (fun l => (true :: l.1, l.2))

/-- The leaves of the tree, left to right, each with the cursor path to it. -/
def leaves (t : RadixTree α H) : List (List Bool × Key × α) :=
  match t.root with
  | none => []
  | some r => r.leaves

theorem Node.map_leaves (n : Node α H) : n.leaves.map (·.2.1) = n.keys := by
  induction n with
  | leaf => rfl
  | joint b c kp h c0 c1 ih0 ih1 =>
    simp only [leaves, keys_joint, List.map_append, List.map_map, ← ih0, ← ih1]
    rfl

theorem Node.key_mem_of_mem_leaves {n : Node α H} {l : List Bool × Key × α} (hl : l ∈ n.leaves) :
    l.2.1 ∈ n.keys :=
  n.map_leaves ▸ List.mem_map_of_mem hl

/-- Each leaf's path leads from the node down to that leaf. -/
theorem Node.nodeAt_of_mem_leaves (n : Node α H) :
    ∀ l ∈ n.leaves, n.ValidPath l.1 ∧ ∃ b c, n.nodeAt l.1 = leaf b c l.2.1 l.2.2 := by
  induction n with
  | leaf b c k v =>
    intro l hl
    rw [leaves, List.mem_singleton] at hl
    subst hl
    exact ⟨trivial, b, c, rfl⟩
  | joint b c kp h c0 c1 ih0 ih1 =>
    intro l hl
    rcases List.mem_append.1 hl with hl | hl
    · obtain ⟨l', hl', rfl⟩ := List.mem_map.1 hl
      exact ih0 l' hl'
    · obtain ⟨l', hl', rfl⟩ := List.mem_map.1 hl
      exact ih1 l' hl'

/-- A key within the bounds: not below `m_pBound[0]` and not above `m_pBound[1]`, compared
bit by bit over the `nBits` bits of a key; an absent bound always holds. -/
def InBounds (nBits : Nat) (bd : Bounds) (k : Key) : Prop :=
  (∀ B ∈ bd.lo, cmp k B 0 nBits ≠ .lt) ∧ ∀ B ∈ bd.hi, cmp k B 0 nBits ≠ .gt

instance (nBits : Nat) (bd : Bounds) (k : Key) : Decidable (InBounds nBits bd k) :=
  inferInstanceAs (Decidable ((∀ B ∈ bd.lo, _) ∧ _))

theorem passes_iff_inBounds (nBits : Nat) (bd : Bounds) (k : Key) :
    Passes nBits 0 bd k = true ↔ InBounds nBits bd k := by
  obtain ⟨lo, hi⟩ := bd
  unfold Passes InBounds passBounds
  cases lo with
  | none =>
    cases hi with
    | none => simp [passBound]
    | some B =>
      simp only [passBound]
      cases h : cmp k B 0 nBits <;> simp [h]
  | some A =>
    cases hi with
    | none =>
      simp only [passBound]
      cases h : cmp k A 0 nBits <;> simp [h]
    | some B =>
      simp only [passBound]
      cases h : cmp k A 0 nBits <;> cases h' : cmp k B 0 nBits <;> simp [h, h']

/-- `OnLeaf` on the leaves in turn, each with the cursor on the path to it, until one
returns `false`. -/
def runLeaves (onLeaf : σ → CursorBase → Key → α → Bool × σ) (nBits : Nat) :
    List (List Bool × Key × α) → σ → Bool × σ
  | [], s => (true, s)
  | (p, k, v) :: ls, s =>
    let r := onLeaf s ⟨some p, nBits, 0⟩ k v
    if r.1 then runLeaves onLeaf nBits ls r.2 else r

section Run

variable (onLeaf : σ → CursorBase → Key → α → Bool × σ) (nBits : Nat)

theorem runLeaves_append (l₁ l₂ : List (List Bool × Key × α)) (s : σ) :
    runLeaves onLeaf nBits (l₁ ++ l₂) s =
      let r := runLeaves onLeaf nBits l₁ s
      if r.1 then runLeaves onLeaf nBits l₂ r.2 else r := by
  induction l₁ generalizing s with
  | nil => rfl
  | cons l l₁ ih =>
    obtain ⟨p, k, v⟩ := l
    simp only [List.cons_append, runLeaves]
    split
    · exact ih _
    · simp

theorem runLeaves_singleton (p : List Bool) (k : Key) (v : α) (s : σ) :
    runLeaves onLeaf nBits [(p, k, v)] s = onLeaf s ⟨some p, nBits, 0⟩ k v := by
  simp only [runLeaves]
  split
  · rename_i h
    exact Prod.ext h.symm rfl
  · rfl

/-- The walk below child `i` of a joint, entered at its branch bit `n0`. -/
theorem traverse_child {c : Node α H} {n0 : Nat} {i : Bool} (hn0 : n0 < nBits)
    (hbit : ∀ k ∈ c.keys, bit k n0 = i)
    (ih : ∀ pp bd s, traverseNode onLeaf c pp (n0 + 1) bd s =
      runLeaves onLeaf nBits ((c.leaves.filter fun l => Passes nBits (n0 + 1) bd l.2.1).map
        fun l => (pp ++ l.1, l.2)) s)
    (pp : List Bool) (bd : Bounds) (s : σ) :
    (match passBounds (cmp1 i · n0) bd with
      | none => (true, s)
      | some bd' => traverseNode onLeaf c (pp ++ [i]) (n0 + 1) bd' s) =
      runLeaves onLeaf nBits ((c.leaves.filter fun l => Passes nBits n0 bd l.2.1).map
        fun l => (pp ++ i :: l.1, l.2)) s := by
  have hpass : ∀ l ∈ c.leaves, Passes nBits n0 bd l.2.1 =
      match passBounds (cmp1 i · n0) bd with
      | none => false
      | some bd' => Passes nBits (n0 + 1) bd' l.2.1 := fun l hl =>
    passes_child hn0 bd (hbit _ (Node.key_mem_of_mem_leaves hl))
  rw [List.filter_congr hpass]
  cases passBounds (cmp1 i · n0) bd with
  | none => simp [runLeaves]
  | some bd' =>
    dsimp only
    rw [ih]
    simp

/-- A bounded walk from a node calls `OnLeaf` on the leaves below it that the bounds let
through, left to right, until one returns `false`. -/
theorem traverseNode_eq_runLeaves :
    ∀ (n : Node α H) {d : Nat}, n.WF nBits d → ∀ (pp : List Bool) (bd : Bounds) (s : σ),
      traverseNode onLeaf n pp d bd s =
        runLeaves onLeaf nBits ((n.leaves.filter fun l => Passes nBits d bd l.2.1).map
          fun l => (pp ++ l.1, l.2)) s := by
  intro n
  induction n with
  | leaf b c k v =>
    intro d hn pp bd s
    have hpass := passes_enterNode hn bd (k := k) (by simp)
    rw [show d + (leaf b c k v : Node α H).getBits = nBits from hn.1] at hpass
    simp only [traverseNode, Node.leaves, List.filter_cons, List.filter_nil, hpass]
    cases enterNode (leaf b c k v) d bd with
    | none => rfl
    | some bd' =>
      simp only [passes_self, ↓reduceIte, List.map_cons, List.map_nil, List.append_nil,
        runLeaves_singleton]
      rw [show d + b = nBits from hn.1]
  | joint b c kp h c0 c1 ih0 ih1 =>
    intro d hn pp bd s
    have hpass : ∀ l ∈ (joint b c kp h c0 c1).leaves, Passes nBits d bd l.2.1 =
        match enterNode (joint b c kp h c0 c1) d bd with
        | none => false
        | some bd' => Passes nBits (d + b) bd' l.2.1 := fun l hl =>
      passes_enterNode hn bd (Node.key_mem_of_mem_leaves hl)
    obtain ⟨hlt, hw0, hw1, hb0, hb1, -⟩ := hn
    simp only [traverseNode]
    rw [List.filter_congr hpass]
    cases enterNode (joint b c kp h c0 c1) d bd with
    | none => simp [runLeaves]
    | some bd' =>
      simp only [Node.leaves, List.filter_append, List.map_append, runLeaves_append,
        List.filter_map, List.map_map, Function.comp_def]
      rw [traverse_child onLeaf nBits hlt hb0 (ih0 hw0), traverse_child onLeaf nBits hlt hb1 (ih1 hw1)]

end Run

/-- `RadixTree::Traverse` with bounds on a well-formed tree calls `OnLeaf`, in strictly
ascending key order, on exactly the leaves whose keys lie within the bounds, each time
with the cursor on the path from the root to the leaf, until the first call that returns
`false`; it then returns `false`, and `true` otherwise. -/
theorem traverse_bounds {nBits : Nat} {t : RadixTree α H} (ht : t.WF nBits)
    (onLeaf : σ → CursorBase → Key → α → Bool × σ) (bd : Bounds) (s : σ) :
    t.traverse onLeaf bd s =
        runLeaves onLeaf nBits (t.leaves.filter fun l => InBounds nBits bd l.2.1) s ∧
      ((t.leaves.filter fun l => InBounds nBits bd l.2.1).map (·.2.1)).Pairwise
        (fun a b => cmp a b 0 nBits = .lt) ∧
      ∀ l ∈ t.leaves, ∃ r, t.root = some r ∧ r.ValidPath l.1 ∧
        ∃ b c, r.nodeAt l.1 = .leaf b c l.2.1 l.2.2 := by
  obtain ⟨root⟩ := t
  cases root with
  | none => simp [traverse, leaves, runLeaves]
  | some r =>
    have hr : r.WF nBits 0 := ht
    have hpass : ∀ k, Passes nBits 0 bd k = decide (InBounds nBits bd k) := fun k => by
      rw [Bool.eq_iff_iff, passes_iff_inBounds, decide_eq_true_iff]
    refine ⟨?_, ?_, fun l hl => ⟨r, rfl, r.nodeAt_of_mem_leaves l hl⟩⟩
    · simp only [traverse, leaves]
      rw [traverseNode_eq_runLeaves onLeaf nBits r hr]
      simp [hpass]
    · have hkeys := hr.keys_ascending
      rw [Nat.sub_zero, ← r.map_leaves] at hkeys
      exact hkeys.sublist ((List.filter_sublist).map _)

/-- A tree of three two-bit keys built by three `Find`s, traversed from the lower bound
`01`: the theorem applies, with the well-formedness that each `Find` keeps. -/
theorem traverse_bounds_three_leaves :
    let t : RadixTree Nat Unit := ((((⟨none⟩ : RadixTree Nat Unit).find [false, false] 2 true 5).tree.find
      [false, true] 2 true 6).tree.find [true, true] 2 true 7).tree
    t.traverse countLeaf ⟨some [false, true], none⟩ 0 =
        runLeaves countLeaf 2 (t.leaves.filter fun l => InBounds 2 ⟨some [false, true], none⟩ l.2.1) 0 ∧
      ((t.leaves.filter fun l => InBounds 2 ⟨some [false, true], none⟩ l.2.1).map (·.2.1)).Pairwise
        (fun a b => cmp a b 0 2 = .lt) ∧
      ∀ l ∈ t.leaves, ∃ r, t.root = some r ∧ r.ValidPath l.1 ∧
        ∃ b c, r.nodeAt l.1 = .leaf b c l.2.1 l.2.2 := by
  intro t
  -- each insertion is of a new key, so the tree stays well-formed
  have w0 : (⟨none⟩ : RadixTree Nat Unit).WF 2 := trivial
  have w3 := ((w0.find_absent (by decide) (show [false, false].length = 2 from rfl) (by simp [keys]) 5).find_absent
    (by decide) (show [false, true].length = 2 from rfl) (by decide) 6).find_absent
    (by decide) (show [true, true].length = 2 from rfl) (by decide) 7
  exact traverse_bounds w3 countLeaf _ 0

end Beam.RadixTree
