import Beam.Utxo.Tree
import Beam.RadixTree.Entries
import Beam.Lib.MergeStack

/-!
# `UtxoTree::Compact`

`src/core/radixtree.cpp`, `UtxoTree::Compact`: the root hash of a UTXO set
computed from its keys in ascending order, with no tree built.  `Add` takes one
key at a time; equal keys in a row only count up `m_LastCount`.  A new key
becomes a node on the stack `m_vNodes` that records `m_nBitsCommon`, the bits it
shares with the key before it.  The node stands for the last leaf until the next
new key, when `FlushInternal` gives it the leaf's hash and merges the nodes on
top of the stack that share at least as many bits with the new key.

This is the stack construction of `MergeStack`: the bits two neighbouring keys
share are the level of the joint between them in the Patricia tree, and a joint
lies above the joints inside its children.  `Node.toLevelTree` reads a radix tree
so, and `rest_toLevelTree` says that its entries are the nodes `Add` pushes.

* `pending_addAll`: feeding groups of equal keys in ascending order leaves the
  stack `MergeStack.run` builds from the groups' nodes;
* `compact_flush_eq_getHash`: the hash `Flush` gives is `get_Hash` of every
  UTXO tree that holds those keys with those counts.

A key is its `Key::s_Bits` bits.  The seven pad bits of `Key::V` are zero in
every key (`Key::operator =`), so they change neither the comparison nor the
bits two keys share.
-/

namespace Beam

open BitString MergeStack

namespace RadixTree

/-! ## Comparing keys -/

/-- `Cmp` with its arguments swapped is the swapped comparison. -/
theorem cmp_swap (a b : Key) (n0 x : Nat) : cmp b a n0 x = (cmp a b n0 x).swap := by
  induction x generalizing n0 with
  | zero => rfl
  | succ x ih =>
    rw [cmp_succ, cmp_succ a, ih, cmp_one, cmp_one]
    unfold cmp1
    cases bit a n0 <;> cases bit b n0 <;> cases cmp a b (n0 + 1) x <;> rfl

theorem not_cmp_lt_of_cmp_lt {a b : Key} {n0 x : Nat} (h : cmp a b n0 x = .lt) : cmp b a n0 x ≠ .lt := by
  rw [cmp_swap, h]
  decide

namespace Node

variable {α H H' : Type}

/-! ## The tree read as a `LevelTree` -/

/-- The tree entered after `d` bits as a `LevelTree`: a leaf by its leaf hash,
a joint at the level of its branch bit. -/
def toLevelTree (lh : Key → α → H') : Nat → Node α H → LevelTree H'
  | _, leaf _ _ k v => .leaf (lh k v)
  | d, joint b _ _ _ c0 c1 => .node (d + b) (toLevelTree lh (d + b + 1) c0) (toLevelTree lh (d + b + 1) c1)

/-- The first (key, payload) pair, left to right. -/
def firstEntry : Node α H → Key × α
  | leaf _ _ k v => (k, v)
  | joint _ _ _ _ c0 _ => firstEntry c0

variable (lh : Key → α → H')

theorem value_toLevelTree (hJ : H' → H' → H') (n : Node α H) (d : Nat) :
    (n.toLevelTree lh d).value hJ = n.hashOf hJ lh := by
  induction n generalizing d with
  | leaf => rfl
  | joint b c kp h c0 c1 ih0 ih1 => simp [toLevelTree, LevelTree.value, hashOf, ih0, ih1]

theorem above_toLevelTree (n : Node α H) (d : Nat) : (n.toLevelTree lh d).Above d := by
  induction n generalizing d with
  | leaf => trivial
  | joint b c kp h c0 c1 ih0 ih1 =>
    exact ⟨Nat.le_add_right d b, (ih0 _).mono (by omega), (ih1 _).mono (by omega)⟩

/-- A joint's branch bit lies before those of the joints inside its children. -/
theorem heap_toLevelTree (n : Node α H) (d : Nat) : (n.toLevelTree lh d).Heap := by
  induction n generalizing d with
  | leaf => trivial
  | joint b c kp h c0 c1 ih0 ih1 =>
    exact ⟨above_toLevelTree lh c0 _, above_toLevelTree lh c1 _, ih0 _, ih1 _⟩

theorem first_toLevelTree (n : Node α H) (d : Nat) :
    (n.toLevelTree lh d).first = lh n.firstEntry.1 n.firstEntry.2 := by
  induction n generalizing d with
  | leaf => rfl
  | joint b c kp h c0 c1 ih0 ih1 => exact ih0 _

theorem entries_eq_cons (n : Node α H) : n.entries = n.firstEntry :: n.entries.tail := by
  induction n with
  | leaf => rfl
  | joint b c kp h c0 c1 ih0 ih1 => rw [entries_joint, ih0]; rfl

theorem map_fst_entries_tail (n : Node α H) : n.firstEntry.1 :: n.entries.tail.map Prod.fst = n.keys := by
  rw [← map_fst_entries, entries_eq_cons n, List.map_cons, ← entries_eq_cons n]

end Node

end RadixTree

namespace UtxoTree

open RadixTree Node

/-! ## The bits two keys share -/

/-- `uintBig_t::operator ^=` on two keys. -/
def xorKey (a b : Key) : Key := List.zipWith xor a b

/-- `uintBig_t::get_Order` of a key read as its bits: how far it must be shifted
right to reach zero, that is the bits from its highest set one down, and `0`
for zero. -/
def getOrder : Key → Nat
  | [] => 0
  | b :: k => if b then k.length + 1 else getOrder k

/-- `m_nBitsCommon` as `Add` computes it: the width of the two keys' XOR less
its order. -/
def bitsCommon (a b : Key) : Nat := (xorKey a b).length - getOrder (xorKey a b)

theorem bit_xorKey : ∀ {a b : Key}, a.length = b.length → ∀ i, bit (xorKey a b) i = (bit a i ^^ bit b i)
  | [], [], _, _ => rfl
  | x :: a, y :: b, h, i => by
    cases i with
    | zero => rfl
    | succ i => exact bit_xorKey (a := a) (b := b) (by simpa using h) i

/-- The order of a key whose first set bit is bit `m`. -/
theorem getOrder_of_first : ∀ {k : Key} {m : Nat}, (∀ i < m, bit k i = false) → bit k m = true →
    getOrder k = k.length - m
  | [], _, _, hm => by simp [bit] at hm
  | b :: k, 0, _, hm => by simp_all [getOrder, bit]
  | b :: k, m + 1, hz, hm => by
    have hb : b = false := hz 0 (Nat.succ_pos m)
    have hk : getOrder k = k.length - m :=
      getOrder_of_first (fun i hi => hz (i + 1) (Nat.succ_lt_succ hi)) hm
    simp [getOrder, hb, hk]

/-- Two keys of one width that agree up to bit `m` and differ there share `m`
bits. -/
theorem bitsCommon_eq {a b : Key} {n m : Nat} (ha : a.length = n) (hb : b.length = n) (hag : Agree a b 0 m)
    (hne : bit a m ≠ bit b m) : bitsCommon a b = m := by
  -- past the end both bits read `false`, so they differ inside the keys
  have hm : m < n := by
    by_contra hle
    exact hne (by simp [bit, List.getD_eq_getElem?_getD, ha, hb, Nat.le_of_not_lt hle])
  have hab : a.length = b.length := ha.trans hb.symm
  have hlen : (xorKey a b).length = n := by simp [xorKey, ha, hb]
  have hord : getOrder (xorKey a b) = n - m := by
    rw [getOrder_of_first (m := m), hlen]
    · intro i hi
      rw [bit_xorKey hab, hag i (Nat.zero_le i) hi, Bool.xor_self]
    · rw [bit_xorKey hab]
      cases h0 : bit a m <;> cases h1 : bit b m <;> simp_all
  unfold bitsCommon
  rw [hlen, hord]
  omega

/-! ## The nodes of neighbouring keys -/

section Chain

variable {β H' : Type} (lh : Key → β → H')

/-- The nodes a list of keys with payloads stands for, each after the key `prev`
before it: the leaf hash of the key with its payload, at the bits it shares
with the key before it. -/
def chain (prev : Key) : List (Key × β) → List (H' × Nat)
  | [] => []
  | e :: es => (lh e.1 e.2, bitsCommon prev e.1) :: chain e.1 es

/-- The last key of a list, `prev` when it is empty. -/
def lastKey (prev : Key) : List (Key × β) → Key
  | [] => prev
  | e :: es => lastKey e.1 es

theorem chain_append : ∀ (p : Key) (xs ys : List (Key × β)),
    chain lh p (xs ++ ys) = chain lh p xs ++ chain lh (lastKey p xs) ys
  | _, [], _ => rfl
  | p, e :: xs, ys => by simp [chain, lastKey, chain_append e.1 xs ys]

theorem lastKey_mem : ∀ (p : Key) (es : List (Key × β)), lastKey p es ∈ p :: es.map Prod.fst
  | _, [] => List.mem_singleton_self _
  | p, e :: es => List.mem_cons_of_mem p (lastKey_mem e.1 es)

theorem chain_map {γ : Type} (f : γ → β) : ∀ (p : Key) (es : List (Key × γ)),
    chain (fun k v => lh k (f v)) p es = chain lh p (es.map fun e => (e.1, f e.2))
  | _, [] => rfl
  | p, e :: es => by simp [chain, chain_map f e.1 es]

variable {α H : Type} (lh : Key → α → H') {nBits : Nat}

/-- **The tree's leaves are the nodes of neighbouring keys.**  Below a
well-formed node whose keys agree up to its depth, each leaf after the first
stands at the branch bit of the joint between it and the leaf before it, and
that is the number of bits the two keys share. -/
theorem rest_toLevelTree : ∀ {n : Node α H} {d : Nat}, n.WF nBits d →
    (∀ k ∈ n.keys, ∀ k' ∈ n.keys, Agree k k' 0 d) →
      (n.toLevelTree lh d).rest = chain lh n.firstEntry.1 n.entries.tail := by
  intro n
  induction n with
  | leaf => intros; rfl
  | joint b c kp h c0 c1 ih0 ih1 =>
    intro d hw hctx
    have hkeys : ∀ {k k' : Key}, k ∈ c0.keys ++ c1.keys → k' ∈ c0.keys ++ c1.keys → Agree k k' d (d + b) :=
      fun hk hk' => hw.agree_keys hk hk'
    obtain ⟨-, hw0, hw1, hb0, hb1, -⟩ := hw
    -- the keys of a child agree below `d`, on the compressed bits and at the branch bit
    have hagree : ∀ k k', k ∈ c0.keys ++ c1.keys → k' ∈ c0.keys ++ c1.keys → bit k (d + b) = bit k' (d + b) →
        Agree k k' 0 (d + b + 1) := fun k k' hk hk' hbit =>
      ((hctx k hk k' hk').append (hkeys hk hk')).succ hbit
    have hctx0 : ∀ k ∈ c0.keys, ∀ k' ∈ c0.keys, Agree k k' 0 (d + b + 1) := fun k hk k' hk' =>
      hagree k k' (by simp [hk]) (by simp [hk']) ((hb0 k hk).trans (hb0 k' hk').symm)
    have hctx1 : ∀ k ∈ c1.keys, ∀ k' ∈ c1.keys, Agree k k' 0 (d + b + 1) := fun k hk k' hk' =>
      hagree k k' (by simp [hk]) (by simp [hk']) ((hb1 k hk).trans (hb1 k' hk').symm)
    -- the last leaf of the first child and the first of the second part at the branch bit
    have hlast : lastKey c0.firstEntry.1 c0.entries.tail ∈ c0.keys := by
      rw [← map_fst_entries_tail]
      exact lastKey_mem _ _
    have hfirst : c1.firstEntry.1 ∈ c1.keys := by
      rw [← map_fst_entries_tail]
      exact List.mem_cons_self
    have hsplit : bitsCommon (lastKey c0.firstEntry.1 c0.entries.tail) c1.firstEntry.1 = d + b := by
      refine bitsCommon_eq (hw0.length _ hlast) (hw1.length _ hfirst) ?_ ?_
      · exact (hctx _ (by simp [hlast]) _ (by simp [hfirst])).append (hkeys (by simp [hlast]) (by simp [hfirst]))
      · rw [hb0 _ hlast, hb1 _ hfirst]
        decide
    have htail : (c0.entries ++ c1.entries).tail = c0.entries.tail ++ c1.firstEntry :: c1.entries.tail := by
      conv_lhs => rw [entries_eq_cons c0, List.cons_append, List.tail_cons, entries_eq_cons c1]
    simp only [toLevelTree, LevelTree.rest, firstEntry, entries_joint]
    rw [ih0 hw0 hctx0, ih1 hw1 hctx1, first_toLevelTree, htail, chain_append]
    simp only [chain, hsplit]

end Chain

/-! ## The builder -/

/-- `UtxoTree::Compact`: `vNodes` is `m_vNodes` with its back first, each node as
(`m_Hash`, `m_nBitsCommon`). -/
structure Compact (H : Type) where
  vNodes : List (H × Nat)
  lastKey : Key
  lastCount : UInt32

namespace Compact

variable {H : Type} (hJ : H → H → H) (hLeaf : Key → UInt32 → H)

/-- A builder with no node yet. -/
def new : Compact H := ⟨[], [], 0⟩

/-- The first step of `FlushInternal`: while `m_LastCount` is nonzero the back
node stands for the last leaf and takes its hash (`MyLeaf::get_Hash`). -/
def leafToNode (c : Compact H) : List (H × Nat) :=
  match c.vNodes with
  | [] => []
  | n :: st => (if c.lastCount ≠ 0 then (hLeaf c.lastKey c.lastCount, n.2) else n) :: st

/-- `Compact::FlushInternal`: after `leafToNode`, each node at the back is hashed
into the one before it while it shares at least `nBitsCommonNext` bits with the
node before it. -/
def flushInternal (c : Compact H) (nBitsCommonNext : Nat) : Compact H :=
  match c.vNodes with
  | [] => c
  | _ :: _ => { c with vNodes := MergeStack.flush hJ nBitsCommonNext (leafToNode hLeaf c), lastCount := 0 }

/-- `Compact::Add`, with what it returns.  Keys are compared with `uintBig_t::cmp`,
which on keys read most significant bit first is `Cmp` over all their bits.  The
new node's `m_Hash` is not set until `FlushInternal`. -/
def add [Inhabited H] (nBits : Nat) (c : Compact H) (key : Key) : Compact H × Bool :=
  match c.vNodes with
  | [] => (⟨[(default, 0)], key, 1⟩, true)
  | _ :: _ =>
    match cmp c.lastKey key 0 nBits with
    | .gt => (c, false)
    -- the overflow check of `m_LastCount`
    | .eq => ({ c with lastCount := c.lastCount + 1 }, c.lastCount + 1 != 0)
    | .lt =>
      let nBitsCommon := bitsCommon c.lastKey key
      let c := flushInternal hJ hLeaf c nBitsCommon
      (⟨(default, nBitsCommon) :: c.vNodes, key, 1⟩, true)

/-- `Compact::Flush`: `Zero` with no node, and otherwise the hash of the one node
left after flushing at level `0`. -/
def flush (zero : H) (c : Compact H) : H × Compact H :=
  match c.vNodes with
  | [] => (zero, c)
  | _ :: _ =>
    let c := flushInternal hJ hLeaf c 0
    (match c.vNodes.getLast? with
      | some n => n.1
      | none => zero, c)

/-- `Add` called on each key in turn, with what each call returned. -/
def addAll [Inhabited H] (nBits : Nat) : Compact H → List Key → Compact H × List Bool
  | c, [] => (c, [])
  | c, key :: rest =>
    let r := add hJ hLeaf nBits c key
    let r' := addAll nBits r.1 rest
    (r'.1, r.2 :: r'.2)

/-- Each key of a list of (key, count) groups, repeated count times. -/
def feed (gs : List (Key × UInt32)) : List Key :=
  gs.flatMap fun g => List.replicate g.2.toNat g.1

/-! ### One call of `Add` -/

variable [Inhabited H] {nBits : Nat}

theorem add_of_nil {c : Compact H} (h : c.vNodes = []) (key : Key) :
    add hJ hLeaf nBits c key = (⟨[(default, 0)], key, 1⟩, true) := by
  simp [add, h]

/-- A key smaller than the last one is refused and changes nothing. -/
theorem add_of_gt {c : Compact H} (h : c.vNodes ≠ []) {key : Key} (hgt : cmp c.lastKey key 0 nBits = .gt) :
    add hJ hLeaf nBits c key = (c, false) := by
  obtain ⟨n, st, hv⟩ := List.exists_cons_of_ne_nil h
  simp [add, hv, hgt]

theorem add_of_eq {c : Compact H} (h : c.vNodes ≠ []) {key : Key} (heq : cmp c.lastKey key 0 nBits = .eq) :
    add hJ hLeaf nBits c key = ({ c with lastCount := c.lastCount + 1 }, c.lastCount + 1 != 0) := by
  obtain ⟨n, st, hv⟩ := List.exists_cons_of_ne_nil h
  simp [add, hv, heq]

/-- A key greater than the last one flushes at the bits they share and opens a
node there. -/
theorem add_of_lt {c : Compact H} (h : c.vNodes ≠ []) {key : Key} (hlt : cmp c.lastKey key 0 nBits = .lt) :
    add hJ hLeaf nBits c key =
      (⟨(default, bitsCommon c.lastKey key) ::
          MergeStack.flush hJ (bitsCommon c.lastKey key) (leafToNode hLeaf c), key, 1⟩, true) := by
  obtain ⟨n, st, hv⟩ := List.exists_cons_of_ne_nil h
  simp [add, flushInternal, hv, hlt]

omit [Inhabited H] in
theorem leafToNode_of_ne_zero {x : H} {lvl : Nat} {st : List (H × Nat)} {k : Key} {cnt : UInt32} (h : cnt ≠ 0) :
    leafToNode hLeaf ⟨(x, lvl) :: st, k, cnt⟩ = (hLeaf k cnt, lvl) :: st := by
  simp [leafToNode, h]

/-! ### A run of `Add` -/

theorem addAll_append (c : Compact H) (l l' : List Key) :
    addAll hJ hLeaf nBits c (l ++ l') =
      ((addAll hJ hLeaf nBits (addAll hJ hLeaf nBits c l).1 l').1,
        (addAll hJ hLeaf nBits c l).2 ++ (addAll hJ hLeaf nBits (addAll hJ hLeaf nBits c l).1 l').2) := by
  induction l generalizing c with
  | nil => rfl
  | cons key l ih => simp [addAll, ih]

/-- The same key again only counts up, while the count fits in `Input::Count`. -/
theorem addAll_replicate_last {c : Compact H} (h : c.vNodes ≠ []) :
    ∀ (m : Nat) (cnt : UInt32), cnt.toNat = c.lastCount.toNat + m →
      addAll hJ hLeaf nBits c (List.replicate m c.lastKey) = ({ c with lastCount := cnt }, List.replicate m true) := by
  intro m
  induction m generalizing c with
  | zero =>
    intro cnt hcnt
    have : cnt = c.lastCount := UInt32.toNat_inj.mp (by simpa using hcnt)
    subst this
    rfl
  | succ m ih =>
    intro cnt hcnt
    have hlt : c.lastCount.toNat + 1 < 2 ^ 32 := by
      have := UInt32.toNat_lt cnt
      omega
    have hsucc : (c.lastCount + 1).toNat = c.lastCount.toNat + 1 := by
      rw [UInt32.toNat_add, UInt32.toNat_one, Nat.mod_eq_of_lt hlt]
    have hne : c.lastCount + 1 ≠ 0 := by
      intro h0
      rw [h0, UInt32.toNat_zero] at hsucc
      omega
    have hstep := add_of_eq hJ hLeaf h (cmp_self c.lastKey 0 nBits)
    have hrest := ih (c := { c with lastCount := c.lastCount + 1 }) h cnt (by simp only [hsucc]; omega)
    have htrue : (c.lastCount + 1 != 0) = true := bne_iff_ne.mpr hne
    simp only [List.replicate_succ, addAll, hstep, hrest, htrue]

/-- A group of a key: the first call takes the key, the others count up. -/
theorem addAll_group {c c1 : Compact H} {key : Key} (hadd : add hJ hLeaf nBits c key = (c1, true))
    (hv : c1.vNodes ≠ []) (hk : c1.lastKey = key) (h1 : c1.lastCount = 1) {cnt : UInt32} (hcnt : cnt ≠ 0) :
    addAll hJ hLeaf nBits c (List.replicate cnt.toNat key) =
      ({ c1 with lastCount := cnt }, List.replicate cnt.toNat true) := by
  subst hk
  obtain ⟨m, hm⟩ : ∃ m, cnt.toNat = m + 1 :=
    Nat.exists_eq_succ_of_ne_zero fun h0 => hcnt (UInt32.toNat_inj.mp (by simpa using h0))
  have hrest : addAll hJ hLeaf nBits c1 (List.replicate m c1.lastKey) = _ :=
    addAll_replicate_last hJ hLeaf hv m cnt (by rw [h1, hm]; simp; omega)
  rw [hm, List.replicate_succ, List.replicate_succ]
  simp only [addAll, hadd, hrest]

theorem feed_cons (g : Key × UInt32) (gs : List (Key × UInt32)) :
    feed (g :: gs) = List.replicate g.2.toNat g.1 ++ feed gs := by
  simp [feed]

/-- **Groups after the last key.**  Groups of greater keys in ascending order,
each with a nonzero count, are all taken, and leave on the stack (with the last
leaf's hash filled in) what pushing their nodes on it builds. -/
theorem pending_addAll : ∀ {gs : List (Key × UInt32)} {c : Compact H}, c.vNodes ≠ [] →
    ((c.lastKey, c.lastCount) :: gs).Pairwise (fun a b => cmp a.1 b.1 0 nBits = .lt) → (∀ g ∈ gs, g.2 ≠ 0) →
      (addAll hJ hLeaf nBits c (feed gs)).2 = List.replicate (feed gs).length true ∧
        (addAll hJ hLeaf nBits c (feed gs)).1.vNodes ≠ [] ∧
        leafToNode hLeaf (addAll hJ hLeaf nBits c (feed gs)).1 =
          run hJ (leafToNode hLeaf c) (chain hLeaf c.lastKey gs)
  | [], _, hv, _, _ => ⟨rfl, hv, rfl⟩
  | g :: gs, c, hv, hasc, hpos => by
    have hlt : cmp c.lastKey g.1 0 nBits = .lt := List.rel_of_pairwise_cons hasc List.mem_cons_self
    have hcnt : g.2 ≠ 0 := hpos g List.mem_cons_self
    -- the group's first call opens a node at the bits its key shares with the last one
    have hgroup := addAll_group hJ hLeaf (add_of_lt hJ hLeaf hv hlt) (List.cons_ne_nil _ _) rfl rfl hcnt
    obtain ⟨hres, hv', hnode⟩ := pending_addAll
      (c := ⟨(default, bitsCommon c.lastKey g.1) ::
        MergeStack.flush hJ (bitsCommon c.lastKey g.1) (leafToNode hLeaf c), g.1, g.2⟩)
      (List.cons_ne_nil _ _) hasc.of_cons (fun g' hg' => hpos g' (List.mem_cons_of_mem g hg'))
    rw [feed_cons, addAll_append, hgroup]
    refine ⟨?_, hv', ?_⟩
    · rw [hres, List.replicate_append_replicate, List.length_append, List.length_replicate]
    · rw [hnode, leafToNode_of_ne_zero hLeaf hcnt]
      rfl

/-- **Groups from a new builder**: the first group's node is at level `0`. -/
theorem addAll_feed {k : Key} {cnt : UInt32} {gs : List (Key × UInt32)}
    (hasc : ((k, cnt) :: gs).Pairwise fun a b => cmp a.1 b.1 0 nBits = .lt) (hpos : ∀ g ∈ (k, cnt) :: gs, g.2 ≠ 0) :
    (addAll hJ hLeaf nBits new (feed ((k, cnt) :: gs))).2 = List.replicate (feed ((k, cnt) :: gs)).length true ∧
      (addAll hJ hLeaf nBits new (feed ((k, cnt) :: gs))).1.vNodes ≠ [] ∧
      leafToNode hLeaf (addAll hJ hLeaf nBits new (feed ((k, cnt) :: gs))).1 =
        run hJ [(hLeaf k cnt, 0)] (chain hLeaf k gs) := by
  have hcnt : cnt ≠ 0 := hpos _ List.mem_cons_self
  have hgroup : addAll hJ hLeaf nBits new (List.replicate cnt.toNat k) = _ :=
    addAll_group hJ hLeaf (add_of_nil hJ hLeaf (c := new) rfl k) (List.cons_ne_nil _ _) rfl rfl hcnt
  obtain ⟨hres, hv', hnode⟩ := pending_addAll hJ hLeaf (c := ⟨[(default, 0)], k, cnt⟩) (List.cons_ne_nil _ _) hasc
    (fun g' hg' => hpos g' (List.mem_cons_of_mem _ hg'))
  rw [feed_cons, addAll_append, hgroup]
  refine ⟨?_, hv', ?_⟩
  · rw [hres, List.replicate_append_replicate, List.length_append, List.length_replicate]
  · rw [hnode, leafToNode_of_ne_zero hLeaf hcnt]

omit [Inhabited H] in
/-- `Flush` returns the hash of the one node a flush at level `0` leaves. -/
theorem flush_of_single {c : Compact H} (h : c.vNodes ≠ []) {x : H} {l : Nat}
    (hx : MergeStack.flush hJ 0 (leafToNode hLeaf c) = [(x, l)]) (zero : H) : (flush hJ hLeaf zero c).1 = x := by
  obtain ⟨n, st, hv⟩ := List.exists_cons_of_ne_nil h
  simp [flush, flushInternal, hv, hx]

end Compact

/-! ## Agreement with the tree -/

theorem map_fst_counts {H : Type} (t : RadixTree MyLeaf H) : (counts t).map Prod.fst = t.keys := by
  unfold counts RadixTree.keys
  cases t.root with
  | none => rfl
  | some r => simp [← Node.map_fst_entries]

variable {H : Type} [Inhabited H] {nBits : Nat} {hJ : H → H → H} {hLeaf : Key → UInt32 → H} {zero : H}

/-- Feeding the keys of (key, count) groups in ascending order, each key as many
times as its count, every `Add` returns true, and `Flush` gives `get_Hash` of any
UTXO tree of a run that holds exactly those keys with those counts. -/
theorem compact_feed_flush (hn : 0 < nBits) {t : RadixTree MyLeaf H} (ht : Run nBits hJ hLeaf zero t)
    {gs : List (Key × UInt32)} (hasc : gs.Pairwise fun a b => cmp a.1 b.1 0 nBits = .lt)
    (hpos : ∀ g ∈ gs, g.2 ≠ 0) (hsame : (counts t).Perm gs) :
    (Compact.addAll hJ hLeaf nBits .new (Compact.feed gs)).2 = List.replicate (Compact.feed gs).length true ∧
      (Compact.flush hJ hLeaf zero (Compact.addAll hJ hLeaf nBits .new (Compact.feed gs)).1).1 =
        (t.getHash hJ (leafHash hLeaf) zero).1 := by
  obtain ⟨hwf, hc⟩ := run_invariant hn ht
  -- the tree's pairs ascend too, so they are the groups in their order
  have hsorted : (counts t).Pairwise fun a b => cmp a.1 b.1 0 nBits = .lt := by
    have := hwf.keys_ascending
    rwa [← map_fst_counts, List.pairwise_map] at this
  have hgs : counts t = gs :=
    hsame.eq_of_pairwise (fun _ _ _ _ hab hba => absurd hba (not_cmp_lt_of_cmp_lt hab)) hsorted hasc
  subst hgs
  rw [getHash_fst hc]
  cases hr : t.root with
  | none => simp [counts, hr, Compact.feed, Compact.addAll, Compact.flush, Compact.new]
  | some r =>
    have hcounts : counts t = (r.firstEntry.1, r.firstEntry.2.getCount) ::
        r.entries.tail.map fun e => (e.1, e.2.getCount) := by
      simp only [counts, hr]
      rw [entries_eq_cons r, List.map_cons, ← entries_eq_cons r]
    rw [hcounts] at hasc hpos ⊢
    obtain ⟨hres, hv, hnode⟩ := Compact.addAll_feed hJ hLeaf hasc hpos
    refine ⟨hres, ?_⟩
    dsimp only
    refine Compact.flush_of_single hJ hLeaf hv (l := 0) ?_ zero
    have hwr : r.WF nBits 0 := by simpa [RadixTree.WF, hr] using hwf
    -- the stack of the tree's nodes collapses to the tree's hash
    have hheap := flush_run_heap hJ (heap_toLevelTree (leafHash hLeaf) r 0) (above_toLevelTree (leafHash hLeaf) r 0)
      (Or.inl rfl : ([] : List (H × Nat)) = [] ∨ 0 < 0)
    rw [first_toLevelTree, rest_toLevelTree (leafHash hLeaf) hwr (fun _ _ _ _ _ _ hi => absurd hi (Nat.not_lt_zero _)),
      value_toLevelTree] at hheap
    rw [hnode, ← hheap]
    exact congrArg (fun es => MergeStack.flush hJ 0 (run hJ [(hLeaf r.firstEntry.1 r.firstEntry.2.getCount, 0)] es))
      (chain_map hLeaf MyLeaf.getCount _ _).symm

/-- **`Compact` agrees with the tree.**  Feeding the keys of (key, count) groups in
ascending order, each key as many times as its count, every `Add` returns true,
and `Flush` gives `get_Hash` of any UTXO tree of a run that holds exactly those
keys with those counts; and once a key was fed, a key smaller than the last one
is refused and changes nothing. -/
theorem compact_flush_eq_getHash (hn : 0 < nBits) {t : RadixTree MyLeaf H} (ht : Run nBits hJ hLeaf zero t)
    {gs : List (Key × UInt32)} (hasc : gs.Pairwise fun a b => cmp a.1 b.1 0 nBits = .lt)
    (hpos : ∀ g ∈ gs, g.2 ≠ 0) (hsame : (counts t).Perm gs) :
    (Compact.addAll hJ hLeaf nBits .new (Compact.feed gs)).2 = List.replicate (Compact.feed gs).length true ∧
      (Compact.flush hJ hLeaf zero (Compact.addAll hJ hLeaf nBits .new (Compact.feed gs)).1).1 =
        (t.getHash hJ (leafHash hLeaf) zero).1 ∧
      ∀ (c : Compact H) (key : Key), c.vNodes ≠ [] → cmp c.lastKey key 0 nBits = .gt →
        Compact.add hJ hLeaf nBits c key = (c, false) := by
  obtain ⟨hres, hflush⟩ := compact_feed_flush hn ht hasc hpos hsame
  exact ⟨hres, hflush, fun _ _ hc hgt => Compact.add_of_gt hJ hLeaf hc hgt⟩

/-- Two keys of two bits, fed in order, give the root of the tree that holds them. -/
theorem compact_flush_eq_getHash_two_keys :
    let t := (((⟨none⟩ : RadixTree MyLeaf Nat).find [false, true] 2 true (.single 7)).tree.find [true, false] 2 true
      (.single 8)).tree
    let gs : List (Key × UInt32) := [([false, true], 1), ([true, false], 1)]
    (Compact.addAll (fun a b => a + b + 1) (fun _ c => c.toNat + 1) 2 .new (Compact.feed gs)).2 =
        List.replicate (Compact.feed gs).length true ∧
      (Compact.flush (fun a b => a + b + 1) (fun _ c => c.toNat + 1) 0
          (Compact.addAll (fun a b => a + b + 1) (fun _ c => c.toNat + 1) 2 .new (Compact.feed gs)).1).1 =
        (t.getHash (fun a b => a + b + 1) (leafHash fun _ c => c.toNat + 1) 0).1 ∧
      ∀ (c : Compact Nat) (key : Key), c.vNodes ≠ [] → cmp c.lastKey key 0 2 = .gt →
        Compact.add (fun a b => a + b + 1) (fun _ c => c.toNat + 1) 2 c key = (c, false) :=
  compact_flush_eq_getHash (show 0 < 2 by decide) (Run.find 8 (Run.find 7 Run.empty rfl) rfl) (by decide)
    (by decide) (by decide)

end UtxoTree

end Beam
