import Beam.Lib.BitString

/-!
# The radix tree

`src/core/radixtree.cpp`, `RadixTree`: a path-compressed binary trie over keys
of a fixed number of bits.  A `Joint` has two children and compresses
`get_Bits()` bits before the bit it branches on; a `Leaf` compresses the rest
of its key.  Neither stores the bits it compresses: they are read from
`get_NodeKey`, the leaf's own key or the joint's `m_pKeyPtr`, which points at
the key of some leaf below it.

The model keeps the node graph as an inductive tree and the cursor's array of
node pointers `m_pp` as the child indices taken from the root.  The pointer
walks of the source are functions along such a path:

* `nodeAt` follows `m_pp`, `replaceAt` is `ReplaceTip`;
* `upward f` is a loop from the tip of the cursor towards the root that stops
  at the first node `f` leaves alone.  `InvalidateElement` is `upward clearClean`,
  and the loop of `Delete` that re-points `m_pKeyPtr` is `upward (repointKey ..)`.

`goto`, `find` and `delete` are `Goto`, `Find` and `Delete`.  The flags of
`m_Bits` (`s_Clean`, `s_Leaf`, `s_User`) are kept apart from the bit count:
`s_Leaf` is the constructor, `s_Clean` the field `clean`, and `s_User` belongs to
the leaf payload of `UtxoTree`.
-/

namespace Beam

/-- A key, as the sequence of its bits: bit `n` is what
`CursorBase::get_BitRawStat` reads, byte `n >> 3`, most significant bit first. -/
abbrev Key := List Bool

/-- A node of the tree, with a payload `α` in each leaf and the cached hash of
`RadixHashTree::MyJoint` in each joint. -/
inductive RadixTree.Node (α H : Type) where
  /-- `Leaf`: `bits` are the key bits below the parent's branch bit. -/
  | leaf (bits : Nat) (clean : Bool) (key : Key) (val : α)
  /-- `Joint`: `bits` are the bits skipped before the branch bit, read from the
  key `keyPtr`; `c0`, `c1` are `m_ppC[0]`, `m_ppC[1]`. -/
  | joint (bits : Nat) (clean : Bool) (keyPtr : Key) (hash : H) (c0 c1 : RadixTree.Node α H)

/-- `RadixTree`: the root, `none` while `m_RootOffset` is zero. -/
structure RadixTree (α H : Type) where
  root : Option (RadixTree.Node α H)

namespace RadixTree

open BitString

/-- `CursorBase`: `pp` is `m_pp[0 .. m_nPtrs)` as the child index taken at each
joint below the root (`none` when `m_nPtrs = 0`). -/
structure CursorBase where
  pp : Option (List Bool)
  nBits : Nat
  posInLastNode : Nat

namespace Node

variable {α H : Type}

/-- `Node::get_Bits`. -/
def getBits : Node α H → Nat
  | leaf b .. => b
  | joint b .. => b

/-- The `s_Clean` flag. -/
def isClean : Node α H → Bool
  | leaf _ c .. => c
  | joint _ c .. => c

def setClean (c : Bool) : Node α H → Node α H
  | leaf b _ k v => leaf b c k v
  | joint b _ kp h c0 c1 => joint b c kp h c0 c1

def setBits (b : Nat) : Node α H → Node α H
  | leaf _ c k v => leaf b c k v
  | joint _ c kp h c0 c1 => joint b c kp h c0 c1

/-- `RadixTree::get_NodeKey`. -/
def getNodeKey : Node α H → Key
  | leaf _ _ k _ => k
  | joint _ _ kp .. => kp

@[simp] theorem getBits_setClean (c : Bool) (n : Node α H) : (n.setClean c).getBits = n.getBits := by
  cases n <;> rfl

@[simp] theorem getNodeKey_setClean (c : Bool) (n : Node α H) :
    (n.setClean c).getNodeKey = n.getNodeKey := by
  cases n <;> rfl

@[simp] theorem isClean_setClean (c : Bool) (n : Node α H) : (n.setClean c).isClean = c := by
  cases n <;> rfl

@[simp] theorem getBits_setBits (b : Nat) (n : Node α H) : (n.setBits b).getBits = b := by
  cases n <;> rfl

@[simp] theorem getNodeKey_setBits (b : Nat) (n : Node α H) :
    (n.setBits b).getNodeKey = n.getNodeKey := by
  cases n <;> rfl

/-! ## Walks along a cursor path -/

/-- The node `m_pp` reaches from this one along the child indices `p`. -/
def nodeAt : Node α H → List Bool → Node α H
  | n, [] => n
  | joint _ _ _ _ c0 c1, d :: p => if d then nodeAt c1 p else nodeAt c0 p
  | leaf b c k v, _ :: _ => leaf b c k v

/-- `ReplaceTip`: the node at the end of `p` is replaced by `m`. -/
def replaceAt : Node α H → List Bool → Node α H → Node α H
  | _, [], m => m
  | joint b c kp h c0 c1, d :: p, m =>
    if d then joint b c kp h c0 (replaceAt c1 p m) else joint b c kp h (replaceAt c0 p m) c1
  | leaf b c k v, _ :: _, _ => leaf b c k v

/-- One node of a walk towards the root: `f` updates it and the walk goes on, or
`f` returns `none` and the walk stops there. -/
def visit (f : Node α H → Option (Node α H)) (n : Node α H) : Node α H × Bool :=
  match f n with
  | some n' => (n', true)
  | none => (n, false)

/-- A loop `for (j = m_nPtrs; j--; )` from the tip of the path to the root that
stops at the first node `f` leaves alone.  The flag says whether the walk went on
past this node. -/
def upward (f : Node α H → Option (Node α H)) : Node α H → List Bool → Node α H × Bool
  | n, [] => visit f n
  | joint b c kp h c0 c1, d :: p =>
    if d then
      let r := upward f c1 p
      if r.2 then visit f (joint b c kp h c0 r.1) else (joint b c kp h c0 r.1, false)
    else
      let r := upward f c0 p
      if r.2 then visit f (joint b c kp h r.1 c1) else (joint b c kp h r.1 c1, false)
  | leaf b c k v, _ :: _ => (leaf b c k v, false)

/-- The body of `InvalidateElement`'s loop: a clean node is made dirty, and the
first dirty node ends the loop. -/
def clearClean (n : Node α H) : Option (Node α H) :=
  if n.isClean then some (n.setClean false) else none

/-- The body of `Delete`'s loop over the ancestors: a joint whose `m_pKeyPtr`
names the deleted leaf's key is re-pointed at `pKey1`, and the first other one
ends the loop. -/
def repointKey (pKeyDead pKey1 : Key) : Node α H → Option (Node α H)
  | joint b c kp h c0 c1 => if kp = pKeyDead then some (joint b c pKey1 h c0 c1) else none
  | leaf .. => none

@[simp] theorem nodeAt_nil (n : Node α H) : n.nodeAt [] = n := by cases n <;> rfl

@[simp] theorem nodeAt_joint_cons (b : Nat) (c : Bool) (kp : Key) (h : H) (c0 c1 : Node α H)
    (d : Bool) (p : List Bool) :
    (joint b c kp h c0 c1).nodeAt (d :: p) = if d then c1.nodeAt p else c0.nodeAt p := rfl

@[simp] theorem replaceAt_nil (n m : Node α H) : n.replaceAt [] m = m := by cases n <;> rfl

@[simp] theorem replaceAt_joint_cons (b : Nat) (c : Bool) (kp : Key) (h : H) (c0 c1 : Node α H)
    (d : Bool) (p : List Bool) (m : Node α H) :
    (joint b c kp h c0 c1).replaceAt (d :: p) m =
      if d then joint b c kp h c0 (c1.replaceAt p m) else joint b c kp h (c0.replaceAt p m) c1 :=
  rfl

@[simp] theorem upward_nil (f : Node α H → Option (Node α H)) (n : Node α H) :
    n.upward f [] = visit f n := by cases n <;> rfl

end Node

/-! ## `Goto` -/

open Node

/-- A cursor result with one more joint above it, reached through child `d`. -/
def CursorBase.push (d : Bool) (r : Bool × CursorBase) : Bool × CursorBase :=
  (r.1, { r.2 with pp := r.2.pp.map (d :: ·) })

variable {α H : Type}

/-- The bit loop of `Goto` inside node `p`, entered with `m_nBits = nb`: it
compares the key with `get_NodeKey(p)` up to `nThreshold` and either ends the
search here (`some`) or leaves the descent to the branch bit (`none`). -/
def stopAt (key : Key) (nBits : Nat) (p : Node α H) (nb : Nat) : Option (Bool × CursorBase) :=
  let thr := min (nb + p.getBits) nBits
  match firstMismatch key p.getNodeKey nb (thr - nb) with
  | some m => some (false, ⟨some [], m, m - nb⟩)
  | none => if thr = nBits then some (true, ⟨some [], thr, thr - nb⟩) else none

/-- The descent of `Goto` from node `p`, entered with `m_nBits = nb`. -/
def gotoNode (key : Key) (nBits : Nat) : Node α H → Nat → Bool × CursorBase
  | leaf b c k v, nb =>
    -- a leaf that ends above `nBits` would be read as a joint; no well-formed tree has one
    (stopAt key nBits (leaf b c k v : Node α H) nb).getD (false, ⟨some [], nb + b, b⟩)
  | joint b c kp h c0 c1, nb =>
    match stopAt key nBits (joint b c kp h c0 c1) nb with
    | some r => r
    | none =>
      if bit key (nb + b) then CursorBase.push true (gotoNode key nBits c1 (nb + b + 1))
      else CursorBase.push false (gotoNode key nBits c0 (nb + b + 1))

/-- `RadixTree::Goto`: whether the key is present, and the cursor it leaves. -/
def goto (t : RadixTree α H) (key : Key) (nBits : Nat) : Bool × CursorBase :=
  match t.root with
  | none => (nBits == 0, ⟨none, 0, 0⟩)
  | some r => gotoNode key nBits r 0

/-! ## `Find` and `Delete` -/

/-- What `RadixTree::Find` leaves: the tree, the cursor, whether the returned
leaf pointer is non-null, and the out-parameter `bCreate`. -/
structure FindResult (α H : Type) where
  tree : RadixTree α H
  cu : CursorBase
  found : Bool
  bCreate : Bool

/-- `CursorBase::InvalidateElement`. -/
def invalidateElement (t : RadixTree α H) (cu : CursorBase) : RadixTree α H :=
  match t.root, cu.pp with
  | some r, some p => ⟨some (r.upward clearClean p).1⟩
  | _, _ => t

/-- The joint `Find` puts in place of the node `old` where `Goto` stopped: it
compresses the `m_nPosInLastNode` bits the key shares with `old`, branches on the
next one, and has the new leaf and `old`, whose `m_Bits` lose those bits and the
branch bit, as children. -/
def split [Inhabited H] (old : Node α H) (key : Key) (nBits : Nat) (cu : CursorBase) (v0 : α) :
    Node α H :=
  let pN : Node α H := leaf (nBits - (cu.nBits + 1)) false key v0
  let old' := old.setBits (old.getBits - (cu.posInLastNode + 1))
  if bit key cu.nBits then joint cu.posInLastNode false old.getNodeKey default old' pN
  else joint cu.posInLastNode false old.getNodeKey default pN old'

/-- `RadixTree::Find`.  A created leaf carries the payload `v0` that
`CreateLeaf` hands out.  When the key is absent, the cursor is invalidated and
the node where `Goto` stopped is split. -/
def find [Inhabited H] (t : RadixTree α H) (key : Key) (nBits : Nat) (bCreate : Bool) (v0 : α) :
    FindResult α H :=
  let g := t.goto key nBits
  if g.1 then ⟨t, g.2, true, false⟩
  else if !bCreate then ⟨t, g.2, false, false⟩
  else
    match t.root, g.2.pp with
    | some r, some p =>
      let r1 := (r.upward clearClean p).1
      let iC := bit key g.2.nBits
      ⟨⟨some (r1.replaceAt p (split (r1.nodeAt p) key nBits g.2 v0))⟩,
        ⟨some (p ++ [iC]), nBits, nBits - (g.2.nBits + 1)⟩, true, true⟩
    | _, _ => ⟨⟨some (leaf nBits false key v0)⟩, ⟨some [], nBits, nBits⟩, true, true⟩

/-- `RadixTree::Delete` at a cursor on a leaf.  The leaf's slot in its parent
`pPrev` is cleared, so the remaining child `pN` is its sibling; the ancestors
whose `m_pKeyPtr` named the dead key are re-pointed at `pN`'s key, and `pN`
takes `pPrev`'s place, absorbing its bits and the branch bit. -/
def delete (t : RadixTree α H) (cu : CursorBase) : RadixTree α H :=
  match t.root, cu.pp with
  | some r, some p =>
    let r1 := (r.upward clearClean p).1
    let pKeyDead := (r1.nodeAt p).getNodeKey
    match p.getLast? with
    | none => ⟨none⟩
    | some d =>
      let q := p.dropLast
      let pPrev := r1.nodeAt q
      let pN := pPrev.nodeAt [!d]
      let r2 := (r1.upward (repointKey pKeyDead pN.getNodeKey) q).1
      ⟨some (r2.replaceAt q (pN.setBits (pN.getBits + pPrev.getBits + 1)))⟩
  | _, _ => t

end RadixTree

end Beam
