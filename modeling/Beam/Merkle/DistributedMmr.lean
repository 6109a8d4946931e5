import Beam.Merkle.MmrSpec

/-!
# `Merkle::DistributedMmr`

`src/core/merkle.cpp`.  A `DistributedMmr` keeps only the count and the key of
the last element; everything else lives in the caller's store, which hands
back, for the key of an element, its hash (`get_NodeHash`) and a buffer that
`Append` filled (`get_NodeData`).  The buffer of the element `e` holds the
hashes of the trees of height `1 ..= h` that end at `e` (`h` the number of
trailing one bits of `e`), the key of the last element of the left half of each,
and the key of the last element before the tree of height `h`.

`DistributedMmr::Impl` is the `Mmr` behind every method: its `LoadElement`
finds the element that ends the position, walking from element to element over
those keys with a stack of visited ones (`FindElement`); its `SaveElement`
writes the buffer of the element being appended.

`Stored` says that the store holds, for every element, what `Append` writes
(`BufferOK`); from it `FindElement` finds every element (`findElement_spec`), so
the loads of `Impl` are the trees (`loadsNodes_impl`); `myAppend_holds` shows
that appending keeps it.
-/

namespace Beam.Merkle

open MountainRange

variable {α Key : Type}

/-- What `get_NodeData` returns for an element: the hashes `Hash[h]`, then the
keys `Key[]`, of the buffer `Append` filled. -/
structure NodeData (α Key : Type) where
  hashes : Nat → α
  keys : Nat → Key

/-- `Merkle::DistributedMmr`: `m_Count` and `m_kLast`. -/
structure DistributedMmr (Key : Type) where
  count : Nat
  kLast : Key

namespace DistributedMmr

/-- `get_NodeData` and `get_NodeHash`, implemented by the derived class over its
store. -/
structure Env (α Key : Type) where
  getNodeData : Key → NodeData α Key
  getNodeHash : Key → α

/-- `DistributedMmr::Impl::Node`: an element and its key. -/
structure Node (Key : Type) where
  key : Key
  nIdx : Nat

/-- The state of `DistributedMmr::Impl` besides `m_Count`: the stack
`m_pNodes[0 ..= m_nDepth]` as its top `m_pNodes[m_nDepth]` and the nodes below
it, the top first; and the buffer `m_pTrgHash` / `m_pTrgKey` of the element
being appended, set only by `Append`. -/
structure Impl (α Key : Type) where
  top : Node Key
  below : List (Node Key)
  trg : Option (NodeData α Key)

/-! ## Heights -/

/-- `Impl::get_Height`: the number of trailing one bits of `n`. -/
def getHeight (n : Nat) : Nat :=
  if 1 &&& n != 0 then getHeight (n >>> 1) + 1 else 0
termination_by n
decreasing_by
  rw [shiftRight_one]
  simp only [Nat.one_and_eq_mod_two, bne_iff_ne, ne_eq] at *
  omega

/-- `Impl::get_NextPeak`: the height of the tree that ends at `n0`, and its first
element. -/
def getNextPeak (n0 : Nat) : Nat × Nat :=
  let h := getHeight n0
  (h, n0 - ((1 <<< h) - 1))

theorem getHeight_eq (n : Nat) : getHeight n = if n % 2 = 1 then getHeight (n / 2) + 1 else 0 := by
  rw [getHeight, Nat.one_and_eq_mod_two, shiftRight_one]
  rcases Nat.mod_two_eq_zero_or_one n with h | h <;> simp [h]

/-- The trees that end at `n` are those of height at most `getHeight n`. -/
theorem le_getHeight_iff : ∀ (h n : Nat), h ≤ getHeight n ↔ (n + 1) % 2 ^ h = 0
  | 0, n => by simp [Nat.mod_one]
  | h + 1, n => by
    rw [getHeight_eq]
    rcases Nat.mod_two_eq_zero_or_one n with hpar | hpar
    · -- `n + 1` is odd: no tree above a leaf ends at `n`
      have hodd : (n + 1) % 2 ^ (h + 1) % 2 = 1 := by
        rw [Nat.mod_mod_of_dvd _ (Nat.dvd_of_mod_eq_zero (by simp [Nat.pow_succ, Nat.mul_mod_left]))]
        omega
      simp only [hpar, zero_ne_one, ↓reduceIte, Nat.le_zero, Nat.add_one_ne_zero, false_iff]
      omega
    · have h2 : n + 1 = 2 * (n / 2 + 1) := by omega
      rw [if_pos hpar, Nat.add_le_add_iff_right, le_getHeight_iff h (n / 2), h2, Nat.pow_succ, Nat.mul_comm _ 2,
        Nat.mul_mod_mul_left]
      omega

theorem mod_two_pow_getHeight (n : Nat) : (n + 1) % 2 ^ getHeight n = 0 :=
  (le_getHeight_iff _ n).1 le_rfl

theorem two_pow_getHeight_le (n : Nat) : 2 ^ getHeight n ≤ n + 1 :=
  Nat.le_of_dvd (by omega) (Nat.dvd_of_mod_eq_zero (mod_two_pow_getHeight n))

/-- A tree of height `h ≤ getHeight e` that ends at `e` ends exactly there. -/
theorem end_of_le_getHeight {h e : Nat} (hh : h ≤ getHeight e) : ((e + 1) / 2 ^ h - 1 + 1) * 2 ^ h = e + 1 := by
  have hdvd : 2 ^ h ∣ e + 1 := Nat.dvd_of_mod_eq_zero ((le_getHeight_iff h e).1 hh)
  have hle : 2 ^ h ≤ e + 1 := Nat.le_of_dvd (by omega) hdvd
  rw [Nat.sub_add_cancel (Nat.div_pos hle (Nat.two_pow_pos h)), Nat.div_mul_cancel hdvd]

/-- Below the height of `e`, the left half of each tree that ends at `e` ends
before `e`. -/
theorem two_pow_le_of_lt_getHeight {j e : Nat} (hj : j < getHeight e) : 2 ^ j ≤ e := by
  have hle : 2 ^ (j + 1) ≤ e + 1 :=
    Nat.le_of_dvd (by omega) (Nat.dvd_of_mod_eq_zero ((le_getHeight_iff (j + 1) e).1 hj))
  have := Nat.one_le_two_pow (n := j)
  rw [Nat.pow_succ] at hle
  omega

/-- The height of the tree `(h, x)` that ends at `e` is that of `e` when `x` is a
left child. -/
theorem getHeight_of_even {e h x : Nat} (hx : (x + 1) * 2 ^ h = e + 1) (heven : x % 2 = 0) :
    getHeight e = h := by
  have hle : h ≤ getHeight e := (le_getHeight_iff h e).2 (by rw [← hx, Nat.mul_mod_left])
  have hnot : ¬ h + 1 ≤ getHeight e := by
    rw [le_getHeight_iff, ← hx, Nat.pow_succ, Nat.mul_comm (2 ^ h) 2, Nat.mul_mod_mul_right]
    have : (x + 1) % 2 = 1 := by omega
    rw [this, Nat.one_mul]
    exact Nat.pos_iff_ne_zero.1 (Nat.two_pow_pos h)
  omega

theorem getNextPeak_eq (n : Nat) : getNextPeak n = (getHeight n, n + 1 - 2 ^ getHeight n) := by
  have hle := two_pow_getHeight_le n
  have hpos := Nat.one_le_two_pow (n := getHeight n)
  rw [getNextPeak, Nat.shiftLeft_eq, Nat.one_mul]
  congr 1
  omega

/-! ## `FindElement` -/

/-- The inner loop of `Impl::FindElement`, in the tree of height `h` over
`nPos ..< nPos + dn` that holds `nIdx`: halve it until `nIdx` is in the left
half, and take the last element of that half, whose key is `pK[h - 1]`. -/
def descendLoop (pK : Nat → Key) (nIdx nPos dn : Nat) : Nat → Node Key
  -- `assert(h)`: never reached (`descendLoop_spec`)
  | 0 => ⟨pK 0, nPos⟩
  | h + 1 =>
    let dn := dn >>> 1
    if nIdx < nPos + dn then ⟨pK h, nPos + dn - 1⟩
    else descendLoop pK nIdx (nPos + dn) dn h

/-- The node `Impl::FindElement` pushes over `n` when `n` is past `nIdx`: one in
the tree that ends at `n` when `nIdx` is in it, else the last element before that
tree. -/
def nextNode (getNodeData : Key → NodeData α Key) (nIdx : Nat) (n : Node Key) : Node Key :=
  let nPos1 := n.nIdx
  let (h, nPos) := getNextPeak nPos1
  let pK := (getNodeData n.key).keys
  if nPos ≤ nIdx then descendLoop pK nIdx nPos (nPos1 - nPos + 1) h
  else ⟨pK h, nPos - 1⟩

/-- In the tree of height `h` that ends at `e`, the descent stops at the last
element of a left half: `e - 2 ^ j` for a `j < h`, not before `nIdx`. -/
theorem descendLoop_spec (pK : Nat → Key) {nIdx e : Nat} :
    ∀ (h nPos : Nat), nPos + 2 ^ h - 1 = e → nPos ≤ nIdx → nIdx < e →
      ∃ j < h, descendLoop pK nIdx nPos (2 ^ h) h = ⟨pK j, e - 2 ^ j⟩ ∧ nIdx ≤ e - 2 ^ j ∧ 2 ^ j ≤ e
  | 0, nPos, he, hlo, hhi => by simp at he; omega
  | h + 1, nPos, he, hlo, hhi => by
    have hdn : 2 ^ (h + 1) >>> 1 = 2 ^ h := by rw [shiftRight_one, Nat.pow_succ, Nat.mul_div_cancel _ (by omega)]
    have he' : nPos + 2 ^ h + 2 ^ h - 1 = e := by rw [← he, Nat.pow_succ]; omega
    have hp : 0 < 2 ^ h := Nat.two_pow_pos h
    simp only [descendLoop, hdn]
    split
    · -- `nIdx` is in the left half
      next hlt =>
      refine ⟨h, by omega, ?_, by omega, by omega⟩
      congr 1
      omega
    · -- on into the right half, which ends at `e` too
      next hge =>
      obtain ⟨j, hj, heq, hb⟩ := descendLoop_spec pK h (nPos + 2 ^ h) he' (by omega) hhi
      exact ⟨j, by omega, heq, hb⟩

/-- The node pushed over `n` is the last element of a left half in the tree that
ends at `n`, or the last element before that tree: `n.nIdx - 2 ^ j` for a
`j ≤ getHeight n.nIdx`, read from the keys of `n`, and not before `nIdx`. -/
theorem nextNode_eq (getNodeData : Key → NodeData α Key) {nIdx : Nat} {n : Node Key} (hlt : nIdx < n.nIdx) :
    ∃ j ≤ getHeight n.nIdx, nextNode getNodeData nIdx n = ⟨(getNodeData n.key).keys j, n.nIdx - 2 ^ j⟩ ∧
      nIdx ≤ n.nIdx - 2 ^ j ∧ 2 ^ j ≤ n.nIdx := by
  have hle := two_pow_getHeight_le n.nIdx
  have hpos := Nat.one_le_two_pow (n := getHeight n.nIdx)
  simp only [nextNode, getNextPeak_eq]
  split
  · -- `nIdx` is in the tree: descend it
    next hin =>
    have hdn : n.nIdx - (n.nIdx + 1 - 2 ^ getHeight n.nIdx) + 1 = 2 ^ getHeight n.nIdx := by omega
    rw [hdn]
    obtain ⟨j, hj, heq, hb⟩ := descendLoop_spec (getNodeData n.key).keys (getHeight n.nIdx)
      (n.nIdx + 1 - 2 ^ getHeight n.nIdx) (by omega) hin hlt
    exact ⟨j, hj.le, heq, hb⟩
  · -- the tree is past `nIdx`: the last element before it
    next hout =>
    exact ⟨getHeight n.nIdx, le_rfl, by congr 1; omega, by omega, by omega⟩

theorem nextNode_bounds (getNodeData : Key → NodeData α Key) {nIdx : Nat} {n : Node Key} (hlt : nIdx < n.nIdx) :
    nIdx ≤ (nextNode getNodeData nIdx n).nIdx ∧ (nextNode getNodeData nIdx n).nIdx < n.nIdx := by
  obtain ⟨j, -, heq, hb, hj⟩ := nextNode_eq getNodeData hlt
  rw [heq]
  have := Nat.one_le_two_pow (n := j)
  exact ⟨hb, by dsimp only; omega⟩

/-- `Impl::FindElement(nIdx)`: the key of the element `nIdx`, and the stack
after the walk, whose top is that element.  Nodes past `nIdx` are popped;
from a node before it, the walk pushes the next node towards it. -/
def findElement (getNodeData : Key → NodeData α Key) (nIdx : Nat) (top : Node Key) (below : List (Node Key)) :
    Key × Node Key × List (Node Key) :=
  if top.nIdx = nIdx then (top.key, top, below)
  else if top.nIdx < nIdx then
    match below with
    -- `assert(m_nDepth)`: never reached (`findElement_spec`)
    | [] => (top.key, top, [])
    | n :: below => findElement getNodeData nIdx n below
  else findElement getNodeData nIdx (nextNode getNodeData nIdx top) (top :: below)
termination_by (if nIdx ≤ top.nIdx then 0 else 1, if nIdx ≤ top.nIdx then top.nIdx - nIdx else below.length)
decreasing_by
  · -- a pop: to a node not before `nIdx`, or one node fewer before it
    have hbefore : ¬ nIdx ≤ top.nIdx := by omega
    simp only [hbefore, ↓reduceIte, List.length_cons]
    split
    · exact Prod.Lex.left _ _ Nat.zero_lt_one
    · exact Prod.Lex.right _ (Nat.lt_succ_self _)
  · -- a push: to a node between `nIdx` and the top
    obtain ⟨h1, h2⟩ := nextNode_bounds getNodeData (show nIdx < top.nIdx by omega)
    simp only [h1, show nIdx ≤ top.nIdx by omega, ↓reduceIte]
    exact Prod.Lex.right _ (by omega)

/-! ## `Impl` as an `Mmr` -/

/-- `Impl::LoadElement`: the element that carries the position `(h, x)` is the
last of its leaves; its own hash at height `0`, and a hash of its buffer above. -/
def loadElement (env : Env α Key) (h x : Nat) (s : Impl α Key) : α × Impl α Key :=
  let nIdx := ((x + 1) <<< h) - 1
  let (k, top, below) := findElement env.getNodeData nIdx s.top s.below
  (if h = 0 then env.getNodeHash k else (env.getNodeData k).hashes (h - 1), { s with top, below })

/-- `Impl::SaveElement`: above height `0`, the hash goes to the buffer, with the
key of the node on top of the stack. -/
def saveElement (h _x : Nat) (hash : α) (s : Impl α Key) : Impl α Key :=
  if h = 0 then s
  else { s with trg := s.trg.map fun b => ⟨Function.update b.hashes (h - 1) hash, Function.update b.keys (h - 1) s.top.key⟩ }

/-- `DistributedMmr::Impl` as the store of an `Mmr`. -/
def impl (env : Env α Key) : Store (Impl α Key) α :=
  ⟨loadElement env, saveElement⟩

/-- `Impl::Impl(x)`: the last element alone on the stack. -/
def Impl.init (d : DistributedMmr Key) (trg : Option (NodeData α Key)) : Impl α Key :=
  ⟨⟨d.kLast, d.count - 1⟩, [], trg⟩

@[simp] theorem saveElement_top {h x : Nat} {hash : α} {s : Impl α Key} : (saveElement h x hash s).top = s.top := by
  unfold saveElement; split <;> rfl

@[simp] theorem saveElement_below {h x : Nat} {hash : α} {s : Impl α Key} :
    (saveElement h x hash s).below = s.below := by
  unfold saveElement; split <;> rfl

@[simp] theorem loadElement_trg {env : Env α Key} {h x : Nat} {s : Impl α Key} :
    (loadElement env h x s).2.trg = s.trg := rfl

/-! ## The invariant -/

variable (hJ : α → α → α)

/-- The buffer `Append` fills for the element `e`, whose key is `key e`: for each
tree of height `j + 1` that ends at `e`, its hash and the key of the last element
of its left half; and the key of the last element before the highest of them,
if there is one. -/
structure BufferOK (f : Nat → α) (key : Nat → Key) (e : Nat) (b : NodeData α Key) : Prop where
  hashes : ∀ j < getHeight e, b.hashes j = node hJ f (j + 1) ((e + 1) / 2 ^ (j + 1) - 1)
  keys : ∀ j < getHeight e, b.keys j = key (e - 2 ^ j)
  prev : 2 ^ getHeight e ≤ e → b.keys (getHeight e) = key (e - 2 ^ getHeight e)

/-- The caller's store holds the hash and the buffer of every element below
`count`, under its key. -/
structure Stored (f : Nat → α) (key : Nat → Key) (env : Env α Key) (count : Nat) : Prop where
  hash : ∀ e < count, env.getNodeHash (key e) = f e
  data : ∀ e < count, BufferOK hJ f key e (env.getNodeData (key e))

/-- The stack of `Impl`: every node is an element below `count` with its key, and
one of them is the last element. -/
structure StackOK (key : Nat → Key) (count : Nat) (top : Node Key) (below : List (Node Key)) : Prop where
  keys : ∀ n ∈ top :: below, n.key = key n.nIdx ∧ n.nIdx < count
  last : ∃ n ∈ top :: below, n.nIdx = count - 1

variable {hJ}

/-- A buffer reads the leaves up to its element and the keys before it. -/
theorem BufferOK.congr {f g : Nat → α} {key key' : Nat → Key} {e : Nat} {b : NodeData α Key}
    (hb : BufferOK hJ f key e b) (hf : ∀ i ≤ e, f i = g i) (hk : ∀ i < e, key i = key' i) :
    BufferOK hJ g key' e b where
  hashes j hj := by
    have hend := end_of_le_getHeight (show j + 1 ≤ getHeight e from hj)
    rw [hb.hashes j hj]
    exact node_congr fun i _ hi => hf i (by omega)
  keys j hj := by
    have := two_pow_le_of_lt_getHeight hj
    have := Nat.one_le_two_pow (n := j)
    rw [hb.keys j hj, hk _ (by omega)]
  prev he := by
    have := Nat.one_le_two_pow (n := getHeight e)
    rw [hb.prev he, hk _ (by omega)]

theorem BufferOK.key_of_le {f : Nat → α} {key : Nat → Key} {e j : Nat} {b : NodeData α Key}
    (hb : BufferOK hJ f key e b) (hj : j ≤ getHeight e) (he : 2 ^ j ≤ e) : b.keys j = key (e - 2 ^ j) := by
  rcases Nat.lt_or_eq_of_le hj with hlt | rfl
  · exact hb.keys j hlt
  · exact hb.prev he

section Find

variable {f : Nat → α} {key : Nat → Key} {env : Env α Key} {count : Nat}

/-- The node pushed over an element of the stack is an element with its key. -/
theorem nextNode_key (hS : Stored hJ f key env count) {nIdx : Nat} {n : Node Key}
    (hn : n.key = key n.nIdx ∧ n.nIdx < count) (hlt : nIdx < n.nIdx) :
    (nextNode env.getNodeData nIdx n).key = key (nextNode env.getNodeData nIdx n).nIdx := by
  obtain ⟨j, hj, heq, -, he⟩ := nextNode_eq env.getNodeData hlt
  rw [heq, hn.1]
  exact (hS.data n.nIdx hn.2).key_of_le hj he

/-- **`FindElement` finds every element.**  From a stack of elements with their
keys that holds the last one, the walk to `nIdx` returns its key and leaves it
on top of such a stack. -/
theorem findElement_spec (hS : Stored hJ f key env count) {nIdx : Nat} (hn : nIdx < count)
    (top : Node Key) (below : List (Node Key)) (hst : StackOK key count top below) :
    (findElement env.getNodeData nIdx top below).1 = key nIdx ∧
      (findElement env.getNodeData nIdx top below).2.1 = ⟨key nIdx, nIdx⟩ ∧
      StackOK key count (findElement env.getNodeData nIdx top below).2.1
        (findElement env.getNodeData nIdx top below).2.2 := by
  fun_induction findElement env.getNodeData nIdx top below with
  | case1 top below heq =>
    have htop := hst.keys top List.mem_cons_self
    exact ⟨by rw [htop.1, heq], by rw [← heq, ← htop.1], hst⟩
  | case2 top hne hlt =>
    -- alone on the stack, the top is the last element, not before `nIdx`
    obtain ⟨n, hmem, hlast⟩ := hst.last
    rw [List.mem_singleton] at hmem
    subst hmem
    omega
  | case3 top hne hlt n below ih =>
    -- a pop keeps the last element, which is not the top
    apply ih
    refine ⟨fun m hm => hst.keys m (List.mem_cons_of_mem _ hm), ?_⟩
    obtain ⟨m, hmem, hlast⟩ := hst.last
    rcases List.mem_cons.1 hmem with rfl | hmem
    · omega
    · exact ⟨m, hmem, hlast⟩
  | case4 top below hne hlt ih =>
    have htop := hst.keys top List.mem_cons_self
    have hb := nextNode_bounds env.getNodeData (show nIdx < top.nIdx by omega)
    apply ih
    refine ⟨fun m hm => ?_, ?_⟩
    · rcases List.mem_cons.1 hm with rfl | hm
      · exact ⟨nextNode_key hS htop (by omega), by omega⟩
      · exact hst.keys m hm
    · obtain ⟨m, hmem, hlast⟩ := hst.last
      exact ⟨m, List.mem_cons_of_mem _ hmem, hlast⟩

theorem loadElement_eq {h x : Nat} {s : Impl α Key} :
    loadElement env h x s =
      ((if h = 0 then env.getNodeHash (findElement env.getNodeData ((x + 1) * 2 ^ h - 1) s.top s.below).1
        else (env.getNodeData (findElement env.getNodeData ((x + 1) * 2 ^ h - 1) s.top s.below).1).hashes (h - 1)),
      { s with top := (findElement env.getNodeData ((x + 1) * 2 ^ h - 1) s.top s.below).2.1,
               below := (findElement env.getNodeData ((x + 1) * 2 ^ h - 1) s.top s.below).2.2 }) := by
  rw [loadElement, Nat.shiftLeft_eq]

/-- **`LoadElement` reads the tree.**  The position `(h, x)` is carried by the
element `(x + 1) * 2 ^ h - 1`, which the walk leaves on top of the stack. -/
theorem loadElement_spec (hS : Stored hJ f key env count) {h x : Nat} {s : Impl α Key}
    (hs : StackOK key count s.top s.below) (hx : (x + 1) * 2 ^ h ≤ count) :
    (loadElement env h x s).1 = node hJ f h x ∧
      (loadElement env h x s).2.top = ⟨key ((x + 1) * 2 ^ h - 1), (x + 1) * 2 ^ h - 1⟩ ∧
      StackOK key count (loadElement env h x s).2.top (loadElement env h x s).2.below := by
  have hp := Nat.two_pow_pos h
  have hpos : 0 < (x + 1) * 2 ^ h := Nat.mul_pos (Nat.succ_pos x) hp
  obtain ⟨hk, htop, hst⟩ := findElement_spec hS (show (x + 1) * 2 ^ h - 1 < count by omega) s.top s.below hs
  rw [loadElement_eq]
  refine ⟨?_, htop, hst⟩
  rw [hk]
  split
  · -- a leaf: the element's own hash
    next h0 =>
    subst h0
    rw [hS.hash _ (by omega), node_zero]
    simp
  · -- a tree above a leaf: the buffer of its last element
    next h0 =>
    have he : (x + 1) * 2 ^ h - 1 + 1 = (x + 1) * 2 ^ h := by omega
    have hle : h ≤ getHeight ((x + 1) * 2 ^ h - 1) := (le_getHeight_iff _ _).2 (by rw [he, Nat.mul_mod_left])
    rw [(hS.data _ (by omega)).hashes (h - 1) (by omega), Nat.sub_add_cancel (by omega), he,
      Nat.mul_div_cancel _ hp, Nat.add_sub_cancel]

/-- The loads of `Impl` are the trees, for a stack of elements that holds the
last (when there is one). -/
theorem loadsNodes_impl (hS : Stored hJ f key env count) :
    LoadsNodes hJ (impl env) (fun s => 0 < count → StackOK key count s.top s.below) f count := by
  intro s h x hs hx
  have hpos : 0 < count := Nat.lt_of_lt_of_le (Nat.mul_pos (Nat.succ_pos x) (Nat.two_pow_pos h)) hx
  obtain ⟨hv, -, hst⟩ := loadElement_spec hS (hs hpos) hx
  exact ⟨hv, fun _ => hst⟩

end Find

/-! ## The methods -/

section Methods

variable (hJ : α → α → α)

/-- `DistributedMmr::get_Hash`. -/
def getHash (env : Env α Key) (zero : α) (d : DistributedMmr Key) : α :=
  (Merkle.getHash hJ (impl env) zero d.count (Impl.init d none)).1

/-- `DistributedMmr::get_PredictedHash`. -/
def getPredictedHash (env : Env α Key) (d : DistributedMmr Key) (hvAppend : α) : α :=
  (Merkle.getPredictedHash hJ (impl env) d.count hvAppend (Impl.init d none)).1

/-- `DistributedMmr::get_Proof` into a `ProofBuilderStd`. -/
def getProof [Inhabited α] (env : Env α Key) (d : DistributedMmr Key) (i : Nat) : List (Bool × α) :=
  (Merkle.getProof hJ (impl env) d.count i (Impl.init d none)).1

/-- `DistributedMmr::Append(k, pBuf, hash)`: the new state, and the buffer
`pBuf` as `Append` leaves it. -/
def append (env : Env α Key) (d : DistributedMmr Key) (k : Key) (pBuf : NodeData α Key) (hash : α) :
    DistributedMmr Key × NodeData α Key :=
  let (h, n) := getNextPeak d.count
  let s := (Merkle.append hJ (impl env) d.count hash (Impl.init d (some pBuf))).2
  -- `m_pTrgKey[h] = FindElement(n - 1)`: the last element before the new peak
  let s := if n ≠ 0 then
      let (k', top, below) := findElement env.getNodeData (n - 1) s.top s.below
      { s with top, below, trg := s.trg.map fun b => { b with keys := Function.update b.keys h k' } }
    else s
  (⟨d.count + 1, k⟩, s.trg.getD pBuf)

/-- The caller keeps the buffer and the hash of an appended element under its
key, which `get_NodeData` and `get_NodeHash` then return. -/
def Env.store [DecidableEq Key] (env : Env α Key) (k : Key) (b : NodeData α Key) (hv : α) : Env α Key :=
  ⟨Function.update env.getNodeData k b, Function.update env.getNodeHash k hv⟩

/-- `MyDmmr::MyAppend` of the test: append under the key `k` of a new element,
with its buffer, and keep both. -/
def myAppend [DecidableEq Key] (env : Env α Key) (d : DistributedMmr Key) (k : Key) (pBuf : NodeData α Key)
    (hv : α) : Env α Key × DistributedMmr Key :=
  let (d', b) := append hJ env d k pBuf hv
  (env.store k b hv, d')

/-- A `DistributedMmr` and its caller's store, for the leaves `f` under the keys
`key`: every element is stored, and `m_kLast` is the key of the last. -/
structure Holds (f : Nat → α) (key : Nat → Key) (env : Env α Key) (d : DistributedMmr Key) : Prop where
  stored : Stored hJ f key env d.count
  kLast : 0 < d.count → d.kLast = key (d.count - 1)

end Methods

/-! ## `Append` -/

section Append

variable (hJ) in
/-- The buffer of the new element `e` once `Replace` has saved its trees of
height `1 ..= h`. -/
def Filled (f : Nat → α) (key : Nat → Key) (e h : Nat) (b : NodeData α Key) : Prop :=
  ∀ j < h, b.hashes j = node hJ f (j + 1) ((e + 1) / 2 ^ (j + 1) - 1) ∧ b.keys j = key (e - 2 ^ j)

variable {f f' : Nat → α} {key : Nat → Key} {env : Env α Key} {count : Nat}

/-- `SaveElement` of the tree `(h, x)` that ends at `e` fills height `h`, with
the key of the element on top of the stack. -/
theorem saveElement_filled {h x e : Nat} {s : Impl α Key} {b : NodeData α Key} (hx : (x + 1) * 2 ^ h = e + 1)
    (htrg : s.trg = some b) (hb : Filled hJ f key e (h - 1) b) (htop : 0 < h → s.top.key = key (e - 2 ^ (h - 1))) :
    ∃ b', (saveElement h x (node hJ f h x) s).trg = some b' ∧ Filled hJ f key e h b' := by
  unfold saveElement
  split
  · -- a leaf: nothing to save
    next h0 =>
    subst h0
    exact ⟨b, htrg, fun j hj => absurd hj (Nat.not_lt_zero j)⟩
  · next h0 =>
    refine ⟨_, by rw [htrg]; rfl, fun j hj => ?_⟩
    dsimp only
    rcases Nat.lt_or_eq_of_le (show j ≤ h - 1 by omega) with hlt | rfl
    · -- a height saved before
      rw [Function.update_of_ne (by omega), Function.update_of_ne (by omega)]
      exact hb j hlt
    · -- this height
      have hx' : (e + 1) / 2 ^ (h - 1 + 1) - 1 = x := by
        rw [Nat.sub_add_cancel (by omega), ← hx, Nat.mul_div_cancel _ (Nat.two_pow_pos h), Nat.add_sub_cancel]
      rw [Function.update_self, Function.update_self, hx', Nat.sub_add_cancel (by omega)]
      exact ⟨rfl, htop (by omega)⟩

/-- **`Replace` of the new element fills its buffer.**  At height `h` the loop
stands at the tree `(h, x)` that ends at the new element `count`; the buffer
holds the trees below `h`, and the stack has on top the last element of the left
half of `(h, x)`, which the load of the sibling below left there.  The loop
fills every height up to that of `count`, and keeps the stack. -/
theorem replaceLoop_filled (hS : Stored hJ f key env count) (hf' : ∀ i < count, f' i = f i) :
    ∀ (n h x : Nat) (s : Impl α Key) (b : NodeData α Key),
      (x + 1) * 2 ^ h = count + 1 → n = (count + 1) / 2 ^ h →
      (0 < count → StackOK key count s.top s.below) → s.trg = some b → Filled hJ f' key count (h - 1) b →
      (0 < h → s.top.key = key (count - 2 ^ (h - 1))) →
      ∃ b', (replaceLoop hJ (impl env) h x n (node hJ f' h x) s).trg = some b' ∧
        Filled hJ f' key count (getHeight count) b' ∧
        (0 < count → StackOK key count (replaceLoop hJ (impl env) h x n (node hJ f' h x) s).top
          (replaceLoop hJ (impl env) h x n (node hJ f' h x) s).below) := by
  intro n
  induction n using Nat.strong_induction_on with
  | _ n ih =>
    intro h x s b hx hn hst htrg hb htop
    have hp := Nat.two_pow_pos h
    have hnx : n = x + 1 := by rw [hn, ← hx, Nat.mul_div_cancel _ hp]
    obtain ⟨b1, htrg1, hb1⟩ := saveElement_filled hx htrg hb htop
    rcases Nat.mod_two_eq_zero_or_one x with hpar | hpar
    · -- a left child: the loop stops, at the height of `count`
      rw [replaceLoop_of_even hpar (by omega)]
      refine ⟨b1, htrg1, getHeight_of_even hx hpar ▸ hb1, fun hc => ?_⟩
      simpa [impl] using hst hc
    · -- a right child: load the left sibling, which leaves its last element on top
      have hsib := sibling_full hx hpar
      have hc : 0 < count := Nat.lt_of_lt_of_le (Nat.mul_pos (by omega) hp) hsib
      have hst1 : StackOK key count (saveElement h x (node hJ f' h x) s).top
          (saveElement h x (node hJ f' h x) s).below := by simpa using hst hc
      obtain ⟨hv0, htop2, hst2⟩ := loadElement_spec hS hst1 hsib
      rw [replaceLoop_of_odd hpar (by omega)]
      simp only [impl]
      have hup : hJ (loadElement env h (x - 1) (saveElement h x (node hJ f' h x) s)).1 (node hJ f' h x) =
          node hJ f' (h + 1) (x / 2) := by
        rw [hv0, node_congr fun i _ hi => (hf' i (by omega)).symm]
        exact node_succ_of_odd hpar
      rw [hup]
      refine ih (n / 2) (by omega) (h + 1) (x / 2) _ b1 (parent_end hx hpar) (count_div_succ hn)
        (fun _ => hst2) (by rw [loadElement_trg, htrg1]) (by simpa using hb1) (fun _ => ?_)
      rw [htop2, Nat.add_sub_cancel, show x - 1 + 1 = x by omega]
      show key (x * 2 ^ h - 1) = key (count - 2 ^ h)
      have hsplit : (x + 1) * 2 ^ h = x * 2 ^ h + 2 ^ h := by ring
      congr 1
      omega

theorem init_stackOK {d : DistributedMmr Key} (hd : Holds hJ f key env d) (trg : Option (NodeData α Key)) :
    0 < d.count → StackOK key d.count (Impl.init d trg).top (Impl.init d trg).below := by
  intro hc
  refine ⟨fun n hn => ?_, ⟨_, List.mem_cons_self, rfl⟩⟩
  dsimp only [Impl.init] at hn
  rw [List.mem_singleton] at hn
  subst hn
  exact ⟨hd.kLast hc, Nat.sub_lt hc Nat.one_pos⟩

/-- **`Append` fills the buffer of the new element.**  For leaves `f'` that keep
the first `count` and put the appended hash after them. -/
theorem append_bufferOK {d : DistributedMmr Key} (hd : Holds hJ f key env d) (hf' : ∀ i < d.count, f' i = f i)
    {hash : α} (hnew : f' d.count = hash) (k : Key) (pBuf : NodeData α Key) :
    BufferOK hJ f' key d.count (append hJ env d k pBuf hash).2 := by
  have hv : node hJ f' 0 d.count = hash := by rw [node_zero, hnew]
  obtain ⟨b, htrg, hfill, hst⟩ := replaceLoop_filled hd.stored hf' (d.count + 1) 0 d.count
    (Impl.init d (some pBuf)) pBuf (by simp) (by simp) (init_stackOK hd _) rfl (fun j hj => absurd hj (by omega))
    (fun h0 => absurd h0 (by omega))
  rw [hv] at htrg hst
  have hpos := Nat.one_le_two_pow (n := getHeight d.count)
  rw [append, getNextPeak_eq]
  dsimp only [Merkle.append, replace]
  generalize replaceLoop hJ (impl env) 0 d.count (d.count + 1) hash (Impl.init d (some pBuf)) = s at htrg hst ⊢
  split
  · -- an element before the new peak: `FindElement` gives its key
    next hn =>
    obtain ⟨hk, -, -⟩ := findElement_spec hd.stored (show d.count + 1 - 2 ^ getHeight d.count - 1 < d.count by omega)
      s.top s.below (hst (by omega))
    simp only [htrg, hk, Option.map_some, Option.getD_some]
    refine ⟨fun j hj => (hfill j hj).1, fun j hj => ?_, fun _ => ?_⟩ <;> dsimp only
    · rw [Function.update_of_ne (by omega)]
      exact (hfill j hj).2
    · rw [Function.update_self]
      congr 1
      omega
  · -- the new peak starts at the first element
    next hn =>
    simp only [htrg, Option.getD_some]
    exact ⟨fun j hj => (hfill j hj).1, fun j hj => (hfill j hj).2, fun hle => absurd hle (by omega)⟩

theorem holds_empty (f : Nat → α) (key : Nat → Key) (env : Env α Key) (kLast : Key) :
    Holds hJ f key env ⟨0, kLast⟩ :=
  ⟨⟨fun _ he => absurd he (Nat.not_lt_zero _), fun _ he => absurd he (Nat.not_lt_zero _)⟩,
    fun h0 => absurd h0 (Nat.lt_irrefl 0)⟩

theorem myAppend_fst [DecidableEq Key] {d : DistributedMmr Key} {k : Key} {pBuf : NodeData α Key} {hv : α} :
    (myAppend hJ env d k pBuf hv).1 = env.store k (append hJ env d k pBuf hv).2 hv := rfl

theorem myAppend_snd [DecidableEq Key] {d : DistributedMmr Key} {k : Key} {pBuf : NodeData α Key} {hv : α} :
    (myAppend hJ env d k pBuf hv).2 = ⟨d.count + 1, k⟩ := rfl

/-- **Appending keeps the invariant.**  The new element takes a key `k` that no
element has; the leaves `f'` keep the first `count` and put `hv` after them. -/
theorem myAppend_holds [DecidableEq Key] {d : DistributedMmr Key} (hd : Holds hJ f key env d)
    (hf' : ∀ i < d.count, f' i = f i) {hv : α} (hnew : f' d.count = hv) {k : Key}
    (hfresh : ∀ i < d.count, key i ≠ k) (pBuf : NodeData α Key) :
    Holds hJ f' (Function.update key d.count k) (myAppend hJ env d k pBuf hv).1 (myAppend hJ env d k pBuf hv).2 := by
  have hb := append_bufferOK hd hf' hnew k pBuf
  have hkey : ∀ i < d.count, key i = Function.update key d.count k i :=
    fun i hi => (Function.update_of_ne (Nat.ne_of_lt hi) _ _).symm
  rw [myAppend_fst, myAppend_snd]
  refine ⟨⟨fun e he => ?_, fun e he => ?_⟩, fun _ => ?_⟩
  · -- the hashes
    simp only [Env.store]
    rcases Nat.lt_or_eq_of_le (Nat.le_of_lt_succ he) with he | rfl
    · rw [← hkey e he, Function.update_of_ne (hfresh e he), hd.stored.hash e he, hf' e he]
    · rw [Function.update_self, Function.update_self, hnew]
  · -- the buffers: the new one, and the old ones unchanged under their keys
    simp only [Env.store]
    rcases Nat.lt_or_eq_of_le (Nat.le_of_lt_succ he) with he | rfl
    · rw [← hkey e he, Function.update_of_ne (hfresh e he)]
      exact (hd.stored.data e he).congr (fun i hi => (hf' i (by omega)).symm) fun i hi => hkey i (by omega)
    · rw [Function.update_self, Function.update_self]
      exact hb.congr (fun _ _ => rfl) hkey
  · -- `m_kLast` is the new key
    rw [Nat.add_sub_cancel, Function.update_self]

/-! ## What the methods compute -/

/-- **`get_Hash` is the root.** -/
theorem getHash_eq {d : DistributedMmr Key} (hd : Holds hJ f key env d) (zero : α) :
    getHash hJ env zero d = (root hJ f d.count).getD zero :=
  (Merkle.getHash_spec (loadsNodes_impl hd.stored) zero (init_stackOK hd none)).1

/-- **`get_PredictedHash` is the root after the append.** -/
theorem getPredictedHash_eq {d : DistributedMmr Key} (hd : Holds hJ f key env d) (hf' : ∀ i < d.count, f' i = f i)
    {hv : α} (hnew : f' d.count = hv) :
    some (getPredictedHash hJ env d hv) = root hJ f' (d.count + 1) :=
  getPredictedHash_eq_root (loadsNodes_impl hd.stored) hf' hnew (init_stackOK hd none)

/-- **`get_Proof` reads the trees**: the proof is the one from the trees themselves. -/
theorem getProof_eq [Inhabited α] {d : DistributedMmr Key} (hd : Holds hJ f key env d) {i : Nat} (hi : i < d.count) :
    getProof hJ env d i = (Merkle.getProof hJ (Store.ofFun fun h x => node hJ f h x) d.count i ()).1 :=
  getProof_ofFun (loadsNodes_impl hd.stored) (init_stackOK hd none) hi

end Append

end DistributedMmr

end Beam.Merkle
