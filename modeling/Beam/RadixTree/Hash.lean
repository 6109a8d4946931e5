import Beam.RadixTree.Shape

/-!
# The hash cache of `RadixHashTree`

`RadixHashTree::get_Hash` hashes a leaf with the virtual `get_LeafHash` and a
joint with the hash of its two children's hashes.  A joint caches its hash in
`m_Hash` and marks it with `s_Clean`; `get_Hash` recomputes only the joints
that are not clean, and sets `s_Clean` on every node it visits.  A change below
a node is reported by `InvalidateElement`, which clears `s_Clean` from the tip
of the cursor upwards and stops at the first node already dirty.

That early stop is sound only if dirtiness is closed upwards: a clean node has
clean children.  `CacheOK` is that invariant together with the soundness of
each clean joint's `m_Hash`; `hashOf` is the hash a node stands for, with the
cache ignored.

* `getHash_spec`: on a sound cache `get_Hash` returns `hashOf` and leaves a sound
  cache with the same tree;
* `invalidate_replaceAt`: a node changed in place, with its flag kept, and then
  invalidated along its path leaves a sound cache with the whole path dirty;
* `CacheOK.replaceAt`: below a dirty path any sound subtree may be put in.
-/

namespace Beam.RadixTree

namespace Node

variable {α H : Type}

section Hash

variable (hJ : H → H → H) (lh : Key → α → H)

/-- The hash a node stands for: `get_LeafHash` at a leaf, and at a joint the
hash of its children's hashes, whatever the cache holds. -/
def hashOf {H' : Type} : Node α H' → H
  | leaf _ _ k v => lh k v
  | joint _ _ _ _ c0 c1 => hJ (hashOf c0) (hashOf c1)

/-- `RadixHashTree::get_Hash(Node&, Merkle::Hash&)`: the node's hash, and the node
with the hashes it had to compute cached and `s_Clean` set where it went. -/
def getHash : Node α H → H × Node α H
  | leaf b _ k v => (lh k v, leaf b true k v)
  | joint b c kp h c0 c1 =>
    if c then (h, joint b c kp h c0 c1)
    else
      let r0 := getHash c0
      let r1 := getHash c1
      (hJ r0.1 r1.1, joint b true kp (hJ r0.1 r1.1) r0.2 r1.2)

/-- The cache is sound: a clean joint holds the hash its children stand for, and
its children are clean too. -/
def CacheOK : Node α H → Prop
  | leaf .. => True
  | joint _ c _ h c0 c1 =>
    CacheOK c0 ∧ CacheOK c1 ∧
      (c = true → c0.isClean = true ∧ c1.isClean = true ∧ h = hJ (hashOf hJ lh c0) (hashOf hJ lh c1))

end Hash

/-- Every node from this one down to the end of `p` is dirty. -/
def DirtyAlong : Node α H → List Bool → Prop
  | n, [] => n.isClean = false
  | joint _ c _ _ c0 c1, d :: p => c = false ∧ if d then DirtyAlong c1 p else DirtyAlong c0 p
  | leaf _ c _ _, _ :: _ => c = false

variable {hJ : H → H → H} {lh : Key → α → H}

/-! ## What the hash depends on -/

@[simp] theorem hashOf_erase {H' : Type} (n : Node α H') : n.erase.hashOf hJ lh = n.hashOf hJ lh := by
  induction n with
  | leaf => rfl
  | joint b c kp h c0 c1 ih0 ih1 => simp [erase, hashOf, ih0, ih1]

theorem hashOf_congr {n n' : Node α H} (h : n.erase = n'.erase) : n.hashOf hJ lh = n'.hashOf hJ lh := by
  rw [← hashOf_erase, h, hashOf_erase]

@[simp] theorem hashOf_setBits (b : Nat) (n : Node α H) : (n.setBits b).hashOf hJ lh = n.hashOf hJ lh := by
  cases n <;> rfl

@[simp] theorem hashOf_setClean (c : Bool) (n : Node α H) :
    (n.setClean c).hashOf hJ lh = n.hashOf hJ lh := by
  cases n <;> rfl

/-! ## The invariant under small changes -/

theorem setClean_of_isClean {n : Node α H} {c : Bool} (h : n.isClean = c) : n.setClean c = n := by
  cases n <;> simp_all [isClean, setClean]

@[simp] theorem dirtyAlong_nil (n : Node α H) : n.DirtyAlong [] ↔ n.isClean = false := by
  cases n <;> rfl

theorem DirtyAlong.isClean {n : Node α H} {p : List Bool} (h : n.DirtyAlong p) : n.isClean = false := by
  cases p with
  | nil => exact (dirtyAlong_nil n).mp h
  | cons d p =>
    cases n with
    | leaf => exact h
    | joint => exact h.1

theorem CacheOK.setClean_false {n : Node α H} (h : n.CacheOK hJ lh) : (n.setClean false).CacheOK hJ lh := by
  cases n with
  | leaf => trivial
  | joint b c kp hh c0 c1 => exact ⟨h.1, h.2.1, fun hc => Bool.noConfusion hc⟩

theorem CacheOK.setBits {n : Node α H} (h : n.CacheOK hJ lh) (b : Nat) : (n.setBits b).CacheOK hJ lh := by
  cases n with
  | leaf => trivial
  | joint => exact h

theorem CacheOK.nodeAt {n : Node α H} (h : n.CacheOK hJ lh) (p : List Bool) : (n.nodeAt p).CacheOK hJ lh := by
  induction n generalizing p with
  | leaf => cases p <;> trivial
  | joint b c kp hh c0 c1 ih0 ih1 =>
    cases p with
    | nil => exact h
    | cons d p => cases d <;> simp [ih0 h.1, ih1 h.2.1]

/-- A clean node has clean children, so a dirty child has a dirty parent. -/
theorem CacheOK.dirty_of_child {b : Nat} {c : Bool} {kp : Key} {hh : H} {c0 c1 : Node α H}
    (h : (joint b c kp hh c0 c1).CacheOK hJ lh) (d : Bool)
    (hd : (if d then c1 else c0).isClean = false) : c = false := by
  cases hc : c
  · rfl
  · obtain ⟨h0, h1, -⟩ := h.2.2 hc
    cases d <;> simp_all

/-! ## `get_Hash` -/

/-- **`get_Hash` on a sound cache** returns the hash the node stands for, and
leaves the same tree, clean, with a sound cache. -/
theorem getHash_spec {n : Node α H} (h : n.CacheOK hJ lh) :
    (n.getHash hJ lh).1 = n.hashOf hJ lh ∧ (n.getHash hJ lh).2.CacheOK hJ lh ∧
      (n.getHash hJ lh).2.isClean = true ∧ (n.getHash hJ lh).2.erase = n.erase := by
  induction n with
  | leaf => exact ⟨rfl, trivial, rfl, rfl⟩
  | joint b c kp hh c0 c1 ih0 ih1 =>
    obtain ⟨h0, h1, hc⟩ := h
    cases c
    · -- a dirty joint: both children are hashed, and the result cached
      obtain ⟨e0, k0, l0, r0⟩ := ih0 h0
      obtain ⟨e1, k1, l1, r1⟩ := ih1 h1
      simp only [getHash, Bool.false_eq_true, ↓reduceIte]
      refine ⟨by simp [hashOf, e0, e1], ⟨k0, k1, fun _ => ⟨l0, l1, ?_⟩⟩, rfl, by simp [erase, r0, r1]⟩
      rw [e0, e1, hashOf_congr r0, hashOf_congr r1]
    · -- a clean joint: its cached hash is returned as it is
      obtain ⟨-, -, hh'⟩ := hc rfl
      exact ⟨by simp [getHash, hashOf, hh'], ⟨h0, h1, hc⟩, rfl, rfl⟩

/-! ## `InvalidateElement` -/

/-- One step of `InvalidateElement`: the node ends dirty, and the loop goes on
exactly when it was clean. -/
theorem visit_clearClean (n : Node α H) : visit clearClean n = (n.setClean false, n.isClean) := by
  unfold visit clearClean
  cases h : n.isClean
  · simp [setClean_of_isClean h]
  · simp

theorem replaceAt_nodeAt_self {n : Node α H} {p : List Bool} (hp : n.ValidPath p) :
    n.replaceAt p (n.nodeAt p) = n := by
  induction n generalizing p with
  | leaf => cases p with
    | nil => rfl
    | cons => exact absurd hp id
  | joint b c kp hh c0 c1 ih0 ih1 =>
    cases p with
    | nil => rfl
    | cons d p =>
      cases d
      · simp [ih0 (p := p) hp]
      · simp [ih1 (p := p) hp]

/-- **A node changed in place, then `InvalidateElement`.**  If the new node `m`
keeps the `s_Clean` flag of the node it replaces, the walk from it towards the
root leaves a sound cache and the whole path dirty; when it stops early, it
stops below a dirty node. -/
theorem invalidate_replaceAt {m : Node α H} (hm : m.CacheOK hJ lh) :
    ∀ {n : Node α H} {p : List Bool}, n.CacheOK hJ lh → n.ValidPath p →
      m.isClean = (n.nodeAt p).isClean →
      ((n.replaceAt p m).upward clearClean p).1.CacheOK hJ lh ∧
        ((n.replaceAt p m).upward clearClean p).1.DirtyAlong p ∧
        (((n.replaceAt p m).upward clearClean p).2 = false → n.isClean = false) := by
  have hnil : ∀ {n : Node α H}, m.isClean = n.isClean →
      ((n.replaceAt [] m).upward clearClean []).1.CacheOK hJ lh ∧
        ((n.replaceAt [] m).upward clearClean []).1.DirtyAlong [] ∧
        (((n.replaceAt [] m).upward clearClean []).2 = false → n.isClean = false) := by
    intro n hc
    simp only [replaceAt_nil, upward_nil, visit_clearClean]
    exact ⟨hm.setClean_false, by simp, fun h => hc ▸ h⟩
  intro n
  induction n with
  | leaf b c k v =>
    intro p _ hp hc
    cases p with
    | nil => exact hnil hc
    | cons => exact absurd hp id
  | joint b c kp hh c0 c1 ih0 ih1 =>
    intro p hn hp hc
    cases p with
    | nil => exact hnil hc
    | cons d p =>
      have h0 := hn.1
      have h1 := hn.2.1
      -- the walk below, then this joint: visited if the walk went on, left alone otherwise
      cases d
      · obtain ⟨k, dd, hstop⟩ := ih0 h0 hp hc
        simp only [replaceAt_joint_cons, Bool.false_eq_true, ↓reduceIte, upward]
        split
        · simp only [visit_clearClean, setClean, isClean]
          exact ⟨⟨k, h1, fun h => Bool.noConfusion h⟩, ⟨rfl, dd⟩, fun h => h⟩
        · next hgo =>
          have hc' : c = false := CacheOK.dirty_of_child hn false (by simpa using hstop (by simpa using hgo))
          subst hc'
          exact ⟨⟨k, h1, fun h => Bool.noConfusion h⟩, ⟨rfl, dd⟩, fun _ => rfl⟩
      · obtain ⟨k, dd, hstop⟩ := ih1 h1 hp hc
        simp only [replaceAt_joint_cons, ↓reduceIte, upward]
        split
        · simp only [visit_clearClean, setClean, isClean]
          exact ⟨⟨h0, k, fun h => Bool.noConfusion h⟩, ⟨rfl, dd⟩, fun h => h⟩
        · next hgo =>
          have hc' : c = false := CacheOK.dirty_of_child hn true (by simpa using hstop (by simpa using hgo))
          subst hc'
          exact ⟨⟨h0, k, fun h => Bool.noConfusion h⟩, ⟨rfl, dd⟩, fun _ => rfl⟩

/-- `InvalidateElement` on a sound cache leaves it sound, with the path dirty. -/
theorem invalidate_spec {n : Node α H} {p : List Bool} (hn : n.CacheOK hJ lh) (hp : n.ValidPath p) :
    (n.upward clearClean p).1.CacheOK hJ lh ∧ (n.upward clearClean p).1.DirtyAlong p := by
  have := invalidate_replaceAt (hn.nodeAt p) hn hp rfl
  rw [replaceAt_nodeAt_self hp] at this
  exact ⟨this.1, this.2.1⟩

/-- Below a dirty path any subtree with a sound cache may be put in. -/
theorem CacheOK.replaceAt {n : Node α H} (hn : n.CacheOK hJ lh) {p : List Bool} (hd : n.DirtyAlong p)
    {m : Node α H} (hm : m.CacheOK hJ lh) : (n.replaceAt p m).CacheOK hJ lh := by
  induction n generalizing p with
  | leaf => cases p with
    | nil => exact hm
    | cons => trivial
  | joint b c kp hh c0 c1 ih0 ih1 =>
    cases p with
    | nil => exact hm
    | cons d p =>
      obtain ⟨hc, hd'⟩ := hd
      subst hc
      cases d
      · exact ⟨ih0 hn.1 (by simpa using hd'), hn.2.1, fun h => Bool.noConfusion h⟩
      · exact ⟨hn.1, ih1 hn.2.1 (by simpa using hd'), fun h => Bool.noConfusion h⟩

theorem DirtyAlong.of_append {n : Node α H} {q r : List Bool} (h : n.DirtyAlong (q ++ r)) :
    n.DirtyAlong q := by
  induction n generalizing q with
  | leaf => cases q with
    | nil => exact (dirtyAlong_nil _).mpr h.isClean
    | cons => exact h
  | joint b c kp hh c0 c1 ih0 ih1 =>
    cases q with
    | nil => exact (dirtyAlong_nil _).mpr h.isClean
    | cons d q =>
      obtain ⟨hc, h'⟩ := h
      cases d
      · exact ⟨hc, by simpa using ih0 (by simpa using h')⟩
      · exact ⟨hc, by simpa using ih1 (by simpa using h')⟩

theorem DirtyAlong.nodeAt_isClean {n : Node α H} {q : List Bool} (h : n.DirtyAlong q) :
    (n.nodeAt q).isClean = false := by
  induction n generalizing q with
  | leaf => cases q with
    | nil => exact (dirtyAlong_nil _).mp h
    | cons => exact h
  | joint b c kp hh c0 c1 ih0 ih1 =>
    cases q with
    | nil => exact (dirtyAlong_nil _).mp h
    | cons d q =>
      obtain ⟨-, h'⟩ := h
      cases d
      · simpa using ih0 (by simpa using h')
      · simpa using ih1 (by simpa using h')

/-! ## The re-pointing walk of `Delete` -/

/-- Re-pointing a joint changes its key pointer and nothing else. -/
theorem visit_repointKey_joint (a k : Key) (b : Nat) (c : Bool) (kp : Key) (hh : H) (c0 c1 : Node α H) :
    ∃ kp', (visit (repointKey a k) (joint b c kp hh c0 c1)).1 = joint b c kp' hh c0 c1 := by
  by_cases hkp : kp = a
  · exact ⟨k, by simp [visit, repointKey, hkp]⟩
  · exact ⟨kp, by simp [visit, repointKey, hkp]⟩

/-- `Delete`'s loop over the ancestors leaves a sound cache sound and a dirty
path dirty: it only changes key pointers, which the hashes do not read. -/
theorem cacheOK_upward_repointKey (a k : Key) {n : Node α H} {q : List Bool} (hn : n.CacheOK hJ lh)
    (hd : n.DirtyAlong q) :
    (n.upward (repointKey a k) q).1.CacheOK hJ lh ∧ (n.upward (repointKey a k) q).1.DirtyAlong q := by
  induction n generalizing q with
  | leaf => cases q with
    | nil => exact ⟨trivial, hd⟩
    | cons => exact ⟨trivial, hd⟩
  | joint b c kp hh c0 c1 ih0 ih1 =>
    cases q with
    | nil =>
      obtain ⟨kp', hv⟩ := visit_repointKey_joint a k b c kp hh c0 c1
      simp only [upward_nil, hv]
      exact ⟨hn, hd⟩
    | cons d q =>
      obtain ⟨hc, hd'⟩ := hd
      subst hc
      -- the joint is dirty, so its cache asks nothing of its key pointer or hash
      cases d
      · obtain ⟨k0, d0⟩ := ih0 hn.1 (by simpa using hd')
        have hj : ∀ kp', (joint b false kp' hh (c0.upward (repointKey a k) q).1 c1).CacheOK hJ lh ∧
            (joint b false kp' hh (c0.upward (repointKey a k) q).1 c1).DirtyAlong (false :: q) :=
          fun _ => ⟨⟨k0, hn.2.1, fun h => Bool.noConfusion h⟩, ⟨rfl, by simpa using d0⟩⟩
        simp only [upward, Bool.false_eq_true, ↓reduceIte]
        split
        · obtain ⟨kp', hv⟩ := visit_repointKey_joint a k b false kp hh (c0.upward (repointKey a k) q).1 c1
          rw [hv]
          exact hj kp'
        · exact hj kp
      · obtain ⟨k1, d1⟩ := ih1 hn.2.1 (by simpa using hd')
        have hj : ∀ kp', (joint b false kp' hh c0 (c1.upward (repointKey a k) q).1).CacheOK hJ lh ∧
            (joint b false kp' hh c0 (c1.upward (repointKey a k) q).1).DirtyAlong (true :: q) :=
          fun _ => ⟨⟨hn.1, k1, fun h => Bool.noConfusion h⟩, ⟨rfl, by simpa using d1⟩⟩
        simp only [upward, ↓reduceIte]
        split
        · obtain ⟨kp', hv⟩ := visit_repointKey_joint a k b false kp hh c0 (c1.upward (repointKey a k) q).1
          rw [hv]
          exact hj kp'
        · exact hj kp

end Node

/-! ## The whole tree -/

variable {α H : Type}

/-- `RadixHashTree::get_Hash(Merkle::Hash&)`: `Zero` for the empty tree. -/
def getHash (hJ : H → H → H) (lh : Key → α → H) (zero : H) (t : RadixTree α H) : H × RadixTree α H :=
  match t.root with
  | none => (zero, t)
  | some r => ((r.getHash hJ lh).1, ⟨some (r.getHash hJ lh).2⟩)

/-- The cache of the whole tree is sound. -/
def CacheOK (hJ : H → H → H) (lh : Key → α → H) (t : RadixTree α H) : Prop :=
  match t.root with
  | none => True
  | some r => r.CacheOK hJ lh

end Beam.RadixTree
