import Beam.RadixTree.Basic

/-!
# The shape of a radix tree and its well-formedness

`keys n` lists the keys of the leaves below `n`, left to right; it is the set the
tree represents.  `WF nBits d n` is the representation invariant of a node
entered after `d` key bits:

* a leaf ends exactly at `nBits` and holds a key of `nBits` bits;
* a joint ends before `nBits`; its children, entered one bit further, are
  well-formed; the keys of `c0` have a `0` at the branch bit and those of `c1` a
  `1`; every key below agrees with `m_pKeyPtr` on the bits the joint compresses;
  and `m_pKeyPtr` is the key of one of the two children.

The last clause makes key pointers contiguous along a path: a joint names the
key of the child on the way to that key's leaf, so the ancestors that name a
given leaf are the lowest ones above it, which is what `Delete`'s re-pointing
loop relies on.

`erase` forgets the hash cache (flags `s_Clean` and cached hashes): everything
in this file depends on the erased tree only, and `InvalidateElement` does not
change it (`erase_upward_clearClean`).

Main results: `WF.nodup` (a well-formed tree holds each key once),
`WF.nodeAt` and `WF.replaceAt` (a subtree at the end of a valid path is
well-formed, and replacing it by one that fits keeps the tree well-formed).
-/

namespace Beam.RadixTree

open BitString

namespace Node

variable {α H : Type}

/-- The keys of the leaves below a node, left to right. -/
def keys : Node α H → List Key
  | leaf _ _ k _ => [k]
  | joint _ _ _ _ c0 c1 => keys c0 ++ keys c1

@[simp] theorem keys_leaf (b : Nat) (c : Bool) (k : Key) (v : α) :
    (leaf b c k v : Node α H).keys = [k] := rfl

@[simp] theorem keys_joint (b : Nat) (c : Bool) (kp : Key) (h : H) (c0 c1 : Node α H) :
    (joint b c kp h c0 c1).keys = c0.keys ++ c1.keys := rfl

@[simp] theorem keys_setClean (c : Bool) (n : Node α H) : (n.setClean c).keys = n.keys := by
  cases n <;> rfl

@[simp] theorem keys_setBits (b : Nat) (n : Node α H) : (n.setBits b).keys = n.keys := by
  cases n <;> rfl

/-! ## The hash-free view -/

/-- The node with the hash cache forgotten. -/
def erase : Node α H → Node α Unit
  | leaf b _ k v => leaf b false k v
  | joint b _ kp _ c0 c1 => joint b false kp () (erase c0) (erase c1)

@[simp] theorem keys_erase (n : Node α H) : n.erase.keys = n.keys := by
  induction n with
  | leaf => rfl
  | joint b c kp h c0 c1 ih0 ih1 => simp [erase, ih0, ih1]

@[simp] theorem getBits_erase (n : Node α H) : n.erase.getBits = n.getBits := by
  cases n <;> rfl

@[simp] theorem getNodeKey_erase (n : Node α H) : n.erase.getNodeKey = n.getNodeKey := by
  cases n <;> rfl

@[simp] theorem erase_setClean (c : Bool) (n : Node α H) : (n.setClean c).erase = n.erase := by
  cases n <;> rfl

@[simp] theorem erase_setBits (b : Nat) (n : Node α H) :
    (n.setBits b).erase = n.erase.setBits b := by
  cases n <;> rfl

theorem erase_nodeAt (n : Node α H) (p : List Bool) : (n.nodeAt p).erase = n.erase.nodeAt p := by
  induction n generalizing p with
  | leaf => cases p <;> rfl
  | joint b c kp h c0 c1 ih0 ih1 =>
    cases p with
    | nil => rfl
    | cons d p => cases d <;> simp [erase, ih0, ih1]

theorem erase_visit_clearClean (n : Node α H) : (visit clearClean n).1.erase = n.erase := by
  unfold visit clearClean
  by_cases h : n.isClean <;> simp [h]

/-- `InvalidateElement` changes only flags `s_Clean`. -/
theorem erase_upward_clearClean (n : Node α H) (p : List Bool) :
    (n.upward clearClean p).1.erase = n.erase := by
  induction n generalizing p with
  | leaf b c k v =>
    cases p with
    | nil => simp only [upward_nil, erase_visit_clearClean]
    | cons => rfl
  | joint b c kp h c0 c1 ih0 ih1 =>
    cases p with
    | nil => simp only [upward_nil, erase_visit_clearClean]
    | cons d p =>
      cases d
      · simp only [upward, Bool.false_eq_true, ↓reduceIte]
        split
        · rw [erase_visit_clearClean]; simp [erase, ih0]
        · simp [erase, ih0]
      · simp only [upward, ↓reduceIte]
        split
        · rw [erase_visit_clearClean]; simp [erase, ih1]
        · simp [erase, ih1]

/-! ## Paths -/

/-- The number of key bits above the node at the end of `p`, for `n` entered
after `d` bits: each joint on the way adds its bits and its branch bit. -/
def depthAt : Node α H → Nat → List Bool → Nat
  | _, d, [] => d
  | joint b _ _ _ c0 c1, d, dd :: p => if dd then depthAt c1 (d + b + 1) p else depthAt c0 (d + b + 1) p
  | leaf .., d, _ :: _ => d

/-- `p` follows joints only, so that it names a node of the tree. -/
def ValidPath : Node α H → List Bool → Prop
  | _, [] => True
  | joint _ _ _ _ c0 c1, dd :: p => if dd then ValidPath c1 p else ValidPath c0 p
  | leaf .., _ :: _ => False

@[simp] theorem depthAt_nil (n : Node α H) (d : Nat) : n.depthAt d [] = d := by cases n <;> rfl

@[simp] theorem validPath_nil (n : Node α H) : n.ValidPath [] := by cases n <;> trivial

@[simp] theorem depthAt_erase (n : Node α H) (d : Nat) (p : List Bool) :
    n.erase.depthAt d p = n.depthAt d p := by
  induction n generalizing d p with
  | leaf => cases p <;> rfl
  | joint b c kp h c0 c1 ih0 ih1 =>
    cases p with
    | nil => rfl
    | cons dd p => cases dd <;> simp [erase, depthAt, ih0, ih1]

@[simp] theorem validPath_erase (n : Node α H) (p : List Bool) :
    n.erase.ValidPath p ↔ n.ValidPath p := by
  induction n generalizing p with
  | leaf => cases p <;> simp [erase, ValidPath]
  | joint b c kp h c0 c1 ih0 ih1 =>
    cases p with
    | nil => simp
    | cons dd p => cases dd <;> simp [erase, ValidPath, ih0, ih1]

theorem validPath_append {n : Node α H} {p : List Bool} {d : Bool} :
    n.ValidPath (p ++ [d]) ↔ n.ValidPath p ∧ ∃ b c kp h c0 c1, n.nodeAt p = joint b c kp h c0 c1 := by
  induction n generalizing p with
  | leaf b c k v =>
    cases p with
    | nil => simp [ValidPath, nodeAt]
    | cons => simp [ValidPath]
  | joint b c kp h c0 c1 ih0 ih1 =>
    cases p with
    | nil => cases d <;> simp [ValidPath]
    | cons dd p => cases dd <;> simp [ValidPath, ih0, ih1]

theorem nodeAt_append (n : Node α H) (p q : List Bool) : n.nodeAt (p ++ q) = (n.nodeAt p).nodeAt q := by
  induction n generalizing p with
  | leaf => cases p <;> cases q <;> rfl
  | joint b c kp h c0 c1 ih0 ih1 =>
    cases p with
    | nil => rfl
    | cons d p => cases d <;> simp [ih0, ih1]

theorem nodeAt_replaceAt {n : Node α H} {p : List Bool} (hp : n.ValidPath p) (m : Node α H) (q : List Bool) :
    (n.replaceAt p m).nodeAt (p ++ q) = m.nodeAt q := by
  induction n generalizing p with
  | leaf => cases p with
    | nil => rfl
    | cons => exact absurd hp id
  | joint b c kp h c0 c1 ih0 ih1 =>
    cases p with
    | nil => rfl
    | cons d p =>
      cases d
      · simpa using ih0 (p := p) hp
      · simpa using ih1 (p := p) hp

theorem validPath_replaceAt {n : Node α H} {p : List Bool} (hp : n.ValidPath p) (m : Node α H)
    (q : List Bool) : (n.replaceAt p m).ValidPath (p ++ q) ↔ m.ValidPath q := by
  induction n generalizing p with
  | leaf => cases p with
    | nil => rfl
    | cons => exact absurd hp id
  | joint b c kp h c0 c1 ih0 ih1 =>
    cases p with
    | nil => rfl
    | cons d p =>
      cases d
      · simpa [ValidPath] using ih0 (p := p) hp
      · simpa [ValidPath] using ih1 (p := p) hp

/-! ## Well-formedness -/

/-- The representation invariant of a node entered after `d` bits, for keys
of `nBits` bits. -/
def WF (nBits : Nat) : Nat → Node α H → Prop
  | d, leaf b _ k _ => d + b = nBits ∧ k.length = nBits
  | d, joint b _ kp _ c0 c1 =>
    d + b < nBits ∧ WF nBits (d + b + 1) c0 ∧ WF nBits (d + b + 1) c1 ∧
      (∀ k ∈ c0.keys, bit k (d + b) = false) ∧ (∀ k ∈ c1.keys, bit k (d + b) = true) ∧
      (∀ k ∈ c0.keys ++ c1.keys, Agree k kp d (d + b)) ∧
      (kp = c0.getNodeKey ∨ kp = c1.getNodeKey)

variable {nBits : Nat}

@[simp] theorem wf_erase {d : Nat} (n : Node α H) : n.erase.WF nBits d ↔ n.WF nBits d := by
  induction n generalizing d with
  | leaf => simp [erase, WF]
  | joint b c kp h c0 c1 ih0 ih1 => simp [erase, WF, ih0, ih1]

theorem WF.length {d : Nat} {n : Node α H} (h : n.WF nBits d) : ∀ k ∈ n.keys, k.length = nBits := by
  induction n generalizing d with
  | leaf b c k v => simp only [keys_leaf, List.mem_singleton]; rintro _ rfl; exact h.2
  | joint b c kp hh c0 c1 ih0 ih1 =>
    intro k hk
    rcases List.mem_append.mp hk with hk | hk
    · exact ih0 h.2.1 k hk
    · exact ih1 h.2.2.1 k hk

theorem WF.end_le {d : Nat} {n : Node α H} (h : n.WF nBits d) : d + n.getBits ≤ nBits := by
  cases n with
  | leaf => exact Nat.le_of_eq h.1
  | joint => exact Nat.le_of_lt h.1

theorem WF.nodeKey_mem {d : Nat} {n : Node α H} (h : n.WF nBits d) : n.getNodeKey ∈ n.keys := by
  induction n generalizing d with
  | leaf => simp [getNodeKey]
  | joint b c kp hh c0 c1 ih0 ih1 =>
    rcases h.2.2.2.2.2.2 with hk | hk
    · simp only [getNodeKey, keys_joint, List.mem_append]
      exact Or.inl (hk ▸ ih0 h.2.1)
    · simp only [getNodeKey, keys_joint, List.mem_append]
      exact Or.inr (hk ▸ ih1 h.2.2.1)

/-- Every key below a node agrees with its node key on the bits it compresses. -/
theorem WF.agree {d : Nat} {n : Node α H} (h : n.WF nBits d) :
    ∀ k ∈ n.keys, Agree k n.getNodeKey d (d + n.getBits) := by
  cases n with
  | leaf b c k v => simp only [keys_leaf, List.mem_singleton]; rintro _ rfl; exact agree_refl _ _ _
  | joint b c kp hh c0 c1 => exact h.2.2.2.2.2.1

/-- The keys below a node agree with each other on the bits it compresses. -/
theorem WF.agree_keys {d : Nat} {n : Node α H} (h : n.WF nBits d) {k k' : Key}
    (hk : k ∈ n.keys) (hk' : k' ∈ n.keys) : Agree k k' d (d + n.getBits) :=
  (h.agree k hk).trans (h.agree k' hk').symm

theorem WF.nodup {d : Nat} {n : Node α H} (h : n.WF nBits d) : n.keys.Nodup := by
  induction n generalizing d with
  | leaf => simp
  | joint b c kp hh c0 c1 ih0 ih1 =>
    obtain ⟨-, h0, h1, hb0, hb1, -⟩ := h
    refine List.nodup_append.mpr ⟨ih0 h0, ih1 h1, ?_⟩
    intro k hk k' hk' he
    subst he
    have := hb0 k hk
    rw [hb1 k hk'] at this
    exact Bool.noConfusion this

/-! ## Subtrees at the end of a path -/

theorem le_depthAt (n : Node α H) (d : Nat) (p : List Bool) : d ≤ n.depthAt d p := by
  induction n generalizing d p with
  | leaf => cases p <;> simp [depthAt]
  | joint b c kp hh c0 c1 ih0 ih1 =>
    cases p with
    | nil => simp
    | cons dd p =>
      cases dd
      · have := ih0 (d + b + 1) p; simp only [depthAt, Bool.false_eq_true, ↓reduceIte]; omega
      · have := ih1 (d + b + 1) p; simp only [depthAt, ↓reduceIte]; omega

/-- The keys of a subtree sit, in order, among the keys of the tree; replacing
the subtree replaces them. -/
theorem keys_replaceAt {n : Node α H} {p : List Bool} (hp : n.ValidPath p) (m : Node α H) :
    ∃ pre post, n.keys = pre ++ (n.nodeAt p).keys ++ post ∧
      (n.replaceAt p m).keys = pre ++ m.keys ++ post := by
  induction n generalizing p with
  | leaf => cases p with
    | nil => exact ⟨[], [], by simp, by simp⟩
    | cons => exact absurd hp id
  | joint b c kp hh c0 c1 ih0 ih1 =>
    cases p with
    | nil => exact ⟨[], [], by simp, by simp⟩
    | cons dd p =>
      cases dd
      · obtain ⟨pre, post, h1, h2⟩ := ih0 (p := p) hp
        exact ⟨pre, post ++ c1.keys, by simp [h1], by simp [h2]⟩
      · obtain ⟨pre, post, h1, h2⟩ := ih1 (p := p) hp
        exact ⟨c0.keys ++ pre, post, by simp [h1], by simp [h2]⟩

theorem mem_keys_of_nodeAt {n : Node α H} {p : List Bool} (hp : n.ValidPath p) {k : Key}
    (hk : k ∈ (n.nodeAt p).keys) : k ∈ n.keys := by
  obtain ⟨pre, post, h1, -⟩ := keys_replaceAt hp n
  rw [h1]
  simp [hk]

theorem WF.nodeAt {d : Nat} {n : Node α H} (h : n.WF nBits d) {p : List Bool}
    (hp : n.ValidPath p) : (n.nodeAt p).WF nBits (n.depthAt d p) := by
  induction n generalizing d p with
  | leaf => cases p with
    | nil => simpa using h
    | cons => exact absurd hp id
  | joint b c kp hh c0 c1 ih0 ih1 =>
    cases p with
    | nil => simpa using h
    | cons dd p =>
      cases dd
      · exact ih0 h.2.1 hp
      · exact ih1 h.2.2.1 hp

/-- The keys below the node at the end of a path agree with each other on every
bit above it. -/
theorem WF.agree_nodeAt {d : Nat} {n : Node α H} (h : n.WF nBits d) {p : List Bool}
    (hp : n.ValidPath p) :
    ∀ k ∈ (n.nodeAt p).keys, ∀ k' ∈ (n.nodeAt p).keys, Agree k k' d (n.depthAt d p) := by
  induction n generalizing d p with
  | leaf => cases p with
    | nil => intro k hk k' hk'; simp at hk hk'; subst hk hk'; exact agree_refl _ _ _
    | cons => exact absurd hp id
  | joint b c kp hh c0 c1 ih0 ih1 =>
    obtain ⟨-, h0, h1, hb0, hb1, hkp, -⟩ := h
    cases p with
    | nil =>
      intro k _ k' _ i h1 h2
      simp only [depthAt_nil] at h2
      omega
    | cons dd p =>
      intro k hk k' hk'
      cases dd
      · have hk0 := mem_keys_of_nodeAt (n := c0) hp hk
        have hk0' := mem_keys_of_nodeAt (n := c0) hp hk'
        have hpre : Agree k k' d (d + b + 1) :=
          Agree.succ ((hkp k (by simp [hk0])).trans (hkp k' (by simp [hk0'])).symm)
            (by rw [hb0 k hk0, hb0 k' hk0'])
        exact hpre.append (ih0 h0 hp k hk k' hk')
      · have hk1 := mem_keys_of_nodeAt (n := c1) hp hk
        have hk1' := mem_keys_of_nodeAt (n := c1) hp hk'
        have hpre : Agree k k' d (d + b + 1) :=
          Agree.succ ((hkp k (by simp [hk1])).trans (hkp k' (by simp [hk1'])).symm)
            (by rw [hb1 k hk1, hb1 k' hk1'])
        exact hpre.append (ih1 h1 hp k hk k' hk')

/-- **Replacing a subtree by one that fits keeps the tree well-formed.**  The new
subtree must be well-formed at the same depth, have the same node key (the
ancestors' key pointers may name it), and its keys must agree with the old
subtree's on every bit above it. -/
theorem WF.replaceAt {d : Nat} {n : Node α H} (h : n.WF nBits d) {p : List Bool}
    (hp : n.ValidPath p) {m : Node α H} (hm : m.WF nBits (n.depthAt d p))
    (hkey : m.getNodeKey = (n.nodeAt p).getNodeKey)
    (hagree : ∀ k ∈ m.keys, Agree k (n.nodeAt p).getNodeKey d (n.depthAt d p)) :
    (n.replaceAt p m).WF nBits d ∧ (n.replaceAt p m).getNodeKey = n.getNodeKey := by
  induction n generalizing d p with
  | leaf => cases p with
    | nil => exact ⟨by simpa using hm, by simpa using hkey⟩
    | cons => exact absurd hp id
  | joint b c kp hh c0 c1 ih0 ih1 =>
    cases p with
    | nil => exact ⟨by simpa using hm, by simpa using hkey⟩
    | cons dd p =>
      obtain ⟨hlt, h0, h1, hb0, hb1, hkp, hptr⟩ := h
      cases dd
      · simp only [depthAt, nodeAt_joint_cons, Bool.false_eq_true, ↓reduceIte] at hm hkey hagree
        have hx := h0.nodeAt hp
        have hxmem : (c0.nodeAt p).getNodeKey ∈ c0.keys := mem_keys_of_nodeAt (n := c0) hp hx.nodeKey_mem
        have hdeep := le_depthAt c0 (d + b + 1) p
        obtain ⟨ih, ihkey⟩ := ih0 h0 hp hm hkey
          (fun k hk => (hagree k hk).mono (by omega) (Nat.le_refl _))
        obtain ⟨pre, post, hk1, hk2⟩ := keys_replaceAt (n := c0) hp m
        have hnew : ∀ k ∈ (c0.replaceAt p m).keys, k ∈ c0.keys ∨ k ∈ m.keys := by
          intro k hk
          rw [hk2] at hk
          simp only [List.mem_append] at hk
          rw [hk1]
          simp only [List.mem_append]
          tauto
        refine ⟨⟨hlt, ih, h1, ?_, hb1, ?_, ?_⟩, rfl⟩
        · intro k hk
          rcases hnew k hk with hk | hk
          · exact hb0 k hk
          · rw [(hagree k hk) (d + b) (by omega) (by omega)]
            exact hb0 _ hxmem
        · intro k hk
          rcases List.mem_append.mp hk with hk | hk
          · rcases hnew k hk with hk | hk
            · exact hkp k (by simp [hk])
            · exact ((hagree k hk).mono (Nat.le_refl _) (by omega)).trans
                (hkp _ (by simp [hxmem]))
          · exact hkp k (by simp [hk])
        · rw [ihkey]; exact hptr
      · simp only [depthAt, nodeAt_joint_cons, ↓reduceIte] at hm hkey hagree
        have hx := h1.nodeAt hp
        have hxmem : (c1.nodeAt p).getNodeKey ∈ c1.keys := mem_keys_of_nodeAt (n := c1) hp hx.nodeKey_mem
        have hdeep := le_depthAt c1 (d + b + 1) p
        obtain ⟨ih, ihkey⟩ := ih1 h1 hp hm hkey
          (fun k hk => (hagree k hk).mono (by omega) (Nat.le_refl _))
        obtain ⟨pre, post, hk1, hk2⟩ := keys_replaceAt (n := c1) hp m
        have hnew : ∀ k ∈ (c1.replaceAt p m).keys, k ∈ c1.keys ∨ k ∈ m.keys := by
          intro k hk
          rw [hk2] at hk
          simp only [List.mem_append] at hk
          rw [hk1]
          simp only [List.mem_append]
          tauto
        refine ⟨⟨hlt, h0, ih, hb0, ?_, ?_, ?_⟩, rfl⟩
        · intro k hk
          rcases hnew k hk with hk | hk
          · exact hb1 k hk
          · rw [(hagree k hk) (d + b) (by omega) (by omega)]
            exact hb1 _ hxmem
        · intro k hk
          rcases List.mem_append.mp hk with hk | hk
          · exact hkp k (by simp [hk])
          · rcases hnew k hk with hk | hk
            · exact hkp k (by simp [hk])
            · exact ((hagree k hk).mono (Nat.le_refl _) (by omega)).trans
                (hkp _ (by simp [hxmem]))
        · rw [ihkey]; exact hptr

end Node

end Beam.RadixTree
