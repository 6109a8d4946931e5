import Beam.RadixTree.HashTree

/-!
# The payloads of the leaves under `Find` and a write through the cursor

The shape lemmas of `Split` and `HashTree` speak of the keys a tree holds.  The
users of the tree keep a payload in each leaf (the ID stacks of `UtxoTree`), so
they need the (key, payload) pairs `entries` as well:

* `entries_find_create`: `Find` with creation adds the new leaf with the payload
  `CreateLeaf` hands out and keeps every other pair;
* `entries_updateLeaf`: a write through the cursor changes the payload of the
  cursor's leaf only, and the cursor stays on that leaf (`OnKey.updateLeaf`);
  two writes in a row are one (`updateLeaf_updateLeaf`);
* `map_snd_leaves`: `Traverse` visits the entries, left to right.
-/

namespace Beam.RadixTree

open BitString Node

variable {α H : Type} {nBits : Nat}

namespace Node

@[simp] theorem entries_leaf (b : Nat) (c : Bool) (k : Key) (v : α) :
    (leaf b c k v : Node α H).entries = [(k, v)] := rfl

@[simp] theorem entries_joint (b : Nat) (c : Bool) (kp : Key) (h : H) (c0 c1 : Node α H) :
    (joint b c kp h c0 c1).entries = c0.entries ++ c1.entries := rfl

theorem map_fst_entries (n : Node α H) : n.entries.map Prod.fst = n.keys := by
  induction n with
  | leaf => rfl
  | joint b c kp h c0 c1 ih0 ih1 => simp [ih0, ih1]

@[simp] theorem entries_erase (n : Node α H) : n.erase.entries = n.entries := by
  induction n with
  | leaf => rfl
  | joint b c kp h c0 c1 ih0 ih1 => simp [erase, ih0, ih1]

@[simp] theorem entries_setBits (b : Nat) (n : Node α H) : (n.setBits b).entries = n.entries := by
  cases n <;> rfl

/-- The pairs of a subtree sit, in order, among the pairs of the tree; replacing
the subtree replaces them. -/
theorem entries_replaceAt {n : Node α H} {p : List Bool} (hp : n.ValidPath p) (m : Node α H) :
    ∃ pre post, n.entries = pre ++ (n.nodeAt p).entries ++ post ∧
      (n.replaceAt p m).entries = pre ++ m.entries ++ post := by
  induction n generalizing p with
  | leaf => cases p with
    | nil => exact ⟨[], [], by simp, by simp⟩
    | cons => exact absurd hp id
  | joint b c kp hh c0 c1 ih0 ih1 =>
    cases p with
    | nil => exact ⟨[], [], by simp, by simp⟩
    | cons dd p =>
      cases dd
      · obtain ⟨pre, post, h1, h2⟩ := ih0 (p := p) hp
        exact ⟨pre, post ++ c1.entries, by simp [h1], by simp [h2]⟩
      · obtain ⟨pre, post, h1, h2⟩ := ih1 (p := p) hp
        exact ⟨c0.entries ++ pre, post, by simp [h1], by simp [h2]⟩

theorem replaceAt_replaceAt (n : Node α H) (p : List Bool) (m m' : Node α H) :
    (n.replaceAt p m).replaceAt p m' = n.replaceAt p m' := by
  induction n generalizing p with
  | leaf => cases p with
    | nil => simp
    | cons => rfl
  | joint b c kp h c0 c1 ih0 ih1 =>
    cases p with
    | nil => simp
    | cons d p => cases d <;> simp [ih0, ih1]

theorem replaceAt_nodeAt (n : Node α H) (p : List Bool) : n.replaceAt p (n.nodeAt p) = n := by
  induction n generalizing p with
  | leaf => cases p with
    | nil => simp
    | cons => rfl
  | joint b c kp h c0 c1 ih0 ih1 =>
    cases p with
    | nil => simp
    | cons d p => cases d <;> simp [ih0, ih1]

theorem mapLeaf_mapLeaf (f g : α → α) (n : Node α H) : (n.mapLeaf f).mapLeaf g = n.mapLeaf (g ∘ f) := by
  cases n <;> rfl

@[simp] theorem mapLeaf_id (n : Node α H) : n.mapLeaf id = n := by
  cases n <;> rfl

end Node

/-- The (key, payload) pairs of the tree, left to right. -/
def entries (t : RadixTree α H) : List (Key × α) :=
  match t.root with
  | none => []
  | some r => r.entries

theorem map_fst_entries (t : RadixTree α H) : t.entries.map Prod.fst = t.keys := by
  unfold entries keys
  cases t.root with
  | none => rfl
  | some r => exact r.map_fst_entries

theorem WF.keys_length {t : RadixTree α H} (h : t.WF nBits) : ∀ k ∈ t.keys, k.length = nBits := by
  unfold WF at h
  unfold keys
  split
  · simp
  · next r hr => rw [hr] at h; exact Node.WF.length h

/-- The keys of a well-formed tree ascend, left to right. -/
theorem WF.keys_ascending {t : RadixTree α H} (h : t.WF nBits) :
    t.keys.Pairwise fun a b => cmp a b 0 nBits = .lt := by
  unfold WF at h
  unfold keys
  split
  · exact List.Pairwise.nil
  · next r hr => rw [hr] at h; simpa using Node.WF.keys_ascending h

/-- Updating the pair of a key that a list does not hold leaves the list alone. -/
theorem map_update_of_not_mem {l : List (Key × α)} {key : Key} (hk : key ∉ l.map Prod.fst) (f : α → α) :
    l.map (fun e => if e.1 = key then (e.1, f e.2) else e) = l := by
  conv_rhs => rw [← List.map_id l]
  exact List.map_congr_left fun e he => if_neg fun (h : e.1 = key) => hk (h ▸ List.mem_map_of_mem he)

/-- `Traverse` visits the entries: the leaves with their paths dropped. -/
theorem map_snd_leaves (t : RadixTree α H) : t.leaves.map (·.2) = t.entries := by
  unfold leaves entries
  cases t.root with
  | none => rfl
  | some r =>
    dsimp only
    induction r with
    | leaf => rfl
    | joint b c kp h c0 c1 ih0 ih1 => simp [Node.leaves, ih0, ih1, Function.comp_def]

theorem entries_split [Inhabited H] (old : Node α H) (key : Key) (nBits : Nat) (cu : CursorBase) (v0 : α) :
    (split old key nBits cu v0).entries.Perm ((key, v0) :: old.entries) := by
  unfold split
  split <;> simp

/-- **`Find` with creation on an absent key adds its leaf, with the payload `v0`,
and keeps every other leaf.** -/
theorem entries_find_create [Inhabited H] {t : RadixTree α H} (hn : 0 < nBits) (hwf : t.WF nBits)
    {key : Key} (hlen : key.length = nBits) (hk : key ∉ t.keys) (v0 : α) :
    (t.find key nBits true v0).tree.entries.Perm ((key, v0) :: t.entries) := by
  have hg := (goto_eq_true_iff hn hwf hlen).not.mpr hk
  simp only [Bool.not_eq_true] at hg
  cases hr : t.root with
  | none =>
    have hgo : t.goto key nBits = (false, ⟨none, 0, 0⟩) := by
      simp [goto, hr, Nat.pos_iff_ne_zero.mp hn]
    simp [find, hgo, hr, entries]
  | some r =>
    rcases goto_spec hn hwf hlen with ⟨h1, -, -⟩ | ⟨-, -, hmiss⟩
    · rw [h1] at hg; exact Bool.noConfusion hg
    obtain ⟨p, hpp, hv, -⟩ := hmiss r hr
    -- `InvalidateElement` on the way keeps the pairs and the path
    set r1 := (r.upward clearClean p).1 with hr1
    have herase : r1.erase = r.erase := erase_upward_clearClean r p
    have hv1 : r1.ValidPath p := (validPath_erase r1 p).mp (herase ▸ (validPath_erase r p).mpr hv)
    have he1 : r1.entries = r.entries := by rw [← entries_erase, herase, entries_erase]
    obtain ⟨pre, post, hk1, hk2⟩ :=
      entries_replaceAt hv1 (split (r1.nodeAt p) key nBits (t.goto key nBits).2 v0)
    simp only [find, hg, hr, hpp, Bool.false_eq_true, ↓reduceIte, Bool.not_true, entries]
    rw [hk2, ← he1, hk1]
    calc List.Perm (pre ++ (split (r1.nodeAt p) key nBits (t.goto key nBits).2 v0).entries ++ post)
          (pre ++ ((key, v0) :: (r1.nodeAt p).entries) ++ post) :=
          ((entries_split _ _ _ _ _).append_left pre).append_right post
        List.Perm _ ((key, v0) :: (pre ++ (r1.nodeAt p).entries ++ post)) := by
          rw [List.append_assoc, List.cons_append, List.append_assoc]
          exact List.perm_middle

/-! ## A write through the cursor -/

section UpdateLeaf

variable {t : RadixTree α H} {cu : CursorBase} {key : Key}

/-- The cursor stays on its leaf. -/
theorem OnKey.updateLeaf (hon : t.OnKey cu key) (f : α → α) : (t.updateLeaf cu f).OnKey cu key := by
  obtain ⟨r, hr, p, hpp, hv, b, c, v, hx⟩ := hon
  have hnode := nodeAt_replaceAt hv ((r.nodeAt p).mapLeaf f) []
  rw [List.append_nil, hx] at hnode
  refine ⟨r.replaceAt p ((r.nodeAt p).mapLeaf f), by simp only [RadixTree.updateLeaf, hr, hpp], p, hpp,
    ?_, b, c, f v, by rw [hx]; exact hnode⟩
  simpa using (validPath_replaceAt hv ((r.nodeAt p).mapLeaf f) []).mpr (validPath_nil _)

/-- Two writes through the same cursor are one write of both. -/
theorem updateLeaf_updateLeaf (hon : t.OnKey cu key) (f g : α → α) :
    (t.updateLeaf cu f).updateLeaf cu g = t.updateLeaf cu (g ∘ f) := by
  obtain ⟨r, hr, p, hpp, hv, -⟩ := hon
  have hnode := nodeAt_replaceAt hv ((r.nodeAt p).mapLeaf f) []
  rw [List.append_nil] at hnode
  simp only [RadixTree.updateLeaf, hr, hpp, hnode, nodeAt_nil, replaceAt_replaceAt, mapLeaf_mapLeaf]

/-- **A write through the cursor changes the payload of its leaf and no other.** -/
theorem entries_updateLeaf (hwf : t.WF nBits) (hon : t.OnKey cu key) (f : α → α) :
    (t.updateLeaf cu f).entries = t.entries.map fun e => if e.1 = key then (e.1, f e.2) else e := by
  obtain ⟨r, hr, p, hpp, hv, b, c, v, hx⟩ := hon
  simp only [WF, hr] at hwf
  obtain ⟨pre, post, h1, h2⟩ := entries_replaceAt hv ((r.nodeAt p).mapLeaf f)
  rw [hx] at h1 h2
  -- the keys are distinct, so `key` names no pair on either side of the leaf
  have hnd := hwf.nodup
  rw [← Node.map_fst_entries, h1] at hnd
  simp only [entries_leaf, List.map_append, List.map_cons, List.map_nil] at hnd
  rw [List.append_assoc, List.singleton_append, List.nodup_middle, List.nodup_cons, List.mem_append,
    not_or] at hnd
  simp only [RadixTree.updateLeaf, hr, hpp, entries, hx]
  rw [h2, h1]
  simp only [mapLeaf, entries_leaf, List.map_append, map_update_of_not_mem hnd.1.1,
    map_update_of_not_mem hnd.1.2, List.map_cons, List.map_nil, if_pos]

theorem updateLeaf_id (t : RadixTree α H) (cu : CursorBase) : t.updateLeaf cu id = t := by
  obtain ⟨root⟩ := t
  unfold RadixTree.updateLeaf
  split
  · next r p hr _ =>
    cases hr
    simp [replaceAt_nodeAt]
  · rfl

end UpdateLeaf

end Beam.RadixTree
