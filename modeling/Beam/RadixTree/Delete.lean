import Beam.RadixTree.Split

/-!
# `Delete`

`Delete` removes the leaf at the cursor and puts its sibling `pN` in the place
of their parent `pPrev`.  The ancestors whose `m_pKeyPtr` named the dead key are
re-pointed at `pN`'s key by a loop from `pPrev` upwards that stops at the first
ancestor naming another key.

`repoint_replace` is the walk: by the contiguity of key pointers (the last
clause of `WF`), the ancestors naming the dead key are exactly the lowest ones,
so the loop re-points all of them and no other, and the tree stays
well-formed.  `delete_spec` is the operation: on a cursor standing on a key, it
removes exactly that key.
-/

namespace Beam.RadixTree

open BitString Node

variable {α H : Type} {nBits : Nat}

namespace Node

/-- A joint stays well-formed when its children are replaced by well-formed
nodes holding some of their keys, and its key pointer by a key below it that
names one of the new children. -/
theorem WF.of_sub {b : Nat} {c c' : Bool} {kp kp' : Key} {h h' : H} {c0 c1 c0' c1' : Node α H}
    {d : Nat} (hw : (joint b c kp h c0 c1).WF nBits d) (h0 : c0'.WF nBits (d + b + 1))
    (h1 : c1'.WF nBits (d + b + 1)) (hs0 : ∀ k ∈ c0'.keys, k ∈ c0.keys)
    (hs1 : ∀ k ∈ c1'.keys, k ∈ c1.keys) (hkp' : kp' ∈ c0.keys ++ c1.keys)
    (hptr : kp' = c0'.getNodeKey ∨ kp' = c1'.getNodeKey) :
    (joint b c' kp' h' c0' c1').WF nBits d := by
  obtain ⟨hlt, -, -, hb0, hb1, hkp, -⟩ := hw
  refine ⟨hlt, h0, h1, fun k hk => hb0 k (hs0 k hk), fun k hk => hb1 k (hs1 k hk), ?_, hptr⟩
  intro k hk
  have hk' : k ∈ c0.keys ++ c1.keys := by
    rcases List.mem_append.mp hk with hk | hk
    · exact List.mem_append_left _ (hs0 k hk)
    · exact List.mem_append_right _ (hs1 k hk)
  exact (hkp k hk').trans (hkp kp' hkp').symm

/-- **The re-pointing walk followed by the replacement of the subtree at its
end.**  `x` is the joint at the end of `q`; the dead key and the new key are
below it, and `m`, which takes its place, holds the keys of `x` but the dead one
and has the node key `x` has once re-pointed. -/
theorem repoint_replace (dead newKey : Key) :
    ∀ {n : Node α H} {d : Nat} {q : List Bool}, n.WF nBits d → n.ValidPath q →
      (∃ b c kp h c0 c1, n.nodeAt q = joint b c kp h c0 c1) →
      dead ∈ (n.nodeAt q).keys → newKey ∈ (n.nodeAt q).keys →
      ∀ {m : Node α H}, m.WF nBits (n.depthAt d q) → m.keys = (n.nodeAt q).keys.erase dead →
      m.getNodeKey = (if (n.nodeAt q).getNodeKey = dead then newKey else (n.nodeAt q).getNodeKey) →
      ((n.upward (repointKey dead newKey) q).1.replaceAt q m).WF nBits d ∧
      ((n.upward (repointKey dead newKey) q).1.replaceAt q m).keys = n.keys.erase dead ∧
      ((n.upward (repointKey dead newKey) q).1.replaceAt q m).getNodeKey =
        (if n.getNodeKey = dead then newKey else n.getNodeKey) ∧
      (n.upward (repointKey dead newKey) q).2 = decide (n.getNodeKey = dead) := by
  intro n
  induction n with
  | leaf b c k v =>
    intro d q _ _ hx
    obtain ⟨_, _, _, _, _, _, hx⟩ := hx
    cases q with
    | nil => exact absurd hx (by simp)
    | cons => exact absurd hx (by simp [nodeAt])
  | joint b c kp hh c0 c1 ih0 ih1 =>
    intro d q hwf hv hx hdead hnew m hm hmk hmn
    cases q with
    | nil =>
      simp only [nodeAt_nil, depthAt_nil] at hdead hnew hm hmk hmn
      simp only [upward_nil, replaceAt_nil, visit, repointKey]
      refine ⟨hm, hmk, hmn, ?_⟩
      by_cases hkd : kp = dead <;> simp [hkd, getNodeKey]
    | cons dd q =>
      have hwf' := hwf
      obtain ⟨-, h0, h1, hb0, hb1, -, hptr⟩ := hwf
      -- a key below one child is not below the other: they differ at the branch bit
      have hdisj : ∀ k ∈ c0.keys, k ∉ c1.keys := by
        intro k hk0 hk1
        have := hb0 k hk0
        rw [hb1 k hk1] at this
        exact Bool.noConfusion this
      cases dd
      · simp only [nodeAt_joint_cons, depthAt, Bool.false_eq_true, ↓reduceIte] at hx hdead hnew hm hmk hmn
        have hv0 : c0.ValidPath q := hv
        have hd0 : dead ∈ c0.keys := mem_keys_of_nodeAt hv0 hdead
        have hn0 : newKey ∈ c0.keys := mem_keys_of_nodeAt hv0 hnew
        obtain ⟨hw, hk, hnk, hflag⟩ := ih0 h0 hv0 hx hdead hnew hm hmk hmn
        -- the joint names the dead key only through `c0`, the child on the path
        have hkp0 : kp = dead → c0.getNodeKey = dead := by
          rintro rfl
          rcases hptr with h | h
          · exact h.symm
          · exact absurd (h ▸ h1.nodeKey_mem) (hdisj _ hd0)
        have hsub : ∀ k ∈ ((c0.upward (repointKey dead newKey) q).1.replaceAt q m).keys,
            k ∈ c0.keys := fun k hk' => List.mem_of_mem_erase (hk ▸ hk')
        by_cases hkd : kp = dead
        · have hc0 := hkp0 hkd
          simp only [hc0, decide_true] at hflag hnk
          simp only [upward, Bool.false_eq_true, ↓reduceIte, hflag, visit, repointKey, hkd,
            replaceAt_joint_cons, getNodeKey, keys_joint, decide_true, and_true]
          refine ⟨hwf'.of_sub hw h1 hsub (fun _ h => h) (by simp [hn0]) (Or.inl hnk.symm), ?_⟩
          rw [hk, List.erase_append_left _ hd0]
        · have hkeep : ((joint b c kp hh c0 c1).upward (repointKey dead newKey) (false :: q)) =
              (joint b c kp hh (c0.upward (repointKey dead newKey) q).1 c1, false) := by
            simp only [upward, Bool.false_eq_true, ↓reduceIte, visit, repointKey, hkd]
            split <;> rfl
          rw [hkeep]
          simp only [replaceAt_joint_cons, Bool.false_eq_true, ↓reduceIte, getNodeKey, keys_joint,
            hkd, decide_false]
          refine ⟨hwf'.of_sub hw h1 hsub (fun _ h => h) ?_ ?_, ?_, trivial, trivial⟩
          · rcases hptr with h | h
            · exact List.mem_append_left _ (h ▸ h0.nodeKey_mem)
            · exact List.mem_append_right _ (h ▸ h1.nodeKey_mem)
          · rcases hptr with h | h
            · left; rw [hnk, ← h]; simp [hkd]
            · exact Or.inr h
          · rw [hk, List.erase_append_left _ hd0]
      · simp only [nodeAt_joint_cons, depthAt, ↓reduceIte] at hx hdead hnew hm hmk hmn
        have hv1 : c1.ValidPath q := hv
        have hd1 : dead ∈ c1.keys := mem_keys_of_nodeAt hv1 hdead
        have hn1 : newKey ∈ c1.keys := mem_keys_of_nodeAt hv1 hnew
        obtain ⟨hw, hk, hnk, hflag⟩ := ih1 h1 hv1 hx hdead hnew hm hmk hmn
        -- the joint names the dead key only through `c1`, the child on the path
        have hkp1 : kp = dead → c1.getNodeKey = dead := by
          rintro rfl
          rcases hptr with h | h
          · exact absurd hd1 (hdisj _ (h ▸ h0.nodeKey_mem))
          · exact h.symm
        have hsub : ∀ k ∈ ((c1.upward (repointKey dead newKey) q).1.replaceAt q m).keys,
            k ∈ c1.keys := fun k hk' => List.mem_of_mem_erase (hk ▸ hk')
        have hnot0 : dead ∉ c0.keys := fun h => hdisj _ h hd1
        by_cases hkd : kp = dead
        · have hc1 := hkp1 hkd
          simp only [hc1, decide_true] at hflag hnk
          simp only [upward, ↓reduceIte, hflag, visit, repointKey, hkd,
            replaceAt_joint_cons, getNodeKey, keys_joint, decide_true, and_true]
          refine ⟨hwf'.of_sub h0 hw (fun _ h => h) hsub (by simp [hn1]) (Or.inr hnk.symm), ?_⟩
          rw [hk, List.erase_append_right _ hnot0]
        · have hkeep : ((joint b c kp hh c0 c1).upward (repointKey dead newKey) (true :: q)) =
              (joint b c kp hh c0 (c1.upward (repointKey dead newKey) q).1, false) := by
            simp only [upward, ↓reduceIte, visit, repointKey, hkd]
            split <;> rfl
          rw [hkeep]
          simp only [replaceAt_joint_cons, ↓reduceIte, getNodeKey, keys_joint, hkd, decide_false]
          refine ⟨hwf'.of_sub h0 hw (fun _ h => h) hsub ?_ ?_, ?_, trivial, trivial⟩
          · rcases hptr with h | h
            · exact List.mem_append_left _ (h ▸ h0.nodeKey_mem)
            · exact List.mem_append_right _ (h ▸ h1.nodeKey_mem)
          · rcases hptr with h | h
            · exact Or.inl h
            · right; rw [hnk, ← h]; simp [hkd]
          · rw [hk, List.erase_append_right _ hnot0]

end Node

/-- **`Delete` at a cursor on a key removes exactly that key**, and the tree
stays well-formed. -/
theorem delete_spec {t : RadixTree α H} (hwf : t.WF nBits) {cu : CursorBase} {key : Key}
    (hon : t.OnKey cu key) : (t.delete cu).WF nBits ∧ (t.delete cu).keys = t.keys.erase key := by
  obtain ⟨r, hr, p, hpp, hv, b, c, v, hleaf⟩ := hon
  simp only [WF, hr] at hwf
  rcases List.eq_nil_or_concat p with rfl | ⟨q, dd, rfl⟩
  · -- the leaf was the root
    simp only [nodeAt_nil] at hleaf
    simp [delete, hr, hpp, WF, keys, hleaf]
  · rw [List.concat_eq_append] at hpp hv hleaf
    set r1 := (r.upward clearClean (q ++ [dd])).1 with hr1
    have herase : r1.erase = r.erase := erase_upward_clearClean r _
    have hwf1 : r1.WF nBits 0 := (wf_erase r1).mp (herase ▸ (wf_erase r).mpr hwf)
    have hv1 : r1.ValidPath (q ++ [dd]) :=
      (validPath_erase r1 _).mp (herase ▸ (validPath_erase r _).mpr hv)
    have hkeys1 : r1.keys = r.keys := by rw [← keys_erase, herase, keys_erase]
    have hleaf1 : ∃ b' c' v', r1.nodeAt (q ++ [dd]) = leaf b' c' key v' := by
      have := nodeAt_erase_congr herase (q ++ [dd])
      rw [hleaf] at this
      cases h : r1.nodeAt (q ++ [dd]) with
      | leaf b' c' k' v' =>
        rw [h] at this
        simp only [erase, leaf.injEq] at this
        exact ⟨b', c', v', by rw [this.2.2.1]⟩
      | joint => rw [h] at this; simp [erase] at this
    obtain ⟨b1, c1, v1, hleaf1⟩ := hleaf1
    obtain ⟨hvq, b', c', kp', h', e0, e1, hq⟩ := validPath_append.mp hv1
    have hwfq := hwf1.nodeAt hvq
    rw [hq] at hwfq
    have hleafq : (joint b' c' kp' h' e0 e1).nodeAt [dd] = leaf b1 c1 key v1 := by
      rw [← hq, ← nodeAt_append, hleaf1]
    have hdel : (r1.nodeAt (q ++ [dd])).getNodeKey = key := by rw [hleaf1]; rfl
    simp only [delete, hr, hpp, List.getLast?_concat, List.dropLast_concat, ← hr1, hdel, hq, WF, keys]
    -- the sibling `pN`, entered one bit below `pPrev`'s branch bit
    obtain ⟨hlt, h0, h1, hb0, hb1, hkp, hptr⟩ := hwfq
    set dq := r1.depthAt 0 q
    have hsib : ∀ {pN : Node α H}, pN.WF nBits (dq + b' + 1) →
        (∀ k ∈ pN.keys, k ∈ e0.keys ++ e1.keys) → (∀ k ∈ pN.keys, bit k (dq + b') = bit pN.getNodeKey (dq + b')) →
        (pN.setBits (pN.getBits + (joint b' c' kp' h' e0 e1).getBits + 1)).WF nBits dq := by
      intro pN hpN hsub hbit
      have := hpN.setBits_add (d := dq) (by omega) (fun k hk =>
        ((hkp k (hsub k hk)).trans (hkp _ (hsub _ hpN.nodeKey_mem)).symm).succ (hbit k hk))
      simpa [getBits, show dq + b' + 1 - dq = b' + 1 by omega, Nat.add_assoc] using this
    cases dd
    · simp only [nodeAt_joint_cons, Bool.false_eq_true, ↓reduceIte, nodeAt_nil] at hleafq
      subst hleafq
      have hnot : key ∉ e1.keys := fun hk => by
        have := hb0 key (by simp); rw [hb1 key hk] at this; exact Bool.noConfusion this
      obtain ⟨hw, hk, -, -⟩ := repoint_replace key e1.getNodeKey hwf1 hvq ⟨_, _, _, _, _, _, hq⟩
        (by rw [hq]; simp) (by rw [hq]; simpa using Or.inr h1.nodeKey_mem)
        (m := e1.setBits (e1.getBits + (joint b' c' kp' h' (leaf b1 c1 key v1) e1).getBits + 1))
        (hsib h1 (fun k hk => by simp [hk]) (fun k hk => by rw [hb1 k hk, hb1 _ h1.nodeKey_mem]))
        (by rw [hq]; simp)
        (by
          rw [hq, getNodeKey_setBits]
          show e1.getNodeKey = if kp' = key then e1.getNodeKey else kp'
          rcases hptr with h | h
          · have hkey : kp' = key := h
            simp [hkey]
          · rw [← h]; simp)
      simp only [Bool.not_false, nodeAt_joint_cons, ↓reduceIte, nodeAt_nil]
      exact ⟨hw, by rw [hk, hkeys1]⟩
    · simp only [nodeAt_joint_cons, ↓reduceIte, nodeAt_nil] at hleafq
      subst hleafq
      have hnot : key ∉ e0.keys := fun hk => by
        have := hb1 key (by simp); rw [hb0 key hk] at this; exact Bool.noConfusion this
      obtain ⟨hw, hk, -, -⟩ := repoint_replace key e0.getNodeKey hwf1 hvq ⟨_, _, _, _, _, _, hq⟩
        (by rw [hq]; simp) (by rw [hq]; simpa using Or.inl h0.nodeKey_mem)
        (m := e0.setBits (e0.getBits + (joint b' c' kp' h' e0 (leaf b1 c1 key v1)).getBits + 1))
        (hsib h0 (fun k hk => by simp [hk]) (fun k hk => by rw [hb0 k hk, hb0 _ h0.nodeKey_mem]))
        (by rw [hq]; simp [List.erase_append_right _ hnot])
        (by
          rw [hq, getNodeKey_setBits]
          show e0.getNodeKey = if kp' = key then e0.getNodeKey else kp'
          rcases hptr with h | h
          · rw [← h]; simp
          · have hkey : kp' = key := h
            simp [hkey])
      simp only [Bool.not_true, nodeAt_joint_cons, Bool.false_eq_true, ↓reduceIte, nodeAt_nil]
      exact ⟨hw, by rw [hk, hkeys1]⟩

end Beam.RadixTree
