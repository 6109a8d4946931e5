import Mathlib.Data.Finset.Card
import Beam.RadixTree.Delete
import Beam.RadixTree.Traverse

/-!
# The radix tree implements a finite set

The trees `Reachable` from the empty one by `Find` with `bCreate` set and by
`Delete` at a cursor on a key carry the abstract set of keys inserted and not
deleted since.  `Abstracts` is the refinement relation: the tree is well-formed
and its keys are exactly that set.  Each operation keeps it (`Abstracts.find`,
`Abstracts.delete`), so every reachable tree satisfies it, and what each
operation does on the tree is then what it does on the set:

* `reachable_abstracts`: the run lemma;
* `radixTree_finite_set`: lookups, insertions, deletions and `Count` of a reachable tree
  against the abstract set.
-/

namespace Beam.RadixTree

open BitString Node

variable {α H : Type} {nBits : Nat}

/-- The refinement relation: `t` is well-formed for keys of `nBits` bits and
holds exactly the keys of `s`. -/
structure Abstracts (nBits : Nat) (t : RadixTree α H) (s : Finset Key) : Prop where
  wf : t.WF nBits
  keys_toFinset : t.keys.toFinset = s

/-- The trees `Find` with `bCreate` set and `Delete` build from the empty tree
over keys of `nBits` bits, each with the set of the keys inserted and not
deleted since.  A created leaf gets whatever payload `v0` it is given. -/
inductive Reachable [Inhabited H] (nBits : Nat) : RadixTree α H → Finset Key → Prop
  | empty : Reachable nBits ⟨none⟩ ∅
  | find {t : RadixTree α H} {s : Finset Key} {key : Key} (v0 : α) :
      Reachable nBits t s → key.length = nBits →
      Reachable nBits (t.find key nBits true v0).tree (insert key s)
  | delete {t : RadixTree α H} {s : Finset Key} {cu : CursorBase} {key : Key} :
      Reachable nBits t s → t.OnKey cu key → Reachable nBits (t.delete cu) (s.erase key)

theorem WF.keys_nodup {t : RadixTree α H} (h : t.WF nBits) : t.keys.Nodup := by
  unfold WF at h
  unfold keys
  split
  · exact List.nodup_nil
  · next r hr => rw [hr] at h; exact Node.WF.nodup h

theorem toFinset_erase_of_nodup {l : List Key} (hl : l.Nodup) (k : Key) :
    (l.erase k).toFinset = l.toFinset.erase k := by
  ext k'
  simp [hl.mem_erase_iff]

namespace Abstracts

variable {t : RadixTree α H} {s : Finset Key}

theorem empty : Abstracts nBits (⟨none⟩ : RadixTree α H) ∅ :=
  ⟨trivial, rfl⟩

theorem mem_iff (h : Abstracts nBits t s) (key : Key) : key ∈ t.keys ↔ key ∈ s := by
  rw [← h.keys_toFinset, List.mem_toFinset]

theorem count_eq_card (h : Abstracts nBits t s) : t.count = s.card := by
  rw [count_eq_length, ← h.keys_toFinset, List.toFinset_card_of_nodup h.wf.keys_nodup]

/-- `Find` with `bCreate` set keeps the refinement, with the key added to the set. -/
theorem find [Inhabited H] (hn : 0 < nBits) (h : Abstracts nBits t s) {key : Key}
    (hlen : key.length = nBits) (v0 : α) :
    Abstracts nBits (t.find key nBits true v0).tree (insert key s) := by
  by_cases hk : key ∈ t.keys
  · -- the key is there: `Find` returns the tree as it was
    rw [(find_of_mem hn h.wf hlen hk true v0).1, Finset.insert_eq_of_mem ((h.mem_iff key).mp hk)]
    exact h
  · obtain ⟨-, -, hwf, hperm, -⟩ := find_create hn h.wf hlen hk v0
    refine ⟨hwf, ?_⟩
    rw [List.toFinset_eq_of_perm _ _ hperm, List.toFinset_cons, h.keys_toFinset]

/-- `Delete` at a cursor on a key keeps the refinement, with the key removed. -/
theorem delete (h : Abstracts nBits t s) {cu : CursorBase} {key : Key} (hon : t.OnKey cu key) :
    Abstracts nBits (t.delete cu) (s.erase key) := by
  obtain ⟨hwf, hkeys⟩ := delete_spec h.wf hon
  refine ⟨hwf, ?_⟩
  rw [hkeys, toFinset_erase_of_nodup h.wf.keys_nodup, h.keys_toFinset]

end Abstracts

/-- **The run lemma**: every reachable tree refines its abstract set. -/
theorem reachable_abstracts [Inhabited H] (hn : 0 < nBits) {t : RadixTree α H} {s : Finset Key}
    (hr : Reachable nBits t s) : Abstracts nBits t s := by
  induction hr with
  | empty => exact Abstracts.empty
  | find v0 _ hlen ih => exact ih.find hn hlen v0
  | delete _ hon ih => exact ih.delete hon

/-- **The radix tree is a finite set.**  On every reachable tree, for every key of
`nBits` bits: `Goto` and `Find` without creation succeed exactly on the keys of
the abstract set; `Find` with creation adds an absent key, sets `bCreate` and
leaves the cursor on it, and on a present key returns its leaf, changes nothing
and clears `bCreate`; `Delete` at a cursor on a key removes exactly that key;
and `Count` is the size of the set.  The tree satisfies the representation
invariant `WF` throughout. -/
theorem radixTree_finite_set [Inhabited H] (hn : 0 < nBits) {t : RadixTree α H} {s : Finset Key}
    (hr : Reachable nBits t s) :
    t.WF nBits ∧ t.count = s.card ∧
    ∀ key : Key, key.length = nBits →
      ((t.goto key nBits).1 = true ↔ key ∈ s) ∧
      (∀ v0 : α, (t.find key nBits false v0).found = true ↔ key ∈ s) ∧
      (key ∉ s → ∀ v0 : α,
        (t.find key nBits true v0).found = true ∧ (t.find key nBits true v0).bCreate = true ∧
        (t.find key nBits true v0).tree.keys.toFinset = insert key s ∧
        (t.find key nBits true v0).tree.OnKey (t.find key nBits true v0).cu key) ∧
      (key ∈ s → ∀ v0 : α,
        t.find key nBits true v0 = ⟨t, (t.goto key nBits).2, true, false⟩ ∧
        t.OnKey (t.goto key nBits).2 key) ∧
      (∀ cu : CursorBase, t.OnKey cu key → (t.delete cu).keys.toFinset = s.erase key) := by
  have ha := reachable_abstracts hn hr
  refine ⟨ha.wf, ha.count_eq_card, fun key hlen => ⟨?_, ?_, ?_, ?_, ?_⟩⟩
  · rw [goto_eq_true_iff hn ha.wf hlen, ha.mem_iff]
  · intro v0
    have hfind : (t.find key nBits false v0).found = (t.goto key nBits).1 := by
      simp only [find, Bool.not_false, ↓reduceIte]
      cases (t.goto key nBits).1 <;> rfl
    rw [hfind, goto_eq_true_iff hn ha.wf hlen, ha.mem_iff]
  · intro hk v0
    have hk' : key ∉ t.keys := (ha.mem_iff key).not.mpr hk
    obtain ⟨h1, h2, -, -, h5⟩ := find_create hn ha.wf hlen hk' v0
    exact ⟨h1, h2, (ha.find hn hlen v0).keys_toFinset, h5⟩
  · intro hk v0
    exact find_of_mem hn ha.wf hlen ((ha.mem_iff key).mpr hk) true v0
  · intro cu hon
    exact (ha.delete hon).keys_toFinset

/-- Three two-bit keys inserted by three `Find`s: the tree counts three keys, finds
an inserted key and misses the one never inserted. -/
theorem radixTree_finite_set_three_keys :
    let t := ((((⟨none⟩ : RadixTree Unit Unit).find [true, false] 2 true ()).tree.find
      [false, true] 2 true ()).tree.find [true, true] 2 true ()).tree
    0 < 2 ∧ t.count = 3 ∧ (t.goto [false, true] 2).1 = true ∧ (t.goto [false, false] 2).1 = false := by
  intro t
  have hr : Reachable 2 t {[true, true], [false, true], [true, false]} :=
    ((Reachable.empty.find () (by decide)).find () (by decide)).find () (by decide)
  obtain ⟨-, hcount, hkeys⟩ := radixTree_finite_set (by decide) hr
  refine ⟨by decide, hcount.trans (by decide), (hkeys _ rfl).1.mpr (by simp), ?_⟩
  rw [Bool.eq_false_iff, ne_eq, (hkeys _ rfl).1]
  simp

end Beam.RadixTree
