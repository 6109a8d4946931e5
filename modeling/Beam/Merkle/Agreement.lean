import Beam.Merkle.CompactMmr
import Beam.Merkle.FixedMmr
import Mathlib.Data.List.Induction

/-!
# The MMRs of `merkle.cpp` agree

The test `TestMmr` appends the same hashes to an `Mmr` over a table, a
`DistributedMmr`, a `CompactMmr`, a `FixedMmr` and a `FlyMmr`, and compares
their roots, predicted roots and proofs.  Each run is modelled as a fold of
its `Append`; each run keeps the invariant of its module (`mmrRun_holds`,
`compactRun_peaks`, `distributedRun_holds`, `fixedRun_eq`), from which every
`get_Hash` is the root of the mountain range of the hashes, every
`get_PredictedHash` the root with one more, and every `get_Proof` the proof read
from the trees.
-/

namespace Beam.Merkle

open MountainRange DistributedMmr

variable {σ α Key : Type} (hJ : α → α → α)

/-- An element the test appends: the key and the buffer `MyDmmr::MyAppend` gives
it, and its hash. -/
structure Appended (α Key : Type) where
  key : Key
  buf : NodeData α Key
  hash : α

/-- `Mmr::Append` of each hash in turn, from no leaves and the state `s`. -/
def mmrRun (st : Store σ α) (s : σ) (l : List α) : Nat × σ :=
  l.foldl (fun cs hv => append hJ st cs.1 hv cs.2) (0, s)

/-- `CompactMmr::Append` of each hash in turn. -/
def compactRun (l : List α) : CompactMmr α :=
  l.foldl (CompactMmr.append hJ) ⟨0, []⟩

/-- `MyDmmr::MyAppend` of each element in turn, from no leaves. -/
def distributedRun [DecidableEq Key] (env : Env α Key) (kLast : Key) (l : List (Appended α Key)) :
    Env α Key × DistributedMmr Key :=
  l.foldl (fun ed a => myAppend hJ ed.1 ed.2 a.key a.buf a.hash) (env, ⟨0, kLast⟩)

/-- `FixedMmr::Append` of each hash in turn, from `FixedMmr(nTotal)`. -/
def fixedRun [Inhabited α] (nTotal : Nat) (zero : α) (l : List α) : FixedMmr α :=
  l.foldl (FixedMmr.append hJ) (FixedMmr.new nTotal zero)

theorem mmrRun_append (st : Store σ α) (s : σ) (l : List α) (hv : α) :
    mmrRun hJ st s (l ++ [hv]) = append hJ st (mmrRun hJ st s l).1 hv (mmrRun hJ st s l).2 := by
  simp only [mmrRun, List.foldl_append, List.foldl_cons, List.foldl_nil]

theorem compactRun_append (l : List α) (hv : α) :
    compactRun hJ (l ++ [hv]) = CompactMmr.append hJ (compactRun hJ l) hv := by
  simp only [compactRun, List.foldl_append, List.foldl_cons, List.foldl_nil]

theorem distributedRun_append [DecidableEq Key] (env : Env α Key) (kLast : Key) (l : List (Appended α Key))
    (a : Appended α Key) :
    distributedRun hJ env kLast (l ++ [a]) =
      myAppend hJ (distributedRun hJ env kLast l).1 (distributedRun hJ env kLast l).2 a.key a.buf a.hash := by
  simp only [distributedRun, List.foldl_append, List.foldl_cons, List.foldl_nil]

/-! ## Each run keeps its invariant -/

section Runs

theorem getD_append_of_lt {l : List α} {hv zero : α} {i : Nat} (hi : i < l.length) :
    (l ++ [hv]).getD i zero = l.getD i zero :=
  List.getD_append l [hv] zero i hi

theorem getD_append_length {l : List α} {hv zero : α} : (l ++ [hv]).getD l.length zero = hv := by
  rw [List.getD_append_right l [hv] zero _ le_rfl, Nat.sub_self]
  rfl

/-- Setting leaf `i` of the list is updating its leaf function at `i`. -/
theorem getD_set_eq_update {l : List α} {i : Nat} (hi : i < l.length) (hv zero : α) :
    (fun j => (l.set i hv).getD j zero) = Function.update (fun j => l.getD j zero) i hv := by
  funext j
  rcases eq_or_ne j i with rfl | hne
  · rw [Function.update_self, List.getD_eq_getElem _ _ (by simpa using hi), List.getElem_set_self]
  · rw [Function.update_of_ne hne]
    simp [List.getD_eq_getElem?_getD, List.getElem?_set_ne hne.symm]

variable {st : Store σ α} {view : σ → Nat → Nat → α} {ok : σ → Prop} {cap : Nat}

/-- **An `Mmr` over a table holds every tree of its leaves.** -/
theorem mmrRun_holds (ht : TableLike st view ok cap) {s : σ} (hs : ok s) (zero : α) :
    ∀ l : List α, l.length ≤ cap →
      (mmrRun hJ st s l).1 = l.length ∧ ok (mmrRun hJ st s l).2 ∧
        Holds hJ (fun i => l.getD i zero) l.length (view (mmrRun hJ st s l).2) := by
  intro l
  induction l using List.reverseRecOn with
  | nil =>
    exact fun _ => ⟨rfl, hs, fun h x hx => absurd hx (Nat.not_le.2 (Nat.mul_pos (Nat.succ_pos x) (Nat.two_pow_pos h)))⟩
  | append_singleton l hv ih =>
    intro hcap
    rw [List.length_append, List.length_singleton] at hcap ⊢
    obtain ⟨hcount, hok, hholds⟩ := ih (by omega)
    rw [mmrRun_append, hcount]
    obtain ⟨hok', hholds'⟩ := append_holds ht.pointsTo (by omega) (fun _ _ _ => trivial) hok hholds (fun i hi => getD_append_of_lt hi)
      getD_append_length
    exact ⟨rfl, hok', hholds'⟩

/-- **A `CompactMmr` keeps the peaks of its leaves.** -/
theorem compactRun_peaks (zero : α) :
    ∀ l : List α, (compactRun hJ l).count = l.length ∧ CompactMmr.Peaks hJ (fun i => l.getD i zero) (compactRun hJ l) := by
  intro l
  induction l using List.reverseRecOn with
  | nil => exact ⟨rfl, by simp [CompactMmr.Peaks, compactRun]⟩
  | append_singleton l hv ih =>
    obtain ⟨hcount, hpeaks⟩ := ih
    rw [compactRun_append]
    refine ⟨by rw [List.length_append, List.length_singleton, ← hcount]; rfl, ?_⟩
    exact CompactMmr.append_peaks hpeaks (fun i hi => getD_append_of_lt (hcount ▸ hi))
      (hcount ▸ getD_append_length)

/-- Under the keys of the appended elements, the key of a new element is the
update at the end. -/
theorem update_keys_append {l : List (Appended α Key)} {a : Appended α Key} {kLast : Key} :
    Function.update (fun i => (l.map Appended.key).getD i kLast) l.length a.key =
      fun i => ((l ++ [a]).map Appended.key).getD i kLast := by
  funext i
  rw [List.map_append, List.map_singleton]
  rcases Nat.lt_trichotomy i l.length with hlt | rfl | hgt
  · rw [Function.update_of_ne (Nat.ne_of_lt hlt), getD_append_of_lt (by simpa using hlt)]
  · rw [Function.update_self, ← List.length_map (f := Appended.key), getD_append_length]
  · rw [Function.update_of_ne (Nat.ne_of_gt hgt), List.getD_eq_default _ _ (by simp; omega),
      List.getD_eq_default _ _ (by simp; omega)]

/-- **A `DistributedMmr` with its caller's store keeps its invariant** when the
appended elements have pairwise different keys. -/
theorem distributedRun_holds [DecidableEq Key] (env : Env α Key) (kLast : Key) (zero : α) :
    ∀ l : List (Appended α Key), (l.map Appended.key).Nodup →
      (distributedRun hJ env kLast l).2.count = l.length ∧
        DistributedMmr.Holds hJ (fun i => (l.map Appended.hash).getD i zero) (fun i => (l.map Appended.key).getD i kLast)
          (distributedRun hJ env kLast l).1 (distributedRun hJ env kLast l).2 := by
  intro l
  induction l using List.reverseRecOn with
  | nil => exact fun _ => ⟨rfl, holds_empty _ _ _ _⟩
  | append_singleton l a ih =>
    intro hnodup
    rw [List.map_append, List.map_singleton, List.nodup_append] at hnodup
    obtain ⟨hcount, hd⟩ := ih hnodup.1
    -- the new key is not one of the keys before
    have hfresh : ∀ i < (distributedRun hJ env kLast l).2.count, (l.map Appended.key).getD i kLast ≠ a.key := by
      intro i hi heq
      rw [hcount, ← List.length_map (f := Appended.key)] at hi
      rw [List.getD_eq_getElem _ _ hi] at heq
      exact hnodup.2.2 _ (List.getElem_mem hi) _ (List.mem_singleton_self _) heq
    have hhash : ((l ++ [a]).map Appended.hash) = l.map Appended.hash ++ [a.hash] := by simp
    rw [distributedRun_append]
    refine ⟨by rw [myAppend_snd, hcount, List.length_append, List.length_singleton], ?_⟩
    have hnext : DistributedMmr.Holds hJ (fun i => ((l ++ [a]).map Appended.hash).getD i zero)
        (Function.update (fun i => (l.map Appended.key).getD i kLast) (distributedRun hJ env kLast l).2.count a.key)
        (myAppend hJ (distributedRun hJ env kLast l).1 (distributedRun hJ env kLast l).2 a.key a.buf a.hash).1
        (myAppend hJ (distributedRun hJ env kLast l).1 (distributedRun hJ env kLast l).2 a.key a.buf a.hash).2 :=
      myAppend_holds hd (fun i hi => by rw [hhash, getD_append_of_lt (by simpa [hcount] using hi)])
        (by rw [hhash, hcount, ← List.length_map (f := Appended.hash), getD_append_length]) hfresh a.buf
    rwa [hcount, update_keys_append] at hnext

theorem fixedRun_eq [Inhabited α] (nTotal : Nat) (zero : α) :
    ∀ l : List α, fixedRun hJ nTotal zero l =
      ⟨(mmrRun hJ FixedMmr.store (FixedMmr.new nTotal zero).vHashes l).1,
        (mmrRun hJ FixedMmr.store (FixedMmr.new nTotal zero).vHashes l).2⟩ := by
  intro l
  induction l using List.reverseRecOn with
  | nil => rfl
  | append_singleton l hv ih =>
    rw [fixedRun, List.foldl_append, ← fixedRun, ih, mmrRun_append]
    rfl

end Runs

/-! ## What each run computes -/

section Results

variable {st : Store σ α} {view : σ → Nat → Nat → α} {ok : σ → Prop} {cap : Nat}

theorem mmrRun_getHash (ht : TableLike st view ok cap) {s : σ} (hs : ok s) (zero : α) {l : List α}
    (hcap : l.length ≤ cap) :
    (getHash hJ st zero (mmrRun hJ st s l).1 (mmrRun hJ st s l).2).1 =
      (root hJ (fun i => l.getD i zero) l.length).getD zero := by
  obtain ⟨hcount, hok, hholds⟩ := mmrRun_holds hJ ht hs zero l hcap
  rw [hcount]
  exact (getHash_spec (loadsNodes_tableLike ht _ hcap) zero ⟨hok, hholds⟩).1

theorem mmrRun_getPredictedHash (ht : TableLike st view ok cap) {s : σ} (hs : ok s) (zero : α) {l : List α}
    (hcap : l.length < cap) (hv : α) :
    (getPredictedHash hJ st (mmrRun hJ st s l).1 hv (mmrRun hJ st s l).2).1 =
      (getHash hJ st zero (mmrRun hJ st s (l ++ [hv])).1 (mmrRun hJ st s (l ++ [hv])).2).1 := by
  obtain ⟨hcount, hok, hholds⟩ := mmrRun_holds hJ ht hs zero l hcap.le
  have hsome : some (getPredictedHash hJ st l.length hv (mmrRun hJ st s l).2).1 =
      root hJ (fun i => (l ++ [hv]).getD i zero) (l.length + 1) :=
    getPredictedHash_eq_root (loadsNodes_tableLike ht _ hcap.le) (fun i hi => getD_append_of_lt hi)
      getD_append_length ⟨hok, hholds⟩
  rw [mmrRun_getHash hJ ht hs zero (by rw [List.length_append, List.length_singleton]; exact hcap), List.length_append,
    List.length_singleton, ← hsome, Option.getD_some, hcount]

theorem compactRun_getHash (zero : α) (l : List α) :
    CompactMmr.getHash hJ zero (compactRun hJ l) = (root hJ (fun i => l.getD i zero) l.length).getD zero := by
  obtain ⟨hcount, hpeaks⟩ := compactRun_peaks hJ zero l
  rw [CompactMmr.getHash_eq hpeaks, hcount]

theorem compactRun_getPredictedHash (zero : α) (l : List α) (hv : α) :
    CompactMmr.getPredictedHash hJ (compactRun hJ l) hv = CompactMmr.getHash hJ zero (compactRun hJ (l ++ [hv])) := by
  obtain ⟨hcount, hpeaks⟩ := compactRun_peaks hJ zero l
  have hsome : some (CompactMmr.getPredictedHash hJ (compactRun hJ l) hv) =
      root hJ (fun i => (l ++ [hv]).getD i zero) ((compactRun hJ l).count + 1) :=
    CompactMmr.getPredictedHash_eq hpeaks (fun i hi => getD_append_of_lt (hcount ▸ hi)) (hcount ▸ getD_append_length)
  rw [compactRun_getHash, List.length_append, List.length_singleton, ← hcount, ← hsome, Option.getD_some]

theorem distributedRun_getHash [DecidableEq Key] (env : Env α Key) (kLast : Key) (zero : α)
    {l : List (Appended α Key)} (hkeys : (l.map Appended.key).Nodup) :
    DistributedMmr.getHash hJ (distributedRun hJ env kLast l).1 zero (distributedRun hJ env kLast l).2 =
      (root hJ (fun i => (l.map Appended.hash).getD i zero) l.length).getD zero := by
  obtain ⟨hcount, hd⟩ := distributedRun_holds hJ env kLast zero l hkeys
  rw [DistributedMmr.getHash_eq hd, hcount]

theorem distributedRun_getPredictedHash [DecidableEq Key] (env : Env α Key) (kLast : Key) (zero : α)
    {l : List (Appended α Key)} {a : Appended α Key} (hkeys : ((l ++ [a]).map Appended.key).Nodup) :
    DistributedMmr.getPredictedHash hJ (distributedRun hJ env kLast l).1 (distributedRun hJ env kLast l).2 a.hash =
      DistributedMmr.getHash hJ (distributedRun hJ env kLast (l ++ [a])).1 zero
        (distributedRun hJ env kLast (l ++ [a])).2 := by
  have hkeys' : (l.map Appended.key).Nodup := by
    rw [List.map_append] at hkeys
    exact hkeys.sublist (List.sublist_append_left _ _)
  obtain ⟨hcount, hd⟩ := distributedRun_holds hJ env kLast zero l hkeys'
  have hhash : ((l ++ [a]).map Appended.hash) = l.map Appended.hash ++ [a.hash] := by simp
  have hsome : some (DistributedMmr.getPredictedHash hJ (distributedRun hJ env kLast l).1
      (distributedRun hJ env kLast l).2 a.hash) =
      root hJ (fun i => ((l ++ [a]).map Appended.hash).getD i zero) ((distributedRun hJ env kLast l).2.count + 1) :=
    DistributedMmr.getPredictedHash_eq hd (fun i hi => by rw [hhash, getD_append_of_lt (by simpa [hcount] using hi)])
      (by rw [hhash, hcount, ← List.length_map (f := Appended.hash), getD_append_length])
  rw [distributedRun_getHash hJ env kLast zero hkeys, List.length_append, List.length_singleton, ← hcount, ← hsome,
    Option.getD_some]

theorem flyMmr_getHash (zero : α) (l : List α) :
    FlyMmr.getHash hJ (fun i => l.getD i zero) zero l.length = (root hJ (fun i => l.getD i zero) l.length).getD zero := by
  rw [FlyMmr.getHash, FlyMmr.inner_eq]
  exact (getHash_spec (loadsNodes_ofFun hJ _ _) zero trivial).1

/-- `FixedMmr(nTotal)` starts with a slot for each hash of `nTotal` leaves. -/
theorem length_new_vHashes [Inhabited α] (nTotal : Nat) (zero : α) :
    (FixedMmr.new nTotal zero).vHashes.length = FlatMmr.getTotalHashes nTotal true :=
  List.length_replicate ..

/-! ### Proofs -/

theorem mmrRun_getProof [Inhabited α] (ht : TableLike st view ok cap) {s : σ} (hs : ok s) (zero : α) {l : List α}
    (hcap : l.length ≤ cap) {i : Nat} (hi : i < l.length) :
    (getProof hJ st (mmrRun hJ st s l).1 i (mmrRun hJ st s l).2).1 =
      (getProof hJ (Store.ofFun fun h x => node hJ (fun i => l.getD i zero) h x) l.length i ()).1 := by
  obtain ⟨hcount, hok, hholds⟩ := mmrRun_holds hJ ht hs zero l hcap
  rw [hcount]
  exact getProof_ofFun (loadsNodes_tableLike ht _ hcap) ⟨hok, hholds⟩ hi

theorem fixedRun_getProof [Inhabited α] (zero : α) {nTotal : Nat} (hn : nTotal ≤ 2 ^ 63) {l : List α}
    (hcap : l.length ≤ nTotal) {i : Nat}
    (hi : i < l.length) :
    FixedMmr.getProof hJ (fixedRun hJ nTotal zero l) i =
      (getProof hJ (Store.ofFun fun h x => node hJ (fun i => l.getD i zero) h x) l.length i ()).1 := by
  rw [fixedRun_eq]
  exact mmrRun_getProof hJ (FixedMmr.tableLike_store hn) (length_new_vHashes nTotal zero) zero hcap hi

theorem distributedRun_getProof [Inhabited α] [DecidableEq Key] (env : Env α Key) (kLast : Key) (zero : α)
    {l : List (Appended α Key)} (hkeys : (l.map Appended.key).Nodup) {i : Nat} (hi : i < l.length) :
    DistributedMmr.getProof hJ (distributedRun hJ env kLast l).1 (distributedRun hJ env kLast l).2 i =
      (getProof hJ (Store.ofFun fun h x => node hJ (fun i => (l.map Appended.hash).getD i zero) h x) l.length i ()).1 := by
  obtain ⟨hcount, hd⟩ := distributedRun_holds hJ env kLast zero l hkeys
  rw [DistributedMmr.getProof_eq hd (hcount ▸ hi), hcount]

theorem flyMmr_getProof [Inhabited α] (zero : α) (l : List α) (i : Nat) :
    FlyMmr.getProof hJ (fun i => l.getD i zero) l.length i =
      (getProof hJ (Store.ofFun fun h x => node hJ (fun i => l.getD i zero) h x) l.length i ()).1 := by
  rw [FlyMmr.getProof, FlyMmr.inner_eq]

end Results

/-! ## The claims of `TestMmr` -/

section Claims

variable {st : Store σ α} {view : σ → Nat → Nat → α} {ok : σ → Prop} {cap : Nat}

/-- **All the MMRs agree on the root.**  After appending the same hashes, an
`Mmr` over any table with room for one more leaf, a `CompactMmr`, a
`DistributedMmr` (whose elements have pairwise different keys) and a `FlyMmr`
give the same `get_Hash`; and for the first three, `get_PredictedHash(hv)`
before `Append(hv)` is `get_Hash` after it. -/
theorem mmr_roots_agree [DecidableEq Key] (ht : TableLike st view ok cap) {s : σ} (hs : ok s) (env : Env α Key)
    (kLast : Key) (zero : α) (l : List (Appended α Key)) (hkeys : (l.map Appended.key).Nodup)
    (hcap : l.length < cap) :
    (getHash hJ st zero (mmrRun hJ st s (l.map Appended.hash)).1 (mmrRun hJ st s (l.map Appended.hash)).2).1 =
        CompactMmr.getHash hJ zero (compactRun hJ (l.map Appended.hash)) ∧
      CompactMmr.getHash hJ zero (compactRun hJ (l.map Appended.hash)) =
        DistributedMmr.getHash hJ (distributedRun hJ env kLast l).1 zero (distributedRun hJ env kLast l).2 ∧
      DistributedMmr.getHash hJ (distributedRun hJ env kLast l).1 zero (distributedRun hJ env kLast l).2 =
        FlyMmr.getHash hJ (fun i => (l.map Appended.hash).getD i zero) zero l.length ∧
      ∀ a : Appended α Key, a.key ∉ l.map Appended.key →
        (getPredictedHash hJ st (mmrRun hJ st s (l.map Appended.hash)).1 a.hash
            (mmrRun hJ st s (l.map Appended.hash)).2).1 =
          (getHash hJ st zero (mmrRun hJ st s ((l ++ [a]).map Appended.hash)).1
            (mmrRun hJ st s ((l ++ [a]).map Appended.hash)).2).1 ∧
        CompactMmr.getPredictedHash hJ (compactRun hJ (l.map Appended.hash)) a.hash =
          CompactMmr.getHash hJ zero (compactRun hJ ((l ++ [a]).map Appended.hash)) ∧
        DistributedMmr.getPredictedHash hJ (distributedRun hJ env kLast l).1 (distributedRun hJ env kLast l).2 a.hash =
          DistributedMmr.getHash hJ (distributedRun hJ env kLast (l ++ [a])).1 zero
            (distributedRun hJ env kLast (l ++ [a])).2 := by
  have hlen : (l.map Appended.hash).length = l.length := List.length_map _
  -- each `get_Hash` is the root of the hashes
  have hmmr := mmrRun_getHash hJ ht hs zero (l := l.map Appended.hash) (by omega)
  have hcompact := compactRun_getHash hJ zero (l.map Appended.hash)
  have hdist := distributedRun_getHash hJ env kLast zero hkeys
  have hfly := flyMmr_getHash hJ zero (l.map Appended.hash)
  rw [hlen] at hmmr hcompact hfly
  refine ⟨hmmr.trans hcompact.symm, hcompact.trans hdist.symm, hdist.trans hfly.symm, fun a ha => ⟨?_, ?_, ?_⟩⟩
  · -- `Mmr`
    rw [List.map_append, List.map_singleton]
    exact mmrRun_getPredictedHash hJ ht hs zero (by omega) a.hash
  · -- `CompactMmr`
    rw [List.map_append, List.map_singleton]
    exact compactRun_getPredictedHash hJ zero _ a.hash
  · -- `DistributedMmr`
    refine distributedRun_getPredictedHash hJ env kLast zero ?_
    rw [List.map_append, List.map_singleton]
    exact List.nodup_append.2 ⟨hkeys, by simp, fun x hx y hy heq => ha (by
      rw [List.mem_singleton] at hy; rw [← hy, ← heq]; exact hx)⟩

/-- Two elements with different keys, appended in the examples below. -/
def twoLeaves : List (Appended Nat Nat) :=
  [⟨1, ⟨fun _ => 0, fun _ => 0⟩, 5⟩, ⟨2, ⟨fun _ => 0, fun _ => 0⟩, 7⟩]

/-- A caller's store in which nothing is stored yet. -/
def nullEnv : Env Nat Nat :=
  ⟨fun _ => ⟨fun _ => 0, fun _ => 0⟩, fun _ => 0⟩

theorem mmr_roots_agree_two_leaves :
    (getHash Nat.add tableStore 0 (mmrRun Nat.add tableStore (fun _ _ => 0) (twoLeaves.map Appended.hash)).1
        (mmrRun Nat.add tableStore (fun _ _ => 0) (twoLeaves.map Appended.hash)).2).1 =
        CompactMmr.getHash Nat.add 0 (compactRun Nat.add (twoLeaves.map Appended.hash)) ∧
      CompactMmr.getHash Nat.add 0 (compactRun Nat.add (twoLeaves.map Appended.hash)) =
        DistributedMmr.getHash Nat.add (distributedRun Nat.add nullEnv 0 twoLeaves).1 0
          (distributedRun Nat.add nullEnv 0 twoLeaves).2 ∧
      DistributedMmr.getHash Nat.add (distributedRun Nat.add nullEnv 0 twoLeaves).1 0
          (distributedRun Nat.add nullEnv 0 twoLeaves).2 =
        FlyMmr.getHash Nat.add (fun i => (twoLeaves.map Appended.hash).getD i 0) 0 twoLeaves.length ∧
      ∀ a : Appended Nat Nat, a.key ∉ twoLeaves.map Appended.key →
        (getPredictedHash Nat.add tableStore (mmrRun Nat.add tableStore (fun _ _ => 0) (twoLeaves.map Appended.hash)).1
            a.hash (mmrRun Nat.add tableStore (fun _ _ => 0) (twoLeaves.map Appended.hash)).2).1 =
          (getHash Nat.add tableStore 0 (mmrRun Nat.add tableStore (fun _ _ => 0) ((twoLeaves ++ [a]).map Appended.hash)).1
            (mmrRun Nat.add tableStore (fun _ _ => 0) ((twoLeaves ++ [a]).map Appended.hash)).2).1 ∧
        CompactMmr.getPredictedHash Nat.add (compactRun Nat.add (twoLeaves.map Appended.hash)) a.hash =
          CompactMmr.getHash Nat.add 0 (compactRun Nat.add ((twoLeaves ++ [a]).map Appended.hash)) ∧
        DistributedMmr.getPredictedHash Nat.add (distributedRun Nat.add nullEnv 0 twoLeaves).1
            (distributedRun Nat.add nullEnv 0 twoLeaves).2 a.hash =
          DistributedMmr.getHash Nat.add (distributedRun Nat.add nullEnv 0 (twoLeaves ++ [a])).1 0
            (distributedRun Nat.add nullEnv 0 (twoLeaves ++ [a])).2 :=
  mmr_roots_agree Nat.add (tableLike_tableStore 3) trivial nullEnv 0 0 twoLeaves (by decide) (by decide)

/-- **Every proof checks, and all the MMRs give the same proof.**  After
appending the same hashes, the proof `get_Proof(i)` of an `Mmr` over any table
with room for them, interpreted from leaf `i`, is that `Mmr`'s `get_Hash`; and
the `Mmr`, a `FixedMmr(nTotal)` sized for them (with `nTotal ≤ 2 ^ 63`, where
`Resize` does not wrap), a `DistributedMmr` (whose elements have pairwise
different keys) and a `FlyMmr` give the same proof. -/
theorem mmr_proofs_agree [Inhabited α] [DecidableEq Key] (ht : TableLike st view ok cap) {s : σ} (hs : ok s)
    (nTotal : Nat) (env : Env α Key) (kLast : Key) (zero : α) (l : List (Appended α Key))
    (hkeys : (l.map Appended.key).Nodup) (hcap : l.length ≤ cap) (hfixed : l.length ≤ nTotal)
    (hn : nTotal ≤ 2 ^ 63) {i : Nat} (hi : i < l.length) :
    interpretProof hJ ((l.map Appended.hash).getD i zero)
        (getProof hJ st (mmrRun hJ st s (l.map Appended.hash)).1 i (mmrRun hJ st s (l.map Appended.hash)).2).1 =
      (getHash hJ st zero (mmrRun hJ st s (l.map Appended.hash)).1 (mmrRun hJ st s (l.map Appended.hash)).2).1 ∧
    (getProof hJ st (mmrRun hJ st s (l.map Appended.hash)).1 i (mmrRun hJ st s (l.map Appended.hash)).2).1 =
      FixedMmr.getProof hJ (fixedRun hJ nTotal zero (l.map Appended.hash)) i ∧
    FixedMmr.getProof hJ (fixedRun hJ nTotal zero (l.map Appended.hash)) i =
      DistributedMmr.getProof hJ (distributedRun hJ env kLast l).1 (distributedRun hJ env kLast l).2 i ∧
    DistributedMmr.getProof hJ (distributedRun hJ env kLast l).1 (distributedRun hJ env kLast l).2 i =
      FlyMmr.getProof hJ (fun j => (l.map Appended.hash).getD j zero) l.length i := by
  have hlen : (l.map Appended.hash).length = l.length := List.length_map _
  have hi' : i < (l.map Appended.hash).length := by omega
  -- every proof is the one read from the trees of the hashes
  have hmmr := mmrRun_getProof hJ ht hs zero (hlen.trans_le hcap) hi'
  have hfix := fixedRun_getProof hJ zero hn (hlen.trans_le hfixed) hi'
  have hdist := distributedRun_getProof hJ env kLast zero hkeys hi
  have hfly := flyMmr_getProof hJ zero (l.map Appended.hash) i
  rw [hlen] at hmmr hfix hfly
  refine ⟨?_, hmmr.trans hfix.symm, hfix.trans hdist.symm, hdist.trans hfly.symm⟩
  -- and that one interprets to the root
  have hroot : some (interpretProof hJ ((l.map Appended.hash).getD i zero)
      (getProof hJ (Store.ofFun fun h x => node hJ (fun j => (l.map Appended.hash).getD j zero) h x) l.length i ()).1) =
      root hJ (fun j => (l.map Appended.hash).getD j zero) l.length := by
    rw [← hlen]
    exact @interpretProof_getProof α hJ (fun j => (l.map Appended.hash).getD j zero) _ _ i hi'
  rw [hmmr, mmrRun_getHash hJ ht hs zero (hlen.trans_le hcap), hlen, ← hroot, Option.getD_some]

theorem mmr_proofs_agree_two_leaves :
    interpretProof Nat.add ((twoLeaves.map Appended.hash).getD 1 0)
        (getProof Nat.add tableStore (mmrRun Nat.add tableStore (fun _ _ => 0) (twoLeaves.map Appended.hash)).1 1
          (mmrRun Nat.add tableStore (fun _ _ => 0) (twoLeaves.map Appended.hash)).2).1 =
      (getHash Nat.add tableStore 0 (mmrRun Nat.add tableStore (fun _ _ => 0) (twoLeaves.map Appended.hash)).1
        (mmrRun Nat.add tableStore (fun _ _ => 0) (twoLeaves.map Appended.hash)).2).1 ∧
    (getProof Nat.add tableStore (mmrRun Nat.add tableStore (fun _ _ => 0) (twoLeaves.map Appended.hash)).1 1
        (mmrRun Nat.add tableStore (fun _ _ => 0) (twoLeaves.map Appended.hash)).2).1 =
      FixedMmr.getProof Nat.add (fixedRun Nat.add 2 0 (twoLeaves.map Appended.hash)) 1 ∧
    FixedMmr.getProof Nat.add (fixedRun Nat.add 2 0 (twoLeaves.map Appended.hash)) 1 =
      DistributedMmr.getProof Nat.add (distributedRun Nat.add nullEnv 0 twoLeaves).1
        (distributedRun Nat.add nullEnv 0 twoLeaves).2 1 ∧
    DistributedMmr.getProof Nat.add (distributedRun Nat.add nullEnv 0 twoLeaves).1
        (distributedRun Nat.add nullEnv 0 twoLeaves).2 1 =
      FlyMmr.getProof Nat.add (fun j => (twoLeaves.map Appended.hash).getD j 0) twoLeaves.length 1 :=
  mmr_proofs_agree Nat.add (tableLike_tableStore 2) trivial 2 nullEnv 0 0 twoLeaves (by decide) (by decide)
    (by decide) (by decide) (by decide)

/-- **`Replace` gives the root of the rebuilt leaves.**  After appending the
hashes `l` to an `Mmr` over any table with room for them, `Replace(i, hv)` of a
leaf `i < m_Count` leaves the `get_Hash` of an `Mmr` rebuilt from `l` with leaf
`i` set to `hv`, and of a `CompactMmr` rebuilt so. -/
theorem mmr_replace_root (ht : TableLike st view ok cap) {s : σ} (hs : ok s) (zero : α) {l : List α}
    (hcap : l.length ≤ cap) {i : Nat} (hi : i < l.length) (hv : α) :
    (getHash hJ st zero (mmrRun hJ st s l).1 (replace hJ st (mmrRun hJ st s l).1 i hv (mmrRun hJ st s l).2)).1 =
        (getHash hJ st zero (mmrRun hJ st s (l.set i hv)).1 (mmrRun hJ st s (l.set i hv)).2).1 ∧
      (getHash hJ st zero (mmrRun hJ st s l).1 (replace hJ st (mmrRun hJ st s l).1 i hv (mmrRun hJ st s l).2)).1 =
        CompactMmr.getHash hJ zero (compactRun hJ (l.set i hv)) := by
  have hlen : (l.set i hv).length = l.length := List.length_set ..
  obtain ⟨hcount, hok, hholds⟩ := mmrRun_holds hJ ht hs zero l hcap
  rw [hcount]
  -- the table after `Replace` holds the trees of the leaves with `hv` at `i`
  obtain ⟨hok', hholds'⟩ := replace_holds ht.pointsTo hcap hok hholds hi hv fun _ _ _ => trivial
  rw [← getD_set_eq_update hi] at hholds'
  have hroot := (getHash_spec (loadsNodes_tableLike ht _ hcap) zero ⟨hok', hholds'⟩).1
  refine ⟨hroot.trans ?_, hroot.trans ?_⟩
  · rw [mmrRun_getHash hJ ht hs zero (hlen ▸ hcap), hlen]
  · rw [compactRun_getHash, hlen]

theorem mmr_replace_root_middle_leaf :
    (getHash Nat.add tableStore 0 (mmrRun Nat.add tableStore (fun _ _ => 0) [5, 7, 9]).1
        (replace Nat.add tableStore (mmrRun Nat.add tableStore (fun _ _ => 0) [5, 7, 9]).1 1 4
          (mmrRun Nat.add tableStore (fun _ _ => 0) [5, 7, 9]).2)).1 =
        (getHash Nat.add tableStore 0 (mmrRun Nat.add tableStore (fun _ _ => 0) ([5, 7, 9].set 1 4)).1
          (mmrRun Nat.add tableStore (fun _ _ => 0) ([5, 7, 9].set 1 4)).2).1 ∧
      (getHash Nat.add tableStore 0 (mmrRun Nat.add tableStore (fun _ _ => 0) [5, 7, 9]).1
        (replace Nat.add tableStore (mmrRun Nat.add tableStore (fun _ _ => 0) [5, 7, 9]).1 1 4
          (mmrRun Nat.add tableStore (fun _ _ => 0) [5, 7, 9]).2)).1 =
        CompactMmr.getHash Nat.add 0 (compactRun Nat.add ([5, 7, 9].set 1 4)) :=
  mmr_replace_root Nat.add (tableLike_tableStore 3) trivial 0 (by decide) (by decide) 4

end Claims

end Beam.Merkle
