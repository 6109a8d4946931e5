import Mathlib.Data.List.Perm.Basic
import Mathlib.Data.List.Nodup

/-!
# The asset registry

`src/node/db.cpp`, `NodeDB::AssetAdd` / `AssetDelete`, and the asset kernel
handlers of `src/node/processor.cpp`.  Assets live in the table `TblAssets`
under 1-based IDs up to the parameter `AssetsCount`, whose last asset is live.
A free ID `id` below it is marked by an empty row at `id + s_AssetEmpty0`.
`AssetAdd` takes the smallest marker at or above a hint, or else appends a new
ID; `AssetDelete` leaves a marker, or, when it removes the last ID, shrinks
`AssetsCount` past every trailing free ID and drops their markers.

The node undoes `TxKernelAssetDestroy` by re-adding the asset with its old ID as
the hint and calls `OnCorrupted` unless it gets that ID back.  It does when the
ID was not the last (`assetDelete_assetAdd_of_ne_count`).  When it was the last
and the ID below it was already free, that free ID was dropped with the marker,
and the asset comes back under a lower ID (`assetAdd_after_trim_moves_id`), so
the backward handler never succeeds (`assetDestroy_rollback_fails`): undoing the
destruction of asset 3 after asset 2 was destroyed reaches `OnCorrupted`.
-/

namespace Beam.NodeDB

/-- `Asset::s_MaxCount`. -/
def sMaxCount : Nat := 1 <<< 30

/-- `NodeDB::s_AssetEmpty0`: the marker of a free ID `id` is the row `id + s_AssetEmpty0`. -/
def sAssetEmpty0 : Nat := sMaxCount

/-- `Asset::Full` apart from `m_ID`. -/
structure AssetInfo (Owner Meta : Type) where
  owner : Owner
  metadata : Meta
  value : Nat
  lockHeight : Nat
  deriving DecidableEq, Repr

/-- How a call ends when it does not return: `ThrowError` of a statement that
changed no row or broke the key of the table (`TestChanged1Row`), or
`OnCorrupted` of the node processor. -/
inductive Fail where
  | dbError
  | corrupted
  deriving DecidableEq, Repr

/-- The asset rows of `TblAssets` (an ID and the asset's columns, all `NULL` for
a free-ID marker) with the parameters `AssetsCount` and `AssetsCountUsed`. -/
structure Assets (Owner Meta : Type) where
  rows : List (Nat × Option (AssetInfo Owner Meta))
  assetsCount : Nat
  assetsCountUsed : Nat
  deriving DecidableEq, Repr

namespace Assets

variable {Owner Meta : Type}

/-- `AssetFindMinFree`: the smallest ID of a row at or above `nMin`, or `0`. -/
def assetFindMinFree (s : Assets Owner Meta) (nMin : Nat) : Nat :=
  (((s.rows.map Prod.fst).filter fun id => nMin ≤ id).min?).getD 0

/-- `AssetDeleteRaw`: the row must exist. -/
def assetDeleteRaw (s : Assets Owner Meta) (id : Nat) : Except Fail (Assets Owner Meta) :=
  if id ∈ s.rows.map Prod.fst then .ok { s with rows := s.rows.filter fun r => r.1 ≠ id }
  else .error .dbError

/-- `AssetInsertRaw`: the ID is the table's key. -/
def assetInsertRaw (s : Assets Owner Meta) (id : Nat) (ai : Option (AssetInfo Owner Meta)) :
    Except Fail (Assets Owner Meta) :=
  if id ∈ s.rows.map Prod.fst then .error .dbError
  else .ok { s with rows := s.rows ++ [(id, ai)] }

/-- `NodeDB::AssetAdd` with the hint `ai.m_ID`: the ID the asset gets, and the table. -/
def assetAdd (s : Assets Owner Meta) (hint : Nat) (ai : AssetInfo Owner Meta) :
    Except Fail (Nat × Assets Owner Meta) := do
  let m := s.assetFindMinFree (hint + sAssetEmpty0)
  if m ≠ 0 then
    let s ← s.assetDeleteRaw m
    let id := m - sAssetEmpty0
    let s ← s.assetInsertRaw id (some ai)
    pure (id, { s with assetsCountUsed := s.assetsCountUsed + 1 })
  else
    let id := s.assetsCount + 1
    let s ← ({ s with assetsCount := id } : Assets Owner Meta).assetInsertRaw id (some ai)
    pure (id, { s with assetsCountUsed := s.assetsCountUsed + 1 })

/-- The loop `while (--nCount)` of `AssetDelete`, entered with `nCount` already
decremented: it drops the marker of each trailing free ID and stops at the first
ID without one. -/
def trimFree (s : Assets Owner Meta) : Nat → Except Fail (Nat × Assets Owner Meta)
  | 0 => .ok (0, s)
  | n + 1 =>
    if s.assetFindMinFree (n + 1 + sAssetEmpty0) = 0 then .ok (n + 1, s)
    else
      match s.assetDeleteRaw (n + 1 + sAssetEmpty0) with
      | .ok s => trimFree s n
      | .error e => .error e

/-- `NodeDB::AssetDelete`: the new `AssetsCount`, and the table. -/
def assetDelete (s : Assets Owner Meta) (id : Nat) : Except Fail (Nat × Assets Owner Meta) := do
  let s ← s.assetDeleteRaw id
  let nCount := s.assetsCount
  let (nCount, s) ←
    if nCount = id then do
      let (nCount, s) ← s.trimFree (nCount - 1)
      pure (nCount, { s with assetsCount := nCount })
    else do
      let s ← s.assetInsertRaw (id + sAssetEmpty0) none
      pure (nCount, s)
  pure (nCount, { s with assetsCountUsed := s.assetsCountUsed - 1 })

end Assets

/-! ## The node processor's side -/

/-- The asset part of the node processor: the table, and the leaves of the
assets MMR `m_Mmr.m_Assets` (its `m_Count` is their number). -/
structure AssetState (Owner Meta H : Type) where
  db : Assets Owner Meta
  mmr : List H

section Processor

variable {Owner Meta H : Type} (zero : H) (assetHash : Nat → AssetInfo Owner Meta → H)

/-- `StreamMmr::ResizeTo` on the leaves; new leaves are filled with `Zero` and
are overwritten before they are read. -/
def resizeTo (n : Nat) (l : List H) : List H :=
  l.take n ++ List.replicate (n - l.length) zero

/-- `NodeProcessor::InternalAssetAdd`: the value is zeroed, the asset added with
its `m_ID` as the hint, and its hash put in the MMR at its ID. -/
def internalAssetAdd (st : AssetState Owner Meta H) (hint : Nat) (ai : AssetInfo Owner Meta) :
    Except Fail (Nat × AssetState Owner Meta H) := do
  let ai := { ai with value := 0 }
  let (id, db) ← st.db.assetAdd hint ai
  let mmr := if st.mmr.length < id then resizeTo zero id st.mmr else st.mmr
  pure (id, ⟨db, mmr.set (id - 1) (assetHash id ai)⟩)

/-- `NodeProcessor::InternalAssetDel`: the MMR shrinks with `AssetsCount`, or
the asset's leaf is zeroed. -/
def internalAssetDel (st : AssetState Owner Meta H) (id : Nat) : Except Fail (AssetState Owner Meta H) := do
  let (nCount, db) ← st.db.assetDelete id
  if nCount < st.mmr.length then pure ⟨db, resizeTo zero nCount st.mmr⟩
  else pure ⟨db, st.mmr.set (id - 1) zero⟩

/-- `HandleKernel(TxKernelAssetCreate)` forward, in a block already validated,
at height `h`: the new asset gets an automatic ID (hint `0`), which is written
to the undo data. -/
def assetCreateFwd (st : AssetState Owner Meta H) (owner : Owner) (metadata : Meta) (h : Nat) :
    Except Fail (Nat × AssetState Owner Meta H) :=
  internalAssetAdd zero assetHash st 0 ⟨owner, metadata, 0, h⟩

/-- `HandleKernel(TxKernelAssetCreate)` backward: the ID read from the undo data is deleted. -/
def assetCreateBwd (st : AssetState Owner Meta H) (id : Nat) : Except Fail (AssetState Owner Meta H) :=
  internalAssetDel zero st id

/-- `HandleKernel(TxKernelAssetDestroy)` forward, in a block already validated:
the asset must exist (`AssetGetSafe`); its metadata and lock height go to the
undo data. -/
def assetDestroyFwd (st : AssetState Owner Meta H) (id : Nat) :
    Option (Except Fail ((Meta × Nat) × AssetState Owner Meta H)) :=
  match (st.db.rows.find? fun r => r.1 = id).bind Prod.snd with
  | none => none
  | some ai => some ((internalAssetDel zero st id).map fun st' => ((ai.metadata, ai.lockHeight), st'))

/-- `HandleKernel(TxKernelAssetDestroy)` backward: the asset is re-added with
its old ID as the hint, from the owner of the kernel and the undo data, and the
node is corrupted unless it gets that ID back. -/
def assetDestroyBwd (st : AssetState Owner Meta H) (id : Nat) (owner : Owner) (undo : Meta × Nat) :
    Except Fail (AssetState Owner Meta H) := do
  let (id', st') ← internalAssetAdd zero assetHash st id ⟨owner, undo.1, 0, undo.2⟩
  if id' ≠ id then .error .corrupted else pure st'

end Processor

/-! ## Undoing a deletion -/

namespace Assets

variable {Owner Meta : Type}

theorem assetFindMinFree_eq_of_mem {s : Assets Owner Meta} {n : Nat} (h : n ∈ s.rows.map Prod.fst) :
    s.assetFindMinFree n = n := by
  have hmin : ((s.rows.map Prod.fst).filter fun id => n ≤ id).min? = some n :=
    List.min?_eq_some_iff.mpr ⟨by simpa using h, fun b hb => by simpa using (List.mem_filter.mp hb).2⟩
  simp [assetFindMinFree, hmin]

/-- Rows with distinct IDs: taking one row out and putting it back at the end
leaves the same rows. -/
theorem perm_filter_append_of_mem {α : Type} {l : List (Nat × α)} (hnodup : (l.map Prod.fst).Nodup)
    {k : Nat} {v : α} (hkv : (k, v) ∈ l) : (l.filter (fun r => r.1 ≠ k) ++ [(k, v)]).Perm l := by
  have hnd : l.Nodup := List.Nodup.of_map Prod.fst hnodup
  have hnd' : (l.filter (fun r => r.1 ≠ k) ++ [(k, v)]).Nodup := by
    refine List.nodup_append.mpr ⟨hnd.filter _, by simp, ?_⟩
    intro x hx y hy
    simp only [List.mem_singleton] at hy
    subst hy
    rintro rfl
    simp at hx
  refine (List.perm_ext_iff_of_nodup hnd' hnd).mpr fun x => ⟨fun hx => ?_, fun hx => ?_⟩
  · rcases List.mem_append.mp hx with hx | hx
    · exact (List.mem_filter.mp hx).1
    · rw [List.mem_singleton.mp hx]; exact hkv
  · by_cases h : x.1 = k
    · -- the only row with the ID `k` is `(k, v)`
      have := List.inj_on_of_nodup_map hnodup hx hkv h
      simp [this]
    · simp [hx, h]

/-- `AssetDelete` of an ID that is not the last leaves its marker. -/
theorem assetDelete_of_ne_count {s : Assets Owner Meta} {id : Nat} (hid : id ∈ s.rows.map Prod.fst)
    (hlast : s.assetsCount ≠ id) (hfree : id + sAssetEmpty0 ∉ s.rows.map Prod.fst) :
    s.assetDelete id = .ok (s.assetsCount,
      ⟨s.rows.filter (fun r => r.1 ≠ id) ++ [(id + sAssetEmpty0, none)], s.assetsCount, s.assetsCountUsed - 1⟩) := by
  have hfree' : id + sAssetEmpty0 ∉ (s.rows.filter fun r => r.1 ≠ id).map Prod.fst := fun h =>
    hfree (List.map_subset _ (List.filter_subset_self _) h)
  simp only [assetDelete, assetDeleteRaw, hid, ↓reduceIte, hlast, assetInsertRaw, hfree', bind,
    Except.bind, pure, Except.pure]

/-- `AssetAdd` with a hint whose marker is there takes that marker's ID. -/
theorem assetAdd_of_marker {s : Assets Owner Meta} {hint : Nat} (ai : AssetInfo Owner Meta)
    (hm : hint + sAssetEmpty0 ∈ s.rows.map Prod.fst)
    (hnot : hint ∉ (s.rows.filter fun r => r.1 ≠ hint + sAssetEmpty0).map Prod.fst) :
    s.assetAdd hint ai = .ok (hint,
      ⟨s.rows.filter (fun r => r.1 ≠ hint + sAssetEmpty0) ++ [(hint, some ai)], s.assetsCount,
        s.assetsCountUsed + 1⟩) := by
  have hne : hint + sAssetEmpty0 ≠ 0 := by unfold sAssetEmpty0 sMaxCount; omega
  simp only [assetAdd, assetFindMinFree_eq_of_mem hm, ne_eq, hne, not_false_eq_true, ↓reduceIte,
    assetDeleteRaw, hm, Nat.add_sub_cancel, assetInsertRaw, hnot, bind, Except.bind, pure, Except.pure]

/-- **A deleted asset that was not the last comes back under its ID**: the
marker `AssetDelete` leaves is the one `AssetAdd` finds from the hint, and the
rows, `AssetsCount` and `AssetsCountUsed` are as before, up to the order of the
rows. -/
theorem assetDelete_assetAdd_of_ne_count {s : Assets Owner Meta} {id : Nat} {ai : AssetInfo Owner Meta}
    (hnodup : (s.rows.map Prod.fst).Nodup) (hrow : (id, some ai) ∈ s.rows) (hlast : s.assetsCount ≠ id)
    (hfree : id + sAssetEmpty0 ∉ s.rows.map Prod.fst) (hused : 0 < s.assetsCountUsed) :
    ∃ s', ((s.assetDelete id).bind fun r => r.2.assetAdd id ai) = .ok (id, s') ∧
      s'.rows.Perm s.rows ∧ s'.assetsCount = s.assetsCount ∧ s'.assetsCountUsed = s.assetsCountUsed := by
  have hid : id ∈ s.rows.map Prod.fst := List.mem_map_of_mem hrow
  have hne : id ≠ id + sAssetEmpty0 := by unfold sAssetEmpty0 sMaxCount; omega
  set rest := s.rows.filter fun r => r.1 ≠ id
  have hfree' : id + sAssetEmpty0 ∉ rest.map Prod.fst := fun h =>
    hfree (List.map_subset _ (List.filter_subset_self _) h)
  -- once the marker is taken out again, the rows are those without `id`
  have hback : (rest ++ [(id + sAssetEmpty0, none)]).filter (fun r => r.1 ≠ id + sAssetEmpty0) = rest := by
    rw [List.filter_append, List.filter_eq_self.mpr]
    · simp
    · intro r hr
      have : r.1 ≠ id + sAssetEmpty0 := fun h => hfree' (h ▸ List.mem_map_of_mem hr)
      simpa using this
  have hnot : id ∉ rest.map Prod.fst := by simp [rest]
  rw [assetDelete_of_ne_count hid hlast hfree]
  refine ⟨⟨rest ++ [(id, some ai)], s.assetsCount, s.assetsCountUsed - 1 + 1⟩, ?_,
    perm_filter_append_of_mem hnodup hrow, rfl, by simp only; omega⟩
  show Assets.assetAdd ⟨rest ++ [(id + sAssetEmpty0, none)], s.assetsCount, s.assetsCountUsed - 1⟩ id ai = _
  rw [assetAdd_of_marker ai (by simp) (by rw [hback]; exact hnot), hback]

/-- Asset 1 of two, deleted and added back with its ID as the hint. -/
theorem assetDelete_assetAdd_first_of_two :
    let a : AssetInfo Unit Unit := ⟨(), (), 5, 0⟩
    let s : Assets Unit Unit := ⟨[(1, some a), (2, some a)], 2, 2⟩
    ∃ s', ((s.assetDelete 1).bind fun r => r.2.assetAdd 1 a) = .ok (1, s') ∧
      s'.rows.Perm s.rows ∧ s'.assetsCount = s.assetsCount ∧ s'.assetsCountUsed = s.assetsCountUsed :=
  assetDelete_assetAdd_of_ne_count (by decide) (by decide) (by decide) (by decide) (by decide)

/-! ## Deleting the last asset -/

private theorem except_bind_eq_ok {ε α β : Type} (x : Except ε α) (f : α → Except ε β) (b : β) :
    x.bind f = .ok b ↔ ∃ a, x = .ok a ∧ f a = .ok b := by
  cases x <;> simp [Except.bind]

private theorem except_map_eq_ok {ε α β : Type} (x : Except ε α) (f : α → β) (b : β) :
    x.map f = .ok b ↔ ∃ a, x = .ok a ∧ f a = b := by
  cases x <;> simp [Except.map]

theorem assetDeleteRaw_eq_ok {s : Assets Owner Meta} {id : Nat} (h : id ∈ s.rows.map Prod.fst) :
    s.assetDeleteRaw id = .ok { s with rows := s.rows.filter fun r => r.1 ≠ id } := by
  simp [assetDeleteRaw, h]

theorem assetFindMinFree_eq_zero {s : Assets Owner Meta} {n : Nat} (h : ∀ r ∈ s.rows, r.1 < n) :
    s.assetFindMinFree n = 0 := by
  have hnil : ((s.rows.map Prod.fst).filter fun id => n ≤ id) = [] :=
    List.filter_eq_nil_iff.mpr fun id hid => by
      obtain ⟨r, hr, rfl⟩ := List.mem_map.mp hid
      simpa using h r hr
  simp [assetFindMinFree, hnil]

/-- `trimFree` stops at or below where it starts, keeps some of the rows and
touches neither parameter. -/
theorem trimFree_spec : ∀ (n : Nat) {s s' : Assets Owner Meta} {c : Nat}, s.trimFree n = .ok (c, s') →
    c ≤ n ∧ (∀ r ∈ s'.rows, r ∈ s.rows) ∧ s'.assetsCount = s.assetsCount ∧
      s'.assetsCountUsed = s.assetsCountUsed
  | 0, s, s', c, h => by
    simp only [trimFree, Except.ok.injEq, Prod.mk.injEq] at h
    obtain ⟨rfl, rfl⟩ := h
    exact ⟨Nat.le_refl _, fun _ hr => hr, rfl, rfl⟩
  | n + 1, s, s', c, h => by
    unfold trimFree at h
    split at h
    · simp only [Except.ok.injEq, Prod.mk.injEq] at h
      obtain ⟨rfl, rfl⟩ := h
      exact ⟨Nat.le_refl _, fun _ hr => hr, rfl, rfl⟩
    · -- one marker dropped, then the loop goes on one ID lower
      split at h
      · rename_i s1 hdel
        obtain ⟨hc, hsub, hcount, hused⟩ := trimFree_spec n h
        unfold assetDeleteRaw at hdel
        split at hdel
        · simp only [Except.ok.injEq] at hdel
          subst hdel
          exact ⟨by omega, fun r hr => (List.mem_filter.mp (hsub r hr)).1, hcount, hused⟩
        · cases hdel
      · cases h

/-- Once the marker of the ID just below is found, `trimFree` goes past it. -/
theorem trimFree_lt {n c : Nat} {s s' : Assets Owner Meta} (h : s.trimFree (n + 1) = .ok (c, s'))
    (hm : s.assetFindMinFree (n + 1 + sAssetEmpty0) ≠ 0) : c ≤ n := by
  unfold trimFree at h
  rw [if_neg hm] at h
  split at h
  · exact (trimFree_spec n h).1
  · cases h

/-- `AssetDelete` of the last ID: `trimFree` from the ID below, and `AssetsCount`
set to where it stops. -/
theorem assetDelete_of_eq_count {s : Assets Owner Meta} {id : Nat} (hid : id ∈ s.rows.map Prod.fst)
    (hlast : s.assetsCount = id) :
    s.assetDelete id = (({ s with rows := s.rows.filter fun r => r.1 ≠ id } : Assets Owner Meta).trimFree
      (id - 1)).map fun r => (r.1, { r.2 with assetsCount := r.1, assetsCountUsed := r.2.assetsCountUsed - 1 }) := by
  simp only [assetDelete, assetDeleteRaw_eq_ok hid, hlast, ↓reduceIte, bind, Except.bind, pure, Except.pure]
  cases (({ s with rows := s.rows.filter fun r => r.1 ≠ id } : Assets Owner Meta).trimFree (id - 1)) <;> rfl

/-- **Deleting the last asset drops the free ID below it.**  When the ID below
the last one is already free, `AssetDelete` of the last one removes that ID's
marker too, and `AssetAdd` with the deleted ID as the hint, with no marker at or
above it, appends a new ID below the deleted one. -/
theorem assetAdd_after_trim_moves_id {s s' : Assets Owner Meta} {id id' : Nat} {ai : AssetInfo Owner Meta}
    (hid : id ∈ s.rows.map Prod.fst) (hlast : s.assetsCount = id) (h2 : 2 ≤ id)
    (hprev : id - 1 + sAssetEmpty0 ∈ s.rows.map Prod.fst) (hmax : ∀ r ∈ s.rows, r.1 < id + sAssetEmpty0)
    (h : ((s.assetDelete id).bind fun r => r.2.assetAdd id ai) = .ok (id', s')) : id' < id := by
  obtain ⟨⟨c, sd⟩, hdel, hadd⟩ := (except_bind_eq_ok _ _ _).mp h
  rw [assetDelete_of_eq_count hid hlast, except_map_eq_ok] at hdel
  obtain ⟨⟨c', st⟩, htrim, hr⟩ := hdel
  simp only [Prod.mk.injEq] at hr
  obtain ⟨rfl, rfl⟩ := hr
  -- the marker of `id - 1` is still there after `id` itself is deleted
  have hne : id - 1 + sAssetEmpty0 ≠ id := by unfold sAssetEmpty0 sMaxCount; omega
  have hm : ({ s with rows := s.rows.filter fun r => r.1 ≠ id } : Assets Owner Meta).assetFindMinFree
      (id - 2 + 1 + sAssetEmpty0) ≠ 0 := by
    have hprev' : id - 1 + sAssetEmpty0 ∈ (s.rows.filter fun r => r.1 ≠ id).map Prod.fst := by
      obtain ⟨r, hr, hr1⟩ := List.mem_map.mp hprev
      exact List.mem_map.mpr ⟨r, List.mem_filter.mpr ⟨hr, by simp [hr1, hne]⟩, hr1⟩
    have heq : id - 2 + 1 = id - 1 := by omega
    rw [heq, assetFindMinFree_eq_of_mem hprev']
    unfold sAssetEmpty0 sMaxCount
    omega
  have heq : id - 1 = id - 2 + 1 := by omega
  rw [heq] at htrim
  have hc := trimFree_lt htrim hm
  obtain ⟨-, hsub, -, -⟩ := trimFree_spec _ htrim
  -- no marker at or above the hint: `AssetAdd` appends `c + 1`
  have hfree : ({ st with assetsCount := c', assetsCountUsed := st.assetsCountUsed - 1 } : Assets Owner Meta).assetFindMinFree
      (id + sAssetEmpty0) = 0 :=
    assetFindMinFree_eq_zero fun r hr => hmax r (List.mem_filter.mp (hsub r hr)).1
  simp only [assetAdd, hfree, ne_eq, not_true_eq_false, ↓reduceIte, bind, Except.bind] at hadd
  unfold assetInsertRaw at hadd
  split at hadd
  · cases hadd
  · simp only [pure, Except.pure, Except.ok.injEq, Prod.mk.injEq] at hadd
    omega

end Assets

/-! ## Undoing the destruction of the last asset -/

section Processor

variable {Owner Meta H : Type} {zero : H} {assetHash : Nat → AssetInfo Owner Meta → H}

theorem internalAssetAdd_db {st st' : AssetState Owner Meta H} {hint id : Nat} {ai : AssetInfo Owner Meta}
    (h : internalAssetAdd zero assetHash st hint ai = .ok (id, st')) :
    st.db.assetAdd hint { ai with value := 0 } = .ok (id, st'.db) := by
  unfold internalAssetAdd at h
  cases hadd : st.db.assetAdd hint { ai with value := 0 } with
  | error e => simp [hadd, bind, Except.bind] at h
  | ok r =>
    simp only [hadd, bind, Except.bind, pure, Except.pure, Except.ok.injEq, Prod.mk.injEq] at h
    obtain ⟨rfl, rfl⟩ := h
    rfl

theorem internalAssetDel_db {st st' : AssetState Owner Meta H} {id : Nat}
    (h : internalAssetDel zero st id = .ok st') : ∃ n, st.db.assetDelete id = .ok (n, st'.db) := by
  unfold internalAssetDel at h
  cases hdel : st.db.assetDelete id with
  | error e => simp [hdel, bind, Except.bind] at h
  | ok r =>
    refine ⟨r.1, ?_⟩
    simp only [hdel, bind, Except.bind] at h
    split at h <;>
    · simp only [pure, Except.pure, Except.ok.injEq] at h
      rw [← h]

/-- **Undoing the destruction of the last asset fails** when the ID below it is
free: the forward `TxKernelAssetDestroy` handler drops that free ID with the
asset, so the backward handler gets a lower ID back and reaches `OnCorrupted`,
if the table does not refuse the row first. -/
theorem assetDestroy_rollback_fails (st : AssetState Owner Meta H) {st' : AssetState Owner Meta H} {id : Nat}
    {undo : Meta × Nat} (owner : Owner) (hlast : st.db.assetsCount = id) (h2 : 2 ≤ id)
    (hprev : id - 1 + sAssetEmpty0 ∈ st.db.rows.map Prod.fst) (hmax : ∀ r ∈ st.db.rows, r.1 < id + sAssetEmpty0)
    (hfwd : assetDestroyFwd zero st id = some (.ok (undo, st'))) :
    ∀ st'', assetDestroyBwd zero assetHash st' id owner undo ≠ .ok st'' := by
  intro st'' hbwd
  unfold assetDestroyFwd at hfwd
  split at hfwd
  · cases hfwd
  · rename_i ai hfind
    obtain ⟨r, hr, hr2⟩ := Option.bind_eq_some_iff.mp hfind
    have hid : id ∈ st.db.rows.map Prod.fst := by
      have := List.find?_some hr
      exact List.mem_map.mpr ⟨r, List.mem_of_find?_eq_some hr, by simpa using this⟩
    cases hdel : internalAssetDel zero st id with
    | error e => simp [hdel, Except.map] at hfwd
    | ok st1 =>
      simp only [hdel, Except.map, Option.some.injEq, Except.ok.injEq, Prod.mk.injEq] at hfwd
      obtain ⟨rfl, rfl⟩ := hfwd
      obtain ⟨n, hdb⟩ := internalAssetDel_db hdel
      unfold assetDestroyBwd at hbwd
      cases hadd : internalAssetAdd zero assetHash st1 id ⟨owner, ai.metadata, 0, ai.lockHeight⟩ with
      | error e => simp [hadd, bind, Except.bind] at hbwd
      | ok p =>
        obtain ⟨id', st2⟩ := p
        have hsame : id' = id := by
          by_contra hne
          simp [hadd, bind, Except.bind, hne] at hbwd
        have hcomp : ((st.db.assetDelete id).bind fun r => r.2.assetAdd id
            { (⟨owner, ai.metadata, 0, ai.lockHeight⟩ : AssetInfo Owner Meta) with value := 0 }) = .ok (id', st2.db) := by
          rw [hdb]
          exact internalAssetAdd_db hadd
        have := Assets.assetAdd_after_trim_moves_id hid hlast h2 hprev hmax hcomp
        omega

/-- Three assets created, asset 2 destroyed, then asset 3: undoing the last
destruction gets the ID 2 back and reaches `OnCorrupted`. -/
theorem assetDestroy_rollback_fails_three :
    (((assetCreateFwd 0 (fun id (_ : AssetInfo Nat Nat) => id) ⟨⟨[], 0, 0⟩, []⟩ 1 1 0).bind fun r =>
        (assetCreateFwd 0 (fun id _ => id) r.2 2 2 0).bind fun r =>
          (assetCreateFwd 0 (fun id _ => id) r.2 3 3 0).bind fun r => internalAssetDel 0 r.2 2) =
      .ok ⟨⟨[(1, some ⟨1, 1, 0, 0⟩), (3, some ⟨3, 3, 0, 0⟩), (2 + sAssetEmpty0, none)], 3, 2⟩, [1, 0, 3]⟩) ∧
    assetDestroyFwd 0 ⟨⟨[(1, some ⟨1, 1, 0, 0⟩), (3, some ⟨3, 3, 0, 0⟩), (2 + sAssetEmpty0, none)], 3, 2⟩,
        [1, 0, 3]⟩ 3 = some (.ok ((3, 0), ⟨⟨[(1, some ⟨1, 1, 0, 0⟩)], 1, 1⟩, [1]⟩)) ∧
    assetDestroyBwd 0 (fun id _ => id) ⟨⟨[(1, some ⟨1, 1, 0, 0⟩)], 1, 1⟩, [1]⟩ 3 3 (3, 0) = .error .corrupted ∧
    ∀ st'', assetDestroyBwd 0 (fun id _ => id) ⟨⟨[(1, some ⟨1, 1, 0, 0⟩)], 1, 1⟩, [1]⟩ 3 3 (3, 0) ≠ .ok st'' :=
  ⟨rfl, rfl, rfl, assetDestroy_rollback_fails ⟨⟨[(1, some ⟨1, 1, 0, 0⟩), (3, some ⟨3, 3, 0, 0⟩),
    (2 + sAssetEmpty0, none)], 3, 2⟩, [1, 0, 3]⟩ 3 rfl (by decide) (by decide) (by decide) (by rfl)⟩

end Processor

end Beam.NodeDB
