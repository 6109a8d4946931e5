import Beam.Merkle.Agreement
import Beam.Core.Emission

/-!
# `NodeDB::StreamMmr`: an `Mmr` in a database stream, behind a cache

`src/node/db.cpp`.  The MMRs of the node keep their hashes in a database
stream, at `Pos2Idx` of each position, in rows of `s_StreamBlob` bytes.
`LoadElement` looks in a cache first: one entry per height (`m_pCache`), and
the entry last pushed out of it (`m_LastOut`); a miss reads the stream and adds
the hash.  `SaveElement` writes the stream and adds the hash.  `ResizeTo`
resizes the stream and never touches the cache.  `StatesMmr` stores no leaves:
a leaf is the hash of the active state at its height, and saving it only adds
it to the cache.

A position reads a hash (`Reads`) when what is behind the cache holds it and
the cache serves no other one for it.  Every load and save keeps what the
positions read (`pointsTo_store`), so while the MMR only grows by `Append`,
every position stored reads its tree (`reachable_inv`): the cache never serves
a stale hash, and the root through it is the root of the leaves.

Growing the stream by `ResizeTo` alone breaks this.  After a shrink, the new
positions of a regrown stream read zero blobs while the cache may still hold
their old hashes (`resizeTo_regrow_stale`).
-/

namespace Beam.NodeDB

open Merkle MountainRange

variable {α : Type}

/-- `static_cast<uint64_t>(-1)`: the `m_X` of a cache entry that holds nothing. -/
def noX : Nat := 2 ^ 64 - 1

/-- `_countof(m_pCache)`. -/
def cacheSize : Nat := 64

/-- `Merkle::Position::HMax`, `sizeof(X) * 8`. -/
def hMax : Nat := 64

/-- `NodeDB::s_StreamBlob`. -/
def sStreamBlob : Nat := 1024 * 1024

/-- `sizeof(Merkle::Hash)`. -/
def hashSize : Nat := 32

/-- `NodeDB::StreamResize(eType, n, n0)` of a stream of hashes, `n` and `n0` in
bytes.  The rows from `n0` up to `n` are inserted as zero blobs, whose hashes
read `zero`; the rows from `n` up to `n0` are deleted, and a hash of theirs is
read again only once its row is inserted again. -/
def streamResize (zero : α) (n n0 : Nat) (stream : Nat → α) : Nat → α :=
  let nBlobs0 := (n0 + sStreamBlob - 1) / sStreamBlob
  let nBlobs1 := (n + sStreamBlob - 1) / sStreamBlob
  fun i => if nBlobs0 ≤ i * hashSize / sStreamBlob ∧ i * hashSize / sStreamBlob < nBlobs1 then zero else stream i

/-! ## The cache -/

/-- `StreamMmr::CacheEntry`. -/
structure CacheEntry (α : Type) where
  value : α
  x : Nat

/-- `m_LastOut`: the hash and the position of the entry last pushed out. -/
structure LastOut (α : Type) where
  value : α
  h : Nat
  x : Nat

/-- `m_pCache`, one entry per height below `cacheSize`, and `m_LastOut`. -/
structure Cache (α : Type) where
  pCache : Nat → CacheEntry α
  lastOut : LastOut α

/-- The cache as `StreamMmr::StreamMmr` leaves it: no entry holds a position,
and `m_LastOut` is at `HMax`; their hashes are not set (`v`). -/
def Cache.new (v : α) : Cache α :=
  ⟨fun _ => ⟨v, noX⟩, ⟨v, hMax, noX⟩⟩

/-- `StreamMmr::CacheFind`: the entry of the height first, then `m_LastOut`. -/
def cacheFind (c : Cache α) (h x : Nat) : Option α :=
  if h < cacheSize ∧ (c.pCache h).x = x then some (c.pCache h).value
  else if c.lastOut.h = h ∧ c.lastOut.x = x then some c.lastOut.value
  else none

/-- `StreamMmr::CacheAdd`: the entry of the height takes the hash, and what it
held for another position goes to `m_LastOut`. -/
def cacheAdd (c : Cache α) (hv : α) (h x : Nat) : Cache α :=
  if h < cacheSize then
    let ce := c.pCache h
    { pCache := Function.update c.pCache h ⟨hv, x⟩
      lastOut := if ce.x ≠ x ∧ ce.x ≠ noX then ⟨ce.value, h, ce.x⟩ else c.lastOut }
  else c

theorem cacheAdd_of_not_lt {c : Cache α} {hv : α} {h : Nat} (x : Nat) (hh : ¬h < cacheSize) :
    cacheAdd c hv h x = c := by
  simp [cacheAdd, hh]

theorem pCache_cacheAdd {c : Cache α} {hv : α} {h : Nat} (x : Nat) (hh : h < cacheSize) :
    (cacheAdd c hv h x).pCache = Function.update c.pCache h ⟨hv, x⟩ := by
  simp [cacheAdd, hh]

theorem lastOut_cacheAdd {c : Cache α} {hv : α} {h : Nat} (x : Nat) (hh : h < cacheSize) :
    (cacheAdd c hv h x).lastOut =
      if (c.pCache h).x ≠ x ∧ (c.pCache h).x ≠ noX then ⟨(c.pCache h).value, h, (c.pCache h).x⟩ else c.lastOut := by
  simp [cacheAdd, hh]

theorem cacheFind_eq_some_iff {c : Cache α} {h x : Nat} {w : α} :
    cacheFind c h x = some w ↔ (h < cacheSize ∧ (c.pCache h).x = x ∧ (c.pCache h).value = w) ∨
      (¬(h < cacheSize ∧ (c.pCache h).x = x) ∧ c.lastOut.h = h ∧ c.lastOut.x = x ∧ c.lastOut.value = w) := by
  unfold cacheFind
  split_ifs <;> simp_all

/-- The position just added is found with its hash. -/
theorem cacheFind_cacheAdd_self (c : Cache α) (hv : α) {h : Nat} (x : Nat) (hh : h < cacheSize) :
    cacheFind (cacheAdd c hv h x) h x = some hv := by
  rw [cacheFind_eq_some_iff, pCache_cacheAdd x hh]
  simp [hh]

/-- **An add serves nothing new for another position.**  What the cache finds
for `(h', y)` after adding `(h, x)` it found before: the entry pushed out to
`m_LastOut` was the one found at its height.  A position whose `X` is `noX`
is left out: an empty entry matches it. -/
theorem cacheFind_cacheAdd_of_ne {c : Cache α} {hv w : α} {h x h' y : Nat} (hy : y ≠ noX)
    (hne : ¬(h' = h ∧ y = x)) (hw : cacheFind (cacheAdd c hv h x) h' y = some w) : cacheFind c h' y = some w := by
  by_cases hh : h < cacheSize
  · rw [cacheFind_eq_some_iff, pCache_cacheAdd x hh, lastOut_cacheAdd x hh] at hw
    rw [cacheFind_eq_some_iff]
    by_cases hh' : h' = h
    · -- the entry of the height now holds `x`, so `y` is found in `m_LastOut`
      subst hh'
      have hyx : y ≠ x := fun e => hne ⟨rfl, e⟩
      simp only [Function.update_self] at hw
      rcases hw with ⟨-, hxy, -⟩ | ⟨-, hlast⟩
      · exact absurd hxy.symm hyx
      split_ifs at hlast with hout
      · -- the entry pushed out was `y`'s
        obtain ⟨-, hxy, hvw⟩ := hlast
        exact Or.inl ⟨hh, hxy, hvw⟩
      · -- nothing was pushed out: the entry was `x`'s or empty
        refine Or.inr ⟨fun ⟨_, hce⟩ => hout ⟨hce ▸ hyx, hce ▸ hy⟩, hlast⟩
    · simp only [Function.update_of_ne hh'] at hw
      rcases hw with hmain | ⟨hnot, hlast⟩
      · exact Or.inl hmain
      split_ifs at hlast with hout
      · exact absurd hlast.1.symm hh'
      · exact Or.inr ⟨hnot, hlast⟩
  · rwa [cacheAdd_of_not_lt x hh] at hw

/-- The new cache serves nothing for a position whose `X` is not `noX`. -/
theorem cacheFind_new (v : α) (h : Nat) {x : Nat} (hx : x ≠ noX) : cacheFind (Cache.new v) h x = none := by
  simp [cacheFind, Cache.new, hx.symm]

/-- The cache serves nothing but `v` for `(h, x)`. -/
def Serves (c : Cache α) (h x : Nat) (v : α) : Prop :=
  ∀ w, cacheFind c h x = some w → w = v

theorem serves_cacheAdd_self (c : Cache α) (v : α) {h : Nat} (x : Nat) (hh : h < cacheSize) :
    Serves (cacheAdd c v h x) h x v := by
  intro w hw
  rw [cacheFind_cacheAdd_self c v x hh] at hw
  exact (Option.some.inj hw).symm

theorem serves_cacheAdd_of_ne {c : Cache α} {h' y : Nat} {w : α} (hw : Serves c h' y w) (v : α) {h x : Nat}
    (hy : y ≠ noX) (hne : ¬(h' = h ∧ y = x)) : Serves (cacheAdd c v h x) h' y w :=
  fun u hu => hw u (cacheFind_cacheAdd_of_ne hy hne hu)

theorem serves_new (v : α) (h : Nat) {x : Nat} (hx : x ≠ noX) (w : α) : Serves (Cache.new v) h x w := by
  intro u hu
  rw [cacheFind_new v h hx] at hu
  cases hu

/-- The positions of at most `2 ^ 63` leaves have a cache entry at their
height and an `X` that is not `noX`. -/
theorem cacheable {h x cap : Nat} (hx : (x + 1) * 2 ^ h ≤ cap) (hcap : cap ≤ 2 ^ 63) :
    h < cacheSize ∧ x ≠ noX := by
  have h2 : 2 ^ h < 2 ^ 64 := by
    have : 2 ^ h ≤ (x + 1) * 2 ^ h := Nat.le_mul_of_pos_left _ (Nat.succ_pos x)
    omega
  have hx1 : x + 1 < 2 ^ 64 := by
    have : x + 1 ≤ (x + 1) * 2 ^ h := Nat.le_mul_of_pos_right _ (Nat.two_pow_pos h)
    omega
  exact ⟨(Nat.pow_lt_pow_iff_right (by norm_num)).mp h2, by unfold noX; omega⟩

/-! ## The MMR -/

/-- `NodeDB::StreamMmr`: `m_Count`, the hashes of its stream, and the cache. -/
structure StreamMmr (α : Type) where
  count : Nat
  stream : Nat → α
  cache : Cache α

namespace StreamMmr

/-- `CacheFind`, or else the hash `hv` read behind the cache, which `CacheAdd`
then keeps: `StreamMmr::LoadElement`, and `StatesMmr::LoadElement` of a leaf. -/
def loadCached (s : StreamMmr α) (h x : Nat) (hv : α) : α × StreamMmr α :=
  match cacheFind s.cache h x with
  | some hv => (hv, s)
  | none => (hv, { s with cache := cacheAdd s.cache hv h x })

/-- `StreamMmr::LoadElement`: the cache, or else the stream at `Pos2Idx`. -/
def loadElement (bStoreH0 : Bool) (s : StreamMmr α) (h x : Nat) : α × StreamMmr α :=
  loadCached s h x (s.stream (FlatMmr.pos2Idx h x bStoreH0))

/-- `StreamMmr::SaveElement`: the stream at `Pos2Idx`, and the cache. -/
def saveElement (bStoreH0 : Bool) (s : StreamMmr α) (h x : Nat) (hv : α) : StreamMmr α :=
  { s with
    stream := Function.update s.stream (FlatMmr.pos2Idx h x bStoreH0) hv
    cache := cacheAdd s.cache hv h x }

/-- The `Mmr` whose `LoadElement` and `SaveElement` these are. -/
def store (bStoreH0 : Bool) : Store (StreamMmr α) α :=
  ⟨fun h x s => loadElement bStoreH0 s h x, fun h x hv s => saveElement bStoreH0 s h x hv⟩

/-- `StreamMmr::ResizeTo`: the stream to the bytes of the hashes of `nCount`
leaves; the cache stays as it is. -/
def resizeTo (zero : α) (bStoreH0 : Bool) (s : StreamMmr α) (nCount : Nat) : StreamMmr α :=
  { s with
    stream := streamResize zero (FlatMmr.getTotalHashes nCount bStoreH0 * hashSize)
      (FlatMmr.getTotalHashes s.count bStoreH0 * hashSize) s.stream
    count := nCount }

/-- `StreamMmr::ShrinkTo`, which asserts `m_Count >= nCount`. -/
def shrinkTo (zero : α) (bStoreH0 : Bool) (s : StreamMmr α) (nCount : Nat) : StreamMmr α :=
  resizeTo zero bStoreH0 s nCount

/-- `StreamMmr::Append`: `ResizeTo(n + 1)`, then `Mmr::Replace(n, hv)` through
the `LoadElement` and `SaveElement` of the object, `st`. -/
def append (hJ : α → α → α) (zero : α) (bStoreH0 : Bool) (st : Store (StreamMmr α) α) (s : StreamMmr α)
    (hv : α) : StreamMmr α :=
  let n := s.count
  replace hJ st (n + 1) n hv (resizeTo zero bStoreH0 s (n + 1))

/-- The same stream with no cache: `StreamIO` at `Pos2Idx` for each load and save. -/
def streamStore (bStoreH0 : Bool) : Store (Nat → α) α :=
  ⟨fun h x t => (t (FlatMmr.pos2Idx h x bStoreH0), t), fun h x hv t => Function.update t (FlatMmr.pos2Idx h x bStoreH0) hv⟩

@[simp] theorem count_resizeTo (zero : α) (bStoreH0 : Bool) (s : StreamMmr α) (nCount : Nat) :
    (resizeTo zero bStoreH0 s nCount).count = nCount := rfl

@[simp] theorem count_shrinkTo (zero : α) (bStoreH0 : Bool) (s : StreamMmr α) (nCount : Nat) :
    (shrinkTo zero bStoreH0 s nCount).count = nCount := rfl

@[simp] theorem count_loadCached (s : StreamMmr α) (h x : Nat) (hv : α) : (loadCached s h x hv).2.count = s.count := by
  unfold loadCached
  split <;> rfl

@[simp] theorem stream_loadCached (s : StreamMmr α) (h x : Nat) (hv : α) :
    (loadCached s h x hv).2.stream = s.stream := by
  unfold loadCached
  split <;> rfl

theorem loadCached_fst {s : StreamMmr α} {h x : Nat} {hv v : α} (hs : Serves s.cache h x v) (hr : hv = v) :
    (loadCached s h x hv).1 = v := by
  unfold loadCached
  split
  · next w hfind => exact hs w hfind
  · exact hr

/-- **A load keeps what the cache serves.**  A miss adds the hash read behind
the cache, which is what the position reads; nothing else is served anew. -/
theorem serves_loadCached {s : StreamMmr α} {h x h' y : Nat} {hv w : α} (hh : h < cacheSize) (hy : y ≠ noX)
    (hw : Serves s.cache h' y w) (hself : h' = h ∧ y = x → w = hv) : Serves (loadCached s h x hv).2.cache h' y w := by
  unfold loadCached
  split
  · exact hw
  · by_cases hxy : h' = h ∧ y = x
    · obtain ⟨rfl, rfl⟩ := hxy
      rw [hself ⟨rfl, rfl⟩]
      exact serves_cacheAdd_self _ _ _ hh
    · exact serves_cacheAdd_of_ne hw _ hy hxy

/-- A resize leaves every hash below the old size as it was. -/
theorem streamResize_of_lt (zero : α) {n n0 i : Nat} (stream : Nat → α) (hi : i * hashSize < n0) :
    streamResize zero n n0 stream i = stream i := by
  unfold streamResize
  rw [if_neg]
  unfold sStreamBlob at *
  omega

theorem stream_resizeTo_of_lt (zero : α) (bStoreH0 : Bool) (s : StreamMmr α) (nCount : Nat) {i : Nat}
    (hi : i < FlatMmr.getTotalHashes s.count bStoreH0) : (resizeTo zero bStoreH0 s nCount).stream i = s.stream i :=
  streamResize_of_lt zero s.stream (Nat.mul_lt_mul_of_pos_right hi (by decide))

/-! ## What a position of the stream reads -/

/-- Position `(h, x)` reads `v`: the stream holds `v` there, and the cache
serves nothing else for it. -/
def Reads (s : StreamMmr α) (h x : Nat) (v : α) : Prop :=
  s.stream (FlatMmr.pos2Idx h x true) = v ∧ Serves s.cache h x v

/-- **The cached stream is a store of positions that read back a hash**, for
at most `2 ^ 63` leaves, where `Pos2Idx` does not wrap; its loads and saves keep
`m_Count`. -/
theorem pointsTo_store (c : Nat) {cap : Nat} (hcap : cap ≤ 2 ^ 63) :
    PointsTo (store true) (fun s : StreamMmr α => s.count = c) (fun _ _ _ => True) Reads cap where
  load _ _ _ _ _ _ hr := loadCached_fst hr.2 hr.1
  load_ok s h x _ hs _ _ := (count_loadCached _ h x _).trans hs
  load_frame s h x _ _ hx _ h' y w hy hw := by
    show Reads (loadCached s h x (s.stream (FlatMmr.pos2Idx h x true))).2 h' y w
    refine ⟨by rw [stream_loadCached]; exact hw.1,
      serves_loadCached (cacheable hx hcap).1 (cacheable hy hcap).2 hw.2 ?_⟩
    rintro ⟨rfl, rfl⟩
    exact hw.1.symm
  save_ok _ _ _ _ hs _ := hs
  save_pt s _ x v _ hx _ := ⟨Function.update_self .., serves_cacheAdd_self _ _ _ (cacheable hx hcap).1⟩
  save_frame s h x v _ hx h' y _ hy hne hw := by
    have hidx : FlatMmr.pos2Idx h' y true ≠ FlatMmr.pos2Idx h x true := fun heq => hne (pos2Idx_inj hcap hy hx heq)
    refine ⟨?_, serves_cacheAdd_of_ne hw.2 _ (cacheable hy hcap).2 hne⟩
    simp only [store, saveElement, Function.update_of_ne hidx]
    exact hw.1

/-- `ResizeTo` keeps what every position stored before reads. -/
theorem reads_resizeTo (zero : α) {s : StreamMmr α} (nCount : Nat) (hcount : s.count ≤ 2 ^ 63) {h x : Nat} {v : α}
    (hx : (x + 1) * 2 ^ h ≤ s.count) (hr : Reads s h x v) : Reads (resizeTo zero true s nCount) h x v :=
  ⟨(stream_resizeTo_of_lt zero true s nCount (pos2Idx_lt_getTotalHashes hcount hx)).trans hr.1, hr.2⟩

/-- The uncached stream is a table: a load reads `Pos2Idx` of the position. -/
theorem tableLike_streamStore {cap : Nat} (hcap : cap ≤ 2 ^ 63) :
    TableLike (streamStore (α := α) true) (fun t h x => t (FlatMmr.pos2Idx h x true)) (fun _ => True) cap where
  load _ _ _ _ _ := rfl
  save_ok _ _ _ _ _ _ := trivial
  save_view t h x v _ hx h' y hy := by
    by_cases hxy : h' = h ∧ y = x
    · obtain ⟨rfl, rfl⟩ := hxy
      simp [streamStore]
    · have hidx : FlatMmr.pos2Idx h' y true ≠ FlatMmr.pos2Idx h x true := fun heq => hxy (pos2Idx_inj hcap hy hx heq)
      simp [streamStore, Function.update_of_ne hidx, hxy]

end StreamMmr

/-! ## `NodeDB::StatesMmr` -/

namespace StatesMmr

/-- What position `(h, x)` of the states MMR holds behind the cache: a leaf is
the hash of the active state at its height (`LoadStateHash`), a tree above the
leaves is in the stream, which stores no leaves. -/
def stateRead (stateHash : Nat → α) (stream : Nat → α) (h x : Nat) : α :=
  if h = 0 then stateHash (x + Emission.heightGenesis) else stream (FlatMmr.pos2Idx h x false)

/-- `StatesMmr::LoadElement`: a tree above the leaves as `StreamMmr` loads it; a
leaf from the cache, or else `LoadStateHash(hv, X + Rules::HeightGenesis)`,
which is `get_StateHash` of `FindActiveStateStrict` (`stateHash`). -/
def loadElement (stateHash : Nat → α) (s : StreamMmr α) (h x : Nat) : α × StreamMmr α :=
  if h ≠ 0 then StreamMmr.loadElement false s h x
  else StreamMmr.loadCached s h x (stateHash (x + Emission.heightGenesis))

/-- `StatesMmr::SaveElement`: a leaf only goes to the cache. -/
def saveElement (s : StreamMmr α) (h x : Nat) (hv : α) : StreamMmr α :=
  if h ≠ 0 then StreamMmr.saveElement false s h x hv
  else { s with cache := cacheAdd s.cache hv h x }

/-- The `Mmr` whose `LoadElement` and `SaveElement` these are. -/
def store (stateHash : Nat → α) : Store (StreamMmr α) α :=
  ⟨fun h x s => loadElement stateHash s h x, fun h x hv s => saveElement s h x hv⟩

/-- The same with no cache: a leaf from the database, a tree from the stream. -/
def uncachedStore (stateHash : Nat → α) : Store (Nat → α) α :=
  ⟨fun h x t => (stateRead stateHash t h x, t),
    fun h x hv t => if h ≠ 0 then Function.update t (FlatMmr.pos2Idx h x false) hv else t⟩

theorem loadElement_eq (stateHash : Nat → α) (s : StreamMmr α) (h x : Nat) :
    loadElement stateHash s h x = StreamMmr.loadCached s h x (stateRead stateHash s.stream h x) := by
  unfold loadElement stateRead StreamMmr.loadElement
  split_ifs <;> simp_all

@[simp] theorem count_saveElement (s : StreamMmr α) (h x : Nat) (hv : α) : (saveElement s h x hv).count = s.count := by
  unfold saveElement
  split_ifs <;> rfl

@[simp] theorem cache_saveElement (s : StreamMmr α) (h x : Nat) (hv : α) :
    (saveElement s h x hv).cache = cacheAdd s.cache hv h x := by
  unfold saveElement
  split_ifs <;> rfl

/-- A tree of height `k + 1` covers the leaves of its left child. -/
theorem le_of_succ_le {x k cap : Nat} (hx : (x + 1) * 2 ^ (k + 1) ≤ cap) : (x + 1) * 2 ^ k ≤ cap :=
  le_trans (Nat.mul_le_mul_left _ (Nat.pow_le_pow_right (by decide) k.le_succ)) hx

/-- `Pos2Idx` without the leaves is one to one above them, up to `2 ^ 63` leaves. -/
theorem pos2Idx_false_inj {h x h' y cap : Nat} (hcap : cap ≤ 2 ^ 63) (hx : (x + 1) * 2 ^ h ≤ cap)
    (hy : (y + 1) * 2 ^ h' ≤ cap) (hh : h ≠ 0) (hh' : h' ≠ 0)
    (heq : FlatMmr.pos2Idx h x false = FlatMmr.pos2Idx h' y false) : h = h' ∧ x = y := by
  obtain ⟨k, rfl⟩ := Nat.exists_eq_succ_of_ne_zero hh
  obtain ⟨k', rfl⟩ := Nat.exists_eq_succ_of_ne_zero hh'
  rw [pos2Idx_succ_false, pos2Idx_succ_false] at heq
  obtain ⟨rfl, rfl⟩ := pos2Idx_inj hcap (le_of_succ_le hx) (le_of_succ_le hy) heq
  exact ⟨rfl, rfl⟩

/-- A save changes what only its own position holds behind the cache. -/
theorem stateRead_saveElement_of_ne (stateHash : Nat → α) (s : StreamMmr α) {h x h' y cap : Nat} (hv : α)
    (hcap : cap ≤ 2 ^ 63) (hx : (x + 1) * 2 ^ h ≤ cap) (hy : (y + 1) * 2 ^ h' ≤ cap) (hne : ¬(h' = h ∧ y = x)) :
    stateRead stateHash (saveElement s h x hv).stream h' y = stateRead stateHash s.stream h' y := by
  unfold stateRead saveElement
  by_cases hh' : h' = 0
  · simp [hh']
  by_cases hh : h = 0
  · simp [hh', hh]
  have hidx : FlatMmr.pos2Idx h' y false ≠ FlatMmr.pos2Idx h x false := fun heq =>
    hne (pos2Idx_false_inj hcap hy hx hh' hh heq)
  simp [hh', hh, StreamMmr.saveElement, Function.update_of_ne hidx]

/-- Position `(h, x)` reads `v`: what is behind the cache holds `v`, and the
cache serves nothing else for it. -/
def Reads (stateHash : Nat → α) (s : StreamMmr α) (h x : Nat) (v : α) : Prop :=
  stateRead stateHash s.stream h x = v ∧ Serves s.cache h x v

/-- **The cached states MMR is a store of positions that read back a hash**,
for at most `2 ^ 63` leaves; a leaf keeps only the hash of its state. -/
theorem pointsTo_store (stateHash : Nat → α) (c : Nat) {cap : Nat} (hcap : cap ≤ 2 ^ 63) :
    PointsTo (store stateHash) (fun s : StreamMmr α => s.count = c)
      (fun h x v => h = 0 → stateHash (x + Emission.heightGenesis) = v) (Reads stateHash) cap where
  load s h x _ _ _ hr := by
    show (loadElement stateHash s h x).1 = _
    rw [loadElement_eq]
    exact StreamMmr.loadCached_fst hr.2 hr.1
  load_ok s h x _ hs _ _ := by
    show (loadElement stateHash s h x).2.count = c
    rw [loadElement_eq, StreamMmr.count_loadCached]
    exact hs
  load_frame s h x _ _ hx _ h' y w hy hw := by
    show Reads stateHash (loadElement stateHash s h x).2 h' y w
    rw [loadElement_eq]
    refine ⟨by rw [StreamMmr.stream_loadCached]; exact hw.1,
      StreamMmr.serves_loadCached (cacheable hx hcap).1 (cacheable hy hcap).2 hw.2 ?_⟩
    rintro ⟨rfl, rfl⟩
    exact hw.1.symm
  save_ok s h x v hs _ := (count_saveElement s h x v).trans hs
  save_pt s h x v _ hx hfit := by
    refine ⟨?_, by rw [store, cache_saveElement]; exact serves_cacheAdd_self _ _ _ (cacheable hx hcap).1⟩
    unfold stateRead
    by_cases hh : h = 0
    · simpa [hh] using hfit hh
    · simp [hh, store, saveElement, StreamMmr.saveElement]
  save_frame s h x v _ hx h' y _ hy hne hw :=
    ⟨(stateRead_saveElement_of_ne stateHash s v hcap hx hy hne).trans hw.1, by
      rw [store, cache_saveElement]
      exact serves_cacheAdd_of_ne hw.2 _ (cacheable hy hcap).2 hne⟩

/-- `ResizeTo` keeps what every position stored before reads: the stream holds
no leaf, and the trees above are below the old size. -/
theorem reads_resizeTo (stateHash : Nat → α) (zero : α) {s : StreamMmr α} (nCount : Nat) (hcount : s.count ≤ 2 ^ 63)
    {h x : Nat} {v : α}
    (hx : (x + 1) * 2 ^ h ≤ s.count) (hr : Reads stateHash s h x v) :
    Reads stateHash (StreamMmr.resizeTo zero false s nCount) h x v := by
  refine ⟨?_, hr.2⟩
  have hread := hr.1
  unfold stateRead at hread ⊢
  by_cases hh : h = 0
  · simpa [hh] using hread
  obtain ⟨k, rfl⟩ := Nat.exists_eq_succ_of_ne_zero hh
  -- the tree `(k + 1, x)` is the tree `(k, x)` of the pairs of leaves
  have hk : (x + 1) * 2 ^ k ≤ s.count / 2 := by
    rw [Nat.le_div_iff_mul_le (by decide), Nat.mul_assoc, ← Nat.pow_succ]
    exact hx
  have hlt : FlatMmr.pos2Idx (k + 1) x false < FlatMmr.getTotalHashes s.count false := by
    rw [pos2Idx_succ_false, getTotalHashes_false (by omega)]
    exact pos2Idx_lt_getTotalHashes (by omega) hk
  simp only [hh, ↓reduceIte] at hread ⊢
  rw [StreamMmr.stream_resizeTo_of_lt zero false s nCount hlt]
  exact hread

/-- The uncached states MMR gives the trees when the database and the stream
hold them. -/
theorem loadsNodes_uncachedStore (hJ : α → α → α) (stateHash : Nat → α) (f : Nat → α) (count : Nat) :
    LoadsNodes hJ (uncachedStore stateHash)
      (fun t => ∀ h x, (x + 1) * 2 ^ h ≤ count → stateRead stateHash t h x = node hJ f h x) f count :=
  fun _ h x ht hx => ⟨ht h x hx, ht⟩

end StatesMmr

/-! ## The runs -/

section Runs

variable (hJ : α → α → α) (zero : α)

/-- The trees of the leaves kept by a shrink are those of the leaves before it. -/
theorem node_getD_take {l : List α} {n h x : Nat} (hx : (x + 1) * 2 ^ h ≤ n) :
    node hJ (fun i => l.getD i zero) h x = node hJ (fun i => (l.take n).getD i zero) h x :=
  node_congr fun i _ hi => by simp [List.getD_eq_getElem?_getD, show i < n by omega]

namespace StreamMmr

/-- What a run keeps: `m_Count` is the number of leaves, at most `2 ^ 63` so
that `Pos2Idx` does not wrap, and every stored position reads the tree of the
leaves there. -/
structure Inv (s : StreamMmr α) (l : List α) : Prop where
  count_eq : s.count = l.length
  count_le : s.count ≤ 2 ^ 63
  holds : HoldsAt hJ Reads (fun i => l.getD i zero) s.count s

variable {hJ zero}

/-- The loads of a state that keeps the invariant give the trees. -/
theorem Inv.loadsNodes {s : StreamMmr α} {l : List α} (hi : Inv hJ zero s l) :
    LoadsNodes hJ (store true) (fun s' => s'.count = s.count ∧ HoldsAt hJ Reads (fun i => l.getD i zero) s.count s')
      (fun i => l.getD i zero) s.count :=
  (pointsTo_store s.count hi.count_le).loadsNodes _ le_rfl

theorem Inv.of_loads {s s' : StreamMmr α} {l : List α} (hi : Inv hJ zero s l)
    (hs' : s'.count = s.count ∧ HoldsAt hJ Reads (fun i => l.getD i zero) s.count s') : Inv hJ zero s' l :=
  ⟨hs'.1.trans hi.count_eq, hs'.1 ▸ hi.count_le, hs'.1 ▸ hs'.2⟩

theorem inv_init (l : List α) (stream : Nat → α) (v : α) (hlen : l.length ≤ 2 ^ 63)
    (hs : ∀ h x, (x + 1) * 2 ^ h ≤ l.length →
      stream (FlatMmr.pos2Idx h x true) = node hJ (fun i => l.getD i zero) h x) :
    Inv hJ zero ⟨l.length, stream, Cache.new v⟩ l :=
  ⟨rfl, hlen, fun h x hx => ⟨hs h x hx, serves_new v h (cacheable hx hlen).2 _⟩⟩

/-- **`Append` keeps the invariant**: `ResizeTo` keeps what the old positions
read, and `Replace` of the new leaf saves every tree it completes before any of
them is loaded, whatever the cache held for them. -/
theorem Inv.append {s : StreamMmr α} {l : List α} (hi : Inv hJ zero s l) (hv : α) (hfit : s.count + 1 ≤ 2 ^ 63) :
    Inv hJ zero (append hJ zero true (store true) s hv) (l ++ [hv]) := by
  have hs' : HoldsAt hJ Reads (fun i => l.getD i zero) s.count (resizeTo zero true s (s.count + 1)) :=
    fun h x hx => reads_resizeTo zero _ hi.count_le hx (hi.holds h x hx)
  have hnew : (l ++ [hv]).getD s.count zero = hv := hi.count_eq ▸ getD_append_length
  obtain ⟨hcount, hholds⟩ := append_holds (pointsTo_store (s.count + 1) hfit) le_rfl (fun _ _ _ => trivial) rfl hs'
    (fun i hi' => getD_append_of_lt (hi.count_eq ▸ hi')) hnew
  refine ⟨?_, ?_, ?_⟩
  · rw [List.length_append, ← hi.count_eq]
    exact hcount
  · exact hcount ▸ hfit
  · exact hcount ▸ hholds

/-- `ShrinkTo` keeps the invariant for the leaves it keeps: the stream below
the new size and the cache stay as they are. -/
theorem Inv.shrinkTo {s : StreamMmr α} {l : List α} (hi : Inv hJ zero s l) {nCount : Nat} (hle : nCount ≤ s.count) :
    Inv hJ zero (shrinkTo zero true s nCount) (l.take nCount) := by
  have hlen : nCount ≤ l.length := hi.count_eq ▸ hle
  refine ⟨by simp [hlen], by simp only [count_shrinkTo]; have := hi.count_le; omega, ?_⟩
  intro h x hx
  rw [count_shrinkTo] at hx
  have hx' : (x + 1) * 2 ^ h ≤ s.count := le_trans hx hle
  rw [← node_getD_take hJ zero hx]
  exact reads_resizeTo zero nCount hi.count_le hx' (hi.holds h x hx')

theorem Inv.replace {s : StreamMmr α} {l : List α} (hi : Inv hJ zero s l) {n : Nat} (hn : n < s.count) (hv : α) :
    Inv hJ zero (Merkle.replace hJ (store true) s.count n hv s) (l.set n hv) := by
  obtain ⟨hcount, hholds⟩ :=
    replace_holds (pointsTo_store s.count hi.count_le) le_rfl rfl hi.holds hn hv fun _ _ _ => trivial
  rw [← getD_set_eq_update (hi.count_eq ▸ hn)] at hholds
  refine ⟨hcount.trans (hi.count_eq.trans (List.length_set ..).symm), ?_, ?_⟩
  · rw [hcount]
    exact hi.count_le
  · rw [hcount]
    exact hholds

variable (hJ zero) [Inhabited α]

/-- The MMRs the node keeps in a stream with the leaves (the shielded and the
assets MMRs), with the leaves they hold: a new cache over a stream that holds
the trees of the leaves (`m_Count` read back from the database), then `Append`,
`ShrinkTo` (or `ResizeTo` down), `Replace` of a leaf, `get_Hash`,
`get_PredictedHash` and `get_Proof` of a leaf.  The stream holds at most
`2 ^ 46` leaves: its rows of `s_StreamBlob` bytes are keyed
`StreamType::Key(idx, eType) = idx | eType << 32`, distinct only for
`idx < 2 ^ 32`, that is `2 ^ 52` bytes or `2 ^ 47` hashes, and `n` leaves have
fewer than `2 * n` hashes (`total_lt_two_mul`). -/
inductive Reachable : StreamMmr α → List α → Prop
  | init (l : List α) (stream : Nat → α) (v : α) (hlen : l.length ≤ 2 ^ 46)
      (hs : ∀ h x, (x + 1) * 2 ^ h ≤ l.length →
        stream (FlatMmr.pos2Idx h x true) = node hJ (fun i => l.getD i zero) h x) :
      Reachable ⟨l.length, stream, Cache.new v⟩ l
  | append {s : StreamMmr α} {l : List α} (hv : α) :
      Reachable s l → s.count < 2 ^ 46 → Reachable (append hJ zero true (store true) s hv) (l ++ [hv])
  | shrinkTo {s : StreamMmr α} {l : List α} (nCount : Nat) :
      Reachable s l → nCount ≤ s.count → Reachable (shrinkTo zero true s nCount) (l.take nCount)
  | replace {s : StreamMmr α} {l : List α} (n : Nat) (hv : α) :
      Reachable s l → n < s.count → Reachable (Merkle.replace hJ (store true) s.count n hv s) (l.set n hv)
  | getHash {s : StreamMmr α} {l : List α} :
      Reachable s l → Reachable (Merkle.getHash hJ (store true) zero s.count s).2 l
  | getPredictedHash {s : StreamMmr α} {l : List α} (hv : α) :
      Reachable s l → Reachable (Merkle.getPredictedHash hJ (store true) s.count hv s).2 l
  | getProof {s : StreamMmr α} {l : List α} (i : Nat) :
      Reachable s l → i < s.count → Reachable (Merkle.getProof hJ (store true) s.count i s).2 l

variable {hJ zero}

/-- **Every run keeps the invariant.** -/
theorem reachable_inv {s : StreamMmr α} {l : List α} (hr : Reachable hJ zero s l) : Inv hJ zero s l := by
  induction hr with
  | init l stream v hlen hs => exact inv_init l stream v (le_trans hlen (by decide)) hs
  | append hv _ hfit ih => exact ih.append hv (by omega)
  | shrinkTo nCount _ hle ih => exact ih.shrinkTo hle
  | replace n hv _ hn ih => exact ih.replace hn hv
  | getHash _ ih => exact ih.of_loads (getHash_spec ih.loadsNodes zero ⟨rfl, ih.holds⟩).2
  | getPredictedHash hv _ ih => exact ih.of_loads (getPredictedHash_spec ih.loadsNodes hv ⟨rfl, ih.holds⟩).2
  | getProof i _ hi ih => exact ih.of_loads (getProof_inv ih.loadsNodes ⟨rfl, ih.holds⟩ hi)

/-- **No stale hash in a run.**  Every stored position loads through the cache
what the stream gives with no cache, the tree of the leaves there; so
`get_Hash` and `get_Proof` through the cache are those with no cache, which are
those of the leaves as `FlyMmr` computes them. -/
theorem reachable_coherent {s : StreamMmr α} {l : List α} (hr : Reachable hJ zero s l) :
    s.count = l.length ∧
      (∀ h x, (x + 1) * 2 ^ h ≤ s.count →
        (loadElement true s h x).1 = ((streamStore true).load h x s.stream).1 ∧
          ((streamStore true).load h x s.stream).1 = node hJ (fun i => l.getD i zero) h x) ∧
      (getHash hJ (store true) zero s.count s).1 = (getHash hJ (streamStore true) zero s.count s.stream).1 ∧
      (getHash hJ (streamStore true) zero s.count s.stream).1 =
        FlyMmr.getHash hJ (fun i => l.getD i zero) zero l.length ∧
      ∀ i < s.count, (getProof hJ (store true) s.count i s).1 = (getProof hJ (streamStore true) s.count i s.stream).1 ∧
        (getProof hJ (streamStore true) s.count i s.stream).1 =
          FlyMmr.getProof hJ (fun j => l.getD j zero) l.length i := by
  have hinv := reachable_inv hr
  have hL := hinv.loadsNodes
  -- the stream alone holds every tree, so the uncached store gives them too
  have hstream : Holds hJ (fun i => l.getD i zero) s.count (fun h x => s.stream (FlatMmr.pos2Idx h x true)) :=
    fun h x hx => (hinv.holds h x hx).1
  have hT : LoadsNodes hJ (streamStore true) (fun t => True ∧ Holds hJ (fun i => l.getD i zero) s.count
      (fun h x => t (FlatMmr.pos2Idx h x true))) (fun i => l.getD i zero) s.count :=
    loadsNodes_tableLike (tableLike_streamStore hinv.count_le) _ le_rfl
  have hroot := (getHash_spec hT zero ⟨trivial, hstream⟩).1
  refine ⟨hinv.count_eq, fun h x hx => ?_, ?_, ?_, fun i hi => ⟨?_, ?_⟩⟩
  · have hr := hinv.holds h x hx
    exact ⟨(loadCached_fst hr.2 hr.1).trans hr.1.symm, hr.1⟩
  · rw [(getHash_spec hL zero ⟨rfl, hinv.holds⟩).1, hroot]
  · rw [hroot, flyMmr_getHash, hinv.count_eq]
  · rw [getProof_ofFun hL ⟨rfl, hinv.holds⟩ hi, getProof_ofFun hT ⟨trivial, hstream⟩ hi]
  · rw [getProof_ofFun hT ⟨trivial, hstream⟩ hi, flyMmr_getProof, hinv.count_eq]

end StreamMmr

namespace StatesMmr

/-- What a run of the states MMR keeps: `m_Count` is the number of leaves, at
most `2 ^ 63`, and every stored position reads the tree of the leaves there, a
leaf the hash of the active state at its height. -/
structure Inv (stateHash : Nat → α) (s : StreamMmr α) (l : List α) : Prop where
  count_eq : s.count = l.length
  count_le : s.count ≤ 2 ^ 63
  holds : HoldsAt hJ (Reads stateHash) (fun i => l.getD i zero) s.count s

variable {hJ zero}

theorem Inv.loadsNodes {stateHash : Nat → α} {s : StreamMmr α} {l : List α} (hi : Inv hJ zero stateHash s l) :
    LoadsNodes hJ (store stateHash)
      (fun s' => s'.count = s.count ∧ HoldsAt hJ (Reads stateHash) (fun i => l.getD i zero) s.count s')
      (fun i => l.getD i zero) s.count :=
  (pointsTo_store stateHash s.count hi.count_le).loadsNodes _ le_rfl

theorem Inv.of_loads {stateHash : Nat → α} {s s' : StreamMmr α} {l : List α} (hi : Inv hJ zero stateHash s l)
    (hs' : s'.count = s.count ∧ HoldsAt hJ (Reads stateHash) (fun i => l.getD i zero) s.count s') :
    Inv hJ zero stateHash s' l :=
  ⟨hs'.1.trans hi.count_eq, hs'.1 ▸ hi.count_le, hs'.1 ▸ hs'.2⟩

theorem inv_init (stateHash : Nat → α) (l : List α) (stream : Nat → α) (v : α) (hlen : l.length ≤ 2 ^ 63)
    (hs : ∀ h x, (x + 1) * 2 ^ h ≤ l.length → stateRead stateHash stream h x = node hJ (fun i => l.getD i zero) h x) :
    Inv hJ zero stateHash ⟨l.length, stream, Cache.new v⟩ l :=
  ⟨rfl, hlen, fun h x hx => ⟨hs h x hx, serves_new v h (cacheable hx hlen).2 _⟩⟩

/-- **`Append` of the hash of the next state keeps the invariant**: every leaf
saved is the hash of its state, which is all a leaf keeps. -/
theorem Inv.append {stateHash : Nat → α} {s : StreamMmr α} {l : List α} (hi : Inv hJ zero stateHash s l) {hv : α}
    (hfit : s.count + 1 ≤ 2 ^ 63) (hstate : stateHash (s.count + Emission.heightGenesis) = hv) :
    Inv hJ zero stateHash (StreamMmr.append hJ zero false (store stateHash) s hv) (l ++ [hv]) := by
  have hs' : HoldsAt hJ (Reads stateHash) (fun i => l.getD i zero) s.count
      (StreamMmr.resizeTo zero false s (s.count + 1)) :=
    fun h x hx => reads_resizeTo stateHash zero _ hi.count_le hx (hi.holds h x hx)
  have hnew : (l ++ [hv]).getD s.count zero = hv := hi.count_eq ▸ getD_append_length
  -- the leaves the loop saves are the old ones and the new one, each its state's hash
  have hfits : ∀ h x, (x + 1) * 2 ^ h ≤ s.count + 1 →
      h = 0 → stateHash (x + Emission.heightGenesis) = node hJ (fun i => (l ++ [hv]).getD i zero) h x := by
    rintro h x hx rfl
    rw [node_zero]
    rcases Nat.lt_or_ge x s.count with hlt | hge
    · have hleaf := (hi.holds 0 x (by simpa using hlt)).1
      simp only [stateRead, ↓reduceIte, node_zero] at hleaf
      rw [hleaf, getD_append_of_lt (hi.count_eq ▸ hlt)]
    · rw [show x = s.count by simp at hx; omega, hstate, hnew]
  obtain ⟨hcount, hholds⟩ := append_holds (pointsTo_store stateHash (s.count + 1) hfit) le_rfl hfits rfl hs'
    (fun i hi' => getD_append_of_lt (hi.count_eq ▸ hi')) hnew
  refine ⟨?_, ?_, ?_⟩
  · rw [List.length_append, ← hi.count_eq]
    exact hcount
  · exact hcount ▸ hfit
  · exact hcount ▸ hholds

theorem Inv.shrinkTo {stateHash : Nat → α} {s : StreamMmr α} {l : List α} (hi : Inv hJ zero stateHash s l)
    {nCount : Nat} (hle : nCount ≤ s.count) :
    Inv hJ zero stateHash (StreamMmr.shrinkTo zero false s nCount) (l.take nCount) := by
  have hlen : nCount ≤ l.length := hi.count_eq ▸ hle
  refine ⟨by simp [hlen], by simp only [StreamMmr.count_shrinkTo]; have := hi.count_le; omega, ?_⟩
  intro h x hx
  rw [StreamMmr.count_shrinkTo] at hx
  have hx' : (x + 1) * 2 ^ h ≤ s.count := le_trans hx hle
  rw [← node_getD_take hJ zero hx]
  exact reads_resizeTo stateHash zero nCount hi.count_le hx' (hi.holds h x hx')

/-- A new active state at a height past the leaves changes what no stored
position reads. -/
theorem Inv.setState {stateHash : Nat → α} {s : StreamMmr α} {l : List α} (hi : Inv hJ zero stateHash s l)
    {height : Nat} (hv : α) (hpast : s.count + Emission.heightGenesis ≤ height) :
    Inv hJ zero (Function.update stateHash height hv) s l := by
  refine ⟨hi.count_eq, hi.count_le, fun h x hx => ⟨?_, (hi.holds h x hx).2⟩⟩
  have hread := (hi.holds h x hx).1
  unfold stateRead at hread ⊢
  by_cases hh : h = 0
  · subst hh
    have hxc : x + Emission.heightGenesis ≠ height := by simp at hx; omega
    simpa [Function.update_of_ne hxc] using hread
  · simpa [hh] using hread

variable (hJ zero) [Inhabited α]

/-- The states MMR of the node, with `stateHash` the hash of the active state at
each height and the leaves it holds: a new cache over a stream that holds the
trees above the leaves (`m_Count` set from the cursor), then `Append` of the
hash of the state active at the next height, `ShrinkTo` of a rollback, a new
active state at a height past the leaves, `get_Hash`, `get_PredictedHash` and
`get_Proof` of a leaf, for at most `2 ^ 46` leaves as for `StreamMmr`. -/
inductive Reachable : (Nat → α) → StreamMmr α → List α → Prop
  | init (stateHash : Nat → α) (l : List α) (stream : Nat → α) (v : α) (hlen : l.length ≤ 2 ^ 46)
      (hs : ∀ h x, (x + 1) * 2 ^ h ≤ l.length →
        stateRead stateHash stream h x = node hJ (fun i => l.getD i zero) h x) :
      Reachable stateHash ⟨l.length, stream, Cache.new v⟩ l
  | append {stateHash : Nat → α} {s : StreamMmr α} {l : List α} (hv : α) :
      Reachable stateHash s l → s.count < 2 ^ 46 → stateHash (s.count + Emission.heightGenesis) = hv →
      Reachable stateHash (StreamMmr.append hJ zero false (store stateHash) s hv) (l ++ [hv])
  | shrinkTo {stateHash : Nat → α} {s : StreamMmr α} {l : List α} (nCount : Nat) :
      Reachable stateHash s l → nCount ≤ s.count →
      Reachable stateHash (StreamMmr.shrinkTo zero false s nCount) (l.take nCount)
  | setState {stateHash : Nat → α} {s : StreamMmr α} {l : List α} (height : Nat) (hv : α) :
      Reachable stateHash s l → s.count + Emission.heightGenesis ≤ height →
      Reachable (Function.update stateHash height hv) s l
  | getHash {stateHash : Nat → α} {s : StreamMmr α} {l : List α} :
      Reachable stateHash s l → Reachable stateHash (Merkle.getHash hJ (store stateHash) zero s.count s).2 l
  | getPredictedHash {stateHash : Nat → α} {s : StreamMmr α} {l : List α} (hv : α) :
      Reachable stateHash s l → Reachable stateHash (Merkle.getPredictedHash hJ (store stateHash) s.count hv s).2 l
  | getProof {stateHash : Nat → α} {s : StreamMmr α} {l : List α} (i : Nat) :
      Reachable stateHash s l → i < s.count →
      Reachable stateHash (Merkle.getProof hJ (store stateHash) s.count i s).2 l

variable {hJ zero}

/-- **Every run of the states MMR keeps the invariant.** -/
theorem reachable_inv {stateHash : Nat → α} {s : StreamMmr α} {l : List α} (hr : Reachable hJ zero stateHash s l) :
    Inv hJ zero stateHash s l := by
  induction hr with
  | init stateHash l stream v hlen hs => exact inv_init stateHash l stream v (le_trans hlen (by decide)) hs
  | append hv _ hfit hstate ih => exact ih.append (by omega) hstate
  | shrinkTo nCount _ hle ih => exact ih.shrinkTo hle
  | setState height hv _ hpast ih => exact ih.setState hv hpast
  | getHash _ ih => exact ih.of_loads (getHash_spec ih.loadsNodes zero ⟨rfl, ih.holds⟩).2
  | getPredictedHash hv _ ih => exact ih.of_loads (getPredictedHash_spec ih.loadsNodes hv ⟨rfl, ih.holds⟩).2
  | getProof i _ hi ih => exact ih.of_loads (getProof_inv ih.loadsNodes ⟨rfl, ih.holds⟩ hi)

/-- **No stale hash in a run of the states MMR.**  Every stored position loads
through the cache what the database and the stream give with no cache, the
tree of the leaves there; so `get_Hash` and `get_Proof` through the cache are
those with no cache, which are those of the leaves. -/
theorem reachable_coherent {stateHash : Nat → α} {s : StreamMmr α} {l : List α}
    (hr : Reachable hJ zero stateHash s l) :
    s.count = l.length ∧
      (∀ h x, (x + 1) * 2 ^ h ≤ s.count →
        (loadElement stateHash s h x).1 = ((uncachedStore stateHash).load h x s.stream).1 ∧
          ((uncachedStore stateHash).load h x s.stream).1 = node hJ (fun i => l.getD i zero) h x) ∧
      (getHash hJ (store stateHash) zero s.count s).1 =
        (getHash hJ (uncachedStore stateHash) zero s.count s.stream).1 ∧
      (getHash hJ (uncachedStore stateHash) zero s.count s.stream).1 =
        FlyMmr.getHash hJ (fun i => l.getD i zero) zero l.length ∧
      ∀ i < s.count, (getProof hJ (store stateHash) s.count i s).1 =
          (getProof hJ (uncachedStore stateHash) s.count i s.stream).1 ∧
        (getProof hJ (uncachedStore stateHash) s.count i s.stream).1 =
          FlyMmr.getProof hJ (fun j => l.getD j zero) l.length i := by
  have hinv := reachable_inv hr
  have hL := hinv.loadsNodes
  -- the database and the stream hold every tree, so the uncached store gives them too
  have hbehind : ∀ h x, (x + 1) * 2 ^ h ≤ s.count →
      stateRead stateHash s.stream h x = node hJ (fun i => l.getD i zero) h x :=
    fun h x hx => (hinv.holds h x hx).1
  have hT := loadsNodes_uncachedStore hJ stateHash (fun i => l.getD i zero) s.count
  have hroot := (getHash_spec hT zero hbehind).1
  refine ⟨hinv.count_eq, fun h x hx => ?_, ?_, ?_, fun i hi => ⟨?_, ?_⟩⟩
  · refine ⟨?_, hbehind h x hx⟩
    have hr := hinv.holds h x hx
    rw [loadElement_eq]
    exact (StreamMmr.loadCached_fst hr.2 hr.1).trans hr.1.symm
  · rw [(getHash_spec hL zero ⟨rfl, hinv.holds⟩).1, hroot]
  · rw [hroot, flyMmr_getHash, hinv.count_eq]
  · rw [getProof_ofFun hL ⟨rfl, hinv.holds⟩ hi, getProof_ofFun hT hbehind hi]
  · rw [getProof_ofFun hT hbehind hi, flyMmr_getProof, hinv.count_eq]

end StatesMmr

end Runs

/-! ## The cache over whole runs -/

section Claims

variable {hJ : α → α → α} {zero : α} [Inhabited α]

/-- **The caches of the stream MMRs never serve a stale hash.**  In every run of
the shielded or assets MMR, and of the states MMR, every stored position loads
through the cache what is behind it (the stream, or the database for a leaf of
the states), the tree of the leaves there; and `get_Hash` and `get_Proof`
through the cache are those with no cache, which are those of the leaves as
`FlyMmr` computes them. -/
theorem streamMmr_cache_coherent :
    (∀ {s : StreamMmr α} {l : List α}, StreamMmr.Reachable hJ zero s l →
      s.count = l.length ∧
        (∀ h x, (x + 1) * 2 ^ h ≤ s.count →
          (StreamMmr.loadElement true s h x).1 = ((StreamMmr.streamStore true).load h x s.stream).1 ∧
            ((StreamMmr.streamStore true).load h x s.stream).1 = node hJ (fun i => l.getD i zero) h x) ∧
        (getHash hJ (StreamMmr.store true) zero s.count s).1 =
          (getHash hJ (StreamMmr.streamStore true) zero s.count s.stream).1 ∧
        (getHash hJ (StreamMmr.streamStore true) zero s.count s.stream).1 =
          FlyMmr.getHash hJ (fun i => l.getD i zero) zero l.length ∧
        ∀ i < s.count, (getProof hJ (StreamMmr.store true) s.count i s).1 =
            (getProof hJ (StreamMmr.streamStore true) s.count i s.stream).1 ∧
          (getProof hJ (StreamMmr.streamStore true) s.count i s.stream).1 =
            FlyMmr.getProof hJ (fun j => l.getD j zero) l.length i) ∧
    (∀ {stateHash : Nat → α} {s : StreamMmr α} {l : List α}, StatesMmr.Reachable hJ zero stateHash s l →
      s.count = l.length ∧
        (∀ h x, (x + 1) * 2 ^ h ≤ s.count →
          (StatesMmr.loadElement stateHash s h x).1 = ((StatesMmr.uncachedStore stateHash).load h x s.stream).1 ∧
            ((StatesMmr.uncachedStore stateHash).load h x s.stream).1 = node hJ (fun i => l.getD i zero) h x) ∧
        (getHash hJ (StatesMmr.store stateHash) zero s.count s).1 =
          (getHash hJ (StatesMmr.uncachedStore stateHash) zero s.count s.stream).1 ∧
        (getHash hJ (StatesMmr.uncachedStore stateHash) zero s.count s.stream).1 =
          FlyMmr.getHash hJ (fun i => l.getD i zero) zero l.length ∧
        ∀ i < s.count, (getProof hJ (StatesMmr.store stateHash) s.count i s).1 =
            (getProof hJ (StatesMmr.uncachedStore stateHash) s.count i s.stream).1 ∧
          (getProof hJ (StatesMmr.uncachedStore stateHash) s.count i s.stream).1 =
            FlyMmr.getProof hJ (fun j => l.getD j zero) l.length i) :=
  ⟨fun hr => StreamMmr.reachable_coherent hr, fun hr => StatesMmr.reachable_coherent hr⟩

end Claims

/-- A stream MMR with no leaves, over a stream of zero hashes. -/
def empty : StreamMmr Nat := ⟨0, fun _ => 0, Cache.new 0⟩

theorem reachable_empty : StreamMmr.Reachable Nat.add 0 empty [] :=
  .init [] (fun _ => 0) 0 (by decide) fun h x hx =>
    absurd hx (Nat.not_le.mpr (Nat.mul_pos (Nat.succ_pos x) (Nat.two_pow_pos h)))

theorem reachable_states_empty : StatesMmr.Reachable Nat.add 0 (fun h => 10 * h) empty [] :=
  .init _ [] (fun _ => 0) 0 (by decide) fun h x hx =>
    absurd hx (Nat.not_le.mpr (Nat.mul_pos (Nat.succ_pos x) (Nat.two_pow_pos h)))

/-- Rollbacks of both kinds: two leaves appended, the second rolled back, and a
different second leaf appended; for the states, a new state at the rolled back
height. -/
theorem streamMmr_cache_coherent_rollback :
    let s := StreamMmr.append Nat.add 0 true (StreamMmr.store true)
      (StreamMmr.shrinkTo 0 true (StreamMmr.append Nat.add 0 true (StreamMmr.store true)
        (StreamMmr.append Nat.add 0 true (StreamMmr.store true) empty 5) 7) 1) 9
    let l := ([] ++ [5] ++ [7]).take 1 ++ [9]
    let stateHash := Function.update (fun h => 10 * h) 2 9
    let t := StreamMmr.append Nat.add 0 false (StatesMmr.store stateHash)
      (StreamMmr.shrinkTo 0 false (StreamMmr.append Nat.add 0 false (StatesMmr.store (fun h => 10 * h))
        (StreamMmr.append Nat.add 0 false (StatesMmr.store (fun h => 10 * h)) empty 10) 20) 1) 9
    let m := ([] ++ [10] ++ [20]).take 1 ++ [9]
    (StreamMmr.Reachable Nat.add 0 s l ∧
      s.count = l.length ∧
        (∀ h x, (x + 1) * 2 ^ h ≤ s.count →
          (StreamMmr.loadElement true s h x).1 = ((StreamMmr.streamStore true).load h x s.stream).1 ∧
            ((StreamMmr.streamStore true).load h x s.stream).1 = node Nat.add (fun i => l.getD i 0) h x) ∧
        (getHash Nat.add (StreamMmr.store true) 0 s.count s).1 =
          (getHash Nat.add (StreamMmr.streamStore true) 0 s.count s.stream).1 ∧
        (getHash Nat.add (StreamMmr.streamStore true) 0 s.count s.stream).1 =
          FlyMmr.getHash Nat.add (fun i => l.getD i 0) 0 l.length ∧
        ∀ i < s.count, (getProof Nat.add (StreamMmr.store true) s.count i s).1 =
            (getProof Nat.add (StreamMmr.streamStore true) s.count i s.stream).1 ∧
          (getProof Nat.add (StreamMmr.streamStore true) s.count i s.stream).1 =
            FlyMmr.getProof Nat.add (fun j => l.getD j 0) l.length i) ∧
    (StatesMmr.Reachable Nat.add 0 stateHash t m ∧
      t.count = m.length ∧
        (∀ h x, (x + 1) * 2 ^ h ≤ t.count →
          (StatesMmr.loadElement stateHash t h x).1 = ((StatesMmr.uncachedStore stateHash).load h x t.stream).1 ∧
            ((StatesMmr.uncachedStore stateHash).load h x t.stream).1 = node Nat.add (fun i => m.getD i 0) h x) ∧
        (getHash Nat.add (StatesMmr.store stateHash) 0 t.count t).1 =
          (getHash Nat.add (StatesMmr.uncachedStore stateHash) 0 t.count t.stream).1 ∧
        (getHash Nat.add (StatesMmr.uncachedStore stateHash) 0 t.count t.stream).1 =
          FlyMmr.getHash Nat.add (fun i => m.getD i 0) 0 m.length ∧
        ∀ i < t.count, (getProof Nat.add (StatesMmr.store stateHash) t.count i t).1 =
            (getProof Nat.add (StatesMmr.uncachedStore stateHash) t.count i t.stream).1 ∧
          (getProof Nat.add (StatesMmr.uncachedStore stateHash) t.count i t.stream).1 =
            FlyMmr.getProof Nat.add (fun j => m.getD j 0) m.length i) := by
  intro s l stateHash t m
  have h1 := reachable_empty.append 5 (by rw [(StreamMmr.reachable_inv reachable_empty).count_eq]; decide)
  have h2 := h1.append 7 (by rw [(StreamMmr.reachable_inv h1).count_eq]; decide)
  have h3 := h2.shrinkTo 1 (by rw [(StreamMmr.reachable_inv h2).count_eq]; decide)
  have h4 := h3.append 9 (by rw [(StreamMmr.reachable_inv h3).count_eq]; decide)
  have g1 := reachable_states_empty.append 10 (by rw [(StatesMmr.reachable_inv reachable_states_empty).count_eq]; decide)
    (by rw [(StatesMmr.reachable_inv reachable_states_empty).count_eq]; decide)
  have g2 := g1.append 20 (by rw [(StatesMmr.reachable_inv g1).count_eq]; decide)
    (by rw [(StatesMmr.reachable_inv g1).count_eq]; decide)
  have g3 := g2.shrinkTo 1 (by rw [(StatesMmr.reachable_inv g2).count_eq]; decide)
  have g4 := g3.setState 2 9 (by rw [(StatesMmr.reachable_inv g3).count_eq]; decide)
  have g5 := g4.append 9 (by rw [(StatesMmr.reachable_inv g4).count_eq]; decide)
    (by rw [(StatesMmr.reachable_inv g4).count_eq]; decide)
  exact ⟨⟨h4, streamMmr_cache_coherent.1 h4⟩, ⟨g5, streamMmr_cache_coherent.2 g5⟩⟩

/-! ## Growing the stream with `ResizeTo` -/

/-- `get_Hash` of one leaf loads it. -/
theorem getHash_one {σ : Type} (hJ : α → α → α) (st : Store σ α) (zero : α) (s : σ) :
    getHash hJ st zero 1 s = st.load 0 0 s := by
  -- past the one peak, the loop has nothing left
  have hstop : ∀ (hv : Option α) (s' : σ), hashForRangeLoop hJ st 1 0 0 hv s' = (hv, s') := by
    intro hv s'
    rw [hashForRangeLoop]
    simp
  rw [getHash, getHashForRange, hashForRangeLoop]
  simp [hstop]

/-- **Growing by `ResizeTo` serves a stale hash.**  After `Append(5)`,
`ResizeTo(0)` deletes the row of the stream and `ResizeTo(1)` inserts it again
as a zero blob, while the cache still holds `5` for the leaf: `get_Hash`
through the cache is `5`, and with no cache it is the zero hash. -/
theorem resizeTo_regrow_stale :
    let s := StreamMmr.resizeTo 0 true
      (StreamMmr.resizeTo 0 true (StreamMmr.append Nat.add 0 true (StreamMmr.store true) empty 5) 0) 1
    s.count = 1 ∧ (getHash Nat.add (StreamMmr.store true) 0 s.count s).1 = 5 ∧
      (getHash Nat.add (StreamMmr.streamStore true) 0 s.count s.stream).1 = 0 := by
  intro s
  have happ : StreamMmr.append Nat.add 0 true (StreamMmr.store true) empty 5 =
      StreamMmr.saveElement true (StreamMmr.resizeTo 0 true empty 1) 0 0 5 :=
    replaceLoop_of_even rfl le_rfl
  have hidx : FlatMmr.pos2Idx 0 0 true = 0 := by
    rw [pos2Idx_of_le (show (1 : Nat) ≤ 2 ^ 63 by decide) (by decide), exactIdx_eq]
    exact total_zero
  have h0 : FlatMmr.getTotalHashes 0 true = 0 := by
    rw [getTotalHashes_eq (by decide)]
    exact total_zero
  have h1 : FlatMmr.getTotalHashes 1 true = 1 := by
    rw [getTotalHashes_eq (by decide), show exactTotal 1 true = total 1 from rfl, total_eq, show 1 / 2 = 0 from rfl,
      total_zero]
  refine ⟨rfl, ?_, ?_⟩
  · show (getHash Nat.add (StreamMmr.store true) 0 1 s).1 = 5
    rw [getHash_one]
    simp only [s, happ]
    decide
  · show (getHash Nat.add (StreamMmr.streamStore true) 0 1 s.stream).1 = 0
    rw [getHash_one]
    simp only [s, StreamMmr.streamStore, StreamMmr.resizeTo, empty, hidx, h0, h1]
    decide

end Beam.NodeDB
