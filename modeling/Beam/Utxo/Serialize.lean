import Mathlib.Algebra.Order.Ring.Nat
import Beam.Utxo.Tree
import Beam.RadixTree.Entries

/-!
# Saving and loading the `UtxoTree`

`UtxoTree::SaveIntenral` writes `Count()`, then for each leaf in key order its
key, `get_Count()` and its IDs, from the top of the stack down.
`UtxoTree::LoadIntenral` reads them back: for each leaf it checks that the key
is above the previous one, creates the leaf with `Find`, puts the first ID in
`m_ID` and hands each further one to `PushID`.

The archive is modelled as the sequence of values `ISerializer::Process` sees,
each a `uint32_t`, a `uint64_t` or a key.  A load that asks for a value where the
archive has none, or has one of another type, fails; the binary archive throws
at its end, and would misread bytes of another type, which no saved archive
makes it do.

`PushID` puts each ID it is given on top, so the ID written first, the top of
the saved stack, ends at the bottom of the loaded one:

* `load_save`: loading what was saved gives back every key with its count, and
  each ID stack reversed (`MyLeaf.reverse`);
* so a leaf with two IDs pops them in the other order after a reload.
-/

namespace Beam.UtxoTree

open RadixTree MyLeaf

/-- A value handed to `ISerializer::Process`. -/
inductive Item where
  | u32 (n : UInt32)
  | u64 (n : UInt64)
  | key (k : Key)
  deriving DecidableEq, Repr

namespace MyLeaf

/-- The IDs of a leaf from the top of the stack down, as `SaveIntenral` walks
them from `m_pTop` along `m_pNext`; a leaf without a stack has `m_ID` only. -/
def ids : MyLeaf → List TxoID
  | single id => [id]
  | ext q => q.top

/-- The leaf as `PushID` and `PopID` keep it: a stack holds at least two IDs and
`m_Count` is their number. -/
def Valid : MyLeaf → Prop
  | single _ => True
  | ext q => 2 ≤ q.top.length ∧ q.count.toNat = q.top.length

/-- The same leaf with its ID stack upside down. -/
def reverse : MyLeaf → MyLeaf
  | single id => single id
  | ext q => ext ⟨q.top.reverse, q.count⟩

end MyLeaf

/-! ## `SaveIntenral` -/

section Save

variable {H : Type}

/-- What the traveler's `OnLeaf` processes for one leaf: the key, `get_Count()`
and the IDs. -/
def leafItems (k : Key) (x : MyLeaf) : List Item :=
  .key k :: .u32 x.getCount :: x.ids.map .u64

/-- The `OnLeaf` of `SaveIntenral`'s traveler; it never stops the walk. -/
def saveLeaf (s : List Item) (_ : CursorBase) (k : Key) (x : MyLeaf) : Bool × List Item :=
  (true, s ++ leafItems k x)

/-- `UtxoTree::SaveIntenral`: `Count()` cut to a `uint32_t`, then every leaf. -/
def saveIntenral (t : RadixTree MyLeaf H) : List Item :=
  (t.traverse saveLeaf ⟨none, none⟩ [.u32 (UInt32.ofNat t.count)]).2

theorem runLeaves_saveLeaf (nBits : Nat) (ls : List (List Bool × Key × MyLeaf)) (s : List Item) :
    runLeaves saveLeaf nBits ls s = (true, s ++ ls.flatMap fun l => leafItems l.2.1 l.2.2) := by
  induction ls generalizing s with
  | nil => simp [runLeaves]
  | cons l ls ih =>
    obtain ⟨p, k, x⟩ := l
    simp [runLeaves, saveLeaf, ih]

/-- **What `SaveIntenral` writes**: the count, then each leaf's items in key order. -/
theorem saveIntenral_eq {nBits : Nat} {t : RadixTree MyLeaf H} (hwf : t.WF nBits) :
    saveIntenral t = .u32 (UInt32.ofNat t.count) :: t.entries.flatMap fun e => leafItems e.1 e.2 := by
  have hall : ∀ l ∈ t.leaves, InBounds nBits ⟨none, none⟩ l.2.1 := fun _ _ => by simp [InBounds]
  rw [saveIntenral, (traverse_bounds hwf saveLeaf ⟨none, none⟩ _).1, List.filter_eq_self.2 (by simpa using hall),
    runLeaves_saveLeaf, ← map_snd_leaves, List.flatMap_map]
  rfl

end Save

/-! ## `LoadIntenral` -/

section Load

variable {H : Type} [Inhabited H]

/-- The text the deserializer throws at the end of its buffer. -/
def underflow : String := "deserialize buffer underflow"

/-- `Process(uint32_t&)` on the load side. -/
def readU32 : List Item → Except String (UInt32 × List Item)
  | .u32 n :: s => .ok (n, s)
  | _ => .error underflow

/-- `Process(uint64_t&)` on the load side. -/
def readU64 : List Item → Except String (UInt64 × List Item)
  | .u64 n :: s => .ok (n, s)
  | _ => .error underflow

/-- `Process(Key&)` on the load side. -/
def readKey : List Item → Except String (Key × List Item)
  | .key k :: s => .ok (k, s)
  | _ => .error underflow

/-- The loop `while (--n2)`, entered with `n2 - 1` passes left: each reads an ID
and pushes it on the leaf at the cursor. -/
def loadIDs (cu : CursorBase) : Nat → RadixTree MyLeaf H → List Item →
    Except String (RadixTree MyLeaf H × List Item)
  | 0, t, s => .ok (t, s)
  | k + 1, t, s => do
    let (val, s) ← readU64 s
    loadIDs cu k (t.updateLeaf cu (pushID val)) s

/-- One pass of the loop over the leaves: the key, checked against the previous
one, the leaf created by `Find`, `n2`, `m_ID` and the `n2 - 1` other IDs.  `m_ID`
is read after `Find` has created the leaf; the model creates it with the ID read.
A `uint32` `n2` of zero wraps in `--n2`, so the loop then runs `2^32 - 1` times. -/
def loadLeaf (nBits : Nat) (keyPrev : Option Key) (t : RadixTree MyLeaf H) (s : List Item) :
    Except String (Key × RadixTree MyLeaf H × List Item) := do
  let (key, s) ← readKey s
  -- must be in ascending order
  if keyPrev.any fun kp => cmp kp key 0 nBits != .lt then throw "incorrect order"
  let (n2, s) ← readU32 s
  let (id, s) ← readU64 s
  let r := t.find key nBits true (single id)
  let (t, s) ← loadIDs r.cu (n2 - 1).toNat r.tree s
  pure (key, t, s)

/-- The loop `for (i = 0; i < n; i++)`, with the key of the pass before. -/
def loadLoop (nBits : Nat) : Nat → Option Key → RadixTree MyLeaf H → List Item →
    Except String (RadixTree MyLeaf H × List Item)
  | 0, _, t, s => .ok (t, s)
  | i + 1, keyPrev, t, s => do
    let (key, t, s) ← loadLeaf nBits keyPrev t s
    loadLoop nBits i (some key) t s

/-- `UtxoTree::LoadIntenral` over keys of `nBits` bits: `Clear()`, the count, then
that many leaves. -/
def loadIntenral (nBits : Nat) (s : List Item) : Except String (RadixTree MyLeaf H × List Item) := do
  let (n, s) ← readU32 s
  loadLoop nBits n.toNat none ⟨none⟩ s

end Load

/-! ## Loading what was saved -/

section RoundTrip

variable {H : Type} [Inhabited H] {nBits : Nat}

/-- The pushes of `while (--n2)`, in the order the IDs are read. -/
def pushAll (ids : List TxoID) (x : MyLeaf) : MyLeaf := ids.foldl (fun y v => pushID v y) x

theorem pushAll_ext (ids : List TxoID) (q : IDQueue) :
    pushAll ids (ext q) = ext ⟨ids.reverse ++ q.top, q.count + UInt32.ofNat ids.length⟩ := by
  induction ids generalizing q with
  | nil => simp [pushAll]
  | cons v ids ih =>
    rw [pushAll, List.foldl_cons, ← pushAll, pushID, ih]
    simp only [pushIDRaw, List.reverse_cons, List.append_assoc, List.singleton_append, List.length_cons,
      UInt32.ofNat_add, ext.injEq, IDQueue.mk.injEq, true_and]
    rw [show UInt32.ofNat 1 = 1 from rfl, UInt32.add_assoc, UInt32.add_comm 1]

/-- **What `LoadIntenral` makes of the IDs `SaveIntenral` wrote for a leaf**: the
first goes to `m_ID`, and pushing the others on top turns the stack upside down. -/
theorem MyLeaf.Valid.load {x : MyLeaf} (hx : x.Valid) :
    ∃ a rest, x.ids = a :: rest ∧ (x.getCount - 1).toNat = rest.length ∧
      pushAll rest (single a) = x.reverse := by
  cases x with
  | single id => exact ⟨id, [], rfl, by simp [getCount], rfl⟩
  | ext q =>
    obtain ⟨hlen, hcount⟩ := hx
    obtain ⟨a, b, rest, htop⟩ : ∃ a b rest, q.top = a :: b :: rest := by
      match h : q.top, hlen with
      | a :: b :: rest, _ => exact ⟨a, b, rest, rfl⟩
    rw [htop, List.length_cons, List.length_cons] at hcount
    have hlt := q.count.toNat_lt
    refine ⟨a, b :: rest, by simp [ids, htop], ?_, ?_⟩
    · rw [getCount, UInt32.toNat_sub_of_le _ _ (by rw [UInt32.le_iff_toNat_le]; simp; omega)]
      simp [hcount]
    · rw [pushAll, List.foldl_cons, ← pushAll, pushID, pushAll_ext, MyLeaf.reverse, htop]
      simp only [pushIDRaw, List.reverse_cons, List.append_assoc, List.singleton_append, ext.injEq,
        IDQueue.mk.injEq, true_and]
      apply UInt32.toNat_inj.mp
      simp [UInt32.toNat_add, UInt32.toNat_ofNat]
      omega

omit [Inhabited H] in
theorem loadIDs_push {t : RadixTree MyLeaf H} {cu : CursorBase} {key : Key} (hon : t.OnKey cu key)
    (ids : List TxoID) (rest : List Item) :
    loadIDs cu ids.length t (ids.map .u64 ++ rest) = .ok (t.updateLeaf cu (pushAll ids), rest) := by
  induction ids generalizing t with
  | nil =>
    rw [show pushAll [] = id from rfl, updateLeaf_id]
    rfl
  | cons v ids ih =>
    change loadIDs cu ids.length (t.updateLeaf cu (pushID v)) (ids.map .u64 ++ rest) = _
    rw [ih (hon.updateLeaf _), updateLeaf_updateLeaf hon]
    rfl

/-- **One leaf read back**: its key passes the order check, `Find` creates it, and
the leaf ends with its stack upside down. -/
theorem loadLeaf_leafItems (hn : 0 < nBits) {t : RadixTree MyLeaf H} (hwf : t.WF nBits) {key : Key}
    {x : MyLeaf} (hlen : key.length = nBits) (hk : key ∉ t.keys) (hx : x.Valid) {keyPrev : Option Key}
    (hprev : ∀ kp ∈ keyPrev, cmp kp key 0 nBits = .lt) (rest : List Item) :
    ∃ t', loadLeaf nBits keyPrev t (leafItems key x ++ rest) = .ok (key, t', rest) ∧ t'.WF nBits ∧
      t'.entries.Perm ((key, x.reverse) :: t.entries) := by
  obtain ⟨a, ids, hids, hcnt, hrev⟩ := hx.load
  have hcheck : (keyPrev.any fun kp => cmp kp key 0 nBits != .lt) = false := by
    cases keyPrev with
    | none => rfl
    | some kp => simp [hprev kp rfl]
  obtain ⟨-, -, hwf', -, hon⟩ := find_create hn hwf hlen hk (single a)
  refine ⟨(t.find key nBits true (single a)).tree.updateLeaf (t.find key nBits true (single a)).cu
    (pushAll ids), ?_, hwf'.updateLeaf hon _, ?_⟩
  · simp only [loadLeaf, leafItems, hids, List.map_cons, List.cons_append, readKey, readU32, readU64, hcheck,
      hcnt, loadIDs_push hon, bind, Except.bind, Bool.false_eq_true, ↓reduceIte, pure, Except.pure]
  · rw [entries_updateLeaf hwf' hon]
    refine ((entries_find_create hn hwf hlen hk (single a)).map _).trans ?_
    rw [List.map_cons, if_pos rfl, hrev, map_update_of_not_mem (by rwa [map_fst_entries])]

/-- **The loop over the leaves**: leaves of ascending keys, each above the key
before and none in the tree yet, are read back one after the other. -/
theorem loadLoop_leafItems (hn : 0 < nBits) (rest : List Item) :
    ∀ (l : List (Key × MyLeaf)) (keyPrev : Option Key) (t : RadixTree MyLeaf H), t.WF nBits →
      (∀ e ∈ l, e.1.length = nBits ∧ e.1 ∉ t.keys ∧ e.2.Valid ∧ ∀ kp ∈ keyPrev, cmp kp e.1 0 nBits = .lt) →
      (l.map Prod.fst).Pairwise (fun a b => cmp a b 0 nBits = .lt) →
      ∃ t', loadLoop nBits l.length keyPrev t (l.flatMap (fun e => leafItems e.1 e.2) ++ rest) = .ok (t', rest) ∧
        t'.WF nBits ∧ t'.entries.Perm (t.entries ++ l.map fun e => (e.1, e.2.reverse)) := by
  intro l
  induction l with
  | nil => exact fun _ t hwf _ _ => ⟨t, rfl, hwf, by simp⟩
  | cons e l ih =>
    intro keyPrev t hwf hl hpw
    obtain ⟨hlen, hk, hx, hprev⟩ := hl e List.mem_cons_self
    rw [List.map_cons, List.pairwise_cons] at hpw
    obtain ⟨t1, h1, hwf1, hp1⟩ :=
      loadLeaf_leafItems hn hwf hlen hk hx hprev (l.flatMap (fun e => leafItems e.1 e.2) ++ rest)
    -- the keys still to come are above `e.1`, so neither it nor the tree holds them
    have hkeys1 : t1.keys.Perm (e.1 :: t.keys) := by
      simpa [← map_fst_entries] using hp1.map Prod.fst
    have hl1 : ∀ e' ∈ l, e'.1.length = nBits ∧ e'.1 ∉ t1.keys ∧ e'.2.Valid ∧
        ∀ kp ∈ some e.1, cmp kp e'.1 0 nBits = .lt := by
      intro e' he'
      obtain ⟨hlen', hk', hx', -⟩ := hl e' (List.mem_cons_of_mem _ he')
      have hlt := hpw.1 e'.1 (List.mem_map_of_mem he')
      have hne : e'.1 ≠ e.1 := fun h => by rw [h, cmp_self] at hlt; exact Ordering.noConfusion hlt
      refine ⟨hlen', fun hmem => ?_, hx', fun kp hkp => by cases hkp; exact hlt⟩
      rcases List.mem_cons.1 (hkeys1.subset hmem) with h | h
      · exact hne h
      · exact hk' h
    obtain ⟨t', h', hwf', hp'⟩ := ih (some e.1) t1 hwf1 hl1 hpw.2
    refine ⟨t', ?_, hwf', ?_⟩
    · simp only [List.length_cons, List.flatMap_cons, List.append_assoc, loadLoop, h1, bind, Except.bind, h']
    · calc List.Perm t'.entries (t1.entries ++ l.map fun e => (e.1, e.2.reverse)) := hp'
        List.Perm _ (((e.1, e.2.reverse) :: t.entries) ++ l.map fun e => (e.1, e.2.reverse)) :=
          hp1.append_right _
        List.Perm _ (t.entries ++ (e.1, e.2.reverse) :: l.map fun e => (e.1, e.2.reverse)) := by
          rw [List.cons_append]
          exact List.perm_middle.symm

/-- **Loading what `SaveIntenral` wrote rebuilds the tree with every ID stack
upside down.**  For a well-formed tree whose leaves are as `PushID` and `PopID`
keep them and whose count fits in the `uint32_t` that is written, the load reads
exactly what was saved, and the tree it builds holds the same keys, each with
the same count and its IDs in the reverse order. -/
theorem load_save (hn : 0 < nBits) {t : RadixTree MyLeaf H} (hwf : t.WF nBits)
    (hvalid : ∀ e ∈ t.entries, e.2.Valid) (hcount : t.count < 2 ^ 32) (rest : List Item) :
    ∃ t' : RadixTree MyLeaf H, loadIntenral nBits (saveIntenral t ++ rest) = .ok (t', rest) ∧ t'.WF nBits ∧
      t'.entries.Perm (t.entries.map fun e => (e.1, e.2.reverse)) := by
  have hlen : (UInt32.ofNat t.count).toNat = t.entries.length := by
    rw [UInt32.toNat_ofNat_of_lt' hcount, count_eq_length, ← map_fst_entries, List.length_map]
  have hl : ∀ e ∈ t.entries, e.1.length = nBits ∧ e.1 ∉ (⟨none⟩ : RadixTree MyLeaf H).keys ∧ e.2.Valid ∧
      ∀ kp ∈ (none : Option Key), cmp kp e.1 0 nBits = .lt := fun e he =>
    ⟨hwf.keys_length _ (map_fst_entries t ▸ List.mem_map_of_mem he), List.not_mem_nil, hvalid e he,
      fun _ h => by cases h⟩
  obtain ⟨t', h', hwf', hp'⟩ := loadLoop_leafItems hn rest t.entries none ⟨none⟩ trivial hl
    (by rw [map_fst_entries]; exact hwf.keys_ascending)
  refine ⟨t', ?_, hwf', by simpa [entries] using hp'⟩
  simp only [saveIntenral_eq hwf, loadIntenral, List.cons_append, readU32, bind, Except.bind, hlen, h']

/-- Two leaves of two-bit keys, one with a single ID and one with the stack 3 on
top of 2: the load gives back both keys, and the stack as 2 on top of 3. -/
theorem load_save_two_leaves :
    let t := (((⟨none⟩ : RadixTree MyLeaf Nat).find [false, true] 2 true (.single 1)).tree.find
      [true, false] 2 true (.ext ⟨[3, 2], 2⟩)).tree
    ∃ t' : RadixTree MyLeaf Nat, loadIntenral 2 (saveIntenral t ++ []) = .ok (t', []) ∧ t'.WF 2 ∧
      t'.entries.Perm (t.entries.map fun e => (e.1, e.2.reverse)) := by
  intro t
  have w0 : (⟨none⟩ : RadixTree MyLeaf Nat).WF 2 := trivial
  have w2 := (w0.find_absent (by decide) (show [false, true].length = 2 from rfl) (by simp [keys]) (.single 1)).find_absent
    (by decide) (show [true, false].length = 2 from rfl) (by decide) (.ext ⟨[3, 2], 2⟩)
  have hentries : t.entries = [([false, true], .single 1), ([true, false], .ext ⟨[3, 2], 2⟩)] := by decide
  have hvalid : ∀ e ∈ t.entries, e.2.Valid := by
    rw [hentries]
    simp [Valid]
  exact load_save (by decide) w2 hvalid (by decide) []

end RoundTrip

/-- A leaf created with ID 1 and then given ID 2, as `Find` and `PushID` leave it,
pops 2 first; saved and loaded again, it pops 1 first. -/
theorem save_load_pops_in_reverse :
    let k : Key := List.replicate sBits false
    let r := (⟨none⟩ : RadixTree MyLeaf Nat).find k sBits true (.single 1)
    let t := (r.tree.updateLeaf r.cu (pushID 2)).invalidateElement r.cu
    (t.entries.map fun e => (popID e.2).1) = [2] ∧
      ((loadIntenral sBits (saveIntenral t) : Except String (RadixTree MyLeaf Nat × List Item)).toOption.map
        fun r => r.1.entries.map fun e => (popID e.2).1) = some [1] := by
  decide

end Beam.UtxoTree
