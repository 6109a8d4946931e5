import Beam.Merkle.MmrSpec

/-!
# Stores that keep every tree, and a store that keeps none

* `PointsTo`: an `Mmr` whose every position reads back a hash (`pt s h x v`),
  which a load returns and a save sets, each leaving the other positions as they
  read; a load may change the state, as the cache of `NodeDB::StreamMmr` does,
  and a position may keep only the hashes that `fit` there, as a leaf of
  `NodeDB::StatesMmr` keeps only the hash of its state.
  Once the leaves are appended, every full position reads its tree (`HoldsAt`,
  kept by `append_holds` and `replace_holds`), so the loads are those of
  `MmrSpec` (`PointsTo.loadsNodes`).
* `TableLike`: an `Mmr` whose `LoadElement` returns what `SaveElement` last
  stored at the position and changes nothing, as the test's `MyMmr`
  (`tableStore`) and `FixedMmr` do: a `PointsTo` store (`TableLike.pointsTo`).
* `FlyMmr`: `FlyMmr::Inner` computes every tree from the leaves on each load
  (`calculate`), which is the tree itself (`calculate_eq_node`).
-/

namespace Beam.Merkle

open MountainRange

variable {α : Type} (hJ : α → α → α)

/-! ## Positions that read back a hash -/

/-- A store in which every position of at most `cap` leaves reads a hash, as long
as its state is `ok`: `pt s h x v` says that `(h, x)` reads `v` in `s`.  A load
returns what its position reads and keeps what every position reads; a save
makes its position read the hash if the hash `fits` there, and keeps what every
other position reads. -/
structure PointsTo (st : Store σ α) (ok : σ → Prop) (fits : Nat → Nat → α → Prop) (pt : σ → Nat → Nat → α → Prop)
    (cap : Nat) : Prop where
  load : ∀ s h x v, ok s → (x + 1) * 2 ^ h ≤ cap → pt s h x v → (st.load h x s).1 = v
  load_ok : ∀ s h x v, ok s → (x + 1) * 2 ^ h ≤ cap → pt s h x v → ok (st.load h x s).2
  load_frame : ∀ s h x v, ok s → (x + 1) * 2 ^ h ≤ cap → pt s h x v → ∀ h' y w, (y + 1) * 2 ^ h' ≤ cap →
    pt s h' y w → pt (st.load h x s).2 h' y w
  save_ok : ∀ s h x v, ok s → (x + 1) * 2 ^ h ≤ cap → ok (st.save h x v s)
  save_pt : ∀ s h x v, ok s → (x + 1) * 2 ^ h ≤ cap → fits h x v → pt (st.save h x v s) h x v
  save_frame : ∀ s h x v, ok s → (x + 1) * 2 ^ h ≤ cap → ∀ h' y w, (y + 1) * 2 ^ h' ≤ cap →
    ¬(h' = h ∧ y = x) → pt s h' y w → pt (st.save h x v s) h' y w

/-- Every full position of `count` leaves reads the tree of `f` there. -/
def HoldsAt (pt : σ → Nat → Nat → α → Prop) (f : Nat → α) (count : Nat) (s : σ) : Prop :=
  ∀ h x, (x + 1) * 2 ^ h ≤ count → pt s h x (node hJ f h x)

/-! ## A table of positions -/

/-- The table behind `LoadElement` / `SaveElement` of the test's `MyMmr`: a load
reads the position, a save overwrites it. -/
def tableStore : Store (Nat → Nat → α) α where
  load h x s := (s h x, s)
  save h x v s := fun h' x' => if h' = h ∧ x' = x then v else s h' x'

/-- A store that reads back, through `view`, what it last wrote at each position
of at most `cap` leaves, as long as its state is `ok`. -/
structure TableLike (st : Store σ α) (view : σ → Nat → Nat → α) (ok : σ → Prop) (cap : Nat) : Prop where
  load : ∀ s h x, ok s → (x + 1) * 2 ^ h ≤ cap → st.load h x s = (view s h x, s)
  save_ok : ∀ s h x v, ok s → (x + 1) * 2 ^ h ≤ cap → ok (st.save h x v s)
  save_view : ∀ s h x v, ok s → (x + 1) * 2 ^ h ≤ cap → ∀ h' y, (y + 1) * 2 ^ h' ≤ cap →
    view (st.save h x v s) h' y = if h' = h ∧ y = x then v else view s h' y

theorem tableLike_tableStore (cap : Nat) : TableLike (tableStore (α := α)) (fun s => s) (fun _ => True) cap :=
  ⟨fun _ _ _ _ _ => rfl, fun _ _ _ _ _ _ => trivial, fun _ _ _ _ _ _ _ _ _ => rfl⟩

/-- The table holds the tree of `f` at every full position of `count` leaves. -/
def Holds (f : Nat → α) (count : Nat) (s : Nat → Nat → α) : Prop :=
  ∀ h x, (x + 1) * 2 ^ h ≤ count → s h x = node hJ f h x

section Table

variable {hJ} {st : Store σ α} {view : σ → Nat → Nat → α} {ok : σ → Prop} {fits : Nat → Nat → α → Prop}
  {pt : σ → Nat → Nat → α → Prop} {cap : Nat}

/-- A table's position reads what its view shows there, and keeps any hash. -/
theorem TableLike.pointsTo (ht : TableLike st view ok cap) :
    PointsTo st ok (fun _ _ _ => True) (fun s h x v => view s h x = v) cap where
  load s h x _ hs hx hv := by rw [ht.load s h x hs hx]; exact hv
  load_ok s h x _ hs hx _ := by rw [ht.load s h x hs hx]; exact hs
  load_frame s h x _ hs hx _ _ _ _ _ hw := by rw [ht.load s h x hs hx]; exact hw
  save_ok := ht.save_ok
  save_pt s h x v hs hx _ := by rw [ht.save_view s h x v hs hx h x hx, if_pos ⟨rfl, rfl⟩]
  save_frame s h x v hs hx h' y _ hy hne hw := by rw [ht.save_view s h x v hs hx h' y hy, if_neg hne]; exact hw

theorem PointsTo.loadsNodes (hp : PointsTo st ok fits pt cap) (f : Nat → α) {count : Nat} (hcap : count ≤ cap) :
    LoadsNodes hJ st (fun s => ok s ∧ HoldsAt hJ pt f count s) f count := by
  intro s h x hs hx
  have hv := hs.2 h x hx
  refine ⟨hp.load s h x _ hs.1 (by omega) hv, hp.load_ok s h x _ hs.1 (by omega) hv, fun h' y hy => ?_⟩
  exact hp.load_frame s h x _ hs.1 (by omega) hv h' y _ (by omega) (hs.2 h' y hy)

theorem loadsNodes_tableLike (ht : TableLike st view ok cap) (f : Nat → α) {count : Nat} (hcap : count ≤ cap) :
    LoadsNodes hJ st (fun s => ok s ∧ Holds hJ f count (view s)) f count :=
  ht.pointsTo.loadsNodes f hcap

/-- Of two trees that end at the same leaf, the higher one is over an even
number of trees of the lower one's height, unless it is that one. -/
theorem eq_of_succ_mul_two_pow_eq {h h' x y : Nat} (hodd : x % 2 = 0) (hle : h ≤ h')
    (heq : (y + 1) * 2 ^ h' = (x + 1) * 2 ^ h) : h' = h ∧ y = x := by
  obtain ⟨d, rfl⟩ := Nat.exists_eq_add_of_le hle
  have hd : (y + 1) * 2 ^ d = x + 1 := by
    rw [Nat.pow_add, ← Nat.mul_assoc, Nat.mul_right_comm] at heq
    exact Nat.eq_of_mul_eq_mul_right (Nat.two_pow_pos h) heq
  rcases d with _ | d
  · simp at hd
    exact ⟨rfl, by omega⟩
  · rw [Nat.pow_succ] at hd
    have : (y + 1) * (2 ^ d * 2) = 2 * ((y + 1) * 2 ^ d) := by ring
    omega

variable {f' : Nat → α} {count : Nat}

/-- After a save of the tree at `(h, x)`, where it fits, that position reads it,
and every other position that read its tree still does. -/
theorem PointsTo.save_node (hp : PointsTo st ok fits pt cap) {s : σ} (hs : ok s) {h x : Nat}
    (hx : (x + 1) * 2 ^ h ≤ cap) (hfit : fits h x (node hJ f' h x)) {h' y : Nat} (hy : (y + 1) * 2 ^ h' ≤ cap)
    (hprev : ¬(h' = h ∧ y = x) → pt s h' y (node hJ f' h' y)) :
    pt (st.save h x (node hJ f' h x) s) h' y (node hJ f' h' y) := by
  by_cases hxy : h' = h ∧ y = x
  · obtain ⟨rfl, rfl⟩ := hxy
    exact hp.save_pt s h' y _ hs hx hfit
  · exact hp.save_frame s h x _ hs hx h' y _ hy hxy (hprev hxy)

/-- **`Replace` of the new last leaf saves every tree it completes.**  At height
`h` the loop stands at the tree `(h, x)` that ends at the new leaf; the trees
below `h` and the trees that were full before already read their trees; the
loop saves `(h, x)`, and goes up while `x` is a right child.  The trees that end
at the new leaf and are not saved yet may read anything. -/
theorem replaceLoop_holds (hp : PointsTo st ok fits pt cap) (hcap : count + 1 ≤ cap)
    (hfits : ∀ h x, (x + 1) * 2 ^ h ≤ count + 1 → fits h x (node hJ f' h x)) :
    ∀ (n h x : Nat) (s : σ), ok s → (x + 1) * 2 ^ h = count + 1 → n = (count + 1) / 2 ^ h →
      (∀ h' y, (y + 1) * 2 ^ h' ≤ count + 1 → h' < h ∨ (y + 1) * 2 ^ h' ≤ count → pt s h' y (node hJ f' h' y)) →
      ok (replaceLoop hJ st h x n (node hJ f' h x) s) ∧
        HoldsAt hJ pt f' (count + 1) (replaceLoop hJ st h x n (node hJ f' h x) s) := by
  intro n
  induction n using Nat.strong_induction_on with
  | _ n ih =>
    intro h x s hs hx hn hprev
    have hp2 : 0 < 2 ^ h := Nat.two_pow_pos h
    have hnx : n = x + 1 := by rw [hn, ← hx, Nat.mul_div_cancel _ hp2]
    have hs1 := hp.save_ok s h x (node hJ f' h x) hs (by omega)
    -- after the save, `(h, x)` reads its tree too
    have hsaved : ∀ h' y, (y + 1) * 2 ^ h' ≤ count + 1 → h' < h ∨ (y + 1) * 2 ^ h' ≤ count ∨ (h' = h ∧ y = x) →
        pt (st.save h x (node hJ f' h x) s) h' y (node hJ f' h' y) := by
      intro h' y hy hcase
      refine hp.save_node hs (by omega) (hfits h x (by omega)) (by omega) fun hne => hprev h' y hy ?_
      rcases hcase with hlt | hfull | heq
      · exact Or.inl hlt
      · exact Or.inr hfull
      · exact absurd heq hne
    rcases Nat.mod_two_eq_zero_or_one x with hpar | hpar
    · -- a left child: nothing above it is complete
      rw [replaceLoop_of_even hpar (by omega)]
      refine ⟨hs1, fun h' y hy => hsaved h' y hy ?_⟩
      by_cases hlt : h' < h
      · exact Or.inl hlt
      by_cases hfull : (y + 1) * 2 ^ h' ≤ count
      · exact Or.inr (Or.inl hfull)
      · exact Or.inr (Or.inr (eq_of_succ_mul_two_pow_eq hpar (by omega) (by omega)))
    · -- a right child: hash in the left sibling and go up
      have hsib := sibling_full hx hpar
      have hsibv := hsaved h (x - 1) (by omega) (Or.inr (Or.inl hsib))
      rw [replaceLoop_of_odd hpar (by omega), hp.load _ h (x - 1) _ hs1 (by omega) hsibv,
        show hJ (node hJ f' h (x - 1)) (node hJ f' h x) = node hJ f' (h + 1) (x / 2) from node_succ_of_odd hpar]
      refine ih (n / 2) (by omega) (h + 1) (x / 2) _ (hp.load_ok _ h (x - 1) _ hs1 (by omega) hsibv)
        (parent_end hx hpar) (count_div_succ hn) ?_
      intro h' y hy hcase
      refine hp.load_frame _ h (x - 1) _ hs1 (by omega) hsibv h' y _ (by omega) (hsaved h' y hy ?_)
      rcases hcase with hlt | hfull
      · by_cases hh : h' = h
        · -- another tree of height `h` before the new one was already full
          subst hh
          by_cases hyx : y = x
          · exact Or.inr (Or.inr ⟨rfl, hyx⟩)
          right; left
          have hyx' : y < x := by
            have : y + 1 ≤ x + 1 := Nat.le_of_mul_le_mul_right (by omega) hp2
            omega
          have : (y + 1) * 2 ^ h' ≤ x * 2 ^ h' := Nat.mul_le_mul_right _ hyx'
          have : (x + 1) * 2 ^ h' = x * 2 ^ h' + 2 ^ h' := by ring
          omega
        · left; omega
      · exact Or.inr (Or.inl hfull)

/-- **`Append` keeps every tree in place.**  After appending `v`, every full
position reads the tree of the leaves with `v` after the first `count`: those
that ended at the old leaves read their trees already. -/
theorem append_holds (hp : PointsTo st ok fits pt cap) (hcap : count + 1 ≤ cap)
    (hfits : ∀ h x, (x + 1) * 2 ^ h ≤ count + 1 → fits h x (node hJ f' h x)) {f : Nat → α} {s : σ} (hok : ok s)
    (hs : HoldsAt hJ pt f count s) {v : α} (hf' : ∀ i < count, f' i = f i) (hnew : f' count = v) :
    ok (append hJ st count v s).2 ∧ HoldsAt hJ pt f' (count + 1) (append hJ st count v s).2 := by
  have hv : v = node hJ f' 0 count := by rw [node_zero, hnew]
  rw [append, replace, hv]
  refine replaceLoop_holds hp hcap hfits (count + 1) 0 count s hok (by simp) (by simp) ?_
  intro h' y _ hcase
  rcases hcase with hlt | hfull
  · omega
  · rw [node_congr fun i _ hi => hf' i (by omega)]
    exact hs h' y hfull

/-- Above a left child whose right sibling is missing, no ancestor is full: the
ancestor `d` heights up ends past the `count` leaves. -/
theorem count_lt_ancestor {h d x : Nat} (heven : x % 2 = 0) (hn : count / 2 ^ h ≤ x + 1) (hd : 0 < d) :
    count < (x / 2 ^ d + 1) * 2 ^ (h + d) := by
  -- the leaves of the ancestor reach at least two trees of height `h` past `x`
  have hx : x + 2 ≤ (x / 2 ^ d + 1) * 2 ^ d := by
    have hmod : x % 2 ^ d % 2 = 0 := by
      rw [Nat.mod_mod_of_dvd x (dvd_pow_self 2 (Nat.pos_iff_ne_zero.mp hd))]
      exact heven
    have hpow : 2 ^ d % 2 = 0 := Nat.two_pow_mod_two_eq_zero.mpr hd
    have hlt := Nat.mod_lt x (Nat.two_pow_pos d)
    have hsplit := Nat.div_add_mod x (2 ^ d)
    have : (x / 2 ^ d + 1) * 2 ^ d = 2 ^ d * (x / 2 ^ d) + 2 ^ d := by ring
    omega
  calc count < 2 ^ h * (count / 2 ^ h + 1) := Nat.lt_mul_div_succ count (Nat.two_pow_pos h)
    _ ≤ 2 ^ h * (x + 2) := Nat.mul_le_mul_left _ (by omega)
    _ ≤ 2 ^ h * ((x / 2 ^ d + 1) * 2 ^ d) := Nat.mul_le_mul_left _ hx
    _ = (x / 2 ^ d + 1) * 2 ^ (h + d) := by rw [Nat.pow_add]; ring

/-- **`Replace` of any leaf saves every full tree above it.**  At height `h` the
loop stands at the ancestor `(h, i / 2 ^ h)` of leaf `i` with its new tree, and
every full position but the ancestors from `h` up reads its new tree.  The loop
saves the ancestor and goes up while its sibling is there; where it stops, no
ancestor above is full. -/
theorem replaceLoop_set (hp : PointsTo st ok fits pt cap) (hcap : count ≤ cap)
    (hfits : ∀ h x, (x + 1) * 2 ^ h ≤ count → fits h x (node hJ f' h x)) (i : Nat) :
    ∀ (n h : Nat) (s : σ), ok s → i / 2 ^ h < n → n = count / 2 ^ h →
      (∀ h' y, (y + 1) * 2 ^ h' ≤ count → ¬(h ≤ h' ∧ y = i / 2 ^ h') → pt s h' y (node hJ f' h' y)) →
      ok (replaceLoop hJ st h (i / 2 ^ h) n (node hJ f' h (i / 2 ^ h)) s) ∧
        HoldsAt hJ pt f' count (replaceLoop hJ st h (i / 2 ^ h) n (node hJ f' h (i / 2 ^ h)) s) := by
  intro n
  induction n using Nat.strong_induction_on with
  | _ n ih =>
    intro h s hs hx hn hprev
    generalize hxdef : i / 2 ^ h = x at hx hprev ⊢
    have hfull : ∀ y, y < n → (y + 1) * 2 ^ h ≤ count := fun y hy =>
      (Nat.le_div_iff_mul_le (Nat.two_pow_pos h)).mp (hn ▸ hy)
    have hxfull := hfull x hx
    have hs1 := hp.save_ok s h x (node hJ f' h x) hs (by omega)
    -- after the save, every full position reads its new tree but the ancestors above `h`
    have hnext : ∀ h' y, (y + 1) * 2 ^ h' ≤ count → ¬(h + 1 ≤ h' ∧ y = i / 2 ^ h') →
        pt (st.save h x (node hJ f' h x) s) h' y (node hJ f' h' y) := by
      intro h' y hy hanc
      refine hp.save_node hs (by omega) (hfits h x hxfull) (by omega) fun hne =>
        hprev h' y hy fun ⟨hle, hyi⟩ => hne ⟨?_, ?_⟩
      · omega
      · have : h' = h := by omega
        subst this
        exact hyi.trans hxdef
    have hup : i / 2 ^ (h + 1) = x / 2 := by rw [Nat.pow_succ, ← Nat.div_div_eq_div_mul, hxdef]
    rcases Nat.mod_two_eq_zero_or_one x with hpar | hpar
    · by_cases hstop : n ≤ x + 1
      · -- a left child without its sibling: the loop ends here
        rw [replaceLoop_of_even hpar hstop]
        refine ⟨hs1, fun h' y hy => ?_⟩
        by_cases hanc : h + 1 ≤ h' ∧ y = i / 2 ^ h'
        · obtain ⟨hle, rfl⟩ := hanc
          obtain ⟨d, rfl⟩ := Nat.exists_eq_add_of_le hle
          have hlt := count_lt_ancestor (d := d + 1) hpar (hn ▸ hstop) (Nat.succ_pos d)
          have hy' : i / 2 ^ (h + 1 + d) = x / 2 ^ (d + 1) := by
            rw [← hxdef, Nat.div_div_eq_div_mul, ← Nat.pow_add, show h + (d + 1) = h + 1 + d by omega]
          rw [hy'] at hy
          rw [show h + (d + 1) = h + 1 + d by omega] at hlt
          omega
        · exact hnext h' y hy hanc
      · -- a left child: hash in the sibling on its right and go up
        have hsibfull := hfull (x + 1) (by omega)
        have hsib := hnext h (x + 1) hsibfull (by omega)
        rw [replaceLoop_of_even_lt hpar (by omega), hp.load _ h (x + 1) _ hs1 (by omega) hsib,
          ← show node hJ f' (h + 1) (x / 2) = hJ (node hJ f' h x) (node hJ f' h (x + 1)) by
            rw [node_succ, show 2 * (x / 2) = x by omega], ← hup]
        refine ih (n / 2) (by omega) (h + 1) _ (hp.load_ok _ h (x + 1) _ hs1 (by omega) hsib) (by omega)
          (count_div_succ hn) fun h' y hy hanc => ?_
        exact hp.load_frame _ h (x + 1) _ hs1 (by omega) hsib h' y _ (by omega) (hnext h' y hy hanc)
    · -- a right child: hash in the sibling on its left and go up
      have hsibfull := hfull (x - 1) (by omega)
      have hsib := hnext h (x - 1) hsibfull (by omega)
      rw [replaceLoop_of_odd hpar (by omega), hp.load _ h (x - 1) _ hs1 (by omega) hsib,
        show hJ (node hJ f' h (x - 1)) (node hJ f' h x) = node hJ f' (h + 1) (x / 2) from node_succ_of_odd hpar, ← hup]
      refine ih (n / 2) (by omega) (h + 1) _ (hp.load_ok _ h (x - 1) _ hs1 (by omega) hsib) (by omega)
        (count_div_succ hn) fun h' y hy hanc => ?_
      exact hp.load_frame _ h (x - 1) _ hs1 (by omega) hsib h' y _ (by omega) (hnext h' y hy hanc)

/-- **`Replace` keeps every tree in place.**  Replacing leaf `i < count` by `v`
leaves every full position reading the tree of the leaves with `v` at `i`. -/
theorem replace_holds (hp : PointsTo st ok fits pt cap) (hcap : count ≤ cap) {f : Nat → α} {s : σ} (hok : ok s)
    (hs : HoldsAt hJ pt f count s) {i : Nat} (hi : i < count) (v : α)
    (hfits : ∀ h x, (x + 1) * 2 ^ h ≤ count → fits h x (node hJ (Function.update f i v) h x)) :
    ok (replace hJ st count i v s) ∧ HoldsAt hJ pt (Function.update f i v) count (replace hJ st count i v s) := by
  -- every tree that does not hold leaf `i` is unchanged
  have hprev : ∀ h' y, (y + 1) * 2 ^ h' ≤ count → ¬(0 ≤ h' ∧ y = i / 2 ^ h') →
      pt s h' y (node hJ (Function.update f i v) h' y) := by
    intro h' y hy hanc
    have hcongr : node hJ f h' y = node hJ (Function.update f i v) h' y :=
      node_congr fun j hj1 hj2 => (Function.update_of_ne (fun hji => hanc ⟨Nat.zero_le _, by
        rw [← hji, Nat.div_eq_of_lt_le hj1 hj2]⟩) _ _).symm
    rw [← hcongr]
    exact hs h' y hy
  have := replaceLoop_set hp hcap hfits i count 0 s hok (by simpa using hi) (by simp) hprev
  simpa [replace] using this

end Table

/-! ## `FlyMmr` -/

namespace FlyMmr

/-- `FlyMmr::Inner::Calculate`: a tree computed from its two halves down to the
leaves, read by `FlyMmr::LoadElement(hv, n)`. -/
def calculate (loadElement : Nat → α) : Nat → Nat → α
  | 0, x => loadElement x
  | h + 1, x => interpret hJ (calculate loadElement h (x <<< 1)) (calculate loadElement h ((x <<< 1) + 1)) true

/-- `FlyMmr::Inner`: an `Mmr` whose every load is `Calculate`; it saves nothing. -/
def inner (loadElement : Nat → α) : Store Unit α :=
  Store.ofFun (calculate hJ loadElement)

/-- `FlyMmr::get_Hash`. -/
def getHash (loadElement : Nat → α) (zero : α) (count : Nat) : α :=
  (Merkle.getHash hJ (inner hJ loadElement) zero count ()).1

/-- `FlyMmr::get_Proof` into a `ProofBuilderStd`. -/
def getProof [Inhabited α] (loadElement : Nat → α) (count i : Nat) : List (Bool × α) :=
  (Merkle.getProof hJ (inner hJ loadElement) count i ()).1

theorem calculate_eq_node (loadElement : Nat → α) : ∀ h x, calculate hJ loadElement h x = node hJ loadElement h x
  | 0, _ => rfl
  | h + 1, x => by
    rw [calculate, calculate_eq_node loadElement h, calculate_eq_node loadElement h, node_succ, Nat.shiftLeft_eq,
      Nat.pow_one, Nat.mul_comm x 2]
    rfl

theorem inner_eq (loadElement : Nat → α) : inner hJ loadElement = Store.ofFun fun h x => node hJ loadElement h x := by
  unfold inner
  congr 1
  funext h x
  exact calculate_eq_node hJ loadElement h x

end FlyMmr

end Beam.Merkle
