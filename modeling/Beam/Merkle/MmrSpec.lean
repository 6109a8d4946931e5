import Beam.Merkle.Mmr

/-!
# What `Mmr` computes

For a store whose loads give the trees `MountainRange.node hJ f` at every full
position of `count` leaves (`LoadsNodes`), and keep an invariant of its state:

* `getHashForRange_spec`, `getHash_spec`: the loop bags the peaks of the range;
  `get_Hash` is the root of the leaves;
* `getPredictedHash_spec`: `get_PredictedHash(hv)` is the root after appending `hv`;
* `proofLoop_ofFun`: a proof reads the same nodes as from the trees themselves
  (`Store.ofFun`), whatever the store;
* `interpretProof_getProof`: interpreting a leaf through its proof gives the root.

Each loop is proved by induction on its counter, one height per step; the
facts about the range it bags are those of `MountainRange`.
-/

namespace Beam.Merkle

open MountainRange

variable {σ β α : Type} (hJ : α → α → α)

/-- The store of the trees of a leaf function themselves, with no state: the
loads of `FlyMmr`. -/
def Store.ofFun (g : Nat → Nat → α) : Store Unit α :=
  ⟨fun h x _ => (g h x, ()), fun _ _ _ _ => ()⟩

/-- The loads of `st` give the trees of `f` at every full position of `count`
leaves, and keep `inv`. -/
def LoadsNodes (st : Store σ α) (inv : σ → Prop) (f : Nat → α) (count : Nat) : Prop :=
  ∀ s h x, inv s → (x + 1) * 2 ^ h ≤ count →
    (st.load h x s).1 = node hJ f h x ∧ inv (st.load h x s).2

theorem loadsNodes_ofFun (f : Nat → α) (count : Nat) :
    LoadsNodes hJ (Store.ofFun (fun h x => node hJ f h x)) (fun _ => True) f count :=
  fun _ _ _ _ _ => ⟨rfl, trivial⟩

/-- The peaks' hashes. -/
abbrev nodes (f : Nat → α) (l : List (Nat × Nat)) : List α :=
  l.map fun q => node hJ f q.1 q.2

section Spec

variable {hJ} {st : Store σ α} {inv : σ → Prop} {f : Nat → α} {count : Nat}

/-! ## `get_HashForRange` and `get_Hash` -/

/-- **The range loop bags the peaks.**  At height `h`, over `n` trees from
`n0` aligned to a power of two above `n`, it bags their peaks onto what it
has. -/
theorem hashForRangeLoop_spec (hL : LoadsNodes hJ st inv f count) :
    ∀ (n h n0 t : Nat) (acc : Option α) (s : σ), inv s → 2 ^ t ∣ n0 → n < 2 ^ t →
      (n0 + n) * 2 ^ h ≤ count →
      (hashForRangeLoop hJ st h n0 n acc s).1 = bag hJ (nodes hJ f (peaks h n0 n)) acc ∧
        inv (hashForRangeLoop hJ st h n0 n acc s).2 := by
  intro n
  induction n using Nat.strong_induction_on with
  | _ n ih =>
    intro h n0 t acc s hs hdvd hlt hle
    rw [hashForRangeLoop]
    by_cases hn : n = 0
    · subst hn
      simp [hs]
    -- the range is not empty, so `n0` is even
    obtain ⟨t, rfl⟩ : ∃ t', t = t' + 1 := ⟨t - 1, by rcases t with _ | t <;> simp_all⟩
    obtain ⟨c, hc⟩ := hdvd
    have hP : 2 ^ (t + 1) = 2 * 2 ^ t := by rw [Nat.pow_succ, Nat.mul_comm]
    have hn0 : n0 = 2 * (2 ^ t * c) := by rw [hc, hP, Nat.mul_assoc]
    have hnext : (n0 / 2 + n / 2) * 2 ^ (h + 1) ≤ count := by
      have : (n0 / 2 + n / 2) * 2 ^ (h + 1) = 2 * (n0 / 2 + n / 2) * 2 ^ h := by ring
      have h2 : 2 * (n0 / 2 + n / 2) * 2 ^ h ≤ (n0 + n) * 2 ^ h := Nat.mul_le_mul_right _ (by omega)
      omega
    have hrec := fun acc' s' hs' => ih (n / 2) (by omega) (h + 1) (n0 / 2) t acc' s' hs'
      ⟨c, by omega⟩ (by omega) hnext
    simp only [hn, ↓reduceIte, Nat.one_and_eq_mod_two, shiftRight_one]
    rcases Nat.mod_two_eq_zero_or_one n with hpar | hpar
    · -- no peak at this height
      simp only [hpar, bne_self_eq_false, Bool.false_eq_true, ↓reduceIte]
      rw [peaks_even hpar]
      exact hrec acc s hs
    · -- the last tree is a peak, loaded and hashed in on the left
      have hx : (n0 + n) ^^^ 1 = n0 + n - 1 := xor_one_of_mod_two_eq_one (by omega)
      have hfull : (n0 + n - 1 + 1) * 2 ^ h ≤ count := by rwa [Nat.sub_add_cancel (by omega)]
      obtain ⟨hv, hinv⟩ := hL s h (n0 + n - 1) hs hfull
      simp only [hpar, ne_eq, one_ne_zero, not_false_eq_true, bne_iff_ne, ↓reduceIte, hx]
      rw [peaks_odd hpar, nodes, List.map_append, bag_append]
      obtain ⟨h1, h2⟩ := hrec _ _ hinv
      refine ⟨h1.trans ?_, h2⟩
      congr 1
      rw [hv]
      cases acc <;> rfl

theorem getHashForRange_spec (hL : LoadsNodes hJ st inv f count) {n0 n t : Nat} {s : σ} (hs : inv s)
    (hdvd : 2 ^ t ∣ n0) (hlt : n < 2 ^ t) (hle : n0 + n ≤ count) :
    (getHashForRange hJ st n0 n s).1 = rangeRoot hJ f n0 n ∧ inv (getHashForRange hJ st n0 n s).2 :=
  hashForRangeLoop_spec hL n 0 n0 t none s hs hdvd hlt (by simpa using hle)

/-- **`get_Hash` is the root.** -/
theorem getHash_spec (hL : LoadsNodes hJ st inv f count) (zero : α) {s : σ} (hs : inv s) :
    (getHash hJ st zero count s).1 = (root hJ f count).getD zero ∧ inv (getHash hJ st zero count s).2 := by
  obtain ⟨h1, h2⟩ := getHashForRange_spec hL (t := count) hs (dvd_zero _) Nat.lt_two_pow_self (by simp)
  exact ⟨by simp [getHash, h1, root], h2⟩

/-! ## `get_PredictedHash` -/

theorem predictedLoop_spec (hL : LoadsNodes hJ st inv f count) :
    ∀ (x h : Nat) (hv : α) (s : σ), inv s → x * 2 ^ h ≤ count →
      (predictedLoop hJ st h x hv s).1 = (nodes hJ f (peaks h 0 x)).foldr hJ hv ∧
        inv (predictedLoop hJ st h x hv s).2 := by
  intro x
  induction x using Nat.strong_induction_on with
  | _ x ih =>
    intro h hv s hs hle
    rw [predictedLoop]
    by_cases hx : x = 0
    · subst hx
      simp [hs]
    have hnext : x / 2 * 2 ^ (h + 1) ≤ count := by
      have : x / 2 * 2 ^ (h + 1) = 2 * (x / 2) * 2 ^ h := by ring
      have h2 : 2 * (x / 2) * 2 ^ h ≤ x * 2 ^ h := Nat.mul_le_mul_right _ (by omega)
      omega
    simp only [hx, ↓reduceIte, Nat.one_and_eq_mod_two]
    rcases Nat.mod_two_eq_zero_or_one x with hpar | hpar
    · -- no peak at this height
      simp only [hpar, bne_self_eq_false, Bool.false_eq_true, ↓reduceIte, shiftRight_one]
      rw [peaks_even hpar]
      exact ih (x / 2) (by omega) (h + 1) hv s hs hnext
    · -- the peak `x - 1` is loaded and hashed in on the left
      have hfull : (x - 1 + 1) * 2 ^ h ≤ count := by rwa [Nat.sub_add_cancel (by omega)]
      obtain ⟨hv0, hinv⟩ := hL s h (x - 1) hs hfull
      simp only [hpar, ne_eq, one_ne_zero, not_false_eq_true, bne_iff_ne, ↓reduceIte,
        xor_one_of_mod_two_eq_one hpar]
      rw [shiftRight_one, show (x - 1) / 2 = x / 2 by omega, peaks_odd hpar, nodes, List.map_append,
        List.foldr_append]
      obtain ⟨h1, h2⟩ := ih (x / 2) (by omega) (h + 1) _ _ hinv hnext
      refine ⟨h1.trans ?_, h2⟩
      simp [interpret, hv0]

theorem getPredictedHash_spec (hL : LoadsNodes hJ st inv f count) (hv : α) {s : σ} (hs : inv s) :
    (getPredictedHash hJ st count hv s).1 = (nodes hJ f (peaks 0 0 count)).foldr hJ hv ∧
      inv (getPredictedHash hJ st count hv s).2 :=
  predictedLoop_spec hL count 0 hv s hs (by simp)

/-- **`get_PredictedHash` is the root after the append.**  For leaves `f'`
that keep the first `count` leaves and put `hv` after them. -/
theorem getPredictedHash_eq_root (hL : LoadsNodes hJ st inv f count) {hv : α} {f' : Nat → α}
    (hf' : ∀ i < count, f' i = f i) (hnew : f' count = hv) {s : σ} (hs : inv s) :
    some (getPredictedHash hJ st count hv s).1 = root hJ f' (count + 1) := by
  rw [(getPredictedHash_spec hL hv hs).1, root_succ, hnew, nodes,
    nodes_peaks_congr (g := f') fun i hi => (hf' i (by omega)).symm]

/-! ## `Replace` -/

/-- `Replace` at a left child: it saves, and the sibling on its right is not
there yet. -/
theorem replaceLoop_of_even {h x n : Nat} {hv : α} {s : σ} (heven : x % 2 = 0) (hn : n ≤ x + 1) :
    replaceLoop hJ st h x n hv s = st.save h x hv s := by
  have hstep := replaceLoop.eq_1 hJ st h x n hv s
  dsimp only at hstep
  rw [xor_one_of_mod_two_eq_zero heven, if_pos hn] at hstep
  exact hstep

/-- `Replace` at a right child: it saves, loads the left sibling, and goes up
with the two hashed. -/
theorem replaceLoop_of_odd {h x n : Nat} {hv : α} {s : σ} (hodd : x % 2 = 1) (hn : x - 1 < n) :
    replaceLoop hJ st h x n hv s =
      replaceLoop hJ st (h + 1) (x / 2) (n / 2) (hJ (st.load h (x - 1) (st.save h x hv s)).1 hv)
        (st.load h (x - 1) (st.save h x hv s)).2 := by
  have hstep := replaceLoop.eq_1 hJ st h x n hv s
  have hbit : ((x - 1) &&& 1 != 0) = false := by
    rw [Nat.and_one_is_mod, show (x - 1) % 2 = 0 by omega]
    rfl
  dsimp only at hstep
  rw [xor_one_of_mod_two_eq_one hodd, if_neg (by omega), hbit, shiftRight_one, shiftRight_one,
    show (x - 1) / 2 = x / 2 by omega] at hstep
  exact hstep

/-- `Replace` at a left child whose right sibling is there: it saves, loads the
sibling, and goes up with the two hashed. -/
theorem replaceLoop_of_even_lt {h x n : Nat} {hv : α} {s : σ} (heven : x % 2 = 0) (hn : x + 1 < n) :
    replaceLoop hJ st h x n hv s =
      replaceLoop hJ st (h + 1) (x / 2) (n / 2) (hJ hv (st.load h (x + 1) (st.save h x hv s)).1)
        (st.load h (x + 1) (st.save h x hv s)).2 := by
  have hstep := replaceLoop.eq_1 hJ st h x n hv s
  have hbit : ((x + 1) &&& 1 != 0) = true := by
    rw [Nat.and_one_is_mod, show (x + 1) % 2 = 1 by omega]
    rfl
  dsimp only at hstep
  rw [xor_one_of_mod_two_eq_zero heven, if_neg (by omega), hbit, shiftRight_one, shiftRight_one,
    show (x + 1) / 2 = x / 2 by omega] at hstep
  exact hstep

/-- The parent of a right child ends at the same leaf. -/
theorem parent_end {h x e : Nat} (hx : (x + 1) * 2 ^ h = e + 1) (hodd : x % 2 = 1) :
    (x / 2 + 1) * 2 ^ (h + 1) = e + 1 := by
  have hsplit : (x / 2 + 1) * 2 ^ (h + 1) = (2 * (x / 2) + 2) * 2 ^ h := by ring
  rw [hsplit, ← hx, show 2 * (x / 2) + 2 = x + 1 by omega]

/-- The left sibling of a right child that ends at `e` ends before `e`. -/
theorem sibling_full {h x e : Nat} (hx : (x + 1) * 2 ^ h = e + 1) (hodd : x % 2 = 1) :
    (x - 1 + 1) * 2 ^ h ≤ e := by
  have hsplit : (x + 1) * 2 ^ h = (x - 1 + 1) * 2 ^ h + 2 ^ h := by
    rw [show x + 1 = x - 1 + 1 + 1 by omega, Nat.add_mul, Nat.one_mul]
  have := Nat.two_pow_pos h
  omega

/-! ## `get_ProofInternal` -/

section Proof

variable [Inhabited α]

theorem proofSibling_odd (hL : LoadsNodes hJ st inv f count) {h i : Nat} {s : σ} (hs : inv s)
    (hodd : i % 2 = 1) (hin : i * 2 ^ h < count) :
    (proofSibling hJ st count h (i ^^^ 1) false s).1 = node hJ f h (i - 1) ∧
      inv (proofSibling hJ st count h (i ^^^ 1) false s).2 := by
  simp only [proofSibling, Bool.not_false, true_or, ↓reduceIte, xor_one_of_mod_two_eq_one hodd]
  exact hL s h (i - 1) hs (by rw [Nat.sub_add_cancel (by omega)]; omega)

theorem proofSibling_full (hL : LoadsNodes hJ st inv f count) {h i : Nat} {s : σ} (hs : inv s)
    (heven : i % 2 = 0) (hfull : (i + 2) * 2 ^ h ≤ count) :
    (proofSibling hJ st count h (i ^^^ 1) true s).1 = node hJ f h (i + 1) ∧
      inv (proofSibling hJ st count h (i ^^^ 1) true s).2 := by
  have hp : 0 < 2 ^ h := Nat.two_pow_pos h
  have e : (i + 2) * 2 ^ h = (i + 1) * 2 ^ h + 2 ^ h := by ring
  -- the sibling has a whole tree's worth of leaves before `count`
  have hne : (count - (i + 1) * 2 ^ h) / 2 ^ h ≠ 0 := by
    rw [ne_eq, Nat.div_eq_zero_iff_lt hp]; omega
  simp only [proofSibling, xor_one_of_mod_two_eq_zero heven, Nat.shiftLeft_eq, Nat.shiftRight_eq_div_pow,
    bne_iff_ne, ne_eq, hne, not_false_eq_true, or_true, ↓reduceIte]
  exact hL s h (i + 1) hs (by omega)

theorem proofSibling_of_short (hL : LoadsNodes hJ st inv f count) {h i : Nat} {s : σ} (hs : inv s)
    (heven : i % 2 = 0) (hlo : (i + 1) * 2 ^ h < count) (hhi : count < (i + 2) * 2 ^ h) :
    (proofSibling hJ st count h (i ^^^ 1) true s).1 =
        (rangeRoot hJ f ((i + 1) * 2 ^ h) (count - (i + 1) * 2 ^ h)).getD default ∧
      inv (proofSibling hJ st count h (i ^^^ 1) true s).2 := by
  have hp : 0 < 2 ^ h := Nat.two_pow_pos h
  have e : (i + 2) * 2 ^ h = (i + 1) * 2 ^ h + 2 ^ h := by ring
  have hz : (count - (i + 1) * 2 ^ h) / 2 ^ h = 0 := by
    rw [Nat.div_eq_zero_iff_lt hp]; omega
  simp only [proofSibling, xor_one_of_mod_two_eq_zero heven, Nat.shiftLeft_eq, Nat.shiftRight_eq_div_pow, hz,
    bne_self_eq_false, Bool.not_true, Bool.false_eq_true, or_self, ↓reduceIte]
  -- the sibling's leaves below `count` are a range aligned to `2 ^ h`
  obtain ⟨h1, h2⟩ := getHashForRange_spec hL (t := h) hs (Dvd.intro_left (i + 1) rfl)
    (show count - (i + 1) * 2 ^ h < 2 ^ h by omega) (by omega)
  exact ⟨by rw [h1], h2⟩

@[simp] theorem proofLoop_zero {app : β → Bool × α → Nat → Nat → Option β} {h i : Nat} {b : β} {s : σ} :
    proofLoop hJ st count app h 0 i b s = (some b, s) := by
  rw [proofLoop]; simp

/-- One height of the proof loop: skip the sibling, or hand it on and go up. -/
theorem proofLoop_eq {app : β → Bool × α → Nat → Nat → Option β} {h n i : Nat} {b : β} {s : σ} (hn : n ≠ 0) :
    proofLoop hJ st count app h n i b s =
      if (!(i &&& 1 != 0)) = true ∧ count ≤ (i ^^^ 1) <<< h then
        proofLoop hJ st count app (h + 1) (n / 2) (i / 2) b s
      else
        match app b (!(i &&& 1 != 0), (proofSibling hJ st count h (i ^^^ 1) (!(i &&& 1 != 0)) s).1) h (i ^^^ 1) with
        | none => (none, (proofSibling hJ st count h (i ^^^ 1) (!(i &&& 1 != 0)) s).2)
        | some b' => proofLoop hJ st count app (h + 1) (n / 2) (i / 2) b'
            (proofSibling hJ st count h (i ^^^ 1) (!(i &&& 1 != 0)) s).2 := by
  have hstep := proofLoop.eq_1 hJ st count app h n i b s
  rw [if_neg hn, shiftRight_one n, shiftRight_one i] at hstep
  exact hstep

/-- Where the proof does not skip the sibling, its hash is the one the trees
themselves give. -/
theorem proofSibling_ofFun (hL : LoadsNodes hJ st inv f count) {h i : Nat} {s : σ} (hs : inv s)
    (hi : i * 2 ^ h < count) (hc : ¬((!(i &&& 1 != 0)) = true ∧ count ≤ (i ^^^ 1) <<< h)) :
    (proofSibling hJ st count h (i ^^^ 1) (!(i &&& 1 != 0)) s).1 =
        (proofSibling hJ (Store.ofFun fun h x => node hJ f h x) count h (i ^^^ 1) (!(i &&& 1 != 0)) ()).1 ∧
      inv (proofSibling hJ st count h (i ^^^ 1) (!(i &&& 1 != 0)) s).2 := by
  have hF := loadsNodes_ofFun hJ f count
  rcases Nat.mod_two_eq_zero_or_one i with hpar | hpar
  · have hfirst : (!(i &&& 1 != 0)) = true := by simp [hpar]
    rw [hfirst] at hc ⊢
    have hlo : (i + 1) * 2 ^ h < count := by
      rw [xor_one_of_mod_two_eq_zero hpar, Nat.shiftLeft_eq] at hc
      simpa only [true_and, not_le] using hc
    by_cases hfull : (i + 2) * 2 ^ h ≤ count
    · obtain ⟨h1, h2⟩ := proofSibling_full hL hs hpar hfull
      exact ⟨h1.trans (proofSibling_full hF trivial hpar hfull).1.symm, h2⟩
    · obtain ⟨h1, h2⟩ := proofSibling_of_short hL hs hpar hlo (by omega)
      exact ⟨h1.trans (proofSibling_of_short hF trivial hpar hlo (by omega)).1.symm, h2⟩
  · have hfirst : (!(i &&& 1 != 0)) = false := by simp [hpar]
    rw [hfirst]
    obtain ⟨h1, h2⟩ := proofSibling_odd hL hs hpar hi
    exact ⟨h1.trans (proofSibling_odd hF trivial hpar hi).1.symm, h2⟩

/-- One height up, the ancestor is still inside the leaves. -/
theorem proof_next {h i : Nat} (hi : i * 2 ^ h < count) : i / 2 * 2 ^ (h + 1) < count := by
  have : i / 2 * 2 ^ (h + 1) = 2 * (i / 2) * 2 ^ h := by ring
  have h2 : 2 * (i / 2) * 2 ^ h ≤ i * 2 ^ h := Nat.mul_le_mul_right _ (by omega)
  omega

theorem count_div_succ {h n : Nat} (hn : n = count / 2 ^ h) : n / 2 = count / 2 ^ (h + 1) := by
  rw [hn, Nat.div_div_eq_div_mul, Nat.pow_succ]

/-- **A proof reads the trees.**  Whatever the store, a proof from a store
whose loads give the trees hands the builder the same nodes as one from the
trees themselves, and keeps the store's invariant. -/
theorem proofLoop_ofFun (hL : LoadsNodes hJ st inv f count) (app : β → Bool × α → Nat → Nat → Option β) :
    ∀ (n h i : Nat) (b : β) (s : σ), inv s → n = count / 2 ^ h → i * 2 ^ h < count →
      (proofLoop hJ st count app h n i b s).1 =
        (proofLoop hJ (Store.ofFun fun h x => node hJ f h x) count app h n i b ()).1 ∧
      inv (proofLoop hJ st count app h n i b s).2 := by
  intro n
  induction n using Nat.strong_induction_on with
  | _ n ih =>
    intro h i b s hs hn hi
    by_cases h0 : n = 0
    · subst h0
      simp [hs]
    have hrec := fun b' s' hs' => ih (n / 2) (by omega) (h + 1) (i / 2) b' s' hs' (count_div_succ hn)
      (proof_next hi)
    rw [proofLoop_eq h0, proofLoop_eq h0]
    by_cases hc : (!(i &&& 1 != 0)) = true ∧ count ≤ (i ^^^ 1) <<< h
    · rw [if_pos hc, if_pos hc]
      exact hrec b s hs
    · rw [if_neg hc, if_neg hc]
      obtain ⟨hsib, hinv⟩ := proofSibling_ofFun hL hs hi hc
      rw [hsib]
      cases app b (!(i &&& 1 != 0), (proofSibling hJ (Store.ofFun fun h x => node hJ f h x) count h (i ^^^ 1)
          (!(i &&& 1 != 0)) ()).1) h (i ^^^ 1) with
      | none => exact ⟨rfl, hinv⟩
      | some b' => exact hrec b' _ hinv

theorem getProof_fst {i : Nat} {s : σ} :
    (getProof hJ st count i s).1 = (proofLoop hJ st count proofBuilderStd 0 count i [] s).1.getD [] := rfl

/-- The proof of a leaf from a store whose loads give the trees is the one from
the trees. -/
theorem getProof_ofFun (hL : LoadsNodes hJ st inv f count) {i : Nat} {s : σ} (hs : inv s) (hi : i < count) :
    (getProof hJ st count i s).1 = (getProof hJ (Store.ofFun fun h x => node hJ f h x) count i ()).1 := by
  rw [getProof_fst, getProof_fst,
    (proofLoop_ofFun hL proofBuilderStd count 0 i [] s hs (by simp) (by simpa using hi)).1]

/-- A proof keeps the invariant of a store whose loads give the trees. -/
theorem getProof_inv (hL : LoadsNodes hJ st inv f count) {i : Nat} {s : σ} (hs : inv s) (hi : i < count) :
    inv (getProof hJ st count i s).2 :=
  (proofLoop_ofFun hL proofBuilderStd count 0 i [] s hs (by simp) (by simpa using hi)).2

/-! ### Climbing back up -/

/-- A sibling the proof hands on takes the cut of the ancestor one height up:
the left sibling is hashed in on the left, a right one on the right, the
partial right one as the root of its leaves below `count`. -/
theorem cut_map_interpretNode {h i : Nat} (hi : i * 2 ^ h < count)
    (hc : ¬((!(i &&& 1 != 0)) = true ∧ count ≤ (i ^^^ 1) <<< h)) :
    (cut hJ f count h i).map (fun a => interpretNode hJ a (!(i &&& 1 != 0),
        (proofSibling hJ (Store.ofFun fun h x => node hJ f h x) count h (i ^^^ 1) (!(i &&& 1 != 0)) ()).1)) =
      cut hJ f count (h + 1) (i / 2) := by
  have hF := loadsNodes_ofFun hJ f count
  rcases Nat.mod_two_eq_zero_or_one i with hpar | hpar
  · have hfirst : (!(i &&& 1 != 0)) = true := by simp [hpar]
    rw [hfirst] at hc ⊢
    have hlo : (i + 1) * 2 ^ h < count := by
      rw [xor_one_of_mod_two_eq_zero hpar, Nat.shiftLeft_eq] at hc
      simpa only [true_and, not_le] using hc
    rw [cut_of_full hlo.le]
    by_cases hfull : (i + 2) * 2 ^ h ≤ count
    · rw [(proofSibling_full hF trivial hpar hfull).1, cut_succ_even_full hpar hfull]
      rfl
    · rw [(proofSibling_of_short hF trivial hpar hlo (by omega)).1, cut_succ_even_short hpar hlo (by omega)]
      -- the sibling's leaves below `count` are not none
      have hsome : (rangeRoot hJ f ((i + 1) * 2 ^ h) (count - (i + 1) * 2 ^ h)).isSome :=
        rangeRoot_isSome (by omega)
      obtain ⟨r, hr⟩ := Option.isSome_iff_exists.mp hsome
      rw [hr]
      rfl
  · have hfirst : (!(i &&& 1 != 0)) = false := by simp [hpar]
    rw [hfirst, (proofSibling_odd hF trivial hpar hi).1, cut_succ_odd hpar hi]
    rfl

/-- **The proof climbs to the root.**  From height `h`, the nodes the proof
loop pushes take the cut of the leaf's ancestor to the root. -/
theorem proofLoop_interpret : ∀ (n h i : Nat) (b : List (Bool × α)), n = count / 2 ^ h → i * 2 ^ h < count →
    ∃ L, (proofLoop hJ (Store.ofFun fun h x => node hJ f h x) count proofBuilderStd h n i b ()).1 = some (b ++ L) ∧
      (cut hJ f count h i).map (fun a => interpretProof hJ a L) = root hJ f count := by
  intro n
  induction n using Nat.strong_induction_on with
  | _ n ih =>
    intro h i b hn hi
    by_cases h0 : n = 0
    · -- above the highest leaf the ancestor is the first tree, whose cut is the root
      subst h0
      have hlt : count < 2 ^ h := (Nat.div_eq_zero_iff_lt (Nat.two_pow_pos h)).mp hn.symm
      have hi0 : i = 0 := by
        rcases i with _ | i
        · rfl
        · have : 2 ^ h ≤ (i + 1) * 2 ^ h := Nat.le_mul_of_pos_left _ (by omega)
          omega
      subst hi0
      refine ⟨[], by simp, ?_⟩
      rw [cut_eq_root hlt]
      cases root hJ f count <;> rfl
    have hrec := fun b' => ih (n / 2) (by omega) (h + 1) (i / 2) b' (count_div_succ hn) (proof_next hi)
    rw [proofLoop_eq h0]
    by_cases hc : (!(i &&& 1 != 0)) = true ∧ count ≤ (i ^^^ 1) <<< h
    · -- the sibling starts past `count`: nothing is pushed
      rw [if_pos hc]
      obtain ⟨L, hL, hroot⟩ := hrec b
      refine ⟨L, hL, ?_⟩
      have hpar : i % 2 = 0 := by
        have := hc.1
        simp only [Nat.and_one_is_mod, Bool.not_eq_true', bne_eq_false_iff_eq] at this
        exact this
      rw [xor_one_of_mod_two_eq_zero hpar, Nat.shiftLeft_eq] at hc
      rwa [← cut_succ_even_of_le hpar hc.2]
    · rw [if_neg hc]
      obtain ⟨L, hL, hroot⟩ := hrec (b ++ [(!(i &&& 1 != 0),
        (proofSibling hJ (Store.ofFun fun h x => node hJ f h x) count h (i ^^^ 1) (!(i &&& 1 != 0)) ()).1)])
      refine ⟨_ :: L, hL.trans (by rw [List.append_assoc, List.singleton_append]), ?_⟩
      rw [← hroot, ← cut_map_interpretNode hi hc, Option.map_map]
      rfl

/-- **Interpreting a leaf through its proof gives the root.** -/
theorem interpretProof_getProof {i : Nat} (hi : i < count) :
    some (interpretProof hJ (f i) (getProof hJ (Store.ofFun fun h x => node hJ f h x) count i ()).1) =
      root hJ f count := by
  obtain ⟨L, hL, hroot⟩ := @proofLoop_interpret α hJ f count _ count 0 i [] (by simp) (by simpa using hi)
  simp only [getProof, hL, List.nil_append, Option.getD_some]
  rw [← hroot, cut_zero hi]
  rfl

end Proof

end Spec

end Beam.Merkle
