import Mathlib.Data.List.Sort
import Mathlib.Data.Multiset.UnionInter

/-!
# Merging and cancelling sorted streams

Two algorithms on lists that are sorted by a key into a linear order.

`kMerge` merges any number of streams by taking the least head among them again and
again, the earliest stream's head on ties (`minHead`).  On sorted streams it is a sorted
permutation of their concatenation (`kMerge_perm`, `kMerge_sortedBy`).

`cancel` walks two streams side by side: the head of smaller key is kept, and two heads
of equal key are both dropped.  On sorted streams it keeps, of each side, the multiset
difference of the keys (`cancel_keys_left`, `cancel_keys_right`), so it keeps nothing of a
side whose keys are a sub-multiset of the other's (`cancel_fst_eq_nil_iff`), and it drops
as many pairs as the intersection of the keys has elements (`cancel_count`).  It reads the
streams only through their keys (`cancel_congr`), and two sorted permutations of one list
have the same keys in the same order (`SortedBy.map_eq_of_perm`): so `cancel` gives the
same result, up to elements of equal key, whichever way the streams were sorted.
-/

namespace SortedMerge

variable {α β K : Type*} [LinearOrder K]

/-! ## Sorted by a key -/

section Sorted

/-- `l` is in ascending order of `key`. -/
def SortedBy (key : α → K) (l : List α) : Prop :=
  l.Pairwise fun a b => key a ≤ key b

instance (key : α → K) (l : List α) : Decidable (SortedBy key l) :=
  inferInstanceAs (Decidable (l.Pairwise fun a b => key a ≤ key b))

variable {key : α → K}

@[simp] theorem sortedBy_nil : SortedBy key [] := List.Pairwise.nil

@[simp] theorem sortedBy_cons {a : α} {l : List α} :
    SortedBy key (a :: l) ↔ (∀ b ∈ l, key a ≤ key b) ∧ SortedBy key l :=
  List.pairwise_cons

theorem SortedBy.sublist {l₁ l₂ : List α} (h : l₁.Sublist l₂) (h₂ : SortedBy key l₂) :
    SortedBy key l₁ :=
  List.Pairwise.sublist h h₂

/-- A list sorted by a key is sorted by any coarser key. -/
theorem SortedBy.coarsen {K' : Type*} [LinearOrder K'] {key' : α → K'} {l : List α}
    (hk : ∀ a b, key a ≤ key b → key' a ≤ key' b) (h : SortedBy key l) : SortedBy key' l :=
  List.Pairwise.imp (hk _ _) h

/-- Two sorted permutations of one list have the same keys in the same order: they differ
only in elements of equal key. -/
theorem SortedBy.map_eq_of_perm {l₁ l₂ : List α} (h₁ : SortedBy key l₁) (h₂ : SortedBy key l₂)
    (hp : l₁.Perm l₂) : l₁.map key = l₂.map key :=
  List.Perm.eq_of_sortedLE (List.sortedLE_iff_pairwise.2 (List.pairwise_map.2 h₁))
    (List.sortedLE_iff_pairwise.2 (List.pairwise_map.2 h₂)) (hp.map key)

omit [LinearOrder K] in
theorem forall₂_key_iff {l₁ l₂ : List α} :
    List.Forall₂ (fun a b => key a = key b) l₁ l₂ ↔ l₁.map key = l₂.map key := by
  rw [← List.forall₂_eq_eq_eq, List.forall₂_map_left_iff, List.forall₂_map_right_iff]

/-- A key below the head's key does not occur in a sorted list. -/
theorem count_map_eq_zero_of_lt {b : α} {l : List α} (hs : SortedBy key (b :: l)) {k : K}
    (hk : k < key b) : ((b :: l).map key).count k = 0 := by
  rw [List.count_eq_zero]
  intro hmem
  obtain ⟨y, hy, rfl⟩ := List.mem_map.1 hmem
  rcases List.mem_cons.1 hy with rfl | hy
  · exact lt_irrefl _ hk
  · exact absurd ((sortedBy_cons.1 hs).1 y hy) (not_le.2 hk)

/-- In a sorted list `find?` returns an element of least key among those that satisfy
the predicate: every one of them comes at or after it. -/
theorem SortedBy.key_find?_le {l : List α} (hs : SortedBy key l) {p : α → Bool} {r : α}
    (hr : l.find? p = some r) {e : α} (he : e ∈ l) (hpe : p e = true) : key r ≤ key e := by
  induction l with
  | nil => simp at he
  | cons a l ih =>
    rw [sortedBy_cons] at hs
    by_cases hpa : p a = true
    · rw [List.find?_cons_of_pos hpa, Option.some.injEq] at hr
      subst hr
      rcases List.mem_cons.1 he with rfl | he
      · exact le_rfl
      · exact hs.1 e he
    · rw [List.find?_cons_of_neg hpa] at hr
      rcases List.mem_cons.1 he with rfl | he
      · exact absurd hpe hpa
      · exact ih hs.2 hr he

end Sorted

/-! ## Cancelling two sorted streams -/

section Cancel

variable (ka : α → K) (kb : β → K)

/-- Walk two streams side by side comparing heads by key: the head of smaller key is
kept, and two heads of equal key are both dropped.  Returns what is kept of each stream
and the number of pairs dropped. -/
def cancel : List α → List β → List α × List β × Nat
  | [], bs => ([], bs, 0)
  | a :: as, [] => (a :: as, [], 0)
  | a :: as, b :: bs =>
    match compare (ka a) (kb b) with
    | .lt => let r := cancel as (b :: bs); (a :: r.1, r.2.1, r.2.2)
    | .gt => let r := cancel (a :: as) bs; (r.1, b :: r.2.1, r.2.2)
    | .eq => let r := cancel as bs; (r.1, r.2.1, r.2.2 + 1)
termination_by as bs => as.length + bs.length

variable {ka kb}

@[simp] theorem cancel_nil_left (bs : List β) : cancel ka kb [] bs = ([], bs, 0) := by
  rw [cancel]

@[simp] theorem cancel_nil_right (as : List α) : cancel ka kb as [] = (as, [], 0) := by
  cases as <;> rw [cancel]

theorem cancel_of_lt {a : α} {b : β} (as : List α) (bs : List β) (h : ka a < kb b) :
    cancel ka kb (a :: as) (b :: bs) =
      (a :: (cancel ka kb as (b :: bs)).1, (cancel ka kb as (b :: bs)).2) := by
  rw [cancel, compare_lt_iff_lt.2 h]

theorem cancel_of_gt {a : α} {b : β} (as : List α) (bs : List β) (h : kb b < ka a) :
    cancel ka kb (a :: as) (b :: bs) =
      ((cancel ka kb (a :: as) bs).1, b :: (cancel ka kb (a :: as) bs).2.1,
        (cancel ka kb (a :: as) bs).2.2) := by
  rw [cancel, compare_gt_iff_gt.2 h]

theorem cancel_of_eq {a : α} {b : β} (as : List α) (bs : List β) (h : ka a = kb b) :
    cancel ka kb (a :: as) (b :: bs) =
      ((cancel ka kb as bs).1, (cancel ka kb as bs).2.1, (cancel ka kb as bs).2.2 + 1) := by
  rw [cancel, compare_eq_iff_eq.2 h]

/-- Cancelling is symmetric: with the streams swapped, the kept parts swap. -/
theorem cancel_swap (as : List α) (bs : List β) :
    cancel kb ka bs as =
      ((cancel ka kb as bs).2.1, (cancel ka kb as bs).1, (cancel ka kb as bs).2.2) := by
  fun_induction cancel ka kb as bs with
  | case1 bs => simp
  | case2 a as => simp
  | case3 a as b bs hc r ih =>
    rw [cancel_of_gt _ _ (compare_lt_iff_lt.1 hc), ih]
  | case4 a as b bs hc r ih =>
    rw [cancel_of_lt _ _ (compare_gt_iff_gt.1 hc), ih]
  | case5 a as b bs hc r ih =>
    rw [cancel_of_eq _ _ (compare_eq_iff_eq.1 hc).symm, ih]

theorem cancel_sublist_left (as : List α) (bs : List β) :
    (cancel ka kb as bs).1.Sublist as := by
  fun_induction cancel ka kb as bs with
  | case1 bs => simp
  | case2 a as => simp
  | case3 a as b bs hc r ih => exact ih.cons_cons a
  | case4 a as b bs hc r ih => exact ih
  | case5 a as b bs hc r ih => exact ih.cons a

theorem cancel_sublist_right (as : List α) (bs : List β) :
    (cancel ka kb as bs).2.1.Sublist bs := by
  have h : (cancel kb ka bs as).1.Sublist bs := cancel_sublist_left bs as
  rwa [cancel_swap] at h

/-- Every element of the first stream is either kept or dropped with a partner. -/
theorem cancel_length_left (as : List α) (bs : List β) :
    (cancel ka kb as bs).1.length + (cancel ka kb as bs).2.2 = as.length := by
  fun_induction cancel ka kb as bs with
  | case1 bs => simp
  | case2 a as => simp
  | case3 a as b bs hc r ih =>
    dsimp only [r]
    rw [List.length_cons, List.length_cons]
    omega
  | case4 a as b bs hc r ih => exact ih
  | case5 a as b bs hc r ih =>
    dsimp only [r]
    rw [List.length_cons]
    omega

/-- On sorted streams a key is kept from the first stream as often as it occurs there
beyond its occurrences in the second. -/
theorem cancel_count_left {as : List α} {bs : List β} (has : SortedBy ka as)
    (hbs : SortedBy kb bs) (k : K) :
    ((cancel ka kb as bs).1.map ka).count k = (as.map ka).count k - (bs.map kb).count k := by
  fun_induction cancel ka kb as bs with
  | case1 bs => simp
  | case2 a as => simp
  | case3 a as b bs hc r ih =>
    -- the kept head's key is below every key of the second stream
    have h0 := count_map_eq_zero_of_lt hbs (compare_lt_iff_lt.1 hc)
    have ih := ih (sortedBy_cons.1 has).2 hbs
    dsimp only [r]
    rw [List.map_cons, List.map_cons]
    rcases eq_or_ne (ka a) k with rfl | hk
    · rw [List.count_cons_self, List.count_cons_self, ih, h0]
      omega
    · rw [List.count_cons_of_ne hk, List.count_cons_of_ne hk, ih]
  | case4 a as b bs hc r ih =>
    -- the kept head of the second stream has a key that the first stream lacks
    have h0 := count_map_eq_zero_of_lt has (compare_gt_iff_gt.1 hc)
    have ih := ih has (sortedBy_cons.1 hbs).2
    dsimp only [r]
    rw [ih, List.map_cons (l := bs)]
    rcases eq_or_ne (kb b) k with rfl | hk
    · rw [List.count_cons_self, h0]
      omega
    · rw [List.count_cons_of_ne hk]
  | case5 a as b bs hc r ih =>
    have heq := compare_eq_iff_eq.1 hc
    have ih := ih (sortedBy_cons.1 has).2 (sortedBy_cons.1 hbs).2
    dsimp only [r]
    rw [ih, List.map_cons, List.map_cons, heq]
    rcases eq_or_ne (kb b) k with rfl | hk
    · rw [List.count_cons_self, List.count_cons_self]
      omega
    · rw [List.count_cons_of_ne hk, List.count_cons_of_ne hk]

theorem cancel_count_right {as : List α} {bs : List β} (has : SortedBy ka as)
    (hbs : SortedBy kb bs) (k : K) :
    ((cancel ka kb as bs).2.1.map kb).count k = (bs.map kb).count k - (as.map ka).count k := by
  have h := cancel_count_left hbs has k
  rwa [cancel_swap] at h

/-- On sorted streams the keys kept of the first stream are the multiset difference. -/
theorem cancel_keys_left {as : List α} {bs : List β} (has : SortedBy ka as)
    (hbs : SortedBy kb bs) :
    (((cancel ka kb as bs).1.map ka : List K) : Multiset K) =
      ((as.map ka : List K) : Multiset K) - ((bs.map kb : List K) : Multiset K) := by
  refine Multiset.ext.2 fun k => ?_
  rw [Multiset.count_sub, Multiset.coe_count, Multiset.coe_count, Multiset.coe_count]
  exact cancel_count_left has hbs k

theorem cancel_keys_right {as : List α} {bs : List β} (has : SortedBy ka as)
    (hbs : SortedBy kb bs) :
    (((cancel ka kb as bs).2.1.map kb : List K) : Multiset K) =
      ((bs.map kb : List K) : Multiset K) - ((as.map ka : List K) : Multiset K) := by
  have h := cancel_keys_left hbs has
  rwa [cancel_swap] at h

/-- On sorted streams the number of dropped pairs is the size of the multiset
intersection of the keys. -/
theorem cancel_count {as : List α} {bs : List β} (has : SortedBy ka as)
    (hbs : SortedBy kb bs) :
    (cancel ka kb as bs).2.2 =
      Multiset.card (((as.map ka : List K) : Multiset K) ∩ ((bs.map kb : List K) : Multiset K)) := by
  have hsplit := congrArg Multiset.card
    (Multiset.sub_add_inter ((as.map ka : List K) : Multiset K) ((bs.map kb : List K) : Multiset K))
  rw [Multiset.card_add, ← cancel_keys_left has hbs, Multiset.coe_card, Multiset.coe_card,
    List.length_map, List.length_map] at hsplit
  have hlen : (cancel ka kb as bs).1.length + (cancel ka kb as bs).2.2 = as.length :=
    cancel_length_left as bs
  omega

/-- On sorted streams no key is kept on both sides. -/
theorem cancel_keys_disjoint {as : List α} {bs : List β} (has : SortedBy ka as)
    (hbs : SortedBy kb bs) {k : K} (h : k ∈ (cancel ka kb as bs).1.map ka) :
    k ∉ (cancel ka kb as bs).2.1.map kb := by
  intro h'
  have hl := List.count_pos_iff.2 h
  have hr := List.count_pos_iff.2 h'
  rw [cancel_count_left has hbs] at hl
  rw [cancel_count_right has hbs] at hr
  omega

/-- On sorted streams nothing is kept of the first exactly when its keys are a
sub-multiset of the second's. -/
theorem cancel_fst_eq_nil_iff {as : List α} {bs : List β} (has : SortedBy ka as)
    (hbs : SortedBy kb bs) :
    (cancel ka kb as bs).1 = [] ↔ ((as.map ka : List K) : Multiset K) ≤ (bs.map kb : List K) := by
  simp only [Multiset.le_iff_count, Multiset.coe_count]
  constructor
  · intro h k
    have hk := cancel_count_left has hbs k
    rw [h, List.map_nil, List.count_nil] at hk
    omega
  · -- a kept element would have its key more often in the first stream
    intro h
    refine List.eq_nil_iff_forall_not_mem.2 fun a ha => ?_
    have hpos := List.count_pos_iff.2 (List.mem_map_of_mem (f := ka) ha)
    rw [cancel_count_left has hbs] at hpos
    have := h (ka a)
    omega

theorem cancel_snd_eq_nil_iff {as : List α} {bs : List β} (has : SortedBy ka as)
    (hbs : SortedBy kb bs) :
    (cancel ka kb as bs).2.1 = [] ↔ ((bs.map kb : List K) : Multiset K) ≤ (as.map ka : List K) := by
  have h := cancel_fst_eq_nil_iff hbs has
  rwa [cancel_swap] at h

/-- `cancel` reads its streams only through their keys: streams related elementwise by
relations that keep the keys give results related the same way. -/
theorem cancel_congr {Ra : α → α → Prop} {Rb : β → β → Prop}
    (hRa : ∀ a a', Ra a a' → ka a = ka a') (hRb : ∀ b b', Rb b b' → kb b = kb b')
    (as : List α) (bs : List β) {as' : List α} {bs' : List β}
    (ha : List.Forall₂ Ra as as') (hb : List.Forall₂ Rb bs bs') :
    List.Forall₂ Ra (cancel ka kb as bs).1 (cancel ka kb as' bs').1 ∧
      List.Forall₂ Rb (cancel ka kb as bs).2.1 (cancel ka kb as' bs').2.1 ∧
      (cancel ka kb as bs).2.2 = (cancel ka kb as' bs').2.2 := by
  fun_induction cancel ka kb as bs generalizing as' bs' with
  | case1 bs =>
    rw [List.forall₂_nil_left_iff.1 ha]
    simpa using hb
  | case2 a as =>
    rw [List.forall₂_nil_left_iff.1 hb]
    simpa using ha
  | case3 a as b bs hc r =>
    rename_i ih
    obtain ⟨a', as', hra, has, rfl⟩ := List.forall₂_cons_left_iff.1 ha
    obtain ⟨b', bs', hrb, hbs, rfl⟩ := List.forall₂_cons_left_iff.1 hb
    have hlt := compare_lt_iff_lt.1 hc
    obtain ⟨h1, h2, h3⟩ := ih has (List.Forall₂.cons hrb hbs)
    rw [cancel_of_lt _ _ (hRa a a' hra ▸ hRb b b' hrb ▸ hlt)]
    exact ⟨List.Forall₂.cons hra h1, h2, h3⟩
  | case4 a as b bs hc r =>
    rename_i ih
    obtain ⟨a', as', hra, has, rfl⟩ := List.forall₂_cons_left_iff.1 ha
    obtain ⟨b', bs', hrb, hbs, rfl⟩ := List.forall₂_cons_left_iff.1 hb
    have hgt := compare_gt_iff_gt.1 hc
    obtain ⟨h1, h2, h3⟩ := ih (List.Forall₂.cons hra has) hbs
    rw [cancel_of_gt _ _ (hRa a a' hra ▸ hRb b b' hrb ▸ hgt)]
    exact ⟨h1, List.Forall₂.cons hrb h2, h3⟩
  | case5 a as b bs hc r =>
    rename_i ih
    obtain ⟨a', as', hra, has, rfl⟩ := List.forall₂_cons_left_iff.1 ha
    obtain ⟨b', bs', hrb, hbs, rfl⟩ := List.forall₂_cons_left_iff.1 hb
    have heq := compare_eq_iff_eq.1 hc
    obtain ⟨h1, h2, h3⟩ := ih has hbs
    rw [cancel_of_eq _ _ (hRa a a' hra ▸ hRb b b' hrb ▸ heq)]
    exact ⟨h1, h2, by rw [h3]⟩

end Cancel

/-! ## Merging any number of sorted streams -/

section KMerge

variable (key : α → K)

/-- One step of the scan for the least head: a head replaces the least one seen so far
only when its key is strictly smaller, so the earliest stream wins ties. -/
def pick (best : Option (Nat × α)) (i : Nat) (x : α) : Option (Nat × α) :=
  match best with
  | some (j, b) => if key x < key b then some (i, x) else some (j, b)
  | none => some (i, x)

/-- Scan the streams, the first of them having index `i`, keeping the least head seen so
far together with the index of its stream. -/
def minHeadFrom : Nat → Option (Nat × α) → List (List α) → Option (Nat × α)
  | _, best, [] => best
  | i, best, [] :: ss => minHeadFrom (i + 1) best ss
  | i, best, (x :: _) :: ss => minHeadFrom (i + 1) (pick key best i x) ss

/-- The least head among the streams, the earliest stream's on ties, with the index of its
stream; `none` when every stream is empty. -/
def minHead (ss : List (List α)) : Option (Nat × α) :=
  minHeadFrom key 0 none ss

example : minHead id [[3], [], [1, 5], [1]] = some (2, 1) := by decide

variable {key}

theorem pick_ne_none (best : Option (Nat × α)) (i : Nat) (x : α) : pick key best i x ≠ none := by
  unfold pick
  split
  · split_ifs <;> simp
  · simp

theorem pick_spec {best : Option (Nat × α)} {i : Nat} {x : α} {p : Nat × α}
    (h : pick key best i x = some p) :
    (p = (i, x) ∨ best = some p) ∧ key p.2 ≤ key x ∧ ∀ q ∈ best, key p.2 ≤ key q.2 := by
  unfold pick at h
  split at h
  · split_ifs at h with hlt
    · cases h
      exact ⟨.inl rfl, le_rfl, fun q hq => by cases hq; exact hlt.le⟩
    · cases h
      exact ⟨.inr rfl, not_lt.1 hlt, fun q hq => by cases hq; exact le_rfl⟩
  · cases h
    exact ⟨.inl rfl, le_rfl, fun q hq => by cases hq⟩

theorem getElem?_cons_of_lt {s : List α} {ss : List (List α)} {i j : Nat} (h : i < j) :
    (s :: ss)[j - i]? = ss[j - (i + 1)]? := by
  rw [show j - i = j - (i + 1) + 1 by omega, List.getElem?_cons_succ]

/-- What the scan returns: the least of `best` and of the heads it passed, the earliest
on ties; if it is not `best`, it is the head of a stream at or after index `i`. -/
theorem minHeadFrom_some : ∀ (ss : List (List α)) (i : Nat) (best : Option (Nat × α)) (j : Nat)
    (x : α), minHeadFrom key i best ss = some (j, x) →
      (best = some (j, x) ∨ i ≤ j ∧ ∃ t, ss[j - i]? = some (x :: t)) ∧
        (∀ q ∈ best, key x ≤ key q.2) ∧ ∀ s ∈ ss, ∀ y ∈ s.head?, key x ≤ key y
  | [], i, best, j, x, h => by
    refine ⟨.inl h, fun q hq => ?_, by simp⟩
    cases h
    cases hq
    exact le_rfl
  | [] :: ss, i, best, j, x, h => by
    obtain ⟨h1, h2, h3⟩ := minHeadFrom_some ss (i + 1) best j x h
    refine ⟨?_, h2, ?_⟩
    · rcases h1 with h1 | ⟨hij, t, ht⟩
      · exact .inl h1
      · exact .inr ⟨by omega, t, by rwa [getElem?_cons_of_lt (by omega)]⟩
    · intro s hs y hy
      rcases List.mem_cons.1 hs with rfl | hs
      · cases hy
      · exact h3 s hs y hy
  | (z :: t) :: ss, i, best, j, x, h => by
    obtain ⟨h1, h2, h3⟩ := minHeadFrom_some ss (i + 1) (pick key best i z) j x h
    have hne : pick key best i z ≠ none := pick_ne_none best i z
    obtain ⟨p, hp⟩ := Option.ne_none_iff_exists'.1 hne
    obtain ⟨hsrc, hpz, hpbest⟩ := pick_spec hp
    -- the result is at most the pick, which is at most the new head and `best`
    have hxp : key x ≤ key p.2 := h2 p hp
    refine ⟨?_, fun q hq => hxp.trans (hpbest q hq), ?_⟩
    · rcases h1 with h1 | ⟨hij, t', ht'⟩
      · rw [hp, Option.some_inj] at h1
        subst h1
        rcases hsrc with hsrc | hsrc
        · cases hsrc
          exact .inr ⟨le_rfl, t, by simp⟩
        · exact .inl hsrc
      · exact .inr ⟨by omega, t', by rwa [getElem?_cons_of_lt (by omega)]⟩
    · intro s hs y hy
      rcases List.mem_cons.1 hs with rfl | hs
      · cases hy
        exact hxp.trans hpz
      · exact h3 s hs y hy

theorem minHeadFrom_none : ∀ (ss : List (List α)) (i : Nat) (best : Option (Nat × α)),
    minHeadFrom key i best ss = none → best = none ∧ ∀ s ∈ ss, s = []
  | [], _, _, h => ⟨h, by simp⟩
  | [] :: ss, i, best, h => by
    obtain ⟨h1, h2⟩ := minHeadFrom_none ss (i + 1) best h
    exact ⟨h1, by simpa using h2⟩
  | (z :: _) :: ss, i, best, h =>
    absurd (minHeadFrom_none ss (i + 1) (pick key best i z) h).1 (pick_ne_none best i z)

/-- The least head is the head of the stream whose index comes with it, and no head has
a smaller key. -/
theorem minHead_some {ss : List (List α)} {j : Nat} {x : α} (h : minHead key ss = some (j, x)) :
    (∃ t, ss[j]? = some (x :: t)) ∧ ∀ s ∈ ss, ∀ y ∈ s.head?, key x ≤ key y := by
  obtain ⟨h1 | ⟨-, h1⟩, -, h3⟩ := minHeadFrom_some ss 0 none j x h
  · cases h1
  · exact ⟨by simpa using h1, h3⟩

theorem minHead_none {ss : List (List α)} (h : minHead key ss = none) : ∀ s ∈ ss, s = [] :=
  (minHeadFrom_none ss 0 none h).2

/-- On sorted streams the least head is at most every element of every stream. -/
theorem minHead_le_of_sorted {ss : List (List α)} {j : Nat} {x : α}
    (h : minHead key ss = some (j, x)) (hs : ∀ s ∈ ss, SortedBy key s) {y : α}
    (hy : y ∈ ss.flatten) : key x ≤ key y := by
  obtain ⟨s, hs', hys⟩ := List.mem_flatten.1 hy
  cases s with
  | nil => cases hys
  | cons z s =>
    have hxz : key x ≤ key z := (minHead_some h).2 _ hs' z rfl
    rcases List.mem_cons.1 hys with rfl | hy
    · exact hxz
    · exact hxz.trans ((sortedBy_cons.1 (hs _ hs')).1 y hy)

omit [LinearOrder K] in
/-- Advancing stream `j` past its head splits the streams around it. -/
theorem modify_tail_split {ss : List (List α)} {j : Nat} {x : α} {t : List α}
    (h : ss[j]? = some (x :: t)) :
    ss.take j ++ (x :: t) :: ss.drop (j + 1) = ss ∧
      ss.modify j List.tail = ss.take j ++ t :: ss.drop (j + 1) := by
  obtain ⟨hj, hget⟩ := List.getElem?_eq_some_iff.1 h
  constructor
  · rw [← hget, List.getElem_cons_drop, List.take_append_drop]
  · rw [List.modify_eq_take_cons_drop hj, hget, List.tail_cons]

omit [LinearOrder K] in
theorem length_flatten_modify_tail_lt {ss : List (List α)} {j : Nat} {x : α} {t : List α}
    (h : ss[j]? = some (x :: t)) :
    (ss.modify j List.tail).flatten.length < ss.flatten.length := by
  obtain ⟨h1, h2⟩ := modify_tail_split h
  rw [h2]
  conv_rhs => rw [← h1]
  simp only [List.flatten_append, List.flatten_cons, List.length_append, List.length_cons]
  omega

omit [LinearOrder K] in
theorem flatten_modify_tail_perm {ss : List (List α)} {j : Nat} {x : α} {t : List α}
    (h : ss[j]? = some (x :: t)) :
    (x :: (ss.modify j List.tail).flatten).Perm ss.flatten := by
  obtain ⟨h1, h2⟩ := modify_tail_split h
  rw [h2]
  conv_rhs => rw [← h1]
  simp only [List.flatten_append, List.flatten_cons, List.cons_append]
  exact List.perm_middle.symm

omit [LinearOrder K] in
theorem mem_modify_tail {ss : List (List α)} {j : Nat} {x : α} {t : List α}
    (h : ss[j]? = some (x :: t)) {s : List α} (hs : s ∈ ss.modify j List.tail) :
    s ∈ ss ∨ s = t := by
  obtain ⟨h1, h2⟩ := modify_tail_split h
  rw [h2] at hs
  rw [← h1]
  simp only [List.mem_append, List.mem_cons] at hs ⊢
  rcases hs with hs | hs | hs
  · exact .inl (.inl hs)
  · exact .inr hs
  · exact .inl (.inr (.inr hs))

/-- Advancing the stream of the least head shortens the streams. -/
theorem minHead_length_lt {ss : List (List α)} {j : Nat} {x : α}
    (h : minHead key ss = some (j, x)) :
    (ss.modify j List.tail).flatten.length < ss.flatten.length := by
  obtain ⟨t, ht⟩ := (minHead_some h).1
  exact length_flatten_modify_tail_lt ht

variable (key) in
/-- Merge the streams by taking their least head again and again. -/
def kMerge (ss : List (List α)) : List α :=
  match _h : minHead key ss with
  | none => []
  | some (j, x) => x :: kMerge (ss.modify j List.tail)
termination_by ss.flatten.length
decreasing_by exact minHead_length_lt _h

theorem kMerge_of_none {ss : List (List α)} (h : minHead key ss = none) : kMerge key ss = [] := by
  rw [kMerge]
  split
  · rfl
  · simp_all

theorem kMerge_of_some {ss : List (List α)} {j : Nat} {x : α} (h : minHead key ss = some (j, x)) :
    kMerge key ss = x :: kMerge key (ss.modify j List.tail) := by
  rw [kMerge]
  split
  · simp_all
  · rename_i j' x' h'
    rw [h, Option.some_inj, Prod.mk.injEq] at h'
    obtain ⟨rfl, rfl⟩ := h'
    rfl

/-- The merge is a permutation of the streams laid end to end. -/
theorem kMerge_perm (ss : List (List α)) : (kMerge key ss).Perm ss.flatten := by
  fun_induction kMerge key ss with
  | case1 ss h =>
    rw [List.flatten_eq_nil_iff.2 (minHead_none h)]
  | case2 ss j x h ih =>
    obtain ⟨t, ht⟩ := (minHead_some h).1
    exact (ih.cons x).trans (flatten_modify_tail_perm ht)

/-- Merging sorted streams gives a sorted list. -/
theorem kMerge_sortedBy (ss : List (List α)) (hs : ∀ s ∈ ss, SortedBy key s) :
    SortedBy key (kMerge key ss) := by
  fun_induction kMerge key ss with
  | case1 ss h => exact sortedBy_nil
  | case2 ss j x h ih =>
    obtain ⟨t, ht⟩ := (minHead_some h).1
    refine sortedBy_cons.2 ⟨fun y hy => ?_, ih fun s hs' => ?_⟩
    · -- everything merged later comes from the streams, whose elements are all above `x`
      have hy' : y ∈ ss.flatten :=
        (flatten_modify_tail_perm ht).subset (List.mem_cons_of_mem x ((kMerge_perm _).subset hy))
      exact minHead_le_of_sorted h hs hy'
    · rcases mem_modify_tail ht hs' with hs' | rfl
      · exact hs s hs'
      · exact (sortedBy_cons.1 (hs _ (List.mem_of_getElem? ht))).2

end KMerge

end SortedMerge
