import Beam.Core.PeerManager

/-!
# The containers of `PeerManager` index its peers

`src/core/peer_manager.cpp`.  The live peers are those of `m_Ratings`.  In every
state reached from an empty manager (`Reachable`), whatever the operations and
their order, each container holds exactly the live peers it is for, each once,
`m_Ratings` keeps its order, and no two peers share an ID or an address
(`inv_of_reachable`).  Each operation is shown to keep `Inv` with the lemmas of
`IndexedList`: a container either keeps its handles and what it reads of them
(`Inv.congr`), or follows the one record that changed (`perm_filter_update`), a
new peer (`perm_filter_cons`) or a deleted one (`perm_filter_erase`).  With `Inv`,
`Clear` leaves every container empty (`clear_empty`).
-/

namespace Beam

namespace PeerManager

open IndexedList

variable {A : Type}

/-- **The containers index the live peers.**  `m_Ratings` holds each live peer
once, highest raw rating first; `m_AdjustedRatings` the peers not banned,
`m_IDs` those of a non-zero ID, `m_Addr` those with an address and `m_Active`
the connected ones; no two peers of `m_IDs` share an ID, nor two of `m_Addr` an
address. -/
structure Inv (s : PeerManager A) : Prop where
  nodup : s.ratings.Nodup
  sorted : s.ratings.Pairwise fun a b => (s.info b).rawRating.toNat ≤ (s.info a).rawRating.toNat
  adjusted : s.adjusted.Perm (s.ratings.filter fun h => (s.info h).rawRating != 0)
  ids : s.ids.Perm (s.ratings.filter fun h => (s.info h).id != 0)
  id_inj : ∀ a ∈ s.ids, ∀ b ∈ s.ids, (s.info a).id = (s.info b).id → a = b
  addrs : s.addrs.Perm (s.ratings.filter fun h => (s.info h).addr.isSome)
  addr_inj : ∀ a ∈ s.addrs, ∀ b ∈ s.addrs, (s.info a).addr = (s.info b).addr → a = b
  active : s.active.Perm (s.ratings.filter fun h => (s.info h).activeNow)

section Inv

variable {s s' : PeerManager A}

theorem Inv.mem_adjusted (hI : Inv s) {h : Nat} :
    h ∈ s.adjusted ↔ h ∈ s.ratings ∧ (s.info h).rawRating ≠ 0 := by
  rw [hI.adjusted.mem_iff, List.mem_filter, bne_iff_ne]

theorem Inv.mem_ids (hI : Inv s) {h : Nat} : h ∈ s.ids ↔ h ∈ s.ratings ∧ (s.info h).id ≠ 0 := by
  rw [hI.ids.mem_iff, List.mem_filter, bne_iff_ne]

theorem Inv.mem_addrs (hI : Inv s) {h : Nat} : h ∈ s.addrs ↔ h ∈ s.ratings ∧ (s.info h).addr.isSome := by
  rw [hI.addrs.mem_iff, List.mem_filter]

theorem Inv.mem_active (hI : Inv s) {h : Nat} :
    h ∈ s.active ↔ h ∈ s.ratings ∧ (s.info h).activeNow = true := by
  rw [hI.active.mem_iff, List.mem_filter]

theorem Inv.addrs_nodup (hI : Inv s) : s.addrs.Nodup := hI.addrs.nodup_iff.mpr (hI.nodup.filter _)

theorem Inv.active_nodup (hI : Inv s) : s.active.Nodup := hI.active.nodup_iff.mpr (hI.nodup.filter _)

/-- `m_AdjustedRatings` without `h`, as `SetRatingInternal` and `Delete` take
it out only if it is there. -/
theorem Inv.adjusted_erase (hI : Inv s) (h : Nat) :
    (if (s.info h).rawRating ≠ 0 then s.adjusted.erase h else s.adjusted) = s.adjusted.erase h := by
  split
  · rfl
  · rename_i h0
    have hna : h ∉ s.adjusted := fun hm => h0 (hI.mem_adjusted.mp hm).2
    rw [List.erase_of_not_mem hna]

/-- A field of a record that the update keeps. -/
theorem update_field {β : Type} (f : PeerInfo A → β) {info : Nat → PeerInfo A} {h : Nat} {pi : PeerInfo A}
    (hf : f pi = f (info h)) (g : Nat) : f (Function.update info h pi g) = f (info g) := by
  by_cases hg : g = h
  · subst hg
    rw [Function.update_self, hf]
  · rw [Function.update_of_ne hg]

/-- A step that keeps the containers and what they read of every record keeps
`Inv`. -/
theorem Inv.congr (hI : Inv s) (hr : s'.ratings = s.ratings) (hd : s'.adjusted = s.adjusted)
    (hi : s'.ids = s.ids) (ha : s'.addrs = s.addrs) (hc : s'.active = s.active)
    (hrat : ∀ g, (s'.info g).rawRating = (s.info g).rawRating) (hid : ∀ g, (s'.info g).id = (s.info g).id)
    (haddr : ∀ g, (s'.info g).addr = (s.info g).addr)
    (hnow : ∀ g, (s'.info g).activeNow = (s.info g).activeNow) : Inv s' where
  nodup := hr ▸ hI.nodup
  sorted := by simpa only [hr, hrat] using hI.sorted
  adjusted := by simpa only [hd, hr, hrat] using hI.adjusted
  ids := by simpa only [hi, hr, hid] using hI.ids
  id_inj := by simpa only [hi, hid] using hI.id_inj
  addrs := by simpa only [ha, hr, haddr] using hI.addrs
  addr_inj := by simpa only [ha, haddr] using hI.addr_inj
  active := by simpa only [hc, hr, hnow] using hI.active

/-- A record replaced by one the containers read the same. -/
theorem Inv.setInfo (hI : Inv s) {h : Nat} {pi : PeerInfo A} (hr : pi.rawRating = (s.info h).rawRating)
    (hid : pi.id = (s.info h).id) (ha : pi.addr = (s.info h).addr) (hn : pi.activeNow = (s.info h).activeNow) :
    Inv (s.setInfo h pi) :=
  hI.congr rfl rfl rfl rfl rfl (update_field PeerInfo.rawRating hr) (update_field PeerInfo.id hid)
    (update_field PeerInfo.addr ha) (update_field PeerInfo.activeNow hn)

theorem Inv.onSeen (hI : Inv s) (h : Nat) (ts : UInt64) : Inv (onSeen s h ts) :=
  hI.setInfo rfl rfl rfl rfl

theorem Inv.setNext (hI : Inv s) (h : Nat) (b : Bool) : Inv (setNext s h b) :=
  hI.setInfo rfl rfl rfl rfl

/-- **One record changed.**  A step that changes the record of one live peer `h`
only, keeps the live peers, and updates each container at `h` as the new record
says, keeps `Inv` if `m_Ratings` stays in order and IDs and addresses stay
apart. -/
theorem Inv.change (hI : Inv s) {h : Nat} (hh : h ∈ s.ratings) (hinfo : ∀ g, g ≠ h → s'.info g = s.info g)
    (hr : s'.ratings.Perm s.ratings)
    (hsorted : s'.ratings.Pairwise fun a b => (s'.info b).rawRating.toNat ≤ (s'.info a).rawRating.toNat)
    (hd : s'.adjusted.Perm (if (s'.info h).rawRating != 0 then h :: s.adjusted.erase h else s.adjusted.erase h))
    (hi : s'.ids.Perm (if (s'.info h).id != 0 then h :: s.ids.erase h else s.ids.erase h))
    (hid : ∀ a ∈ s'.ids, ∀ b ∈ s'.ids, (s'.info a).id = (s'.info b).id → a = b)
    (ha : s'.addrs.Perm (if (s'.info h).addr.isSome then h :: s.addrs.erase h else s.addrs.erase h))
    (haddr : ∀ a ∈ s'.addrs, ∀ b ∈ s'.addrs, (s'.info a).addr = (s'.info b).addr → a = b)
    (hc : s'.active.Perm (if (s'.info h).activeNow then h :: s.active.erase h else s.active.erase h)) :
    Inv s' where
  nodup := hr.nodup_iff.mpr hI.nodup
  sorted := hsorted
  adjusted :=
    (perm_filter_update hI.nodup hh hI.adjusted (fun g _ hg => by rw [hinfo g hg]) hd).trans (hr.filter _).symm
  ids := (perm_filter_update hI.nodup hh hI.ids (fun g _ hg => by rw [hinfo g hg]) hi).trans (hr.filter _).symm
  id_inj := hid
  addrs := (perm_filter_update hI.nodup hh hI.addrs (fun g _ hg => by rw [hinfo g hg]) ha).trans (hr.filter _).symm
  addr_inj := haddr
  active :=
    (perm_filter_update hI.nodup hh hI.active (fun g _ hg => by rw [hinfo g hg]) hc).trans (hr.filter _).symm

/-! The containers a step leaves alone, seen as updated at `h`. -/

theorem Inv.adjusted_self (hI : Inv s) {h : Nat} (hh : h ∈ s.ratings) {r : UInt32} (hr : r = (s.info h).rawRating) :
    s.adjusted.Perm (if r != 0 then h :: s.adjusted.erase h else s.adjusted.erase h) :=
  perm_ite_erase (by rw [hI.mem_adjusted, hr, bne_iff_ne]; exact and_iff_right hh)

theorem Inv.ids_self (hI : Inv s) {h : Nat} (hh : h ∈ s.ratings) {i : Nat} (hi : i = (s.info h).id) :
    s.ids.Perm (if i != 0 then h :: s.ids.erase h else s.ids.erase h) :=
  perm_ite_erase (by rw [hI.mem_ids, hi, bne_iff_ne]; exact and_iff_right hh)

theorem Inv.addrs_self (hI : Inv s) {h : Nat} (hh : h ∈ s.ratings) {a : Option A} (ha : a = (s.info h).addr) :
    s.addrs.Perm (if a.isSome then h :: s.addrs.erase h else s.addrs.erase h) :=
  perm_ite_erase (by rw [hI.mem_addrs, ha]; exact and_iff_right hh)

theorem Inv.active_self (hI : Inv s) {h : Nat} (hh : h ∈ s.ratings) {b : Bool} (hb : b = (s.info h).activeNow) :
    s.active.Perm (if b then h :: s.active.erase h else s.active.erase h) :=
  perm_ite_erase (by rw [hI.mem_active, hb]; exact and_iff_right hh)

/-- IDs stay apart when neither `m_IDs` nor any ID changes. -/
theorem Inv.id_inj_congr (hI : Inv s) (hi : s'.ids = s.ids) (hid : ∀ g, (s'.info g).id = (s.info g).id) :
    ∀ a ∈ s'.ids, ∀ b ∈ s'.ids, (s'.info a).id = (s'.info b).id → a = b := by
  simpa only [hi, hid] using hI.id_inj

/-- Addresses stay apart when neither `m_Addr` nor any address changes. -/
theorem Inv.addr_inj_congr (hI : Inv s) (ha : s'.addrs = s.addrs) (haddr : ∀ g, (s'.info g).addr = (s.info g).addr) :
    ∀ a ∈ s'.addrs, ∀ b ∈ s'.addrs, (s'.info a).addr = (s'.info b).addr → a = b := by
  simpa only [ha, haddr] using hI.addr_inj

/-- `m_Ratings` stays in order when no raw rating changes. -/
theorem Inv.sorted_congr (hI : Inv s) (hr : s'.ratings = s.ratings)
    (hrat : ∀ g, (s'.info g).rawRating = (s.info g).rawRating) :
    s'.ratings.Pairwise fun a b => (s'.info b).rawRating.toNat ≤ (s'.info a).rawRating.toNat := by
  simpa only [hr, hrat] using hI.sorted

/-! ## The operations on one peer -/

@[simp] theorem onActive_ratings (h : Nat) (b : Bool) (now : UInt32) : (onActive s h b now).ratings = s.ratings := by
  unfold PeerManager.onActive
  split <;> rfl

@[simp] theorem onActive_activeNow_self (h : Nat) (b : Bool) (now : UInt32) :
    ((onActive s h b now).info h).activeNow = b := by
  unfold PeerManager.onActive
  split
  · simp
  · rename_i hb
    simpa using hb

/-- `OnActive` on a live peer. -/
theorem Inv.onActive (hI : Inv s) {h : Nat} (hh : h ∈ s.ratings) (b : Bool) (now : UInt32) :
    Inv (onActive s h b now) := by
  unfold PeerManager.onActive
  split
  · rename_i hne
    let pi : PeerInfo A := { s.info h with activeNow := b, lastActivity := now }
    have hrat : ∀ g, (Function.update s.info h pi g).rawRating = (s.info g).rawRating :=
      update_field PeerInfo.rawRating rfl
    have hid : ∀ g, (Function.update s.info h pi g).id = (s.info g).id := update_field PeerInfo.id rfl
    have haddr : ∀ g, (Function.update s.info h pi g).addr = (s.info g).addr := update_field PeerInfo.addr rfl
    refine hI.change hh (fun g hg => Function.update_of_ne hg _ _) (List.Perm.refl _)
      (hI.sorted_congr rfl hrat) (hI.adjusted_self hh (hrat h)) (hI.ids_self hh (hid h))
      (hI.id_inj_congr rfl hid) (hI.addrs_self hh (haddr h)) (hI.addr_inj_congr rfl haddr) ?_
    -- `m_Active` takes the peer at its back, or lets it go
    simp only [setInfo_info, Function.update_self]
    cases b with
    | true =>
      have hna : h ∉ s.active := fun hm => by
        have := (hI.mem_active.mp hm).2
        simp_all
      rw [if_pos rfl, List.erase_of_not_mem hna]
      exact List.perm_append_singleton h s.active
    | false => simp
  · exact hI

/-! `RemoveAddr` -/

section RemoveAddr

variable (s : PeerManager A) (g : Nat)

@[simp] theorem removeAddr_ratings : (removeAddr s g).ratings = s.ratings := by
  unfold PeerManager.removeAddr
  split <;> rfl

theorem removeAddr_info_of_ne {g' : Nat} (hg : g' ≠ g) : (removeAddr s g).info g' = s.info g' := by
  unfold PeerManager.removeAddr
  split
  · exact Function.update_of_ne hg _ _
  · rfl

theorem removeAddr_info (x : Nat) :
    (removeAddr s g).info x = if x = g then { s.info x with addr := none } else s.info x := by
  unfold PeerManager.removeAddr
  split
  · by_cases hx : x = g
    · subst hx
      simp
    · simp [hx]
  · rename_i hn
    split
    · rename_i hx
      subst hx
      cases hs : s.info x
      simp_all
    · rfl

@[simp] theorem removeAddr_addr_self : ((removeAddr s g).info g).addr = none := by
  unfold PeerManager.removeAddr
  split
  · simp
  · rename_i hn
    simpa using hn

theorem Inv.removeAddr_addrs {s : PeerManager A} (hI : Inv s) (g : Nat) : (removeAddr s g).addrs = s.addrs.erase g := by
  unfold PeerManager.removeAddr
  split
  · rfl
  · rename_i hn
    have hna : g ∉ s.addrs := fun hm => hn (hI.mem_addrs.mp hm).2
    rw [List.erase_of_not_mem hna]

end RemoveAddr

theorem Inv.removeAddr (hI : Inv s) {h : Nat} (hh : h ∈ s.ratings) : Inv (removeAddr s h) := by
  unfold PeerManager.removeAddr
  split
  · let pi : PeerInfo A := { s.info h with addr := none }
    have hrat : ∀ g, (Function.update s.info h pi g).rawRating = (s.info g).rawRating :=
      update_field PeerInfo.rawRating rfl
    have hid : ∀ g, (Function.update s.info h pi g).id = (s.info g).id := update_field PeerInfo.id rfl
    have hnow : ∀ g, (Function.update s.info h pi g).activeNow = (s.info g).activeNow :=
      update_field PeerInfo.activeNow rfl
    refine hI.change hh (fun g hg => Function.update_of_ne hg _ _) (List.Perm.refl _)
      (hI.sorted_congr rfl hrat) (hI.adjusted_self hh (hrat h)) (hI.ids_self hh (hid h))
      (hI.id_inj_congr rfl hid) ?_ ?_ (hI.active_self hh (hnow h))
    · simp
    · intro a ha b hb hab
      have hah := (hI.addrs_nodup.mem_erase_iff.mp ha).1
      have hbh := (hI.addrs_nodup.mem_erase_iff.mp hb).1
      simp only [setInfo_info, Function.update_of_ne hah, Function.update_of_ne hbh] at hab
      exact hI.addr_inj a (List.mem_of_mem_erase ha) b (List.mem_of_mem_erase hb) hab
  · exact hI

/-- A peer of no address given one that no peer of `m_Addr` has. -/
theorem Inv.giveAddr (hI : Inv s) {h : Nat} (hh : h ∈ s.ratings) (hnone : (s.info h).addr = none) {a : A}
    (hfree : ∀ g ∈ s.addrs, (s.info g).addr ≠ some a) :
    Inv { s.setInfo h { s.info h with addr := some a } with addrs := h :: s.addrs } := by
  let pi : PeerInfo A := { s.info h with addr := some a }
  have hrat : ∀ g, (Function.update s.info h pi g).rawRating = (s.info g).rawRating :=
    update_field PeerInfo.rawRating rfl
  have hid : ∀ g, (Function.update s.info h pi g).id = (s.info g).id := update_field PeerInfo.id rfl
  have hnow : ∀ g, (Function.update s.info h pi g).activeNow = (s.info g).activeNow :=
    update_field PeerInfo.activeNow rfl
  have hna : h ∉ s.addrs := fun hm => by simpa [hnone] using (hI.mem_addrs.mp hm).2
  refine hI.change hh (fun g hg => Function.update_of_ne hg _ _) (List.Perm.refl _)
    (hI.sorted_congr rfl hrat) (hI.adjusted_self hh (hrat h)) (hI.ids_self hh (hid h))
    (hI.id_inj_congr rfl hid) ?_ ?_ (hI.active_self hh (hnow h))
  · simp [List.erase_of_not_mem hna]
  · -- `h` holds the new address, the others theirs, which are not it
    have hold : ∀ g ∈ s.addrs, Function.update s.info h pi g = s.info g := fun g hg =>
      Function.update_of_ne (ne_of_mem_of_not_mem hg hna) _ _
    intro x hx y hy hxy
    simp only [setInfo_info, List.mem_cons] at hx hy hxy
    rcases hx with rfl | hx <;> rcases hy with rfl | hy
    · rfl
    · rw [Function.update_self, hold y hy] at hxy
      exact absurd hxy.symm (hfree y hy)
    · rw [Function.update_self, hold x hx] at hxy
      exact absurd hxy (hfree x hx)
    · rw [hold x hx, hold y hy] at hxy
      exact hI.addr_inj x hx y hy hxy


/-! `SetRatingInternal` and `ResetRatingBoost` -/

variable (ins : AdjInsert A)

/-- `m_Ratings` with `h` taken out and put back by its new raw rating is the same
peers, in order. -/
theorem Inv.reinsert (hI : Inv s) {h : Nat} (hh : h ∈ s.ratings) {info : Nat → PeerInfo A}
    (hinfo : ∀ g, g ≠ h → info g = s.info g) :
    (insertRating info h (s.ratings.erase h)).Perm s.ratings ∧
      (insertRating info h (s.ratings.erase h)).Pairwise
        fun a b => (info b).rawRating.toNat ≤ (info a).rawRating.toNat := by
  refine ⟨(insertDesc_perm _ h _).trans (List.perm_cons_erase hh).symm, pairwise_insertDesc _ h ?_⟩
  refine (hI.sorted.sublist List.erase_sublist).imp_of_mem fun ha hb hab => ?_
  rw [hinfo _ (hI.nodup.mem_erase_iff.mp ha).1, hinfo _ (hI.nodup.mem_erase_iff.mp hb).1]
  exact hab

theorem Inv.setRatingInternal (hI : Inv s) {h : Nat} (hh : h ∈ s.ratings) (val : UInt32) (ban : Bool)
    (now : UInt32) : Inv (setRatingInternal ins s h val ban now) := by
  unfold PeerManager.setRatingInternal
  dsimp only
  rw [hI.adjusted_erase h]
  cases ban with
  | true =>
    rw [if_pos rfl]
    let pi : PeerInfo A := { s.info h with rawRating := 0 }
    have hinfo : ∀ g, g ≠ h → Function.update s.info h pi g = s.info g := fun g hg => Function.update_of_ne hg _ _
    have hid : ∀ g, (Function.update s.info h pi g).id = (s.info g).id := update_field PeerInfo.id rfl
    have haddr : ∀ g, (Function.update s.info h pi g).addr = (s.info g).addr := update_field PeerInfo.addr rfl
    have hnow : ∀ g, (Function.update s.info h pi g).activeNow = (s.info g).activeNow :=
      update_field PeerInfo.activeNow rfl
    have hr := hI.reinsert hh hinfo
    refine hI.change hh hinfo hr.1 hr.2 ?_ (hI.ids_self hh (hid h)) (hI.id_inj_congr rfl hid)
      (hI.addrs_self hh (haddr h)) (hI.addr_inj_congr rfl haddr) (hI.active_self hh (hnow h))
    -- a banned peer leaves `m_AdjustedRatings`
    simp
  | false =>
    rw [if_neg Bool.false_ne_true]
    let pi : PeerInfo A :=
      { s.info h with
        rawRating := if val ≠ 0 then val else 1
        boostFrom := if (s.info h).rawRating = 0 then now else (s.info h).boostFrom }
    have hinfo : ∀ g, g ≠ h → Function.update s.info h pi g = s.info g := fun g hg => Function.update_of_ne hg _ _
    have hid : ∀ g, (Function.update s.info h pi g).id = (s.info g).id := update_field PeerInfo.id rfl
    have haddr : ∀ g, (Function.update s.info h pi g).addr = (s.info g).addr := update_field PeerInfo.addr rfl
    have hnow : ∀ g, (Function.update s.info h pi g).activeNow = (s.info g).activeNow :=
      update_field PeerInfo.activeNow rfl
    have hr := hI.reinsert hh hinfo
    refine hI.change hh hinfo hr.1 hr.2 ?_ (hI.ids_self hh (hid h)) (hI.id_inj_congr rfl hid)
      (hI.addrs_self hh (haddr h)) (hI.addr_inj_congr rfl haddr) (hI.active_self hh (hnow h))
    -- a rating set is never `0`, so the peer is back in `m_AdjustedRatings`
    have hpos : (if val ≠ 0 then val else 1) ≠ 0 := by split <;> simp_all
    simp only [Function.update_self, bne_iff_ne, ne_eq, hpos, not_false_eq_true, if_true]
    exact ins.perm _ _ _ _

theorem Inv.setRating (hI : Inv s) {h : Nat} (hh : h ∈ s.ratings) (val now : UInt32) :
    Inv (setRating ins s h val now) :=
  hI.setRatingInternal ins hh val false now

theorem Inv.ban (hI : Inv s) {h : Nat} (hh : h ∈ s.ratings) (now : UInt32) : Inv (ban ins s h now) :=
  hI.setRatingInternal ins hh 0 true now

theorem Inv.resetRatingBoost (hI : Inv s) {h : Nat} (hh : h ∈ s.ratings) (now : UInt32) :
    Inv (resetRatingBoost ins s h now) := by
  unfold PeerManager.resetRatingBoost
  split
  · exact hI
  · rename_i h0
    let pi : PeerInfo A := { s.info h with boostFrom := now }
    have hrat : ∀ g, (Function.update s.info h pi g).rawRating = (s.info g).rawRating :=
      update_field PeerInfo.rawRating rfl
    have hid : ∀ g, (Function.update s.info h pi g).id = (s.info g).id := update_field PeerInfo.id rfl
    have haddr : ∀ g, (Function.update s.info h pi g).addr = (s.info g).addr := update_field PeerInfo.addr rfl
    have hnow : ∀ g, (Function.update s.info h pi g).activeNow = (s.info g).activeNow :=
      update_field PeerInfo.activeNow rfl
    refine hI.change hh (fun g hg => Function.update_of_ne hg _ _) (List.Perm.refl _)
      (hI.sorted_congr rfl hrat) ?_ (hI.ids_self hh (hid h)) (hI.id_inj_congr rfl hid)
      (hI.addrs_self hh (haddr h)) (hI.addr_inj_congr rfl haddr) (hI.active_self hh (hnow h))
    simp only [Function.update_self, bne_iff_ne, ne_eq, h0, not_false_eq_true, if_true]
    exact ins.perm _ _ _ _

/-! `Find`, `OnPeer`, `Delete` and `Clear`: peers come and go -/

/-- A new peer, with no address and not connected, in `m_Ratings` and
`m_AdjustedRatings` by its rating, and in `m_IDs` if it has an ID, that no peer
of `m_IDs` has. -/
theorem Inv.alloc (hI : Inv s) {fresh : Nat} (hf : fresh ∉ s.ratings) {pi : PeerInfo A}
    (hr : pi.rawRating ≠ 0) (ha : pi.addr = none) (hn : pi.activeNow = false)
    (hid : ∀ g ∈ s.ids, (s.info g).id ≠ pi.id) (now : UInt32) :
    Inv { s with
      info := Function.update s.info fresh pi
      ids := if pi.id ≠ 0 then fresh :: s.ids else s.ids
      ratings := insertRating (Function.update s.info fresh pi) fresh s.ratings
      adjusted := ins.insert (Function.update s.info fresh pi) now fresh s.adjusted } := by
  have hold : ∀ g ∈ s.ratings, Function.update s.info fresh pi g = s.info g :=
    fun g hg => Function.update_of_ne (ne_of_mem_of_not_mem hg hf) _ _
  have hperm : (insertRating (Function.update s.info fresh pi) fresh s.ratings).Perm (fresh :: s.ratings) :=
    insertDesc_perm _ fresh _
  have hfresh : Function.update s.info fresh pi fresh = pi := Function.update_self fresh pi s.info
  constructor
  · exact hperm.nodup_iff.mpr (List.nodup_cons.mpr ⟨hf, hI.nodup⟩)
  · refine pairwise_insertDesc _ fresh (hI.sorted.imp_of_mem fun ha hb hab => ?_)
    dsimp only
    rw [hold _ ha, hold _ hb]
    exact hab
  · refine (perm_filter_cons fresh hI.adjusted (fun g hg => by simp only [hold g hg]) ?_).trans (hperm.filter _).symm
    simp only [hfresh, bne_iff_ne, ne_eq, hr, not_false_eq_true, if_true]
    exact ins.perm _ _ _ _
  · refine (perm_filter_cons fresh hI.ids (fun g hg => by simp only [hold g hg]) ?_).trans (hperm.filter _).symm
    simp only [hfresh, bne_iff_ne, List.Perm.refl]
  · -- the new ID is no other peer's
    have hmem : ∀ x ∈ (if pi.id ≠ 0 then fresh :: s.ids else s.ids), x = fresh ∨ x ∈ s.ids := by
      intro x hx
      split at hx
      · exact List.mem_cons.mp hx
      · exact Or.inr hx
    have hlive : ∀ g ∈ s.ids, g ∈ s.ratings := fun g hg => (hI.mem_ids.mp hg).1
    intro a ha b hb hab
    dsimp only at hab
    rcases hmem a ha with rfl | ha' <;> rcases hmem b hb with rfl | hb'
    · rfl
    · rw [hfresh, hold b (hlive b hb')] at hab
      exact absurd hab.symm (hid b hb')
    · rw [hfresh, hold a (hlive a ha')] at hab
      exact absurd hab (hid a ha')
    · rw [hold a (hlive a ha'), hold b (hlive b hb')] at hab
      exact hI.id_inj a ha' b hb' hab
  · refine (perm_filter_cons fresh hI.addrs (fun g hg => by simp only [hold g hg]) ?_).trans (hperm.filter _).symm
    simp [ha]
  · intro a ha b hb hab
    dsimp only at hab
    rw [hold a (hI.mem_addrs.mp ha).1, hold b (hI.mem_addrs.mp hb).1] at hab
    exact hI.addr_inj a ha b hb hab
  · refine (perm_filter_cons fresh hI.active (fun g hg => by simp only [hold g hg]) ?_).trans (hperm.filter _).symm
    simp [hn]

/-- `Find` keeps `Inv` when the record `AllocPeer` gives is not live. -/
theorem Inv.find (hI : Inv s) (id : Nat) (bCreate : Bool) {fresh : Nat} (hf : fresh ∉ s.ratings) (now : UInt32) :
    Inv (find ins s id bCreate fresh now).2.2 := by
  unfold PeerManager.find
  split
  · exact hI
  · rename_i hnone
    split
    · refine hI.alloc ins hf (show ratingInitial ≠ 0 by decide) rfl rfl (fun g hg => ?_) now
      simpa using List.find?_eq_none.mp hnone g hg
    · exact hI

/-- The peer `Find` returns is live. -/
theorem Inv.find_mem (hI : Inv s) (id : Nat) (bCreate : Bool) (fresh : Nat) (now : UInt32) {h : Nat}
    (hh : (PeerManager.find ins s id bCreate fresh now).1 = some h) :
    h ∈ (PeerManager.find ins s id bCreate fresh now).2.2.ratings := by
  revert hh
  unfold PeerManager.find
  split
  · rename_i g hg
    rintro ⟨⟩
    exact (hI.mem_ids.mp (List.mem_of_find?_eq_some hg)).1
  · split
    · rintro ⟨⟩
      exact (insertDesc_perm _ _ _).mem_iff.mpr List.mem_cons_self
    · rintro ⟨⟩

/-- A peer with no address and not connected taken out of `m_Ratings`,
`m_AdjustedRatings` and `m_IDs`. -/
theorem Inv.erasePeer (hI : Inv s) {h : Nat} (ha : (s.info h).addr = none) (hn : (s.info h).activeNow = false) :
    Inv { s with
      ratings := s.ratings.erase h
      adjusted := if (s.info h).rawRating ≠ 0 then s.adjusted.erase h else s.adjusted
      ids := if (s.info h).id ≠ 0 then s.ids.erase h else s.ids } where
  nodup := hI.nodup.erase h
  sorted := hI.sorted.sublist List.erase_sublist
  adjusted := perm_filter_erase h hI.adjusted (by simp only [bne_iff_ne, List.Perm.refl])
  ids := perm_filter_erase h hI.ids (by simp only [bne_iff_ne, List.Perm.refl])
  id_inj := by
    have hsub : ∀ x ∈ (if (s.info h).id ≠ 0 then s.ids.erase h else s.ids), x ∈ s.ids := by
      split
      · exact fun x hx => List.mem_of_mem_erase hx
      · exact fun x hx => hx
    exact fun a ha b hb hab => hI.id_inj a (hsub a ha) b (hsub b hb) hab
  addrs := perm_filter_erase h hI.addrs (by simp [ha])
  addr_inj := hI.addr_inj
  active := perm_filter_erase h hI.active (by simp [hn])

theorem Inv.delete (hI : Inv s) {h : Nat} (hh : h ∈ s.ratings) (now : UInt32) : Inv (delete s h now) := by
  have h1 := hI.onActive hh false now
  have h2 := h1.removeAddr (by simpa using hh)
  exact h2.erasePeer (by simp) (by simp [removeAddr_info])

@[simp] theorem delete_ratings (h : Nat) (now : UInt32) : (delete s h now).ratings = s.ratings.erase h := by
  simp [PeerManager.delete]

theorem Inv.clearLoop (hI : Inv s) (now : UInt32) (n : Nat) : Inv (clearLoop now n s) := by
  induction n generalizing s with
  | zero => exact hI
  | succ n ih =>
    unfold PeerManager.clearLoop
    split
    · exact hI
    · rename_i h t hr
      exact ih (hI.delete (by simp [hr]) now)

theorem Inv.clear (hI : Inv s) (now : UInt32) : Inv (clear s now) := hI.clearLoop now _

/-! `Update` -/

section Update

variable (cfg : PeerCfg) (now : UInt32)

@[simp] theorem setNext_ratings (h : Nat) (b : Bool) : (setNext s h b).ratings = s.ratings := rfl

theorem Inv.unbanLoop (l : List Nat) (hI : Inv s) (hl : ∀ h ∈ l, h ∈ s.ratings) :
    Inv (unbanLoop ins cfg now l s) := by
  induction l with
  | nil => exact hI
  | cons h l ih =>
    unfold PeerManager.unbanLoop
    split
    · exact hI
    · split
      · exact hI.setRatingInternal ins (hl h List.mem_cons_self) 1 false now
      · exact ih fun g hg => hl g (List.mem_cons_of_mem h hg)

theorem Inv.markLoop (l : List Nat) (hI : Inv s) (n : Nat) :
    Inv (markLoop cfg now l (s, n)).1 ∧ (markLoop cfg now l (s, n)).1.ratings = s.ratings := by
  induction l generalizing s n with
  | nil => exact ⟨hI, rfl⟩
  | cons h l ih =>
    unfold PeerManager.markLoop
    exact ih (hI.setNext h _) _

@[simp] theorem activatePeerInternal_ratings (h n : Nat) :
    (activatePeerInternal cfg now s h n).1.ratings = s.ratings := by
  unfold PeerManager.activatePeerInternal
  dsimp only
  split_ifs <;> simp

theorem Inv.activatePeerInternal (hI : Inv s) {h : Nat} (hh : h ∈ s.ratings) (n : Nat) :
    Inv (activatePeerInternal cfg now s h n).1 := by
  unfold PeerManager.activatePeerInternal
  dsimp only
  split_ifs
  · exact hI
  · exact hI
  · exact hI
  · exact hI
  · exact (hI.setNext h true).onActive hh true now
  · exact hI.setNext h true

/-- The rule of the first selecting loop: what each selection keeps while fewer
than `m_DesiredTotal` peers are selected, the loop keeps. -/
theorem group1Loop_rec (Q : PeerManager A × Nat → Prop) {l : List Nat}
    (hstep : ∀ r h, h ∈ l → r.2 < cfg.desiredTotal → Q r → Q (activatePeerInternal cfg now r.1 h r.2)) :
    ∀ k r, Q r → Q (group1Loop cfg now l k r) := by
  induction l with
  | nil => exact fun _ _ hr => hr
  | cons h l ih =>
    intro k r hr
    obtain ⟨s, n⟩ := r
    unfold PeerManager.group1Loop
    split
    · rename_i hc
      exact ih (fun r g hg => hstep r g (List.mem_cons_of_mem h hg)) _ _ (hstep (s, n) h List.mem_cons_self hc.2 hr)
    · exact hr

/-- The rule of the second selecting loop. -/
theorem group2Loop_rec (Q : PeerManager A × Nat → Prop) {l : List Nat}
    (hstep : ∀ r h, h ∈ l → r.2 < cfg.desiredTotal → Q r → Q (activatePeerInternal cfg now r.1 h r.2)) :
    ∀ r, Q r → Q (group2Loop cfg now l r) := by
  induction l with
  | nil => exact fun _ hr => hr
  | cons h l ih =>
    intro r hr
    obtain ⟨s, n⟩ := r
    unfold PeerManager.group2Loop
    split
    · rename_i hc
      exact ih (fun r g hg => hstep r g (List.mem_cons_of_mem h hg)) _ (hstep (s, n) h List.mem_cons_self hc hr)
    · exact hr

/-- The rule of the disconnecting loop: what disconnecting a peer not selected
keeps, the loop keeps. -/
theorem removeExcess_rec (Q : PeerManager A → Prop) {l : List Nat}
    (hstep : ∀ s h, h ∈ l → (s.info h).activeNext = false → Q s → Q (onActive s h false now)) :
    ∀ s, Q s → Q (removeExcess now l s) := by
  induction l with
  | nil => exact fun _ hs => hs
  | cons h l ih =>
    intro s hs
    unfold PeerManager.removeExcess
    refine ih (fun s g hg => hstep s g (List.mem_cons_of_mem h hg)) _ ?_
    split
    · rename_i hn
      exact hstep s h List.mem_cons_self (by simpa using hn) hs
    · exact hs

/-- What a loop of `Update` selecting peers keeps: `Inv`, and the live peers. -/
theorem Inv.group1Loop (l : List Nat) (k : Nat) (r : PeerManager A × Nat) (hI : Inv r.1)
    (hl : ∀ h ∈ l, h ∈ r.1.ratings) :
    Inv (group1Loop cfg now l k r).1 ∧ (group1Loop cfg now l k r).1.ratings = r.1.ratings :=
  group1Loop_rec cfg now (fun r' => Inv r'.1 ∧ r'.1.ratings = r.1.ratings)
    (fun r' h hh _ hr' => ⟨hr'.1.activatePeerInternal cfg now (hr'.2 ▸ hl h hh) r'.2, by simp [hr'.2]⟩) k r ⟨hI, rfl⟩

theorem Inv.group2Loop (l : List Nat) (r : PeerManager A × Nat) (hI : Inv r.1) (hl : ∀ h ∈ l, h ∈ r.1.ratings) :
    Inv (group2Loop cfg now l r).1 ∧ (group2Loop cfg now l r).1.ratings = r.1.ratings :=
  group2Loop_rec cfg now (fun r' => Inv r'.1 ∧ r'.1.ratings = r.1.ratings)
    (fun r' h hh _ hr' => ⟨hr'.1.activatePeerInternal cfg now (hr'.2 ▸ hl h hh) r'.2, by simp [hr'.2]⟩) r ⟨hI, rfl⟩

theorem Inv.removeExcess (l : List Nat) (hI : Inv s) (hl : ∀ h ∈ l, h ∈ s.ratings) : Inv (removeExcess now l s) :=
  (removeExcess_rec now (fun s' => Inv s' ∧ s'.ratings = s.ratings)
    (fun s' h hh _ hs' => ⟨hs'.1.onActive (hs'.2 ▸ hl h hh) false now, by simp [hs'.2]⟩) s ⟨hI, rfl⟩).1

theorem Inv.update (hI : Inv s) : Inv (update ins cfg now s) := by
  unfold PeerManager.update
  dsimp only
  generalize hs1 : (if s.ticksLast ≠ 0 then PeerManager.unbanLoop ins cfg now s.ratings.reverse s else s) = s1
  have h1 : Inv s1 := by
    subst hs1
    split
    · exact hI.unbanLoop ins cfg now _ fun h hh => List.mem_reverse.mp hh
    · exact hI
  -- `Inv` does not read `m_TicksLast_ms`
  have h1' : Inv { s1 with ticksLast := now } :=
    h1.congr rfl rfl rfl rfl rfl (fun _ => rfl) (fun _ => rfl) (fun _ => rfl) (fun _ => rfl)
  have h2 := (h1'.markLoop cfg now s1.active 0).1
  generalize PeerManager.markLoop cfg now s1.active ({ s1 with ticksLast := now }, 0) = r2 at h2 ⊢
  have h3 := (h2.group1Loop cfg now r2.1.ratings 0 r2 fun h hh => hh).1
  generalize PeerManager.group1Loop cfg now r2.1.ratings 0 r2 = r3 at h3 ⊢
  have h4 := (h3.group2Loop cfg now r3.1.adjusted r3 fun h hh => (h3.mem_adjusted.mp hh).1).1
  generalize PeerManager.group2Loop cfg now r3.1.adjusted r3 = r4 at h4 ⊢
  exact h4.removeExcess now r4.1.active fun h hh => (h4.mem_active.mp hh).1

end Update

variable [DecidableEq A]

theorem Inv.modifyAddr (hI : Inv s) {h : Nat} (hh : h ∈ s.ratings) (addr : Option A) : Inv (modifyAddr s h addr) := by
  unfold PeerManager.modifyAddr
  split
  · exact hI
  · have h1 := hI.removeAddr hh
    cases addr with
    | none => exact h1
    | some a =>
      dsimp only
      split
      · -- the peer found with the address loses it first
        rename_i g hg
        have hgm := List.mem_of_find?_eq_some hg
        have hga : ((PeerManager.removeAddr s h).info g).addr = some a := by simpa using List.find?_some hg
        have hgh : h ≠ g := fun e => by simp [e] at hga
        have h2 := h1.removeAddr (h1.mem_addrs.mp hgm).1
        refine h2.giveAddr (by simpa using hh) (by rw [removeAddr_info_of_ne _ _ hgh]; simp) ?_
        intro x hx hxa
        rw [h1.removeAddr_addrs] at hx
        have hxg := (h1.addrs_nodup.mem_erase_iff.mp hx).1
        rw [removeAddr_info_of_ne _ _ hxg] at hxa
        exact hxg (h1.addr_inj x (List.mem_of_mem_erase hx) g hgm (hxa.trans hga.symm))
      · rename_i hn
        refine h1.giveAddr (by simpa using hh) (by simp) ?_
        intro x hx hxa
        simpa [hxa] using List.find?_eq_none.mp hn x hx

theorem Inv.onPeer (hI : Inv s) (cfg : PeerCfg) (id : Nat) (addr : Option A) (bAddrVerified : Bool) {fresh : Nat}
    (hf : fresh ∉ s.ratings) (now : UInt32) (ts : UInt64) :
    Inv (onPeer ins cfg s id addr bAddrVerified fresh now ts).2 := by
  have hF := hI.find ins id true hf now
  unfold PeerManager.onPeer
  split
  · exact hI
  · split
    · exact hI
    · split
      · rename_i h b s' heq
        have hM := hI.find_mem ins id true fresh now (h := h) (by rw [heq])
        rw [heq] at hF hM
        split
        · exact hF.modifyAddr hM addr
        · exact hF
      · rename_i b s' heq
        rw [heq] at hF
        exact hF


end Inv

/-! ## Every reachable state -/

/-- The states a `PeerManager` reaches from a new one, whose containers are
empty, through its public operations and any records: a peer `AllocPeer` gives
is not live, and an operation on a peer is on a live one. -/
inductive Reachable [DecidableEq A] (cfg : PeerCfg) (ins : AdjInsert A) : PeerManager A → Prop
  | init (info : Nat → PeerInfo A) : Reachable cfg ins ⟨info, [], [], [], [], [], 0⟩
  | find {s : PeerManager A} (id : Nat) (bCreate : Bool) {fresh : Nat} (now : UInt32) :
      Reachable cfg ins s → fresh ∉ s.ratings → Reachable cfg ins (find ins s id bCreate fresh now).2.2
  | onPeer {s : PeerManager A} (id : Nat) (addr : Option A) (bAddrVerified : Bool) {fresh : Nat} (now : UInt32)
      (ts : UInt64) :
      Reachable cfg ins s → fresh ∉ s.ratings →
        Reachable cfg ins (onPeer ins cfg s id addr bAddrVerified fresh now ts).2
  | onSeen {s : PeerManager A} (h : Nat) (ts : UInt64) : Reachable cfg ins s → Reachable cfg ins (onSeen s h ts)
  | setRating {s : PeerManager A} {h : Nat} (val now : UInt32) :
      Reachable cfg ins s → h ∈ s.ratings → Reachable cfg ins (setRating ins s h val now)
  | ban {s : PeerManager A} {h : Nat} (now : UInt32) :
      Reachable cfg ins s → h ∈ s.ratings → Reachable cfg ins (ban ins s h now)
  | resetRatingBoost {s : PeerManager A} {h : Nat} (now : UInt32) :
      Reachable cfg ins s → h ∈ s.ratings → Reachable cfg ins (resetRatingBoost ins s h now)
  | modifyAddr {s : PeerManager A} {h : Nat} (addr : Option A) :
      Reachable cfg ins s → h ∈ s.ratings → Reachable cfg ins (modifyAddr s h addr)
  | removeAddr {s : PeerManager A} {h : Nat} :
      Reachable cfg ins s → h ∈ s.ratings → Reachable cfg ins (removeAddr s h)
  | onActive {s : PeerManager A} {h : Nat} (bActive : Bool) (now : UInt32) :
      Reachable cfg ins s → h ∈ s.ratings → Reachable cfg ins (onActive s h bActive now)
  | delete {s : PeerManager A} {h : Nat} (now : UInt32) :
      Reachable cfg ins s → h ∈ s.ratings → Reachable cfg ins (delete s h now)
  | clear {s : PeerManager A} (now : UInt32) : Reachable cfg ins s → Reachable cfg ins (clear s now)
  | update {s : PeerManager A} (now : UInt32) : Reachable cfg ins s → Reachable cfg ins (update ins cfg now s)

theorem inv_init (info : Nat → PeerInfo A) : Inv (⟨info, [], [], [], [], [], 0⟩ : PeerManager A) where
  nodup := List.nodup_nil
  sorted := List.Pairwise.nil
  adjusted := List.Perm.nil
  ids := List.Perm.nil
  id_inj := by simp
  addrs := List.Perm.nil
  addr_inj := by simp
  active := List.Perm.nil

/-- **`Inv` holds in every reachable state**: whatever the operations and their
order, the containers of a `PeerManager` index its live peers, `m_Ratings` is in
order, and no two peers share an ID or an address. -/
theorem inv_of_reachable [DecidableEq A] {cfg : PeerCfg} {ins : AdjInsert A} {s : PeerManager A}
    (hs : Reachable cfg ins s) : Inv s := by
  induction hs with
  | init info => exact inv_init info
  | find id bCreate now _ hf ih => exact ih.find ins id bCreate hf now
  | onPeer id addr bAddrVerified now ts _ hf ih => exact ih.onPeer ins cfg id addr bAddrVerified hf now ts
  | onSeen h ts _ ih => exact ih.onSeen h ts
  | setRating val now _ hh ih => exact ih.setRating ins hh val now
  | ban now _ hh ih => exact ih.ban ins hh now
  | resetRatingBoost now _ hh ih => exact ih.resetRatingBoost ins hh now
  | modifyAddr addr _ hh ih => exact ih.modifyAddr hh addr
  | removeAddr _ hh ih => exact ih.removeAddr hh
  | onActive bActive now _ hh ih => exact ih.onActive hh bActive now
  | delete now _ hh ih => exact ih.delete hh now
  | clear now _ ih => exact ih.clear now
  | update now _ ih => exact ih.update ins cfg now

/-- The manager that has met one peer, of ID `7`, since it was new. -/
def metOne : PeerManager Unit :=
  (PeerManager.find AdjInsert.byKey ⟨fun _ => ⟨0, 0, 0, false, false, none, 0, 0⟩, [], [], [], [], [], 0⟩ 7 true 0 0).2.2

theorem inv_of_reachable_metOne : Inv metOne :=
  inv_of_reachable (@Reachable.find Unit _ {} AdjInsert.byKey _ 7 true 0 0 (Reachable.init _) List.not_mem_nil)

/-- `Clear` deletes every peer, whatever the order of `m_Ratings`. -/
theorem clearLoop_ratings (now : UInt32) : ∀ (n : Nat) (s : PeerManager A), s.ratings.length ≤ n →
    (clearLoop now n s).ratings = []
  | 0, s, hs => List.eq_nil_of_length_eq_zero (Nat.le_zero.mp hs)
  | n + 1, s, hs => by
    unfold PeerManager.clearLoop
    split
    · assumption
    · rename_i h t hr
      apply clearLoop_ratings now n
      rw [delete_ratings, hr, List.erase_cons_head]
      rw [hr, List.length_cons] at hs
      omega

/-- **`Clear` empties the manager**: no peer is left in any container. -/
theorem clear_empty {s : PeerManager A} (hI : Inv s) (now : UInt32) :
    (clear s now).ratings = [] ∧ (clear s now).adjusted = [] ∧ (clear s now).ids = [] ∧ (clear s now).addrs = [] ∧
      (clear s now).active = [] := by
  have hI' := hI.clear now
  have hr : (clear s now).ratings = [] := clearLoop_ratings now _ s le_rfl
  refine ⟨hr, ?_, ?_, ?_, ?_⟩
  · simpa [hr] using hI'.adjusted
  · simpa [hr] using hI'.ids
  · simpa [hr] using hI'.addrs
  · simpa [hr] using hI'.active

theorem clear_empty_metOne :
    (clear metOne 0).ratings = [] ∧ (clear metOne 0).adjusted = [] ∧ (clear metOne 0).ids = [] ∧
      (clear metOne 0).addrs = [] ∧ (clear metOne 0).active = [] :=
  clear_empty ((inv_init _).find AdjInsert.byKey 7 true List.not_mem_nil 0) 0

end PeerManager

end Beam
