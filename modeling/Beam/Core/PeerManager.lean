import Beam.Lib.IndexedList
import Mathlib.Data.Nat.Basic

/-!
# `PeerManager`

`src/core/peer_manager.cpp`.  The node keeps a record (`PeerInfo`) for each peer
it knows, and five intrusive containers threaded through hooks in the records:
`m_IDs` (the peers with a non-zero ID, by ID), `m_Ratings` (every peer, highest
raw rating first), `m_AdjustedRatings` (the peers not banned, by rating plus a
bonus growing with starvation), `m_Addr` (the peers with an address, by
address) and `m_Active` (the connected peers).  Records are handles into a
table; each container is the list of its handles in the container's order.

`m_AdjustedRatings` is ordered by a key that moves with the clock, so where its
tree puts a new handle depends on the tree's shape; the model leaves that place
to an `AdjInsert`, of which only that it inserts the handle is known.

* `Inv`: every container holds exactly the live peers its comment describes,
  each once, `m_Ratings` in order, and no two peers share an ID or an address;
* `inv_of_reachable`: every operation keeps `Inv`, so it holds in every state
  reached from an empty manager.
-/

namespace Beam

open IndexedList

/-- `PeerManager::PeerInfo`, the fields the manager reads; the address `none` is
the empty `io::Address`, the ID `0` is `Zero`. -/
structure PeerInfo (A : Type) where
  id : Nat
  rawRating : UInt32
  boostFrom : UInt32
  activeNow : Bool
  activeNext : Bool
  addr : Option A
  lastSeen : UInt64
  lastActivity : UInt32

/-- `PeerManager::Cfg`, the fields the manager reads. -/
structure PeerCfg where
  desiredHighest : Nat := 5
  desiredTotal : Nat := 10
  timeoutDisconnect : UInt32 := 1000 * 60 * 2
  timeoutReconnect : UInt32 := 1000
  timeoutBan : UInt32 := 1000 * 60 * 10
  timeoutAddrChange : UInt64 := 60 * 60 * 2

/-- `PeerManager`: the records of the peers by handle, its containers, and
`m_TicksLast_ms`. -/
structure PeerManager (A : Type) where
  info : Nat → PeerInfo A
  ids : List Nat
  ratings : List Nat
  adjusted : List Nat
  addrs : List Nat
  active : List Nat
  ticksLast : UInt32

namespace PeerManager

variable {A : Type}

/-- `Rating::Initial`. -/
def ratingInitial : UInt32 := 1024

/-- `Rating::Starvation_s_ToRatio`. -/
def starvationToRatio : UInt32 := 1

/-- `AdjustedRating::get` at the time `now`: the raw rating, plus a second's
worth for each second since `m_BoostFrom_ms` unless banned. -/
def adjustedGet (pi : PeerInfo A) (now : UInt32) : UInt32 :=
  if pi.rawRating ≠ 0 then pi.rawRating + (now - pi.boostFrom) / 1000 * starvationToRatio else pi.rawRating

/-- `m_Ratings.insert`: after every peer of a raw rating at least as high. -/
def insertRating (info : Nat → PeerInfo A) (h : Nat) (l : List Nat) : List Nat :=
  insertDesc (fun g => (info g).rawRating.toNat) h l

/-- `m_AdjustedRatings.insert` as the tree would place the handle if the keys of
`now` were those it was built with: after every peer of an adjusted rating at
least as high. -/
def insertAdjusted (info : Nat → PeerInfo A) (now : UInt32) (h : Nat) (l : List Nat) : List Nat :=
  insertDesc (fun g => (adjustedGet (info g) now).toNat) h l

/-- Where `m_AdjustedRatings.insert` puts a handle, given the records and the
time: some place in the container. -/
structure AdjInsert (A : Type) where
  insert : (Nat → PeerInfo A) → UInt32 → Nat → List Nat → List Nat
  perm : ∀ info now h l, (insert info now h l).Perm (h :: l)

/-- The insertion by the keys of the moment. -/
def AdjInsert.byKey : AdjInsert A :=
  ⟨insertAdjusted, fun info now h l => insertDesc_perm (fun g => (adjustedGet (info g) now).toNat) h l⟩

/-- The record of `h` replaced. -/
def setInfo (s : PeerManager A) (h : Nat) (pi : PeerInfo A) : PeerManager A :=
  { s with info := Function.update s.info h pi }

section SetInfo

variable (s : PeerManager A) (h : Nat) (pi : PeerInfo A)

@[simp] theorem setInfo_info : (s.setInfo h pi).info = Function.update s.info h pi := rfl
@[simp] theorem setInfo_ids : (s.setInfo h pi).ids = s.ids := rfl
@[simp] theorem setInfo_ratings : (s.setInfo h pi).ratings = s.ratings := rfl
@[simp] theorem setInfo_adjusted : (s.setInfo h pi).adjusted = s.adjusted := rfl
@[simp] theorem setInfo_addrs : (s.setInfo h pi).addrs = s.addrs := rfl
@[simp] theorem setInfo_active : (s.setInfo h pi).active = s.active := rfl
@[simp] theorem setInfo_ticksLast : (s.setInfo h pi).ticksLast = s.ticksLast := rfl

end SetInfo

variable [DecidableEq A] (ins : AdjInsert A)

/-- `PeerManager::Find(id, bCreate)`: the peer of that ID, and `bCreate` on return.
A new peer is the record `fresh` that `AllocPeer` gives, with a raw rating of
`Rating::Initial`, its bonus counted from `now`; `m_Active.m_Next`, which the
source leaves unset, is `false`. -/
def find (s : PeerManager A) (id : Nat) (bCreate : Bool) (fresh : Nat) (now : UInt32) :
    Option Nat × Bool × PeerManager A :=
  match s.ids.find? (fun g => (s.info g).id == id) with
  | some g => (some g, false, s)
  | none =>
    if bCreate then
      let info := Function.update s.info fresh
        { id, rawRating := ratingInitial, boostFrom := now, activeNow := false, activeNext := false,
          addr := none, lastSeen := 0, lastActivity := 0 }
      (some fresh, true,
        { s with
          info
          ids := if id ≠ 0 then fresh :: s.ids else s.ids
          ratings := insertRating info fresh s.ratings
          adjusted := ins.insert info now fresh s.adjusted })
    else (none, false, s)

/-- `PeerManager::OnSeen`, with `ts` what `getTimestamp` gives. -/
def onSeen (s : PeerManager A) (h : Nat) (ts : UInt64) : PeerManager A :=
  s.setInfo h { s.info h with lastSeen := ts }

/-- `PeerManager::SetRatingInternal(pi, val, ban)`: out of `m_Ratings` (and of
`m_AdjustedRatings` unless banned), the new raw rating (`0` for a ban, at least
`1` otherwise, with a fresh bonus for a peer that was banned), and back in. -/
def setRatingInternal (s : PeerManager A) (h : Nat) (val : UInt32) (ban : Bool) (now : UInt32) :
    PeerManager A :=
  let pi := s.info h
  let ratings := s.ratings.erase h
  let adjusted := if pi.rawRating ≠ 0 then s.adjusted.erase h else s.adjusted
  if ban then
    let info := Function.update s.info h { pi with rawRating := 0 }
    { s with info, adjusted, ratings := insertRating info h ratings }
  else
    let info := Function.update s.info h
      { pi with
        rawRating := if val ≠ 0 then val else 1
        boostFrom := if pi.rawRating = 0 then now else pi.boostFrom }
    { s with info, adjusted := ins.insert info now h adjusted, ratings := insertRating info h ratings }

/-- `PeerManager::SetRating`. -/
def setRating (s : PeerManager A) (h : Nat) (val : UInt32) (now : UInt32) : PeerManager A :=
  setRatingInternal ins s h val false now

/-- `PeerManager::Ban`. -/
def ban (s : PeerManager A) (h : Nat) (now : UInt32) : PeerManager A :=
  setRatingInternal ins s h 0 true now

/-- `PeerManager::ResetRatingBoost`: the bonus counted again from `now`. -/
def resetRatingBoost (s : PeerManager A) (h : Nat) (now : UInt32) : PeerManager A :=
  if (s.info h).rawRating = 0 then s
  else
    let info := Function.update s.info h { s.info h with boostFrom := now }
    { s with info, adjusted := ins.insert info now h (s.adjusted.erase h) }

/-- `PeerManager::RemoveAddr`. -/
def removeAddr (s : PeerManager A) (h : Nat) : PeerManager A :=
  if (s.info h).addr.isSome then
    { s.setInfo h { s.info h with addr := none } with addrs := s.addrs.erase h }
  else s

/-- `PeerManager::ModifyAddr`: a peer that had the new address loses it. -/
def modifyAddr (s : PeerManager A) (h : Nat) (addr : Option A) : PeerManager A :=
  if addr = (s.info h).addr then s
  else
    let s := removeAddr s h
    match addr with
    | none => s
    | some a =>
      let s := match s.addrs.find? (fun g => (s.info g).addr == some a) with
        | some g => removeAddr s g
        | none => s
      { s.setInfo h { s.info h with addr := some a } with addrs := h :: s.addrs }

/-- `PeerManager::OnActive`: a peer connected goes to the back of `m_Active`. -/
def onActive (s : PeerManager A) (h : Nat) (bActive : Bool) (now : UInt32) : PeerManager A :=
  if (s.info h).activeNow != bActive then
    { s.setInfo h { s.info h with activeNow := bActive, lastActivity := now } with
      active := if bActive then s.active ++ [h] else s.active.erase h }
  else s

/-- `PeerManager::IsOutdated`. -/
def isOutdated (cfg : PeerCfg) (s : PeerManager A) (h : Nat) (ts : UInt64) : Bool :=
  decide (ts - (s.info h).lastSeen > cfg.timeoutAddrChange)

/-- `PeerManager::OnPeer(id, addr, bAddrVerified)`: a peer of ID `Zero` is only
taken on a verified address, and found by it if it is known. -/
def onPeer (cfg : PeerCfg) (s : PeerManager A) (id : Nat) (addr : Option A) (bAddrVerified : Bool)
    (fresh : Nat) (now : UInt32) (ts : UInt64) : Option Nat × PeerManager A :=
  if id = 0 ∧ bAddrVerified = false then (none, s)
  else
    match (if id = 0 then s.addrs.find? (fun g => (s.info g).addr == addr) else none) with
    | some g => (some g, s)
    | none =>
      match find ins s id true fresh now with
      | (some h, _, s) =>
        if bAddrVerified || (s.info h).addr.isNone || isOutdated cfg s h ts then (some h, modifyAddr s h addr)
        else (some h, s)
      | (none, _, s) => (none, s)

/-- `PeerManager::Delete`. -/
def delete (s : PeerManager A) (h : Nat) (now : UInt32) : PeerManager A :=
  let s := removeAddr (onActive s h false now) h
  { s with
    ratings := s.ratings.erase h
    adjusted := if (s.info h).rawRating ≠ 0 then s.adjusted.erase h else s.adjusted
    ids := if (s.info h).id ≠ 0 then s.ids.erase h else s.ids }

/-- The loop of `PeerManager::Clear`, deleting the first of `m_Ratings` while
there is one, for at most `n` rounds. -/
def clearLoop (now : UInt32) : Nat → PeerManager A → PeerManager A
  | 0, s => s
  | n + 1, s =>
    match s.ratings with
    | [] => s
    | h :: _ => clearLoop now n (delete s h now)

/-- `PeerManager::Clear`: one round for each peer. -/
def clear (s : PeerManager A) (now : UInt32) : PeerManager A :=
  clearLoop now s.ratings.length s

/-! ## `Update` -/

section Update

variable (cfg : PeerCfg) (now : UInt32)

/-- The unban loop of `PeerManager::Update`, over `m_Ratings` from its back.  It
stops at the first peer not banned.  A banned peer idle for `m_TimeoutBan_ms`
gets a rating of `1`, and `SetRatingInternal` moves it in front of every banned
peer: the reverse iterator, which now points at it, next reads the peer before
it, which is not banned, and the loop stops there. -/
def unbanLoop : List Nat → PeerManager A → PeerManager A
  | [], s => s
  | h :: rest, s =>
    if (s.info h).rawRating ≠ 0 then s
    else if now - (s.info h).lastActivity ≥ cfg.timeoutBan then setRatingInternal ins s h 1 false now
    else unbanLoop rest s

/-- `m_Active.m_Next` of `h` set. -/
def setNext (s : PeerManager A) (h : Nat) (b : Bool) : PeerManager A :=
  s.setInfo h { s.info h with activeNext := b }

/-- The first loop over `m_Active` in `Update`: a peer connected for less than
`m_TimeoutDisconnect_ms` is kept, and counted. -/
def markLoop : List Nat → PeerManager A × Nat → PeerManager A × Nat
  | [], r => r
  | h :: hs, (s, n) =>
    let b := decide (now - (s.info h).lastActivity < cfg.timeoutDisconnect)
    markLoop hs (setNext s h b, if b then n + 1 else n)

/-- `PeerManager::ActivatePeerInternal`: a peer not yet selected, with an address,
not just disconnected and not banned, is selected, and connected if it is not. -/
def activatePeerInternal (s : PeerManager A) (h : Nat) (nSelected : Nat) : PeerManager A × Nat :=
  let pi := s.info h
  if pi.activeNow && pi.activeNext then (s, nSelected)
  else if pi.addr.isNone then (s, nSelected)
  else if !pi.activeNow && now - pi.lastActivity < cfg.timeoutReconnect then (s, nSelected)
  else if pi.rawRating = 0 then (s, nSelected)
  else
    let s := setNext s h true
    (if !pi.activeNow then onActive s h true now else s, nSelected + 1)

/-- The first group of `Update`: the peers of highest raw rating, at most
`m_DesiredHighest` of them looked at. -/
def group1Loop : List Nat → Nat → PeerManager A × Nat → PeerManager A × Nat
  | [], _, r => r
  | h :: hs, nHighest, (s, n) =>
    if nHighest < cfg.desiredHighest ∧ n < cfg.desiredTotal then
      group1Loop hs (nHighest + 1) (activatePeerInternal cfg now s h n)
    else (s, n)

/-- The second group of `Update`: the peers of highest adjusted rating. -/
def group2Loop : List Nat → PeerManager A × Nat → PeerManager A × Nat
  | [], r => r
  | h :: hs, (s, n) =>
    if n < cfg.desiredTotal then group2Loop hs (activatePeerInternal cfg now s h n) else (s, n)

/-- The last loop of `Update`: a connected peer not selected is disconnected. -/
def removeExcess : List Nat → PeerManager A → PeerManager A
  | [], s => s
  | h :: hs, s => removeExcess hs (if !(s.info h).activeNext then onActive s h false now else s)

/-- `PeerManager::Update` at the time `now`. -/
def update (s : PeerManager A) : PeerManager A :=
  let s := if s.ticksLast ≠ 0 then unbanLoop ins cfg now s.ratings.reverse s else s
  let s := { s with ticksLast := now }
  let r := markLoop cfg now s.active (s, 0)
  let r := group1Loop cfg now r.1.ratings 0 r
  let r := group2Loop cfg now r.1.adjusted r
  removeExcess now r.1.active r.1

end Update

end PeerManager

end Beam
