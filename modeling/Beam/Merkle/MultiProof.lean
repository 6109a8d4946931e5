import Beam.Merkle.ProofPath

/-!
# `Merkle::MultiProof`

`src/core/merkle.cpp`.  A `MultiProof` holds the proofs of several leaves of an
MMR in one array `m_vData`, each hash once.  `Builder::Add(i)` runs the proof
loop of the MMR for leaf `i` and appends each sibling's hash; `Verifier::Process(i)`
runs the same loop on a `PathCaclulator`, which knows the positions but no hash,
and reads the siblings back from `m_vData`.  Both keep in `m_vLast` the positions
of the siblings above the leaves of earlier proofs: once a proof reaches one of
them, the rest of it is that of the earlier proof, and both stop.  The verifier
kept with each position the hash it had there, and checks that it has it again.

The two objects are kept in step through a proof (`Corr`): the same positions on
their stacks, the verifier reading at `m_itPos` the hash the builder appended
there, and every hash on the verifier's stack that of the tree's node there.

* `Corr.found`, `Corr.push`, `Corr.path`, `Corr.add`, `Corr.addAll`: one node, one
  proof, one index and a run of indices keep the builder and the verifier in step;
* `multiProof_round_trip`: the verifier accepts what the builder wrote and reads
  it to its end;
* `multiProof_crop`: a verifier in crop mode stops where the data of a prefix of
  the indices ends, and that data verifies the prefix.
-/

namespace Beam.Merkle

open MountainRange

variable {σ β α : Type} (hJ : α → α → α)

namespace MultiProof

/-- `Merkle::Position` as (`H`, `X`). -/
abbrev Position := Nat × Nat

/-- The loop that opens both `AppendNode`s: entries are popped from the back of
`m_vLast` down to the first one higher than `pos`; an entry at `pos` ends the loop,
stays, and is returned. -/
def trimLast {γ : Type} (posOf : γ → Position) (pos : Position) : List γ → List γ × Option γ
  | [] => ([], none)
  | g :: rest =>
    if (posOf g).1 > pos.1 then (g :: rest, none)
    else if posOf g = pos then (g :: rest, some g)
    else trimLast posOf pos rest

/-- `MultiProof::Builder`: `data` is `m_This.m_vData`; `m_vLast` and `m_vLastRev`
have their backs first. -/
structure Builder (α : Type) where
  data : List α
  last : List Position
  lastRev : List Position
  skipSibling : Bool

/-- The builder over a `MultiProof` holding `data`. -/
def Builder.new (data : List α) : Builder α := ⟨data, [], [], false⟩

/-- `MultiProof::Builder::AppendNode`. -/
def Builder.appendNode (b : Builder α) (n : Bool × α) (h x : Nat) : Builder α × Bool :=
  match trimLast id (h, x) b.last with
  | (last, some _) => ({ b with last }, false)
  | (last, none) =>
    ({ b with
        last
        lastRev := if h ≠ 0 then (h, x) :: b.lastRev else b.lastRev
        data := if h ≠ 0 ∨ !b.skipSibling then b.data ++ [n.2] else b.data }, true)

/-- `m_vLastRev` moved onto `m_vLast`, its back first. -/
def moveRev {γ : Type} (rev last : List γ) : List γ := rev.reverse ++ last

/-- `MultiProof::Builder::Add(i)`, whose `get_Proof` is `Mmr::get_Proof` of an MMR
of `count` leaves over `st`. -/
def Builder.add [Inhabited α] (st : Store σ α) (count : Nat) (b : Builder α) (i : Nat) (s : σ) :
    Builder α × σ :=
  let r := proofInternalLoop hJ st count false Builder.appendNode 0 count i b s
  ({ r.1.1 with last := moveRev r.1.1.lastRev r.1.1.last, lastRev := [], skipSibling := false }, r.2)

/-- `Add` on each index in turn. -/
def Builder.addAll [Inhabited α] (st : Store σ α) (count : Nat) : Builder α → List Nat → σ → Builder α × σ
  | b, [], s => (b, s)
  | b, i :: is, s =>
    let r := Builder.add hJ st count b i s
    Builder.addAll st count r.1 is r.2

/-- `MultiProof::Verifier`: `data` is `m_vData` and `pos` is `m_itPos` in it;
`count` is the `m_Count` of its `PathCaclulator`; `m_vLast` and `m_vLastRev` hold
(`m_hv`, `m_Pos`), their backs first. -/
structure Verifier (α : Type) where
  data : List α
  pos : Nat
  count : Nat
  last : List (α × Position)
  lastRev : List (α × Position)
  hvPos : α
  hvSibling : Option α
  verify : Bool

/-- `Verifier(x, nCount)`; `m_hvPos` is left unset. -/
def Verifier.new [Inhabited α] (data : List α) (nCount : Nat) : Verifier α :=
  ⟨data, 0, nCount, [], [], default, none, true⟩

/-- `MultiProof::Verifier::AppendNode`. -/
def Verifier.appendNode [DecidableEq α] (v : Verifier α) (n : Bool × α) (h x : Nat) : Verifier α × Bool :=
  match trimLast Prod.snd (h, x) v.last with
  | (last, some mn) => ({ v with last, verify := v.verify && mn.1 == v.hvPos }, false)
  | (last, none) =>
    let lastRev := if h ≠ 0 then (v.hvPos, (h, x)) :: v.lastRev else v.lastRev
    match v.hvSibling with
    | some sib =>
      ({ v with
          last
          lastRev
          hvPos := if v.verify then interpret hJ v.hvPos sib n.1 else v.hvPos
          hvSibling := none }, true)
    | none =>
      match v.data[v.pos]? with
      | none =>
        ({ v with
            last
            lastRev
            verify := false }, false)
      | some sib =>
        ({ v with
            last
            lastRev
            pos := v.pos + 1
            hvPos := if v.verify then interpret hJ v.hvPos sib n.1 else v.hvPos }, true)

/-- `MultiProof::Verifier::Process(i)`, with the virtual `IsRootValid`. -/
def Verifier.process [Inhabited α] [DecidableEq α] (isRootValid : α → Bool) (v : Verifier α) (i : Nat) :
    Verifier α :=
  if i ≥ v.count then { v with verify := false }
  else
    let r := proofInternalLoop hJ pathCalculator v.count true (Verifier.appendNode hJ) 0 v.count i v ()
    let w := if r.1.2 && r.1.1.verify && !isRootValid r.1.1.hvPos then { r.1.1 with verify := false } else r.1.1
    { w with last := moveRev w.lastRev w.last, lastRev := [] }

/-- `m_hvPos` set to the leaf's hash, then `Process`, on each index in turn. -/
def Verifier.processAll [Inhabited α] [DecidableEq α] (isRootValid : α → Bool) (leaf : Nat → α) :
    Verifier α → List Nat → Verifier α
  | v, [] => v
  | v, i :: is => Verifier.processAll isRootValid leaf (Verifier.process hJ isRootValid { v with hvPos := leaf i } i) is

end MultiProof

namespace MultiProof

/-! ## `m_vLast` -/

section TrimLast

variable {γ δ : Type} (posOf : γ → Position) (pos : Position)

theorem trimLast_map (g : δ → γ) : ∀ l : List δ,
    trimLast posOf pos (l.map g) =
      ((trimLast (posOf ∘ g) pos l).1.map g, (trimLast (posOf ∘ g) pos l).2.map g)
  | [] => rfl
  | d :: l => by
    simp only [List.map_cons, trimLast, Function.comp_apply]
    by_cases hgt : (posOf (g d)).1 > pos.1
    · simp [hgt]
    · by_cases heq : posOf (g d) = pos
      · simp [heq]
      · simp only [hgt, heq, if_false]
        exact trimLast_map g l

/-- What is left of `m_vLast` is what was under the popped entries. -/
theorem trimLast_suffix : ∀ l : List γ, (trimLast posOf pos l).1 <:+ l
  | [] => List.suffix_refl _
  | g :: l => by
    unfold trimLast
    split_ifs
    · exact List.suffix_refl _
    · exact List.suffix_refl _
    · exact (trimLast_suffix l).trans (List.suffix_cons g l)

theorem trimLast_found : ∀ {l : List γ} {g : γ}, (trimLast posOf pos l).2 = some g → g ∈ l ∧ posOf g = pos
  | [], _, h => by simp [trimLast] at h
  | g' :: l, g, h => by
    unfold trimLast at h
    split_ifs at h with hgt heq
    · simp only [Option.some.injEq] at h
      subst h
      exact ⟨List.mem_cons_self, heq⟩
    · exact (trimLast_found h).imp (List.mem_cons_of_mem g') id

end TrimLast

/-! ## The builder and the verifier in step -/

/-- The builder and a verifier of the data `D` of leaves `f`, after the same
indices: the verifier reads where the builder's data ends, both stacks hold the
same positions, and while it verifies, each hash on the verifier's stack is the
cut of the node beside its position. -/
structure Corr (f : Nat → α) (count : Nat) (D : List α) (b : Builder α) (v : Verifier α) : Prop where
  data_eq : v.data = D
  pos_eq : v.pos = b.data.length
  count_eq : v.count = count
  last_eq : v.last.map Prod.snd = b.last
  lastRev_eq : v.lastRev.map Prod.snd = b.lastRev
  sibling_eq : v.hvSibling = none
  skip_eq : b.skipSibling = false
  hashes : v.verify = true → ∀ e ∈ v.last ++ v.lastRev, some e.1 = cut hJ f count e.2.1 (e.2.2 ^^^ 1)

/-- Both handed the same nodes: they stop together, stay in step, the verifier
keeps `m_bVerify`, and if it ran to the end while verifying its hash is `top`. -/
structure Synced (f : Nat → α) (count : Nat) (D : List α) (verify : Bool) (top : Option α)
    (rb : Builder α × Bool) (rv : Verifier α × Bool) : Prop where
  stop_eq : rb.2 = rv.2
  corr : Corr hJ f count D rb.1 rv.1
  verify_eq : rv.1.verify = verify
  top_eq : rv.2 = true → verify = true → some rv.1.hvPos = top

section Step

variable {hJ} [Inhabited α] [DecidableEq α] {f : Nat → α} {count : Nat} {D : List α} {b : Builder α} {v : Verifier α}

omit [Inhabited α] [DecidableEq α] in
theorem Builder.data_prefix_appendNode (n : Bool × α) (h x : Nat) :
    b.data <+: (Builder.appendNode b n h x).1.data := by
  unfold Builder.appendNode
  split
  · exact List.prefix_refl _
  · dsimp only
    split_ifs
    · exact List.prefix_append _ _
    · exact List.prefix_refl _

omit [Inhabited α] [DecidableEq α] in
theorem Builder.data_prefix_appendAll (hash : Bool × Nat × Nat → α) :
    ∀ (b : Builder α) (l : List (Bool × Nat × Nat)), b.data <+: (appendAll Builder.appendNode hash b l).1.data
  | b, [] => List.prefix_refl _
  | b, e :: es => by
    have h1 := Builder.data_prefix_appendNode (b := b) (e.1, hash e) e.2.1 e.2.2
    simp only [appendAll]
    split
    · exact h1.trans (Builder.data_prefix_appendAll hash _ es)
    · exact h1

omit [Inhabited α] [DecidableEq α] in
theorem xor_one_xor_one (i : Nat) : i ^^^ 1 ^^^ 1 = i := by
  rw [Nat.xor_assoc, Nat.xor_self, Nat.xor_zero]

omit [Inhabited α] [DecidableEq α] in
/-- The next hash of the data, where the builder has just appended it. -/
theorem getElem?_of_prefix {l D : List α} {a : α} (hD : l ++ [a] <+: D) : D[l.length]? = some a := by
  obtain ⟨t, rfl⟩ := hD
  simp

omit [Inhabited α] in
/-- An entry at the position reached was pushed by an earlier proof through the
same node: the verifier's hash there is the one it has now. -/
theorem Corr.found (hc : Corr hJ f count D b v) {h i : Nat} (hv : v.verify = true → some v.hvPos = cut hJ f count h i)
    {L : List (α × Position)} {mn : α × Position}
    (ht : trimLast Prod.snd (h, i ^^^ 1) v.last = (L, some mn)) :
    Synced hJ f count D v.verify (cut hJ f count (h + 1) (i / 2))
      (Builder.appendNode b (!(i &&& 1 != 0), a) h (i ^^^ 1))
      (Verifier.appendNode hJ v (!(i &&& 1 != 0), a') h (i ^^^ 1)) := by
  have hb : trimLast id (h, i ^^^ 1) b.last = (L.map Prod.snd, some mn.2) := by
    rw [← hc.last_eq, trimLast_map, Function.id_comp, ht]
    rfl
  obtain ⟨hmem, hpos⟩ := trimLast_found Prod.snd (h, i ^^^ 1) (congrArg Prod.snd ht)
  have hsub : ∀ e ∈ L ++ v.lastRev, e ∈ v.last ++ v.lastRev := by
    have hL := (trimLast_suffix Prod.snd (h, i ^^^ 1) v.last).subset
    rw [ht] at hL
    intro e he
    rcases List.mem_append.mp he with he | he
    · exact List.mem_append_left _ (hL he)
    · exact List.mem_append_right _ he
  have hverify : (v.verify && mn.1 == v.hvPos) = v.verify := by
    cases hvf : v.verify
    · rfl
    · have hmn := hc.hashes hvf mn (List.mem_append_left _ hmem)
      rw [hpos, xor_one_xor_one, ← hv hvf, Option.some.injEq] at hmn
      simp [hmn]
  simp only [Builder.appendNode, Verifier.appendNode, hb, ht]
  refine ⟨rfl, ⟨hc.data_eq, hc.pos_eq, hc.count_eq, rfl, hc.lastRev_eq, hc.sibling_eq, hc.skip_eq, ?_⟩,
    hverify, by simp⟩
  intro hvf e he
  rw [hverify] at hvf
  exact hc.hashes hvf e (hsub e he)

/-- A position no earlier proof reached: the builder appends the sibling's hash,
the verifier reads it back and climbs with it to the cut one height up. -/
theorem Corr.push (hc : Corr hJ f count D b v) {h i : Nat} (hi : i * 2 ^ h < count)
    (hskip : ¬((!(i &&& 1 != 0)) = true ∧ count ≤ (i ^^^ 1) <<< h))
    (hv : v.verify = true → some v.hvPos = cut hJ f count h i)
    {L : List (α × Position)} (ht : trimLast Prod.snd (h, i ^^^ 1) v.last = (L, none))
    (hD : (Builder.appendNode b (!(i &&& 1 != 0),
      (proofSibling hJ (Store.ofFun fun h x => node hJ f h x) count h (i ^^^ 1) (!(i &&& 1 != 0)) ()).1) h
        (i ^^^ 1)).1.data <+: D) :
    Synced hJ f count D v.verify (cut hJ f count (h + 1) (i / 2))
      (Builder.appendNode b (!(i &&& 1 != 0),
        (proofSibling hJ (Store.ofFun fun h x => node hJ f h x) count h (i ^^^ 1) (!(i &&& 1 != 0)) ()).1) h
          (i ^^^ 1))
      (Verifier.appendNode hJ v (!(i &&& 1 != 0), a') h (i ^^^ 1)) := by
  set sib := (proofSibling hJ (Store.ofFun fun h x => node hJ f h x) count h (i ^^^ 1) (!(i &&& 1 != 0)) ()).1
  have hb : trimLast id (h, i ^^^ 1) b.last = (L.map Prod.snd, none) := by
    rw [← hc.last_eq, trimLast_map, Function.id_comp, ht]
    rfl
  have hsub := (trimLast_suffix Prod.snd (h, i ^^^ 1) v.last).subset
  rw [ht] at hsub
  simp only [Builder.appendNode, hb, hc.skip_eq, Bool.not_false, or_true, if_true] at hD
  have hread : v.data[v.pos]? = some sib := by
    rw [hc.data_eq, hc.pos_eq]
    exact getElem?_of_prefix hD
  have hclimb : v.verify = true → some (interpret hJ v.hvPos sib (!(i &&& 1 != 0))) = cut hJ f count (h + 1) (i / 2) :=
    fun hvf => by
      rw [← cut_map_interpretNode hi hskip, ← hv hvf]
      rfl
  simp only [Builder.appendNode, Verifier.appendNode, hb, ht, hc.sibling_eq, hread, hc.skip_eq, Bool.not_false,
    or_true, if_true]
  refine ⟨rfl, ⟨hc.data_eq, by simp [hc.pos_eq], hc.count_eq, rfl, ?_, rfl, rfl, ?_⟩, rfl, ?_⟩
  · split_ifs <;> simp [hc.lastRev_eq]
  · intro hvf e he
    have hold : ∀ e ∈ L ++ v.lastRev, some e.1 = cut hJ f count e.2.1 (e.2.2 ^^^ 1) := fun e he =>
      hc.hashes hvf e (by
        rcases List.mem_append.mp he with he | he
        · exact List.mem_append_left _ (hsub he)
        · exact List.mem_append_right _ he)
    split_ifs at he
    · rcases List.mem_append.mp he with he | he
      · exact hold e (List.mem_append_left _ he)
      · rcases List.mem_cons.mp he with rfl | he
        · rw [xor_one_xor_one]
          exact hv hvf
        · exact hold e (List.mem_append_right _ he)
    · exact hold e he
  · intro _ hvf
    simp only [hvf, if_true]
    exact hclimb hvf

/-- Above the highest leaf only the first tree is left. -/
theorem ancestor_eq_zero {h i : Nat} (hi : i * 2 ^ h < count) (hlt : count < 2 ^ h) : i = 0 := by
  have := Nat.lt_of_mul_lt_mul_right (show i * 2 ^ h < 1 * 2 ^ h by omega)
  omega

/-- **A proof keeps them in step.**  Handed the nodes of a leaf's path from
height `h`, where the verifier holds the cut of the ancestor, the builder and the
verifier stop together and stay in step, and a verifier that ran to the top holds
the root. -/
theorem Corr.path : ∀ (n h i : Nat) (b : Builder α) (v : Verifier α), n = count / 2 ^ h → i * 2 ^ h < count →
    Corr hJ f count D b v → (v.verify = true → some v.hvPos = cut hJ f count h i) →
    (appendAll Builder.appendNode (fun e => (proofSibling hJ (Store.ofFun fun h x => node hJ f h x) count
      e.2.1 e.2.2 e.1 ()).1) b (pathNodes count h n i)).1.data <+: D →
    Synced hJ f count D v.verify (root hJ f count)
      (appendAll Builder.appendNode (fun e => (proofSibling hJ (Store.ofFun fun h x => node hJ f h x) count
        e.2.1 e.2.2 e.1 ()).1) b (pathNodes count h n i))
      (appendAll (Verifier.appendNode hJ) (fun _ => default) v (pathNodes count h n i)) := by
  intro n
  induction n using Nat.strong_induction_on with
  | _ n ih =>
    intro h i b v hn hi hc hv hD
    by_cases h0 : n = 0
    · subst h0
      have hlt : count < 2 ^ h := (Nat.div_eq_zero_iff_lt (Nat.two_pow_pos h)).mp hn.symm
      obtain rfl := ancestor_eq_zero hi hlt
      rw [pathNodes, if_pos rfl]
      exact ⟨rfl, hc, rfl, fun _ hvf => (hv hvf).trans (cut_eq_root hlt)⟩
    have hrec := fun b' v' => ih (n / 2) (by omega) (h + 1) (i / 2) b' v' (count_div_succ hn) (proof_next hi)
    rw [pathNodes_eq h0] at hD ⊢
    by_cases hs : (!(i &&& 1 != 0)) = true ∧ count ≤ (i ^^^ 1) <<< h
    · -- no node at this height: the ancestor one height up has the same cut
      rw [if_pos hs] at hD ⊢
      have hpar : i % 2 = 0 := by
        have := hs.1
        simp only [Nat.and_one_is_mod, Bool.not_eq_true', bne_eq_false_iff_eq] at this
        exact this
      rw [xor_one_of_mod_two_eq_zero hpar, Nat.shiftLeft_eq] at hs
      exact hrec b v hc (fun hvf => (hv hvf).trans (cut_succ_even_of_le hpar hs.2).symm) hD
    · rw [if_neg hs] at hD ⊢
      simp only [appendAll] at hD ⊢
      set sib := (proofSibling hJ (Store.ofFun fun h x => node hJ f h x) count h (i ^^^ 1) (!(i &&& 1 != 0)) ()).1
      have hD1 : (Builder.appendNode b (!(i &&& 1 != 0), sib) h (i ^^^ 1)).1.data <+: D := by
        split at hD
        · exact (Builder.data_prefix_appendAll _ _ _).trans hD
        · exact hD
      obtain ⟨L, o, ht⟩ : ∃ L o, trimLast Prod.snd (h, i ^^^ 1) v.last = (L, o) := ⟨_, _, rfl⟩
      have hstep : Synced hJ f count D v.verify (cut hJ f count (h + 1) (i / 2))
          (Builder.appendNode b (!(i &&& 1 != 0), sib) h (i ^^^ 1))
          (Verifier.appendNode hJ v (!(i &&& 1 != 0), default) h (i ^^^ 1)) := by
        cases o with
        | some mn => exact hc.found hv ht
        | none => exact hc.push hi hs hv ht hD1
      obtain ⟨hstop, hcorr, hverify, htop⟩ := hstep
      cases hgo : (Verifier.appendNode hJ v (!(i &&& 1 != 0), default) h (i ^^^ 1)).2
      · rw [hgo] at hstop
        simp only [hstop, Bool.false_eq_true, if_false]
        exact ⟨rfl, hcorr, hverify, by simp⟩
      · rw [hgo] at hstop
        simp only [hstop, if_true] at hD ⊢
        have hnext := hrec _ _ hcorr (fun hvf => htop hgo (hverify ▸ hvf)) hD
        rw [hverify] at hnext
        exact hnext

omit [Inhabited α] [DecidableEq α] in
/-- `m_vLastRev` moved onto `m_vLast` on both sides. -/
theorem Corr.moveRev (hc : Corr hJ f count D b v) :
    Corr hJ f count D { b with last := moveRev b.lastRev b.last, lastRev := [], skipSibling := false }
      { v with last := moveRev v.lastRev v.last, lastRev := [] } := by
  refine ⟨hc.data_eq, hc.pos_eq, hc.count_eq, ?_, rfl, hc.sibling_eq, rfl, fun hvf e he => hc.hashes hvf e ?_⟩
  · simp [MultiProof.moveRev, ← hc.last_eq, ← hc.lastRev_eq, List.map_reverse]
  · simp only [MultiProof.moveRev, List.append_nil, List.mem_append, List.mem_reverse] at he
    exact List.mem_append.mpr he.symm

/-- **One index.**  `Add(i)` and `Process(i)` from the leaf's hash keep the
builder and the verifier in step, and `Process` keeps `m_bVerify`. -/
theorem Corr.add {isRootValid : α → Bool} (hroot : ∀ a, some a = root hJ f count → isRootValid a = true)
    (hc : Corr hJ f count D b v) {i : Nat} (hi : i < count) (hv : v.verify = true → v.hvPos = f i)
    (hD : (Builder.add hJ (Store.ofFun fun h x => node hJ f h x) count b i ()).1.data <+: D) :
    Corr hJ f count D (Builder.add hJ (Store.ofFun fun h x => node hJ f h x) count b i ()).1
        (Verifier.process hJ isRootValid v i) ∧
      (Verifier.process hJ isRootValid v i).verify = v.verify := by
  have hv0 : v.verify = true → some v.hvPos = cut hJ f count 0 i := fun hvf => by rw [hv hvf, cut_zero hi]
  unfold Builder.add at hD ⊢
  unfold Verifier.process
  rw [hc.count_eq, if_neg (Nat.not_le.mpr hi)]
  simp only [proofInternalLoop_unit, Bool.false_eq_true, if_false, if_true] at hD ⊢
  obtain ⟨hstop, hcorr, hverify, htop⟩ := hc.path count 0 i b v (by simp) (by simpa using hi) hv0 hD
  -- a verifier that reached the top holds the root, which `IsRootValid` accepts
  have hcheck : ((appendAll (Verifier.appendNode hJ) (fun _ => default) v (pathNodes count 0 count i)).2 &&
      (appendAll (Verifier.appendNode hJ) (fun _ => default) v (pathNodes count 0 count i)).1.verify &&
      !isRootValid (appendAll (Verifier.appendNode hJ) (fun _ => default) v (pathNodes count 0 count i)).1.hvPos) =
      false := by
    cases hgo : (appendAll (Verifier.appendNode hJ) (fun _ => default) v (pathNodes count 0 count i)).2
    · rfl
    · cases hvf : (appendAll (Verifier.appendNode hJ) (fun _ => default) v (pathNodes count 0 count i)).1.verify
      · rfl
      · rw [hverify] at hvf
        simp [hroot _ (htop hgo hvf)]
  simp only [hcheck, Bool.false_eq_true, if_false]
  exact ⟨hcorr.moveRev, hverify⟩

/-! ## Runs -/

omit [DecidableEq α] in
theorem Builder.data_prefix_add (st : Store Unit α) (b : Builder α) (i : Nat) (s : Unit) :
    b.data <+: (Builder.add hJ st count b i s).1.data := by
  cases s
  simp only [Builder.add, proofInternalLoop_unit]
  exact Builder.data_prefix_appendAll _ _ _

omit [DecidableEq α] in
/-- `m_vData` only grows. -/
theorem Builder.data_prefix_addAll (st : Store Unit α) :
    ∀ (is : List Nat) (b : Builder α) (s : Unit), b.data <+: (Builder.addAll hJ st count b is s).1.data
  | [], _, _ => List.prefix_refl _
  | i :: is, b, s => (Builder.data_prefix_add st b i s).trans (Builder.data_prefix_addAll st is _ _)

omit [DecidableEq α] in
theorem Builder.addAll_append (st : Store σ α) : ∀ (l1 l2 : List Nat) (b : Builder α) (s : σ),
    Builder.addAll hJ st count b (l1 ++ l2) s =
      Builder.addAll hJ st count (Builder.addAll hJ st count b l1 s).1 l2 (Builder.addAll hJ st count b l1 s).2
  | [], _, _, _ => rfl
  | _ :: l1, l2, _, _ => Builder.addAll_append st l1 l2 _ _

omit [Inhabited α] [DecidableEq α] in
/-- A fresh builder and a fresh verifier of `D`, whatever its `m_hvPos` and `m_bVerify`. -/
theorem Corr.start (D : List α) (a : α) (verify : Bool) :
    Corr hJ f count D (Builder.new []) ⟨D, 0, count, [], [], a, none, verify⟩ :=
  ⟨rfl, rfl, rfl, rfl, rfl, rfl, rfl, fun _ _ he => by simp at he⟩

/-- **A run keeps them in step.**  `Add` and `Process` from each leaf's hash, on
the same indices below `count`, keep the builder and the verifier in step, and
the verifier keeps `m_bVerify`. -/
theorem Corr.addAll {isRootValid : α → Bool} (hroot : ∀ a, some a = root hJ f count → isRootValid a = true) :
    ∀ (is : List Nat) (b : Builder α) (v : Verifier α), (∀ i ∈ is, i < count) → Corr hJ f count D b v →
      (Builder.addAll hJ (Store.ofFun fun h x => node hJ f h x) count b is ()).1.data <+: D →
      Corr hJ f count D (Builder.addAll hJ (Store.ofFun fun h x => node hJ f h x) count b is ()).1
          (Verifier.processAll hJ isRootValid f v is) ∧
        (Verifier.processAll hJ isRootValid f v is).verify = v.verify
  | [], _, _, _, hc, _ => ⟨hc, rfl⟩
  | i :: is, b, v, his, hc, hD => by
    have hc' : Corr hJ f count D b { v with hvPos := f i } :=
      ⟨hc.data_eq, hc.pos_eq, hc.count_eq, hc.last_eq, hc.lastRev_eq, hc.sibling_eq, hc.skip_eq, hc.hashes⟩
    have hD1 := (Builder.data_prefix_addAll _ is _ _).trans hD
    obtain ⟨hc1, hv1⟩ := hc'.add hroot (his i List.mem_cons_self) (fun _ => rfl) hD1
    obtain ⟨hc2, hv2⟩ := Corr.addAll hroot is _ _ (fun j hj => his j (List.mem_cons_of_mem i hj)) hc1 hD
    exact ⟨hc2, hv2.trans hv1⟩

/-- In crop mode (`m_bVerify` unset, no leaf hash given) `Process` still reads
what `Add` wrote. -/
theorem Corr.crop {isRootValid : α → Bool} (hroot : ∀ a, some a = root hJ f count → isRootValid a = true) :
    ∀ (is : List Nat) (b : Builder α) (v : Verifier α), (∀ i ∈ is, i < count) → Corr hJ f count D b v →
      v.verify = false → (Builder.addAll hJ (Store.ofFun fun h x => node hJ f h x) count b is ()).1.data <+: D →
      Corr hJ f count D (Builder.addAll hJ (Store.ofFun fun h x => node hJ f h x) count b is ()).1
        (is.foldl (Verifier.process hJ isRootValid) v)
  | [], _, _, _, hc, _, _ => hc
  | i :: is, b, v, his, hc, hvf, hD => by
    have hD1 := (Builder.data_prefix_addAll _ is _ _).trans hD
    obtain ⟨hc1, hv1⟩ := hc.add hroot (his i List.mem_cons_self) (fun h => by simp [hvf] at h) hD1
    exact Corr.crop hroot is _ _ (fun j hj => his j (List.mem_cons_of_mem i hj)) hc1 (hv1.trans hvf) hD

/-- Over the trees, the verifier of what the builder wrote accepts it and reads
it to its end. -/
theorem processAll_new {isRootValid : α → Bool} (hroot : ∀ a, some a = root hJ f count → isRootValid a = true)
    {is : List Nat} (his : ∀ i ∈ is, i < count) :
    (Verifier.processAll hJ isRootValid f (Verifier.new
        (Builder.addAll hJ (Store.ofFun fun h x => node hJ f h x) count (Builder.new []) is ()).1.data count) is).verify =
        true ∧
      (Verifier.processAll hJ isRootValid f (Verifier.new
        (Builder.addAll hJ (Store.ofFun fun h x => node hJ f h x) count (Builder.new []) is ()).1.data count) is).pos =
        (Builder.addAll hJ (Store.ofFun fun h x => node hJ f h x) count (Builder.new []) is ()).1.data.length := by
  obtain ⟨hc, hv⟩ := Corr.addAll hroot is (Builder.new []) (Verifier.new _ count) his (Corr.start _ default true)
    (List.prefix_refl _)
  exact ⟨hv, hc.pos_eq⟩

end Step

section OfFun

variable {hJ} [Inhabited α] {st : Store σ α} {inv : σ → Prop} {f : Nat → α} {count : Nat}

theorem Builder.add_ofFun (hL : LoadsNodes hJ st inv f count) {b : Builder α} {i : Nat} {s : σ} (hs : inv s)
    (hi : i < count) :
    (Builder.add hJ st count b i s).1 = (Builder.add hJ (Store.ofFun fun h x => node hJ f h x) count b i ()).1 ∧
      inv (Builder.add hJ st count b i s).2 := by
  obtain ⟨h1, h2⟩ := proofInternalLoop_ofFun hL Builder.appendNode count 0 i b s hs (by simp) (by simpa using hi)
  refine ⟨?_, h2⟩
  simp only [Builder.add, h1]

/-- Whatever the store, the builder writes the hashes of the trees. -/
theorem Builder.addAll_ofFun (hL : LoadsNodes hJ st inv f count) :
    ∀ (is : List Nat) (b : Builder α) (s : σ), inv s → (∀ i ∈ is, i < count) →
      (Builder.addAll hJ st count b is s).1 = (Builder.addAll hJ (Store.ofFun fun h x => node hJ f h x) count b is ()).1
  | [], _, _, _, _ => rfl
  | i :: is, b, s, hs, his => by
    obtain ⟨h1, h2⟩ := Builder.add_ofFun hL (b := b) hs (his i List.mem_cons_self)
    simp only [Builder.addAll]
    rw [h1]
    exact Builder.addAll_ofFun hL is _ _ h2 (fun j hj => his j (List.mem_cons_of_mem i hj))

/-! ## The round trip -/

section RoundTrip

variable [DecidableEq α]

/-- **The verifier accepts what the builder wrote.**  For every MMR whose loads
give the trees of its leaves and every list of indices below its count, in any
order, a `Verifier` of the `MultiProof` the `Builder` wrote, processing the
same indices from their leaves' hashes against a root check that accepts the
root, keeps `m_bVerify`, ends at the end of `m_vData`, and ends with the
positions of the builder on `m_vLast` and `m_vLastRev`. -/
theorem multiProof_round_trip (hL : LoadsNodes hJ st inv f count) {s : σ} (hs : inv s) {isRootValid : α → Bool}
    (hroot : ∀ a, some a = root hJ f count → isRootValid a = true) {is : List Nat} (his : ∀ i ∈ is, i < count) :
    let D := (Builder.addAll hJ st count (Builder.new []) is s).1.data
    (Verifier.processAll hJ isRootValid f (Verifier.new D count) is).verify = true ∧
      (Verifier.processAll hJ isRootValid f (Verifier.new D count) is).pos = D.length ∧
      (Verifier.processAll hJ isRootValid f (Verifier.new D count) is).last.map Prod.snd =
        (Builder.addAll hJ st count (Builder.new []) is s).1.last ∧
      (Verifier.processAll hJ isRootValid f (Verifier.new D count) is).lastRev.map Prod.snd =
        (Builder.addAll hJ st count (Builder.new []) is s).1.lastRev := by
  intro D
  have hB := Builder.addAll_ofFun hL is (Builder.new []) s hs his
  have hD : D = (Builder.addAll hJ (Store.ofFun fun h x => node hJ f h x) count (Builder.new []) is ()).1.data := by
    simp only [D, hB]
  rw [hD, hB]
  -- the two stay in step over every index
  obtain ⟨hc, hv⟩ := Corr.addAll hroot is (Builder.new []) (Verifier.new _ count) his (Corr.start _ default true)
    (List.prefix_refl _)
  exact ⟨hv, hc.pos_eq, hc.last_eq, hc.lastRev_eq⟩

/-- Two leaves of three, the later one first. -/
theorem multiProof_round_trip_three :
    let D := (Builder.addAll Nat.add (Store.ofFun fun h x => node Nat.add id h x) 3 (Builder.new []) [2, 0] ()).1.data
    (Verifier.processAll Nat.add (fun a => decide (some a = root Nat.add id 3)) id (Verifier.new D 3) [2, 0]).verify =
        true ∧
      (Verifier.processAll Nat.add (fun a => decide (some a = root Nat.add id 3)) id (Verifier.new D 3) [2, 0]).pos =
        D.length ∧
      (Verifier.processAll Nat.add (fun a => decide (some a = root Nat.add id 3)) id (Verifier.new D 3) [2, 0]).last.map
          Prod.snd =
        (Builder.addAll Nat.add (Store.ofFun fun h x => node Nat.add id h x) 3 (Builder.new []) [2, 0] ()).1.last ∧
      (Verifier.processAll Nat.add (fun a => decide (some a = root Nat.add id 3)) id (Verifier.new D 3) [2, 0]).lastRev.map
          Prod.snd =
        (Builder.addAll Nat.add (Store.ofFun fun h x => node Nat.add id h x) 3 (Builder.new []) [2, 0] ()).1.lastRev :=
  multiProof_round_trip (loadsNodes_ofFun Nat.add id 3) trivial (fun _ ha => decide_eq_true ha) (by decide)

/-- **Cropping.**  A verifier in crop mode (`m_bVerify` unset) run over the first
`k` indices stops at a `get_Pos` where `m_vData` cut there is exactly the data
the `Builder` writes for those indices alone, and a verifier of it accepts them. -/
theorem multiProof_crop (hL : LoadsNodes hJ st inv f count) {s : σ} (hs : inv s) {isRootValid : α → Bool}
    (hroot : ∀ a, some a = root hJ f count → isRootValid a = true) {is : List Nat} (his : ∀ i ∈ is, i < count)
    (k : Nat) :
    let D := (Builder.addAll hJ st count (Builder.new []) is s).1.data
    let crop := (is.take k).foldl (Verifier.process hJ isRootValid) { Verifier.new D count with verify := false }
    D.take crop.pos = (Builder.addAll hJ st count (Builder.new []) (is.take k) s).1.data ∧
      (Verifier.processAll hJ isRootValid f (Verifier.new (D.take crop.pos) count) (is.take k)).verify = true := by
  intro D crop
  have hisk : ∀ i ∈ is.take k, i < count := fun i hi => his i (List.mem_of_mem_take hi)
  have hD : D = (Builder.addAll hJ (Store.ofFun fun h x => node hJ f h x) count (Builder.new []) is ()).1.data := by
    simp only [D, Builder.addAll_ofFun hL is _ s hs his]
  -- the data of the first `k` indices comes first in that of all of them
  have hpre : (Builder.addAll hJ (Store.ofFun fun h x => node hJ f h x) count (Builder.new []) (is.take k) ()).1.data
      <+: D := by
    rw [hD]
    conv_rhs => rw [← List.take_append_drop k is, Builder.addAll_append]
    exact Builder.data_prefix_addAll _ _ _ _
  have hpos : crop.pos =
      (Builder.addAll hJ (Store.ofFun fun h x => node hJ f h x) count (Builder.new []) (is.take k) ()).1.data.length :=
    (Corr.crop hroot (is.take k) (Builder.new []) { Verifier.new D count with verify := false } hisk
      (Corr.start D default false) rfl hpre).pos_eq
  have htake : D.take crop.pos =
      (Builder.addAll hJ (Store.ofFun fun h x => node hJ f h x) count (Builder.new []) (is.take k) ()).1.data := by
    rw [hpos, ← List.prefix_iff_eq_take.mp hpre]
  refine ⟨by rw [htake, Builder.addAll_ofFun hL (is.take k) _ s hs hisk], ?_⟩
  rw [htake]
  exact (processAll_new hroot hisk).1

/-- The first of two leaves cut out of their proof. -/
theorem multiProof_crop_first :
    let D := (Builder.addAll Nat.add (Store.ofFun fun h x => node Nat.add id h x) 3 (Builder.new []) [2, 0] ()).1.data
    let crop := ([2, 0].take 1).foldl (Verifier.process Nat.add (fun a => decide (some a = root Nat.add id 3)))
      { Verifier.new D 3 with verify := false }
    D.take crop.pos =
        (Builder.addAll Nat.add (Store.ofFun fun h x => node Nat.add id h x) 3 (Builder.new []) ([2, 0].take 1) ()).1.data ∧
      (Verifier.processAll Nat.add (fun a => decide (some a = root Nat.add id 3)) id
        (Verifier.new (D.take crop.pos) 3) ([2, 0].take 1)).verify = true :=
  multiProof_crop (loadsNodes_ofFun Nat.add id 3) trivial (fun _ ha => decide_eq_true ha) (by decide) 1

end RoundTrip

end OfFun

end MultiProof

end Beam.Merkle