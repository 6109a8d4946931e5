import Mathlib.Algebra.Order.Ring.Nat
import Mathlib.Data.List.Basic

/-!
# The byte queue of a `BufferChain`

`io::BufferChain` (`utility/io/bufferchain.cpp`) is the write queue of a socket:
a vector of `IOVec` fragments, each a start address and a size, with a parallel
vector of the `SharedMem` guards that keep the memory alive, the total size, and
`_index`, the first live fragment.  `append` adds a fragment, or grows the last
one when the new bytes follow it in memory under the same guard; `advance(n)`
drops `n` bytes from the front, whole fragments first (by moving `_index` on) and
then the front of one fragment; once `_index` passes `REBASE_THRESHOLD` the live
fragments are moved down to the front of the vectors.

Addresses and sizes are `Nat`: the chain counts bytes of memory that exist.  The
bytes themselves are read from a memory `mem : Nat → β` that does not change:
the guards keep what the fragments point at alive and unchanged.

`Reachable mem bc q` says that `bc` is built from an empty chain by the calls, and
that `q` is the queue those calls describe: what was appended, less what was
advanced past.  `reachable_inv` shows that every such chain keeps `Inv`: its live
fragments, none of them empty, hold exactly `q`, and `size()` is its length.
-/

namespace Beam.Io

/-- A memory fragment: the address of its first byte and its size. -/
structure IOVec where
  data : Nat
  size : Nat
deriving DecidableEq, Repr, Inhabited

namespace IOVec

/-- `IOVec::advance`: move the start on by `nBytes`, or clear the fragment when
that is all of it. -/
def advance (v : IOVec) (nBytes : Nat) : IOVec :=
  if nBytes ≥ v.size then ⟨0, 0⟩ else ⟨v.data + nBytes, v.size - nBytes⟩

end IOVec

/-- `io::BufferChain`: `_iovecs`, `_guards`, `_totalSize` and `_index`.  A guard
is read only through `SharedMem::get()`: `none` is the empty pointer. -/
structure BufferChain (G : Type) where
  iovecs : List IOVec
  guards : List (Option G)
  totalSize : Nat
  index : Nat

namespace BufferChain

variable {G : Type} [DecidableEq G]

/-- `REBASE_THRESHOLD` -/
def rebaseThreshold : Nat := 128

/-- `BufferChain()` -/
def empty : BufferChain G := ⟨[], [], 0, 0⟩

/-- `size()` -/
def size (bc : BufferChain G) : Nat := bc.totalSize

/-- `num_fragments()` -/
def numFragments (bc : BufferChain G) : Nat := bc.iovecs.length - bc.index

/-- `fragments()`: the vector from `_index` on. -/
def fragments (bc : BufferChain G) : List IOVec := bc.iovecs.drop bc.index

/-- `append(data, len, guard, tryToJoin)`.  A join is tried when the chain held
bytes before: the last fragment grows when the guards' pointers agree and the
new bytes start where it ends. -/
def append (bc : BufferChain G) (data len : Nat) (guard : Option G) (tryToJoin : Bool) : BufferChain G :=
  if len = 0 then bc
  else
    let bc := { bc with totalSize := bc.totalSize + len }
    let iov := bc.iovecs.getLastD default
    if tryToJoin && bc.totalSize != len && bc.guards.getLastD none == guard && iov.data + iov.size == data then
      { bc with iovecs := bc.iovecs.dropLast ++ [{ iov with size := iov.size + len }] }
    else { bc with iovecs := bc.iovecs ++ [⟨data, len⟩], guards := bc.guards ++ [guard] }

/-- `append(const BufferChain& bc)`: the other chain's live fragments in order,
the first with a join tried and the others without. -/
def appendChain (bc other : BufferChain G) : BufferChain G :=
  if other.totalSize = 0 then bc
  else
    match (other.iovecs.drop other.index).zip (other.guards.drop other.index) with
    | [] => bc
    | (f, g) :: rest =>
      rest.foldl (fun bc fg => bc.append fg.1.data fg.1.size fg.2 false) (bc.append f.data f.size g true)

/-- The loop of `advance` from fragment `i`, with `bytesRemaining` still to drop
and `fuel` turns left of the `i < sz` bound: a fragment no larger than what is
left is dropped by moving `_index` on and resetting its guard, and the loop stops
when nothing is left; otherwise the fragment's front is dropped and the loop
stops. -/
def advanceLoop (bytesRemaining i : Nat) (bc : BufferChain G) : Nat → BufferChain G
  | 0 => bc
  | fuel + 1 =>
    let len := (bc.iovecs.getD i default).size
    if bytesRemaining ≥ len then
      let bc := { bc with index := bc.index + 1, guards := bc.guards.set i none }
      if bytesRemaining - len = 0 then bc else advanceLoop (bytesRemaining - len) (i + 1) bc fuel
    else { bc with iovecs := bc.iovecs.modify i (·.advance bytesRemaining) }

/-- `rebase()`: move the live fragments and their guards to the front. -/
def rebase (bc : BufferChain G) : BufferChain G :=
  let n := bc.numFragments
  { bc with iovecs := (bc.iovecs.drop bc.index).take n, guards := (bc.guards.drop bc.index).take n, index := 0 }

/-- `clear()` -/
def clear (bc : BufferChain G) : BufferChain G :=
  { bc with iovecs := [], guards := [], totalSize := 0, index := 0 }

/-- `advance(nBytes)` -/
def advance (bc : BufferChain G) (nBytes : Nat) : BufferChain G :=
  if nBytes = 0 ∨ bc.totalSize = 0 then bc
  else if nBytes ≥ bc.totalSize then bc.clear
  else
    let bc := { bc with totalSize := bc.totalSize - nBytes }
    let bc := advanceLoop nBytes bc.index bc (bc.iovecs.length - bc.index)
    if bc.index > rebaseThreshold then bc.rebase else bc

example : ((empty : BufferChain Unit).append 10 3 none true |>.append 13 2 none true).fragments = [⟨10, 5⟩] := by
  decide

example : ((empty : BufferChain Unit).append 10 3 none true |>.append 13 2 (some ()) true |>.advance 4).fragments =
    [⟨14, 1⟩] := by
  decide

/-! ## The queue the calls describe -/

variable {β : Type}

/-- The `len` bytes of `mem` from address `data` on. -/
def read (mem : Nat → β) (data len : Nat) : List β :=
  (List.range len).map fun i => mem (data + i)

/-- The bytes of fragments, one after the other. -/
def bytes (mem : Nat → β) (fs : List IOVec) : List β :=
  fs.flatMap fun f => read mem f.data f.size

/-- The chains the calls build from `BufferChain()`, each with the queue of bytes
the calls describe: the bytes appended, less the `n` first on `advance(n)`. -/
inductive Reachable (mem : Nat → β) : BufferChain G → List β → Prop
  | empty : Reachable mem empty []
  | append {bc q} (data len : Nat) (guard : Option G) (tryToJoin : Bool) :
      Reachable mem bc q → Reachable mem (bc.append data len guard tryToJoin) (q ++ read mem data len)
  | appendChain {bc q other q'} :
      Reachable mem bc q → Reachable mem other q' → Reachable mem (bc.appendChain other) (q ++ q')
  | advance {bc q} (nBytes : Nat) : Reachable mem bc q → Reachable mem (bc.advance nBytes) (q.drop nBytes)
  | clear {bc q} : Reachable mem bc q → Reachable mem bc.clear []

/-- The shape of a chain: a guard for each fragment, `_index` within the vector,
and no empty live fragment. -/
structure WF (bc : BufferChain G) : Prop where
  guards_length : bc.guards.length = bc.iovecs.length
  index_le : bc.index ≤ bc.iovecs.length
  size_pos : ∀ f ∈ bc.fragments, 0 < f.size

/-- A chain that holds the queue `q`. -/
structure Inv (mem : Nat → β) (bc : BufferChain G) (q : List β) : Prop extends WF bc where
  size_eq : bc.size = q.length
  bytes_eq : bytes mem bc.fragments = q

section Memory

variable {mem : Nat → β}

@[simp] theorem length_read (data len : Nat) : (read mem data len).length = len := by
  simp [read]

@[simp] theorem read_zero (data : Nat) : read mem data 0 = [] := rfl

/-- Bytes that follow each other in memory read as one range. -/
theorem read_add (data a b : Nat) : read mem data (a + b) = read mem data a ++ read mem (data + a) b := by
  simp [read, List.range_add, Nat.add_assoc]

theorem drop_read {data len k : Nat} (h : k ≤ len) : (read mem data len).drop k = read mem (data + k) (len - k) := by
  obtain ⟨m, rfl⟩ := Nat.exists_eq_add_of_le h
  rw [read_add, List.drop_left' (length_read _ _), Nat.add_sub_cancel_left]

@[simp] theorem bytes_nil : bytes mem [] = [] := rfl

@[simp] theorem bytes_cons (f : IOVec) (fs : List IOVec) :
    bytes mem (f :: fs) = read mem f.data f.size ++ bytes mem fs := rfl

@[simp] theorem bytes_append (fs fs' : List IOVec) : bytes mem (fs ++ fs') = bytes mem fs ++ bytes mem fs' := by
  simp [bytes]

theorem length_bytes (fs : List IOVec) : (bytes mem fs).length = (fs.map IOVec.size).sum := by
  induction fs with
  | nil => rfl
  | cons f fs ih => simp [ih]

end Memory

/-! ## Each call keeps the invariant -/

section Calls

variable {mem : Nat → β}

omit [DecidableEq G] in
theorem fragments_eq_nil_iff (bc : BufferChain G) : bc.fragments = [] ↔ bc.iovecs.length ≤ bc.index := by
  simp [fragments]

omit [DecidableEq G] in
/-- A chain that holds bytes has a live fragment. -/
theorem Inv.fragments_ne_nil {bc : BufferChain G} {q : List β} (hi : Inv mem bc q) (h : bc.totalSize ≠ 0) :
    bc.fragments ≠ [] := by
  intro hf
  have hq : bc.size = (bytes mem bc.fragments).length := by rw [hi.bytes_eq]; exact hi.size_eq
  rw [hf] at hq
  exact h hq

/-- **`append` adds its bytes at the back**, whether it joins them to the last
fragment or adds a fragment. -/
theorem Inv.append {bc : BufferChain G} {q : List β} (hi : Inv mem bc q) (data len : Nat) (guard : Option G)
    (tryToJoin : Bool) : Inv mem (bc.append data len guard tryToJoin) (q ++ read mem data len) := by
  by_cases hlen : len = 0
  · subst hlen
    simpa [BufferChain.append] using hi
  obtain ⟨⟨hg, hidx, hpos⟩, hsize, hbytes⟩ := hi
  unfold BufferChain.append
  rw [if_neg hlen]
  dsimp only
  split
  case isTrue hjoin =>
    -- a join is tried only when the chain held bytes, so its last fragment is live
    simp only [Bool.and_eq_true, bne_iff_ne, beq_iff_eq] at hjoin
    obtain ⟨⟨⟨-, htot⟩, -⟩, hdata⟩ := hjoin
    have hfr := Inv.fragments_ne_nil ⟨⟨hg, hidx, hpos⟩, hsize, hbytes⟩ (by omega)
    rw [Ne, fragments_eq_nil_iff] at hfr
    obtain ⟨pre, last, hsplit⟩ := (List.eq_nil_or_concat bc.iovecs).resolve_left fun h => by simp [h] at hfr
    rw [List.concat_eq_append] at hsplit
    have hpre : bc.index ≤ pre.length := by simp [hsplit] at hfr; omega
    have hfrag : bc.fragments = pre.drop bc.index ++ [last] := by
      rw [fragments, hsplit, List.drop_append_of_le_length hpre]
    simp only [hsplit, List.getLastD_concat, List.dropLast_concat] at hdata ⊢
    refine ⟨⟨by simp [hg, hsplit], by simp only [List.length_append, List.length_singleton]; omega, ?_⟩, ?_, ?_⟩
    · simp only [fragments, List.drop_append_of_le_length hpre, List.mem_append, List.mem_singleton]
      rintro f (hf | rfl)
      · exact hpos f (by rw [hfrag]; exact List.mem_append_left _ hf)
      · simp only; omega
    · simp only [size] at hsize ⊢
      simp [hsize]
    · simp only [fragments, List.drop_append_of_le_length hpre, bytes_append, bytes_cons, bytes_nil,
        List.append_nil]
      rw [read_add, hdata, ← hbytes, hfrag, bytes_append, bytes_cons, bytes_nil, List.append_nil,
        List.append_assoc]
  case isFalse =>
    have hfrag : ∀ x, (bc.iovecs ++ [x]).drop bc.index = bc.fragments ++ [x] := fun x =>
      List.drop_append_of_le_length hidx
    refine ⟨⟨by simp [hg], by simp only [List.length_append]; omega, ?_⟩, ?_, ?_⟩
    · simp only [fragments, hfrag, List.mem_append, List.mem_singleton]
      rintro f (hf | rfl)
      · exact hpos f hf
      · simp only; omega
    · simpa [size] using hsize
    · simp [fragments, hfrag, ← hbytes]

/-- Fragments appended in turn with no join tried add their bytes at the back. -/
theorem Inv.appendAll {bc : BufferChain G} {q : List β} (hi : Inv mem bc q) (l : List (IOVec × Option G)) :
    Inv mem (l.foldl (fun bc fg => bc.append fg.1.data fg.1.size fg.2 false) bc) (q ++ bytes mem (l.map Prod.fst)) := by
  induction l generalizing bc q with
  | nil => simpa using hi
  | cons fg l ih =>
    rw [List.foldl_cons, List.map_cons, bytes_cons, ← List.append_assoc]
    exact ih (hi.append _ _ _ _)

/-- **Appending a chain adds its queue at the back.** -/
theorem Inv.appendChain {bc other : BufferChain G} {q q' : List β} (hi : Inv mem bc q) (ho : Inv mem other q') :
    Inv mem (bc.appendChain other) (q ++ q') := by
  unfold BufferChain.appendChain
  by_cases h0 : other.totalSize = 0
  · -- an empty chain holds no bytes
    have hq' : q' = [] := List.eq_nil_of_length_eq_zero (ho.size_eq.symm.trans h0)
    rw [if_pos h0, hq', List.append_nil]
    exact hi
  rw [if_neg h0]
  have hzip : ((other.iovecs.drop other.index).zip (other.guards.drop other.index)).map Prod.fst =
      other.fragments := List.map_fst_zip (by simp [ho.guards_length])
  rcases hz : (other.iovecs.drop other.index).zip (other.guards.drop other.index) with _ | ⟨⟨f, g⟩, rest⟩
  · rw [hz, List.map_nil] at hzip
    exact absurd hzip.symm (ho.fragments_ne_nil h0)
  · rw [hz, List.map_cons] at hzip
    have hall := (hi.append f.data f.size g true).appendAll rest
    rwa [List.append_assoc, ← bytes_cons, hzip, ho.bytes_eq] at hall

omit [DecidableEq G] in
/-- The live fragments of a chain with a fragment at `_index`. -/
theorem fragments_eq_cons {bc : BufferChain G} (h : bc.index < bc.iovecs.length) :
    bc.fragments = bc.iovecs[bc.index] :: bc.iovecs.drop (bc.index + 1) :=
  List.drop_eq_getElem_cons h

omit [DecidableEq G] in
/-- **The loop of `advance` drops `bytesRemaining` bytes** from the front of the
live fragments, when fewer than they hold: by induction on the loop's turns, each
turn dropping a whole fragment or stopping inside one. -/
theorem advanceLoop_spec : ∀ (fuel r : Nat) (bc : BufferChain G), WF bc →
    fuel = bc.iovecs.length - bc.index → 0 < r → r < (bc.fragments.map IOVec.size).sum →
      WF (advanceLoop r bc.index bc fuel) ∧ (advanceLoop r bc.index bc fuel).totalSize = bc.totalSize ∧
        bytes mem (advanceLoop r bc.index bc fuel).fragments = (bytes mem bc.fragments).drop r
  | 0, r, bc, hwf, hfuel, _, hr => by
    -- no turn left: no live fragment, so nothing to drop from
    rw [(fragments_eq_nil_iff bc).mpr (by omega)] at hr
    exact absurd hr (Nat.not_lt_zero r)
  | fuel + 1, r, bc, hwf, hfuel, hr0, hr => by
    have hlt : bc.index < bc.iovecs.length := by omega
    have hfr := fragments_eq_cons hlt
    have hget : bc.iovecs.getD bc.index default = bc.iovecs[bc.index] := by
      simp [List.getD_eq_getElem?_getD, hlt]
    rw [hfr, List.map_cons, List.sum_cons] at hr
    simp only [advanceLoop, hget]
    by_cases hle : r ≥ bc.iovecs[bc.index].size
    · -- the fragment is dropped whole by moving `_index` on
      rw [if_pos hle]
      have hwf1 : WF { bc with index := bc.index + 1, guards := bc.guards.set bc.index none } :=
        ⟨by simp [hwf.guards_length], by simp only; omega,
          fun f hf => hwf.size_pos f (by rw [hfr]; exact List.mem_cons_of_mem _ hf)⟩
      have hbytes : bytes mem bc.fragments =
          read mem bc.iovecs[bc.index].data bc.iovecs[bc.index].size ++ bytes mem (bc.iovecs.drop (bc.index + 1)) := by
        rw [hfr, bytes_cons]
      by_cases hz : r - bc.iovecs[bc.index].size = 0
      · rw [if_pos hz]
        refine ⟨hwf1, rfl, ?_⟩
        rw [hbytes, List.drop_left' (by simp; omega)]
        rfl
      · rw [if_neg hz]
        obtain ⟨h1, h2, h3⟩ := advanceLoop_spec fuel (r - bc.iovecs[bc.index].size) _ hwf1
          (by simp only; omega) (by omega) (by simp only [fragments]; omega)
        have hdrop : (read mem bc.iovecs[bc.index].data bc.iovecs[bc.index].size).drop r = [] :=
          List.drop_eq_nil_of_le (by simp; omega)
        refine ⟨h1, h2, ?_⟩
        rw [h3, hbytes, List.drop_append, hdrop, List.nil_append, length_read]
        rfl
    · -- the loop stops inside the fragment, which keeps its tail
      rw [if_neg hle]
      have hadv : bc.iovecs[bc.index].advance r =
          ⟨bc.iovecs[bc.index].data + r, bc.iovecs[bc.index].size - r⟩ := by
        simp [IOVec.advance, hle]
      have hfr' : (bc.iovecs.modify bc.index (·.advance r)).drop bc.index =
          ⟨bc.iovecs[bc.index].data + r, bc.iovecs[bc.index].size - r⟩ :: bc.iovecs.drop (bc.index + 1) := by
        rw [List.drop_modify_of_ge _ _ _ _ (Nat.le_refl _), Nat.sub_self, List.drop_eq_getElem_cons hlt, List.modify_zero_cons,
          hadv]
      refine ⟨⟨by simp [hwf.guards_length], by simp only [List.length_modify]; omega, ?_⟩, rfl, ?_⟩
      · simp only [fragments, hfr', List.mem_cons]
        rintro f (rfl | hf)
        · simp only; omega
        · exact hwf.size_pos f (by rw [hfr]; exact List.mem_cons_of_mem _ hf)
      · simp only [fragments, hfr', bytes_cons]
        rw [List.drop_eq_getElem_cons hlt, bytes_cons, List.drop_append_of_le_length (by simp; omega),
          drop_read (by omega)]

omit [DecidableEq G] in
theorem fragments_rebase (bc : BufferChain G) : bc.rebase.fragments = bc.fragments := by
  simp only [rebase, fragments, numFragments, List.drop_zero]
  exact List.take_of_length_le (by simp)

omit [DecidableEq G] in
/-- **`rebase` moves the live fragments and changes nothing they hold.** -/
theorem Inv.rebase {bc : BufferChain G} {q : List β} (hi : Inv mem bc q) : Inv mem bc.rebase q where
  guards_length := by simp [BufferChain.rebase, numFragments, hi.guards_length]
  index_le := Nat.zero_le _
  size_pos := by rw [fragments_rebase]; exact hi.size_pos
  size_eq := hi.size_eq
  bytes_eq := by rw [fragments_rebase]; exact hi.bytes_eq

omit [DecidableEq G] in
theorem Inv.clear (bc : BufferChain G) : Inv mem bc.clear [] :=
  ⟨⟨rfl, Nat.zero_le _, by simp [fragments, BufferChain.clear]⟩, rfl, rfl⟩

omit [DecidableEq G] in
/-- **`advance(n)` drops the first `n` bytes of the queue**: nothing for `n = 0`
or an empty chain, everything by `clear` when `n` reaches the size, and otherwise
the loop, then a `rebase` past the threshold. -/
theorem Inv.advance {bc : BufferChain G} {q : List β} (hi : Inv mem bc q) (n : Nat) :
    Inv mem (bc.advance n) (q.drop n) := by
  have hsize : bc.totalSize = q.length := hi.size_eq
  unfold BufferChain.advance
  by_cases h0 : n = 0 ∨ bc.totalSize = 0
  · rw [if_pos h0]
    rcases h0 with rfl | h0
    · exact hi
    · have hq : q = [] := List.eq_nil_of_length_eq_zero (by omega)
      rw [hq, List.drop_nil]
      exact hq ▸ hi
  rw [if_neg h0]
  by_cases hall : n ≥ bc.totalSize
  · rw [if_pos hall, List.drop_eq_nil_of_le (by omega)]
    exact Inv.clear bc
  rw [if_neg hall]
  dsimp only
  -- the loop drops `n` of the bytes the live fragments hold
  have hsum : n < (bc.fragments.map IOVec.size).sum := by
    rw [← @length_bytes β mem, hi.bytes_eq]
    omega
  obtain ⟨h1, h2, h3⟩ := @advanceLoop_spec G β mem _ n { bc with totalSize := bc.totalSize - n }
    ⟨hi.guards_length, hi.index_le, hi.size_pos⟩ rfl (by omega) hsum
  have hloop : Inv mem (advanceLoop n bc.index { bc with totalSize := bc.totalSize - n } (bc.iovecs.length - bc.index))
      (q.drop n) :=
    ⟨h1, by simp only [size, h2, List.length_drop]; omega, by rw [h3]; exact congrArg (List.drop n) hi.bytes_eq⟩
  split
  · exact hloop.rebase
  · exact hloop

end Calls

/-- **Every chain the calls build holds its queue**: by induction over the calls. -/
theorem reachable_inv {mem : Nat → β} {bc : BufferChain G} {q : List β} (h : Reachable mem bc q) : Inv mem bc q := by
  induction h with
  | empty => exact ⟨⟨rfl, Nat.zero_le _, by simp [fragments, empty]⟩, rfl, rfl⟩
  | append data len guard tryToJoin _ ih => exact ih.append data len guard tryToJoin
  | appendChain _ _ ih ih' => exact ih.appendChain ih'
  | advance n _ ih => exact ih.advance n
  | clear _ _ => exact Inv.clear _

theorem bufferChain_holds_queue {mem : Nat → β} {bc : BufferChain G} {q : List β} (h : Reachable mem bc q) :
    bc.size = q.length ∧ bc.fragments.length = bc.numFragments ∧ bytes mem bc.fragments = q ∧
      ∀ f ∈ bc.fragments, 0 < f.size := by
  have hi := reachable_inv h
  exact ⟨hi.size_eq, List.length_drop, hi.bytes_eq, hi.size_pos⟩

/-- Three bytes at `10`, two more joined to them, and four advanced past. -/
theorem bufferChain_holds_queue_join_advance :
    let bc := (((empty : BufferChain Unit).append 10 3 none true).append 13 2 none true).advance 4
    let q := (([] ++ read id 10 3) ++ read id 13 2).drop 4
    Reachable id bc q ∧
      (bc.size = q.length ∧ bc.fragments.length = bc.numFragments ∧ bytes id bc.fragments = q ∧
        ∀ f ∈ bc.fragments, 0 < f.size) :=
  have hr : Reachable id ((((empty : BufferChain Unit).append 10 3 none true).append 13 2 none true).advance 4)
      ((([] ++ read id 10 3) ++ read id 13 2).drop 4) :=
    .advance 4 (.append 13 2 none true (.append 10 3 none true .empty))
  ⟨hr, bufferChain_holds_queue hr⟩

end BufferChain

end Beam.Io
