import Mathlib.Data.List.Nodup
import Mathlib.Order.Lattice

/-!
# Lists that index a table

A container of handles kept beside a table of records (an intrusive set or list
whose hooks sit in the records) holds, up to order, the live handles whose
records satisfy a predicate: `l.Perm (live.filter p)`.  When one record changes, the
predicate changes at one handle, and the filter there only
(`filter_perm_of_agree`); `perm_filter_update`, `perm_filter_cons` and
`perm_filter_erase` say what a container must do when a record changes, a handle
comes and a handle goes; `countP_of_agree` counts the
handles of a flag set at one of them.  A container kept in descending order of a key takes a
new handle after every handle whose key is at least its own, where a multiset
inserts an equal key (`insertDesc`), and stays in order (`pairwise_insertDesc`).
-/

namespace IndexedList

variable {α : Type}

/-- The filter of a list with a new head, by a predicate that agrees on the rest. -/
theorem filter_cons_of_agree {l : List α} {p q : α → Bool} (a : α) (hpq : ∀ b ∈ l, q b = p b) :
    (a :: l).filter q = if q a then a :: l.filter p else l.filter p := by
  rw [List.filter_cons, List.filter_congr hpq]

/-- A container that takes a new handle if its predicate holds there. -/
theorem perm_filter_cons {live l l' : List α} {p q : α → Bool} (a : α) (hl : l.Perm (live.filter p))
    (hpq : ∀ b ∈ live, q b = p b) (hl' : l'.Perm (if q a then a :: l else l)) :
    l'.Perm ((a :: live).filter q) := by
  rw [filter_cons_of_agree a hpq]
  refine hl'.trans ?_
  split
  · exact hl.cons a
  · exact hl

section Filter

variable [DecidableEq α]

/-- The filter of a duplicate-free list by a predicate that changed at one member
only. -/
theorem filter_perm_of_agree {l : List α} {p q : α → Bool} {a : α} (hnd : l.Nodup) (ha : a ∈ l)
    (hpq : ∀ b ∈ l, b ≠ a → q b = p b) :
    (l.filter q).Perm (if q a then a :: (l.filter p).erase a else (l.filter p).erase a) := by
  have hrest : (l.erase a).filter q = (l.erase a).filter p := by
    apply List.filter_congr
    intro b hb
    exact hpq b (List.mem_of_mem_erase hb) (hnd.mem_erase_iff.mp hb).1
  have hsplit : (l.filter q).Perm ((a :: l.erase a).filter q) := (List.perm_cons_erase ha).filter q
  rw [List.filter_cons, hrest, ← List.erase_filter] at hsplit
  by_cases hq : q a <;> simpa [hq] using hsplit

/-- A container updated at the one handle whose predicate changed. -/
theorem perm_filter_update {live l l' : List α} {p q : α → Bool} {a : α} (hnd : live.Nodup) (ha : a ∈ live)
    (hl : l.Perm (live.filter p)) (hpq : ∀ b ∈ live, b ≠ a → q b = p b)
    (hl' : l'.Perm (if q a then a :: l.erase a else l.erase a)) : l'.Perm (live.filter q) := by
  have he : ((live.filter p).erase a).Perm (l.erase a) := hl.symm.erase a
  have hX : (if q a then a :: (live.filter p).erase a else (live.filter p).erase a).Perm
      (if q a then a :: l.erase a else l.erase a) := by
    split
    · exact he.cons a
    · exact he
  exact hl'.trans (hX.symm.trans (filter_perm_of_agree hnd ha hpq).symm)

/-- A container that keeps its handles, seen as one updated at `a`. -/
theorem perm_ite_erase {l : List α} {a : α} {b : Bool} (hb : a ∈ l ↔ b = true) :
    l.Perm (if b then a :: l.erase a else l.erase a) := by
  cases b with
  | true => exact List.perm_cons_erase (hb.mpr rfl)
  | false =>
    have hna : a ∉ l := fun h => Bool.false_ne_true (hb.mp h)
    rw [if_neg Bool.false_ne_true, List.erase_of_not_mem hna]

/-- How many members of a duplicate-free list satisfy a predicate that became
true at one member `a` only. -/
theorem countP_of_agree {l : List α} {p q : α → Bool} {a : α} (hnd : l.Nodup) (ha : a ∈ l)
    (hpq : ∀ b ∈ l, b ≠ a → q b = p b) (hp : p a = false) (hq : q a = true) : l.countP q = l.countP p + 1 := by
  have hperm := List.perm_cons_erase ha
  have hrest : (l.erase a).countP q = (l.erase a).countP p := by
    apply List.countP_congr
    intro b hb
    rw [hpq b (List.mem_of_mem_erase hb) (hnd.mem_erase_iff.mp hb).1]
  rw [hperm.countP_eq q, hperm.countP_eq p, List.countP_cons, List.countP_cons, hp, hq, hrest]
  simp

/-- A container that drops a handle leaving the table. -/
theorem perm_filter_erase {live l l' : List α} {p : α → Bool} (a : α) (hl : l.Perm (live.filter p))
    (hl' : l'.Perm (if p a then l.erase a else l)) : l'.Perm ((live.erase a).filter p) := by
  rw [← List.erase_filter]
  refine hl'.trans ?_
  split
  · exact hl.erase a
  · rename_i hpa
    have hna : a ∉ live.filter p := fun h => hpa (List.mem_filter.mp h).2
    rw [List.erase_of_not_mem hna]
    exact hl

end Filter

section Insert

variable {κ : Type} [LinearOrder κ] (key : α → κ)

/-- Insertion into a list kept in descending order of `key`, after every element
whose key is at least that of `a`. -/
def insertDesc (a : α) : List α → List α
  | [] => [a]
  | b :: l => if key b < key a then a :: b :: l else b :: insertDesc a l

theorem insertDesc_perm (a : α) : ∀ l : List α, (insertDesc key a l).Perm (a :: l)
  | [] => List.Perm.refl _
  | b :: l => by
    unfold insertDesc
    split
    · exact List.Perm.refl _
    · exact ((insertDesc_perm a l).cons b).trans (List.Perm.swap a b l)

theorem pairwise_insertDesc {l : List α} (a : α) (hl : l.Pairwise fun x y => key y ≤ key x) :
    (insertDesc key a l).Pairwise fun x y => key y ≤ key x := by
  induction l with
  | nil => simp [insertDesc]
  | cons b l ih =>
    rw [List.pairwise_cons] at hl
    unfold insertDesc
    split
    · rename_i hlt
      refine List.Pairwise.cons (fun c hc => ?_) (List.Pairwise.cons hl.1 hl.2)
      rcases List.mem_cons.mp hc with rfl | hc
      · exact le_of_lt hlt
      · exact le_trans (hl.1 c hc) (le_of_lt hlt)
    · rename_i hge
      refine List.Pairwise.cons (fun c hc => ?_) (ih hl.2)
      rcases List.mem_cons.mp ((insertDesc_perm key a l).mem_iff.mp hc) with rfl | hc
      · exact not_lt.mp hge
      · exact hl.1 c hc

end Insert

end IndexedList
