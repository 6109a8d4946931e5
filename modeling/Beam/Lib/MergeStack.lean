import Mathlib.Order.Basic

/-!
# Rebuilding a binary tree with a stack of levels

A binary tree whose nodes carry levels can be rebuilt from its leaves, read left
to right, each with the level of the lowest node above it and the leaf before it.
One pass with a stack of (value, level) entries does it: before an entry is
pushed at level `l`, every entry on top at level `l` or deeper is merged into the
one below it.  This is the stack construction of Cartesian trees, and of a
Patricia trie from its keys in order, where a level is the first bit at which
two neighbouring keys part.

`LevelTree` is such a tree, `Heap` says that each node lies strictly above the
nodes inside its children, and `first` and `rest` read a tree as its first leaf
and the (leaf, level) entries after it.

* `flush_flush`: a flush at a level, then at a shallower one, is the second
  alone;
* `flush_run_heap`: pushing the entries of a heap-ordered tree on a stack and
  flushing at a level no deeper than its nodes leaves the tree's value on the
  stack at the level of its first entry, with the entries below untouched.
-/

namespace MergeStack

variable {V : Type*} (J : V → V → V)

/-- The entry `top` merged into the ones below it, each time into the next one
down, while its level is at least `next` and there is an entry below. -/
def mergeTop (next : Nat) (top : V × Nat) : List (V × Nat) → List (V × Nat)
  | [] => [top]
  | n0 :: st => if top.2 < next then top :: n0 :: st else mergeTop next (J n0.1 top.1, n0.2) st

/-- Merge from the top of the stack, the head of the list, while the top's level is
at least `next`. -/
def flush (next : Nat) : List (V × Nat) → List (V × Nat)
  | [] => []
  | top :: st => mergeTop J next top st

/-- Flush at the level of `e`, then push `e`. -/
def push (st : List (V × Nat)) (e : V × Nat) : List (V × Nat) :=
  e :: flush J e.2 st

/-- Push the entries in order. -/
def run (st : List (V × Nat)) (es : List (V × Nat)) : List (V × Nat) :=
  es.foldl (push J) st

/-! ## The stack -/

section Stack

variable {J}

@[simp] theorem flush_nil (next : Nat) : flush J next ([] : List (V × Nat)) = [] := rfl

@[simp] theorem flush_singleton (next : Nat) (top : V × Nat) : flush J next [top] = [top] := rfl

/-- A top shallower than `next` stays. -/
theorem flush_of_lt {next : Nat} {top : V × Nat} (h : top.2 < next) (n0 : V × Nat) (st : List (V × Nat)) :
    flush J next (top :: n0 :: st) = top :: n0 :: st := by
  simp [flush, mergeTop, h]

/-- A top at `next` or deeper is merged into the entry below it. -/
theorem flush_of_le {next : Nat} {top : V × Nat} (h : next ≤ top.2) (n0 : V × Nat) (st : List (V × Nat)) :
    flush J next (top :: n0 :: st) = flush J next ((J n0.1 top.1, n0.2) :: st) := by
  simp [flush, mergeTop, Nat.not_lt.mpr h]

/-- An entry on an empty stack, or shallower than `next`, stays where it is. -/
theorem flush_stop {next s : Nat} {st : List (V × Nat)} (hs : st = [] ∨ s < next) (x : V) :
    flush J next ((x, s) :: st) = (x, s) :: st := by
  rcases hs with rfl | hs
  · rfl
  · cases st with
    | nil => rfl
    | cons n0 st => exact flush_of_lt hs n0 st

/-- **Flushing is monotone in the level**: a flush at `p'` and then at a
shallower `p` is the flush at `p`. -/
theorem flush_flush {p p' : Nat} (h : p ≤ p') (st : List (V × Nat)) :
    flush J p (flush J p' st) = flush J p st := by
  cases st with
  | nil => rfl
  | cons top st =>
    -- the merges at `p'` are among those at `p`, done in the same order
    induction st generalizing top with
    | nil => rfl
    | cons n0 st ih =>
      by_cases htop : top.2 < p'
      · rw [flush_of_lt htop]
      · have hle : p' ≤ top.2 := Nat.le_of_not_lt htop
        rw [flush_of_le hle, ih, flush_of_le (Nat.le_trans h hle)]

@[simp] theorem run_nil (st : List (V × Nat)) : run J st [] = st := rfl

@[simp] theorem run_cons (st : List (V × Nat)) (e : V × Nat) (es : List (V × Nat)) :
    run J st (e :: es) = run J (push J st e) es := rfl

theorem run_append (st : List (V × Nat)) (es es' : List (V × Nat)) :
    run J st (es ++ es') = run J (run J st es) es' := by
  simp [run, List.foldl_append]

end Stack

/-! ## Trees with levels -/

/-- A binary tree with a value at each leaf and a level at each node. -/
inductive LevelTree (V : Type*) where
  | leaf (v : V)
  | node (level : Nat) (l r : LevelTree V)

namespace LevelTree

/-- The value of the tree: the leaves combined by `J` at each node. -/
def value : LevelTree V → V
  | leaf v => v
  | node _ l r => J (value l) (value r)

/-- The value of the first leaf. -/
def first : LevelTree V → V
  | leaf v => v
  | node _ l _ => first l

/-- The leaves after the first, each with the level of the lowest node above it
and the leaf before it. -/
def rest : LevelTree V → List (V × Nat)
  | leaf _ => []
  | node p l r => rest l ++ (first r, p) :: rest r

/-- Every node is at level `p` or deeper. -/
def Above (p : Nat) : LevelTree V → Prop
  | leaf _ => True
  | node q l r => p ≤ q ∧ Above p l ∧ Above p r

/-- Each node lies strictly above the nodes inside its children. -/
def Heap : LevelTree V → Prop
  | leaf _ => True
  | node q l r => Above (q + 1) l ∧ Above (q + 1) r ∧ Heap l ∧ Heap r

theorem Above.mono {p q : Nat} {t : LevelTree V} (h : t.Above p) (hq : q ≤ p) : t.Above q := by
  induction t with
  | leaf => trivial
  | node r l t ihl iht => exact ⟨Nat.le_trans hq h.1, ihl h.2.1, iht h.2.2⟩

end LevelTree

open LevelTree

/-- **The stack rebuilds a heap-ordered tree.**  Start from the tree's first leaf
pushed at level `s` on a stack `st`, push the other entries, and flush at a level
`p` no deeper than any node of the tree: the tree's value is left at level `s`,
over `st` unchanged, provided `s` is shallower than `p` or there is nothing
below. -/
theorem flush_run_heap {t : LevelTree V} (ht : t.Heap) :
    ∀ {p s : Nat} {st : List (V × Nat)}, t.Above p → (st = [] ∨ s < p) →
      flush J p (run J ((t.first, s) :: st) t.rest) = (t.value J, s) :: st := by
  induction t with
  | leaf v =>
    intro p s st _ hs
    exact flush_stop hs v
  | node q l r ihl ihr =>
    intro p s st hp hs
    obtain ⟨hl, hr, hhl, hhr⟩ := ht
    -- the left subtree collapses when the middle entry is pushed at level `q`
    have hleft : flush J q (run J ((l.first, s) :: st) l.rest) = (l.value J, s) :: st :=
      ihl hhl (hl.mono (Nat.le_succ q)) (hs.imp_right fun h => Nat.lt_of_lt_of_le h hp.1)
    -- the right one collapses onto it at the first flush at `q + 1` or shallower
    have hright : flush J (q + 1) (run J ((r.first, q) :: (l.value J, s) :: st) r.rest) =
        (r.value J, q) :: (l.value J, s) :: st :=
      ihr hhr hr (Or.inr (Nat.lt_succ_self q))
    simp only [first, rest, value, run_append, run_cons, push, hleft]
    rw [← flush_flush (Nat.le_succ_of_le hp.1), hright, flush_of_le hp.1, flush_stop hs]

end MergeStack
