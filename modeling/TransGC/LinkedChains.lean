import Mathlib.Data.List.Nodup

/-!
# Chains of links

Nodes are linked by a partial function `next`; a list is given by its first node. Several lists
may run through one node, and then share everything behind it.
-/

namespace LinkedChains
open List

variable {α : Type*}

/-- Following `next` from `head` passes the nodes of the list and ends. -/
def Chain (next : α → Option α) : Option α → List α → Prop
  | head, [] => head = none
  | head, x :: xs => head = some x ∧ Chain next (next x) xs

variable {next next' : α → Option α} {head : Option α} {xs ys : List α} {x y : α}

theorem Chain.unique (chain : Chain next head xs) (other : Chain next head ys) : xs = ys := by
  induction xs generalizing head ys with
  | nil =>
    cases ys with
    | nil => rfl
    | cons y ys => exact nomatch chain.symm.trans other.1
  | cons x xs ih =>
    cases ys with
    | nil => exact nomatch chain.1.symm.trans other
    | cons y ys =>
      obtain rfl : x = y := Option.some.inj (chain.1.symm.trans other.1)
      rw [ih chain.2 other.2]

theorem Chain.suffix (chain : Chain next head (xs ++ x :: ys)) : Chain next (some x) (x :: ys) := by
  induction xs generalizing head with
  | nil => exact ⟨rfl, chain.2⟩
  | cons z xs ih => exact ih chain.2

/-- A chain that came back to a node would not end. -/
theorem Chain.nodup (chain : Chain next head xs) : xs.Nodup := by
  induction xs generalizing head with
  | nil => exact nodup_nil
  | cons x xs ih =>
    refine nodup_cons.mpr ⟨fun again => ?_, ih chain.2⟩
    obtain ⟨front, back, rfl⟩ := append_of_mem again
    have whole : Chain next (some x) (x :: (front ++ x :: back)) := ⟨rfl, chain.2⟩
    have same := congrArg length (whole.unique (Chain.suffix chain.2))
    simp only [length_cons, length_append] at same
    omega

theorem Chain.next_eq (chain : Chain next head (xs ++ x :: y :: ys)) : next x = some y :=
  (Chain.suffix chain).2.1

theorem Chain.next_last (chain : Chain next head (xs ++ [x])) : next x = none :=
  (Chain.suffix chain).2

/-- A chain sees the links of its own nodes only. -/
theorem Chain.congr (chain : Chain next head xs) (same : ∀ x ∈ xs, next' x = next x) :
    Chain next' head xs := by
  induction xs generalizing head with
  | nil => exact chain
  | cons x xs ih =>
    refine ⟨chain.1, ?_⟩
    rw [same x mem_cons_self]
    exact ih chain.2 fun y mem => same y (mem_cons_of_mem _ mem)

theorem Chain.snoc (chain : Chain next head (xs ++ [x])) (same : ∀ z ∈ xs, next' z = next z)
    (link : next' x = some y) (last : next' y = none) : Chain next' head (xs ++ [x, y]) := by
  induction xs generalizing head with
  | nil =>
    refine ⟨chain.1, ?_⟩
    rw [link]
    exact ⟨rfl, last⟩
  | cons z xs ih =>
    refine ⟨chain.1, ?_⟩
    rw [same z mem_cons_self]
    exact ih chain.2 fun z mem => same z (mem_cons_of_mem _ mem)

theorem Chain.head_eq (chain : Chain next head xs) : head = xs.head? := by
  cases xs with
  | nil => exact chain
  | cons x xs => exact chain.1

end LinkedChains
