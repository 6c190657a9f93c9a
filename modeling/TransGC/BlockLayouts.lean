import Mathlib.Order.Nat
import Mathlib.Tactic.Common
import Mathlib.Algebra.Order.Ring.Int
import Mathlib.Algebra.BigOperators.Group.List.Basic

/-!
# Blocks that lie side by side

A list of blocks with their sizes is laid out from a base address on, without gaps. `From` says
which blocks are found from an address on, and `At` which block starts there.
-/

namespace BlockLayouts
open List

universe u
variable {α : Type u} (size : α → Nat)

/-- The number of words of the whole layout. -/
def total (blocks : List α) : Nat := (blocks.map size).sum

/-- From the address `start` on the layout consists of the blocks `rest`. -/
inductive From : Nat → List α → Nat → List α → Prop
  | here (base : Nat) (blocks : List α) : From base blocks base blocks
  | later {base : Nat} {b : α} {blocks : List α} {start : Nat} {rest : List α} :
      From (base + size b) blocks start rest → From base (b :: blocks) start rest

/-- The block `b` starts at the address `start`. -/
def At (base : Nat) (blocks : List α) (start : Nat) (b : α) : Prop :=
  ∃ rest, From size base blocks start (b :: rest)

/-- The blocks that are found from an address on, none if no block starts there. -/
def blocksFrom : Nat → List α → Nat → List α
  | _, [], _ => []
  | base, b :: rest, a => if a = base then b :: rest else blocksFrom (base + size b) rest a

/-- The start of the last block, of those from `cur` on, that is not behind the address `p`. -/
def lastStart (p : Nat) : Nat → Nat → List α → Nat
  | last, _, [] => last
  | last, cur, b :: rest => if cur ≤ p then lastStart p cur (cur + size b) rest else last

variable {size} {base start : Nat} {blocks rest : List α} {b : α}

@[simp] theorem total_nil : total size ([] : List α) = 0 := rfl

@[simp] theorem total_cons : total size (b :: blocks) = size b + total size blocks := sum_cons

theorem From.trans {start' : Nat} {rest' : List α} (first : From size base blocks start rest)
    (second : From size start rest start' rest') : From size base blocks start' rest' := by
  induction first with
  | here => exact second
  | later _ ih => exact From.later (ih second)

theorem From.base_le (found : From size base blocks start rest) : base ≤ start := by
  induction found with
  | here => exact le_refl _
  | later _ ih => exact Nat.le_of_add_right_le ih

/-- The layout ends at the same address wherever one starts to read it. -/
theorem From.total_eq (found : From size base blocks start rest) :
    start + total size rest = base + total size blocks := by
  induction found with
  | here => rfl
  | later _ ih => rw [ih, total_cons, add_assoc]

theorem At.stop_le (found : At size base blocks start b) :
    start + size b ≤ base + total size blocks := by
  obtain ⟨rest, found⟩ := found
  rw [← found.total_eq, total_cons]
  omega

theorem exists_from {a : Nat} (low : base ≤ a) (high : a < base + total size blocks) :
    ∃ start b rest, From size base blocks start (b :: rest) ∧ start ≤ a ∧ a < start + size b := by
  induction blocks generalizing base with
  | nil => exact absurd high (not_lt_of_ge low)
  | cons b blocks ih =>
    by_cases inside : a < base + size b
    · exact ⟨base, b, blocks, From.here _ _, low, inside⟩
    · rw [total_cons, ← add_assoc] at high
      obtain ⟨start, b', rest, found, bounds⟩ := ih (le_of_not_gt inside) high
      exact ⟨start, b', rest, From.later found, bounds⟩

/-- Two blocks of a layout are the same one, or one of them ends before the other starts. -/
theorem At.apart {start' : Nat} {b' : α} (first : At size base blocks start b)
    (second : At size base blocks start' b') :
    start + size b ≤ start' ∨ start' + size b' ≤ start ∨ (start = start' ∧ b = b') := by
  obtain ⟨rest, first⟩ := first
  obtain ⟨rest', second⟩ := second
  induction blocks generalizing base with
  | nil => nomatch first
  | cons c blocks ih =>
    cases first with
    | here =>
      cases second with
      | here => exact Or.inr (Or.inr ⟨rfl, rfl⟩)
      | later second => exact Or.inl second.base_le
    | later first =>
      cases second with
      | here => exact Or.inr (Or.inl first.base_le)
      | later second => exact ih first second

theorem At.unique {start' a : Nat} {b' : α} (first : At size base blocks start b)
    (second : At size base blocks start' b') (low : start ≤ a) (high : a < start + size b)
    (low' : start' ≤ a) (high' : a < start' + size b') : start = start' ∧ b = b' := by
  rcases first.apart second with before | after | same
  · omega
  · omega
  · exact same

theorem blocksFrom_eq (positive : ∀ b ∈ blocks, 0 < size b)
    (found : From size base blocks start (b :: rest)) :
    blocksFrom size base blocks start = b :: rest := by
  induction blocks generalizing base with
  | nil => nomatch found
  | cons c blocks ih =>
    rw [blocksFrom]
    cases found with
    | here => exact if_pos rfl
    | later found =>
      have := found.base_le
      have := positive c mem_cons_self
      rw [if_neg (by omega)]
      exact ih (fun b mem => positive b (mem_cons_of_mem c mem)) found

theorem lastStart_eq {last a : Nat} (found : From size base blocks start (b :: rest))
    (low : start ≤ a) (high : a < start + size b) : lastStart size a last base blocks = start := by
  induction blocks generalizing base last with
  | nil => nomatch found
  | cons c blocks ih =>
    have reached : base ≤ a := le_trans found.base_le low
    rw [lastStart, if_pos reached]
    cases found with
    | here =>
      -- the next block, if there is one, starts behind the address
      cases rest with
      | nil => rfl
      | cons next rest => exact if_neg (not_le_of_gt high)
    | later found => exact ih found

theorem lastStart_map {last p : Nat} :
    lastStart id p last base (blocks.map size) = lastStart size p last base blocks := by
  induction blocks generalizing base last with
  | nil => rfl
  | cons b blocks ih => simp only [map_cons, lastStart, ih, id_eq]

theorem From.append (found : From size base blocks start rest) (more : List α) :
    From size base (blocks ++ more) start (rest ++ more) := by
  induction found with
  | here => exact From.here _ _
  | later _ ih => exact From.later ih

theorem from_stop (base : Nat) (blocks more : List α) :
    From size base (blocks ++ more) (base + total size blocks) more := by
  induction blocks generalizing base with
  | nil => exact From.here _ _
  | cons b blocks ih =>
    refine From.later ?_
    rw [total_cons, ← add_assoc]
    exact ih _

theorem total_append (blocks more : List α) :
    total size (blocks ++ more) = total size blocks + total size more := by
  rw [total, map_append, sum_append]
  rfl

end BlockLayouts
