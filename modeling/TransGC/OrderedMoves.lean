import Mathlib.Order.Nat
import Mathlib.Tactic.Common

/-!
# Moving blocks of words one after the other

A move copies a block of words to its target as if through a buffer; the first word of the copy
is written anew. A sequence of moves delivers every block intact when no move writes to the
source or to the target of a later one.
-/
namespace OrderedMoves
universe u

structure Move where
  source : Nat
  size : Nat
  target : Nat
  deriving DecidableEq

def Move.Reads (m : Move) (a : Nat) : Prop := m.source ≤ a ∧ a < m.source + m.size

def Move.Writes (m : Move) (a : Nat) : Prop := m.target ≤ a ∧ a < m.target + m.size

variable {Word : Type u} (head : (Nat → Word) → Nat → Word)

/-- Copies the block of `m`; `head` makes the first word of the copy. -/
def move (mem : Nat → Word) (m : Move) : Nat → Word := fun a =>
  if a = m.target then head mem m.source
  else if m.target ≤ a ∧ a < m.target + m.size then mem (m.source + (a - m.target))
  else mem a

def moveAll (mem : Nat → Word) (moves : List Move) : Nat → Word :=
  moves.foldl (move head) mem

/-- `m` leaves what the later move `m'` reads and writes alone. -/
def Before (m m' : Move) : Prop := ∀ a, m.Writes a → ¬ m'.Reads a ∧ ¬ m'.Writes a

variable {head} {mem : Nat → Word} {m : Move} {moves more : List Move} {a k : Nat}

theorem move_outside (positive : 0 < m.size) (outside : ¬ m.Writes a) :
    move head mem m a = mem a := by
  have elsewhere : a ≠ m.target := by
    rintro rfl
    exact outside ⟨le_rfl, by omega⟩
  exact (if_neg elsewhere).trans (if_neg outside)

theorem move_inside (positive : 0 < k) (inside : k < m.size) :
    move head mem m (m.target + k) = mem (m.source + k) := by
  have range : m.target ≤ m.target + k ∧ m.target + k < m.target + m.size := by omega
  rw [move, if_neg (by omega), if_pos range, Nat.add_sub_cancel_left]

@[simp] theorem moveAll_nil : moveAll head mem [] = mem := rfl

@[simp] theorem moveAll_cons :
    moveAll head mem (m :: moves) = moveAll head (move head mem m) moves := rfl

theorem moveAll_append :
    moveAll head mem (moves ++ more) = moveAll head (moveAll head mem moves) more := by
  simp [moveAll]

theorem moveAll_outside (positive : ∀ m ∈ moves, 0 < m.size)
    (outside : ∀ m ∈ moves, ¬ m.Writes a) : moveAll head mem moves a = mem a := by
  induction moves generalizing mem with
  | nil => rfl
  | cons m moves ih =>
    rw [List.forall_mem_cons] at positive outside
    rw [moveAll_cons, ih positive.2 outside.2, move_outside positive.1 outside.1]

/-- Every block arrives with the words it had before the first move. -/
theorem moveAll_delivers (positive : ∀ m ∈ moves, 0 < m.size)
    (ordered : moves.Pairwise Before) (among : m ∈ moves) (later : 0 < k) (inside : k < m.size) :
    moveAll head mem moves (m.target + k) = mem (m.source + k) := by
  induction moves generalizing mem with
  | nil => cases among
  | cons first moves ih =>
    rw [List.forall_mem_cons] at positive
    rw [List.pairwise_cons] at ordered
    rw [moveAll_cons]
    rcases List.mem_cons.mp among with rfl | among
    · have kept : ∀ m' ∈ moves, ¬ m'.Writes (m.target + k) := fun m' among' =>
        (ordered.1 m' among' _ ⟨by omega, by omega⟩).2
      rw [moveAll_outside positive.2 kept, move_inside later inside]
    · have unread : ¬ first.Writes (m.source + k) := fun writes =>
        (ordered.1 m among _ writes).1 ⟨by omega, by omega⟩
      rw [ih positive.2 ordered.2 among, move_outside positive.1 unread]

end OrderedMoves
