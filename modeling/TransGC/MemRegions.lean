import Mathlib.Order.Nat
import Mathlib.Tactic.Common
import Mathlib.Algebra.Order.Ring.Int

/-!
# Memory regions

A region is a first word and a number of words. An empty region keeps its start.
-/

structure MemRegion where
  start : Nat
  wordSize : Nat
deriving DecidableEq, Repr

namespace MemRegion

def stop (mr : MemRegion) : Nat := mr.start + mr.wordSize

/-- The last word of a region that is not empty. -/
def last (mr : MemRegion) : Nat := mr.start + mr.wordSize - 1

/-- The region between two addresses. -/
def between (low high : Nat) : MemRegion := ⟨low, high - low⟩

/-- The region of the default constructor. -/
def empty : MemRegion := ⟨0, 0⟩

def IsEmpty (mr : MemRegion) : Prop := mr.wordSize = 0

instance (mr : MemRegion) : Decidable mr.IsEmpty := inferInstanceAs (Decidable (_ = _))

def Contains (mr : MemRegion) (a : Nat) : Prop := mr.start ≤ a ∧ a < mr.stop

instance (mr : MemRegion) (a : Nat) : Decidable (mr.Contains a) :=
  inferInstanceAs (Decidable (_ ∧ _))

def intersection (mr mr2 : MemRegion) : MemRegion :=
  if max mr.start mr2.start < min mr.stop mr2.stop then
    between (max mr.start mr2.start) (min mr.stop mr2.stop)
  else empty

/-- No result if the other region is in the interior: the call then fails a guarantee. -/
def minus (mr mr2 : MemRegion) : Option MemRegion :=
  if mr2.stop ≤ mr.start then some (between mr.start mr.stop)
  else if mr2.start ≤ mr.start ∧ mr2.stop ≤ mr.stop then some (between mr2.stop mr.stop)
  else if mr2.start ≥ mr.stop then some (between mr.start mr.stop)
  else if mr2.start ≥ mr.start ∧ mr2.stop ≥ mr.stop then some (between mr.start mr2.start)
  else if mr2.start ≤ mr.start ∧ mr2.stop ≥ mr.stop then some empty
  else none

/-- The two regions have no word in common. -/
def Disjoint (mr mr2 : MemRegion) : Prop := ∀ a, mr.Contains a → ¬ mr2.Contains a

variable {mr mr2 : MemRegion} {a : Nat}

theorem contains_iff : mr.Contains a ↔ mr.start ≤ a ∧ a < mr.start + mr.wordSize := Iff.rfl

theorem not_contains_of_isEmpty (empty : mr.IsEmpty) : ¬ mr.Contains a := by
  intro inside
  have words : mr.wordSize = 0 := empty
  have := contains_iff.mp inside
  omega

theorem contains_intersection :
    (mr.intersection mr2).Contains a ↔ mr.Contains a ∧ mr2.Contains a := by
  rw [intersection]
  split
  next nonempty =>
    simp only [contains_iff, between, stop] at nonempty ⊢
    omega
  next disjoint =>
    simp only [contains_iff, empty, stop] at disjoint ⊢
    omega

theorem Disjoint.symm (disjoint : mr.Disjoint mr2) : mr2.Disjoint mr :=
  fun a inside other => disjoint a other inside

/-- Two regions of which one ends where the other starts or earlier. -/
theorem disjoint_of_stop_le (below : mr2.stop ≤ mr.start) : mr.Disjoint mr2 := by
  intro a inside other
  have := inside.1
  have := other.2
  omega

theorem contains_between {low high : Nat} : (between low high).Contains a ↔ low ≤ a ∧ a < high := by
  simp only [contains_iff, between]
  omega

theorem stop_between {low high : Nat} (le : low ≤ high) : (between low high).stop = high := by
  simp only [stop, between]
  omega

/-- What `minus` returns are the words of the one region that are not in the other. -/
theorem contains_minus {rest : MemRegion} (found : mr.minus mr2 = some rest) :
    rest.Contains a ↔ mr.Contains a ∧ ¬ mr2.Contains a := by
  rw [minus] at found
  simp only [Contains]
  have order2 : mr2.start ≤ mr2.stop := Nat.le_add_right _ _
  split at found
  · cases found
    rw [← Contains, contains_between]
    omega
  · split at found
    · cases found
      rw [← Contains, contains_between]
      omega
    · split at found
      · cases found
        rw [← Contains, contains_between]
        omega
      · split at found
        · cases found
          rw [← Contains, contains_between]
          omega
        · split at found
          · cases found
            have none : ¬ empty.Contains a := not_contains_of_isEmpty rfl
            rw [← Contains]
            simp only [none, false_iff]
            omega
          · cases found

/-- The call returns unless the other region is in the interior. -/
theorem minus_of_not_interior {low : Nat}
    (outer : mr2.start ≤ mr.start ∨ mr.stop ≤ mr2.stop) (above : low ≤ mr.start ∨ mr.stop = 0) :
    ∃ rest, mr.minus mr2 = some rest ∧ rest.stop ≤ mr.stop ∧
      (low ≤ rest.start ∨ rest.stop = 0) := by
  have order : mr.start ≤ mr.stop := Nat.le_add_right _ _
  rw [minus]
  split
  · exact ⟨_, rfl, Nat.le_of_eq (stop_between order), above.imp_right (stop_between order).trans⟩
  · split
    next below overlap =>
      refine ⟨_, rfl, Nat.le_of_eq (stop_between overlap.2), ?_⟩
      rcases above with above | zero
      · exact Or.inl (show low ≤ mr2.stop by omega)
      · exact Or.inr ((stop_between overlap.2).trans zero)
    · split
      · exact ⟨_, rfl, Nat.le_of_eq (stop_between order), above.imp_right (stop_between order).trans⟩
      · split
        next notAbove overlap =>
          have stopEq : (between mr.start mr2.start).stop = mr2.start := stop_between overlap.1
          refine ⟨_, rfl, by omega, ?_⟩
          rcases above with above | zero
          · exact Or.inl above
          · exact Or.inr (by omega)
        · split
          · exact ⟨empty, rfl, Nat.zero_le _, Or.inr rfl⟩
          · omega

end MemRegion
