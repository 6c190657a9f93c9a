import Mathlib.Order.Nat
import Mathlib.Tactic.Common

/-!
# The values of a card

Besides clean and dirty, a card has values that mark a reference into a younger generation: one
for sequential collections, several for parallel ones, of which each parallel collection picks
one as current, and one more that says that the card also was not clean before.
-/
namespace CardTable
open List

def cleanCard : Int := -1

def dirtyCard : Int := 0

def precleanedCard : Int := 1

/-- `CT_MR_BS_last_reserved`. -/
def lastReserved : Int := 16

def youngergenCard : Int := lastReserved + 1

def youngergenP1Card : Int := lastReserved + 2

def curYoungergenAndPrevNoncleanCard : Int := lastReserved + 6

/-- Dirty and precleaned cards are equivalent for a scan. -/
def cardIsDirtyWrtGenIter (cv : Int) : Bool := cv == dirtyCard || cv == precleanedCard

def isPrevYoungergenCardVal (cur v : Int) : Bool :=
  youngergenCard ≤ v && v < curYoungergenAndPrevNoncleanCard && v != cur

def isPrevNoncleanCardVal (cur v : Int) : Bool :=
  youngergenCard ≤ v && v ≤ curYoungergenAndPrevNoncleanCard && v != cur

/-- The parallel values in the order in which they are tried. -/
def youngergenPCards : List Int :=
  [youngergenP1Card, youngergenP1Card + 1, youngergenP1Card + 2, youngergenP1Card + 3]

/-- A parallel value that no generation used in its last scan; `none` is `ShouldNotReachHere`. -/
def findUnusedYoungergenPCardValue (lastCurValInGen : Nat → Int) (regionsToIterate : Nat) :
    Option Int :=
  youngergenPCards.find? fun v => !(range regionsToIterate).any fun g => lastCurValInGen g == v

/-- The current value for the next scan. -/
def prepareForYoungerRefsIterate (parallel : Bool) (lastCurValInGen : Nat → Int)
    (regionsToIterate : Nat) : Option Int :=
  if parallel then findUnusedYoungergenPCardValue lastCurValInGen regionsToIterate
  else some youngergenCard

/-- A scan may clean a card with this value. -/
def Erasable (cur v : Int) : Prop :=
  cardIsDirtyWrtGenIter v = true ∨ isPrevYoungergenCardVal cur v = true

instance (cur v : Int) : Decidable (Erasable cur v) := inferInstanceAs (Decidable (_ ∨ _))

/-- The current value of a parallel collection. -/
def ParallelValue (cur : Int) : Prop := cur ∈ youngergenPCards

variable {cur v : Int} {lastCurValInGen : Nat → Int} {regionsToIterate : Nat}

theorem parallelValue_of_prepared
    (prepared : prepareForYoungerRefsIterate true lastCurValInGen regionsToIterate = some cur) :
    ParallelValue cur := by
  rw [prepareForYoungerRefsIterate, if_pos rfl] at prepared
  exact mem_of_find?_eq_some prepared

/-- The values that the generations used last are previous values in the new collection. -/
theorem ne_of_prepared
    (prepared : prepareForYoungerRefsIterate true lastCurValInGen regionsToIterate = some cur)
    {g : Nat} (consulted : g < regionsToIterate) : lastCurValInGen g ≠ cur := by
  have unused := find?_some prepared
  intro same
  simp only [Bool.not_eq_eq_eq_not, Bool.not_true, any_eq_false, mem_range,
    beq_iff_eq] at unused
  exact unused g consulted same

theorem ParallelValue.bounds (parallel : ParallelValue cur) : 18 ≤ cur ∧ cur ≤ 21 := by
  simp only [ParallelValue, youngergenPCards, youngergenP1Card, lastReserved, mem_cons,
    not_mem_nil, or_false] at parallel
  omega

theorem ParallelValue.ne_clean (parallel : ParallelValue cur) : cur ≠ cleanCard := by
  have bounds := parallel.bounds
  rw [cleanCard]
  omega

theorem ParallelValue.not_erasable (parallel : ParallelValue cur) : ¬ Erasable cur cur := by
  have bounds := parallel.bounds
  simp only [Erasable, cardIsDirtyWrtGenIter, isPrevYoungergenCardVal, dirtyCard, precleanedCard,
    Bool.or_eq_true, Bool.and_eq_true, beq_iff_eq, bne_self_eq_false, Bool.false_eq_true, and_false,
    or_false]
  omega

theorem both_ne_clean : curYoungergenAndPrevNoncleanCard ≠ cleanCard := by decide

theorem both_not_erasable : ¬ Erasable cur curYoungergenAndPrevNoncleanCard := by
  rintro (dirty | prev)
  · exact absurd dirty (by decide)
  · rw [isPrevYoungergenCardVal, Bool.and_eq_true, Bool.and_eq_true, decide_eq_true_eq,
      decide_eq_true_eq] at prev
    exact Int.lt_irrefl _ prev.1.2

theorem clean_not_erasable : ¬ Erasable cur cleanCard := by
  rintro (dirty | prev)
  · exact absurd dirty (by decide)
  · rw [isPrevYoungergenCardVal, Bool.and_eq_true, Bool.and_eq_true, decide_eq_true_eq] at prev
    exact absurd prev.1.1 (by decide)

/-- The card still has to be handed to the scanning closure. -/
def Due (cur v : Int) : Prop := Erasable cur v ∨ v = curYoungergenAndPrevNoncleanCard

theorem due_ne_clean (due : Due cur v) : v ≠ cleanCard := by
  rintro rfl
  rcases due with erasable | both
  · exact clean_not_erasable erasable
  · exact both_ne_clean both.symm

theorem due_of_prevNonclean (prev : isPrevNoncleanCardVal cur v = true) : Due cur v := by
  simp only [isPrevNoncleanCardVal, Bool.and_eq_true, decide_eq_true_eq, bne_iff_ne] at prev
  by_cases both : v = curYoungergenAndPrevNoncleanCard
  · exact .inr both
  · refine .inl (.inr ?_)
    simp only [isPrevYoungergenCardVal, Bool.and_eq_true, decide_eq_true_eq, bne_iff_ne]
    omega

end CardTable
