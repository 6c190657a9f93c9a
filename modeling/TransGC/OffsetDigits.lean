import Mathlib.Init

/-!
# Numbers in digits with an offset

A number is written in digits, the lowest one first. A digit below `low` is the last one; each
other digit stands for one of `high` residues, and what is left is divided by `high`. Since the
offset is taken off before each division, no two sequences stand for the same number. After
`count` digits that are not the last one, the rest is written as one digit.
-/

namespace OffsetDigits

variable (low high : Nat)

def digits : Nat → Nat → List Nat
  | 0, n => [n]
  | count + 1, n =>
    if n < low then [n] else (low + (n - low) % high) :: digits count ((n - low) / high)

/-- The number of which the digits are the sum of products with powers of `high`. -/
def value : List Nat → Nat
  | [] => 0
  | digit :: rest => digit + high * value rest

/-- A sequence that ends with its first digit below `low`, or with the digit behind `count`
others. -/
inductive Coded : Nat → List Nat → Prop
  | rest {digit : Nat} : Coded 0 [digit]
  | small {count digit : Nat} (below : digit < low) : Coded (count + 1) [digit]
  | more {count digit : Nat} {later : List Nat} (above : low ≤ digit) (coded : Coded count later) :
    Coded (count + 1) (digit :: later)

/-- The numbers whose last digit after `count` others is below `last`. -/
def capacity (last : Nat) : Nat → Nat
  | 0 => last
  | count + 1 => low + high * capacity last count

variable {low high} {count n last : Nat}

theorem value_digits : value high (digits low high count n) = n := by
  induction count generalizing n with
  | zero => simp [digits, value]
  | succ count ih =>
    rw [digits]
    split
    next small => simp [value]
    next large =>
      rw [value, ih]
      have := Nat.mod_add_div (n - low) high
      omega

theorem coded_digits : Coded low count (digits low high count n) := by
  induction count generalizing n with
  | zero => exact .rest
  | succ count ih =>
    rw [digits]
    split
    next small => exact .small small
    next large => exact .more (Nat.le_add_right _ _) ih

theorem length_digits_pos : 0 < (digits low high count n).length := by
  cases count with
  | zero => exact Nat.one_pos
  | succ count =>
    rw [digits]
    split <;> exact Nat.succ_pos _

theorem length_digits_le : (digits low high count n).length ≤ count + 1 := by
  induction count generalizing n with
  | zero => exact Nat.le_refl 1
  | succ count ih =>
    rw [digits]
    split
    · exact Nat.succ_le_succ (Nat.zero_le _)
    · exact Nat.succ_le_succ ih

theorem rest_lt_capacity (positive : 0 < high) (large : ¬ n < low)
    (fits : n < capacity low high last (count + 1)) :
    (n - low) / high < capacity low high last count := by
  rw [capacity, Nat.mul_comm] at fits
  exact (Nat.div_lt_iff_lt_mul positive).mpr (by omega)

theorem digits_lt (positive : 0 < high) (fits : n < capacity low high (low + high) count) :
    ∀ digit ∈ digits low high count n, digit < low + high := by
  induction count generalizing n with
  | zero =>
    intro digit mem
    rw [List.mem_singleton.mp mem]
    exact fits
  | succ count ih =>
    intro digit mem
    rw [digits] at mem
    split at mem
    next small =>
      rw [List.mem_singleton.mp mem]
      omega
    next large =>
      rcases List.mem_cons.mp mem with rfl | later
      · exact Nat.add_lt_add_left (Nat.mod_lt _ positive) low
      · exact ih (rest_lt_capacity positive large fits) digit later

end OffsetDigits
