import Mathlib.Algebra.Order.Ring.Int
import Mathlib.Data.Nat.ModEq
import Mathlib.Data.Nat.Prime.Basic
import Mathlib.Tactic.Linarith
import Mathlib.Tactic.Positivity
import Mathlib.Tactic.Ring

/-!
# Division by an invariant divisor

A quotient by a fixed divisor `d` is a multiplication and a shift: with the multiplier
`m = 2 ^ p / d + 1` the product `m * n` exceeds `n / d * 2 ^ p` by an error that stays small
enough if `p` is large. How large is decided by one number, the largest `n` in range that leaves
the remainder `d - 1`. Dividends run from `-2 ^ k` to `2 ^ k - 1`.
-/
namespace InvariantDivision

variable {k d p n : Nat}

/-- The largest number below `2 ^ k` with the remainder `d - 1`. -/
def critical (k d : Nat) : Nat := 2 ^ k - 1 - 2 ^ k % d

/-- How far the next multiple of `d` lies above `2 ^ p`. -/
def excess (d p : Nat) : Nat := d - 2 ^ p % d

def multiplier (d p : Nat) : Nat := 2 ^ p / d + 1

/-- The power is still too small: the error at the critical dividend reaches one unit. -/
def TooSmall (k d p : Nat) : Prop := 2 ^ p ≤ critical k d * excess d p

/-- A divisor that is not a power of two, in the range of the dividends. -/
structure Divisor (k d : Nat) : Prop where
  positive : 0 < d
  small : d < 2 ^ k
  notPower : ∀ i, d ≠ 2 ^ i

section

variable (divisor : Divisor k d)
include divisor

theorem Divisor.two_lt : 2 < d := by
  have := divisor.positive
  have one := divisor.notPower 0
  have two := divisor.notPower 1
  omega

theorem Divisor.mod_pos (p : Nat) : 0 < 2 ^ p % d := by
  apply Nat.pos_of_ne_zero
  intro zero
  obtain ⟨i, -, same⟩ := (Nat.dvd_prime_pow Nat.prime_two).mp (Nat.dvd_of_mod_eq_zero zero)
  exact divisor.notPower i same

omit divisor in
theorem excess_pos (positive : 0 < d) (p : Nat) : 0 < excess d p :=
  Nat.sub_pos_of_lt (Nat.mod_lt _ positive)

theorem Divisor.excess_lt (p : Nat) : excess d p < d := by
  have := divisor.mod_pos p
  have := Nat.mod_lt (2 ^ p) divisor.positive
  unfold excess
  omega

omit divisor in
theorem multiplier_mul (positive : 0 < d) (p : Nat) : multiplier d p * d = 2 ^ p + excess d p := by
  have parts := Nat.div_add_mod (2 ^ p) d
  have rest := Nat.mod_lt (2 ^ p) positive
  unfold multiplier excess
  rw [add_mul, one_mul, mul_comm]
  omega

theorem Divisor.critical_add_one : critical k d + 1 = d * (2 ^ k / d) := by
  have parts := Nat.div_add_mod (2 ^ k) d
  have rest := Nat.mod_lt (2 ^ k) divisor.positive
  have small := divisor.small
  unfold critical
  omega

theorem Divisor.quotient_pos : 0 < 2 ^ k / d :=
  Nat.div_pos (le_of_lt divisor.small) divisor.positive

theorem Divisor.le_critical : d ≤ critical k d + 1 := by
  rw [divisor.critical_add_one]
  exact Nat.le_mul_of_pos_right d divisor.quotient_pos

theorem Divisor.critical_lt : critical k d + 1 < 2 ^ k := by
  have := divisor.mod_pos k
  have := divisor.critical_add_one
  have := Nat.div_add_mod (2 ^ k) d
  omega

/-- More than half of the range lies below the critical dividend. -/
theorem Divisor.half_le_critical : 2 ^ k ≤ 2 * critical k d := by
  have := divisor.le_critical
  have := divisor.critical_add_one
  have := Nat.div_add_mod (2 ^ k) d
  have := Nat.mod_lt (2 ^ k) divisor.positive
  have := divisor.two_lt
  -- `2 ^ k` is even, so it is not one more than twice the critical dividend
  obtain ⟨j, rfl⟩ : ∃ j, k = j + 1 := by
    cases k with
    | zero =>
      omega
    | succ j => exact ⟨j, rfl⟩
  omega

/-! ### The error -/

/-- The only number with the remainder `d - 1` that the critical dividend does not speak about. -/
theorem excess_mul_top (large : k ≤ p) (last : 2 ^ k % d + 1 = d) : excess d p * 2 ^ k ≤ 2 ^ p := by
  -- `2 ^ k` is `-1` modulo `d`, so the excess over `2 ^ p` is congruent to `2 ^ (p - k)`
  have powers : 2 ^ p = 2 ^ (p - k) * 2 ^ k := by rw [← pow_add, Nat.sub_add_cancel large]
  have minusOne : d ∣ 2 ^ k + 1 := by
    apply Nat.dvd_of_mod_eq_zero
    rw [Nat.add_mod, Nat.mod_eq_of_lt (a := 1) (by have := divisor.two_lt; omega), last]
    exact Nat.mod_self d
  have shifted : d ∣ 2 ^ p + 2 ^ (p - k) := by
    rw [powers, ← Nat.mul_add_one]
    exact Nat.dvd_mul_left_of_dvd minusOne _
  have multiple : d ∣ 2 ^ p + excess d p := by
    rw [← multiplier_mul divisor.positive]
    exact dvd_mul_left d _
  have congruent : 2 ^ (p - k) % d = excess d p := by
    have same : 2 ^ (p - k) ≡ excess d p [MOD d] := by
      apply Nat.ModEq.add_left_cancel' (2 ^ p)
      exact (Nat.modEq_zero_iff_dvd.mpr shifted).trans (Nat.modEq_zero_iff_dvd.mpr multiple).symm
    exact Eq.trans same (Nat.mod_eq_of_lt (divisor.excess_lt p))
  calc excess d p * 2 ^ k ≤ 2 ^ (p - k) * 2 ^ k := by
        apply Nat.mul_le_mul_right
        rw [← congruent]
        exact Nat.mod_le _ _
    _ = 2 ^ p := powers.symm

/-- Beyond the critical dividend, but with a remainder below `d - 1`. -/
theorem excess_mul_beyond (suits : ¬TooSmall k d p) {r : Nat} (room : r + 2 ≤ d) :
    excess d p * (critical k d + 1 + r) < (d - r) * 2 ^ p := by
  have atCritical : critical k d * excess d p < 2 ^ p := lt_of_not_ge suits
  have beyond : excess d p * (1 + r) ≤ critical k d * excess d p := by
    rw [mul_comm]
    apply Nat.mul_le_mul_right
    have := divisor.le_critical
    omega
  calc excess d p * (critical k d + 1 + r)
      = critical k d * excess d p + excess d p * (1 + r) := by ring
    _ < 2 * 2 ^ p := by omega
    _ ≤ (d - r) * 2 ^ p := Nat.mul_le_mul_right _ (by omega)

omit divisor in
theorem excess_mul_below (suits : ¬TooSmall k d p) (positive : 0 < d)
    (below : n ≤ critical k d) : excess d p * n < (d - n % d) * 2 ^ p := by
  have rest := Nat.mod_lt n positive
  calc excess d p * n ≤ critical k d * excess d p := by
        rw [mul_comm]
        exact Nat.mul_le_mul_right _ below
    _ < 2 ^ p := lt_of_not_ge suits
    _ ≤ (d - n % d) * 2 ^ p := Nat.le_mul_of_pos_left _ (by omega)

/-- A dividend above the critical one leaves as remainder what it exceeds the next number by. -/
theorem Divisor.mod_of_critical_lt (beyond : critical k d < n) (inRange : n ≤ 2 ^ k) :
    critical k d + 1 + n % d = n ∧ n % d ≤ 2 ^ k % d ∧ (n % d = 2 ^ k % d → n = 2 ^ k) := by
  have start := divisor.critical_add_one
  have parts := Nat.div_add_mod (2 ^ k) d
  have rest := Nat.mod_lt (2 ^ k) divisor.positive
  have remainder : n % d = n - d * (2 ^ k / d) := by
    obtain ⟨r, rfl⟩ : ∃ r, n = r + d * (2 ^ k / d) := ⟨n - d * (2 ^ k / d), by omega⟩
    rw [Nat.add_mul_mod_self_left, Nat.mod_eq_of_lt (by omega)]
    omega
  omega

theorem excess_mul_lt (suits : ¬TooSmall k d p) (inRange : n < 2 ^ k) :
    excess d p * n < (d - n % d) * 2 ^ p := by
  rcases lt_or_ge (critical k d) n with beyond | below
  · obtain ⟨split, smaller, top⟩ := divisor.mod_of_critical_lt beyond (le_of_lt inRange)
    have rest := Nat.mod_lt (2 ^ k) divisor.positive
    have bound := excess_mul_beyond divisor suits (r := n % d) (by omega)
    rwa [split] at bound
  · exact excess_mul_below suits divisor.positive below

theorem excess_mul_le (suits : ¬TooSmall k d p) (large : k ≤ p) (inRange : n ≤ 2 ^ k) :
    excess d p * n ≤ (d - n % d) * 2 ^ p := by
  rcases Nat.lt_or_eq_of_le inRange with inside | rfl
  · exact le_of_lt (excess_mul_lt divisor suits inside)
  by_cases last : 2 ^ k % d + 1 = d
  · calc excess d p * 2 ^ k ≤ 2 ^ p := excess_mul_top divisor large last
      _ ≤ (d - 2 ^ k % d) * 2 ^ p := Nat.le_mul_of_pos_left _ (by omega)
  · have rest := Nat.mod_lt (2 ^ k) divisor.positive
    have beyond : critical k d < 2 ^ k := by
      have := divisor.critical_lt
      omega
    obtain ⟨split, -⟩ := divisor.mod_of_critical_lt beyond (le_refl _)
    have bound := excess_mul_beyond divisor suits (r := 2 ^ k % d) (by omega)
    rw [split] at bound
    exact le_of_lt bound

/-! ### Quotients -/

omit divisor in
/-- The product of multiplier and dividend, in units of `1 / d`. -/
theorem multiplier_mul_eq (positive : 0 < d) (p n : Nat) :
    multiplier d p * n * d = n / d * d * 2 ^ p + n % d * 2 ^ p + excess d p * n := by
  calc multiplier d p * n * d = multiplier d p * d * n := by ring
    _ = 2 ^ p * n + excess d p * n := by rw [multiplier_mul positive, add_mul]
    _ = 2 ^ p * (d * (n / d) + n % d) + excess d p * n := by rw [Nat.div_add_mod]
    _ = n / d * d * 2 ^ p + n % d * 2 ^ p + excess d p * n := by ring

omit divisor in
theorem next_quotient_mul (positive : 0 < d) (p n : Nat) :
    (n / d + 1) * 2 ^ p * d = n / d * d * 2 ^ p + n % d * 2 ^ p + (d - n % d) * 2 ^ p := by
  have whole : n % d + (d - n % d) = d := by
    have := Nat.mod_lt n positive
    omega
  calc (n / d + 1) * 2 ^ p * d = n / d * d * 2 ^ p + d * 2 ^ p := by ring
    _ = n / d * d * 2 ^ p + (n % d + (d - n % d)) * 2 ^ p := by rw [whole]
    _ = n / d * d * 2 ^ p + n % d * 2 ^ p + (d - n % d) * 2 ^ p := by ring

omit divisor in
theorem quotient_mul_le (positive : 0 < d) (p n : Nat) : n / d * 2 ^ p ≤ multiplier d p * n := by
  apply Nat.le_of_mul_le_mul_right _ positive
  rw [multiplier_mul_eq positive]
  have : n / d * 2 ^ p * d = n / d * d * 2 ^ p := by ring
  omega

/-- A dividend that is not negative: the product shifted is the quotient. -/
theorem multiplier_mul_div (suits : ¬TooSmall k d p) (inRange : n < 2 ^ k) :
    multiplier d p * n / 2 ^ p = n / d := by
  apply Nat.div_eq_of_lt_le
  · exact quotient_mul_le divisor.positive p n
  · apply Nat.lt_of_mul_lt_mul_right (a := d)
    rw [multiplier_mul_eq divisor.positive, next_quotient_mul divisor.positive]
    exact Nat.add_lt_add_left (excess_mul_lt divisor suits inRange) _

/-- A negative dividend `-n`: the product shifted rounds to one below the quotient. -/
theorem neg_multiplier_mul_div (suits : ¬TooSmall k d p) (large : k ≤ p) (positive : 0 < n)
    (inRange : n ≤ 2 ^ k) : -(multiplier d p * n : Int) / 2 ^ p = -(n / d : Nat) - 1 := by
  have above : n / d * 2 ^ p < multiplier d p * n := by
    apply Nat.lt_of_mul_lt_mul_right (a := d)
    rw [multiplier_mul_eq divisor.positive]
    have error : 0 < excess d p * n := Nat.mul_pos (excess_pos divisor.positive p) positive
    have : n / d * 2 ^ p * d = n / d * d * 2 ^ p := by ring
    omega
  have below : multiplier d p * n ≤ (n / d + 1) * 2 ^ p := by
    apply Nat.le_of_mul_le_mul_right _ divisor.positive
    rw [multiplier_mul_eq divisor.positive, next_quotient_mul divisor.positive]
    exact Nat.add_le_add_left (excess_mul_le divisor suits large inRange) _
  have unit : (0 : Int) < 2 ^ p := by positivity
  apply Int.le_antisymm
  · apply Int.le_of_lt_add_one
    apply Int.ediv_lt_of_lt_mul unit
    have := Int.ofNat_lt.mpr above
    push_cast at this ⊢
    linarith
  · apply Int.le_ediv_of_mul_le unit
    have := Int.ofNat_le.mpr below
    push_cast at this ⊢
    linarith

/-- The product shifted, and corrected by the sign, is the quotient rounded toward zero. -/
theorem corrected_quotient (suits : ¬TooSmall k d p) (large : k ≤ p) {n : Int}
    (lower : -2 ^ k ≤ n) (upper : n < 2 ^ k) :
    n * multiplier d p / 2 ^ p - (if n < 0 then -1 else 0) = n.tdiv d := by
  rcases lt_or_ge n 0 with negative | positive
  · obtain ⟨m, rfl⟩ : ∃ m : Nat, n = -m := ⟨n.natAbs, by omega⟩
    have inRange : m ≤ 2 ^ k := by
      have : (m : Int) ≤ (2 ^ k : Nat) := by
        push_cast
        omega
      omega
    have floor := neg_multiplier_mul_div divisor suits large (n := m) (by omega) inRange
    rw [if_pos negative, Int.neg_tdiv, Int.neg_mul, mul_comm, floor]
    rw [Int.tdiv_eq_ediv_of_nonneg (by omega)]
    omega
  · obtain ⟨m, rfl⟩ := Int.eq_ofNat_of_zero_le positive
    have inRange : m < 2 ^ k := by exact_mod_cast upper
    have floor := multiplier_mul_div divisor suits inRange
    rw [if_neg (by omega), Int.sub_zero, Int.tdiv_eq_ediv_of_nonneg positive, mul_comm]
    exact_mod_cast floor

/-! ### The search for the power -/

/-- The test on the quotient and remainder of the power by the critical dividend. -/
theorem tooSmall_iff (p : Nat) :
    TooSmall k d p ↔ 2 ^ p / critical k d < excess d p ∨
      2 ^ p / critical k d = excess d p ∧ 2 ^ p % critical k d = 0 := by
  have positive : 0 < critical k d := by
    have := divisor.le_critical
    have := divisor.two_lt
    omega
  have parts := Nat.div_add_mod (2 ^ p) (critical k d)
  have rest := Nat.mod_lt (2 ^ p) positive
  constructor
  · intro small
    have quotient : 2 ^ p / critical k d ≤ excess d p := by
      apply Nat.div_le_of_le_mul
      exact small
    rcases Nat.lt_or_eq_of_le quotient with less | same
    · exact .inl less
    · refine .inr ⟨same, ?_⟩
      rw [same] at parts
      have : 2 ^ p ≤ critical k d * excess d p := small
      omega
  · rintro (less | ⟨same, zero⟩)
    · calc 2 ^ p ≤ critical k d * (2 ^ p / critical k d + 1) := by
            rw [Nat.mul_add_one]
            omega
        _ ≤ critical k d * excess d p := Nat.mul_le_mul_left _ less
    · rw [same, zero] at parts
      exact le_of_eq parts.symm

/-- Twice the bits are enough, so the search ends. -/
theorem TooSmall.lt (small : TooSmall k d p) : p < 2 * k := by
  have error := divisor.excess_lt p
  have range := divisor.small
  have below := divisor.critical_lt
  by_contra large
  have : 2 ^ (2 * k) ≤ 2 ^ p := Nat.pow_le_pow_right (by decide) (le_of_not_gt large)
  have : critical k d * excess d p < 2 ^ k * 2 ^ k := Nat.mul_lt_mul'' (by omega) (by omega)
  rw [← pow_add, ← Nat.two_mul] at this
  have : 2 ^ p ≤ critical k d * excess d p := small
  omega

/-- The first power that suits is not more than twice too large. -/
theorem quotients_lt (first : p = k ∨ TooSmall k d p) :
    2 ^ (p + 1) / critical k d < 2 ^ (k + 1) ∧ 2 ^ (p + 1) / d + 1 < 2 ^ (k + 1) := by
  have below := divisor.critical_lt
  have half := divisor.half_le_critical
  have two := divisor.two_lt
  have positive : 0 < critical k d := by
    omega
  rw [pow_succ, pow_succ]
  rcases first with rfl | small
  · constructor
    · apply (Nat.div_lt_iff_lt_mul positive).mpr
      have : 2 ^ p * 2 * 2 ≤ 2 ^ p * 2 * critical p d :=
        Nat.mul_le_mul_left _ (by have := divisor.le_critical; omega)
      omega
    · have : 2 ^ p * 2 / d ≤ 2 ^ p * 2 / 2 := Nat.div_le_div_left (by omega) (by decide)
      omega
  · have error := divisor.excess_lt p
    have range := divisor.small
    have bound : 2 ^ p ≤ critical k d * excess d p := small
    constructor
    · have : 2 ^ p * 2 / critical k d ≤ excess d p * 2 := by
        apply Nat.div_le_of_le_mul
        rw [← mul_assoc]
        exact Nat.mul_le_mul_right 2 bound
      omega
    · have : 2 ^ p * 2 / d ≤ critical k d * 2 := by
        apply Nat.div_le_of_le_mul
        calc 2 ^ p * 2 ≤ critical k d * excess d p * 2 :=
              Nat.mul_le_mul_right 2 bound
          _ ≤ critical k d * d * 2 :=
              Nat.mul_le_mul_right 2 (Nat.mul_le_mul_left _ (le_of_lt error))
          _ = d * (critical k d * 2) := by ring
      omega

end

/-- Quotient and remainder of the next power, from those of this one. -/
theorem div_mod_double {a n : Nat} (positive : 0 < n) :
    2 * a / n = 2 * (a / n) + (if n ≤ 2 * (a % n) then 1 else 0) ∧
      2 * a % n = 2 * (a % n) - (if n ≤ 2 * (a % n) then n else 0) := by
  have parts := Nat.div_add_mod a n
  have rest := Nat.mod_lt a positive
  split
  · rename_i carries
    have whole : 2 * a = (2 * (a % n) - n) + n * (2 * (a / n) + 1) := by
      rw [Nat.mul_add_one, mul_left_comm]
      omega
    rw [whole, Nat.add_mul_div_left _ _ positive, Nat.add_mul_mod_self_left,
      Nat.div_eq_of_lt (by omega), Nat.mod_eq_of_lt (by omega)]
    omega
  · rename_i fits
    have whole : 2 * a = 2 * (a % n) + n * (2 * (a / n)) := by
      rw [mul_left_comm]
      omega
    rw [whole, Nat.add_mul_div_left _ _ positive, Nat.add_mul_mod_self_left,
      Nat.div_eq_of_lt (by omega), Nat.mod_eq_of_lt (by omega)]
    omega

end InvariantDivision
