import Mathlib.Data.BitVec
import TransGC.InvariantDivision

/-!
# Magic constants for division

`magic_int_divide_constants` and `magic_long_divide_constants`: the search for the multiplier and
the shift that replace a division by a constant. The variables of the loop are unsigned words;
the quotients and remainders of the growing power are kept by doubling and never overflow.
-/
namespace MagicConstants
open InvariantDivision BitVec

variable {w k d : Nat}

/-! ### The loop -/

structure Search (w : Nat) where
  p : Nat
  q1 : BitVec w
  r1 : BitVec w
  q2 : BitVec w
  r2 : BitVec w
  deriving DecidableEq, Repr

/-- Quotient and remainder by `n` after the dividend has been doubled. -/
def doubled (n q r : BitVec w) : BitVec w × BitVec w :=
  if 2 * r ≥ n then (2 * q + 1, 2 * r - n) else (2 * q, 2 * r)

def iterate (ad anc : BitVec w) (s : Search w) : Search w :=
  let (q1, r1) := doubled anc s.q1 s.r1
  let (q2, r2) := doubled ad s.q2 s.r2
  ⟨s.p + 1, q1, r1, q2, r2⟩

/-- The condition of the loop, with `delta = ad - r2`. -/
def goesOn (ad : BitVec w) (s : Search w) : Bool :=
  s.q1 < ad - s.r2 || (s.q1 == ad - s.r2 && s.r1 == 0)

/-- The `do`-loop, with a bound on the number of iterations. -/
def search (ad anc : BitVec w) : Nat → Search w → Option (Search w)
  | 0, _ => none
  | fuel + 1, s =>
    if goesOn ad (iterate ad anc s) then search ad anc fuel (iterate ad anc s)
    else some (iterate ad anc s)

/-- The states in which an iteration begins. -/
def visited (ad anc : BitVec w) : Nat → Search w → List (Search w)
  | 0, _ => []
  | fuel + 1, s =>
    s :: if goesOn ad (iterate ad anc s) then visited ad anc fuel (iterate ad anc s) else []

/-- `2 ** 31` or `2 ** 63`. -/
def two (w : Nat) : BitVec w := twoPow w (w - 1)

/-- `ABS(d)`. -/
def absolute (d : BitVec w) : BitVec w := if (0 : BitVec w).slt d then d else -d

/-- The absolute value of `nc`. -/
def critical (d : BitVec w) : BitVec w :=
  let t := two w + d >>> (w - 1)
  t - 1 - t % absolute d

def startSearch (ad anc : BitVec w) : Search w :=
  let q1 := two w / anc
  let q2 := two w / ad
  ⟨w - 1, q1, two w - q1 * anc, q2, two w - q2 * ad⟩

/-- `none` for the divisors 0 and 1. The loop has no more iterations than the word has bits. -/
def magicDivideConstants (d : BitVec w) : Option (BitVec w × Nat) :=
  if d = 0 ∨ d = 1 then none
  else
    (search (absolute d) (critical d) w (startSearch (absolute d) (critical d))).map fun last =>
      let m := last.q2 + 1
      (if d.slt 0 then -m else m, last.p - w)

/-! ### One iteration -/

/-- The doubled quotient and remainder are words. -/
def Fits (n q r : BitVec w) : Prop :=
  2 * r.toNat < 2 ^ w ∧ 2 * q.toNat + (if n.toNat ≤ 2 * r.toNat then 1 else 0) < 2 ^ w

/-- No quotient or remainder overflows in an iteration from this state. -/
def NoOverflow (ad anc : BitVec w) (s : Search w) : Prop :=
  Fits anc s.q1 s.r1 ∧ Fits ad s.q2 s.r2

/-- The loop ends within as many iterations as the word has bits, without an overflow. -/
def LoopEnds (d : BitVec w) : Prop :=
  (∃ last, search (absolute d) (critical d) w (startSearch (absolute d) (critical d)) = some last ∧
    last.q2.toNat + 1 < 2 ^ w) ∧
  ∀ v ∈ visited (absolute d) (critical d) w (startSearch (absolute d) (critical d)),
    NoOverflow (absolute d) (critical d) v

theorem double_toNat {x : BitVec w} (wide : 2 < 2 ^ w) (fits : 2 * x.toNat < 2 ^ w) :
    (2 * x).toNat = 2 * x.toNat := by
  simp [toNat_mul, Nat.mod_eq_of_lt wide, Nat.mod_eq_of_lt fits]

theorem doubled_toNat {n q r : BitVec w} (wide : 2 < 2 ^ w) (fits : Fits n q r) :
    (doubled n q r).1.toNat = 2 * q.toNat + (if n.toNat ≤ 2 * r.toNat then 1 else 0) ∧
      (doubled n q r).2.toNat = 2 * r.toNat - (if n.toNat ≤ 2 * r.toNat then n.toNat else 0) := by
  obtain ⟨remainder, quotient⟩ := fits
  have twiceR := double_toNat wide remainder
  have twiceQ : (2 * q).toNat = 2 * q.toNat := by
    apply double_toNat wide
    omega
  by_cases carries : n.toNat ≤ 2 * r.toNat
  · have carry : 2 * r ≥ n := by
      rw [ge_iff_le, le_def, twiceR]
      exact carries
    rw [if_pos carries] at quotient
    simp only [doubled, if_pos carry, if_pos carries]
    constructor
    · have one : (1 : BitVec w).toNat = 1 := by
        simp only [ofNat_eq_ofNat, toNat_ofNat]
        exact Nat.mod_eq_of_lt (by omega)
      rw [toNat_add, twiceQ, one, Nat.mod_eq_of_lt quotient]
    · rw [toNat_sub_of_le carry, twiceR]
  · have fewer : ¬2 * r ≥ n := by
      rw [ge_iff_le, le_def, twiceR]
      exact carries
    simp only [doubled, if_neg fewer, if_neg carries]
    exact ⟨twiceQ, twiceR⟩

/-- The variables of the loop are the quotients and remainders that their comments name. -/
structure Exact (k d : Nat) (s : Search (k + 1)) : Prop where
  q1 : s.q1.toNat = 2 ^ s.p / InvariantDivision.critical k d
  r1 : s.r1.toNat = 2 ^ s.p % InvariantDivision.critical k d
  q2 : s.q2.toNat = 2 ^ s.p / d
  r2 : s.r2.toNat = 2 ^ s.p % d

section Iterations

variable {ad anc : BitVec (k + 1)} {s : Search (k + 1)}

theorem doubled_exact {n q r : BitVec (k + 1)} {p : Nat} (positive : 0 < n.toNat)
    (small : n.toNat ≤ 2 ^ k) (quotient : q.toNat = 2 ^ p / n.toNat)
    (remainder : r.toNat = 2 ^ p % n.toNat) (fits : 2 ^ (p + 1) / n.toNat < 2 ^ (k + 1))
    (wide : 2 < 2 ^ (k + 1)) :
    Fits n q r ∧ (doubled n q r).1.toNat = 2 ^ (p + 1) / n.toNat ∧
      (doubled n q r).2.toNat = 2 ^ (p + 1) % n.toNat := by
  have doubles := div_mod_double (a := 2 ^ p) positive
  rw [← pow_succ', ← quotient, ← remainder] at doubles
  have both : Fits n q r := by
    constructor
    · have := Nat.mod_lt (2 ^ p) positive
      omega
    · rw [← doubles.1]
      exact fits
  obtain ⟨newQuotient, newRemainder⟩ := doubled_toNat wide both
  exact ⟨both, newQuotient.trans doubles.1.symm, newRemainder.trans doubles.2.symm⟩

theorem goesOn_iff (divisor : Divisor k d) (divides : ad.toNat = d) (exact : Exact k d s) :
    goesOn ad s = true ↔ TooSmall k d s.p := by
  have rest := Nat.mod_lt (2 ^ s.p) divisor.positive
  have delta : (ad - s.r2).toNat = excess d s.p := by
    have le : s.r2 ≤ ad := by
      rw [le_def, exact.r2, divides]
      exact le_of_lt rest
    rw [toNat_sub_of_le le, exact.r2, divides]
    rfl
  rw [tooSmall_iff divisor, goesOn, Bool.or_eq_true, Bool.and_eq_true, decide_eq_true_iff,
    beq_iff_eq, beq_iff_eq, lt_def, ← toNat_inj, ← toNat_inj (x := s.r1),
    delta, exact.q1, exact.r1]
  rfl

variable (divisor : Divisor k d) (divides : ad.toNat = d)
  (critical : anc.toNat = InvariantDivision.critical k d)

include divisor divides critical

theorem iterate_exact (exact : Exact k d s) (first : s.p = k ∨ TooSmall k d s.p) :
    NoOverflow ad anc s ∧ Exact k d (iterate ad anc s) := by
  obtain ⟨quotient1, quotient2⟩ := quotients_lt divisor first
  have below := divisor.critical_lt
  have two := divisor.two_lt
  have least := divisor.le_critical
  have range := divisor.small
  have wide : 2 < 2 ^ (k + 1) := by
    omega
  rw [← critical] at quotient1
  obtain ⟨fits1, q1, r1⟩ := doubled_exact (by omega) (by omega) (critical ▸ exact.q1)
    (critical ▸ exact.r1) quotient1 wide
  obtain ⟨fits2, q2, r2⟩ := doubled_exact (n := ad) (by omega) (by omega) (divides ▸ exact.q2)
    (divides ▸ exact.r2) (by rw [divides]; omega) wide
  exact ⟨⟨fits1, fits2⟩, critical ▸ q1, critical ▸ r1, divides ▸ q2, divides ▸ r2⟩

/-- From any exact state the loop ends with the first power that suits, without an overflow. -/
theorem search_spec (fuel : Nat) (exact : Exact k d s) (begun : k ≤ s.p)
    (first : s.p = k ∨ TooSmall k d s.p) (enough : 2 * k ≤ s.p + fuel) :
    (∃ last, search ad anc fuel s = some last ∧ Exact k d last ∧ k < last.p ∧
      ¬TooSmall k d last.p ∧ last.p ≤ 2 * k ∧ last.q2.toNat + 1 < 2 ^ (k + 1)) ∧
    ∀ v ∈ visited ad anc fuel s, NoOverflow ad anc v := by
  induction fuel generalizing s with
  | zero =>
    -- the power of a state from which the loop goes on is below `2 * k`
    have two := divisor.two_lt
    have range := divisor.small
    rcases first with start | small
    · rcases k with _ | k <;> omega
    · have := small.lt divisor
      omega
  | succ fuel ih =>
    obtain ⟨fits, next⟩ := iterate_exact divisor divides critical exact first
    have test := goesOn_iff divisor divides next
    have power : (iterate ad anc s).p = s.p + 1 := rfl
    rw [search, visited]
    split
    · rename_i more
      have small := test.mp more
      obtain ⟨ends, exactly⟩ := ih next (by omega) (.inr small) (by omega)
      exact ⟨ends, List.forall_mem_cons.mpr ⟨fits, exactly⟩⟩
    · rename_i stops
      refine ⟨⟨_, rfl, next, ?_, fun small => stops (test.mpr small), ?_, ?_⟩,
        List.forall_mem_cons.mpr ⟨fits, by simp⟩⟩
      · omega
      · rcases first with start | small
        · have two := divisor.two_lt
          have range := divisor.small
          rcases k with _ | k <;> omega
        · have := small.lt divisor
          omega
      · rw [next.q2, power]
        exact (quotients_lt divisor first).2

end Iterations

/-! ### The constants -/

theorem two_toNat : (two (k + 1)).toNat = 2 ^ k := by
  rw [two, toNat_twoPow, Nat.add_sub_cancel]
  exact Nat.mod_eq_of_lt (Nat.pow_lt_pow_succ (by decide))

theorem sub_div_mul_toNat (x n : BitVec w) : (x - x / n * n).toNat = x.toNat % n.toNat := by
  have parts := Nat.div_add_mod x.toNat n.toNat
  have product : (x / n * n).toNat = n.toNat * (x.toNat / n.toNat) := by
    rw [toNat_mul, toNat_udiv, mul_comm]
    apply Nat.mod_eq_of_lt
    omega
  have le : x / n * n ≤ x := by
    rw [le_def, product]
    omega
  rw [toNat_sub_of_le le, product]
  omega

section Constants

variable {divisor : BitVec (k + 1)} (formed : Divisor k divisor.toNat)

include formed

theorem toInt_of_divisor : divisor.toInt = divisor.toNat := by
  apply toInt_eq_toNat_of_msb
  rw [msb_eq_toNat, decide_eq_false_iff_not]
  exact not_le_of_gt formed.small

theorem absolute_eq : absolute divisor = divisor := by
  have positive := formed.positive
  have : (0 : BitVec (k + 1)).slt divisor = true := by
    rw [BitVec.slt, decide_eq_true_iff, toInt_of_divisor formed, ofNat_eq_ofNat, toInt_zero]
    omega
  rw [absolute, if_pos this]

theorem critical_toNat : (critical divisor).toNat = InvariantDivision.critical k divisor.toNat := by
  have small := formed.small
  have rest := Nat.mod_lt (2 ^ k) formed.positive
  have two := two_toNat (k := k)
  have sign : divisor >>> (k + 1 - 1) = 0#(k + 1) := by
    apply eq_of_toNat_eq
    rw [toNat_ushiftRight, Nat.shiftRight_eq_div_pow, Nat.add_sub_cancel, Nat.div_eq_of_lt small]
    rfl
  have one : (1 : BitVec (k + 1)).toNat = 1 := by
    simp [Nat.mod_eq_of_lt (Nat.one_lt_two_pow (Nat.succ_ne_zero k))]
  have positive : (1 : BitVec (k + 1)) ≤ MagicConstants.two (k + 1) := by
    rw [le_def, one, two]
    omega
  have predecessor : (MagicConstants.two (k + 1) - 1).toNat = 2 ^ k - 1 := by
    rw [toNat_sub_of_le positive, one, two]
  have remainder : MagicConstants.two (k + 1) % divisor ≤ MagicConstants.two (k + 1) - 1 := by
    rw [le_def, predecessor, toNat_umod, two]
    omega
  rw [critical, absolute_eq formed, sign, BitVec.add_zero, toNat_sub_of_le remainder,
    predecessor, toNat_umod, two]
  rfl

theorem startSearch_exact :
    Exact k divisor.toNat (startSearch (absolute divisor) (critical divisor)) := by
  have anc := critical_toNat formed
  rw [absolute_eq formed]
  constructor
  · show (two (k + 1) / critical divisor).toNat = _
    rw [toNat_udiv, two_toNat, anc]
    rfl
  · show (two (k + 1) - two (k + 1) / critical divisor * critical divisor).toNat = _
    rw [sub_div_mul_toNat, two_toNat, anc]
    rfl
  · show (two (k + 1) / divisor).toNat = _
    rw [toNat_udiv, two_toNat]
    rfl
  · show (two (k + 1) - two (k + 1) / divisor * divisor).toNat = _
    rw [sub_div_mul_toNat, two_toNat]
    rfl

/-- For a divisor that is not a power of two: the multiplier of a power that suits. -/
theorem magicDivideConstants_spec :
    LoopEnds divisor ∧ ∃ p, magicDivideConstants divisor =
        some (BitVec.ofNat (k + 1) (multiplier divisor.toNat p), p - (k + 1)) ∧
      k < p ∧ p ≤ 2 * k ∧ ¬TooSmall k divisor.toNat p ∧
      multiplier divisor.toNat p < 2 ^ (k + 1) := by
  have divides : (absolute divisor).toNat = divisor.toNat := by rw [absolute_eq formed]
  have started : (startSearch (absolute divisor) (critical divisor)).p = k := rfl
  obtain ⟨⟨last, found, exact, begun, suits, bounded, fits⟩, exactly⟩ :=
    search_spec formed divides (critical_toNat formed) (k + 1) (startSearch_exact formed)
      (le_refl k) (.inl started) (by omega)
  refine ⟨⟨⟨last, found, fits⟩, exactly⟩, last.p, ?_, begun, bounded, suits, ?_⟩
  · have two := formed.two_lt
    have large : ¬(divisor = 0 ∨ divisor = 1) := by
      rintro (rfl | rfl)
      · simp at two
      · have := Nat.mod_le 1 (2 ^ (k + 1))
        simp only [ofNat_eq_ofNat, toNat_ofNat] at two
        omega
    have positive : ¬divisor.slt 0 = true := by
      rw [BitVec.slt, decide_eq_true_iff, toInt_of_divisor formed, ofNat_eq_ofNat, toInt_zero]
      omega
    have magic : last.q2 + 1 = BitVec.ofNat (k + 1) (multiplier divisor.toNat last.p) := by
      apply eq_of_toNat_eq
      rw [toNat_ofNat, multiplier, ← exact.q2, toNat_add]
      simp
    rw [magicDivideConstants, if_neg large, found, Option.map_some]
    dsimp only
    rw [if_neg positive, magic]
  · rw [multiplier, ← exact.q2]
    exact fits

end Constants

end MagicConstants
