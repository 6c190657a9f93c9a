import TransGC.IdealGraph
import TransGC.ShiftDivision

/-!
# Multiplication by a constant in the compiler

`MulINode::Ideal` and `MulLNode::Ideal` replace a multiplication by a constant with one or two
bits set, or one less than a power of two, by shifts, an addition or a subtraction; a negative
constant is negated first. The helpers take words as wide as a pointer, so the lowest bit of the
minimum value is sign-extended before its logarithm is taken.
-/
namespace ConstantMultiplication
open ConstantDivision IdealGraph ShiftDivision SignedWords BitVec

variable {w : Nat}

/-- A shift by the logarithm of `bit`, taken of a word of `v` bits. -/
def shiftBy (v : Nat) (x : Expr w) (bit : BitVec w) : Expr w :=
  .lShift x (.con (BitVec.ofInt 32 (log2 (bit.signExtend v))))

/-- The product of `x` and the absolute value of the constant. -/
def mulMagnitude (v : Nat) (x : Expr w) (con : BitVec w) : Option (Expr w) :=
  let bit1 := con &&& -con
  if bit1 = con then some (shiftBy v x bit1)
  else
    let rest := con - bit1
    let bit2 := rest &&& -rest
    if bit2 + bit1 = con then some (.add (shiftBy v x bit2) (shiftBy v x bit1))
    else if isPowerOf2 ((con + 1).signExtend v) then some (.sub (shiftBy v x (con + 1)) x)
    else none

def mulConstant (v : Nat) (x : Expr w) (con : BitVec w) : Option (Expr w) :=
  if con = 0 then none
  else if con = 1 then none
  else if con.slt 0 then (mulMagnitude v x (-con)).map (.sub (.con 0))
  else mulMagnitude v x con

/-- The constant, if there is one, becomes the right operand. -/
def mulIdeal (phase : Compiler) (v : Nat) (in1 in2 : Expr w) : Option (Expr w) :=
  if phase.findCon in1 0 ≠ 0 then mulConstant v in2 (phase.findCon in1 0)
  else if phase.findCon in2 0 = 0 then none
  else mulConstant v in1 (phase.findCon in2 0)

def mulIIdeal (phase : Compiler) (in1 in2 : Expr 32) : Option (Expr 32) :=
  mulIdeal phase phase.bitsPerPointer in1 in2

def mulLIdeal (phase : Compiler) (in1 in2 : Expr 64) : Option (Expr 64) :=
  mulIdeal phase 64 in1 in2

/-! ### Single bits -/

/-- `x & -x` is the lowest bit of `x`. -/
theorem and_neg {x : BitVec w} (nonzero : x ≠ 0) : ∃ k < w, x &&& -x = twoPow w k := by
  have some : ∃ k, x.getLsbD k = true := by
    by_contra none
    apply nonzero
    apply eq_of_getLsbD_eq
    intro i _
    simpa using fun set => none ⟨i, set⟩
  classical
  have set := Nat.find_spec some
  have inside := lt_of_getLsbD set
  refine ⟨Nat.find some, inside, eq_of_getLsbD_eq fun i below => ?_⟩
  rw [getLsbD_and, getLsbD_neg, getLsbD_twoPow]
  rcases Nat.lt_trichotomy i (Nat.find some) with lower | rfl | higher
  · have clear := Nat.find_min some lower
    simp [Bool.eq_false_of_not_eq_true clear, ne_of_gt lower]
  · have lowest : ¬ ∃ j < Nat.find some, x.getLsbD j = true := by
      rintro ⟨j, lower, set⟩
      exact Nat.find_min some lower set
    rw [set, decide_eq_false lowest]
    simp [inside]
  · have carried : ∃ j < i, x.getLsbD j = true := ⟨_, higher, set⟩
    rw [decide_eq_true carried]
    simp [below, ne_of_lt higher]

variable {v k : Nat} {x n : Expr w} {con : BitVec w}

theorem toNat_signExtend_twoPow (small : k < w) (wider : w ≤ v) :
    ((BitVec.twoPow w k).signExtend v).toNat = 2 ^ k + if k + 1 = w then 2 ^ v - 2 ^ w else 0 := by
  have smaller : 2 ^ k < 2 ^ v := Nat.pow_lt_pow_right (by decide) (by omega)
  rw [BitVec.toNat_signExtend, BitVec.toNat_setWidth, BitVec.toNat_twoPow_of_lt small,
    Nat.mod_eq_of_lt smaller, msb_twoPow]
  simp [small]
  grind

/-- For the sign bit the logarithm is that of a word of `v` bits, the same position modulo `w`. -/
theorem shiftBy_eval (small : k < w) (divides : w ∣ v) (fits : 0 < v ∧ v < 2 ^ 32) (x : Expr w) :
    (shiftBy v x (twoPow w k)).eval = x.eval * twoPow w k := by
  have wider := Nat.le_of_dvd fits.1 divides
  have value := toNat_signExtend_twoPow small wider
  have wide : 2 ^ w ≤ 2 ^ v := Nat.pow_le_pow_right (by decide) wider
  have count : ∃ l < v, log2 ((twoPow w k).signExtend v) = l ∧ l % w = k := by
    by_cases sign : k + 1 = w
    · subst sign
      rw [if_pos rfl] at value
      refine ⟨v - 1, by omega, ?_, ?_⟩
      · rw [log2_eq (l := v) (by omega) (by omega) (le_refl v)]
        omega
      · obtain ⟨times, rfl⟩ := divides
        obtain ⟨m, rfl⟩ : ∃ m, times = m + 1 := Nat.exists_eq_succ_of_ne_zero (by grind)
        rw [Nat.mul_succ, Nat.add_succ_sub_one, Nat.mul_add_mod]
        exact Nat.mod_eq_of_lt small
    · rw [if_neg sign, add_zero] at value
      refine ⟨k, by omega, ?_, Nat.mod_eq_of_lt small⟩
      have positive := Nat.two_pow_pos k
      rw [log2_eq (l := k + 1) (by omega) (by omega) (by omega)]
      omega
  obtain ⟨l, below, logarithm, position⟩ := count
  have masked : l % 2 ^ 32 = l := Nat.mod_eq_of_lt (by omega)
  rw [shiftBy, Expr.eval, Expr.eval, logarithm, ofInt_natCast, toNat_ofNat, masked,
    position, mul_twoPow_eq_shiftLeft]

theorem twoPow_of_isPowerOf2 {bit : BitVec w} (wider : w ≤ v)
    (power : isPowerOf2 (bit.signExtend v) = true) : ∃ k < w, bit = twoPow w k := by
  obtain ⟨i, same⟩ := (isPowerOf2_iff _).mp power
  have narrow : bit = BitVec.ofNat w (2 ^ i) := by
    rw [← same, ofNat_toNat, setWidth_eq_ofInt _ wider, toInt_signExtend_of_le wider, ofInt_toInt]
  by_cases small : i < w
  · refine ⟨i, small, eq_of_toNat_eq ?_⟩
    rw [narrow, toNat_ofNat, toNat_twoPow]
  · exfalso
    have zero : bit = 0 := by
      apply eq_of_toNat_eq
      rw [narrow, toNat_ofNat]
      exact Nat.mod_eq_zero_of_dvd (Nat.pow_dvd_pow 2 (le_of_not_gt small))
    have positive := Nat.two_pow_pos i
    simp [zero, signExtend] at same
    omega

/-! ### The expressions -/

theorem mulMagnitude_eval (divides : w ∣ v) (fits : 0 < v ∧ v < 2 ^ 32) (nonzero : con ≠ 0)
    (built : mulMagnitude v x con = some n) : n.eval = x.eval * con := by
  have bit {c : BitVec w} (some : c ≠ 0) : (shiftBy v x (c &&& -c)).eval = x.eval * (c &&& -c) := by
    obtain ⟨k, small, same⟩ := and_neg some
    rw [same, shiftBy_eval small divides fits]
  unfold mulMagnitude at built
  dsimp only at built
  split at built
  · rename_i one
    cases built
    rw [bit nonzero, one]
  · rename_i more
    split at built
    · rename_i two
      cases built
      have left : con - (con &&& -con) ≠ 0 := fun none => more (sub_eq_zero.mp none).symm
      rw [Expr.eval, bit left, bit nonzero, ← mul_add, two]
    · split at built
      · rename_i power
        cases built
        obtain ⟨k, small, same⟩ := twoPow_of_isPowerOf2 (Nat.le_of_dvd fits.1 divides) power
        rw [Expr.eval, same, shiftBy_eval small divides fits, ← same]
        ring
      · cases built

theorem mulConstant_eval (divides : w ∣ v) (fits : 0 < v ∧ v < 2 ^ 32)
    (built : mulConstant v x con = some n) : n.eval = x.eval * con := by
  unfold mulConstant at built
  split at built
  · cases built
  · rename_i nonzero
    split at built
    · cases built
    · split at built
      · obtain ⟨m, positive, rfl⟩ := Option.map_eq_some_iff.mp built
        rw [Expr.eval, Expr.eval, mulMagnitude_eval divides fits (neg_ne_zero.mpr nonzero) positive]
        ring
      · exact mulMagnitude_eval divides fits nonzero built

theorem mulIdeal_eval {phase : Compiler} {in1 in2 : Expr w} (divides : w ∣ v)
    (fits : 0 < v ∧ v < 2 ^ 32) (built : mulIdeal phase v in1 in2 = some n) :
    n.eval = in1.eval * in2.eval := by
  unfold mulIdeal at built
  split at built
  · rename_i known
    rw [phase.eval_of_findCon rfl known, mulConstant_eval divides fits built, mul_comm]
  · split at built
    · cases built
    · rename_i known
      rw [phase.eval_of_findCon (n := in2) rfl known, mulConstant_eval divides fits built]

/-- Whatever the two multiplications are replaced by has the value of the wrapping product. -/
theorem multiplication_by_constant (phase : Compiler) :
    (∀ in1 in2 n : Expr 32, mulIIdeal phase in1 in2 = some n → n.eval = in1.eval * in2.eval) ∧
    (∀ in1 in2 n : Expr 64, mulLIdeal phase in1 in2 = some n → n.eval = in1.eval * in2.eval) := by
  constructor
  · intro in1 in2 n built
    rcases phase.pointer with narrow | wide
    · exact mulIdeal_eval ⟨1, narrow⟩ (by omega) built
    · exact mulIdeal_eval ⟨2, wide⟩ (by omega) built
  · intro in1 in2 n built
    exact mulIdeal_eval (dvd_refl 64) (by decide) built

theorem minimum_multiplied :
    ∃ n, mulIIdeal constants (.node (.value 3)) (.con (intMin 32)) = some n ∧
      n.eval = 3 * intMin 32 := by
  obtain ⟨n, built⟩ :
    ∃ n, mulIIdeal constants (.node (.value 3)) (.con (intMin 32)) = some n := ⟨_, rfl⟩
  exact ⟨n, built, (multiplication_by_constant constants).1 _ _ n built⟩

end ConstantMultiplication
