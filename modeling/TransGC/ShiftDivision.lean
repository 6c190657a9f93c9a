import TransGC.ConstantDivision
import TransGC.SignedWords

/-!
# Division by a power of two

A shift rounds down, so a dividend that may be negative is first increased by the divisor less one.
This is left out for a dividend that is not negative, and for `x & c` where the mask clears at
least the bits that are shifted out. In the last case the node that is shifted is `x`, not `x & c`:
the quotient is wrong exactly if `x` has a bit that the mask clears above those shifted out.
-/
namespace ShiftDivision
open ConstantDivision SignedWords BitVec Option Bool

variable {k l v : Nat}

/-! ### The amount of the shift -/

theorem log2Loop_eq {x : BitVec v} (upper : x.toNat < 2 ^ l) (lower : 2 ^ l ≤ 2 * x.toNat + 1)
    (fuel j : Nat) (p : BitVec v) (power : p.toNat = 2 ^ j % 2 ^ v) (begun : j ≤ l)
    (enough : l < j + fuel) : log2Loop x fuel (j - 1) p = l - 1 := by
  have bounded := x.isLt
  induction fuel generalizing j p with
  | zero => omega
  | succ fuel ih =>
    unfold log2Loop
    rcases Nat.lt_or_eq_of_le begun with more | rfl
    · have larger : 2 ^ (j + 1) ≤ 2 ^ l := Nat.pow_le_pow_right (by decide) more
      have plain : p.toNat = 2 ^ j := by rw [power, Nat.mod_eq_of_lt (by omega)]
      have nonzero : p ≠ 0 := by
        rintro rfl
        have positive := Nat.two_pow_pos j
        simp only [ofNat_eq_ofNat, toNat_zero] at plain
        omega
      rw [if_pos ⟨nonzero, by rw [le_def]; omega⟩]
      have next := ih (j + 1) (p * 2) ?_ more (by omega)
      · rw [← next]
        congr 1
        omega
      · rw [toNat_mul, power, pow_succ, ofNat_eq_ofNat, toNat_ofNat, ← Nat.mul_mod]
    · -- the loop stops at the first power beyond `x`, or when that power wraps to 0
      rw [if_neg]
      rintro ⟨nonzero, le⟩
      rw [le_def, power] at le
      have most : j ≤ v := by
        have : 2 ^ j < 2 ^ (v + 1) := by rw [pow_succ]; omega
        exact Nat.le_of_lt_succ ((Nat.pow_lt_pow_iff_right (by decide)).mp this)
      rcases Nat.lt_or_eq_of_le most with less | rfl
      · rw [Nat.mod_eq_of_lt (Nat.pow_lt_pow_right (by decide) less)] at le
        omega
      · exact nonzero (eq_of_toNat_eq (by simpa using power))

theorem log2_eq {x : BitVec v} (upper : x.toNat < 2 ^ l) (lower : 2 ^ l ≤ 2 * x.toNat + 1)
    (small : l ≤ v) : log2 x = l - 1 := by
  have one : (1 : BitVec v).toNat = 2 ^ 0 % 2 ^ v := by simp
  have := log2Loop_eq upper lower (v + 1) 0 1 one (Nat.zero_le l) (by omega)
  exact this

/-- A positive power of two as a divisor. -/
structure PowerDivisor (k l : Nat) (d : BitVec (k + 1)) : Prop where
  value : d.toInt = 2 ^ l
  positive : 0 < l

theorem PowerDivisor.small {d : BitVec (k + 1)} (formed : PowerDivisor k l d) : l < k := by
  have upper := (toInt_inRange d).2
  rw [formed.value] at upper
  exact (Nat.pow_lt_pow_iff_right (by decide : 1 < 2)).mp (by exact_mod_cast upper)

theorem PowerDivisor.shift {d : BitVec (k + 1)} (formed : PowerDivisor k l d)
    (wider : k + 1 ≤ v) : (log2 ((d - 1).signExtend v) + 1).toNat = l := by
  have small := formed.small
  have unit := Nat.one_le_two_pow (n := l)
  have predecessor : d - 1 = BitVec.ofInt (k + 1) (2 ^ l - 1) := by
    rw [ofInt_sub, ← formed.value, ofInt_toInt]
    rfl
  have range : InRange k (2 ^ l - 1) := by
    apply inRange_of_le (le_of_lt small)
    · have : (0 : Int) < 2 ^ l := by positivity
      omega
    · omega
  have exactly : (d - 1).toInt = 2 ^ l - 1 := by
    rw [predecessor, toInt_ofInt_of_inRange range]
  have nonneg : 0 ≤ (d - 1).toInt := by
    have : (0 : Int) < 2 ^ l := by positivity
    omega
  have number : ((d - 1).signExtend v).toNat + 1 = 2 ^ l := by
    rw [toNat_signExtend wider nonneg]
    have := toNat_of_nonneg nonneg
    have : (((d - 1).toNat + 1 : Nat) : Int) = (2 ^ l : Nat) := by
      push_cast
      omega
    exact_mod_cast this
  rw [log2_eq (l := l) (by omega) (by omega) (by omega)]
  omega

/-! ### Rounding -/

/-- The sign, shifted so that it covers the bits that the division shifts out. -/
theorem sign_shifted (small : l ≤ k + 1) (negative : Bool) :
    BitVec.ofInt (k + 1) (if negative then -1 else 0) >>> (k + 1 - l) =
      BitVec.ofInt (k + 1) (if negative then 2 ^ l - 1 else 0) := by
  cases negative with
  | false => simp
  | true =>
    have powers : 2 ^ (k + 1) = 2 ^ l * 2 ^ (k + 1 - l) := by
      rw [← Nat.pow_add, Nat.add_sub_cancel' small]
    have high := Nat.one_le_two_pow (n := l)
    have low := Nat.one_le_two_pow (n := k + 1 - l)
    have ones : 2 ^ (k + 1) - 1 = (2 ^ (k + 1 - l) - 1) + (2 ^ l - 1) * 2 ^ (k + 1 - l) := by
      rw [powers, Nat.sub_mul, Nat.one_mul]
      have := Nat.le_mul_of_pos_left (2 ^ (k + 1 - l)) high
      omega
    have allOnes : (BitVec.ofInt (k + 1) (-1)).toNat = 2 ^ (k + 1) - 1 := by
      rw [ofInt_neg, ← toNat_allOnes, ← neg_one_eq_allOnes]
      rfl
    have natural : (2 : Int) ^ l - 1 = (2 ^ l - 1 : Nat) := by
      push_cast [Nat.cast_sub high]
      rfl
    apply eq_of_toNat_eq
    rw [if_pos rfl, if_pos rfl, toNat_ushiftRight, allOnes, Nat.shiftRight_eq_div_pow, ones,
      Nat.add_mul_div_right _ _ low, Nat.div_eq_of_lt (by omega), natural, ofInt_natCast,
      toNat_ofNat, Nat.zero_add, Nat.mod_eq_of_lt]
    have := Nat.pow_le_pow_right (n := 2) (by decide) small
    omega

/-- The amount that rounding adds to a dividend. -/
def rounding (l : Nat) (n : Int) : Int := if n < 0 then 2 ^ l - 1 else 0

theorem rounding_inRange {n : Int} (inRange : InRange k n) (small : l ≤ k) :
    InRange k (n + rounding l n) := by
  obtain ⟨lower, upper⟩ := inRange
  have : (0 : Int) < 2 ^ l := by positivity
  have : (2 : Int) ^ l ≤ 2 ^ k := by
    have := Nat.pow_le_pow_right (n := 2) (by decide) small
    exact_mod_cast this
  unfold rounding
  constructor <;> split <;> omega

theorem rounded_quotient (l : Nat) (n : Int) : (n + rounding l n) / 2 ^ l = n.tdiv (2 ^ l) := by
  have unit : (0 : Int) < 2 ^ l := by positivity
  have parts := Int.ediv_mul_add_emod n (2 ^ l)
  rw [Int.tdiv_eq_ediv, rounding]
  split
  · rename_i negative
    by_cases divides : (2 : Int) ^ l ∣ n
    · rw [if_pos (.inr divides)]
      have whole : n + (2 ^ l - 1) = (2 ^ l - 1) + n / 2 ^ l * 2 ^ l := by omega
      rw [whole, Int.add_mul_ediv_right _ _ (Int.ne_of_gt unit),
        Int.ediv_eq_zero_of_lt (by omega) (by omega)]
      omega
    · have nonzero : n % 2 ^ l ≠ 0 := fun zero => divides (Int.dvd_of_emod_eq_zero zero)
      rw [if_neg (by simp [divides]; omega), Int.sign_eq_one_of_pos unit]
      have whole : n + (2 ^ l - 1) = (n % 2 ^ l - 1) + (n / 2 ^ l + 1) * 2 ^ l := by
        rw [Int.add_mul]
        omega
      rw [whole, Int.add_mul_ediv_right _ _ (Int.ne_of_gt unit),
        Int.ediv_eq_zero_of_lt (by omega) (by omega)]
      omega
  · rename_i nonneg
    rw [if_pos (.inl (by omega)), add_zero, add_zero]

theorem rounded_eval (operand : Node (k + 1)) (positive : 0 < l) (small : l ≤ k) :
    (Node.add operand (.uRShift (.rShift operand (k + 1 - 1)) (k + 1 - l))).eval =
      BitVec.ofInt (k + 1) (operand.eval.toInt + rounding l operand.eval.toInt) := by
  have sign := sign_eq operand.eval
  have shifted := sign_shifted (k := k) (l := l) (by omega) (decide (operand.eval.toInt < 0))
  simp only [decide_eq_true_eq] at shifted
  simp only [Node.eval, Nat.add_sub_cancel]
  rw [Nat.mod_eq_of_lt (Nat.lt_succ_self k), Nat.mod_eq_of_lt (by omega), sign, shifted,
    ofInt_add, ofInt_toInt]
  rfl

/-! ### The node that is shifted -/

section Operands

variable {phase : PhaseGVN} {noRounding : Range → Bool} {dividend : Node (k + 1)}
  {d : BitVec (k + 1)}

/-- The dividend is `x & con`, may be negative for all that the compiler knows, and the mask clears
the bits that are shifted out: `x` is shifted in its place. -/
structure DropsMask (phase : PhaseGVN) (v : Nat) (noRounding : Range → Bool)
    (dividend : Node (k + 1)) (d : BitVec (k + 1)) (x : Node (k + 1)) (con : BitVec (k + 1)) :
    Prop where
  maybeNegative : ¬(phase.type dividend).any noRounding = true
  masked : andCon phase dividend = some (x, con)
  clears : (con.slt 0 && isPowerOf2 ((-con).signExtend v) && d.sle (-con)) = true

/-- No bit that the mask clears reaches the quotient. -/
def NoBitsBetween (phase : PhaseGVN) (v : Nat) (noRounding : Range → Bool)
    (dividend : Node (k + 1)) (d : BitVec (k + 1)) : Prop :=
  ∀ x con, DropsMask phase v noRounding dividend d x con →
    x.eval.toInt % (-con).toInt < d.toInt

theorem shiftOperand_cases (phase : PhaseGVN) (v : Nat) (noRounding : Range → Bool)
    (dividend : Node (k + 1)) (d : BitVec (k + 1)) :
    ((phase.type dividend).any noRounding = true ∧
        shiftOperand phase v noRounding dividend d = (dividend, false)) ∨
      (∃ x con, DropsMask phase v noRounding dividend d x con ∧
        shiftOperand phase v noRounding dividend d = (x, false)) ∨
      ((∀ x con, ¬DropsMask phase v noRounding dividend d x con) ∧
        shiftOperand phase v noRounding dividend d = (dividend, true)) := by
  unfold shiftOperand
  split
  · rename_i known
    exact .inl ⟨known, rfl⟩
  · rename_i maybeNegative
    split
    · rename_i x con masked
      split
      · rename_i clears
        exact .inr (.inl ⟨x, con, ⟨maybeNegative, masked, clears⟩, rfl⟩)
      · rename_i keeps
        refine .inr (.inr ⟨fun y other drops => keeps ?_, rfl⟩)
        obtain ⟨-, rfl⟩ := Prod.mk.inj (some.inj (masked.symm.trans drops.masked))
        exact drops.clears
    · rename_i unmasked
      refine .inr (.inr ⟨fun x con drops => ?_, rfl⟩)
      rw [drops.masked] at unmasked
      cases unmasked

theorem andCon_eval {w : Nat} {dividend x : Node w} {con : BitVec w}
    (masked : andCon phase dividend = some (x, con)) : dividend.eval = x.eval &&& con := by
  unfold andCon at masked
  split at masked
  · rename_i y mask
    obtain ⟨constant, typed, same⟩ := map_eq_some_iff.mp masked
    obtain ⟨rfl, rfl⟩ := Prod.mk.inj same
    obtain ⟨range, found, isCon⟩ := bind_eq_some_iff.mp typed
    obtain ⟨lower, upper⟩ := phase.correct mask range found
    unfold getCon at isCon
    split at isCon
    · rename_i point
      obtain rfl := some.inj isCon
      have value : mask.eval.toInt = range.lo := by omega
      rw [← value, ofInt_toInt]
      rfl
    · cases isCon
  · cases masked

/-- The mask is the negative of a power of two that is at least the divisor. -/
theorem DropsMask.power {x : Node (k + 1)} {con : BitVec (k + 1)}
    (drops : DropsMask phase v noRounding dividend d x con) (formed : PowerDivisor k l d)
    (wider : k + 1 ≤ v) :
    ∃ j, l ≤ j ∧ j ≤ k ∧ (-con).toInt = 2 ^ j ∧
      dividend.eval.toInt = x.eval.toInt / 2 ^ j * 2 ^ j := by
  obtain ⟨both, atLeast⟩ := and_eq_true_iff.mp drops.clears
  obtain ⟨-, power⟩ := and_eq_true_iff.mp both
  have unit : (0 : Int) < 2 ^ l := by positivity
  have large : (2 : Int) ^ l ≤ (-con).toInt := by
    rw [← formed.value]
    exact sle_iff_toInt_le.mp atLeast
  have natural := toNat_of_nonneg (x := -con) (by omega)
  obtain ⟨j, same⟩ := (isPowerOf2_iff _).mp power
  rw [toNat_signExtend wider (by omega)] at same
  have value : (-con).toInt = 2 ^ j := by
    rw [← natural, same]
    rfl
  rw [value] at large
  have order : l ≤ j := (Nat.pow_le_pow_iff_right (by decide : 1 < 2)).mp (by exact_mod_cast large)
  have inside : j ≤ k := by
    have upper := (toInt_inRange (-con)).2
    rw [value] at upper
    exact le_of_lt ((Nat.pow_lt_pow_iff_right (by decide : 1 < 2)).mp (by exact_mod_cast upper))
  refine ⟨j, order, inside, value, ?_⟩
  have word : con = -twoPow (k + 1) j := by
    rw [← neg_eq_iff_eq_neg]
    apply eq_of_toNat_eq
    rw [same, WordSizes.toNat_twoPow_of_lt (Nat.lt_succ_of_le inside)]
  rw [andCon_eval drops.masked, word, toInt_and_neg _ inside]

/-- The quotient without the mask is right exactly if no bit between divisor and mask is set. -/
theorem masked_quotient_iff {j : Nat} (n : Int) (order : l ≤ j) :
    n / 2 ^ l = (n / 2 ^ j * 2 ^ j).tdiv (2 ^ l) ↔ n % 2 ^ j < 2 ^ l := by
  have unit : (0 : Int) < 2 ^ l := by positivity
  have top : (0 : Int) < 2 ^ j := by positivity
  have powers : (2 : Int) ^ j = 2 ^ (j - l) * 2 ^ l := by rw [← pow_add, Nat.sub_add_cancel order]
  have rest := Int.emod_nonneg n (Int.ne_of_gt top)
  have whole : n = n % 2 ^ j + n / 2 ^ j * 2 ^ (j - l) * 2 ^ l := by
    have parts := Int.ediv_mul_add_emod n (2 ^ j)
    rw [mul_assoc, ← powers]
    omega
  have shifted : n / 2 ^ l = n % 2 ^ j / 2 ^ l + n / 2 ^ j * 2 ^ (j - l) := by
    conv_lhs => rw [whole]
    rw [Int.add_mul_ediv_right _ _ (Int.ne_of_gt unit)]
  have right : (n / 2 ^ j * 2 ^ j).tdiv (2 ^ l) = n / 2 ^ j * 2 ^ (j - l) := by
    conv_lhs => rw [powers]
    rw [← mul_assoc, Int.mul_tdiv_cancel _ (Int.ne_of_gt unit), ← powers]
  rw [shifted, right]
  constructor
  · intro same
    by_contra large
    have := Int.le_ediv_of_mul_le unit (a := 1) (b := n % 2 ^ j) (by omega)
    omega
  · intro small
    rw [Int.ediv_eq_zero_of_lt rest small, zero_add]

end Operands

/-! ### The quotient -/

section Quotients

variable {phase : PhaseGVN} {noRounding : Range → Bool} {d : BitVec (k + 1)}

theorem shift_eval (formed : PowerDivisor k l d) (a : Node (k + 1)) :
    (Node.rShift a l).eval = BitVec.ofInt (k + 1) (a.eval.toInt / 2 ^ l) := by
  have := formed.small
  rw [Node.eval, Nat.mod_eq_of_lt (by omega), sshiftRight_eq_ofInt]

theorem quotient_inRange {n : Int} (inRange : InRange k n) (l : Nat) : InRange k (n / 2 ^ l) := by
  obtain ⟨lower, upper⟩ := inRange
  have unit : (0 : Int) < 2 ^ l := by positivity
  constructor
  · apply Int.le_ediv_of_mul_le (by omega)
    nlinarith
  · apply Int.ediv_lt_of_lt_mul (by omega)
    nlinarith

theorem tdiv_inRange {n : Int} (inRange : InRange k n) (l : Nat) (small : l ≤ k) :
    InRange k (n.tdiv (2 ^ l)) := by
  rw [← rounded_quotient]
  exact quotient_inRange (rounding_inRange inRange small) l

theorem shifted_quotient_iff (formed : PowerDivisor k l d) (wider : k + 1 ≤ v)
    (nonneg : ∀ range, noRounding range = true → 0 ≤ range.lo) (dividend : Node (k + 1)) :
    (shiftDivide phase v noRounding dividend d true).eval =
        BitVec.ofInt (k + 1) (dividend.eval.toInt.tdiv (2 ^ l)) ↔
      NoBitsBetween phase v noRounding dividend d := by
  have small := Nat.le_of_lt formed.small
  unfold shiftDivide
  rw [formed.shift wider]
  rcases shiftOperand_cases phase v noRounding dividend d with
    ⟨known, operand⟩ | ⟨x, con, drops, operand⟩ | ⟨keeps, operand⟩
  · -- a dividend that is not negative
    rw [operand]
    refine iff_of_true ?_ fun x con drops => absurd known drops.maybeNegative
    obtain ⟨range, typed, free⟩ :
        ∃ range, phase.type dividend = some range ∧ noRounding range = true := by
      cases typed : phase.type dividend with
      | none =>
        rw [typed] at known
        cases known
      | some range =>
        rw [typed] at known
        exact ⟨range, rfl, known⟩
    have lower := (phase.correct dividend range typed).1
    have := nonneg range free
    rw [Int.tdiv_eq_ediv_of_nonneg (by omega)]
    exact shift_eval formed dividend
  · -- a mask that is dropped
    rw [operand]
    obtain ⟨j, order, inside, mask, masked⟩ := drops.power formed wider
    have exactly := masked_quotient_iff x.eval.toInt order
    rw [← masked] at exactly
    have node : (if false = true then
        Node.add x (.uRShift (.rShift x (k + 1 - 1)) (k + 1 - l)) else x) = x := if_neg nofun
    dsimp only
    rw [if_pos rfl, node, shift_eval formed x]
    constructor
    · intro same y other droppedToo
      obtain ⟨rfl, rfl⟩ := Prod.mk.inj (Option.some.inj (drops.masked.symm.trans droppedToo.masked))
      rw [mask, formed.value]
      apply exactly.mp
      rw [← toInt_ofInt_of_inRange (quotient_inRange (toInt_inRange x.eval) l), same,
        toInt_ofInt_of_inRange (tdiv_inRange (toInt_inRange dividend.eval) l small)]
    · intro clear
      have := clear x con drops
      rw [mask, formed.value] at this
      rw [exactly.mpr this]
  · -- a rounded dividend
    rw [operand]
    refine iff_of_true ?_ fun x con drops => absurd drops (keeps x con)
    dsimp only
    rw [if_pos rfl, if_pos rfl, shift_eval formed, rounded_eval dividend formed.positive small,
      toInt_ofInt_of_inRange (rounding_inRange (toInt_inRange dividend.eval) small),
      rounded_quotient]

theorem shiftDivide_negative (dividend : Node (k + 1)) :
    (shiftDivide phase v noRounding dividend d false).eval =
      -(shiftDivide phase v noRounding dividend d true).eval :=
  zero_sub _

/-- For a power of two or the negative of one the node has the value of the quotient exactly if no
bit comes through a mask that was dropped. -/
theorem shiftDivide_eval_iff {divisor : BitVec (k + 1)}
    (notMin : divisor ≠ intMin (k + 1)) {i : Nat} (power : divisor.toInt.natAbs = 2 ^ i)
    (positive : 0 < i) (wider : k + 1 ≤ v)
    (nonneg : ∀ range, noRounding range = true → 0 ≤ range.lo) (dividend : Node (k + 1)) :
    (shiftDivide phase v noRounding dividend (magnitude divisor)
        ((0 : BitVec (k + 1)).sle divisor)).eval = dividend.eval.sdiv divisor ↔
      NoBitsBetween phase v noRounding dividend (magnitude divisor) := by
  have formed : PowerDivisor k i (magnitude divisor) := by
    refine ⟨?_, positive⟩
    rw [magnitude_toInt notMin, power]
    push_cast
    rfl
  rw [← shifted_quotient_iff formed wider nonneg, sdiv_eq_ofInt]
  have absolute : (divisor.toInt.natAbs : Int) = 2 ^ i := by
    rw [power]
    rfl
  by_cases sign : (0 : BitVec (k + 1)).sle divisor = true
  · have := (sle_zero_iff divisor).mp sign
    have value : divisor.toInt = 2 ^ i := by omega
    rw [sign, value]
  · have := mt (sle_zero_iff divisor).mpr sign
    have value : divisor.toInt = -2 ^ i := by omega
    rw [Bool.not_eq_true] at sign
    rw [sign, value, shiftDivide_negative, Int.tdiv_neg, ofInt_neg, BitVec.neg_inj]

end Quotients

theorem magnitude_power {divisor : BitVec (k + 1)} (notMin : divisor ≠ intMin (k + 1))
    {i : Nat} (power : divisor.toInt.natAbs = 2 ^ i) (positive : 0 < i) (wider : k + 1 ≤ v) :
    magnitude divisor ≠ 1 ∧ isPowerOf2 ((magnitude divisor).signExtend v) = true := by
  have value := magnitude_toInt notMin
  have number := magnitude_toNat notMin
  rw [power] at number
  constructor
  · intro one
    rw [one] at number
    have : 1 % 2 ^ (k + 1) = 2 ^ i := number
    have := Nat.mod_le 1 (2 ^ (k + 1))
    have := Nat.one_lt_two_pow (ne_of_gt positive)
    omega
  · apply (isPowerOf2_iff _).mpr
    refine ⟨i, ?_⟩
    rw [toNat_signExtend wider (by omega), number]

/-- Division by a power of two greater than one, or by the negative of one: the node has the
value of the quotient exactly if the dividend is not `x & c` for which `x` is shifted and has a
bit that is cleared by `c` and not shifted out. -/
theorem division_by_shift_iff (phase : PhaseGVN) :
    (∀ (dividend : Node 32) (divisor : BitVec 32) (i : Nat), divisor ≠ intMin 32 →
      0 < i → divisor.toInt.natAbs = 2 ^ i →
      ∃ q, transformIntDivide phase dividend divisor = some q ∧
        (q.eval = dividend.eval.sdiv divisor ↔ NoBitsBetween phase phase.bitsPerPointer
          (fun range => range.lo ≥ 0) dividend (magnitude divisor))) ∧
    ∀ (dividend : Node 64) (divisor : BitVec 64) (i : Nat), divisor ≠ intMin 64 →
      0 < i → divisor.toInt.natAbs = 2 ^ i →
      ∃ q, transformLongDivide phase dividend divisor = some q ∧
        (q.eval = dividend.eval.sdiv divisor ↔ NoBitsBetween phase 64
          (fun range => range.lo > 0) dividend (magnitude divisor)) := by
  constructor
  · intro dividend divisor i notMin positive power
    obtain ⟨notOne, shifts⟩ := magnitude_power (k := 31) notMin power positive phase.int_le_pointer
    unfold transformIntDivide
    rw [if_neg notOne, if_pos shifts]
    refine ⟨_, rfl, ?_⟩
    apply shiftDivide_eval_iff (k := 31) notMin power positive phase.int_le_pointer
    intro range free
    exact of_decide_eq_true free
  · intro dividend divisor i notMin positive power
    obtain ⟨notOne, shifts⟩ := magnitude_power (k := 63) notMin power positive (le_refl 64)
    rw [signExtend_eq] at shifts
    unfold transformLongDivide
    rw [if_neg notOne, if_pos shifts]
    refine ⟨_, rfl, ?_⟩
    apply shiftDivide_eval_iff (k := 63) notMin power positive (le_refl 64)
    intro range free
    exact le_of_lt (of_decide_eq_true free)

/-- `(5 & -8) / 4` is 0, but the node shifts 5 by two bits. -/
theorem masked_dividend_keeps_bit :
    (∃ q, transformIntDivide plainPhase (.and (.value 5) (.con (-8))) 4 = some q ∧
      q.eval = 1 ∧ (Node.and (.value 5) (.con (-8 : BitVec 32))).eval.sdiv 4 = 0) ∧
    ∃ q, transformLongDivide plainPhase (.and (.value 5) (.con (-8))) 4 = some q ∧
      q.eval = 1 ∧ (Node.and (.value 5) (.con (-8 : BitVec 64))).eval.sdiv 4 = 0 :=
  ⟨⟨_, rfl, by decide +kernel, by decide +kernel⟩, _, rfl, by decide +kernel, by decide +kernel⟩

/-- `(13 & -4) / 4` is 3: the mask clears just the bits that are shifted out. -/
theorem mask_of_divisor_shifts :
    (∃ q, transformIntDivide plainPhase (.and (.value 13) (.con (-4))) 4 = some q ∧ q.eval = 3) ∧
    ∃ q, transformLongDivide plainPhase (.and (.value 13) (.con (-4))) 4 = some q ∧ q.eval = 3 := by
  obtain ⟨int, long⟩ := division_by_shift_iff plainPhase
  obtain ⟨q, built, exact⟩ :=
    int (.and (.value 13) (.con (-4))) 4 2 (by decide) (by decide) (by decide)
  obtain ⟨r, built', exact'⟩ :=
    long (.and (.value 13) (.con (-4))) 4 2 (by decide) (by decide) (by decide)
  refine ⟨⟨q, built, exact.mpr fun x con drops => ?_⟩, r, built', exact'.mpr fun x con drops => ?_⟩
  · cases drops.masked
    decide
  · cases drops.masked
    decide

end ShiftDivision
