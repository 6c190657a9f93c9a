import TransGC.ConstantDivision
import TransGC.SignedWords

/-!
# Division by multiplication gives the quotient

For a divisor whose absolute value is not a power of two the node that the compiler builds has
the value of the quotient in Java. A multiplier that needs all bits of an unsigned word is
negative as a signed one; the dividend is then added to the upper half of the product.
-/
namespace MagicDivision
open InvariantDivision MagicConstants ConstantDivision SignedWords BitVec

variable {k M : Nat}

theorem magic_toInt (small : M < 2 ^ (k + 1)) :
    (BitVec.ofNat (k + 1) M).toInt = if M < 2 ^ k then (M : Int) else M - 2 ^ (k + 1) := by
  rw [toInt_eq_toNat_cond, toNat_ofNat, Nat.mod_eq_of_lt small]
  push_cast
  split <;> split <;> omega

theorem magic_slt_iff (small : M < 2 ^ (k + 1)) :
    (BitVec.ofNat (k + 1) M).slt 0 = true ↔ ¬M < 2 ^ k := by
  rw [BitVec.slt, decide_eq_true_iff, magic_toInt small, ofNat_eq_ofNat, toInt_zero]
  split
  · omega
  · have : (M : Int) < (2 ^ (k + 1) : Nat) := by omega
    push_cast at this
    omega

theorem high_inRange {n : Int} (inRange : InRange k n) (small : M < 2 ^ (k + 1)) :
    InRange k (n * M / 2 ^ (k + 1)) := by
  obtain ⟨lower, upper⟩ := inRange
  have unit : (0 : Int) < 2 ^ (k + 1) := by positivity
  have half : (0 : Int) < 2 ^ k := by positivity
  constructor
  · apply Int.le_ediv_of_mul_le unit
    nlinarith
  · apply Int.ediv_lt_of_lt_mul unit
    nlinarith

theorem adjusted_high (x : BitVec (k + 1)) (small : M < 2 ^ (k + 1)) (high : BitVec (k + 1))
    (upper : high = BitVec.ofInt (k + 1)
      (x.toInt * (BitVec.ofNat (k + 1) M).toInt / 2 ^ (k + 1))) :
    (if (BitVec.ofNat (k + 1) M).slt 0 then x + high else high) =
      BitVec.ofInt (k + 1) (x.toInt * M / 2 ^ (k + 1)) := by
  have unit : (0 : Int) < 2 ^ (k + 1) := by positivity
  rw [magic_toInt small] at upper
  by_cases fits : M < 2 ^ k
  · rw [if_neg (fun negative => (magic_slt_iff small).mp negative fits), upper, if_pos fits]
  · rw [if_pos ((magic_slt_iff small).mpr fits), upper, if_neg fits]
    have moved : x.toInt * (M - 2 ^ (k + 1)) / 2 ^ (k + 1) =
        x.toInt * M / 2 ^ (k + 1) - x.toInt := by
      rw [Int.mul_sub, Int.sub_eq_add_neg, ← Int.neg_mul,
        Int.add_mul_ediv_right _ _ (Int.ne_of_gt unit), Int.sub_eq_add_neg]
    rw [moved, ofInt_sub, ofInt_toInt, BitVec.add_comm, BitVec.sub_add_cancel]

theorem shifted_high {x : BitVec (k + 1)} (small : M < 2 ^ (k + 1)) (shift : Nat) :
    (BitVec.ofInt (k + 1) (x.toInt * M / 2 ^ (k + 1))).sshiftRight shift =
      BitVec.ofInt (k + 1) (x.toInt * M / 2 ^ (k + 1 + shift)) := by
  rw [sshiftRight_eq_ofInt, toInt_ofInt_of_inRange (high_inRange (toInt_inRange x) small),
    Int.ediv_ediv_of_nonneg (by positivity), ← pow_add]

theorem shift_eval {w : Nat} (a : Node w) {shift : Nat} (small : shift < w) :
    (if shift ≠ 0 then Node.rShift a shift else a).eval = a.eval.sshiftRight shift := by
  split
  · rw [Node.eval, Nat.mod_eq_of_lt small]
  · rename_i zero
    rw [Decidable.not_not.mp zero, sshiftRight_zero]

/-! ### The product for `int` -/

theorem product_toInt (x m : BitVec 32) :
    (x.signExtend 64 * m.signExtend 64).toInt = x.toInt * m.toInt := by
  obtain ⟨lowerX, upperX⟩ := toInt_inRange x
  obtain ⟨lowerM, upperM⟩ := toInt_inRange m
  have bound : |x.toInt * m.toInt| ≤ 2 ^ 31 * 2 ^ 31 := by
    rw [abs_mul]
    exact mul_le_mul (abs_le.mpr ⟨lowerX, by omega⟩) (abs_le.mpr ⟨lowerM, by omega⟩)
      (abs_nonneg _) (by positivity)
  obtain ⟨lower, upper⟩ := abs_le.mp bound
  rw [toInt_mul, toInt_signExtend_of_le (by decide), toInt_signExtend_of_le (by decide)]
  exact Int.bmod_eq_of_le (by omega) (by omega)

theorem intMulHi_eval (dividend : Node 32) {p : Nat} (small : M < 2 ^ 32) (above : 32 ≤ p)
    (below : p ≤ 62) :
    (intMulHi dividend (BitVec.ofNat 32 M) (p - 32)).eval =
      BitVec.ofInt 32 (dividend.eval.toInt * M / 2 ^ p) := by
  have product := product_toInt dividend.eval (BitVec.ofNat 32 M)
  have power : 32 + (p - 32) = p := by omega
  unfold intMulHi
  split
  · rename_i negative
    have high := adjusted_high (k := 31) dividend.eval small _ rfl
    rw [if_pos negative] at high
    rw [shift_eval _ (by omega)]
    simp only [Node.eval, Nat.reduceMod]
    rw [setWidth_eq_ofInt _ (by decide), toInt_sshiftRight_eq_div, product, high,
      shifted_high (k := 31) small, power]
  · rename_i nonnegative
    have fits : M < 2 ^ 31 := by
      by_contra large
      exact nonnegative ((magic_slt_iff (k := 31) small).mpr large)
    have magic := magic_toInt (k := 31) small
    rw [if_pos fits] at magic
    simp only [Node.eval]
    rw [setWidth_eq_ofInt _ (by decide), toInt_sshiftRight_eq_div, product, magic, power,
      Nat.mod_eq_of_lt (by omega)]

/-! ### The product for `long` -/

theorem half_product_inRange {a b c : Int} (signed : InRange 31 a) (lowerB : 0 ≤ b)
    (upperB : b < 2 ^ 32) (lowerC : 0 ≤ c) (upperC : c < 2 ^ 32) : InRange 63 (a * b + c) := by
  obtain ⟨lowerA, upperA⟩ := signed
  constructor <;> nlinarith

theorem low_product {a b : Int} (lowerA : 0 ≤ a) (upperA : a < 2 ^ 32) (lowerB : 0 ≤ b)
    (upperB : b < 2 ^ 32) :
    (BitVec.ofInt 64 a * BitVec.ofInt 64 b) >>> 32 = BitVec.ofInt 64 (a * b / 2 ^ 32) := by
  obtain ⟨m, rfl⟩ := Int.eq_ofNat_of_zero_le lowerA
  obtain ⟨n, rfl⟩ := Int.eq_ofNat_of_zero_le lowerB
  have fits : m * n < 2 ^ 64 := by
    have : m * n < 2 ^ 32 * 2 ^ 32 := Nat.mul_lt_mul'' (by omega) (by omega)
    omega
  apply eq_of_toNat_eq
  rw [← ofInt_mul, toNat_ushiftRight, Nat.shiftRight_eq_div_pow]
  have : (m * n : Int) / 2 ^ 32 = (m * n / 2 ^ 32 : Nat) := by push_cast; rfl
  rw [this, ← Int.natCast_mul, ofInt_natCast, ofInt_natCast, toNat_ofNat,
    toNat_ofNat, Nat.mod_eq_of_lt fits, Nat.mod_eq_of_lt]
  omega

theorem high_half_inRange (x : BitVec 64) : InRange 31 (x.toInt / 2 ^ 32) := by
  obtain ⟨lower, upper⟩ := toInt_inRange x
  constructor <;> omega

/-- The four products of halves make up the upper half of the whole product. -/
theorem mulhs_eval (u v : BitVec 64) :
    let u0 := u &&& 0xFFFFFFFF
    let u1 := u.sshiftRight 32
    let v0 := v &&& 0xFFFFFFFF
    let v1 := v.sshiftRight 32
    let t := u1 * v0 + (u0 * v0) >>> 32
    u1 * v1 + t.sshiftRight 32 + (u0 * v1 + (t &&& 0xFFFFFFFF)).sshiftRight 32 =
      BitVec.ofInt 64 (u.toInt * v.toInt / 2 ^ 64) := by
  intro u0 u1 v0 v1 t
  have low : ∀ x : BitVec 64, x &&& 0xFFFFFFFF = BitVec.ofInt 64 (x.toInt % 2 ^ 32) := by
    intro x
    rw [← toInt_and_mask (k := 63) x (n := 32) (by decide), ofInt_toInt]
    rfl
  have restU := Int.emod_nonneg u.toInt (b := 2 ^ 32) (by decide)
  have boundU := Int.emod_lt_of_pos u.toInt (b := 2 ^ 32) (by decide)
  have restV := Int.emod_nonneg v.toInt (b := 2 ^ 32) (by decide)
  have boundV := Int.emod_lt_of_pos v.toInt (b := 2 ^ 32) (by decide)
  have lowU : u0 = BitVec.ofInt 64 (u.toInt % 2 ^ 32) := low u
  have lowV : v0 = BitVec.ofInt 64 (v.toInt % 2 ^ 32) := low v
  have highU : u1 = BitVec.ofInt 64 (u.toInt / 2 ^ 32) := sshiftRight_eq_ofInt u 32
  have highV : v1 = BitVec.ofInt 64 (v.toInt / 2 ^ 32) := sshiftRight_eq_ofInt v 32
  -- the middle sum is exact
  have middle : t = BitVec.ofInt 64 (u.toInt / 2 ^ 32 * (v.toInt % 2 ^ 32) +
      u.toInt % 2 ^ 32 * (v.toInt % 2 ^ 32) / 2 ^ 32) := by
    show u1 * v0 + (u0 * v0) >>> 32 = _
    rw [lowU, lowV, low_product restU boundU restV boundV, highU, ofInt_add, ofInt_mul]
  have carryLow : 0 ≤ u.toInt % 2 ^ 32 * (v.toInt % 2 ^ 32) / 2 ^ 32 :=
    Int.ediv_nonneg (Int.mul_nonneg restU restV) (by decide)
  have carryHigh : u.toInt % 2 ^ 32 * (v.toInt % 2 ^ 32) / 2 ^ 32 < 2 ^ 32 := by
    apply Int.ediv_lt_of_lt_mul (by decide)
    nlinarith
  have exactly := toInt_ofInt_of_inRange
    (half_product_inRange (high_half_inRange u) restV boundV carryLow carryHigh)
  generalize carried : u.toInt / 2 ^ 32 * (v.toInt % 2 ^ 32) +
    u.toInt % 2 ^ 32 * (v.toInt % 2 ^ 32) / 2 ^ 32 = T at middle exactly
  have restT := Int.emod_nonneg T (b := 2 ^ 32) (by decide)
  have boundT := Int.emod_lt_of_pos T (b := 2 ^ 32) (by decide)
  have lower : u0 * v1 + (t &&& 0xFFFFFFFF) =
      BitVec.ofInt 64 (v.toInt / 2 ^ 32 * (u.toInt % 2 ^ 32) + T % 2 ^ 32) := by
    rw [lowU, highV, low t, middle, exactly, ofInt_add, ofInt_mul, mul_comm]
  have lowerExactly := toInt_ofInt_of_inRange
    (half_product_inRange (high_half_inRange v) restU boundU restT boundT)
  have halves := high_of_halves (u := u.toInt) (v := v.toInt) (show (0 : Int) < 2 ^ 32 by decide)
  dsimp only at halves
  rw [carried] at halves
  rw [lower, middle, sshiftRight_eq_ofInt, sshiftRight_eq_ofInt, lowerExactly, exactly, highU,
    highV, ← ofInt_mul, ← ofInt_add, ← ofInt_add,
    mul_comm (v.toInt / 2 ^ 32), halves]
  rfl

theorem longByLongMulhi_eval (phase : PhaseGVN) (dividend : Node 64) (magic : BitVec 64) :
    (longByLongMulhi phase dividend magic).eval =
      BitVec.ofInt 64 (dividend.eval.toInt * magic.toInt / 2 ^ 64) := by
  unfold longByLongMulhi
  split
  · rfl
  · exact mulhs_eval dividend.eval magic

theorem longMulHi_eval (phase : PhaseGVN) (dividend : Node 64) {p : Nat} (small : M < 2 ^ 64)
    (above : 64 ≤ p) (below : p ≤ 126) :
    (longMulHi phase dividend (BitVec.ofNat 64 M) (p - 64)).eval =
      BitVec.ofInt 64 (dividend.eval.toInt * M / 2 ^ p) := by
  have power : 64 + (p - 64) = p := by omega
  have high := adjusted_high (k := 63) dividend.eval small _
    (longByLongMulhi_eval phase dividend (BitVec.ofNat 64 M))
  unfold longMulHi
  rw [shift_eval _ (by omega)]
  have adjusted : (if (BitVec.ofNat 64 M).slt 0 then
      Node.add dividend (longByLongMulhi phase dividend (BitVec.ofNat 64 M))
      else longByLongMulhi phase dividend (BitVec.ofNat 64 M)).eval =
        BitVec.ofInt 64 (dividend.eval.toInt * M / 2 ^ 64) := by
    rw [← high]
    split <;> rfl
  rw [adjusted, shifted_high (k := 63) small, power]

/-! ### The quotient -/

theorem adjustQuotient_eval {dividend mulHi : Node (k + 1)} {divisor : BitVec (k + 1)} {d : Nat}
    {high : Int} (evaluates : mulHi.eval = BitVec.ofInt (k + 1) high)
    (corrected : high - (if dividend.eval.toInt < 0 then -1 else 0) = dividend.eval.toInt.tdiv d)
    (absolute : d = divisor.toInt.natAbs) :
    (adjustQuotient dividend mulHi ((0 : BitVec (k + 1)).sle divisor)).eval =
      dividend.eval.sdiv divisor := by
  have sign : (Node.rShift dividend (k + 1 - 1)).eval =
      BitVec.ofInt (k + 1) (if dividend.eval.toInt < 0 then -1 else 0) := by
    rw [Node.eval, Nat.add_sub_cancel, Nat.mod_eq_of_lt (Nat.lt_succ_self k), sign_eq]
  unfold adjustQuotient
  rw [sdiv_eq_ofInt]
  split
  · rename_i positive
    have : (d : Int) = divisor.toInt := by
      have := (sle_zero_iff divisor).mp positive
      omega
    rw [Node.eval, evaluates, sign, ← ofInt_sub, corrected, this]
  · rename_i negative
    have : divisor.toInt = -d := by
      have := mt (sle_zero_iff divisor).mpr negative
      omega
    rw [Node.eval, evaluates, sign, ← ofInt_sub, this, Int.tdiv_neg, ← corrected, Int.neg_sub]

theorem divisor_of_magnitude {divisor : BitVec (k + 1)} (notMin : divisor ≠ intMin (k + 1))
    (nonzero : divisor ≠ 0) (notPower : ∀ i : Nat, divisor.toInt.natAbs ≠ 2 ^ i) :
    Divisor k (magnitude divisor).toNat := by
  have value := magnitude_toInt notMin
  have upper := (toInt_inRange (magnitude divisor)).2
  rw [magnitude_toNat notMin]
  refine ⟨?_, ?_, notPower⟩
  · have : divisor.toInt ≠ 0 := fun zero => nonzero (eq_of_toInt_eq (by simpa using zero))
    omega
  · rw [value] at upper
    exact_mod_cast upper

/-- The quotient by a multiplication, for any way to compute the upper half of the product. -/
theorem magic_quotient {divisor : BitVec (k + 1)} (notMin : divisor ≠ intMin (k + 1))
    (nonzero : divisor ≠ 0) (notPower : ∀ i : Nat, divisor.toInt.natAbs ≠ 2 ^ i)
    (dividend : Node (k + 1)) (mulHi : BitVec (k + 1) → Nat → Node (k + 1))
    (evaluates : ∀ {M p : Nat}, M < 2 ^ (k + 1) → k + 1 ≤ p → p ≤ 2 * k →
      (mulHi (BitVec.ofNat (k + 1) M) (p - (k + 1))).eval =
        BitVec.ofInt (k + 1) (dividend.eval.toInt * M / 2 ^ p)) :
    LoopEnds (magnitude divisor) ∧
      ∃ q, (magicDivideConstants (magnitude divisor)).map (fun (magic, shift) =>
          adjustQuotient dividend (mulHi magic shift) ((0 : BitVec (k + 1)).sle divisor)) = some q ∧
        q.eval = dividend.eval.sdiv divisor := by
  have formed := divisor_of_magnitude notMin nonzero notPower
  obtain ⟨ends, p, found, above, below, suits, small⟩ := magicDivideConstants_spec formed
  refine ⟨ends, _, by rw [found, Option.map_some], ?_⟩
  obtain ⟨lower, upper⟩ := toInt_inRange dividend.eval
  exact adjustQuotient_eval (evaluates small above below)
    (corrected_quotient formed suits (Nat.le_of_lt above) lower upper) (magnitude_toNat notMin)

theorem not_powerOf2 {divisor : BitVec (k + 1)} (notMin : divisor ≠ intMin (k + 1))
    (notPower : ∀ i : Nat, divisor.toInt.natAbs ≠ 2 ^ i) {v : Nat} (wider : k + 1 ≤ v) :
    magnitude divisor ≠ 1 ∧ ¬isPowerOf2 ((magnitude divisor).signExtend v) = true := by
  have value := magnitude_toInt notMin
  have number := magnitude_toNat notMin
  constructor
  · intro one
    apply notPower 0
    rw [← number, one]
    exact Nat.mod_eq_of_lt (Nat.one_lt_two_pow (Nat.succ_ne_zero k))
  · intro power
    obtain ⟨i, same⟩ := (isPowerOf2_iff _).mp power
    rw [toNat_signExtend wider (by omega), number] at same
    exact notPower i same

/-- For every divisor other than the least number whose absolute value is not a power of two, the
loop ends without an overflow, and the node has the value of the quotient. -/
theorem division_by_magic_multiplication (phase : PhaseGVN) :
    (∀ (dividend : Node 32) (divisor : BitVec 32), divisor ≠ intMin 32 → divisor ≠ 0 →
      (∀ i : Nat, divisor.toInt.natAbs ≠ 2 ^ i) →
      LoopEnds (magnitude divisor) ∧ ∃ q, transformIntDivide phase dividend divisor = some q ∧
        q.eval = dividend.eval.sdiv divisor) ∧
    ∀ (dividend : Node 64) (divisor : BitVec 64), divisor ≠ intMin 64 → divisor ≠ 0 →
      (∀ i : Nat, divisor.toInt.natAbs ≠ 2 ^ i) →
      LoopEnds (magnitude divisor) ∧ ∃ q, transformLongDivide phase dividend divisor = some q ∧
        q.eval = dividend.eval.sdiv divisor := by
  constructor
  · intro dividend divisor notMin nonzero notPower
    obtain ⟨notOne, notShift⟩ := not_powerOf2 (k := 31) notMin notPower phase.int_le_pointer
    unfold transformIntDivide
    rw [if_neg notOne, if_neg notShift]
    apply magic_quotient (k := 31) notMin nonzero notPower
    intro M p small above below
    exact intMulHi_eval dividend small above below
  · intro dividend divisor notMin nonzero notPower
    obtain ⟨notOne, notShift⟩ := not_powerOf2 (k := 63) notMin notPower (Nat.le_refl 64)
    rw [signExtend_eq] at notShift
    unfold transformLongDivide
    rw [if_neg notOne, if_neg notShift]
    apply magic_quotient (k := 63) notMin nonzero notPower
    intro M p small above below
    exact longMulHi_eval phase dividend small above below

theorem minus_hundred_by_seven :
    (∃ q, transformIntDivide plainPhase (.value (-100)) 7 = some q ∧ q.eval = -14) ∧
      ∃ q, transformLongDivide plainPhase (.value (-100)) 7 = some q ∧ q.eval = -14 := by
  have notPower : ∀ i : Nat, 7 ≠ 2 ^ i := by
    intro i same
    rcases i with _ | _ | _ | i
    · cases same
    · cases same
    · cases same
    · rw [pow_succ, pow_succ, pow_succ] at same
      omega
  obtain ⟨int, long⟩ := division_by_magic_multiplication plainPhase
  exact ⟨(int (.value (-100)) 7 (by decide) (by decide) notPower).2,
    (long (.value (-100)) 7 (by decide) (by decide) notPower).2⟩

end MagicDivision
