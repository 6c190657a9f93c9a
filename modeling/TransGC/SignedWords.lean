import Mathlib.Algebra.Order.Ring.Int
import Mathlib.Data.BitVec
import Mathlib.Tactic.Linarith
import Mathlib.Tactic.Positivity
import Mathlib.Tactic.Ring
import TransGC.WordSizes

/-!
# Two's-complement words as integers

Every operation on words is the one on integers, taken modulo the size of the word; the shifts are
divisions that round down, and the low half of a word is the remainder of such a division.
-/
namespace SignedWords
open BitVec

variable {w v : Nat}

theorem ofInt_sub (a b : Int) : BitVec.ofInt w (a - b) = BitVec.ofInt w a - BitVec.ofInt w b := by
  rw [Int.sub_eq_add_neg, ofInt_add, ofInt_neg, sub_eq_add_neg]

theorem sdiv_eq_ofInt (x y : BitVec w) : x.sdiv y = BitVec.ofInt w (x.toInt.tdiv y.toInt) := by
  apply eq_of_toInt_eq
  rw [toInt_sdiv, toInt_ofInt]

theorem setWidth_eq_ofInt (x : BitVec w) (narrower : v ≤ w) :
    x.setWidth v = BitVec.ofInt v x.toInt := by
  apply eq_of_toInt_eq
  rw [toInt_setWidth, toInt_ofInt, toInt_eq_toNat_bmod]
  exact (Int.bmod_bmod_of_dvd (Nat.pow_dvd_pow 2 narrower)).symm

theorem toInt_sshiftRight_eq_div (x : BitVec w) (count : Nat) :
    (x.sshiftRight count).toInt = x.toInt / 2 ^ count := by
  rw [toInt_sshiftRight, Int.shiftRight_eq_div_pow]
  norm_cast

theorem sshiftRight_eq_ofInt (x : BitVec w) (count : Nat) :
    x.sshiftRight count = BitVec.ofInt w (x.toInt / 2 ^ count) := by
  rw [← toInt_sshiftRight_eq_div, ofInt_toInt]

/-- The numbers that a word of `k + 1` bits can hold. -/
def InRange (k : Nat) (n : Int) : Prop := -2 ^ k ≤ n ∧ n < 2 ^ k

theorem toInt_inRange {k : Nat} (x : BitVec (k + 1)) : InRange k x.toInt := ⟨x.le_toInt, x.toInt_lt⟩

theorem toInt_ofInt_of_inRange {k : Nat} {n : Int} (inRange : InRange k n) :
    (BitVec.ofInt (k + 1) n).toInt = n :=
  toInt_ofInt_eq_self (Nat.succ_pos k) inRange.1 inRange.2

theorem sign_eq {k : Nat} (x : BitVec (k + 1)) :
    x.sshiftRight k = BitVec.ofInt (k + 1) (if x.toInt < 0 then -1 else 0) := by
  obtain ⟨lower, upper⟩ := toInt_inRange x
  have unit : (0 : Int) < 2 ^ k := by positivity
  rw [sshiftRight_eq_ofInt]
  congr 1
  split
  · apply Int.le_antisymm
    · apply Int.le_of_lt_add_one
      apply Int.ediv_lt_of_lt_mul unit
      omega
    · apply Int.le_ediv_of_mul_le unit
      omega
  · exact Int.ediv_eq_zero_of_lt (by omega) upper

theorem toInt_emod (x : BitVec w) {n : Nat} (fits : n ≤ w) :
    x.toInt % 2 ^ n = (x.toNat % 2 ^ n : Nat) := by
  have divides : ((2 ^ n : Nat) : Int) ∣ ((2 ^ w : Nat) : Int) :=
    Int.natCast_dvd_natCast.mpr (Nat.pow_dvd_pow 2 fits)
  calc x.toInt % 2 ^ n = x.toInt % ((2 ^ w : Nat) : Int) % ((2 ^ n : Nat) : Int) := by
        rw [Int.emod_emod_of_dvd _ divides]
        norm_cast
    _ = (x.toNat : Int) % ((2 ^ n : Nat) : Int) := by
        rw [toInt_eq_toNat_bmod, Int.bmod_emod, Int.emod_emod_of_dvd _ divides]
    _ = (x.toNat % 2 ^ n : Nat) := rfl

theorem inRange_of_le {k n : Nat} {m : Int} (small : n ≤ k) (lower : 0 ≤ m) (upper : m < 2 ^ n) :
    InRange k m := by
  have : (2 : Int) ^ n ≤ 2 ^ k := by
    have := Nat.pow_le_pow_right (n := 2) (by decide) small
    exact_mod_cast this
  have : (0 : Int) < 2 ^ k := by positivity
  constructor <;> omega

theorem toInt_and_mask {k n : Nat} (x : BitVec (k + 1)) (small : n ≤ k) :
    (x &&& (twoPow (k + 1) n - 1)).toInt = x.toInt % 2 ^ n := by
  have kept : (x &&& (twoPow (k + 1) n - 1)).toNat = x.toNat % 2 ^ n := by
    rw [toNat_and, WordSizes.toNat_mask (Nat.lt_succ_of_le small), Nat.and_two_pow_sub_one_eq_mod]
  have unit : (0 : Int) < 2 ^ n := by positivity
  have inRange : InRange k (x.toInt % 2 ^ n) :=
    inRange_of_le small (Int.emod_nonneg _ (Int.ne_of_gt unit)) (Int.emod_lt_of_pos _ unit)
  rw [toInt_emod x (Nat.le_succ_of_le small)] at inRange ⊢
  rw [← kept] at inRange ⊢
  have word : x &&& (twoPow (k + 1) n - 1) =
      BitVec.ofInt (k + 1) ((x &&& (twoPow (k + 1) n - 1)).toNat) := by
    rw [ofInt_natCast, ofNat_toNat, setWidth_eq]
  rw [word, toInt_ofInt_of_inRange inRange, ← word]

/-- A mask of high bits rounds down. -/
theorem toInt_and_neg {k n : Nat} (x : BitVec (k + 1)) (small : n ≤ k) :
    (x &&& -twoPow (k + 1) n).toInt = x.toInt / 2 ^ n * 2 ^ n := by
  have unit : (0 : Int) < 2 ^ n := by positivity
  have parts := Int.ediv_mul_add_emod x.toInt (2 ^ n)
  have split := WordSizes.toNat_clear_add_keep x (twoPow (k + 1) n - 1)
  have mask : ~~~(twoPow (k + 1) n - 1) = -twoPow (k + 1) n := by
    exact (congrArg (~~~·) (not_neg _)).symm.trans not_not
  rw [mask] at split
  have word : x &&& -twoPow (k + 1) n = x - (x &&& (twoPow (k + 1) n - 1)) := by
    apply eq_sub_iff_add_eq.mpr
    apply eq_of_toNat_eq
    rw [toNat_add, split, Nat.mod_eq_of_lt x.isLt]
  have inRange : InRange k (x.toInt / 2 ^ n * 2 ^ n) := by
    obtain ⟨lower, upper⟩ := toInt_inRange x
    have powers : (2 : Int) ^ k = 2 ^ (k - n) * 2 ^ n := by
      rw [← pow_add, Nat.sub_add_cancel small]
    constructor
    · rw [powers, ← Int.neg_mul]
      apply Int.mul_le_mul_of_nonneg_right _ (le_of_lt unit)
      apply Int.le_ediv_of_mul_le unit
      rw [Int.neg_mul, ← powers]
      exact lower
    · omega
  have whole : x - (x &&& (twoPow (k + 1) n - 1)) =
      BitVec.ofInt (k + 1) (x.toInt / 2 ^ n * 2 ^ n) := by
    have : x.toInt / 2 ^ n * 2 ^ n = x.toInt - x.toInt % 2 ^ n := by omega
    rw [this, ofInt_sub, ofInt_toInt, ← toInt_and_mask x small, ofInt_toInt]
  rw [word, whole, toInt_ofInt_of_inRange inRange]

/-! ### Products -/

/-- From the products of the halves: `u1`, with the sign, and `u0`; `v1` and `v0`. -/
theorem high_of_halves {base u v : Int} (positive : 0 < base) :
    let u0 := u % base
    let u1 := u / base
    let v0 := v % base
    let v1 := v / base
    let t := u1 * v0 + u0 * v0 / base
    u1 * v1 + t / base + (u0 * v1 + t % base) / base = u * v / (base * base) := by
  intro u0 u1 v0 v1 t
  have splitU : u = u1 * base + u0 := (Int.ediv_mul_add_emod u base).symm
  have splitV : v = v1 * base + v0 := (Int.ediv_mul_add_emod v base).symm
  have splitT : t = t / base * base + t % base := (Int.ediv_mul_add_emod t base).symm
  have nonzero := Int.ne_of_gt positive
  rw [← Int.ediv_ediv_of_nonneg (le_of_lt positive)]
  have first : u * v / base = u1 * v1 * base + u0 * v1 + t := by
    have : u * v = u0 * v0 + (u1 * v1 * base + u0 * v1 + u1 * v0) * base := by
      rw [splitU, splitV]
      ring
    rw [this, Int.add_mul_ediv_right _ _ nonzero]
    ring
  have second : u1 * v1 * base + u0 * v1 + t =
      (u0 * v1 + t % base) + (u1 * v1 + t / base) * base := by
    calc u1 * v1 * base + u0 * v1 + t = u1 * v1 * base + u0 * v1 + (t / base * base + t % base) := by
          rw [← splitT]
      _ = (u0 * v1 + t % base) + (u1 * v1 + t / base) * base := by ring
  rw [first, second, Int.add_mul_ediv_right _ _ nonzero]
  ring

end SignedWords
