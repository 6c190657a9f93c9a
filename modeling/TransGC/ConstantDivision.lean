import TransGC.MagicConstants

/-!
# Division by a constant in the compiler

`transform_int_divide` and `transform_long_divide` replace a division by a constant by shifts or
a multiplication. The nodes are those of the Ideal graph, with the two's-complement meaning of
Java; what the compiler knows about a node is the range of its type. `phase->transform` only
looks for an equal node and is left out.
-/
namespace ConstantDivision
open InvariantDivision MagicConstants BitVec

/-! ### Nodes -/

/-- A `value` is any other expression, given by what it evaluates to. Shift counts are constants. -/
inductive Node : Nat → Type
  | value {w : Nat} (v : BitVec w) : Node w
  | con {w : Nat} (c : BitVec w) : Node w
  | and {w : Nat} (a b : Node w) : Node w
  | add {w : Nat} (a b : Node w) : Node w
  | sub {w : Nat} (a b : Node w) : Node w
  | mul {w : Nat} (a b : Node w) : Node w
  | mulHi {w : Nat} (a b : Node w) : Node w
  | rShift {w : Nat} (a : Node w) (count : Nat) : Node w
  | uRShift {w : Nat} (a : Node w) (count : Nat) : Node w
  | convI2L (a : Node 32) : Node 64
  | convL2I (a : Node 64) : Node 32

/-- The upper half of the product of two signed words. -/
def mulHigh {w : Nat} (a b : BitVec w) : BitVec w :=
  BitVec.ofInt w (a.toInt * b.toInt / 2 ^ w)

/-- A shift uses the low bits of its count only. -/
def Node.eval : {w : Nat} → Node w → BitVec w
  | _, .value v => v
  | _, .con c => c
  | _, .and a b => a.eval &&& b.eval
  | _, .add a b => a.eval + b.eval
  | _, .sub a b => a.eval - b.eval
  | _, .mul a b => a.eval * b.eval
  | _, .mulHi a b => mulHigh a.eval b.eval
  | w, .rShift a count => a.eval.sshiftRight (count % w)
  | w, .uRShift a count => a.eval >>> (count % w)
  | _, .convI2L a => a.eval.signExtend 64
  | _, .convL2I a => a.eval.setWidth 32

/-- The range of a `TypeInt` or `TypeLong`. -/
structure Range where
  lo : Int
  hi : Int
  deriving DecidableEq, Repr

/-- What the compiler knows: the width of a pointer, whether the machine has `MulHiL`, and the type
of every node, if it is an integer type. Types are correct. -/
structure PhaseGVN where
  bitsPerPointer : Nat
  hasMulHiL : Bool
  type : {w : Nat} → Node w → Option Range
  int_le_pointer : 32 ≤ bitsPerPointer
  correct : ∀ {w : Nat} (n : Node w) (range : Range), type n = some range →
    range.lo ≤ n.eval.toInt ∧ n.eval.toInt ≤ range.hi

variable {w : Nat}

/-- The value of a constant type. -/
def getCon (w : Nat) (range : Range) : Option (BitVec w) :=
  if range.lo = range.hi then some (BitVec.ofInt w range.lo) else none

/-! ### Powers of two -/

/-- `is_power_of_2` and `is_power_of_2_long`, in the type of their argument. -/
def isPowerOf2 (x : BitVec w) : Bool := x != 0 && x &&& (x - 1) == 0

/-- The loop of `log2_intptr` and `log2_long`; `p` becomes 0 after the last bit. -/
def log2Loop (x : BitVec w) : Nat → Int → BitVec w → Int
  | 0, i, _ => i
  | fuel + 1, i, p => if p ≠ 0 ∧ p ≤ x then log2Loop x fuel (i + 1) (p * 2) else i

def log2 (x : BitVec w) : Int := log2Loop x (w + 1) (-1) 1

/-- The constant mask of an `And` node, if there is one. -/
def andCon (phase : PhaseGVN) : Node w → Option (Node w × BitVec w)
  | .and x mask => ((phase.type mask).bind (getCon w)).map fun con => (x, con)
  | _ => none

/-- The node to shift, and whether it needs rounding. A mask that clears the low bits makes rounding
unnecessary and is dropped. The numbers are tested as words of `v` bits. -/
def shiftOperand (phase : PhaseGVN) (v : Nat) (noRounding : Range → Bool) (dividend : Node w)
    (d : BitVec w) : Node w × Bool :=
  if (phase.type dividend).any noRounding then (dividend, false)
  else
    match andCon phase dividend with
    | some (x, con) =>
      if con.slt 0 && isPowerOf2 ((-con).signExtend v) && d.sle (-con) then (x, false)
      else (dividend, true)
    | none => (dividend, true)

/-- Division by `d` or `-d`, a power of two. -/
def shiftDivide (phase : PhaseGVN) (v : Nat) (noRounding : Range → Bool) (dividend : Node w)
    (d : BitVec w) (dPos : Bool) : Node w :=
  let (operand, needsRounding) := shiftOperand phase v noRounding dividend d
  let l := (log2 ((d - 1).signExtend v) + 1).toNat
  let rounded :=
    if needsRounding then
      .add operand (.uRShift (.rShift operand (w - 1)) (w - l))
    else operand
  let q := .rShift rounded l
  if dPos then q else .sub (.con 0) q

/-! ### Multiplications -/

/-- The product is one too small for a negative dividend; the operands' order gives the sign. -/
def adjustQuotient (dividend mulHi : Node w) (dPos : Bool) : Node w :=
  let sign := .rShift dividend (w - 1)
  if dPos then .sub mulHi sign else .sub sign mulHi

/-- The multiplication for `int`, in `long` arithmetic. -/
def intMulHi (dividend : Node 32) (magic : BitVec 32) (shift : Nat) : Node 32 :=
  let product := .mul (.convI2L dividend) (.con (magic.signExtend 64))
  if magic.slt 0 then
    let high := .add dividend (.convL2I (.rShift product 32))
    if shift ≠ 0 then .rShift high shift else high
  else .convL2I (.rShift product (32 + shift))

/-- `long_by_long_mulhi`: one instruction, or four products of halves. -/
def longByLongMulhi (phase : PhaseGVN) (dividend : Node 64) (magic : BitVec 64) : Node 64 :=
  if phase.hasMulHiL then .mulHi dividend (.con magic)
  else
    let u0 := .and dividend (.con 0xFFFFFFFF)
    let u1 := .rShift dividend 32
    let v0 := .con (magic &&& 0xFFFFFFFF)
    let v1 := .con (magic.sshiftRight 32)
    let w0 := .mul u0 v0
    let t := .add (.mul u1 v0) (.uRShift w0 32)
    let w1 := .and t (.con 0xFFFFFFFF)
    let w2 := .rShift t 32
    let w1 := .add (.mul u0 v1) w1
    .add (.add (.mul u1 v1) w2) (.rShift w1 32)

def longMulHi (phase : PhaseGVN) (dividend : Node 64) (magic : BitVec 64) (shift : Nat) :
    Node 64 :=
  let high := longByLongMulhi phase dividend magic
  let high := if magic.slt 0 then .add dividend high else high
  if shift ≠ 0 then .rShift high shift else high

/-! ### The transformations -/

/-- The absolute value `d` of the divisor. -/
def magnitude (divisor : BitVec w) : BitVec w :=
  if (0 : BitVec w).sle divisor then divisor else -divisor

def transformIntDivide (phase : PhaseGVN) (dividend : Node 32) (divisor : BitVec 32) :
    Option (Node 32) :=
  let dPos := (0 : BitVec 32).sle divisor
  let d := magnitude divisor
  if d = 1 then if dPos then none else some (.sub (.con 0) dividend)
  else if isPowerOf2 (d.signExtend phase.bitsPerPointer) then
    some (shiftDivide phase phase.bitsPerPointer (fun range => range.lo ≥ 0) dividend d dPos)
  else
    (magicDivideConstants d).map fun (magic, shift) =>
      adjustQuotient dividend (intMulHi dividend magic shift) dPos

def transformLongDivide (phase : PhaseGVN) (dividend : Node 64) (divisor : BitVec 64) :
    Option (Node 64) :=
  let dPos := (0 : BitVec 64).sle divisor
  let d := magnitude divisor
  if d = 1 then if dPos then none else some (.sub (.con 0) dividend)
  else if isPowerOf2 d then
    some (shiftDivide phase 64 (fun range => range.lo > 0) dividend d dPos)
  else
    (magicDivideConstants d).map fun (magic, shift) =>
      adjustQuotient dividend (longMulHi phase dividend magic shift) dPos

/-! ### Powers of two as numbers -/

theorem isPowerOf2_iff (x : BitVec w) : isPowerOf2 x = true ↔ ∃ i, x.toNat = 2 ^ i := by
  by_cases zero : x = 0
  · subst zero
    constructor
    · intro power
      simp [isPowerOf2] at power
    · rintro ⟨i, same⟩
      have := Nat.pow_pos (a := 2) (n := i) (by decide)
      simp only [ofNat_eq_ofNat, toNat_zero] at same
      omega
  · have nonzero : x.toNat ≠ 0 := fun same => zero (eq_of_toNat_eq (by simpa using same))
    have one : (1 : BitVec w).toNat = 1 := by
      have := x.isLt
      simp only [ofNat_eq_ofNat, toNat_ofNat]
      exact Nat.mod_eq_of_lt (by omega)
    have least : (1 : BitVec w) ≤ x := by
      rw [le_def, one]
      omega
    rw [isPowerOf2, Bool.and_eq_true, bne_iff_ne, beq_iff_eq, ← toNat_inj, toNat_and,
      toNat_sub_of_le least, one]
    exact (and_iff_right zero).trans (Nat.and_sub_one_eq_zero_iff_isPowerOfTwo nonzero)

theorem toNat_of_nonneg {x : BitVec w} (positive : 0 ≤ x.toInt) : (x.toNat : Int) = x.toInt := by
  have := msb_eq_toInt (x := x)
  rw [decide_eq_false (by omega)] at this
  exact (toInt_eq_toNat_of_msb this).symm

/-- A word that is not negative keeps its value in a wider one. -/
theorem toNat_signExtend {x : BitVec w} {v : Nat} (wider : w ≤ v) (positive : 0 ≤ x.toInt) :
    (x.signExtend v).toNat = x.toNat := by
  have extended : (x.signExtend v).toInt = x.toInt := toInt_signExtend_of_le wider
  have := toNat_of_nonneg positive
  have := toNat_of_nonneg (x := x.signExtend v) (by omega)
  omega

variable {k : Nat}

theorem sle_zero_iff (x : BitVec w) : (0 : BitVec w).sle x = true ↔ 0 ≤ x.toInt := by
  rw [BitVec.sle, decide_eq_true_iff, ofNat_eq_ofNat, toInt_zero]

theorem magnitude_toInt {divisor : BitVec (k + 1)} (notMin : divisor ≠ intMin (k + 1)) :
    (magnitude divisor).toInt = divisor.toInt.natAbs := by
  unfold magnitude
  split
  · rename_i positive
    have := (sle_zero_iff divisor).mp positive
    omega
  · rename_i negative
    have := mt (sle_zero_iff divisor).mpr negative
    rw [toInt_neg_of_ne_intMin notMin]
    omega

theorem magnitude_toNat {divisor : BitVec (k + 1)} (notMin : divisor ≠ intMin (k + 1)) :
    (magnitude divisor).toNat = divisor.toInt.natAbs := by
  have value := magnitude_toInt notMin
  have := toNat_of_nonneg (x := magnitude divisor) (by omega)
  omega

/-! ### A compiler that knows constants only -/

def plainType : {w : Nat} → Node w → Option Range
  | _, .con c => some ⟨c.toInt, c.toInt⟩
  | w, _ => some ⟨-2 ^ (w - 1), 2 ^ (w - 1) - 1⟩

def plainPhase : PhaseGVN where
  bitsPerPointer := 64
  hasMulHiL := false
  type := plainType
  int_le_pointer := by decide
  correct := by
    intro w n range typed
    have lower := n.eval.le_toInt
    have upper := n.eval.toInt_lt
    cases n with
    | con c =>
      cases typed
      exact ⟨Int.le_refl _, Int.le_refl _⟩
    | _ =>
      cases typed
      exact ⟨lower, Int.le_sub_one_of_lt upper⟩

end ConstantDivision
