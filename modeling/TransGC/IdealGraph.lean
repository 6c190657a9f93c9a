import TransGC.ConstantDivision

/-!
# Expressions of the Ideal graph

The integer nodes that the `Ideal` functions of multiplication, remainder, `And` and the shifts
build, of the width of `int` or `long`, with the two's-complement meaning of Java. What
`transform_int_divide` and `transform_long_divide` build is a `node`.
-/
namespace IdealGraph
open ConstantDivision

inductive Expr : Nat → Type
  | node {w : Nat} (n : Node w) : Expr w
  | con {w : Nat} (c : BitVec w) : Expr w
  | add {w : Nat} (a b : Expr w) : Expr w
  | sub {w : Nat} (a b : Expr w) : Expr w
  | lShift {w : Nat} (a : Expr w) (count : Expr 32) : Expr w

/-- A shift uses the low bits of its count only. -/
def Expr.eval : {w : Nat} → Expr w → BitVec w
  | _, .node n => n.eval
  | _, .con c => c
  | _, .add a b => a.eval + b.eval
  | _, .sub a b => a.eval - b.eval
  | w, .lShift a count => a.eval <<< (count.eval.toNat % w)

/-- What the compiler knows: the width of a pointer, and the range of every node of an integer
type. -/
structure Compiler where
  bitsPerPointer : Nat
  type : {w : Nat} → Expr w → Option Range
  pointer : bitsPerPointer = 32 ∨ bitsPerPointer = 64
  correct : ∀ {w : Nat} (n : Expr w) (range : Range), type n = some range →
    range.lo ≤ n.eval.toInt ∧ n.eval.toInt ≤ range.hi

/-- `find_int_con` and `find_long_con`: the constant that a node is known to be. -/
def Compiler.findCon {w : Nat} (phase : Compiler) (n : Expr w) (valueIfUnknown : BitVec w) :
    BitVec w :=
  ((phase.type n).bind (getCon w)).getD valueIfUnknown

theorem Compiler.eval_of_findCon {w : Nat} {phase : Compiler} {n : Expr w} {other con : BitVec w}
    (found : phase.findCon n other = con) (known : con ≠ other) : n.eval = con := by
  unfold findCon at found
  cases constant : (phase.type n).bind (getCon w) with
  | none =>
    rw [constant] at found
    exact absurd found.symm known
  | some c =>
    rw [constant] at found
    obtain ⟨range, typed, same⟩ := Option.bind_eq_some_iff.mp constant
    obtain ⟨low, high⟩ := phase.correct n range typed
    unfold getCon at same
    split at same
    · cases same
      rw [← found, Option.getD_some, show range.lo = n.eval.toInt by omega, BitVec.ofInt_toInt]
    · cases same

def constantType : {w : Nat} → Expr w → Option Range
  | _, .con c => some ⟨c.toInt, c.toInt⟩
  | _, _ => none

/-- A compiler that knows constants only. -/
def constants : Compiler where
  bitsPerPointer := 64
  type := constantType
  pointer := .inr rfl
  correct := by
    intro w n range typed
    cases n <;> cases typed
    exact ⟨Int.le_refl _, Int.le_refl _⟩

end IdealGraph
