import Mathlib.Algebra.Order.Ring.Int

/-!
# Widening of integer types

`TypeInt` and `TypeLong` of the optimizing compiler: a range with a widening level. In a loop the
type of a variable is met with what flows in and widened against its old self. The level grows
with each change, and at the last level the ends are pushed to their limits.
-/
namespace IntegerTypes
open List

structure IntegerType where
  lo : Int
  hi : Int
  widen : Nat
  deriving DecidableEq, Repr

/-- The largest value, and the value that the upper end of a range is pushed to. -/
structure Limits where
  max : Int
  push : Int → Int
  room : 3 < max
  le_push : ∀ hi ≤ max, hi ≤ push hi
  push_le : ∀ hi, push hi ≤ max
  push_push : ∀ hi, push (push hi) = max
  push_mono : ∀ a b, a ≤ b → push a = max → push b = max

def jint : Limits where
  max := 2 ^ 31 - 1
  push _ := 2 ^ 31 - 1
  room := by decide
  le_push _ le := le
  push_le _ := le_refl _
  push_push _ := rfl
  push_mono _ _ _ _ := rfl

/-- An upper end of a `long` first stops at the largest unsigned `int`. -/
def jlong : Limits where
  max := 2 ^ 63 - 1
  push hi := if hi < 2 ^ 32 - 1 then 2 ^ 32 - 1 else 2 ^ 63 - 1
  room := by decide
  le_push hi le := by split <;> omega
  push_le hi := by split <;> omega
  push_push hi := by split <;> simp
  push_mono a b le pushed := by
    split at pushed
    · omega
    · rw [if_neg (by omega)]

namespace Limits

variable (k : Limits)

def min : Int := -k.max - 1

/-- The conversion of a difference to the unsigned type. -/
def unsigned (x : Int) : Int := x % (2 * k.max + 2)

def make (lo hi : Int) (w : Nat) : IntegerType :=
  let w := if lo ≤ hi ∧ k.unsigned (hi - lo) ≤ 3 then 0 else w
  let w := if lo ≤ hi ∧ k.unsigned (hi - lo) ≥ 2 * k.max + 1 then 3 else w
  ⟨lo, hi, w⟩

/-- `TypeInt::INT` and `TypeLong::LONG`. -/
def full : IntegerType := k.make k.min k.max 3

/-- At the last level the end that is closer to its limit is pushed out. -/
def pushOut (this : IntegerType) : IntegerType :=
  if k.min < this.lo ∧ this.hi < k.max then
    if this.lo ≥ 0 ∨ k.unsigned (this.lo - k.min) ≥ k.unsigned (k.max - this.hi) then
      k.make this.lo (k.push this.hi) 3
    else k.make k.min this.hi 3
  else k.full

/-- `widen` of a type against an old one. -/
def widen (this old : IntegerType) : IntegerType :=
  if this.lo = old.lo ∧ this.hi = old.hi then old
  else if this.lo ≤ old.lo ∧ old.hi ≤ this.hi then
    if this.widen > old.widen then this
    else if old.lo = old.hi then this
    else if this.widen = 3 then k.pushOut this
    else k.make this.lo this.hi (this.widen + 1)
  else if old.lo ≤ this.lo ∧ this.hi ≤ old.hi then old
  else k.full

end Limits

def xmeet (this t : IntegerType) : IntegerType :=
  if this = t then this
  else ⟨min this.lo t.lo, max this.hi t.hi, max this.widen t.widen⟩

variable (k : Limits)

/-- The types of a variable as the types of `flow` reach it one after the other. -/
def sequence (start : IntegerType) (flow : Nat → IntegerType) : Nat → IntegerType
  | 0 => start
  | n + 1 => k.widen (xmeet (sequence start flow n) (flow n)) (sequence start flow n)

/-- How often a sequence has changed up to its `n`-th value. -/
def changes (types : Nat → IntegerType) (n : Nat) : Nat :=
  ((range n).filter fun i => types (i + 1) ≠ types i).length

def Contains (t u : IntegerType) : Prop := t.lo ≤ u.lo ∧ u.hi ≤ t.hi

/-- A type that is not empty, as `make` builds it. -/
def Built (t : IntegerType) : Prop :=
  ∃ lo hi w, k.min ≤ lo ∧ lo ≤ hi ∧ hi ≤ k.max ∧ w ≤ 3 ∧ t = k.make lo hi w

/-! ### One round -/

/-- What all types of a sequence have in common; a small range has no level. -/
structure Formed (t : IntegerType) : Prop where
  low : k.min ≤ t.lo
  order : t.lo ≤ t.hi
  high : t.hi ≤ k.max
  level : t.widen ≤ 3
  small : t.hi - t.lo ≤ 3 → t.widen = 0

/-- How far the ends still are from their limits. -/
def stage (lo hi : Int) : Nat :=
  if lo = k.min ∧ hi = k.max then 0
  else if lo = k.min ∨ hi = k.max then 1
  else if k.push hi = k.max then 2
  else 3

/-- An upper bound of the changes that are left. -/
def rank (t : IntegerType) : Nat :=
  if t.hi - t.lo ≤ 3 then 9 - (t.hi - t.lo).toNat
  else if t.widen < 3 then 6 - t.widen
  else stage k t.lo t.hi

variable {k} {t u old : IntegerType} {lo hi : Int} {w : Nat}

theorem unsigned_eq {x : Int} (nonneg : 0 ≤ x) (fits : x ≤ 2 * k.max + 1) : k.unsigned x = x :=
  Int.emod_eq_of_lt nonneg (by omega)

theorem make_widen (low : k.min ≤ lo) (order : lo ≤ hi) (high : hi ≤ k.max) (w : Nat) :
    (k.make lo hi w).widen =
      if hi - lo ≤ 3 then 0 else if hi - lo ≥ 2 * k.max + 1 then 3 else w := by
  have room := k.room
  unfold Limits.min at low
  simp only [Limits.make, unsigned_eq (k := k) (show 0 ≤ hi - lo by omega) (by omega), order,
    true_and]
  split <;> split <;> first | rfl | omega

theorem make_formed (low : k.min ≤ lo) (order : lo ≤ hi) (high : hi ≤ k.max) (level : w ≤ 3) :
    Formed k (k.make lo hi w) := by
  refine ⟨low, order, high, ?_, fun small => ?_⟩
  · rw [make_widen low order high]
    split
    · omega
    · split <;> omega
  · rw [make_widen low order high]
    exact if_pos small

theorem xmeet_formed (first : Formed k t) (second : Formed k u) :
    Formed k (xmeet t u) ∧ Contains (xmeet t u) t ∧ Contains (xmeet t u) u ∧
      t.widen ≤ (xmeet t u).widen := by
  unfold xmeet
  split
  · rename_i same
    subst same
    exact ⟨first, ⟨le_refl _, le_refl _⟩, ⟨le_refl _, le_refl _⟩, le_refl _⟩
  · have ⟨_, _, _, _, _⟩ := first
    have ⟨_, _, _, _, _⟩ := second
    refine ⟨⟨?_, ?_, ?_, ?_, ?_⟩, ⟨?_, ?_⟩, ⟨?_, ?_⟩, ?_⟩ <;> dsimp only <;> omega

/-! ### Ranks -/

theorem stage_le (lo hi : Int) : stage k lo hi ≤ 3 := by
  unfold stage
  repeat' split
  all_goals omega

theorem rank_of_small (small : t.hi - t.lo ≤ 3) : rank k t = 9 - (t.hi - t.lo).toNat := if_pos small

theorem rank_of_last (formed : Formed k t) (last : t.widen = 3) : rank k t = stage k t.lo t.hi := by
  rw [rank, if_neg fun small => by have := formed.small small; omega, if_neg (by omega)]

theorem rank_le (formed : Formed k t) (some : 0 < t.widen) : rank k t ≤ 6 - t.widen := by
  have := formed.level
  have := stage_le (k := k) t.lo t.hi
  unfold rank
  rw [if_neg fun small => by have := formed.small small; omega]
  split <;> omega

theorem le_rank (below : t.widen < 3) : 6 - t.widen ≤ rank k t := by
  unfold rank
  split
  · omega
  · exact le_refl _

/-- At the last level an end is pushed out, or the whole range is taken. -/
theorem pushOut_spec (formed : Formed k t) (held : Formed k old) (inside : Contains t old)
    (last : old.widen = 3) (grown : ¬(t.lo = old.lo ∧ t.hi = old.hi)) :
    Formed k (k.pushOut t) ∧ Contains (k.pushOut t) t ∧ rank k (k.pushOut t) < rank k old := by
  obtain ⟨low, high⟩ := inside
  have ⟨_, _, _, _, _⟩ := formed
  have ⟨_, _, _, _, small⟩ := held
  -- the result has the last level again, so only its ends count
  have after {lo hi : Int} (lower : lo ≤ t.lo) (upper : t.hi ≤ hi) (first : k.min ≤ lo)
      (final : hi ≤ k.max) (less : stage k lo hi < stage k old.lo old.hi) :
      Formed k (k.make lo hi 3) ∧ Contains (k.make lo hi 3) t ∧
        rank k (k.make lo hi 3) < rank k old := by
    have made := make_formed first (by omega) final (le_refl 3)
    refine ⟨made, ⟨lower, upper⟩, ?_⟩
    rw [rank_of_last held last, rank_of_last made]
    · exact less
    · rw [make_widen first (by omega) final, if_neg (by omega), ite_self]
  unfold Limits.pushOut
  split
  · rename_i interior
    have before : stage k old.lo old.hi = if k.push old.hi = k.max then 2 else 3 := by
      rw [stage, if_neg (by omega), if_neg (by omega)]
    split
    · refine after (le_refl _) (k.le_push _ (by omega)) (by omega) (k.push_le t.hi) ?_
      rw [before, stage, if_neg (by omega)]
      by_cases top : k.push t.hi = k.max
      · rw [if_pos (.inr top)]
        split <;> omega
      · rw [if_neg (by omega), if_pos (k.push_push _),
          if_neg fun reached => top (k.push_mono _ _ high reached)]
        omega
    · refine after (by omega) (le_refl _) (le_refl _) (by omega) ?_
      rw [before, stage, if_neg (by omega), if_pos (.inl rfl)]
      split <;> omega
  · refine after (by omega) (by omega) (le_refl _) (le_refl _) ?_
    rw [stage, if_pos ⟨rfl, rfl⟩, stage, if_neg (by omega)]
    repeat' split
    all_goals omega

theorem widen_spec (formed : Formed k t) (held : Formed k old) (inside : Contains t old)
    (level : old.widen ≤ t.widen) :
    Formed k (k.widen t old) ∧ Contains (k.widen t old) t ∧
      (k.widen t old = old ∨ rank k (k.widen t old) < rank k old) := by
  have self : Contains t t := ⟨le_refl _, le_refl _⟩
  have := formed.level
  have := formed.order
  have := held.order
  unfold Limits.widen
  split
  · rename_i same
    exact ⟨held, ⟨Int.le_of_eq same.1.symm, Int.le_of_eq same.2⟩, .inl rfl⟩
  · rename_i grown
    obtain ⟨low, high⟩ := inside
    rw [if_pos ⟨low, high⟩]
    split
    · have := rank_le formed (by omega)
      have := le_rank (k := k) (t := old) (by omega)
      exact ⟨formed, self, .inr (by omega)⟩
    · split
      · have none := held.small (by omega)
        refine ⟨formed, self, .inr ?_⟩
        rw [rank_of_small (t := old) (by omega)]
        by_cases small : t.hi - t.lo ≤ 3
        · rw [rank_of_small small]
          omega
        · rw [rank, if_neg small, if_pos (by omega)]
          omega
      · split
        · obtain ⟨made, holds, less⟩ := pushOut_spec formed held ⟨low, high⟩ (by omega) grown
          exact ⟨made, holds, .inr less⟩
        · have made := make_formed formed.low formed.order formed.high
            (show t.widen + 1 ≤ 3 by omega)
          refine ⟨made, self, .inr ?_⟩
          by_cases small : t.hi - t.lo ≤ 3
          · rw [rank_of_small (t := k.make _ _ _) small, rank_of_small (t := old) (by omega)]
            change 9 - (t.hi - t.lo).toNat < _
            omega
          · have := le_rank (k := k) (t := old) (by omega)
            have next := make_widen formed.low formed.order formed.high (t.widen + 1)
            rw [if_neg small] at next
            have := rank_le made (by rw [next]; split <;> omega)
            rw [next] at this
            split at this <;> omega

/-! ### Whole sequences -/

variable {start : IntegerType} {flow : Nat → IntegerType}

theorem Built.formed (built : Built k t) : Formed k t := by
  obtain ⟨lo, hi, w, low, order, high, level, rfl⟩ := built
  exact make_formed low order high level

theorem sequence_step (built : Built k start) (flows : ∀ n, Built k (flow n)) (n : Nat) :
    Formed k (sequence k start flow n) ∧
      Contains (sequence k start flow (n + 1)) (sequence k start flow n) ∧
      Contains (sequence k start flow (n + 1)) (flow n) ∧
      (sequence k start flow (n + 1) = sequence k start flow n ∨
        rank k (sequence k start flow (n + 1)) < rank k (sequence k start flow n)) := by
  have formed : Formed k (sequence k start flow n) := by
    induction n with
    | zero => exact built.formed
    | succ n ih =>
      obtain ⟨met, inside, -, level⟩ := xmeet_formed ih (flows n).formed
      exact (widen_spec met ih inside level).1
  obtain ⟨met, inside, other, level⟩ := xmeet_formed formed (flows n).formed
  obtain ⟨-, holds, change⟩ := widen_spec met formed inside level
  refine ⟨formed, ?_, ?_, change⟩
  · exact ⟨le_trans holds.1 inside.1, le_trans inside.2 holds.2⟩
  · exact ⟨le_trans holds.1 other.1, le_trans other.2 holds.2⟩

theorem changes_le (built : Built k start) (flows : ∀ n, Built k (flow n)) (n : Nat) :
    changes (sequence k start flow) n + rank k (sequence k start flow n) ≤ rank k start := by
  induction n with
  | zero => exact le_of_eq (zero_add _)
  | succ n ih =>
    obtain ⟨-, -, -, same | less⟩ := sequence_step built flows n
    · simpa [changes, range_succ, same] using ih
    · have counted : changes (sequence k start flow) (n + 1) ≤
          changes (sequence k start flow) n + 1 := by
        rw [changes, range_succ, filter_append, length_append]
        exact Nat.add_le_add_left (length_filter_le _ _) _
      omega

/-- The types contain what came before and what flowed in, and change at most ten times. -/
theorem widening_ends (k : Limits) (start : IntegerType) (flow : Nat → IntegerType)
    (built : Built k start) (flows : ∀ n, Built k (flow n)) :
    (∀ n, Contains (sequence k start flow (n + 1)) (sequence k start flow n) ∧
      Contains (sequence k start flow (n + 1)) (flow n)) ∧
    ∀ n, changes (sequence k start flow) n ≤ 10 := by
  constructor
  · intro n
    obtain ⟨-, previous, new, -⟩ := sequence_step built flows n
    exact ⟨previous, new⟩
  · intro n
    have := changes_le built flows n
    have : rank k start ≤ 9 := by
      have := stage_le (k := k) start.lo start.hi
      unfold rank
      repeat' split
      all_goals omega
    omega

/-- A loop counter that starts at 0. -/
theorem counter_widens :
    changes (sequence jlong (jlong.make 0 0 0) fun n => jlong.make 0 (n % 1000) 0) 5000 ≤ 10 :=
  (widening_ends jlong (jlong.make 0 0 0) (fun n => jlong.make 0 (n % 1000) 0)
    ⟨0, 0, 0, by decide, by decide, by decide, by decide, rfl⟩
    fun n => ⟨0, n % 1000, 0, by decide, by omega, by
      change _ ≤ (2 : Int) ^ 63 - 1
      omega, by decide, rfl⟩).2 5000

end IntegerTypes
