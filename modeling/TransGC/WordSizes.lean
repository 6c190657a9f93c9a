import Mathlib.Data.BitVec

/-!
# Sizes in machine words

Unsigned sizes of a fixed width with rounding to a power of two by masks, and a record of the
subtractions that a computation makes: subtraction wraps silently, so whether a computed size
means anything depends on all of them.
-/
namespace WordSizes
open BitVec

variable {w k : Nat} {α β : Type}

/-! ### Rounding -/

def alignDown (size alignment : BitVec w) : BitVec w := size &&& ~~~(alignment - 1)

def alignUp (size alignment : BitVec w) : BitVec w :=
  (size + (alignment - 1)) &&& ~~~(alignment - 1)

theorem toNat_twoPow_of_lt (small : k < w) : (twoPow w k).toNat = 2 ^ k := by
  rw [toNat_twoPow]
  exact Nat.mod_eq_of_lt (Nat.pow_lt_pow_right (by decide) small)

theorem toNat_mask (small : k < w) : (twoPow w k - 1).toNat = 2 ^ k - 1 := by
  have one : (1 : BitVec w).toNat = 1 := by
    simpa using Nat.one_mod_two_pow (by omega : 0 < w)
  have least : (1 : BitVec w) ≤ twoPow w k := by
    rw [le_def, one, toNat_twoPow_of_lt small]
    exact Nat.one_le_two_pow
  rw [toNat_sub_of_le least, one, toNat_twoPow_of_lt small]

theorem toNat_clear_add_keep (x mask : BitVec w) :
    (x &&& ~~~mask).toNat + (x &&& mask).toNat = x.toNat := by
  have apart : (x &&& ~~~mask) &&& (x &&& mask) = 0#w := by
    ext i
    simp only [getElem_and, getElem_not, getElem_zero]
    cases x[i] <;> cases mask[i] <;> rfl
  have whole : (x &&& ~~~mask) ||| (x &&& mask) = x := by
    ext i
    simp only [getElem_or, getElem_and, getElem_not]
    cases x[i] <;> cases mask[i] <;> rfl
  rw [← toNat_add_of_and_eq_zero apart, add_eq_or_of_and_eq_zero _ _ apart, whole]

theorem toNat_alignDown (small : k < w) (size : BitVec w) :
    (alignDown size (twoPow w k)).toNat = size.toNat / 2 ^ k * 2 ^ k := by
  have split := toNat_clear_add_keep size (twoPow w k - 1)
  have kept : (size &&& (twoPow w k - 1)).toNat = size.toNat % 2 ^ k := by
    rw [toNat_and, toNat_mask small, Nat.and_two_pow_sub_one_eq_mod]
  have divide := Nat.div_add_mod' size.toNat (2 ^ k)
  rw [alignDown]
  omega

theorem toNat_alignUp (small : k < w) (size : BitVec w) :
    (alignUp size (twoPow w k)).toNat = (size.toNat + (2 ^ k - 1)) % 2 ^ w / 2 ^ k * 2 ^ k := by
  have down := toNat_alignDown small (size + (twoPow w k - 1))
  rwa [toNat_add, toNat_mask small] at down

/-! ### The smaller and the larger of two sizes -/

def min2 (a b : BitVec w) : BitVec w := if a < b then a else b

def max2 (a b : BitVec w) : BitVec w := if a > b then a else b

@[simp] theorem toNat_min2 (a b : BitVec w) : (min2 a b).toNat = min a.toNat b.toNat := by
  unfold min2
  split <;> rename_i smaller <;> rw [lt_def] at smaller <;> omega

@[simp] theorem toNat_max2 (a b : BitVec w) : (max2 a b).toNat = max a.toNat b.toNat := by
  unfold max2
  split <;> rename_i larger <;> rw [gt_iff_lt, lt_def] at larger <;> omega

theorem dvd_min {d a b : Nat} (left : d ∣ a) (right : d ∣ b) : d ∣ min a b := by
  rcases min_choice a b with h | h <;> rwa [h]

theorem dvd_max {d a b : Nat} (left : d ∣ a) (right : d ∣ b) : d ∣ max a b := by
  rcases max_choice a b with h | h <;> rwa [h]

/-! ### Computations that remember their subtractions -/

/-- A computed value and the operands of the subtractions made for it. -/
structure Traced (w : Nat) (α : Type) where
  value : α
  subtractions : List (BitVec w × BitVec w)

instance : Monad (Traced w) where
  pure value := ⟨value, []⟩
  bind first next :=
    ⟨(next first.value).value, first.subtractions ++ (next first.value).subtractions⟩

def minus (a b : BitVec w) : Traced w (BitVec w) := ⟨a - b, [(a, b)]⟩

namespace Traced

/-- No subtraction takes more than there is. -/
def NoWrap (t : Traced w α) : Prop := ∀ operands ∈ t.subtractions, operands.2 ≤ operands.1

-- named here, since words are finite and instance search may go through all pairs of them
instance (t : Traced w α) : Decidable t.NoWrap :=
  List.decidableBAll (fun operands : BitVec w × BitVec w => operands.2 ≤ operands.1) t.subtractions

@[simp] theorem pure_value (a : α) : (pure a : Traced w α).value = a := rfl

@[simp] theorem bind_value (t : Traced w α) (f : α → Traced w β) :
    (t >>= f).value = (f t.value).value := rfl

@[simp] theorem minus_value (a b : BitVec w) : (minus a b).value = a - b := rfl

@[simp] theorem noWrap_pure (a : α) : (pure a : Traced w α).NoWrap := nofun

@[simp] theorem noWrap_bind (t : Traced w α) (f : α → Traced w β) :
    (t >>= f).NoWrap ↔ t.NoWrap ∧ (f t.value).NoWrap := by
  constructor
  · intro all
    exact ⟨fun operands made => all operands (List.mem_append_left _ made),
      fun operands made => all operands (List.mem_append_right _ made)⟩
  · rintro ⟨first, next⟩ operands made
    rcases List.mem_append.mp made with made | made
    · exact first operands made
    · exact next operands made

@[simp] theorem noWrap_minus (a b : BitVec w) : (minus a b).NoWrap ↔ b.toNat ≤ a.toNat := by
  simp [NoWrap, minus, le_def]

end Traced

end WordSizes
