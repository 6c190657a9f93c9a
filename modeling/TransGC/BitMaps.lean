import Mathlib.Logic.Function.Basic
import Mathlib.Data.BitVec

/-!
# Bit maps

`BitMap` keeps its bits in words of `w` bits, the `BitsPerWord` of a 32-bit or 64-bit machine;
shifts of indices by `LogBitsPerWord` are written as divisions. Ranges of bits are written as whole
words with partial words at their ends, and searches look at the rest of the first word and then
at whole words. Indices are unsigned and as wide as a word.
-/

namespace BitMaps

open BitVec Function

structure BitMap (w : Nat) where
  map : Nat → BitVec w
  size : Nat
  fits : size < 2 ^ w

variable {w : Nat}

def bitInWord (w bit : Nat) : Nat := bit % w

def bitMask (w bit : Nat) : BitVec w := 1#w <<< bitInWord w bit

def wordIndex (w bit : Nat) : Nat := bit / w

def bitIndex (w word : Nat) : Nat := word * w % 2 ^ w

/-- A zero for each bit of the range, which lies in one word. -/
def invertedBitMaskForRange (w beg stop : Nat) : BitVec w :=
  let mask := bitMask w beg - 1#w
  if bitInWord w stop ≠ 0 then mask ||| ~~~(bitMask w stop - 1#w) else mask

def leftNBits (w n : Nat) : BitVec w := (1#w <<< n - 1#w) <<< (w - n)

/-- The loop over the words of a range, of which `n` from `i` on are left. -/
def putWords (word : BitVec w) : Nat → Nat → (Nat → BitVec w) → Nat → BitVec w
  | 0, _, map => map
  | n + 1, i, map => putWords word n (i + 1) (update map i word)

/-- The loop over the bits of a word up to the first one that is `value`. -/
def advance (value : Bool) : Nat → BitVec w → Nat → Nat
  | 0, _, offset => offset
  | n + 1, res, offset =>
    if res.getLsbD 0 = value then offset else advance value n (res >>> 1) (offset + 1)

/-- A word without a bit that is `value`: `NoBits` or `AllBits`. -/
def without (value : Bool) : BitVec w := if value then 0#w else allOnes w

namespace BitMap

variable (m : BitMap w)

def sizeInWords : Nat := wordIndex w ((m.size + w - 1) % 2 ^ w)

/-- `at` -/
def bitAt (index : Nat) : Bool := m.map (wordIndex w index) &&& bitMask w index ≠ 0#w

def wordIndexRoundUp (bit : Nat) : Nat :=
  let bitRoundedUp := (bit + (w - 1)) % 2 ^ w
  if bitRoundedUp > bit then wordIndex w bitRoundedUp else m.sizeInWords

/-- `set_range_within_word` and `clear_range_within_word` -/
def putRangeWithinWord (value : Bool) (beg stop : Nat) : BitMap w :=
  let mask := invertedBitMaskForRange w beg stop
  let word := m.map (wordIndex w beg)
  if beg ≠ stop then
    { m with map := update m.map (wordIndex w beg) (if value then word ||| ~~~mask else word &&& mask) }
  else m

/-- `set_range_of_words` and `clear_range_of_words` -/
def putRangeOfWords (value : Bool) (beg stop : Nat) : BitMap w :=
  { m with map := putWords (without !value) (stop - beg) beg m.map }

/-- `set_range` and `clear_range` differ in what they call only. -/
def putRange (value : Bool) (beg stop : Nat) : BitMap w :=
  let begFullWord := m.wordIndexRoundUp beg
  let endFullWord := wordIndex w stop
  if begFullWord < endFullWord then
    ((m.putRangeWithinWord value beg (bitIndex w begFullWord)).putRangeOfWords value
      begFullWord endFullWord).putRangeWithinWord value (bitIndex w endFullWord) stop
  else
    let boundary := min (bitIndex w begFullWord) stop
    (m.putRangeWithinWord value beg boundary).putRangeWithinWord value boundary stop

def setRange (beg stop : Nat) : BitMap w := m.putRange true beg stop

def clearRange (beg stop : Nat) : BitMap w := m.putRange false beg stop

/-- A search that has `res` left of the word `index`, from `offset` on, and `n` words after it. -/
def search (value : Bool) (right : Nat) : Nat → Nat → BitVec w → Nat → Nat
  | n, index, res, offset =>
    if res ≠ without value then min (advance value w res offset) right
    else match n with
      | 0 => right
      | n + 1 => search value right n (index + 1) (m.map (index + 1)) (bitIndex w (index + 1))

def getNextOneOffset (left right : Nat) : Nat :=
  let index := wordIndex w left
  if left = right then left
  else m.search true right (wordIndex w (right - 1) - index) index
    (m.map index >>> bitInWord w left) left

def getNextZeroOffset (left right : Nat) : Nat :=
  let index := wordIndex w left
  let pos := bitInWord w left
  if left = right then left
  else m.search false right (wordIndex w (right - 1) - index) index
    (m.map index >>> pos ||| leftNBits w pos) left

end BitMap

/-! ### Ranges -/

theorem getLsbD_low {n : Nat} (small : n < w) (j : Nat) :
    (1#w <<< n - 1#w).getLsbD j = decide (j < n) := by
  have large : 2 ^ n < 2 ^ w := Nat.pow_lt_pow_right Nat.one_lt_two small
  have value : (1#w <<< n - 1#w).toNat = 2 ^ n - 1 := by
    have positive := Nat.two_pow_pos n
    have one : 1 % 2 ^ w = 1 := Nat.mod_eq_of_lt (by omega)
    rw [toNat_sub_of_le] <;> simp [le_def, Nat.shiftLeft_eq, Nat.mod_eq_of_lt large, one]
    exact positive
  rw [← testBit_toNat, value, Nat.testBit_two_pow_sub_one]

/-- The bits in the range get the value, and no other bit changes. -/
def Puts (value : Bool) (m m' : BitMap w) (beg stop : Nat) : Prop :=
  ∀ i, m'.bitAt i = if beg ≤ i ∧ i < stop then value else m.bitAt i

theorem Puts.trans {value : Bool} {m m' m'' : BitMap w} {a b c : Nat} (first : Puts value m m' a b)
    (second : Puts value m' m'' b c) (low : a ≤ b) (high : b ≤ c) : Puts value m m'' a c := by
  intro i
  rw [second i, first i]
  grind

theorem putWords_eq (word : BitVec w) {n i : Nat} {map : Nat → BitVec w} (j : Nat) :
    putWords word n i map j = if i ≤ j ∧ j < i + n then word else map j := by
  induction n generalizing i map with
  | zero => simp [putWords, show ¬(i ≤ j ∧ j < i) by omega]
  | succ n ih =>
    rw [putWords, ih, update_apply]
    grind

/-! ### Searches -/

/-- The smallest index of the range whose bit is `value`, or the right end if there is none. -/
structure IsNext (m : BitMap w) (value : Bool) (left right r : Nat) : Prop where
  after : left ≤ r
  le : r ≤ right
  skipped : ∀ i, left ≤ i → i < r → m.bitAt i ≠ value
  found : r < right → m.bitAt r = value

theorem advance_spec {value : Bool} {n : Nat} {res : BitVec w} (offset : Nat)
    (has : ∃ k < n, res.getLsbD k = value) : ∃ k < n, res.getLsbD k = value ∧
      (∀ j < k, res.getLsbD j ≠ value) ∧ advance value n res offset = offset + k := by
  induction n generalizing res offset with
  | zero => simp at has
  | succ n ih =>
    by_cases here : res.getLsbD 0 = value
    · exact ⟨0, by omega, here, by simp, by simp [advance, here]⟩
    · obtain ⟨k, small, shows⟩ := has
      obtain ⟨k, rfl⟩ : ∃ j, k = j + 1 := Nat.exists_eq_succ_of_ne_zero (by grind)
      have shifted : ∀ j, (res >>> 1).getLsbD j = res.getLsbD (j + 1) := by
        simp [add_comm]
      obtain ⟨j, less, found, first, ends⟩ :=
        ih (offset + 1) ⟨k, Nat.lt_of_succ_lt_succ small, (shifted k).trans shows⟩
      refine ⟨j + 1, by omega, by rwa [← shifted], ?_, by rw [advance, if_neg here, ends]; omega⟩
      intro i low
      cases i with
      | zero => exact here
      | succ i => exact shifted i ▸ first i (by omega)

theorem eq_without_iff {value : Bool} {res : BitVec w} :
    res = without value ↔ ∀ k < w, res.getLsbD k ≠ value := by
  rw [eq_of_getLsbD_eq_iff]
  cases value <;> simp +contextual [without]

section Shows

variable {m : BitMap w} {value : Bool} {left right offset : Nat} {res : BitVec w}

/-- The bits of `res` that are `value` are those of the rest of the word from `offset` on. -/
def Shows (m : BitMap w) (value : Bool) (offset : Nat) (res : BitVec w) : Prop :=
  ∀ k < w, res.getLsbD k = value ↔ offset % w + k < w ∧ m.bitAt (offset + k) = value

theorem Shows.isNext (shows : Shows m value offset res) (other : res ≠ without value)
    (order : left ≤ offset) (inside : offset < right)
    (before : ∀ i, left ≤ i → i < offset → m.bitAt i ≠ value) :
    IsNext m value left right (min (advance value w res offset) right) := by
  have has : ∃ k < w, res.getLsbD k = value := by
    simpa [eq_without_iff] using other
  obtain ⟨k, small, found, first, ends⟩ := advance_spec offset has
  obtain ⟨within, bit⟩ := (shows k small).mp found
  rw [ends]
  constructor
  · omega
  · omega
  · intro i low high
    obtain less | more := lt_or_ge i offset
    · exact before i low less
    · obtain ⟨j, rfl⟩ := Nat.exists_eq_add_of_le more
      exact fun bit => first j (by omega) ((shows j (by omega)).mpr ⟨by omega, bit⟩)
  · intro low
    rwa [min_eq_left (by omega)]

end Shows

section Machine

variable (machine : w = 32 ∨ w = 64)

include machine

theorem bit_lt (i : Nat) : i % w < w := Nat.mod_lt i (by omega)

theorem bitAt_eq (m : BitMap w) (i : Nat) : m.bitAt i = (m.map (i / w)).getLsbD (i % w) := by
  have selected : twoPow w (i % w) ≠ 0#w := by
    intro zero
    simpa [bit_lt machine] using congrArg (getLsbD · (i % w)) zero
  rw [BitMap.bitAt, bitMask, ← twoPow_eq, bitInWord, and_twoPow]
  split <;> simp_all [wordIndex]

theorem getLsbD_mask {beg stop : Nat} (i : Nat) :
    (invertedBitMaskForRange w beg stop).getLsbD (i % w) =
      !decide (beg % w ≤ i % w ∧ (stop % w = 0 ∨ i % w < stop % w)) := by
  have small := bit_lt machine i
  unfold invertedBitMaskForRange bitMask bitInWord
  split <;> simp only [getLsbD_or, getLsbD_not, getLsbD_low (bit_lt machine _), *] <;> grind

theorem putRangeWithinWord_puts (value : Bool) (m : BitMap w) (beg stop : Nat) (order : beg ≤ stop)
    (within : stop ≤ (beg / w + 1) * w) :
    Puts value m (m.putRangeWithinWord value beg stop) beg stop := by
  intro i
  have mem : beg ≠ stop → ((i / w = beg / w ∧ beg % w ≤ i % w ∧
      (stop % w = 0 ∨ i % w < stop % w)) ↔ beg ≤ i ∧ i < stop) := by
    obtain rfl | rfl := machine <;> omega
  unfold BitMap.putRangeWithinWord wordIndex
  split
  · next differ =>
    simp only [bitAt_eq machine, update_apply, ← mem differ]
    split
    · next same =>
      cases value <;> simp only [Bool.false_eq_true, reduceIte, getLsbD_or, getLsbD_and, getLsbD_not,
        getLsbD_mask machine, bit_lt machine, same] <;> grind
    · next other => rw [if_neg fun range => other range.1]
  · next same => rw [if_neg (by omega)]

theorem putRangeOfWords_puts (value : Bool) (m : BitMap w) {beg stop : Nat} (order : beg ≤ stop) :
    Puts value m (m.putRangeOfWords value beg stop) (beg * w) (stop * w) := by
  intro i
  have mem : (beg ≤ i / w ∧ i / w < stop) ↔ beg * w ≤ i ∧ i < stop * w := by
    obtain rfl | rfl := machine <;> omega
  simp only [BitMap.putRangeOfWords, bitAt_eq machine, putWords_eq, without,
    Nat.add_sub_cancel' order, ← mem]
  split
  · cases value <;> simp [bit_lt machine]
  · rfl

/-- Unless rounding up wraps, the range is cut at word boundaries. -/
theorem putRange_puts {m : BitMap w} {beg stop : Nat} (value : Bool) (order : beg ≤ stop)
    (inside : stop ≤ m.size) (low : beg + (w - 1) < 2 ^ w) :
    Puts value m (m.putRange value beg stop) beg stop := by
  have fits := m.fits
  have full : m.wordIndexRoundUp beg = (beg + (w - 1)) / w := by
    rw [BitMap.wordIndexRoundUp, Nat.mod_eq_of_lt low, if_pos (by omega), wordIndex]
  simp only [BitMap.putRange, full, wordIndex, bitIndex]
  rw [Nat.mod_eq_of_lt (lt_of_le_of_lt (Nat.div_mul_le_self ..) low),
    Nat.mod_eq_of_lt (lt_of_le_of_lt (Nat.div_mul_le_self ..) (by omega))]
  have within := putRangeWithinWord_puts machine value
  split
  case isTrue several =>
    have start := within m beg ((beg + (w - 1)) / w * w)
    have middle := putRangeOfWords_puts machine value
      (m.putRangeWithinWord value beg ((beg + (w - 1)) / w * w)) (le_of_lt several)
    refine ((start ?_ ?_).trans middle ?_ ?_).trans (within _ _ stop ?_ ?_) ?_ ?_ <;>
      obtain rfl | rfl := machine <;> omega
  case isFalse few =>
    refine (within m beg _ ?_ ?_).trans (within _ _ stop ?_ ?_) ?_ ?_ <;>
      obtain rfl | rfl := machine <;> omega

/-- Where rounding up wraps, the words from the first one on count as whole words of the range. -/
theorem putRange_wrapped {m : BitMap w} {beg stop : Nat} (value : Bool) (order : beg ≤ stop)
    (inside : stop ≤ m.size) (high : 2 ^ w ≤ beg + (w - 1)) :
    (m.putRange value beg stop).bitAt 0 = value := by
  have fits := m.fits
  have full : m.wordIndexRoundUp beg = 0 := by
    unfold BitMap.wordIndexRoundUp BitMap.sizeInWords wordIndex
    obtain rfl | rfl := machine <;> grind
  have last : bitIndex w (stop / w) = stop / w * w :=
    Nat.mod_eq_of_lt (Nat.lt_of_le_of_lt (Nat.div_mul_le_self ..) (by omega))
  have several : 0 < stop / w := by obtain rfl | rfl := machine <;> omega
  simp only [BitMap.putRange, full, wordIndex]
  rw [if_pos several, last, putRangeWithinWord_puts machine value _ _ stop _ _ 0, if_neg,
    putRangeOfWords_puts machine value _ (Nat.zero_le _) 0, if_pos]
  all_goals obtain rfl | rfl := machine <;> omega

variable {m : BitMap w} {value : Bool} {left right offset : Nat} {res : BitVec w}

theorem bitAt_add {k : Nat} (small : offset % w + k < w) :
    m.bitAt (offset + k) = (m.map (offset / w)).getLsbD (offset % w + k) := by
  have same : (offset + k) / w = offset / w ∧ (offset + k) % w = offset % w + k := by
    obtain rfl | rfl := machine <;> omega
  rw [bitAt_eq machine, same.1, same.2]

theorem shows_word (index : Nat) : Shows m value (index * w) (m.map index) := by
  intro k small
  have whole : index * w % w + k < w := by rwa [Nat.mul_mod_left, zero_add]
  rw [bitAt_add machine whole, Nat.mul_mod_left, Nat.mul_div_cancel _ (by omega), zero_add]
  simp [small]

theorem passed_of_shows (shows : Shows m value offset res) (same : ¬res ≠ without value)
    (before : ∀ i, left ≤ i → i < offset → m.bitAt i ≠ value) :
    ∀ i, left ≤ i → i < (offset / w + 1) * w → m.bitAt i ≠ value := by
  intro i low high bit
  obtain less | more := lt_or_ge i offset
  · exact before i low less bit
  · obtain ⟨k, rfl⟩ := Nat.exists_eq_add_of_le more
    have small : offset % w + k < w := by obtain rfl | rfl := machine <;> omega
    exact eq_without_iff.mp (not_ne_iff.mp same) k (by omega) ((shows k (by omega)).mpr ⟨small, bit⟩)

theorem search_isNext {n : Nat} (shows : Shows m value offset res) (order : left ≤ offset)
    (inside : offset < right) (fits : right < 2 ^ w) (words : offset / w + n = (right - 1) / w)
    (before : ∀ i, left ≤ i → i < offset → m.bitAt i ≠ value) :
    IsNext m value left right (m.search value right n (offset / w) res offset) := by
  induction n generalizing res offset with
  | zero =>
    rw [BitMap.search]
    split
    · next other => exact shows.isNext other order inside before
    · next same =>
      refine ⟨by omega, le_refl _, fun i low high => ?_, fun less => absurd less (lt_irrefl _)⟩
      exact passed_of_shows machine shows same before i low (by obtain rfl | rfl := machine <;> omega)
  | succ n ih =>
    have start : bitIndex w (offset / w + 1) = (offset / w + 1) * w := by
      refine Nat.mod_eq_of_lt ?_
      obtain rfl | rfl := machine <;> omega
    rw [BitMap.search]
    split
    · next other => exact shows.isNext other order inside before
    · next same =>
      have next := ih (shows_word machine (offset / w + 1))
      rw [Nat.mul_div_cancel _ (by omega)] at next
      rw [start]
      refine next ?_ ?_ ?_ (passed_of_shows machine shows same before) <;>
        obtain rfl | rfl := machine <;> omega

theorem isNext_of_shows (order : left ≤ right) (fits : right < 2 ^ w) (shows : Shows m value left res) :
    IsNext m value left right (if left = right then left
      else m.search value right ((right - 1) / w - left / w) (left / w) res left) := by
  split
  · next same => exact ⟨le_refl _, order, by omega, by omega⟩
  · next differ =>
    refine search_isNext machine shows (le_refl _) (by omega) fits ?_ (by omega)
    obtain rfl | rfl := machine <;> omega

theorem getNextOneOffset_isNext (m : BitMap w) (order : left ≤ right) (fits : right < 2 ^ w) :
    IsNext m true left right (m.getNextOneOffset left right) := by
  refine isNext_of_shows machine order fits fun k small => ?_
  rw [getLsbD_ushiftRight]
  constructor
  · intro bit
    have within : left % w + k < w := lt_of_getLsbD bit
    exact ⟨within, (bitAt_add machine within).trans bit⟩
  · rintro ⟨within, bit⟩
    exact (bitAt_add machine within).symm.trans bit

theorem getNextZeroOffset_isNext (m : BitMap w) (order : left ≤ right) (fits : right < 2 ^ w) :
    IsNext m false left right (m.getNextZeroOffset left right) := by
  refine isNext_of_shows machine order fits fun k small => ?_
  -- what `left_n_bits` adds are the places that the shift has emptied
  have filled : (leftNBits w (left % w)).getLsbD k = decide (w ≤ left % w + k) := by
    simp only [leftNBits, getLsbD_shiftLeft, getLsbD_low (bit_lt machine left)]
    grind
  rw [getLsbD_or, getLsbD_ushiftRight, bitInWord, filled, Bool.or_eq_false_iff,
    decide_eq_false_iff_not, not_le]
  constructor
  · rintro ⟨bit, within⟩
    exact ⟨within, (bitAt_add machine within).trans bit⟩
  · rintro ⟨within, bit⟩
    exact ⟨(bitAt_add machine within).symm.trans bit, within⟩

end Machine

/-- For a valid range `set_range` and `clear_range` change exactly the bits of the range and the
searches find the first bit, exactly if rounding the left end up to a word does not wrap. -/
theorem ranges_exact_iff (machine : w = 32 ∨ w = 64) (m : BitMap w) {beg stop : Nat}
    (order : beg ≤ stop) (inside : stop ≤ m.size) :
    (Puts true m (m.setRange beg stop) beg stop ∧ Puts false m (m.clearRange beg stop) beg stop ∧
      IsNext m true beg stop (m.getNextOneOffset beg stop) ∧
      IsNext m false beg stop (m.getNextZeroOffset beg stop)) ↔ beg + (w - 1) < 2 ^ w := by
  have fits := lt_of_le_of_lt inside m.fits
  constructor
  · rintro ⟨sets, clears, -⟩
    by_contra high
    have wrapped := fun value => putRange_wrapped machine value order inside (Nat.not_lt.mp high)
    have set := (sets 0).symm.trans (wrapped true)
    have cleared := (clears 0).symm.trans (wrapped false)
    have later : ¬(beg ≤ 0 ∧ 0 < stop) := by obtain rfl | rfl := machine <;> omega
    rw [if_neg later] at set cleared
    exact absurd (set.symm.trans cleared) (by decide)
  · intro low
    exact ⟨putRange_puts machine true order inside low, putRange_puts machine false order inside low,
      getNextOneOffset_isNext machine m order fits, getNextZeroOffset_isNext machine m order fits⟩

/-- A range over a word boundary of a 32-bit machine. -/
theorem boundary_crossed : Puts true ⟨fun _ => 0, 64, by decide⟩
    (BitMap.setRange (w := 32) ⟨fun _ => 0, 64, by decide⟩ 30 50) 30 50 :=
  ((ranges_exact_iff (.inl rfl) ⟨fun _ => 0, 64, by decide⟩ (by decide) (by decide)).mpr
    (by decide)).1

/-- In the largest bit map of a 32-bit machine an empty range at the end sets the first bit. -/
theorem empty_range_sets_bits : ¬Puts true ⟨fun _ => 0, 2 ^ 32 - 1, by decide⟩
    (BitMap.setRange (w := 32) ⟨fun _ => 0, 2 ^ 32 - 1, by decide⟩ (2 ^ 32 - 1) (2 ^ 32 - 1))
    (2 ^ 32 - 1) (2 ^ 32 - 1) := by
  intro puts
  have wrapped := (puts 0).symm.trans
    (putRange_wrapped (.inl rfl) true (le_refl _) (le_refl _) (by decide))
  exact absurd wrapped (by decide)

end BitMaps
