import Mathlib.Data.Nat.Log
import Mathlib.Tactic.Common
import Mathlib.Algebra.Order.Ring.Int

/-!
# The entries of the block offset table

The table has one entry for each card of `nWords` words. An entry up to `nWords` says how many
words before the card the block of its first word starts. A larger entry `nWords + i` says to go
back `16 ^ i` cards and look again. Words and cards are counted from the reserved start.
-/

namespace BlockOffsets

abbrev Table := Nat → Nat

def logBase : Nat := 4

def nPowers : Nat := 14

/-- The shift is one of an `int`: its count is taken modulo 32. -/
def powerToCardsBack (i : Nat) : Nat := 2 ^ (logBase * i % 32)

theorem powerToCardsBack_eq {i : Nat} (defined : i ≤ 7) : powerToCardsBack i = 16 ^ i := by
  have small : logBase * i % 32 = 4 * i := Nat.mod_eq_of_lt (by simp only [logBase]; omega)
  rw [powerToCardsBack, small, Nat.pow_mul]

def entryToCardsBack (nWords entry : Nat) : Nat := powerToCardsBack (entry - nWords)

/-- Fill the entries of a closed interval of cards. -/
def setOffsetRange (table : Table) (left right offset : Nat) : Table :=
  fun c => if left ≤ c ∧ c ≤ right then offset else table c

theorem setOffsetRange_of_mem {table : Table} {left right offset c : Nat}
    (inside : left ≤ c ∧ c ≤ right) : setOffsetRange table left right offset c = offset :=
  if_pos inside

theorem setOffsetRange_of_not_mem {table : Table} {left right offset c : Nat}
    (outside : ¬ (left ≤ c ∧ c ≤ right)) : setOffsetRange table left right offset c = table c :=
  if_neg outside

variable (nWords : Nat)

/-- The loop of `set_remainder_to_point_to_start_incl`, with the powers from `i` on. -/
def remainderLoop (startCard endCard : Nat) : Nat → Nat → Nat → Table → Table
  | 0, _, _, table => table
  | fuel + 1, i, startCardForRegion, table =>
    let reach := startCard - 1 + (powerToCardsBack (i + 1) - 1)
    if reach ≥ endCard then setOffsetRange table startCardForRegion endCard (nWords + i)
    else remainderLoop startCard endCard fuel (i + 1) (reach + 1)
      (setOffsetRange table startCardForRegion reach (nWords + i))

/-- Both ends belong to the interval of cards that point back to the card before it. -/
def setRemainderToPointToStartIncl (table : Table) (startCard endCard : Nat) : Table :=
  if startCard > endCard then table
  else remainderLoop nWords startCard endCard nPowers 0 startCard table

/-- The same for the cards between two addresses. -/
def setRemainderToPointToStart (table : Table) (start stop : Nat) : Table :=
  if start ≥ stop then table
  else setRemainderToPointToStartIncl nWords table (start / nWords) ((stop - 1) / nWords)

variable {nWords}

theorem log_eq {d i : Nat} (low : 16 ^ i ≤ d) (high : d < 16 ^ (i + 1)) : Nat.log 16 d = i :=
  Nat.log_eq_of_pow_le_of_lt_pow low high

theorem pow_log_le {d : Nat} (positive : 0 < d) : 16 ^ Nat.log 16 d ≤ d :=
  Nat.pow_log_le_self 16 (Nat.pos_iff_ne_zero.mp positive)

theorem lt_pow_log (d : Nat) : d < 16 ^ (Nat.log 16 d + 1) := Nat.lt_pow_succ_log_self (by decide) d

/-- The loop gives the rest of the cards the largest power that stays behind the card `s`. -/
theorem remainderLoop_eq {s endCard fuel i : Nat} (short : endCard < s + 16 ^ 7)
    (left : s + 16 ^ i ≤ endCard) (enough : 7 ≤ i + fuel) (table : Table) (c : Nat) :
    remainderLoop nWords (s + 1) endCard fuel i (s + 16 ^ i) table c =
      if s + 16 ^ i ≤ c ∧ c ≤ endCard then nWords + Nat.log 16 (c - s) else table c := by
  have power : i < 7 := (Nat.pow_lt_pow_iff_right (by decide)).mp (by omega : 16 ^ i < 16 ^ 7)
  induction fuel generalizing i table with
  | zero => omega
  | succ fuel ih =>
    have positive : 0 < 16 ^ i := Nat.pow_pos (by decide)
    have reachEq : s + 1 - 1 + (powerToCardsBack (i + 1) - 1) = s + 16 ^ (i + 1) - 1 := by
      rw [powerToCardsBack_eq (by omega)]
      omega
    have here {c : Nat} (low : s + 16 ^ i ≤ c) (high : c < s + 16 ^ (i + 1)) :
        Nat.log 16 (c - s) = i := log_eq (by omega) (by omega)
    simp only [remainderLoop, reachEq]
    split
    next last =>
      by_cases inside : s + 16 ^ i ≤ c ∧ c ≤ endCard
      · rw [setOffsetRange_of_mem inside, if_pos inside, here inside.1 (by omega)]
      · rw [setOffsetRange_of_not_mem inside, if_neg inside]
    next more =>
      have next : s + 16 ^ (i + 1) - 1 + 1 = s + 16 ^ (i + 1) := by omega
      have power' : i + 1 < 7 :=
        (Nat.pow_lt_pow_iff_right (by decide)).mp (by omega : 16 ^ (i + 1) < 16 ^ 7)
      rw [next, ih (by omega) (by omega) _ power']
      by_cases later : s + 16 ^ (i + 1) ≤ c ∧ c ≤ endCard
      · rw [if_pos later, if_pos ⟨by omega, later.2⟩]
      · rw [if_neg later]
        by_cases inside : s + 16 ^ i ≤ c ∧ c ≤ endCard
        · rw [if_pos inside, setOffsetRange_of_mem ⟨inside.1, by omega⟩, here inside.1 (by omega)]
        · rw [if_neg inside, setOffsetRange_of_not_mem (by omega)]

theorem setRemainderToPointToStartIncl_eq {s endCard : Nat} (short : endCard < s + 16 ^ 7)
    (table : Table) (c : Nat) :
    setRemainderToPointToStartIncl nWords table (s + 1) endCard c =
      if s < c ∧ c ≤ endCard then nWords + Nat.log 16 (c - s) else table c := by
  rw [setRemainderToPointToStartIncl]
  split
  next none => exact (if_neg (by omega)).symm
  next some =>
    exact remainderLoop_eq (i := 0) short (by omega) (by decide) table c

/-- The remainder from one card on up to and including another one. -/
theorem setRemainderToPointToStart_eq (positive : 0 < nWords) {s endCard : Nat}
    (some : s + 1 ≤ endCard) (short : endCard < s + 16 ^ 7) (table : Table) (c : Nat) :
    setRemainderToPointToStart nWords table ((s + 1) * nWords) (endCard * nWords + nWords) c =
      if s < c ∧ c ≤ endCard then nWords + Nat.log 16 (c - s) else table c := by
  have first : (s + 1) * nWords / nWords = s + 1 := Nat.mul_div_cancel _ positive
  have last : (endCard * nWords + nWords - 1) / nWords = endCard := by
    refine Nat.div_eq_of_lt_le (by omega) ?_
    rw [Nat.succ_mul]
    omega
  have order : (s + 1) * nWords ≤ endCard * nWords := Nat.mul_le_mul_right _ some
  rw [setRemainderToPointToStart, if_neg (by omega), first, last]
  exact setRemainderToPointToStartIncl_eq short table c

end BlockOffsets
