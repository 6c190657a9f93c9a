import Mathlib.Order.Nat
import Mathlib.Tactic.Common

/-!
# The mark word of an object

The bit fields of `markOopDesc` that the collectors read, on a 64-bit machine: two lock bits, the
bias bit above them, and the pointer a collector puts in place of the rest, a byte address.
-/
namespace MarkWord

def isMarked (mark : Nat) : Bool := mark % 4 == 3

def hasBiasPattern (mark : Nat) : Bool := mark % 8 == 5

def clearLockBits (mark : Nat) : Nat := mark - mark % 4

def setMarked (mark : Nat) : Nat := clearLockBits mark + 3

/-- No hash, no age, unlocked. -/
def prototype : Nat := 1

def encodePointerAsMark (pointer : Nat) : Nat := setMarked pointer

def decodePointer (useBiasedLocking : Bool) (mark : Nat) : Nat :=
  if useBiasedLocking && hasBiasPattern mark then 0 else clearLockBits mark

/-- A locked or inflated object has its header in the lock record or the monitor. -/
def hasDisplacedMark (mark : Nat) : Bool := mark % 2 == 0

/-- Where a displaced header lies: the mark without its monitor bit. -/
def displacedPointer (mark : Nat) : Nat := clearLockBits mark

def maxAge : Nat := 15

def age (mark : Nat) : Nat := mark / 8 % 16

def setAge (mark age' : Nat) : Nat := mark - 8 * age mark + 8 * (age' % 16)

def incrAge (mark : Nat) : Nat := if age mark = maxAge then mark else setAge mark (age mark + 1)

/-- `must_be_preserved_for_promotion_failure`, for a class with the given prototype header. -/
def mustBePreserved (useBiasedLocking : Bool) (mark prototypeHeader : Nat) : Bool :=
  if useBiasedLocking && (hasBiasPattern mark || hasBiasPattern prototypeHeader) then true
  else mark != prototype

variable {useBiasedLocking : Bool} {word mark : Nat}

@[simp] theorem isMarked_setMarked : isMarked (setMarked mark) = true := by
  simp only [isMarked, setMarked, clearLockBits, beq_iff_eq]
  omega

@[simp] theorem isMarked_encode : isMarked (encodePointerAsMark mark) = true := isMarked_setMarked

theorem decodePointer_of_unbiased (unbiased : hasBiasPattern mark = false) :
    decodePointer useBiasedLocking mark = clearLockBits mark := by
  simp [decodePointer, unbiased]

/-- A pointer is found again in a mark, whether or not the mark bits are set. -/
@[simp] theorem decode_encode :
    decodePointer useBiasedLocking (encodePointerAsMark (8 * word)) = 8 * word := by
  rw [decodePointer_of_unbiased]
  · simp only [encodePointerAsMark, setMarked, clearLockBits]
    omega
  · simp only [hasBiasPattern, encodePointerAsMark, setMarked, clearLockBits, beq_eq_false_iff_ne]
    omega

@[simp] theorem decode_pointer_word : decodePointer useBiasedLocking (8 * word) = 8 * word := by
  rw [decodePointer_of_unbiased]
  · simp only [clearLockBits]
    omega
  · simp only [hasBiasPattern, beq_eq_false_iff_ne]
    omega

@[simp] theorem isMarked_pointer_word : isMarked (8 * word) = false := by
  simp only [isMarked, beq_eq_false_iff_ne]
  omega

end MarkWord
