import Mathlib.Algebra.Order.Ring.Int
import Mathlib.Data.BitVec
import Mathlib.Tactic.IntervalCases
import TransGC.OffsetDigits

/-!
# Compressed streams of debug information

`CompressedWriteStream` writes integers in one to five bytes: a byte below 192 is the last one,
and each other byte carries six bits. Signed integers are folded first, and the bits of
floating-point numbers are reversed. The buffer doubles when it is full.

Positions and sizes are of the type `int`. A size that does not fit in it cannot be allocated,
and the VM exits. Arrays come with arbitrary contents.
-/

namespace CompressedStreams

open OffsetDigits Function List Option

/-! ### Codes -/

/-- Number of low codes. -/
def lowCodes : Nat := 192

/-- The logarithm of the number of high codes. -/
def lgH : Nat := 6

/-- Number of high codes. -/
def highCodes : Nat := 2 ^ lgH

/-- Bytes are numbered from 0 to this. -/
def maxI : Nat := 4

def encodeSign (value : BitVec 32) : BitVec 32 := value <<< 1 ^^^ value.sshiftRight 31

def decodeSign (value : BitVec 32) : BitVec 32 := value >>> 1 ^^^ -(value &&& 1)

def reverseInt (i : BitVec 32) : BitVec 32 :=
  let i := (i &&& 0x55555555) <<< 1 ||| i >>> 1 &&& 0x55555555
  let i := (i &&& 0x33333333) <<< 2 ||| i >>> 2 &&& 0x33333333
  let i := (i &&& 0x0f0f0f0f) <<< 4 ||| i >>> 4 &&& 0x0f0f0f0f
  i <<< 24 ||| (i &&& 0xff00) <<< 8 ||| i >>> 8 &&& 0xff00 ||| i >>> 24

def jlongFrom (high low : BitVec 32) : BitVec 64 := high ++ low

def high (value : BitVec 64) : BitVec 32 := (value >>> 32).setWidth 32

def low (value : BitVec 64) : BitVec 32 := value.setWidth 32

/-! ### The reader -/

structure ReadStream where
  buffer : Nat → BitVec 8
  position : Nat

namespace ReadStream

/-- The loop of `read_int_mb` from `position` on, with the number of bytes that may follow. -/
def readLoop (buffer : Nat → BitVec 8) : Nat → Nat → BitVec 32 → Nat → BitVec 32 × Nat
  | 0, position, sum, shift => (sum + (buffer position).setWidth 32 <<< shift, position + 1)
  | left + 1, position, sum, shift =>
    let byte := buffer position
    let sum := sum + byte.setWidth 32 <<< shift
    if byte.toNat < lowCodes then (sum, position + 1)
    else readLoop buffer left (position + 1) sum (shift + lgH)

def readInt (r : ReadStream) : BitVec 32 × ReadStream :=
  let byte := r.buffer r.position
  if byte.toNat < lowCodes then (byte.setWidth 32, { r with position := r.position + 1 })
  else
    let (sum, position) :=
      readLoop r.buffer (maxI - 1) (r.position + 1) (byte.setWidth 32) lgH
    (sum, { r with position })

def readSignedInt (r : ReadStream) : BitVec 32 × ReadStream :=
  let (value, r) := r.readInt
  (decodeSign value, r)

def readFloat (r : ReadStream) : BitVec 32 × ReadStream :=
  let (value, r) := r.readInt
  (reverseInt value, r)

def readDouble (r : ReadStream) : BitVec 64 × ReadStream :=
  let (rh, r) := r.readInt
  let (rl, r) := r.readInt
  (jlongFrom (reverseInt rh) (reverseInt rl), r)

def readLong (r : ReadStream) : BitVec 64 × ReadStream :=
  let (low, r) := r.readSignedInt
  let (high, r) := r.readSignedInt
  (jlongFrom high low, r)

end ReadStream

/-! ### The writer -/

structure WriteStream where
  buffer : Nat → BitVec 8
  position : Nat
  size : Nat

/-- The contents of a new array of the given size. -/
abbrev Fresh := Nat → Nat → BitVec 8

namespace WriteStream

variable (fresh : Fresh)

def new (initialSize : Nat) : WriteStream := ⟨fresh initialSize, 0, initialSize⟩

def full (w : WriteStream) : Bool := w.position ≥ w.size

def grow (w : WriteStream) : Option WriteStream :=
  if w.size * 2 < 2 ^ 31 then
    some { w with
      buffer := fun i => if i < w.position then w.buffer i else fresh (w.size * 2) i
      size := w.size * 2 }
  else none

/-- There is no result if the byte would be stored behind the buffer. -/
def store (w : WriteStream) (byte : BitVec 8) : Option WriteStream :=
  if w.position < w.size then
    some { w with buffer := update w.buffer w.position byte, position := w.position + 1 }
  else none

def write (w : WriteStream) (byte : BitVec 8) : Option WriteStream := do
  let w ← if w.full then w.grow fresh else some w
  w.store byte

/-- The loop of `write_int_mb`; the last argument is the number of bytes that may follow. -/
def writeLoop : Nat → WriteStream → BitVec 32 → Option WriteStream
  | 0, w, sum => w.write fresh (sum.setWidth 8)
  | left + 1, w, sum =>
    if sum.toNat < lowCodes then w.write fresh (sum.setWidth 8)
    else do
      let sum := sum - BitVec.ofNat 32 lowCodes
      let byte := BitVec.ofNat 32 lowCodes + sum % BitVec.ofNat 32 highCodes
      let w ← w.write fresh (byte.setWidth 8)
      writeLoop left w (sum >>> lgH)

def writeInt (w : WriteStream) (value : BitVec 32) : Option WriteStream :=
  if value.toNat < lowCodes ∧ w.full = false then w.store (value.setWidth 8)
  else writeLoop fresh maxI w value

def writeSignedInt (w : WriteStream) (value : BitVec 32) : Option WriteStream :=
  w.writeInt fresh (encodeSign value)

def writeFloat (w : WriteStream) (bits : BitVec 32) : Option WriteStream :=
  w.writeInt fresh (reverseInt bits)

def writeDouble (w : WriteStream) (bits : BitVec 64) : Option WriteStream := do
  let w ← w.writeInt fresh (reverseInt (high bits))
  w.writeInt fresh (reverseInt (low bits))

def writeLong (w : WriteStream) (value : BitVec 64) : Option WriteStream := do
  let w ← w.writeSignedInt fresh (low value)
  w.writeSignedInt fresh (high value)

end WriteStream

/-! ### Sequences -/

/-- What is written or read; floating-point numbers are given by their bits. -/
inductive Item
  | int (value : BitVec 32)
  | signedInt (value : BitVec 32)
  | long (value : BitVec 64)
  | float (bits : BitVec 32)
  | double (bits : BitVec 64)
deriving DecidableEq, Repr

inductive Kind
  | int | signedInt | long | float | double
deriving DecidableEq, Repr

def Item.kind : Item → Kind
  | int _ => .int
  | signedInt _ => .signedInt
  | long _ => .long
  | float _ => .float
  | double _ => .double

def WriteStream.put (fresh : Fresh) (w : WriteStream) : Item → Option WriteStream
  | .int value => w.writeInt fresh value
  | .signedInt value => w.writeSignedInt fresh value
  | .long value => w.writeLong fresh value
  | .float bits => w.writeFloat fresh bits
  | .double bits => w.writeDouble fresh bits

def ReadStream.get (r : ReadStream) : Kind → Item × ReadStream
  | .int => (.int r.readInt.1, r.readInt.2)
  | .signedInt => (.signedInt r.readSignedInt.1, r.readSignedInt.2)
  | .long => (.long r.readLong.1, r.readLong.2)
  | .float => (.float r.readFloat.1, r.readFloat.2)
  | .double => (.double r.readDouble.1, r.readDouble.2)

def WriteStream.putAll (fresh : Fresh) : WriteStream → List Item → Option WriteStream
  | w, [] => some w
  | w, item :: rest => do
    let w ← w.put fresh item
    putAll fresh w rest

def ReadStream.getAll : ReadStream → List Kind → List Item × ReadStream
  | r, [] => ([], r)
  | r, kind :: rest =>
    let (item, r) := r.get kind
    let (items, r) := r.getAll rest
    (item :: items, r)

/-! ### The codes are undone -/

theorem sign_fill (value : BitVec 32) :
    value.sshiftRight 31 = if value.getLsbD 31 then BitVec.allOnes 32 else 0#32 := by
  apply BitVec.eq_of_getLsbD_eq
  intro i inside
  rw [BitVec.getLsbD_sshiftRight, BitVec.msb_eq_getLsbD_last]
  by_cases first : i = 0
  · subst first
    cases value.getLsbD 31 <;> simp
  · have outside : ¬ 31 + i < 32 := by omega
    cases value.getLsbD 31 <;> simp [inside, outside, -BitVec.reduceAllOnes]

theorem neg_and_one (value : BitVec 32) :
    -(value &&& 1) = if value.getLsbD 0 then BitVec.allOnes 32 else 0#32 := by
  have bit : value &&& 1 = if value.getLsbD 0 then 1#32 else 0#32 := by
    apply BitVec.eq_of_getLsbD_eq
    intro i inside
    rw [BitVec.getLsbD_and]
    by_cases first : i = 0
    · subst first
      cases value.getLsbD 0 <;> rfl
    · cases value.getLsbD 0 <;> simp [first]
  rw [bit]
  cases value.getLsbD 0 <;> rfl

theorem decodeSign_encodeSign (value : BitVec 32) : decodeSign (encodeSign value) = value := by
  have odd : (encodeSign value).getLsbD 0 = value.getLsbD 31 := by
    rw [encodeSign, sign_fill]
    cases value.getLsbD 31 <;> simp
  rw [decodeSign, neg_and_one, odd, encodeSign, sign_fill]
  apply BitVec.eq_of_getLsbD_eq
  intro i inside
  by_cases last : i = 31
  · subst last
    cases value.getLsbD 31 <;> simp
  · have next : 1 + i < 32 := by omega
    cases value.getLsbD 31 <;> simp [inside, next, -BitVec.reduceAllOnes]

/-- The groups of `k` bits at the positions in the mask change places with their neighbours. -/
theorem getLsbD_swap {k : Nat} {mask : BitVec 32}
    (groups : ∀ j : Fin 32, if mask.getLsbD j then
        (k ≤ j.val → mask.getLsbD (j - k) = false) ∧ j.val ^^^ k = k + j
      else k ≤ j.val ∧ mask.getLsbD (j - k) = true ∧ j.val ^^^ k = j - k)
    (i : BitVec 32) {j : Nat} (inside : j < 32) :
    ((i &&& mask) <<< k ||| i >>> k &&& mask).getLsbD j = i.getLsbD (j ^^^ k) := by
  have group := groups ⟨j, inside⟩
  simp only [BitVec.getLsbD_or, BitVec.getLsbD_and, BitVec.getLsbD_shiftLeft,
    BitVec.getLsbD_ushiftRight, inside, decide_true, Bool.true_and]
  split at group
  next here =>
    rw [group.2, here, Bool.and_true]
    by_cases shifted : j < k
    · simp [shifted]
    · simp [group.1 (le_of_not_gt shifted)]
  next there =>
    rw [group.2.2, group.2.1]
    simp [there, Nat.not_lt.mpr group.1]

theorem getLsbD_reverseInt (i : BitVec 32) {j : Nat} (inside : j < 32) :
    (reverseInt i).getLsbD j = i.getLsbD (j ^^^ 31) := by
  have range : ∀ j : Fin 32, j.val ^^^ 24 < 32 ∧ j.val ^^^ 24 ^^^ 4 < 32 ∧
      j.val ^^^ 24 ^^^ 4 ^^^ 2 < 32 ∧ j.val ^^^ 24 ^^^ 4 ^^^ 2 ^^^ 1 = j.val ^^^ 31 := by decide
  obtain ⟨bytes, fours, twos, all⟩ := range ⟨j, inside⟩
  have swapBytes (i : BitVec 32) : (i <<< 24 ||| (i &&& 0xff00) <<< 8 ||| i >>> 8 &&& 0xff00 |||
      i >>> 24).getLsbD j = i.getLsbD (j ^^^ 24) := by
    interval_cases j <;> simp
  unfold reverseInt
  rw [swapBytes, getLsbD_swap (by decide) _ bytes, getLsbD_swap (by decide) _ fours,
    getLsbD_swap (by decide) _ twos, all]

theorem reverseInt_reverseInt (i : BitVec 32) : reverseInt (reverseInt i) = i := by
  apply BitVec.eq_of_getLsbD_eq
  intro j inside
  have back : ∀ j : Fin 32, j.val ^^^ 31 < 32 ∧ j.val ^^^ 31 ^^^ 31 = j.val := by decide
  obtain ⟨range, same⟩ := back ⟨j, inside⟩
  rw [getLsbD_reverseInt _ inside, getLsbD_reverseInt _ range, same]

theorem jlongFrom_high_low (value : BitVec 64) : jlongFrom (high value) (low value) = value := by
  apply BitVec.eq_of_getLsbD_eq
  intro i inside
  rw [jlongFrom, BitVec.getLsbD_append]
  by_cases lower : i < 32
  · simp [low, lower]
  · have upper : i - 32 < 32 := by omega
    have index : 32 + (i - 32) = i := by omega
    simp [high, lower, upper, index]

/-! ### Bytes in a buffer -/

/-- The bytes of an integer. -/
def codes (value : BitVec 32) : List (BitVec 8) :=
  (digits lowCodes highCodes maxI value.toNat).map (BitVec.ofNat 8)

theorem length_codes (value : BitVec 32) : 0 < (codes value).length ∧ (codes value).length ≤ 5 := by
  rw [codes, length_map]
  exact ⟨length_digits_pos, length_digits_le⟩

/-- The buffer has the bytes from the position on. -/
def Holds (buffer : Nat → BitVec 8) (position : Nat) (bytes : List (BitVec 8)) : Prop :=
  ∀ i byte, bytes[i]? = some byte → buffer (position + i) = byte

variable {buffer : Nat → BitVec 8} {position : Nat} {first second : List (BitVec 8)}

theorem holds_cons {byte : BitVec 8} {bytes : List (BitVec 8)} :
    Holds buffer position (byte :: bytes) ↔
      buffer position = byte ∧ Holds buffer (position + 1) bytes := by
  constructor
  · intro holds
    refine ⟨holds 0 byte rfl, ?_⟩
    intro i byte' entry
    rw [add_assoc, add_comm 1 i]
    exact holds (i + 1) byte' entry
  · rintro ⟨here, later⟩ i byte' entry
    cases i with
    | zero =>
      cases entry
      exact here
    | succ i =>
      rw [add_comm i 1, ← add_assoc]
      exact later i byte' entry

theorem holds_append :
    Holds buffer position (first ++ second) ↔
      Holds buffer position first ∧ Holds buffer (position + first.length) second := by
  induction first generalizing position with
  | nil =>
    refine ⟨fun holds => ⟨fun i byte entry => ?_, holds⟩, fun holds => holds.2⟩
    cases entry
  | cons byte bytes ih =>
    rw [cons_append, holds_cons, holds_cons, ih, and_assoc, length_cons,
      add_assoc position 1, add_comm 1]

/-! ### Reading -/

theorem setWidth_shift {digit : Nat} (byte : digit < 256) (shift : Nat) :
    (BitVec.ofNat 8 digit).setWidth 32 <<< shift = BitVec.ofNat 32 (2 ^ shift * digit) := by
  apply BitVec.eq_of_toNat_eq
  have small : digit % 2 ^ 8 = digit := Nat.mod_eq_of_lt byte
  have fits : digit % 2 ^ 32 = digit := Nat.mod_eq_of_lt (by omega)
  rw [BitVec.toNat_shiftLeft, BitVec.toNat_setWidth, BitVec.toNat_ofNat, BitVec.toNat_ofNat, small,
    fits, Nat.shiftLeft_eq, mul_comm]

/-- The loop adds the number that the bytes stand for, shifted. -/
theorem readLoop_eq {left shift : Nat} {sum : BitVec 32} {ds : List Nat}
    (coded : Coded lowCodes left ds) (bytes : ∀ digit ∈ ds, digit < 256)
    (holds : Holds buffer position (ds.map (BitVec.ofNat 8))) :
    ReadStream.readLoop buffer left position sum shift =
      (sum + BitVec.ofNat 32 (2 ^ shift * value highCodes ds), position + ds.length) := by
  induction coded generalizing position sum shift with
  | @rest digit =>
    obtain ⟨here, -⟩ := holds_cons.mp holds
    have small := bytes digit mem_cons_self
    rw [ReadStream.readLoop, here, setWidth_shift small]
    simp [value]
  | @small left digit below =>
    obtain ⟨here, -⟩ := holds_cons.mp holds
    have small := bytes digit mem_cons_self
    have toNat : (BitVec.ofNat 8 digit).toNat = digit := Nat.mod_eq_of_lt small
    simp only [ReadStream.readLoop, here, toNat, below, if_true, setWidth_shift small]
    simp [value]
  | @more left digit later above coded ih =>
    obtain ⟨here, there⟩ := holds_cons.mp holds
    have small := bytes digit mem_cons_self
    have toNat : (BitVec.ofNat 8 digit).toNat = digit := Nat.mod_eq_of_lt small
    have shifted : 2 ^ (shift + lgH) = 2 ^ shift * highCodes := pow_add ..
    simp only [ReadStream.readLoop, here, toNat, Nat.not_lt.mpr above, if_false,
      setWidth_shift small]
    rw [ih (fun digit mem => bytes digit (mem_cons_of_mem _ mem)) there, shifted, value,
      mul_add, BitVec.ofNat_add, BitVec.add_assoc, mul_assoc, length_cons,
      add_assoc, add_comm 1]

theorem bytes_lt (value : BitVec 32) :
    ∀ digit ∈ digits lowCodes highCodes maxI value.toNat, digit < 256 := by
  refine digits_lt (by decide) ?_
  have fits : 2 ^ 32 ≤ capacity lowCodes highCodes (lowCodes + highCodes) maxI := by decide
  exact lt_of_lt_of_le value.isLt fits

theorem readInt_eq_loop (r : ReadStream) :
    r.readInt = ((ReadStream.readLoop r.buffer maxI r.position 0 0).1,
      { r with position := (ReadStream.readLoop r.buffer maxI r.position 0 0).2 }) := by
  have plain (byte : BitVec 8) : (0 : BitVec 32) + byte.setWidth 32 <<< 0 = byte.setWidth 32 := by
    simp
  simp only [ReadStream.readInt, maxI, ReadStream.readLoop, plain, zero_add]
  split <;> rfl

theorem readInt_codes {r : ReadStream} {value : BitVec 32}
    (holds : Holds r.buffer r.position (codes value)) :
    r.readInt = (value, { r with position := r.position + (codes value).length }) := by
  rw [readInt_eq_loop, readLoop_eq coded_digits (bytes_lt value) holds, value_digits, codes,
    length_map]
  simp

/-! ### Writing -/

/-- The writer's position lies in the buffer, which is not empty. -/
structure Ready (w : WriteStream) : Prop where
  positive : 0 < w.size
  within : w.position ≤ w.size

/-- The bytes were added behind those that were there. -/
structure Appends (w w' : WriteStream) (bytes : List (BitVec 8)) : Prop where
  position : w'.position = w.position + bytes.length
  kept : ∀ i < w.position, w'.buffer i = w.buffer i
  added : Holds w'.buffer w.position bytes

/-- Writing succeeds at least as long as the size of the buffer, which is doubled, is an `int`. -/
structure Outcome (w : WriteStream) (bytes : List (BitVec 8)) (result : Option WriteStream) :
    Prop where
  appends : ∀ w', result = some w' → Appends w w' bytes ∧ Ready w'
  succeeds : w.position + bytes.length ≤ 2 ^ 30 → result.isSome

variable {fresh : Fresh} {w w' : WriteStream}

theorem Appends.append {w'' : WriteStream} (front : Appends w w' first)
    (back : Appends w' w'' second) : Appends w w'' (first ++ second) where
  position := by rw [back.position, front.position, length_append, add_assoc]
  kept i below := by
    have still : i < w'.position := by
      rw [front.position]
      omega
    rw [back.kept i still, front.kept i below]
  added := by
    refine holds_append.mpr ⟨?_, ?_⟩
    · intro i byte entry
      have inside : i < first.length := (List.getElem?_eq_some_iff.mp entry).1
      rw [back.kept _ (by rw [front.position]; omega)]
      exact front.added i byte entry
    · rw [← front.position]
      exact back.added

theorem Outcome.bind {f : WriteStream → Option WriteStream} {result : Option WriteStream}
    (front : Outcome w first result)
    (back : ∀ w', Ready w' → Outcome w' second (f w')) :
    Outcome w (first ++ second) (result.bind f) where
  appends w'' done := by
    obtain ⟨w', reached, rest⟩ := bind_eq_some_iff.mp done
    obtain ⟨added, ready⟩ := front.appends w' reached
    obtain ⟨more, last⟩ := (back w' ready).appends w'' rest
    exact ⟨added.append more, last⟩
  succeeds room := by
    rw [length_append] at room
    obtain ⟨w', reached⟩ := isSome_iff_exists.mp (front.succeeds (by omega))
    obtain ⟨added, ready⟩ := front.appends w' reached
    rw [reached]
    exact (back w' ready).succeeds (by rw [added.position]; omega)

theorem store_outcome (byte : BitVec 8) (room : w.position < w.size) :
    Outcome w [byte] (w.store byte) := by
  rw [WriteStream.store, if_pos room]
  constructor
  · rintro w' ⟨⟩
    refine ⟨⟨rfl, ?_, ?_⟩, ⟨Nat.lt_of_le_of_lt (Nat.zero_le _) room, room⟩⟩
    · intro i below
      exact update_of_ne (ne_of_lt below) ..
    · intro i byte' entry
      obtain ⟨inside, rfl⟩ := List.getElem?_eq_some_iff.mp entry
      obtain rfl : i = 0 := Nat.lt_one_iff.mp inside
      exact update_self ..
  · exact fun _ => rfl

theorem write_outcome (ready : Ready w) (byte : BitVec 8) :
    Outcome w [byte] (w.write fresh byte) := by
  have positive := ready.positive
  have within := ready.within
  rw [WriteStream.write, bind_eq_bind]
  by_cases full : w.full = true
  · have reached : w.size ≤ w.position := of_decide_eq_true full
    rw [if_pos full, WriteStream.grow]
    split
    next fits =>
      -- the bytes below the position are copied
      obtain ⟨appends, succeeds⟩ := store_outcome (w := ⟨fun i => if i < w.position then w.buffer i
        else fresh (w.size * 2) i, w.position, w.size * 2⟩) byte (by simp only; omega)
      refine ⟨?_, succeeds⟩
      intro w' done
      obtain ⟨⟨position, kept, added⟩, last⟩ := appends w' done
      refine ⟨⟨position, ?_, added⟩, last⟩
      intro i below
      rw [kept i below]
      exact if_pos below
    next large =>
      refine ⟨(fun w' done => nomatch done), fun room => ?_⟩
      simp only [length_singleton] at room
      omega
  · have room : w.position < w.size := by
      rw [WriteStream.full, decide_eq_true_eq] at full
      omega
    rw [if_neg full]
    exact store_outcome byte room

theorem writeLoop_outcome {left : Nat} (ready : Ready w) (sum : BitVec 32) :
    Outcome w ((digits lowCodes highCodes left sum.toNat).map (BitVec.ofNat 8))
      (WriteStream.writeLoop fresh left w sum) := by
  induction left generalizing w sum with
  | zero => exact write_outcome ready _
  | succ left ih =>
    rw [digits, WriteStream.writeLoop]
    split
    next small => exact write_outcome ready _
    next large =>
      have bound : lowCodes ≤ sum.toNat := le_of_not_gt large
      have less : (sum - BitVec.ofNat 32 lowCodes).toNat = sum.toNat - lowCodes := by
        rw [BitVec.toNat_sub_of_le bound]
        rfl
      have byte : (BitVec.ofNat 32 lowCodes + (sum - BitVec.ofNat 32 lowCodes) %
          BitVec.ofNat 32 highCodes).setWidth 8 =
            BitVec.ofNat 8 (lowCodes + (sum.toNat - lowCodes) % highCodes) := by
        apply BitVec.eq_of_toNat_eq
        have digit : (sum.toNat - lowCodes) % highCodes < highCodes := Nat.mod_lt _ (by decide)
        rw [BitVec.toNat_setWidth, BitVec.toNat_add, BitVec.toNat_umod, less, BitVec.toNat_ofNat,
          BitVec.toNat_ofNat, BitVec.toNat_ofNat]
        simp only [lowCodes, highCodes, lgH, Nat.reducePow, Nat.reduceMod] at digit ⊢
        omega
      have rest : ((sum - BitVec.ofNat 32 lowCodes) >>> lgH).toNat =
          (sum.toNat - lowCodes) / highCodes := by
        rw [BitVec.toNat_ushiftRight, less, Nat.shiftRight_eq_div_pow]
        rfl
      dsimp only
      rw [map_cons, byte, ← rest]
      exact (write_outcome ready _).bind fun w' ready' => ih ready' _

theorem writeInt_outcome (ready : Ready w) (value : BitVec 32) :
    Outcome w (codes value) (w.writeInt fresh value) := by
  rw [WriteStream.writeInt]
  split
  next short =>
    have room : w.position < w.size := by
      have := of_decide_eq_false short.2
      omega
    have one : codes value = [value.setWidth 8] := by
      simp only [codes, maxI, digits, if_pos short.1, map_cons, map_nil]
      rfl
    rw [one]
    exact store_outcome _ room
  next => exact writeLoop_outcome ready value

/-! ### Items -/

/-- The integers that are written for an item. -/
def Item.ints : Item → List (BitVec 32)
  | int value => [value]
  | signedInt value => [encodeSign value]
  | long value => [encodeSign (low value), encodeSign (high value)]
  | float bits => [reverseInt bits]
  | double bits => [reverseInt (high bits), reverseInt (low bits)]

def Item.codes (item : Item) : List (BitVec 8) := item.ints.flatMap CompressedStreams.codes

theorem put_outcome (ready : Ready w) (item : Item) : Outcome w item.codes (w.put fresh item) := by
  cases item with
  | long | double =>
    rw [Item.codes, Item.ints, flatMap_cons, flatMap_singleton]
    exact (writeInt_outcome ready _).bind fun w' ready' => writeInt_outcome ready' _
  | _ =>
    rw [Item.codes, Item.ints, flatMap_singleton]
    exact writeInt_outcome ready _

theorem get_codes {r : ReadStream} {item : Item} (holds : Holds r.buffer r.position item.codes) :
    r.get item.kind = (item, { r with position := r.position + item.codes.length }) := by
  cases item with
  | int value =>
    rw [Item.codes, Item.ints, flatMap_singleton] at holds ⊢
    simp only [Item.kind, ReadStream.get, readInt_codes holds]
  | signedInt value =>
    rw [Item.codes, Item.ints, flatMap_singleton] at holds ⊢
    simp only [Item.kind, ReadStream.get, ReadStream.readSignedInt, readInt_codes holds,
      decodeSign_encodeSign]
  | float bits =>
    rw [Item.codes, Item.ints, flatMap_singleton] at holds ⊢
    simp only [Item.kind, ReadStream.get, ReadStream.readFloat, readInt_codes holds,
      reverseInt_reverseInt]
  | long value =>
    rw [Item.codes, Item.ints, flatMap_cons, flatMap_singleton] at holds ⊢
    obtain ⟨front, back⟩ := holds_append.mp holds
    have second : ({ r with position := r.position + (codes (encodeSign (low value))).length } :
        ReadStream).readInt = _ := readInt_codes back
    simp only [Item.kind, ReadStream.get, ReadStream.readLong, ReadStream.readSignedInt,
      readInt_codes front, second, decodeSign_encodeSign, jlongFrom_high_low, length_append,
      add_assoc]
  | double bits =>
    rw [Item.codes, Item.ints, flatMap_cons, flatMap_singleton] at holds ⊢
    obtain ⟨front, back⟩ := holds_append.mp holds
    have second : ({ r with position := r.position + (codes (reverseInt (high bits))).length } :
        ReadStream).readInt = _ := readInt_codes back
    simp only [Item.kind, ReadStream.get, ReadStream.readDouble, readInt_codes front, second,
      reverseInt_reverseInt, jlongFrom_high_low, length_append, add_assoc]

theorem putAll_outcome (ready : Ready w) (items : List Item) :
    Outcome w (items.flatMap Item.codes) (w.putAll fresh items) := by
  induction items generalizing w with
  | nil =>
    refine ⟨?_, fun _ => rfl⟩
    rintro w' ⟨⟩
    refine ⟨⟨rfl, fun i _ => rfl, ?_⟩, ready⟩
    intro i byte entry
    cases entry
  | cons item items ih =>
    exact (put_outcome ready item).bind fun w' ready' => ih ready'

theorem getAll_codes {r : ReadStream} {items : List Item}
    (holds : Holds r.buffer r.position (items.flatMap Item.codes)) :
    r.getAll (items.map Item.kind) =
      (items, { r with position := r.position + (items.flatMap Item.codes).length }) := by
  induction items generalizing r with
  | nil => rfl
  | cons item items ih =>
    rw [flatMap_cons] at holds ⊢
    obtain ⟨front, back⟩ := holds_append.mp holds
    have rest : ({ r with position := r.position + item.codes.length } : ReadStream).getAll
        (items.map Item.kind) = _ := ih back
    simp only [map_cons, ReadStream.getAll, get_codes front, rest, length_append, add_assoc]

theorem new_ready {initialSize : Nat} (positive : 1 ≤ initialSize) :
    Ready (WriteStream.new fresh initialSize) := ⟨positive, Nat.zero_le _⟩

theorem length_ints_le (ints : List (BitVec 32)) :
    ints.length ≤ (ints.flatMap codes).length ∧ (ints.flatMap codes).length ≤ 5 * ints.length := by
  induction ints with
  | nil => exact ⟨le_refl 0, le_refl 0⟩
  | cons value ints ih =>
    have := length_codes value
    rw [flatMap_cons, length_append, length_cons]
    omega

theorem length_flatMap_codes_le (items : List Item) :
    (items.flatMap Item.codes).length ≤ 5 * (items.flatMap Item.ints).length := by
  have flat : items.flatMap Item.codes = (items.flatMap Item.ints).flatMap codes := by
    rw [flatMap_assoc]
    rfl
  rw [flat]
  exact (length_ints_le _).2

/-- Whatever is written is read back, up to the writer's position; every integer takes one to five
bytes; and writing succeeds if five bytes for each fit in half the range of the positions. -/
theorem write_read_round_trip (fresh : Fresh) {initialSize : Nat} (positive : 1 ≤ initialSize)
    (items : List Item) :
    (∀ w, (WriteStream.new fresh initialSize).putAll fresh items = some w →
      (ReadStream.mk w.buffer 0).getAll (items.map Item.kind) = (items, ⟨w.buffer, w.position⟩)) ∧
    (∀ front item back w w', items = front ++ item :: back →
      (WriteStream.new fresh initialSize).putAll fresh front = some w →
      w.put fresh item = some w' →
      w.position + item.ints.length ≤ w'.position ∧
        w'.position ≤ w.position + 5 * item.ints.length) ∧
    (5 * (items.flatMap Item.ints).length ≤ 2 ^ 30 →
      ((WriteStream.new fresh initialSize).putAll fresh items).isSome) := by
  have ready : Ready (WriteStream.new fresh initialSize) := new_ready positive
  refine ⟨?_, ?_, ?_⟩
  · intro w done
    obtain ⟨appends, -⟩ := (putAll_outcome ready items).appends w done
    rw [getAll_codes appends.added, appends.position]
    rfl
  · intro front item back w w' _ reached done
    obtain ⟨-, here⟩ := (putAll_outcome ready front).appends w reached
    obtain ⟨appends, -⟩ := (put_outcome here item).appends w' done
    have length := length_ints_le item.ints
    rw [appends.position, Item.codes]
    omega
  · intro room
    have length := length_flatMap_codes_le items
    refine (putAll_outcome ready items).succeeds ?_
    simp only [WriteStream.new]
    omega

/-- A buffer of one byte grows while it is written to. -/
theorem write_read_round_trip_grown :
    ((WriteStream.new (fun _ _ => 0) 1).putAll (fun _ _ => 0)
      [.int 191, .signedInt (-2), .long (2 ^ 63)]).isSome :=
  (write_read_round_trip (fun _ _ => 0) (by decide) _).2.2 (by decide)

end CompressedStreams
