import Mathlib.Logic.Function.Basic
import TransGC.EdenTable
import TransGC.MarkWord

/-!
# The heap as a graph of objects

The heap of a transaction-eden collection: objects at word addresses, each with a mark word, a
class that says which of its words are references, and its words. A word is named by its object
and offset, so two objects never share one; addresses matter only for the tests the collector
makes on them. Roots and weak JNI handles are slots outside every object.
-/
namespace ObjectHeap
open EdenTable MarkWord List Function

inductive Slot where
  | root (index : Nat)
  | weakRoot (index : Nat)
  | field (obj offset : Nat)
  deriving DecidableEq, Repr

/-- `REF_NONE` is the absence of a reference type. -/
inductive ReferenceType where
  | other
  | soft
  | weak
  | final
  | phantom
  deriving DecidableEq, Repr

/-- The size of the object, the offsets in its oop map, whether it is an array, its kind of
`java.lang.ref.Reference`, and the mark that `init_mark` gives an instance. Arrays of different
lengths count as different classes. -/
structure Klass where
  size : Nat
  oops : List Nat
  isArray : Bool
  reference : Option ReferenceType
  prototypeHeader : Nat

/-- In words, behind a header of two words. The `queue` field is an ordinary reference. -/
def referentOffset : Nat := 2

def nextOffset : Nat := 4

/-- The offsets of all references in an instance but the link of the discovered list. -/
def Klass.slots (klass : Klass) : List Nat :=
  if klass.reference.isSome then klass.oops ++ [referentOffset, nextOffset] else klass.oops

/-- The references that keep their target alive by themselves. -/
def Klass.strongSlots (klass : Klass) : List Nat :=
  if klass.reference.isSome then klass.oops ++ [nextOffset] else klass.oops

inductive Region where
  | gen0
  | gen1
  | old
  | perm
  deriving DecidableEq, Repr

inductive Card where
  | clean
  | dirty
  | youngergen
  | localToRemote
  deriving DecidableEq, Repr

/-- What lies at the addresses. -/
structure Memory where
  words : Slot → Nat
  mark : Nat → Nat
  klass : Nat → Klass

namespace Memory

variable (memory : Memory)

def isForwarded (a : Nat) : Bool := isMarked (memory.mark a)

/-- The words of an object, its mark and its class copied to another address. -/
def copy (a target : Nat) : Memory where
  words := fun s =>
    match s with
    | .field obj offset =>
      if obj = target then memory.words (.field a offset) else memory.words s
    | _ => memory.words s
  mark := update memory.mark target (memory.mark a)
  klass := update memory.klass target (memory.klass a)

def store (s : Slot) (value : Nat) : Memory :=
  { memory with words := update memory.words s value }

def forwardTo (a target : Nat) : Memory :=
  { memory with mark := update memory.mark a (encodePointerAsMark (8 * target)) }

end Memory

/-- Each reserved region has its own part of the card table; objects are in address order. -/
structure Heap extends Memory where
  cards : Region → Nat → Card
  gen0 : List Nat
  transNew : TransNewGeneration
  old : List Nat
  oldTop : Nat
  perm : List Nat

def Heap.edenObjects (heap : Heap) (id : Nat) : List Nat :=
  (heap.transNew.transEdens[id]?).elim [] TransEden.objects

/-- The fixed data of a collection of the eden `id`. `grants a` is the answer of Tenured when it is
asked for room for the object at `a`, `shouldClear` that of the soft reference policy. -/
structure Collector where
  id : Nat
  rootCount : Nat
  weakRootCount : Nat
  start : Region → Nat
  oldEnd : Nat
  edenBottom : Nat → Nat
  edenEnd : Nat → Nat
  useBiasedLocking : Bool
  shouldClear : Nat → Bool
  grants : Nat → Bool

namespace Collector

variable (c : Collector)

/-- `addr_to_gen_id`, with the permanent generation as the last one. -/
def regionOf (a : Nat) : Region :=
  if a < c.start .gen1 then .gen0
  else if a < c.start .old then .gen1
  else if a < c.start .perm then .old
  else .perm

/-- The boundaries of the scanning closures: the eden that is collected. -/
def inEden (a : Nat) : Bool := c.edenBottom c.id ≤ a && a < c.edenEnd c.id

/-- The mark of a forwarded object holds a byte address. -/
def forwardee (heap : Heap) (a : Nat) : Nat :=
  decodePointer c.useBiasedLocking (heap.mark a) / 8

/-- `get_trans_eden_id`; the null index -1 is `none`. -/
def transEdenId (heap : Heap) (a : Nat) : Option Nat :=
  (range heap.transNew.maxTransEden).find? fun i => c.edenBottom i ≤ a && a < c.edenEnd i

end Collector

/-! ### Cards -/

/-- Cards are 512 bytes. -/
def cardSizeInWords : Nat := 64

def cardFor (a : Nat) : Nat := a / cardSizeInWords

/-- Whether the walk over the non-clean cards hands the slot at `obj + offset` to its closure. An
array is looked at card by card, any other object from its first non-clean card to its end. -/
def onScannedCard (cards : Nat → Card) (isArray : Bool) (obj offset : Nat) : Bool :=
  if isArray then cards (cardFor (obj + offset)) != .clean
  else (range (cardFor (obj + offset) + 1)).any fun card =>
    cardFor obj ≤ card && cards card != .clean

theorem onScannedCard_of_nonClean {cards : Nat → Card} {isArray : Bool} {obj offset : Nat}
    (nonClean : cards (cardFor (obj + offset)) ≠ .clean) :
    onScannedCard cards isArray obj offset = true := by
  cases isArray with
  | true => simpa [onScannedCard] using nonClean
  | false =>
    have above : cardFor obj ≤ cardFor (obj + offset) := Nat.div_le_div_right (Nat.le_add_right _ _)
    simp only [onScannedCard, Bool.false_eq_true, if_false, any_eq_true, mem_range,
      Bool.and_eq_true, decide_eq_true_eq, bne_iff_ne]
    exact ⟨_, Nat.lt_succ_self _, above, nonClean⟩

def writeCard (cards : Region → Nat → Card) (region : Region) (a : Nat) (card : Card) :
    Region → Nat → Card :=
  update cards region (update (cards region) (cardFor a) card)

/-- `OopsInGenClosure::do_barrier` for a closure set to the given generation. -/
def Collector.doBarrier (c : Collector) (heap : Heap) (region : Region) (s : Slot) :
    Region → Nat → Card :=
  match s with
  | .field obj offset =>
    let value := heap.words s
    let cards :=
      if value < c.start region then writeCard heap.cards region (obj + offset) .youngergen
      else heap.cards
    if region = .gen0 ∧ c.regionOf value = .gen1 then
      writeCard cards region (obj + offset) .localToRemote
    else if region = .gen1 ∧ c.regionOf value = .gen1 ∧
        c.transEdenId heap (obj + offset) ≠ c.transEdenId heap value then
      writeCard cards region (obj + offset) .localToRemote
    else cards
  | _ => heap.cards

/-- No card becomes clean. -/
def Marks (cards cards' : Region → Nat → Card) : Prop :=
  ∀ region card, cards region card ≠ .clean → cards' region card ≠ .clean

@[simp]
theorem Marks.refl (cards : Region → Nat → Card) : Marks cards cards := fun _ _ marked => marked

@[simp]
theorem Marks.write {cards cards' : Region → Nat → Card} (marks : Marks cards cards')
    (region : Region) (a : Nat) {card : Card} (dirty : card ≠ .clean) :
    Marks cards (writeCard cards' region a card) := by
  intro other index marked
  have before := marks other index marked
  rw [writeCard, update_apply]
  split
  · rename_i same
    rw [← same, update_apply]
    split
    · exact dirty
    · exact before
  · exact before

theorem Collector.doBarrier_marks (c : Collector) (heap : Heap) (region : Region) (s : Slot) :
    Marks heap.cards (c.doBarrier heap region s) := by
  cases s with
  | field obj offset =>
    unfold Collector.doBarrier
    dsimp only
    split_ifs <;> simp
  | _ => exact .refl _

end ObjectHeap
