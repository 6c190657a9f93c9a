import TransGC.ObjectHeap

/-!
# Evacuating one transaction eden

`TransNewGeneration::collectTransEden` on the object heap: `gen_process_strong_roots` for
level 1, the followers closure, `process_discovered_references`, and the undo after a failed
promotion. `copy_to_survivor_space` promotes into Tenured or, if there is no room, forwards the
object to itself and scans it in place.

Discovered references are kept as lists; on the heap they are chained through `discovered`
fields, so a field is null exactly if its reference is on no list. Only Tenured allocates during
the scan, so its saved mark is the only one kept, as a number of objects. The loops run on fuel,
one round for each object of the eden and one to notice the end.
-/
namespace EdenScan
open EdenTable MarkWord ObjectHeap Function

/-- A collection in progress. -/
structure Scan extends Heap where
  savedMark : Nat
  promotionFailed : Bool
  preserved : List (Nat × Nat)
  failureStack : List Nat
  discovering : Bool
  discovered : ReferenceType → List Nat

namespace Scan

def store (σ : Scan) (s : Slot) (value : Nat) : Scan :=
  { σ with toMemory := σ.toMemory.store s value }

def forwardTo (σ : Scan) (a target : Nat) : Scan :=
  { σ with toMemory := σ.toMemory.forwardTo a target }

/-- The object copied to the top of Tenured. -/
def copyToTop (σ : Scan) (a : Nat) : Scan :=
  { σ with
    toMemory := σ.toMemory.copy a σ.oldTop
    old := σ.old ++ [σ.oldTop]
    oldTop := σ.oldTop + (σ.klass a).size }

def addDiscovered (σ : Scan) (kind : ReferenceType) (r : Nat) : Scan :=
  { σ with discovered := update σ.discovered kind (r :: σ.discovered kind) }

/-- `DiscoveredListIterator::remove`. -/
def removeDiscovered (σ : Scan) (kind : ReferenceType) (r : Nat) : Scan :=
  { σ with
    discovered := update σ.discovered kind
      ((σ.discovered kind).filter fun other => other ≠ r) }

end Scan

section Closures

variable (c : Collector)

/-- `Generation::promote` with Tenured as the next generation, which expands if need be. -/
def promote (σ : Scan) (a : Nat) : Option Scan :=
  if σ.oldTop + (σ.klass a).size ≤ c.oldEnd ∧ c.grants a = true then some (σ.copyToTop a)
  else none

def preserveMarkIfNecessary (σ : Scan) (a : Nat) : Scan :=
  { σ with
    preserved :=
      if mustBePreserved c.useBiasedLocking (σ.mark a) (σ.klass a).prototypeHeader then
        σ.preserved ++ [(a, σ.mark a)]
      else σ.preserved }

/-- `handle_promotion_failure` up to the drain. -/
def handlePromotionFailure (σ : Scan) (a : Nat) : Scan :=
  { (preserveMarkIfNecessary c σ a).forwardTo a a with
    promotionFailed := true
    failureStack := a :: σ.failureStack }

/-- `drain` is what happens with the failure stack: nothing while it is being drained. -/
def copyToSurvivorSpace (drain : Scan → Scan) (σ : Scan) (a : Nat) : Nat × Scan :=
  match promote c σ a with
  | some copied => (σ.oldTop, copied.forwardTo a σ.oldTop)
  | none => (a, drain (handlePromotionFailure c σ a))

/-- The common part of the closures, for a slot that points into the eden. -/
def redirect (drain : Scan → Scan) (σ : Scan) (s : Slot) : Scan :=
  let obj := σ.words s
  if σ.isForwarded obj then σ.store s (c.forwardee σ.toHeap obj)
  else
    let copied := copyToSurvivorSpace c drain σ obj
    copied.2.store s copied.1

def doBarrier (region : Region) (σ : Scan) (s : Slot) : Scan :=
  { σ with cards := c.doBarrier σ.toHeap region s }

/-- `FastScanClosure::do_oop_work`; the closure has a barrier if it is set to a generation. -/
def fastScan (drain : Scan → Scan) (barrier : Option Region) (σ : Scan) (s : Slot) : Scan :=
  if σ.words s = 0 then σ
  else
    let σ :=
      if c.inEden (σ.words s) then
        let σ := redirect c drain σ s
        barrier.elim σ fun region => doBarrier c region σ s
      else σ
    barrier.elim σ fun region => doBarrier c region σ s

/-- `discover_reference` under `ReferenceBasedDiscovery`: `none` if it returns false. -/
def discoverReference (σ : Scan) (r : Nat) (kind : ReferenceType) : Option Scan :=
  if σ.discovering = false then none
  else if σ.words (.field r nextOffset) ≠ 0 then none
  else if c.regionOf r ≠ .gen1 then none
  else if kind = .soft ∧ c.shouldClear r = false then none
  else if r ∈ σ.discovered kind then some σ
  else if kind = .other then none
  else some (σ.addDiscovered kind r)

/-- The reference is discovered, or its referent and `next` are treated as ordinary references. -/
def iterateReference (doOop : Scan → Slot → Scan) (σ : Scan) (obj : Nat) (kind : ReferenceType) :
    Scan :=
  let referent := σ.words (.field obj referentOffset)
  if referent = 0 then doOop σ (.field obj nextOffset)
  else
    match if σ.isForwarded referent then none else discoverReference c σ obj kind with
    | some σ => σ
    | none => doOop (doOop σ (.field obj referentOffset)) (.field obj nextOffset)

/-- `oop_iterate` of an object with a closure. -/
def oopIterate (doOop : Scan → Slot → Scan) (σ : Scan) (obj : Nat) : Scan :=
  let σ := (σ.klass obj).oops.foldl (fun σ offset => doOop σ (.field obj offset)) σ
  match (σ.klass obj).reference with
  | none => σ
  | some kind => iterateReference c doOop σ obj kind

/-- While the stack is drained, a failed promotion only pushes. -/
def drainPromoFailureScanStack : Nat → Scan → Scan
  | 0, σ => σ
  | fuel + 1, σ =>
    match σ.failureStack with
    | [] => σ
    | obj :: rest =>
      drainPromoFailureScanStack fuel
        (oopIterate c (fastScan c id none) { σ with failureStack := rest } obj)

def fuel (σ : Scan) : Nat := (σ.edenObjects c.id).length + 1

def drain (σ : Scan) : Scan := drainPromoFailureScanStack c (fuel c σ) σ

def scanSlot (barrier : Option Region) (σ : Scan) (s : Slot) : Scan :=
  fastScan c (drain c) barrier σ s

/-! ### Strong roots -/

/-- The closure of `DirtyCardToOopClosure` for one object, with its `FilteringClosure`. -/
def filtered (region : Region) (cards : Nat → Card) (isArray : Bool) (σ : Scan) (s : Slot) : Scan :=
  match s with
  | .field obj offset =>
    if onScannedCard cards isArray obj offset && σ.words s < c.start region then
      scanSlot c (some region) σ s
    else σ
  | _ => σ

/-- The slots on the non-clean cards of a space that point below its generation. Cards that the
barrier dirties on the way lie behind the walk. -/
def youngerRefsIterate (region : Region) (objects : List Nat) (σ : Scan) : Scan :=
  let cards := σ.cards region
  objects.foldl (fun σ obj =>
    oopIterate c (filtered c region cards (σ.klass obj).isArray) σ obj) σ

def oopIterateSpace (region : Region) (objects : List Nat) (σ : Scan) : Scan :=
  objects.foldl (oopIterate c (scanSlot c (some region))) σ

def otherEdenObjects (heap : Heap) : List Nat :=
  heap.transNew.spaceIterateWithSomeExcluded.flatMap heap.edenObjects

def processStrongRoots (σ : Scan) : Scan :=
  ((List.range c.rootCount).map Slot.root).foldl (scanSlot c none) σ

/-- `gen_process_strong_roots` for level 1. -/
def genProcessStrongRoots (σ : Scan) : Scan :=
  let σ := processStrongRoots c σ
  let σ := youngerRefsIterate c .perm σ.perm σ
  let σ := oopIterateSpace c .gen0 σ.gen0 σ
  let σ := oopIterateSpace c .gen1 (otherEdenObjects σ.toHeap) σ
  youngerRefsIterate c .old (σ.old.take σ.savedMark) σ

/-- Scan what was promoted since the saved mark, with what that promotes. -/
def oopSinceSaveMarksIterate : Nat → Scan → Option Scan
  | 0, _ => none
  | fuel + 1, σ =>
    match σ.old[σ.savedMark]? with
    | none => some σ
    | some obj =>
      oopSinceSaveMarksIterate fuel
        (oopIterate c (scanSlot c (some .old)) { σ with savedMark := σ.savedMark + 1 } obj)

/-- `FastEvacuateFollowersClosure::do_void`, with the guarantee at its end. -/
def evacuateFollowers (σ : Scan) : Option Scan :=
  (oopSinceSaveMarksIterate c (fuel c σ) σ).bind fun σ =>
    if σ.failureStack = [] then some σ else none

/-! ### Weak references -/

def isAlive (σ : Scan) (a : Nat) : Bool := !c.inEden a || σ.isForwarded a

/-- The card of a slot that `FastKeepAliveClosure` has applied to. -/
def keepAliveCard (heap : Heap) (s : Slot) : Region → Nat → Card :=
  match s with
  | .field obj offset =>
    let value := heap.words s
    let own := c.regionOf (obj + offset)
    if value < c.start own then writeCard heap.cards own (obj + offset) .youngergen
    else if own = .gen0 ∧ c.regionOf value = .gen1 then
      writeCard heap.cards own (obj + offset) .localToRemote
    else if own = .gen1 ∧ c.regionOf value = .gen1 ∧
        c.transEdenId heap (obj + offset) ≠ c.transEdenId heap value then
      writeCard heap.cards own (obj + offset) .localToRemote
    else heap.cards
  | _ => heap.cards

/-- `FastKeepAliveClosure::do_oop_work` over `ScanWeakRefClosure`. -/
def keepAlive (σ : Scan) (s : Slot) : Scan :=
  let σ := if c.inEden (σ.words s) then redirect c (drain c) σ s else σ
  { σ with cards := keepAliveCard c σ.toHeap s }

def processPhase1 (shouldClear : Nat → Bool) (kind : ReferenceType) (σ : Scan) : Scan :=
  (σ.discovered kind).foldl (fun σ r =>
    let referent := σ.words (.field r referentOffset)
    if referent ≠ 0 ∧ isAlive c σ referent = false ∧ shouldClear r = false then
      keepAlive c (((σ.removeDiscovered kind r).store (.field r nextOffset) 0))
        (.field r referentOffset)
    else σ) σ

def processPhase2 (kind : ReferenceType) (σ : Scan) : Scan :=
  (σ.discovered kind).foldl (fun σ r =>
    if isAlive c σ (σ.words (.field r referentOffset)) then
      keepAlive c (σ.removeDiscovered kind r) (.field r referentOffset)
    else σ) σ

def processPhase3 (clearReferent : Bool) (kind : ReferenceType) (σ : Scan) : Scan :=
  (σ.discovered kind).foldl (fun σ r =>
    if clearReferent then σ.store (.field r referentOffset) 0
    else keepAlive c σ (.field r referentOffset)) σ

def processDiscoveredReflist (policy : Option (Nat → Bool)) (clearReferent : Bool)
    (kind : ReferenceType) (σ : Scan) : Option Scan :=
  (match policy with
  | some shouldClear => evacuateFollowers c (processPhase1 c shouldClear kind σ)
  | none => some σ).bind fun σ =>
  evacuateFollowers c (processPhase3 c clearReferent kind (processPhase2 c kind σ))

/-- `JNIHandles::weak_oops_do`. -/
def weakOopsDo (σ : Scan) : Scan :=
  ((List.range c.weakRootCount).map Slot.weakRoot).foldl (fun σ s =>
    if σ.words s = 0 then σ
    else if isAlive c σ (σ.words s) then keepAlive c σ s
    else σ.store s 0) σ

/-- After `setup_policy(true)` every soft reference that was discovered is cleared. -/
def processDiscoveredReferences (σ : Scan) : Option Scan :=
  (processDiscoveredReflist c (some fun _ => true) true .soft
      { σ with discovering := false }).bind fun σ =>
  (processDiscoveredReflist c none true .weak σ).bind fun σ =>
  (processDiscoveredReflist c none false .final σ).bind fun σ =>
  (processDiscoveredReflist c none false .phantom σ).bind fun σ =>
  evacuateFollowers c (weakOopsDo c σ)

/-! ### The whole collection -/

/-- The state in which the roots are scanned: marks are saved, nothing is discovered. -/
def startScan (heap : Heap) : Scan where
  toHeap := heap
  savedMark := heap.old.length
  promotionFailed := false
  preserved := []
  failureStack := []
  discovering := true
  discovered := fun _ => []

def evacuateEden (heap : Heap) : Option Scan :=
  (evacuateFollowers c (genProcessStrongRoots c (startScan heap))).bind
    (processDiscoveredReferences c)

/-- The objects of all edens get their prototype mark, then the preserved marks are put back. -/
def removeForwardingPointers (σ : Scan) : Scan :=
  let edens := σ.transNew.transEdens.flatMap TransEden.objects
  let σ := { σ with
    mark := edens.foldl
      (fun mark obj => update mark obj (σ.klass obj).prototypeHeader) σ.mark }
  { σ with
    mark := σ.preserved.foldl (fun mark saved => update mark saved.1 saved.2) σ.mark
    preserved := [] }

/-- `finished` also holds the state before the eden is emptied or the pointers are removed. -/
inductive Collected where
  | returned (heap : Heap)
  | finished (scanned : Scan) (heap : Heap)

def endScan (σ : Scan) : Heap :=
  let done := if σ.promotionFailed then removeForwardingPointers σ else σ
  { done.toHeap with transNew := σ.transNew.endCollect σ.promotionFailed c.id }

/-- No result for an index outside the table, or if the scan does not come to its end. -/
def collectTransEden (avoidCollectTrained collectionAttemptIsSafe : Bool) (heap : Heap) :
    Option Collected :=
  match heap.transNew.beginCollect avoidCollectTrained collectionAttemptIsSafe c.id with
  | none => none
  | some (.returned gen) => some (.returned { heap with transNew := gen })
  | some (.scanning gen) =>
    (evacuateEden c { heap with transNew := gen }).map fun σ => .finished σ (endScan c σ)

end Closures

end EdenScan
