import Mathlib.Logic.Function.Basic
import TransGC.MarkWord
import TransGC.OrderedMoves

/-!
# The two passes of the full mark-compact

`SCAN_AND_FORWARD` and `SCAN_AND_COMPACT` over a memory of words, with the generations DefNew,
TransNew and Tenured. The second word of an object is its header: class and array length, from
which its size and its default mark follow. The permanent generation and the block offset
tables are left out.
-/
namespace CompactSpaces
open MarkWord OrderedMoves Function

structure ObjectModel where
  size : Nat → Nat
  prototypeHeader : Nat → Nat
  /-- The header of a filler object of the given number of words. -/
  filler : Nat → Nat
  two_le_size : ∀ header, 2 ≤ size header
  prototypeHeader_unmarked : ∀ header, isMarked (prototypeHeader header) = false
  size_filler : ∀ words, 2 ≤ words → size (filler words) = words

inductive Generation
  | defNew
  | transNew
  | tenured
  deriving DecidableEq, Repr

def prevGen : Generation → Option Generation
  | .tenured => some .transNew
  | .transNew => some .defNew
  | .defNew => none

/-- A compactible space, by its generation and its place in that generation's chain. -/
structure SpaceRef where
  gen : Generation
  index : Nat
  deriving DecidableEq, Repr

/-- DefNew's chain is eden, from and, after a failed promotion, to; TransNew's is its edens. -/
structure Heap where
  objects : ObjectModel
  bottom : SpaceRef → Nat
  limit : SpaceRef → Nat
  transEdens : Nat
  survivors : Nat
  useBiasedLocking : Bool
  markSweepDeadRatio : Nat
  markSweepAlwaysCompactCount : Nat
  invocations : Nat

/-- The words of the heap and the fields of its spaces that a collection changes. -/
structure Store where
  mem : Nat → Nat
  top : SpaceRef → Nat
  compactionTop : SpaceRef → Nat
  firstDead : SpaceRef → Nat
  endOfLive : SpaceRef → Nat

inductive Fault
  | nullGeneration
  | outOfFuel
  deriving DecidableEq, Repr

namespace Heap

variable (heap : Heap)

def count : Generation → Nat
  | .tenured => 1
  | .transNew => heap.transEdens
  | .defNew => heap.survivors + 1

def firstCompactionSpace (gen : Generation) : SpaceRef := ⟨gen, 0⟩

def nextCompactionSpace (space : SpaceRef) : Option SpaceRef :=
  if space.index + 1 < heap.count space.gen then some ⟨space.gen, space.index + 1⟩ else none

/-- The spaces of a generation, from the first to the one that has no next. -/
def chain (gen : Generation) : List SpaceRef :=
  (List.range (heap.count gen)).map fun index => ⟨gen, index⟩

/-- The order of both passes: the generations from old to young. -/
def scanOrder : List SpaceRef :=
  heap.chain .tenured ++ (heap.chain .transNew ++ heap.chain .defNew)

def sizeAt (mem : Nat → Nat) (q : Nat) : Nat := heap.objects.size (mem (q + 1))

def initMark (mem : Nat → Nat) (q : Nat) : Nat := heap.objects.prototypeHeader (mem (q + 1))

def allowedDeadRatio : Generation → Nat
  | .tenured => heap.markSweepDeadRatio
  | _ => 0

/-- In words; the capacity is in bytes. -/
def allowedDeadspace (space : SpaceRef) : Nat :=
  if heap.invocations % heap.markSweepAlwaysCompactCount ≠ 0 then
    8 * (heap.limit space - heap.bottom space) * heap.allowedDeadRatio space.gen / 100 / 8
  else 0

end Heap

namespace Store

def setMem (store : Store) (a word : Nat) : Store :=
  { store with mem := update store.mem a word }

def setCompactionTop (store : Store) (space : SpaceRef) (a : Nat) : Store :=
  { store with compactionTop := update store.compactionTop space a }

@[simp] theorem setMem_mem (store : Store) (a word : Nat) :
    (store.setMem a word).mem = update store.mem a word := rfl

@[simp] theorem setCompactionTop_compactionTop (store : Store) (space : SpaceRef) (a : Nat) :
    (store.setCompactionTop space a).compactionTop = update store.compactionTop space a := rfl

end Store

/-! ### Forwarding -/

/-- The next space; behind the last one of a generation, the first one of the generation before it,
where TransNew is passed over. -/
def switchSpace (heap : Heap) (space : SpaceRef) : Option SpaceRef :=
  match heap.nextCompactionSpace space with
  | some next => some next
  | none =>
    let gen := match prevGen space.gen with
      | some .transNew => prevGen .transNew
      | other => other
    gen.map Heap.firstCompactionSpace

/-- The loop at the head of `forward`. -/
def findSpace (heap : Heap) (size : Nat) :
    Nat → Store → SpaceRef → Nat → Except Fault (Store × SpaceRef × Nat)
  | 0, _, _, _ => .error .outOfFuel
  | fuel + 1, store, space, compactTop =>
    if size > heap.limit space - compactTop then
      match switchSpace heap space with
      | none => .error .nullGeneration
      | some next =>
        findSpace heap size fuel
          ((store.setCompactionTop space compactTop).setCompactionTop next (heap.bottom next))
          next (heap.bottom next)
    else .ok (store, space, compactTop)

def forward (heap : Heap) (store : Store) (q size : Nat) (space : SpaceRef) (compactTop : Nat) :
    Except Fault (Store × SpaceRef × Nat) :=
  (findSpace heap size (heap.transEdens + heap.survivors + 3) store space compactTop).map
    fun (store, space, compactTop) =>
      -- an object that does not move gets its default mark back at once
      let mark := if q ≠ compactTop then encodePointerAsMark (8 * compactTop)
        else heap.initMark store.mem q
      (store.setMem q mark, space, compactTop + size)

/-- The local variables of `SCAN_AND_FORWARD`; `space` is that of the compact point. -/
structure Scan where
  store : Store
  space : SpaceRef
  compactTop : Nat
  allowedDeadspace : Nat
  endOfLive : Nat
  firstDead : Nat
  liveRange : Option Nat

def forwardBlock (heap : Heap) (scan : Scan) (q size : Nat) : Except Fault (Nat × Scan) :=
  (forward heap scan.store q size scan.space scan.compactTop).map
    fun (store, space, compactTop) =>
      (q + size, { scan with
        store := store, space := space, compactTop := compactTop, endOfLive := q + size })

/-- The end of the run of dead objects that starts at `q`. -/
def endOfDead (heap : Heap) (mem : Nat → Nat) (t : Nat) : Nat → Nat → Nat
  | 0, q => q
  | fuel + 1, q =>
    if q + heap.sizeAt mem q < t ∧ isMarked (mem (q + heap.sizeAt mem q)) = false then
      endOfDead heap mem t fuel (q + heap.sizeAt mem q)
    else q + heap.sizeAt mem q

/-- Whether the dead run may stay; if so it is made one marked object. -/
def insertDeadspace (heap : Heap) (scan : Scan) (q deadlength : Nat) : Scan × Bool :=
  if scan.allowedDeadspace ≥ deadlength then
    let filler := heap.objects.filler deadlength
    ({ scan with
        allowedDeadspace := scan.allowedDeadspace - deadlength
        store := (scan.store.setMem (q + 1) filler).setMem q
          (setMarked (heap.objects.prototypeHeader filler)) }, true)
  else ({ scan with allowedDeadspace := 0 }, false)

/-- `LiveRange::set_end`: the second word holds the length, the first one the start. -/
def setEnd (store : Store) (liveRange stop : Nat) : Store :=
  store.setMem (liveRange + 1) (stop - store.mem liveRange / 8)

def setEndIfAny (store : Store) (liveRange : Option Nat) (stop : Nat) : Store :=
  match liveRange with
  | some range => setEnd store range stop
  | none => store

/-- A free region: the live range behind it is recorded in its first two words. -/
def recordDead (scan : Scan) (q stop : Nat) : Scan :=
  let store := setEndIfAny scan.store scan.liveRange q
  { scan with
    store := setEnd (store.setMem q (8 * stop)) q stop
    liveRange := some q
    firstDead := if q < scan.firstDead then q else scan.firstDead }

def scanBlock (heap : Heap) (t q : Nat) (scan : Scan) : Except Fault (Nat × Scan) :=
  if isMarked (scan.store.mem q) then
    forwardBlock heap scan q (heap.sizeAt scan.store.mem q)
  else
    let stop := endOfDead heap scan.store.mem t (t - q) q
    if scan.allowedDeadspace > 0 ∧ q = scan.compactTop then
      match insertDeadspace heap scan q (stop - q) with
      | (scan, true) => forwardBlock heap scan q (stop - q)
      | (scan, false) => .ok (stop, recordDead scan q stop)
    else .ok (stop, recordDead scan q stop)

def scanLoop (heap : Heap) (t : Nat) : Nat → Nat → Scan → Except Fault Scan
  | 0, q, scan => if q < t then .error .outOfFuel else .ok scan
  | fuel + 1, q, scan =>
    if q < t then (scanBlock heap t q scan).bind fun (q, scan) => scanLoop heap t fuel q scan
    else .ok scan

/-- The compact point before the first scan has no space; its generation is Tenured. -/
def enterSpace (heap : Heap) (this : SpaceRef) (cp : Option SpaceRef) (store : Store) :
    Store × SpaceRef :=
  let store := store.setCompactionTop this (heap.bottom this)
  match cp with
  | some space => (store, space)
  | none =>
    let first := Heap.firstCompactionSpace .tenured
    (store.setCompactionTop first (heap.bottom first), first)

def finishScan (this : SpaceRef) (t : Nat) (scan : Scan) : Store × SpaceRef :=
  let store := setEndIfAny scan.store scan.liveRange t
  ({ store with
      endOfLive := update store.endOfLive this scan.endOfLive
      firstDead := update store.firstDead this
        (if scan.endOfLive < scan.firstDead then scan.endOfLive else scan.firstDead)
      compactionTop := update store.compactionTop scan.space scan.compactTop },
    scan.space)

/-- `SCAN_AND_FORWARD` for the space `this`. -/
def scanAndForward (heap : Heap) (this : SpaceRef) (cp : Option SpaceRef) (store : Store) :
    Except Fault (Store × SpaceRef) :=
  let (store, space) := enterSpace heap this cp store
  let q := heap.bottom this
  let t := store.top this
  let scan : Scan :=
    { store := store, space := space, compactTop := store.compactionTop space
      allowedDeadspace := heap.allowedDeadspace this
      endOfLive := q, firstDead := heap.limit this, liveRange := none }
  (scanLoop heap t (t - q) q scan).map (finishScan this t)

def prepareSpaces (heap : Heap) : List SpaceRef → Option SpaceRef → Store → Except Fault Store
  | [], _, store => .ok store
  | this :: spaces, cp, store =>
    (scanAndForward heap this cp store).bind fun (store, space) =>
      prepareSpaces heap spaces (some space) store

def prepareForCompaction (heap : Heap) (store : Store) : Except Fault Store :=
  prepareSpaces heap heap.scanOrder none store

/-! ### Moving -/

/-- A pointer in a mark, as a word address. -/
def decodeAddress (heap : Heap) (mark : Nat) : Nat :=
  decodePointer heap.useBiasedLocking mark / 8

def compactLoop (heap : Heap) (t : Nat) : Nat → Nat → (Nat → Nat) → Except Fault (Nat → Nat)
  | 0, q, mem => if q < t then .error .outOfFuel else .ok mem
  | fuel + 1, q, mem =>
    if q < t then
      if isMarked (mem q) = false then compactLoop heap t fuel (decodeAddress heap (mem q)) mem
      else
        let size := heap.sizeAt mem q
        let compactionTop := decodeAddress heap (mem q)
        compactLoop heap t fuel (q + size) (move heap.initMark mem ⟨q, size, compactionTop⟩)
    else .ok mem

/-- Where `SCAN_AND_COMPACT` starts: behind the objects at the bottom that stay. -/
def skipUnmoved (heap : Heap) (this : SpaceRef) (store : Store) : Nat :=
  let q := heap.bottom this
  let t := store.endOfLive this
  if q < t ∧ store.firstDead this > q ∧ isMarked (store.mem q) = false then
    if store.firstDead this = t then t
    else decodeAddress heap (store.mem (store.firstDead this))
  else q

/-- `SCAN_AND_COMPACT` for the space `this`. -/
def scanAndCompact (heap : Heap) (this : SpaceRef) (store : Store) : Except Fault Store :=
  let t := store.endOfLive this
  (compactLoop heap t (t - heap.bottom this) (skipUnmoved heap this store) store.mem).map fun mem =>
    { store with
      mem := mem
      top := update store.top this (store.compactionTop this) }

def compactSpaces (heap : Heap) : List SpaceRef → Store → Except Fault Store
  | [], store => .ok store
  | this :: spaces, store =>
    (scanAndCompact heap this store).bind fun store => compactSpaces heap spaces store

def compact (heap : Heap) (store : Store) : Except Fault Store :=
  compactSpaces heap heap.scanOrder store

end CompactSpaces
