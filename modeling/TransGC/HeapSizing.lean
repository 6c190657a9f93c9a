import TransGC.WordSizes

/-!
# The sizes of the heap and its generations

`initialize_flags` and `initialize_size_info` of the collector policies: from the size flags to the
sizes of the two generations of `TwoGenerationCollectorPolicy`, and the split of the younger one
into a local and a remote generation by `TypeGenCollectorPolicy`.

Sizes are words of the platform and wrap. The ratios are signed in the source; they enter the
unsigned divisions by their bits. A refused configuration is an error with its exit text.
-/
namespace HeapSizing
open WordSizes

/-- The word size and the heap's alignment: pages times the card size, a power of two. -/
structure Platform where
  bitsPerWord : Nat
  logMaxAlignment : Nat
  wide : 32 ≤ bitsPerWord
  coarse : 16 ≤ logMaxAlignment
  fits : logMaxAlignment < bitsPerWord

abbrev Platform.Word (p : Platform) : Type := BitVec p.bitsPerWord

variable {p : Platform}

/-- `Generation::GenGrain`. -/
def minAlignment : p.Word := BitVec.twoPow _ 16

def maxAlignment : p.Word := BitVec.twoPow _ p.logMaxAlignment

/-- One megabyte. -/
def M : p.Word := BitVec.twoPow _ 20

inductive FlagValueOrigin where
  | default
  | commandLine
  | environVar
  | configFile
  | management
  | ergonomic
  | attachOnDemand
  | internal
  deriving DecidableEq, Repr

/-- The size flags, and the sizes given by `-Xms`; zero stands for none given. -/
structure HeapFlags (p : Platform) where
  permSize : p.Word
  newSize : p.Word
  newSizeOrigin : FlagValueOrigin
  maxNewSize : p.Word
  maxNewSizeOrigin : FlagValueOrigin
  oldSize : p.Word
  oldSizeOrigin : FlagValueOrigin
  maxHeapSize : p.Word
  newRatio : p.Word
  survivorRatio : p.Word
  initialHeapSize : p.Word
  minHeapSize : p.Word

/-! ### The flags -/

/-- `CollectorPolicy::initialize_flags`, of which only the check concerns the heap. -/
def collectorInitializeFlags (flags : HeapFlags p) : Except String (HeapFlags p) :=
  let permSize := max2 minAlignment (alignDown flags.permSize minAlignment)
  if permSize < M then .error "Too small initial permanent heap"
  else .ok { flags with permSize := permSize }

/-- `GenCollectorPolicy::initialize_flags`. -/
def genInitializeFlags (flags : HeapFlags p) : Except String (HeapFlags p) := do
  let flags ← collectorInitializeFlags flags
  let maxNewSize := if flags.newSize > flags.maxNewSize then flags.newSize else flags.maxNewSize
  let newSize := alignDown flags.newSize minAlignment
  let maxNewSize := alignDown maxNewSize minAlignment
  if newSize < 3 * minAlignment then .error "Too small new size specified"
  else if flags.survivorRatio.slt 1 || flags.newRatio.slt 1 then
    .error "Invalid heap ratio specified"
  else .ok { flags with newSize := newSize, maxNewSize := maxNewSize }

/-- `TwoGenerationCollectorPolicy::initialize_flags`. -/
def initializeFlags (flags : HeapFlags p) : Except String (HeapFlags p) := do
  let flags ← genInitializeFlags flags
  let oldSize := alignDown flags.oldSize minAlignment
  let maxHeapSize :=
    if flags.newSize + oldSize > flags.maxHeapSize then flags.newSize + oldSize
    else flags.maxHeapSize
  .ok { flags with oldSize := oldSize, maxHeapSize := alignUp maxHeapSize maxAlignment }

/-! ### The heap and the young generation -/

/-- The sizes between which something may grow, and the one it starts with. -/
structure Sizes (p : Platform) where
  minimum : p.Word
  initial : p.Word
  maximum : p.Word
  deriving DecidableEq

/-- `CollectorPolicy::initialize_size_info`: the sizes of the heap. -/
def heapSizeInfo (flags : HeapFlags p) : Except String (Sizes p) :=
  let given (size : p.Word) := if size = 0 then flags.newSize + flags.oldSize else size
  let initial := alignUp (given flags.initialHeapSize) minAlignment
  let minimum := alignUp (given flags.minHeapSize) minAlignment
  let maximum := alignUp flags.maxHeapSize maxAlignment
  if initial < M then .error "Too small initial heap"
  else if minimum < M then .error "Too small minimum heap"
  else if initial ≤ flags.newSize then
    .error "Too small initial heap for new size specified"
  else if maximum < minimum then .error "Incompatible minimum and maximum heap sizes specified"
  else if initial < minimum then .error "Incompatible minimum and initial heap sizes specified"
  else if maximum < initial then .error "Incompatible initial and maximum heap sizes specified"
  else .ok ⟨minimum, initial, maximum⟩

def scaleByNewRatioAligned (newRatio baseSize : p.Word) : p.Word :=
  let x := baseSize / (newRatio + 1)
  if x > minAlignment then alignDown x minAlignment else minAlignment

def boundMinusAlignment (desiredSize maximumSize : p.Word) :
    Traced p.bitsPerWord p.Word := do
  let maxMinus ← minus maximumSize minAlignment
  pure (if desiredSize < maxMinus then desiredSize else maxMinus)

/-- The first half of `GenCollectorPolicy::initialize_size_info`: the maximum size of gen0. -/
def maxNewSizeInfo (flags : HeapFlags p) (heap : Sizes p) : Traced p.bitsPerWord p.Word :=
  if flags.maxNewSizeOrigin = .commandLine then
    if flags.maxNewSize < minAlignment then pure minAlignment
    else if flags.maxNewSize ≥ heap.maximum then do
      let rest ← minus heap.maximum minAlignment
      pure (alignDown rest minAlignment)
    else pure (alignDown flags.maxNewSize minAlignment)
  else
    pure (min2 (max2 (scaleByNewRatioAligned flags.newRatio heap.maximum) flags.newSize)
      flags.maxNewSize)

/-- The sizes of gen0 that the flags ask for, before they are bounded by the heap. -/
def desiredGen0Sizes (flags : HeapFlags p) (heap : Sizes p) (maxNewSize : p.Word) : Sizes p :=
  if flags.newSizeOrigin ≠ .default then
    ⟨flags.newSize, flags.newSize, max2 maxNewSize flags.newSize⟩
  else
    ⟨max2 (scaleByNewRatioAligned flags.newRatio heap.minimum) flags.newSize,
      max2 (scaleByNewRatioAligned flags.newRatio heap.initial) flags.newSize, maxNewSize⟩

/-- The minimum and the initial size bounded by the maximum. -/
def orderSizes (sizes : Sizes p) : Sizes p :=
  let minimum := min2 sizes.minimum sizes.maximum
  let initial := max2 (min2 sizes.initial sizes.maximum) minimum
  ⟨min2 minimum initial, initial, sizes.maximum⟩

/-- `GenCollectorPolicy::initialize_size_info`: the sizes of gen0. -/
def gen0SizeInfo (flags : HeapFlags p) (heap : Sizes p) : Traced p.bitsPerWord (Sizes p) := do
  let maxNewSize ← maxNewSizeInfo flags heap
  if heap.maximum = heap.minimum then pure ⟨maxNewSize, maxNewSize, maxNewSize⟩
  else
    let desired := desiredGen0Sizes flags heap maxNewSize
    let minimum ← boundMinusAlignment desired.minimum heap.minimum
    let initial ← boundMinusAlignment desired.initial heap.initial
    let maximum ← boundMinusAlignment desired.maximum heap.maximum
    pure (orderSizes ⟨minimum, initial, maximum⟩)

/-! ### The old generation -/

/-- What is left of a heap beside a generation, in whole grains. -/
def restOfHeap (heapSize genSize : p.Word) : Traced p.bitsPerWord p.Word := do
  let rest ← minus heapSize genSize
  pure (max2 (alignDown rest minAlignment) minAlignment)

structure Adjusted (p : Platform) where
  gen0 : p.Word
  gen1 : p.Word
  gen0Changed : Bool

def adjustGen0Sizes (oldSize gen0 gen1 heapSize minGen0Size : p.Word) :
    Traced p.bitsPerWord (Adjusted p) := do
  let shrinkGen1 : Traced p.bitsPerWord (Adjusted p) := do
    let rest ← restOfHeap heapSize gen0
    pure ⟨gen0, rest, false⟩
  if gen1 + gen0 > heapSize then
    if gen0 + oldSize > heapSize then
      let room ← minus heapSize minGen0Size
      if room ≥ minAlignment then
        let rest ← restOfHeap heapSize minGen0Size
        pure ⟨rest, gen1, true⟩
      else shrinkGen1
    else shrinkGen1
  else pure ⟨gen0, gen1, false⟩

structure SizeInfo (p : Platform) where
  gen0 : Sizes p
  gen1 : Sizes p
  deriving DecidableEq

/-- The minimum and initial sizes of the two generations, before gen1 is bounded by its maximum. -/
def gen1SizeInfo (flags : HeapFlags p) (heap gen0 : Sizes p) :
    Traced p.bitsPerWord (Adjusted p × Adjusted p) :=
  if flags.oldSizeOrigin = .default ∨ flags.oldSizeOrigin = .ergonomic then do
    let minimum ← restOfHeap heap.minimum gen0.minimum
    let initial ← restOfHeap heap.initial gen0.initial
    pure (⟨gen0.minimum, minimum, false⟩, ⟨gen0.initial, initial, false⟩)
  else do
    let minimum ← adjustGen0Sizes flags.oldSize gen0.minimum flags.oldSize heap.minimum flags.oldSize
    let initial ← adjustGen0Sizes flags.oldSize gen0.initial flags.oldSize heap.initial flags.oldSize
    pure (minimum, initial)

/-- For the heap sizes that `CollectorPolicy::initialize_size_info` has found. -/
def generationSizeInfo (flags : HeapFlags p) (heap : Sizes p) :
    Traced p.bitsPerWord (SizeInfo p) := do
  let gen0 ← gen0SizeInfo flags heap
  let maxGen1 ← restOfHeap heap.maximum gen0.maximum
  let (minimum, initial) ← gen1SizeInfo flags heap gen0
  let minGen1 := min2 minimum.gen1 maxGen1
  pure
    { gen0 := ⟨minimum.gen0, initial.gen0, gen0.maximum⟩
      gen1 := ⟨minGen1, min2 (max2 initial.gen1 minGen1) maxGen1, maxGen1⟩ }

/-- The sizes of the heap and those of its generations. -/
def initializeSizeInfo (flags : HeapFlags p) :
    Except String (Sizes p × Traced p.bitsPerWord (SizeInfo p)) := do
  let heap ← heapSizeInfo flags
  pure (heap, generationSizeInfo flags heap)

/-! ### The split of the young generation -/

structure TypeGenFlags (p : Platform) where
  remoteRatio : p.Word
  reverseRemoteRatio : Bool
  maxTransEden : p.Word

/-- The local generation's part of a size of gen0. -/
def localGenSize (flags : TypeGenFlags p) (gen0Size : p.Word) : p.Word :=
  if flags.reverseRemoteRatio then
    alignDown (gen0Size * flags.remoteRatio / (flags.remoteRatio + 1)) minAlignment
  else alignDown (gen0Size / (flags.remoteRatio + 1)) minAlignment

structure YoungSizes (p : Platform) where
  initialLocalGenSize : p.Word
  maxLocalGenSize : p.Word
  initialRemoteGenSize : p.Word
  maxRemoteGenSize : p.Word

/-- What `TypeGenCollectorPolicy::initialize_size_info` adds to the sizes of gen0. -/
def typeGenSizeInfo (flags : TypeGenFlags p) (gen0 : Sizes p) : YoungSizes p :=
  let initialLocalGenSize := localGenSize flags gen0.initial
  let maxLocalGenSize := localGenSize flags gen0.maximum
  ⟨initialLocalGenSize, maxLocalGenSize, gen0.initial - initialLocalGenSize,
    gen0.maximum - maxLocalGenSize⟩

/-- `DefNewGeneration::compute_survivor_size`. -/
def computeSurvivorSize (survivorRatio genSize : p.Word) : p.Word :=
  let n := genSize / (survivorRatio + 2)
  if n > minAlignment then alignDown n minAlignment else minAlignment

/-- The size of eden in `DefNewGeneration::compute_space_boundaries` with no minimum. -/
def defNewEdenSize (survivorRatio size : p.Word) : Traced p.bitsPerWord p.Word :=
  minus size (2 * computeSurvivorSize survivorRatio size)

/-- The size of each eden in `TransNewGeneration::compute_space_boundaries`. -/
def transEdenSize (maxTransEden size : p.Word) : p.Word :=
  alignDown (size / maxTransEden) minAlignment

end HeapSizing
