import TransGC.CompactSpaces
import TransGC.GenerationSizes

/-!
# The regions of the transaction edens

`TransNewGeneration::compute_space_boundaries` cuts the committed space into equal edens and links
them into a compaction chain with a pointer that trails the loop by one eden. The chain is the
edens in address order, and `get_trans_eden_id` finds the eden that an address lies in.
-/
namespace EdenLayout
open HeapSizing List Option

/-- The committed part of a generation's memory; a generation is reserved in whole grains. -/
structure VirtualSpace where
  low : Nat
  high : Nat
  ordered : low ≤ high
  aligned : 65536 ∣ low

def VirtualSpace.committedSize (space : VirtualSpace) : Nat := space.high - space.low

structure EdenSpace where
  bottom : Nat
  limit : Nat
  top : Nat
  softEnd : Nat
  compactionTop : Nat
  nextCompactionSpace : Option Nat
  deriving DecidableEq

namespace EdenSpace

def clear (eden : EdenSpace) : EdenSpace :=
  { eden with top := eden.bottom, compactionTop := eden.bottom, softEnd := eden.limit }

def initializeSpace (eden : EdenSpace) (start stop : Nat) (clearSpace : Bool) : EdenSpace :=
  let eden := { eden with bottom := start, limit := stop, softEnd := stop }
  let eden := if clearSpace then eden.clear else eden
  { eden with compactionTop := eden.bottom, nextCompactionSpace := none }

def setNextCompactionSpace (eden : EdenSpace) (next : Option Nat) : EdenSpace :=
  { eden with nextCompactionSpace := next }

def isInReserved (eden : EdenSpace) (a : Nat) : Bool := eden.bottom ≤ a && a < eden.limit

end EdenSpace

/-- The variables of the loop of `compute_space_boundaries`. -/
structure Layout where
  edens : List EdenSpace
  lastEden : Option Nat
  edenStart : Nat

/-- One round of the loop. -/
def placeEden (clearSpace : Bool) (edenSize : Nat) (layout : Layout) (i : Nat) : Layout :=
  let edens := layout.edens.modify i fun eden =>
    eden.initializeSpace layout.edenStart (layout.edenStart + edenSize) clearSpace
  let edens := match layout.lastEden with
    | some last => edens.modify last fun eden => eden.setNextCompactionSpace (some i)
    | none => edens
  let edens := edens.modify i fun eden => eden.setNextCompactionSpace none
  ⟨edens, some i, layout.edenStart + edenSize⟩

/-- The committed size divided by the number of edens, in whole grains. -/
def edenSize (size maxTransEden : Nat) : Nat := size / maxTransEden / 65536 * 65536

def computeSpaceBoundaries (space : VirtualSpace) (minimumEdenSize : Nat) (clearSpace : Bool)
    (edens : List EdenSpace) : List EdenSpace :=
  let liveInEden := decide (minimumEdenSize > 0)
  ((range edens.length).foldl
    (placeEden (clearSpace && !liveInEden) (edenSize space.committedSize edens.length))
    ⟨edens, none, space.low⟩).edens

/-- `eden(0)`, the null pointer if there is none. -/
def firstCompactionSpace (edens : List EdenSpace) : Option Nat :=
  if 0 < edens.length then some 0 else none

/-- The spaces on the chain from a given one; `none` if the chain does not end within the fuel. -/
def followChain (edens : List EdenSpace) : Nat → Option Nat → Option (List Nat)
  | _, none => some []
  | 0, some _ => none
  | fuel + 1, some i =>
    edens[i]?.bind fun eden => (followChain edens fuel eden.nextCompactionSpace).map (i :: ·)

def getTransEdenId (edens : List EdenSpace) (a : Nat) : Int :=
  match edens.findIdx? fun eden => eden.isInReserved a with
  | some j => j
  | none => -1

/-! ### The loop -/

variable {space : VirtualSpace} {edens : List EdenSpace} {size : Nat}

/-- What the loop has done to the eden at an index below the count it has reached. -/
structure Placed (start size count i : Nat) (eden : EdenSpace) : Prop where
  bottom : eden.bottom = start + i * size
  limit : eden.limit = start + (i + 1) * size
  next : eden.nextCompactionSpace = if i + 1 < count then some (i + 1) else none

/-- The state of the loop after a number of rounds. -/
structure Reached (start size total count : Nat) (layout : Layout) : Prop where
  length : layout.edens.length = total
  placed : ∀ i eden, i < count → layout.edens[i]? = some eden → Placed start size count i eden
  last : layout.lastEden = if count = 0 then none else some (count - 1)
  edenStart : layout.edenStart = start + count * size

@[simp] theorem initializeSpace_bottom (eden : EdenSpace) (start stop : Nat) (clearSpace : Bool) :
    (eden.initializeSpace start stop clearSpace).bottom = start := by
  cases clearSpace <;> rfl

@[simp] theorem initializeSpace_limit (eden : EdenSpace) (start stop : Nat) (clearSpace : Bool) :
    (eden.initializeSpace start stop clearSpace).limit = stop := by
  cases clearSpace <;> rfl

/-- A round rewrites the eden it places and the link of the one before. -/
theorem placeEden_getElem? (clearSpace : Bool) (size : Nat) (layout : Layout) {i : Nat}
    (fresh : layout.lastEden ≠ some i) (j : Nat) :
    (placeEden clearSpace size layout i).edens[j]? =
      if j = i then layout.edens[j]?.map fun eden =>
        (eden.initializeSpace layout.edenStart (layout.edenStart + size)
          clearSpace).setNextCompactionSpace none
      else if layout.lastEden = some j then
        layout.edens[j]?.map fun eden => eden.setNextCompactionSpace (some i)
      else layout.edens[j]? := by
  unfold placeEden
  cases last : layout.lastEden with
  | none =>
    by_cases same : j = i
    · subst same
      simp [Function.comp_def]
    · simp [same, Ne.symm same]
  | some k =>
    have other : k ≠ i := fun same => fresh (same ▸ last)
    by_cases same : j = i
    · subst same
      simp [other, Function.comp_def]
    · by_cases trailing : j = k
      · subst trailing
        simp [same, Ne.symm same]
      · simp [same, Ne.symm same, Ne.symm trailing]

theorem placeEden_reached {start total count : Nat} {layout : Layout} (clearSpace : Bool)
    (reached : Reached start size total count layout) :
    Reached start size total (count + 1) (placeEden clearSpace size layout count) := by
  obtain ⟨length, placed, last, edenStart⟩ := reached
  constructor
  case length =>
    rw [← length]
    simp only [placeEden]
    split <;> simp only [length_modify]
  case last => simp [placeEden]
  case edenStart =>
    simp only [placeEden, edenStart, Nat.succ_mul]
    omega
  case placed =>
    intro i eden below found
    have fresh : layout.lastEden ≠ some count := by
      rw [last]
      split
      · nofun
      · intro same
        have := some.inj same
        omega
    rw [placeEden_getElem? clearSpace size layout fresh, last] at found
    by_cases here : i = count
    · subst here
      rw [if_pos rfl] at found
      obtain ⟨old, -, rfl⟩ := map_eq_some_iff.mp found
      exact ⟨by simpa [EdenSpace.setNextCompactionSpace] using edenStart,
        by simp [EdenSpace.setNextCompactionSpace, edenStart, Nat.succ_mul, add_assoc],
        by simp [EdenSpace.setNextCompactionSpace]⟩
    · rw [if_neg here] at found
      have nonzero : count ≠ 0 := by omega
      rw [if_neg nonzero] at found
      by_cases trailing : some (count - 1) = some i
      · rw [if_pos trailing] at found
        obtain ⟨old, entry, rfl⟩ := map_eq_some_iff.mp found
        obtain ⟨bottom, limit, -⟩ := placed i old (by omega) entry
        refine ⟨bottom, limit, ?_⟩
        have := some.inj trailing
        rw [if_pos (by omega)]
        exact congrArg some (by omega)
      · rw [if_neg trailing] at found
        obtain ⟨bottom, limit, next⟩ := placed i eden (by omega) found
        refine ⟨bottom, limit, ?_⟩
        have further : i + 1 < count := by
          have : count - 1 ≠ i := fun same => trailing (congrArg some same)
          omega
        rw [next, if_pos further, if_pos (by omega)]

theorem computeSpaceBoundaries_placed (space : VirtualSpace) (minimumEdenSize : Nat)
    (clearSpace : Bool) (edens : List EdenSpace) :
    (computeSpaceBoundaries space minimumEdenSize clearSpace edens).length = edens.length ∧
      ∀ i eden, (computeSpaceBoundaries space minimumEdenSize clearSpace edens)[i]? = some eden →
        Placed space.low (edenSize space.committedSize edens.length) edens.length i eden := by
  have reached : ∀ count ≤ edens.length,
      Reached space.low (edenSize space.committedSize edens.length) edens.length count
        ((range count).foldl (placeEden (clearSpace && !decide (minimumEdenSize > 0))
          (edenSize space.committedSize edens.length)) ⟨edens, none, space.low⟩) := by
    intro count bound
    induction count with
    | zero => exact ⟨rfl, nofun, rfl, by simp⟩
    | succ count ih =>
      rw [range_succ, foldl_append]
      exact placeEden_reached _ (ih (by omega))
  have whole := reached edens.length (le_refl _)
  refine ⟨whole.length, fun i eden found => whole.placed i eden ?_ found⟩
  rw [← whole.length]
  exact (List.getElem?_eq_some_iff.mp found).1

/-! ### The partition -/

theorem edenSize_mul_le (size maxTransEden : Nat) :
    maxTransEden * edenSize size maxTransEden ≤ size :=
  (Nat.mul_le_mul_left _ (Nat.div_mul_le_self _ _)).trans (Nat.mul_div_le _ _)

/-- Equal aligned regions inside the committed space, each starting where the one before ends. -/
structure Partitions (space : VirtualSpace) (edens : List EdenSpace) : Prop where
  inside : ∀ eden ∈ edens, space.low ≤ eden.bottom ∧ eden.bottom ≤ eden.limit ∧
    eden.limit ≤ space.high
  equal : ∀ eden ∈ edens, ∀ other ∈ edens,
    eden.limit - eden.bottom = other.limit - other.bottom
  aligned : ∀ eden ∈ edens, 65536 ∣ eden.bottom ∧ 65536 ∣ eden.limit
  consecutive : ∀ (i : Nat) (eden next : EdenSpace), edens[i]? = some eden →
    edens[i + 1]? = some next → eden.limit = next.bottom
  disjoint : ∀ (i j : Nat) (eden other : EdenSpace), edens[i]? = some eden →
    edens[j]? = some other → i ≠ j →
    ∀ a, eden.isInReserved a = true → other.isInReserved a = false

section
variable (placed : ∀ i eden, edens[i]? = some eden →
  Placed space.low (edenSize space.committedSize edens.length) edens.length i eden)
include placed

theorem limit_le_bottom {i j : Nat} {eden other : EdenSpace} (first : edens[i]? = some eden)
    (second : edens[j]? = some other) (earlier : i < j) : eden.limit ≤ other.bottom := by
  rw [(placed i eden first).limit, (placed j other second).bottom]
  exact Nat.add_le_add_left (Nat.mul_le_mul_right _ earlier) _

theorem partitions_of_placed : Partitions space edens := by
  have width (eden : EdenSpace) (among : eden ∈ edens) : eden.bottom ≤ eden.limit ∧
      eden.limit - eden.bottom = edenSize space.committedSize edens.length := by
    obtain ⟨i, found⟩ := mem_iff_getElem?.mp among
    rw [(placed i eden found).bottom, (placed i eden found).limit, Nat.succ_mul]
    omega
  constructor
  case inside =>
    intro eden among
    refine ⟨?_, (width eden among).1, ?_⟩
    · obtain ⟨i, found⟩ := mem_iff_getElem?.mp among
      rw [(placed i eden found).bottom]
      exact Nat.le_add_right _ _
    · obtain ⟨i, found⟩ := mem_iff_getElem?.mp among
      have index := (List.getElem?_eq_some_iff.mp found).1
      have total := edenSize_mul_le space.committedSize edens.length
      have part : (i + 1) * edenSize space.committedSize edens.length ≤ space.committedSize :=
        (Nat.mul_le_mul_right _ (Nat.succ_le_of_lt index)).trans total
      have committed : space.low + space.committedSize = space.high :=
        Nat.add_sub_of_le space.ordered
      rw [(placed i eden found).limit]
      omega
  case equal =>
    intro eden among other among'
    rw [(width eden among).2, (width other among').2]
  case aligned =>
    intro eden among
    obtain ⟨i, found⟩ := mem_iff_getElem?.mp among
    have grains : 65536 ∣ edenSize space.committedSize edens.length := dvd_mul_left _ _
    rw [(placed i eden found).bottom, (placed i eden found).limit]
    exact ⟨Nat.dvd_add space.aligned (grains.mul_left _),
      Nat.dvd_add space.aligned (grains.mul_left _)⟩
  case consecutive =>
    intro i eden next found follows
    rw [(placed i eden found).limit, (placed (i + 1) next follows).bottom]
  case disjoint =>
    intro i j eden other found found' distinct a inside
    simp only [EdenSpace.isInReserved, Bool.and_eq_true, decide_eq_true_eq, Bool.and_eq_false_iff,
      decide_eq_false_iff_not] at inside ⊢
    rcases Nat.lt_or_gt_of_ne distinct with earlier | later
    · have apart := limit_le_bottom placed found found' earlier
      omega
    · have apart := limit_le_bottom placed found' found later
      omega

/-- From any eden the chain runs through the edens above it and ends. -/
theorem followChain_of_placed {fuel i : Nat} (bound : i < edens.length)
    (enough : edens.length - i ≤ fuel) :
    followChain edens fuel (some i) = some (range' i (edens.length - i)) := by
  induction fuel generalizing i with
  | zero => omega
  | succ fuel ih =>
    have entry := getElem?_eq_getElem bound
    have next := (placed i _ entry).next
    obtain ⟨rest, more⟩ : ∃ rest, edens.length - i = rest + 1 := ⟨edens.length - i - 1, by omega⟩
    rw [followChain, entry, bind_some, next, more, range'_succ]
    by_cases further : i + 1 < edens.length
    · have tail := ih further (by omega)
      have left : edens.length - (i + 1) = rest := by omega
      rw [if_pos further, tail, left]
      rfl
    · obtain rfl : rest = 0 := by omega
      rw [if_neg further]
      cases fuel <;> rfl

end

/-- The search finds an eden exactly if the address lies in it, and no two edens share one. -/
theorem getTransEdenId_eq_iff (parts : Partitions space edens) (a i : Nat) :
    getTransEdenId edens a = i ↔ ∃ eden, edens[i]? = some eden ∧ eden.isInReserved a = true := by
  unfold getTransEdenId
  constructor
  · intro result
    split at result
    · rename_i j found
      obtain rfl : j = i := by exact_mod_cast result
      obtain ⟨bound, inside, -⟩ := findIdx?_eq_some_iff_getElem.mp found
      exact ⟨_, getElem?_eq_getElem bound, inside⟩
    · omega
  · rintro ⟨eden, entry, inside⟩
    split
    · rename_i j found
      obtain ⟨bound, there, -⟩ := findIdx?_eq_some_iff_getElem.mp found
      by_contra distinct
      have apart := parts.disjoint i j eden _ entry (getElem?_eq_getElem bound)
        (fun same => distinct (congrArg Int.ofNat same.symm)) a inside
      rw [apart] at there
      cases there
    · rename_i none_found
      have outside := findIdx?_eq_none_iff.mp none_found eden (mem_of_getElem? entry)
      rw [inside] at outside
      cases outside

theorem getTransEdenId_eq_neg_one_iff (edens : List EdenSpace) (a : Nat) :
    getTransEdenId edens a = -1 ↔ ∀ eden ∈ edens, eden.isInReserved a = false := by
  unfold getTransEdenId
  rw [← findIdx?_eq_none_iff]
  split
  · rename_i j found
    simp [found]
  · rename_i none_found
    simp [none_found]

/-- The edens' size is the one that the sizing of the generations reckons with. -/
theorem transEdenSize_toNat {p : Platform} (maxTransEden size : p.Word) :
    (transEdenSize maxTransEden size).toNat = edenSize size.toNat maxTransEden.toNat := by
  rw [transEdenSize, GenerationSizes.toNat_alignDown_grain, BitVec.toNat_udiv, edenSize]

/-- The links are those that the compaction follows. -/
theorem nextCompactionSpace_eq (heap : CompactSpaces.Heap)
    (count : heap.transEdens = edens.length)
    (placed : ∀ i eden, edens[i]? = some eden →
      Placed space.low (edenSize space.committedSize edens.length) edens.length i eden)
    {i : Nat} {eden : EdenSpace} (entry : edens[i]? = some eden) :
    heap.nextCompactionSpace ⟨.transNew, i⟩ =
      eden.nextCompactionSpace.map fun next => ⟨.transNew, next⟩ := by
  rw [(placed i eden entry).next, CompactSpaces.Heap.nextCompactionSpace,
    CompactSpaces.Heap.count, count]
  split <;> rfl

/-- The regions partition, the chain visits the edens in address order and ends, and the search
agrees with the regions at every address. -/
theorem computeSpaceBoundaries_layout (space : VirtualSpace) (minimumEdenSize : Nat)
    (clearSpace : Bool) (edens : List EdenSpace) :
    (computeSpaceBoundaries space minimumEdenSize clearSpace edens).length = edens.length ∧
      Partitions space (computeSpaceBoundaries space minimumEdenSize clearSpace edens) ∧
      (∀ fuel ≥ edens.length,
        followChain (computeSpaceBoundaries space minimumEdenSize clearSpace edens) fuel
          (firstCompactionSpace
            (computeSpaceBoundaries space minimumEdenSize clearSpace edens)) =
          some (range edens.length)) ∧
      (∀ a i : Nat,
        getTransEdenId (computeSpaceBoundaries space minimumEdenSize clearSpace edens) a = i ↔
          ∃ eden, (computeSpaceBoundaries space minimumEdenSize clearSpace edens)[i]? = some eden ∧
            eden.isInReserved a = true) ∧
      ∀ a : Nat,
        getTransEdenId (computeSpaceBoundaries space minimumEdenSize clearSpace edens) a = -1 ↔
          ∀ eden ∈ computeSpaceBoundaries space minimumEdenSize clearSpace edens,
            eden.isInReserved a = false := by
  obtain ⟨length, placed⟩ := computeSpaceBoundaries_placed space minimumEdenSize clearSpace edens
  generalize computeSpaceBoundaries space minimumEdenSize clearSpace edens = laid at *
  rw [← length] at placed ⊢
  have parts := partitions_of_placed placed
  refine ⟨rfl, parts, ?_, getTransEdenId_eq_iff parts, getTransEdenId_eq_neg_one_iff laid⟩
  intro fuel enough
  unfold firstCompactionSpace
  split
  · rename_i positive
    rw [followChain_of_placed placed positive (by omega), range_eq_range', Nat.sub_zero]
  · rename_i empty
    obtain rfl : laid = [] := eq_nil_of_length_eq_zero (by omega)
    cases fuel <;> rfl

end EdenLayout
