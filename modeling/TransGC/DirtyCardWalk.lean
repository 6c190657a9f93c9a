import Mathlib.Data.List.Nodup
import TransGC.ContigOffsets
import TransGC.NonCleanCards

/-!
# From dirty cards to references

A `ContiguousSpaceDCTOC` is given the regions of the cards that are not clean and passes the
reference slots that it finds there to its closure. It looks at arrays precisely; an object that
is not an array and reaches across the end of the region is done to its end. The lowest word
that was done bounds what the next region, which is further down, may do.

Addresses count reference slots, so that the model fits wide and compressed references alike. A
closure that wants headers has the header's slot as one more block. The preconsumption closure
of other spaces and the filter for a boundary are left out.
-/

namespace DirtyCardWalk

open BlockLayouts NonCleanCards List

structure OopMapBlock where
  offset : Nat
  length : Nat
deriving DecidableEq, Repr

/-- An object with the blocks of its reference slots, which lie inside the object and do not
overlap. -/
structure Obj where
  size : Nat
  isArray : Bool
  maps : List OopMapBlock
  positive : 0 < size
  inside : ∀ b ∈ maps, b.offset + b.length ≤ size
  apart : maps.Pairwise fun b b' =>
    b.offset + b.length ≤ b'.offset ∨ b'.offset + b'.length ≤ b.offset

namespace Obj

/-- `oop_iterate(cl)` on an object at `start`. -/
def oopIterate (o : Obj) (start : Nat) : List Nat :=
  o.maps.flatMap fun b => range' (start + b.offset) b.length

/-- One block of `oop_iterate(cl, mr)`: both ends are moved into the region. -/
def boundedBlock (p count low high : Nat) : List Nat :=
  let last := if p + count > high then high else p + count
  let p := if p < low then low else p
  range' p (last - p)

/-- `oop_iterate(cl, mr)` on an object at `start`. -/
def oopIterateIn (o : Obj) (start : Nat) (mr : MemRegion) : List Nat :=
  o.maps.flatMap fun b => boundedBlock (start + b.offset) b.length mr.start mr.stop

end Obj

/-- The objects of a contiguous space from its bottom to its top. -/
structure ContiguousSpace where
  bottom : Nat
  objects : List Obj

namespace ContiguousSpace

def top (sp : ContiguousSpace) : Nat := sp.bottom + total Obj.size sp.objects

/-- The objects that are found in memory from an address on. -/
def objectsFrom (sp : ContiguousSpace) (a : Nat) : List Obj :=
  blocksFrom Obj.size sp.bottom sp.objects a

/-- The object at an address, if one starts there. -/
def oop (sp : ContiguousSpace) (a : Nat) : Option Obj :=
  (sp.objectsFrom a).head?

def blockStart (sp : ContiguousSpace) (p : Nat) : Nat :=
  if p ≥ sp.top then sp.top else lastStart Obj.size p sp.bottom sp.bottom sp.objects

end ContiguousSpace

inductive Precision
  | precise
  | objHeadPreciseArray
deriving DecidableEq, Repr

/-- The loop of `walk_mem_region_with_cl`; no result if it reads past the last object. -/
def walkLoop (mr : MemRegion) (top : Nat) : Nat → List Obj → Option (List Nat)
  | _, [] => none
  | bottom, o :: rest =>
    let nextObj := bottom + o.size
    if nextObj < top then (walkLoop mr top nextObj rest).map (o.oopIterate bottom ++ ·)
    else some (o.oopIterateIn bottom mr)

def walkMemRegionWithCl (mr : MemRegion) (top bottom : Nat) : List Obj → Option (List Nat)
  | [] => none
  | o :: rest =>
    let next := bottom + o.size
    if next < top then (walkLoop mr top next rest).map (o.oopIterateIn bottom mr ++ ·)
    else some (o.oopIterateIn bottom mr)

def getActualTop (sp : ContiguousSpace) (precision : Precision) (top topObj : Nat) :
    Option Nat :=
  if topObj < sp.top then
    match precision with
    | .objHeadPreciseArray =>
      (sp.oop topObj).map fun o => if o.isArray then top else topObj + o.size
    | .precise => some top
  else some sp.top

/-- The closure's lowest word that was done, and the slots that were passed on so far. -/
structure Dctoc where
  minDone : Option Nat
  passed : List Nat

/-- What the constructor sets. -/
def Dctoc.new : Dctoc := ⟨none, []⟩

/-- The part of a region's top that the previous call did not do. -/
def clipTop (precision : Precision) (minDone : Option Nat) (top : Nat) : Nat :=
  match precision, minDone with
  | .objHeadPreciseArray, some done => if done < top then done else top
  | _, _ => top

def doMemRegion (sp : ContiguousSpace) (precision : Precision) (idempotent : Bool)
    (st : Dctoc) (mr : MemRegion) : Option Dctoc := do
  let bottomObj := sp.blockStart mr.start
  let topObj := sp.blockStart mr.last
  let top ← getActualTop sp precision mr.stop topObj
  let top := clipTop precision st.minDone top
  let bottom := min mr.start top
  let mr := MemRegion.between bottom top
  let slots ← if mr.IsEmpty then some [] else
    walkMemRegionWithCl mr top bottomObj (sp.objectsFrom bottomObj)
  return ⟨if idempotent then st.minDone else some bottom, st.passed ++ slots⟩

/-- The calls for the regions of a scan, in the order in which they are handed over. -/
def doMemRegions (sp : ContiguousSpace) (precision : Precision) (idempotent : Bool) :
    Dctoc → List MemRegion → Option Dctoc
  | st, [] => some st
  | st, mr :: rest => do
    let st ← doMemRegion sp precision idempotent st mr
    doMemRegions sp precision idempotent st rest

/-- The reference slots of the objects from `base` on, in address order of the objects. -/
def slotsFrom : Nat → List Obj → List Nat
  | _, [] => []
  | base, o :: rest => o.oopIterate base ++ slotsFrom (base + o.size) rest

/-- The reference slots of a space. -/
def ContiguousSpace.slots (sp : ContiguousSpace) : List Nat := slotsFrom sp.bottom sp.objects

/-- The slots from `low` on that are below `high`. -/
def slotsBetween (low high : Nat) (slots : List Nat) : List Nat :=
  slots.filter fun a => low ≤ a ∧ a < high

variable {sp : ContiguousSpace} {o : Obj} {objects rest : List Obj} {mr : MemRegion}
  {base start a low high : Nat}

theorem mem_slotsBetween {slots : List Nat} :
    a ∈ slotsBetween low high slots ↔ a ∈ slots ∧ low ≤ a ∧ a < high := by
  rw [slotsBetween, mem_filter, decide_eq_true_eq]

theorem slotsBetween_append (slots slots' : List Nat) :
    slotsBetween low high (slots ++ slots') =
      slotsBetween low high slots ++ slotsBetween low high slots' :=
  filter_append slots slots'

theorem slotsBetween_eq_self {slots : List Nat} (all : ∀ a ∈ slots, low ≤ a ∧ a < high) :
    slotsBetween low high slots = slots :=
  filter_eq_self.mpr fun a mem => decide_eq_true (all a mem)

theorem slotsBetween_eq_nil {slots : List Nat} (none : ∀ a ∈ slots, ¬ (low ≤ a ∧ a < high)) :
    slotsBetween low high slots = [] :=
  filter_eq_nil_iff.mpr fun a mem held => none a mem (of_decide_eq_true held)

theorem boundedBlock_range (p count low high : Nat) :
    Obj.boundedBlock p count low high = range' (max p low) (min (p + count) high - max p low) := by
  have first : (if p < low then low else p) = max p low := by
    split <;> omega
  have last : (if p + count > high then high else p + count) = min (p + count) high := by
    split <;> omega
  simp only [Obj.boundedBlock, first, last]

/-- Moving both ends of a block into the region keeps the slots that are in the region. -/
theorem boundedBlock_eq (p count low high : Nat) :
    Obj.boundedBlock p count low high = slotsBetween low high (range' p count) := by
  rw [boundedBlock_range]
  induction count generalizing p with
  | zero =>
    have none : min (p + 0) high - max p low = 0 := by omega
    rw [none]
    rfl
  | succ count ih =>
    have split : range' p (count + 1) = [p] ++ range' (p + 1) count := rfl
    rw [split, slotsBetween_append, ← ih (p + 1)]
    by_cases inside : low ≤ p ∧ p < high
    · have first : slotsBetween low high [p] = [p] := slotsBetween_eq_self (by simpa using inside)
      have start : max p low = p := by omega
      have next : max (p + 1) low = p + 1 := by omega
      have more : min (p + (count + 1)) high - p = min (p + 1 + count) high - (p + 1) + 1 := by
        omega
      rw [first, start, next, more]
      rfl
    · have first : slotsBetween low high [p] = [] := slotsBetween_eq_nil (by simpa using inside)
      rw [first, nil_append]
      by_cases below : p < low
      · have start : max p low = max (p + 1) low := by omega
        rw [start, add_right_comm, add_assoc]
      · -- the whole block is above the region
        have gone : min (p + (count + 1)) high - max p low = 0 := by omega
        have gone' : min (p + 1 + count) high - max (p + 1) low = 0 := by omega
        rw [gone, gone']
        rfl

theorem oopIterateIn_eq (o : Obj) (start : Nat) (mr : MemRegion) :
    o.oopIterateIn start mr = slotsBetween mr.start mr.stop (o.oopIterate start) := by
  rw [Obj.oopIterateIn, Obj.oopIterate, slotsBetween, filter_flatMap]
  simp only [boundedBlock_eq]
  rfl

theorem oopIterate_bounds (mem : a ∈ o.oopIterate start) : start ≤ a ∧ a < start + o.size := by
  obtain ⟨b, listed, inRange⟩ := mem_flatMap.mp mem
  have inside := o.inside b listed
  have bounds := mem_range'_1.mp inRange
  omega

theorem slotsFrom_bounds (mem : a ∈ slotsFrom base objects) :
    base ≤ a ∧ a < base + total Obj.size objects := by
  induction objects generalizing base with
  | nil => exact absurd mem not_mem_nil
  | cons o rest ih =>
    rw [total_cons]
    rcases mem_append.mp mem with here | later
    · have := oopIterate_bounds here
      omega
    · have := ih later
      omega

theorem oopIterate_nodup (o : Obj) (start : Nat) : (o.oopIterate start).Nodup := by
  refine nodup_flatMap.mpr ⟨fun b _ => nodup_range', ?_⟩
  refine o.apart.imp ?_
  intro b b' apart a inB inB'
  have := mem_range'_1.mp inB
  have := mem_range'_1.mp inB'
  omega

/-- A slot belongs to one object only and occurs once in it. -/
theorem slotsFrom_nodup (base : Nat) (objects : List Obj) : (slotsFrom base objects).Nodup := by
  induction objects generalizing base with
  | nil => exact nodup_nil
  | cons o rest ih =>
    refine nodup_append.mpr ⟨oopIterate_nodup o base, ih _, ?_⟩
    intro a here b later
    have := oopIterate_bounds here
    have := slotsFrom_bounds later
    omega

/-- The slots from an object on are those of the layout that are not below it. -/
theorem From.slots (found : From Obj.size base objects start rest) (inside : start ≤ low) :
    slotsBetween low high (slotsFrom base objects) =
      slotsBetween low high (slotsFrom start rest) := by
  induction found with
  | here => rfl
  | @later base o objects start rest found ih =>
    have before : slotsBetween low high (o.oopIterate base) = [] := by
      refine slotsBetween_eq_nil ?_
      intro a mem held
      have := oopIterate_bounds mem
      have := found.base_le
      omega
    rw [slotsFrom, slotsBetween_append, before, nil_append, ih inside]

theorem walkLoop_eq (objects : List Obj) (low : mr.start ≤ base) (short : base < mr.stop)
    (room : mr.stop ≤ base + total Obj.size objects) :
    walkLoop mr mr.stop base objects =
      some (slotsBetween mr.start mr.stop (slotsFrom base objects)) := by
  induction objects generalizing base with
  | nil => exact absurd room (not_le_of_gt short)
  | cons o rest ih =>
    rw [total_cons, ← add_assoc] at room
    rw [slotsFrom, slotsBetween_append]
    simp only [walkLoop]
    split
    next more =>
      have whole : slotsBetween mr.start mr.stop (o.oopIterate base) = o.oopIterate base := by
        refine slotsBetween_eq_self ?_
        intro a mem
        have := oopIterate_bounds mem
        omega
      rw [ih (by omega) more room, whole]
      rfl
    next last =>
      have none : slotsBetween mr.start mr.stop (slotsFrom (base + o.size) rest) = [] := by
        refine slotsBetween_eq_nil ?_
        intro a mem
        have := slotsFrom_bounds mem
        omega
      rw [none, append_nil, oopIterateIn_eq]

/-- A walk that starts with the object of the region's first word passes the slots of the
region. -/
theorem walkMemRegionWithCl_eq (mr : MemRegion)
    (found : From Obj.size sp.bottom sp.objects start (o :: rest)) (low : start ≤ mr.start)
    (inside : mr.start < start + o.size) (room : mr.stop ≤ sp.top) :
    walkMemRegionWithCl mr mr.stop start (o :: rest) =
      some (slotsBetween mr.start mr.stop sp.slots) := by
  have ends := found.total_eq
  rw [total_cons] at ends
  rw [ContiguousSpace.top] at room
  rw [ContiguousSpace.slots, From.slots found low, slotsFrom, slotsBetween_append]
  simp only [walkMemRegionWithCl]
  split
  next more =>
    rw [walkLoop_eq rest (by omega) more (by omega), oopIterateIn_eq]
    rfl
  next last =>
    have none : slotsBetween mr.start mr.stop (slotsFrom (start + o.size) rest) = [] := by
      refine slotsBetween_eq_nil ?_
      intro a mem
      have := slotsFrom_bounds mem
      omega
    rw [none, append_nil, oopIterateIn_eq]

theorem objectsFrom_eq (found : From Obj.size sp.bottom sp.objects start (o :: rest)) :
    sp.objectsFrom start = o :: rest :=
  blocksFrom_eq (fun o _ => o.positive) found

/-- The block start of an address below the top is the start of its object. -/
theorem blockStart_from (low : sp.bottom ≤ a) (high : a < sp.top) :
    ∃ o rest, From Obj.size sp.bottom sp.objects (sp.blockStart a) (o :: rest) ∧
      sp.blockStart a ≤ a ∧ a < sp.blockStart a + o.size := by
  obtain ⟨start, o, rest, found, inside⟩ := exists_from low high
  have same : sp.blockStart a = start := by
    rw [ContiguousSpace.blockStart, if_neg (not_le_of_gt high)]
    exact lastStart_eq found inside.1 inside.2
  rw [same]
  exact ⟨o, rest, found, inside⟩

/-- The object starts at the address. -/
abbrev ContiguousSpace.ObjectAt (sp : ContiguousSpace) (start : Nat) (o : Obj) : Prop :=
  At Obj.size sp.bottom sp.objects start o

/-- The actual top is not below the end of the region, as far as there are objects, nor of any
object with a head in or below it that is not an array. -/
theorem getActualTop_spec (low : sp.bottom ≤ mr.start) (nonempty : 0 < mr.wordSize) :
    ∃ top, getActualTop sp .objHeadPreciseArray mr.stop (sp.blockStart mr.last) = some top ∧
      top ≤ sp.top ∧ min mr.stop sp.top ≤ top ∧
      ∀ start o, sp.ObjectAt start o → o.isArray = false → start < mr.stop →
        start + o.size ≤ top := by
  have lastEq : mr.last + 1 = mr.stop := by
    rw [MemRegion.last, MemRegion.stop]
    omega
  by_cases inside : mr.last < sp.top
  · have lowLast : sp.bottom ≤ mr.last := by
      rw [MemRegion.last]
      omega
    obtain ⟨o, rest, found, start, stop⟩ := blockStart_from lowLast inside
    have read : sp.oop (sp.blockStart mr.last) = some o := by
      rw [ContiguousSpace.oop, objectsFrom_eq found]
      rfl
    have ends : sp.blockStart mr.last + o.size ≤ sp.top := At.stop_le ⟨rest, found⟩
    refine ⟨if o.isArray then mr.stop else sp.blockStart mr.last + o.size, ?_, ?_, ?_, ?_⟩
    · rw [getActualTop, if_pos (by omega), read]
      rfl
    · split <;> omega
    · split <;> omega
    · intro start' o' found' plain before
      rcases At.apart found' ⟨rest, found⟩ with earlier | later | ⟨rfl, rfl⟩
      · split <;> omega
      · omega
      · rw [plain]
        exact le_refl _
  · have above : sp.blockStart mr.last = sp.top := if_pos (le_of_not_gt inside)
    refine ⟨sp.top, ?_, le_refl _, min_le_right _ _, ?_⟩
    · rw [getActualTop, above, if_neg (lt_irrefl _)]
    · exact fun start o found _ _ => found.stop_le

/-- The lowest word that was done; before the first call, the top of the space. -/
def Dctoc.limit (sp : ContiguousSpace) (st : Dctoc) : Nat := st.minDone.getD sp.top

theorem clipTop_eq {st : Dctoc} {top : Nat} (bounded : top ≤ sp.top) :
    clipTop .objHeadPreciseArray st.minDone top = min top (st.limit sp) := by
  cases done : st.minDone with
  | none =>
    rw [Dctoc.limit, done]
    exact (min_eq_left bounded).symm
  | some done' =>
    rw [Dctoc.limit, done]
    simp only [clipTop, Option.getD_some]
    split <;> omega

/-- One call passes the slots from the region's start to its actual top, below what was done. -/
theorem doMemRegion_eq (st : Dctoc) (low : sp.bottom ≤ mr.start) {top : Nat}
    (actual : getActualTop sp .objHeadPreciseArray mr.stop (sp.blockStart mr.last) = some top)
    (bounded : top ≤ sp.top) :
    doMemRegion sp .objHeadPreciseArray false st mr =
      some ⟨some (min mr.start (min top (st.limit sp))),
        st.passed ++ slotsBetween mr.start (min top (st.limit sp)) sp.slots⟩ := by
  rw [doMemRegion, actual]
  simp only [Option.bind_eq_bind, Option.bind_some, clipTop_eq bounded, Bool.false_eq_true,
    if_false]
  generalize highEq : min top (st.limit sp) = high
  have highLe : high ≤ sp.top := by omega
  by_cases nothing : high ≤ mr.start
  · have none : slotsBetween mr.start high sp.slots = [] :=
      slotsBetween_eq_nil fun a _ held => by omega
    have isEmpty : (MemRegion.between (min mr.start high) high).IsEmpty := by
      rw [min_eq_right nothing]
      exact Nat.sub_self high
    rw [if_pos isEmpty, none]
    rfl
  · have whole : min mr.start high = mr.start := by omega
    have words : (MemRegion.between mr.start high).stop = high := by
      simp only [MemRegion.stop, MemRegion.between]
      omega
    have nonempty : ¬ (MemRegion.between mr.start high).IsEmpty := by
      simp only [MemRegion.IsEmpty, MemRegion.between]
      omega
    obtain ⟨o, rest, found, start, stop⟩ := blockStart_from low (by omega : mr.start < sp.top)
    have walk := walkMemRegionWithCl_eq (MemRegion.between mr.start high) found start stop
      (words.symm ▸ highLe)
    rw [words] at walk
    rw [whole, if_neg nonempty, objectsFrom_eq found, walk]
    rfl

/-- Besides the slots that had to be passed, the slots above the limit of an object with its head
below the limit were passed: a later region that has the head stops at the limit. -/
structure Passed (sp : ContiguousSpace) (done : List MemRegion) (st : Dctoc) : Prop where
  limit_iff : ∀ a, a < st.limit sp ↔ a < sp.top ∧ ∀ r ∈ done, a < r.start
  nodup : st.passed.Nodup
  sound : ∀ a ∈ st.passed, a ∈ sp.slots ∧ st.limit sp ≤ a
  own : ∀ r ∈ done, ∀ a ∈ sp.slots, r.Contains a → a ∈ st.passed
  head : ∀ r ∈ done, ∀ start o, sp.ObjectAt start o → o.isArray = false → r.Contains start →
    ∀ a ∈ o.oopIterate start, a ∈ st.passed
  rest : ∀ start o, sp.ObjectAt start o → o.isArray = false → start < st.limit sp →
    ∀ a ∈ o.oopIterate start, st.limit sp ≤ a → a ∈ st.passed

theorem passed_new (sp : ContiguousSpace) : Passed sp [] Dctoc.new where
  limit_iff a := by
    constructor
    · exact fun below => ⟨below, fun r listed => absurd listed not_mem_nil⟩
    · exact fun below => below.1
  nodup := nodup_nil
  sound a mem := absurd mem not_mem_nil
  own r listed := absurd listed not_mem_nil
  head r listed := absurd listed not_mem_nil
  rest start o found _ _ a mem above := by
    have := oopIterate_bounds mem
    have := found.stop_le
    have same : Dctoc.new.limit sp = sp.top := rfl
    have topEq : sp.top = sp.bottom + total Obj.size sp.objects := rfl
    omega

theorem mem_slotsFrom : a ∈ slotsFrom base objects ↔
    ∃ start o, At Obj.size base objects start o ∧ a ∈ o.oopIterate start := by
  induction objects generalizing base with
  | nil =>
    constructor
    · exact fun mem => absurd mem not_mem_nil
    · rintro ⟨start, o, ⟨rest, found⟩, -⟩
      nomatch found
  | cons c objects ih =>
    rw [slotsFrom, mem_append, ih]
    constructor
    · rintro (here | ⟨start, o, ⟨rest, found⟩, mem⟩)
      · exact ⟨base, c, ⟨objects, From.here _ _⟩, here⟩
      · exact ⟨start, o, ⟨rest, From.later found⟩, mem⟩
    · rintro ⟨start, o, ⟨rest, found⟩, mem⟩
      cases found with
      | here => exact Or.inl mem
      | later found => exact Or.inr ⟨start, o, ⟨rest, found⟩, mem⟩

/-- A region of the scan: not empty, inside the space, and below the regions before it. -/
structure Next (sp : ContiguousSpace) (done : List MemRegion) (mr : MemRegion) : Prop where
  low : sp.bottom ≤ mr.start
  nonempty : 0 < mr.wordSize
  below : ∀ r ∈ done, mr.stop ≤ r.start

theorem doMemRegion_passed {done : List MemRegion} {st : Dctoc} (inv : Passed sp done st)
    (next : Next sp done mr) :
    ∃ st', doMemRegion sp .objHeadPreciseArray false st mr = some st' ∧
      Passed sp (done ++ [mr]) st' := by
  obtain ⟨top, actual, bounded, reaches, heads⟩ := getActualTop_spec next.low next.nonempty
  refine ⟨_, doMemRegion_eq st next.low actual bounded, ?_⟩
  have start : mr.start < mr.stop := Nat.lt_add_of_pos_right next.nonempty
  -- words of the region are below everything that was done
  have fresh {a : Nat} (inside : a < mr.stop) (used : a < sp.top) : a < st.limit sp :=
    (inv.limit_iff a).mpr ⟨used, fun r listed => lt_of_lt_of_le inside (next.below r listed)⟩
  have added {a : Nat} (slot : a ∈ sp.slots) (above : mr.start ≤ a) (below : a < top)
      (new : a < st.limit sp) :
      a ∈ st.passed ++ slotsBetween mr.start (min top (st.limit sp)) sp.slots :=
    mem_append_right _ (mem_slotsBetween.mpr ⟨slot, above, by omega⟩)
  have slotOf {start a : Nat} {o : Obj} (found : sp.ObjectAt start o)
      (mem : a ∈ o.oopIterate start) : a ∈ sp.slots := mem_slotsFrom.mpr ⟨start, o, found, mem⟩
  have usedOf {a : Nat} (slot : a ∈ sp.slots) : a < sp.top := (slotsFrom_bounds slot).2
  constructor
  · intro a
    simp only [Dctoc.limit, Option.getD_some, forall_mem_append, forall_mem_singleton]
    constructor
    · intro under
      have old := (inv.limit_iff a).mp (by simp only [Dctoc.limit]; omega)
      exact ⟨old.1, old.2, by omega⟩
    · rintro ⟨used, old, under⟩
      have := (inv.limit_iff a).mpr ⟨used, old⟩
      simp only [Dctoc.limit] at this
      omega
  · refine nodup_append.mpr ⟨inv.nodup, (slotsFrom_nodup _ _).filter _, ?_⟩
    intro a old b new
    have := (inv.sound a old).2
    have := (mem_slotsBetween.mp new).2
    omega
  · intro a mem
    simp only [Dctoc.limit, Option.getD_some]
    rcases mem_append.mp mem with old | new
    · have := (inv.sound a old).2
      simp only [Dctoc.limit] at this
      exact ⟨(inv.sound a old).1, by omega⟩
    · have := mem_slotsBetween.mp new
      exact ⟨this.1, by omega⟩
  · intro r listed a slot inside
    rcases mem_append.mp listed with old | new
    · exact mem_append_left _ (inv.own r old a slot inside)
    · obtain rfl := mem_singleton.mp new
      have used := usedOf slot
      have := inside.2
      exact added slot inside.1 (by omega) (fresh inside.2 used)
  · intro r listed start' o found plain inside a mem
    rcases mem_append.mp listed with old | new
    · exact mem_append_left _ (inv.head r old start' o found plain inside a mem)
    · obtain rfl := mem_singleton.mp new
      have bounds := oopIterate_bounds mem
      have slot := slotOf found mem
      have headLow := inside.1
      have whole := heads start' o found plain inside.2
      by_cases new : a < st.limit sp
      · exact added slot (by omega) (by omega) new
      · -- the part above the limit was passed with an earlier region
        exact mem_append_left _ (inv.rest start' o found plain (fresh inside.2 (by omega)) a
          mem (le_of_not_gt new))
  · intro start' o found plain under a mem above
    simp only [Dctoc.limit, Option.getD_some] at under above
    have bounds := oopIterate_bounds mem
    have whole := heads start' o found plain (by omega)
    by_cases new : a < st.limit sp
    · have lower : mr.start ≤ a := by
        simp only [Dctoc.limit] at new
        omega
      exact added (slotOf found mem) lower (by omega) new
    · have oldUnder : start' < st.limit sp := by
        simp only [Dctoc.limit]
        omega
      exact mem_append_left _ (inv.rest start' o found plain oldUnder a mem
        (le_of_not_gt new))

/-- The regions of a whole scan, in decreasing order. -/
def Decreasing (sp : ContiguousSpace) (regions : List MemRegion) : Prop :=
  (∀ mr ∈ regions, sp.bottom ≤ mr.start ∧ 0 < mr.wordSize) ∧
    regions.Pairwise fun earlier later => later.stop ≤ earlier.start

theorem doMemRegions_passed {done regions : List MemRegion} {st : Dctoc}
    (inv : Passed sp done st) (decreasing : Decreasing sp (done ++ regions)) :
    ∃ st', doMemRegions sp .objHeadPreciseArray false st regions = some st' ∧
      Passed sp (done ++ regions) st' := by
  induction regions generalizing done st with
  | nil => exact ⟨st, rfl, (append_nil done).symm ▸ inv⟩
  | cons mr regions ih =>
    have here := decreasing.1 mr (mem_append_right _ mem_cons_self)
    have below := (pairwise_append.mp decreasing.2).2.2
    obtain ⟨st', stepped, inv'⟩ := doMemRegion_passed inv
      ⟨here.1, here.2, fun r listed => below r listed mr mem_cons_self⟩
    rw [append_cons] at decreasing ⊢
    obtain ⟨st'', finished, inv''⟩ := ih inv' decreasing
    refine ⟨st'', ?_, inv''⟩
    rw [doMemRegions, stepped]
    exact finished

/-- The region is what some cards have in common with the scanned part of the space. -/
structure CardRegion (setting : Setting) (part r : MemRegion) : Prop where
  within : Within r part
  cards : ∀ a b, part.Contains a → r.Contains b → setting.cardFor a = setting.cardFor b →
    r.Contains a
  nonempty : 0 < r.wordSize

/-- The word is in the scanned part and its card is in one of the regions. -/
def CardIn (setting : Setting) (part : MemRegion) (regions : List MemRegion) (a : Nat) : Prop :=
  part.Contains a ∧ ∃ r ∈ regions, ∃ b, r.Contains b ∧ setting.cardFor a = setting.cardFor b

theorem CardIn.contains {setting : Setting} {part : MemRegion} {regions : List MemRegion}
    (regular : ∀ r ∈ regions, CardRegion setting part r) (card : CardIn setting part regions a) :
    ∃ r ∈ regions, r.Contains a := by
  obtain ⟨inside, r, listed, b, inR, same⟩ := card
  exact ⟨r, listed, (regular r listed).cards a b inside inR same⟩

/-- For every layout of objects and all card regions in decreasing order, each slot is passed at
most once. A slot is passed if its own card is in a region, or if the object is not an array and the
card of its first word is. -/
theorem slots_passed_once (setting : Setting) (sp : ContiguousSpace) (part : MemRegion)
    (regions : List MemRegion) (inSpace : sp.bottom ≤ part.start)
    (regular : ∀ r ∈ regions, CardRegion setting part r)
    (decreasing : regions.Pairwise fun earlier later => later.stop ≤ earlier.start) :
    ∃ st, doMemRegions sp .objHeadPreciseArray false Dctoc.new regions = some st ∧
      st.passed.Nodup ∧ (∀ a ∈ st.passed, a ∈ sp.slots) ∧
      ∀ start o, sp.ObjectAt start o → ∀ a ∈ o.oopIterate start,
        CardIn setting part regions a ∨
          (o.isArray = false ∧ CardIn setting part regions start) → a ∈ st.passed := by
  have bounds (r : MemRegion) (listed : r ∈ regions) : sp.bottom ≤ r.start ∧ 0 < r.wordSize := by
    have piece := regular r listed
    have first : part.Contains r.start :=
      piece.within r.start ⟨le_refl _, Nat.lt_add_of_pos_right piece.nonempty⟩
    exact ⟨le_trans inSpace first.1, piece.nonempty⟩
  obtain ⟨st, finished, inv⟩ := doMemRegions_passed (passed_new sp) ⟨bounds, decreasing⟩
  refine ⟨st, finished, inv.nodup, fun a mem => (inv.sound a mem).1, ?_⟩
  rintro start o found a mem (own | ⟨plain, head⟩)
  · obtain ⟨r, listed, inside⟩ := own.contains regular
    exact inv.own r listed a (mem_slotsFrom.mpr ⟨start, o, found, mem⟩) inside
  · obtain ⟨r, listed, inside⟩ := head.contains regular
    exact inv.head r listed start o found plain inside a mem

/-- An object of ten slots in front of an array. -/
def objectThenArray : ContiguousSpace where
  bottom := 0
  objects := [⟨10, false, [⟨1, 9⟩], by decide, by decide, by decide⟩,
    ⟨6, true, [⟨2, 4⟩], by decide, by decide, by decide⟩]

/-- Cards of four words. -/
private def smallCards : Setting := ⟨false, 4, Nat.succ_pos _⟩

/-- Two cards are dirty: the slots on the card in between are passed with the lower one. -/
theorem slots_passed_once_across :
    ∃ st, doMemRegions objectThenArray .objHeadPreciseArray false Dctoc.new [⟨8, 4⟩, ⟨0, 4⟩] =
        some st ∧ st.passed = [8, 9, 1, 2, 3, 4, 5, 6, 7] ∧ st.passed.Nodup := by
  have regular : ∀ r ∈ [(⟨8, 4⟩ : MemRegion), ⟨0, 4⟩], CardRegion smallCards ⟨0, 16⟩ r := by
    intro r listed
    simp only [mem_cons, not_mem_nil, or_false] at listed
    rcases listed with rfl | rfl <;> constructor <;>
      simp only [Within, MemRegion.contains_iff, Setting.cardFor, smallCards] <;> omega
  obtain ⟨st, finished, nodup, -⟩ := slots_passed_once smallCards objectThenArray ⟨0, 16⟩
    [⟨8, 4⟩, ⟨0, 4⟩] (by decide) regular (by decide)
  refine ⟨st, finished, ?_, nodup⟩
  have computed : (doMemRegions objectThenArray .objHeadPreciseArray false Dctoc.new
      [⟨8, 4⟩, ⟨0, 4⟩]).map Dctoc.passed = some [8, 9, 1, 2, 3, 4, 5, 6, 7] := by decide
  rw [finished] at computed
  exact Option.some.inj computed

section Scan

variable {setting : Setting} {clear : Bool} {covered r : MemRegion} {cards : Cards}

/-- The walk over the cards of a covered region hands over card regions. -/
theorem walkCovered_regular
    (listed : r ∈ (walkCovered setting clear mr covered cards).handed) :
    CardRegion setting (mr.intersection covered) r := by
  simp only [walkCovered] at listed
  split at listed
  next nonempty =>
    generalize mr.intersection covered = mri at nonempty listed
    obtain ⟨first, count, positive, low, high, rfl⟩ := walkDown_pieces listed
    have lowHigh : setting.cardFor mri.start ≤ setting.cardFor mri.last := by
      refine Nat.div_le_div_right ?_
      rw [MemRegion.last]
      omega
    refine ⟨?_, ?_, ?_⟩
    · intro a inside
      exact (MemRegion.contains_intersection.mp inside).2
    · intro a b inside inR same
      rw [MemRegion.contains_intersection, contains_run] at inR ⊢
      exact ⟨same ▸ inR.1, inside⟩
    · -- the first card of the run has a word of the region
      obtain ⟨a, inside, same⟩ := (card_of_word nonempty).mp
        ⟨low, (by omega : first < setting.cardFor mri.last + 1)⟩
      have inR : ((⟨setting.addrFor first, count * setting.cardSizeInWords⟩ :
          MemRegion).intersection mri).Contains a := by
        rw [MemRegion.contains_intersection, contains_run]
        exact ⟨⟨same.ge, by omega⟩, inside⟩
      have := MemRegion.contains_iff.mp inR
      omega
  next => exact absurd listed not_mem_nil

theorem walkCovered_decreasing (setting : Setting) (clear : Bool) (mr covered : MemRegion)
    (cards : Cards) :
    (walkCovered setting clear mr covered cards).handed.Pairwise
      fun earlier later => later.stop ≤ earlier.start := by
  have walk := walkCovered_walk setting clear mr covered cards
  refine (List.Pairwise.and_mem.mp walk.decreasing).imp ?_
  rintro earlier later ⟨listed, listed', above⟩
  have first := (walkCovered_regular listed).nonempty
  have second := (walkCovered_regular listed').nonempty
  have order := above earlier.start later.last ⟨le_refl _, Nat.lt_add_of_pos_right first⟩
    ⟨by rw [MemRegion.last]; omega, by rw [MemRegion.last, MemRegion.stop]; omega⟩
  rw [MemRegion.last] at order
  rw [MemRegion.stop]
  omega

/-- In the scan of one covered region every slot on a card that is not clean is passed exactly once,
and so is every slot of an object, no array, whose first word is on such a card. -/
theorem covered_slots_passed (sp : ContiguousSpace) (setting : Setting) (clear : Bool)
    (mr covered : MemRegion) (cards : Cards) (inSpace : sp.bottom ≤ mr.start) :
    ∃ st, doMemRegions sp .objHeadPreciseArray false Dctoc.new
        (walkCovered setting clear mr covered cards).handed = some st ∧
      st.passed.Nodup ∧
      ∀ start o, sp.ObjectAt start o → ∀ a ∈ o.oopIterate start,
        Wanted setting mr [covered] cards a ∨
          (o.isArray = false ∧ Wanted setting mr [covered] cards start) → a ∈ st.passed := by
  have walk := walkCovered_walk setting clear mr covered cards
  have bounds (r : MemRegion) (listed : r ∈ (walkCovered setting clear mr covered cards).handed) :
      sp.bottom ≤ r.start ∧ 0 < r.wordSize := by
    have positive := (walkCovered_regular listed).nonempty
    have first := ((walk.covers r.start).mp
      ⟨r, listed, le_refl _, Nat.lt_add_of_pos_right positive⟩).1
    exact ⟨le_trans inSpace first.1, positive⟩
  have found {a : Nat} (wanted : Wanted setting mr [covered] cards a) :
      ∃ r ∈ (walkCovered setting clear mr covered cards).handed, r.Contains a := by
    obtain ⟨given, ⟨x, mem, inside⟩, dirty⟩ := wanted
    obtain rfl := mem_singleton.mp mem
    exact (walk.covers a).mpr ⟨given, inside, dirty⟩
  obtain ⟨st, finished, inv⟩ := doMemRegions_passed (passed_new sp)
    ⟨bounds, walkCovered_decreasing setting clear mr covered cards⟩
  refine ⟨st, finished, inv.nodup, ?_⟩
  rintro start o object a mem (own | ⟨plain, head⟩)
  · obtain ⟨r, listed, inside⟩ := found own
    exact inv.own r listed a (mem_slotsFrom.mpr ⟨start, o, object, mem⟩) inside
  · obtain ⟨r, listed, inside⟩ := found head
    exact inv.head r listed start o object plain inside a mem

/-- The slot lies on a clean card; the head of its object does not. -/
theorem covered_slots_passed_behind :
    ∃ st, doMemRegions objectThenArray .objHeadPreciseArray false Dctoc.new
        (walkCovered smallCards false ⟨0, 16⟩ ⟨0, 16⟩ twoDirty).handed = some st ∧
      st.passed.Nodup ∧ 9 ∈ st.passed := by
  obtain ⟨st, finished, nodup, passed⟩ := covered_slots_passed objectThenArray smallCards false
    ⟨0, 16⟩ ⟨0, 16⟩ twoDirty (Nat.zero_le _)
  have head : Wanted smallCards ⟨0, 16⟩ [⟨0, 16⟩] twoDirty 0 :=
    ⟨by decide, ⟨_, mem_singleton_self _, by decide⟩, by decide⟩
  exact ⟨st, finished, nodup, passed 0 _ ⟨_, From.here _ _⟩ 9 (by decide) (.inr ⟨rfl, head⟩)⟩

end Scan

section Table

open ContigOffsets

/-- In a space with an offset table the lookup through the table finds what the walk over the
objects from the bottom finds. -/
theorem blockStart_through_table (area : Area) (table : BlockOffsets.Table)
    (zero : table area.bottomIndex = 0) (objects : List Obj)
    (short : ∀ o ∈ objects, o.size < 2 ^ 28 * area.nWords) (p : Nat) (low : area.bottom ≤ p)
    (high : p < (ContiguousSpace.mk area.bottom objects).top) :
    blockStartUnsafe area (allocBlocks area (initializeThreshold area table) area.bottom
      (objects.map Obj.size)) (objects.map Obj.size) p =
        some ((ContiguousSpace.mk area.bottom objects).blockStart p) := by
  have regular : ∀ size ∈ objects.map Obj.size, 0 < size ∧ size < 2 ^ 28 * area.nWords :=
    forall_mem_map.mpr fun o mem => ⟨o.positive, short o mem⟩
  have words : total id (objects.map Obj.size) = total Obj.size objects := by
    rw [total, map_id, total]
  obtain ⟨start, size, ⟨rest, found⟩, le, lt, same⟩ :=
    ((initializeThreshold_indexed zero).allocBlocks regular).blockStartUnsafe
      (fun size mem => (regular size mem).1) low (words ▸ high)
  refine same.trans (congrArg some ?_)
  rw [ContiguousSpace.blockStart, if_neg (not_le_of_gt high), ← lastStart_map]
  exact (lastStart_eq found le lt).symm

theorem blockStart_through_table_second :
    blockStartUnsafe smallArea (allocBlocks smallArea (initializeThreshold smallArea fun _ => 0) 8
      [10, 6]) [10, 6] 20 = some 18 :=
  blockStart_through_table smallArea _ rfl objectThenArray.objects (by decide) 20 (by decide)
    (by decide)

end Table

end DirtyCardWalk
