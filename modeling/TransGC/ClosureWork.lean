import TransGC.EdenScan

/-!
# The two scanning closures

`ScanClosure` and `FastScanClosure` do the same work on a slot, each by its own text: the fast one
applies the barrier once more to a slot that it has redirected, and it may count the object for
the residual demographics. The closure of `EdenScan` is one case of the fast one.
-/
namespace ClosureWork
open EdenTable ObjectHeap EdenScan

/-- The fields of a closure and the flags it reads; `residualStat` counts an object in the
demographics. -/
structure Closure (Demographics : Type) where
  lowerBoundary : Nat
  upperBoundary : Nat
  generation : Region
  gcBarrier : Bool
  transNew : Bool
  useTypeGenGC : Bool
  debugTypeGenGC : Bool
  residualDemographics : Bool
  copyDefNew : Scan → Nat → Nat × Scan
  copyTransNew : Scan → Nat → Nat × Scan
  residualStat : Nat → Slot → Demographics → Demographics

variable {Demographics : Type} (c : Collector) (k : Closure Demographics)

namespace Closure

def inBoundaries (obj : Nat) : Bool := k.lowerBoundary ≤ obj && obj < k.upperBoundary

/-- The two branches on the kind of the generation, for an object that is forwarded or copied. -/
def newObj (σ : Scan) (obj : Nat) : Nat × Scan :=
  if k.transNew = false then
    if σ.isForwarded obj then (c.forwardee σ.toHeap obj, σ) else k.copyDefNew σ obj
  else if σ.isForwarded obj then (c.forwardee σ.toHeap obj, σ)
  else k.copyTransNew σ obj

/-- `OopsInGenClosure::do_barrier`. A slot outside the heap has no card. -/
def doBarrier (heap : Heap) (s : Slot) : Region → Nat → Card :=
  match s with
  | .field obj offset =>
    let value := heap.words s
    let marked :=
      if value < c.start k.generation then
        writeCard heap.cards k.generation (obj + offset) .youngergen
      else heap.cards
    if k.useTypeGenGC then
      if k.generation = .gen0 ∧ c.regionOf value = .gen1 then
        writeCard marked k.generation (obj + offset) .localToRemote
      else if k.generation = .gen1 ∧ c.regionOf value = .gen1 ∧
          c.transEdenId heap (obj + offset) ≠ c.transEdenId heap value then
        writeCard marked k.generation (obj + offset) .localToRemote
      else marked
    else marked
  | _ => heap.cards

def applyBarrier (σ : Scan) (s : Slot) : Scan :=
  if k.gcBarrier then { σ with cards := k.doBarrier c σ.toHeap s } else σ

/-- `ScanClosure::do_oop_work`. -/
def scan (state : Scan × Demographics) (s : Slot) : Scan × Demographics :=
  let (σ, demographics) := state
  let obj := σ.words s
  if obj = 0 then (σ, demographics)
  else
    let σ :=
      if k.inBoundaries obj then
        let new := k.newObj c σ obj
        new.2.store s new.1
      else σ
    (k.applyBarrier c σ s, demographics)

/-- `FastScanClosure::do_oop_work`. -/
def fastScan (state : Scan × Demographics) (s : Slot) : Scan × Demographics :=
  let (σ, demographics) := state
  let obj := σ.words s
  if obj = 0 then (σ, demographics)
  else
    let counts := k.inBoundaries obj && k.transNew && k.debugTypeGenGC && !σ.isForwarded obj &&
      k.residualDemographics
    let σ :=
      if k.inBoundaries obj then
        let new := k.newObj c σ obj
        k.applyBarrier c (new.2.store s new.1) s
      else σ
    (k.applyBarrier c σ s,
      if counts then k.residualStat obj s demographics else demographics)

end Closure

variable {c k} {heap : Heap} {s : Slot}

/-! ### The barrier -/

theorem writeCard_writeCard (cards : Region → Nat → Card) (region : Region) (a : Nat)
    (first second : Card) :
    writeCard (writeCard cards region a first) region a second = writeCard cards region a second := by
  simp [writeCard]

/-- The value that the card of a slot ends up with, if the barrier writes to it. -/
def barrierCard (c : Collector) (k : Closure Demographics) (heap : Heap) (obj offset : Nat) :
    Option Card :=
  let value := heap.words (.field obj offset)
  if k.useTypeGenGC = true ∧ c.regionOf value = .gen1 ∧ (k.generation = .gen0 ∨
      k.generation = .gen1 ∧ c.transEdenId heap (obj + offset) ≠ c.transEdenId heap value) then
    some .localToRemote
  else if value < c.start k.generation then some .youngergen
  else none

theorem doBarrier_field (obj offset : Nat) :
    k.doBarrier c heap (.field obj offset) = (barrierCard c k heap obj offset).elim heap.cards
      (writeCard heap.cards k.generation (obj + offset)) := by
  -- The second write covers the first.
  have covers : writeCard (if heap.words (.field obj offset) < c.start k.generation then
        writeCard heap.cards k.generation (obj + offset) .youngergen else heap.cards)
      k.generation (obj + offset) .localToRemote =
        writeCard heap.cards k.generation (obj + offset) .localToRemote := by
    split
    · exact writeCard_writeCard ..
    · rfl
  simp only [Closure.doBarrier, barrierCard, covers]
  grind

theorem doBarrier_idempotent (heap : Heap) (s : Slot) :
    k.doBarrier c { heap with cards := k.doBarrier c heap s } s = k.doBarrier c heap s := by
  cases s with
  | field obj offset =>
    -- The barrier reads nothing that it writes.
    have same : barrierCard c k { heap with cards := k.doBarrier c heap (.field obj offset) } obj
        offset = barrierCard c k heap obj offset := rfl
    rw [doBarrier_field, same, doBarrier_field]
    cases barrierCard c k heap obj offset with
    | none => rfl
    | some card => exact writeCard_writeCard ..
  | _ => rfl

theorem applyBarrier_idempotent (σ : Scan) (s : Slot) :
    k.applyBarrier c (k.applyBarrier c σ s) s = k.applyBarrier c σ s := by
  unfold Closure.applyBarrier
  cases k.gcBarrier with
  | false => rfl
  | true =>
    exact congrArg (fun cards => ({ σ with cards := cards } : Scan))
      (doBarrier_idempotent σ.toHeap s)

/-! ### The closures -/

/-- Both closures leave the same heap, whatever else copying an object changes. -/
theorem scan_eq_fastScan (c : Collector) (k : Closure Demographics) (σ : Scan)
    (demographics : Demographics) (s : Slot) :
    (k.scan c (σ, demographics) s).1 = (k.fastScan c (σ, demographics) s).1 := by
  simp only [Closure.scan, Closure.fastScan]
  by_cases null : σ.words s = 0
  · simp only [null, if_true]
  · simp only [null, if_false]
    -- The fast closure has applied the barrier before only if the slot was redirected.
    cases k.inBoundaries (σ.words s) with
    | false => rfl
    | true => exact (applyBarrier_idempotent _ s).symm

/-- The fast closure as `collectTransEden` uses it. -/
def edenClosure (c : Collector) (drain : Scan → Scan) (barrier : Option Region) : Closure Unit where
  lowerBoundary := c.edenBottom c.id
  upperBoundary := c.edenEnd c.id
  generation := barrier.getD .gen1
  gcBarrier := barrier.isSome
  transNew := true
  useTypeGenGC := true
  debugTypeGenGC := false
  residualDemographics := false
  copyDefNew := copyToSurvivorSpace c drain
  copyTransNew := copyToSurvivorSpace c drain
  residualStat := fun _ _ _ => ()

theorem redirect_eq (drain : Scan → Scan) (barrier : Option Region) (σ : Scan) (s : Slot) :
    redirect c drain σ s =
      (((edenClosure c drain barrier).newObj c σ (σ.words s)).2).store s
        ((edenClosure c drain barrier).newObj c σ (σ.words s)).1 := by
  simp only [redirect, Closure.newObj, edenClosure, Bool.true_eq_false, if_false]
  split <;> rfl

theorem applyBarrier_eq (drain : Scan → Scan) (barrier : Option Region) (σ : Scan) (s : Slot) :
    (barrier.elim σ fun region => EdenScan.doBarrier c region σ s) =
      (edenClosure c drain barrier).applyBarrier c σ s := by
  cases barrier with
  | none => rfl
  | some region => cases s <;> rfl

theorem edenFastScan_eq (drain : Scan → Scan) (barrier : Option Region) (σ : Scan) (s : Slot) :
    EdenScan.fastScan c drain barrier σ s =
      ((edenClosure c drain barrier).fastScan c (σ, ()) s).1 := by
  simp only [EdenScan.fastScan, Closure.fastScan, redirect_eq drain barrier]
  by_cases null : σ.words s = 0
  · simp only [null, if_true]
  · simp only [null, if_false]
    simp only [applyBarrier_eq drain]
    rfl

end ClosureWork
