import TransGC.EdenEvacuation

/-!
# The undo after a failed promotion

`remove_forwarding_pointers` gives each object of each eden the default mark of its class and
then puts the saved marks back, those of the objects that could not be promoted. An object that
the scan did not reach, and any object of another eden, is left with the default mark.
-/
namespace PromotionFailure
open EdenTable MarkWord ObjectHeap ObjectMoves EdenScan ScanSteps ScanInvariant ScanClosures ScanReferences
  EdenReachability EdenEvacuation Function List

/-- The default mark of a class is the prototype, or biasable when biased locking is on. -/
def PlainPrototypes (c : Collector) (heap : Heap) : Prop :=
  ∀ obj ∈ allObjects heap, (heap.klass obj).prototypeHeader = prototype ∨
    c.useBiasedLocking = true ∧ hasBiasPattern (heap.klass obj).prototypeHeader = true

/-- Reached from a root or from outside the eden by references of any kind. -/
inductive Linked (c : Collector) (heap : Heap) : Nat → Prop
  | root {i : Nat} (bound : i < c.rootCount)
      (inside : heap.words (.root i) ∈ heap.edenObjects c.id) : Linked c heap (heap.words (.root i))
  | outer {obj offset : Nat} (outside : obj ∈ outsideObjects c heap)
      (slot : offset ∈ (heap.klass obj).slots)
      (inside : heap.words (.field obj offset) ∈ heap.edenObjects c.id) :
      Linked c heap (heap.words (.field obj offset))
  | inner {a offset : Nat} (linked : Linked c heap a) (slot : offset ∈ (heap.klass a).slots)
      (inside : heap.words (.field a offset) ∈ heap.edenObjects c.id) :
      Linked c heap (heap.words (.field a offset))

variable {c : Collector} {heap start after : Heap} {Good : Nat → Prop} {loops : List LoopStep}
  {σ τ : Scan} {obj : Nat}

/-! ### Objects of the edens -/

theorem Linked.among (linked : Linked c heap obj) : obj ∈ heap.edenObjects c.id := by
  cases linked with
  | root bound inside => exact inside
  | outer outside slot inside => exact inside
  | inner linked slot inside => exact inside

theorem SameObjects.linked {gen : TransNewGeneration} (same : SameObjects heap.transNew gen)
    (linked : Linked c { heap with transNew := gen } obj) : Linked c heap obj := by
  have contents := same.edenObjects c.id
  induction linked with
  | root bound inside =>
    rw [contents] at inside
    exact .root bound inside
  | outer outside slot inside =>
    rw [contents] at inside
    rw [same.outsideObjects] at outside
    exact .outer outside slot inside
  | inner linked slot inside ih =>
    rw [contents] at inside
    exact .inner ih slot inside

private def tightHeap (hashed : Bool) : Heap where
  words := fun
    | .root _ => 64
    | _ => 0
  mark := fun a => if a = 64 ∨ a = 96 ∧ hashed then 7 * 256 + 1 else prototype
  klass := fun _ => ⟨4, [2], false, none, prototype⟩
  cards := fun _ _ => .clean
  gen0 := []
  transNew := ⟨[⟨0, 5, false, false, .collectable, [64]⟩, ⟨0, 6, false, false, .assigned, [96]⟩],
    2, 0, 1⟩
  old := []
  oldTop := 128
  perm := []

end PromotionFailure
