import TransGC.EdenEvacuation

/-!
# The evacuation of an eden ends

Whatever promotions succeed or fail, the scan of a collected eden ends. Its two worklists are the
objects promoted since the saved mark and the stack of those whose promotion failed. Each addition
to either forwards an object of the eden that was not forwarded before, so both run dry.
-/
namespace EvacuationEnds
open EdenTable MarkWord ObjectHeap ObjectMoves EdenScan ScanSteps ScanInvariant ScanClosures ScanDrain List Option
  ScanPhases ScanReferences EdenReachability EdenEvacuation

/-- The loop of `drain_promo_failure_scan_stack` without fuel. -/
inductive Drains (c : Collector) : Scan → Scan → Prop
  | stops {σ : Scan} (empty : σ.failureStack = []) : Drains c σ σ
  | round {σ τ : Scan} {obj : Nat} {rest : List Nat} (stack : σ.failureStack = obj :: rest)
      (later : Drains c (oopIterate c (fastScan c id none) { σ with failureStack := rest } obj) τ) :
      Drains c σ τ

/-- One step of a closure or of a loop after the other. -/
def Reaches (c : Collector) (start : Heap) : Scan → Scan → Prop :=
  Steps c start (· ∈ start.edenObjects c.id) [.pop, .advance, .stopDiscovery]

/-- How the evacuation of the eden ends. -/
structure Over (c : Collector) (start : Heap) (τ : Scan) : Prop where
  reached : Reaches c start (startScan start) τ
  stack : τ.failureStack = []
  caughtUp : τ.savedMark = τ.old.length
  scanned : ∀ a ∈ start.edenObjects c.id, SelfForwarded c τ.toHeap a →
    ∀ offset ∈ (start.klass a).slots, Settled c τ.toHeap (τ.words (.field a offset))

variable {c : Collector} {start heap : Heap} {Good : Nat → Prop} {loops : List LoopStep}
  {σ τ υ : Scan} {a : Nat}

theorem drains_of_fuel (setup : Setup c start Good) {fuel : Nat} (inv : Inv c start Good σ)
    (enough : σ.failureStack.length + unforwarded c start σ.toHeap ≤ fuel) :
    Drains c σ (drainPromoFailureScanStack c fuel σ) := by
  induction fuel generalizing σ with
  | zero =>
    have empty : σ.failureStack.length = 0 := by omega
    exact .stops (length_eq_zero_iff.mp empty)
  | succ fuel ih =>
    rw [drainPromoFailureScanStack]
    split
    · rename_i empty
      exact .stops empty
    · rename_i obj rest stack
      obtain ⟨first, fewer⟩ := drain_round_steps setup inv stack rfl
      exact .round stack (ih (inv.steps setup first) (by omega))

theorem drains_of_reached (formed : WellFormed c start) (reached : Reaches c start (startScan start) σ) :
    Drains c σ (drain c σ) := by
  have setup := setup_eden formed
  have inv₀ : Inv c start (· ∈ start.edenObjects c.id) (startScan start) := .start_inv formed
  have inv := inv₀.steps setup reached
  obtain ⟨moved, valid⟩ := inv.valid
  refine drains_of_fuel setup inv ?_
  have few : unforwarded c start start ≤ (start.edenObjects c.id).length := countP_le_length
  have potential : σ.failureStack.length + unforwarded c start σ.toHeap ≤
      (start.edenObjects c.id).length :=
    potential_steps setup inv₀ reached (by simpa [startScan] using few)
  rw [fuel, Heap.edenObjects, valid.transNew]
  exact Nat.le_succ_of_le potential

theorem mark_of_reached (formed : WellFormed c start) (first : Reaches c start (startScan start) σ)
    (later : Reaches c start σ τ) (among : a ∈ start.edenObjects c.id)
    (marked : σ.isForwarded a = true) : τ.mark a = σ.mark a := by
  have setup := setup_eden formed
  have inv₀ : Inv c start (· ∈ start.edenObjects c.id) (startScan start) := .start_inv formed
  have inv := inv₀.steps setup first
  refine (steps_keep (P := fun υ => υ.isForwarded a = true ∧ υ.mark a = σ.mark a) setup inv
    later ?_ ⟨marked, rfl⟩).2
  intro υ ω inv step kept
  obtain ⟨moved, valid⟩ := inv.valid
  have inside := formed.inEden a among
  exact ⟨(step.forwarded formed valid inside kept.1).1,
    (step.mark_of_forwarded formed valid inside kept.1).trans kept.2⟩

/-- Each forwarded object of the eden has one copy, or none and is forwarded to itself. -/
theorem copies_of_reached (formed : WellFormed c start) (reached : Reaches c start (startScan start) σ) :
    ∃ moved : List (Nat × Nat), σ.old = start.old ++ moved.map Prod.snd ∧
      (moved.map Prod.fst).Nodup ∧ (moved.map Prod.snd).Nodup ∧
      (∀ p ∈ moved, p.1 ∈ start.edenObjects c.id ∧ c.forwardee σ.toHeap p.1 = p.2) ∧
      ∀ a ∈ start.edenObjects c.id, σ.isForwarded a = true →
        (a ∈ moved.map Prod.fst ↔ ¬SelfForwarded c σ.toHeap a) := by
  have setup := setup_eden formed
  have inv₀ : Inv c start (· ∈ start.edenObjects c.id) (startScan start) := .start_inv formed
  obtain ⟨moved, valid⟩ := (inv₀.steps setup reached).valid
  refine ⟨moved, valid.old, valid.origins_nodup, valid.targets_nodup setup.layout, ?_, ?_⟩
  · intro p pair
    obtain ⟨good, pointer⟩ := valid.source p pair
    exact ⟨good, forwardee_of_mark pointer⟩
  · intro a among marked
    constructor
    · intro copied itself
      obtain ⟨p, pair, rfl⟩ := mem_map.mp copied
      have target := itself.2.symm.trans (forwardee_of_mark (valid.source p pair).2)
      have low := formed.eden_lt_top among
      have high := (valid.fresh p pair).1
      omega
    · intro elsewhere
      rcases valid.forwardee_cases among marked with ⟨target, pair, -, -⟩ | same
      · exact mem_map_of_mem pair
      · exact absurd ⟨marked, same⟩ elsewhere

theorem evacuateEden_over (formed : WellFormed c start) (collecting : Collecting c start) :
    ∃ τ, evacuateEden c start = some τ ∧ Over c start τ := by
  obtain ⟨σ, τ, evacuates, traced, finished⟩ :=
    evacuateEden_finishes (setup_eden formed) (rootsGood_eden formed collecting)
  refine ⟨τ, evacuates, ?_, finished.resting.quiet.stack, finished.caughtUp, ?_⟩
  · exact .trans (steps_more (by simp) traced.steps) (steps_of_finished finished)
  · intro a among itself offset slot
    obtain ⟨moved, valid⟩ := finished.resting.inv.valid
    have low := formed.eden_lt_top among
    rw [← valid.klass a (.inl low)] at slot
    rcases finished.resting.quiet.covered a among itself with stacked | none | done
    · rw [finished.resting.quiet.stack] at stacked
      cases stacked
    · cases none
    · exact settled_of_finished finished (done offset slot)

theorem beginCollect_collecting {avoid safe : Bool} {gen : TransNewGeneration}
    (scans : heap.transNew.beginCollect avoid safe c.id = some (.scanning gen)) :
    ∃ eden, heap.transNew.transEdens[c.id]? = some eden ∧
      gen.transEdens = heap.transNew.transEdens.set c.id { eden with state := .collecting } := by
  obtain ⟨eden, entry, begins⟩ := map_eq_some_iff.mp scans
  rw [TransNewGeneration.getTransEden_natCast] at entry
  refine ⟨eden, entry, ?_⟩
  split at begins
  · cases begins
  · dsimp only at begins
    split at begins
    · cases begins
    · split at begins
      · cases begins
      · cases begins
        rfl

/-- A collection that goes on to the scan ends, with nothing left to scan. On its way every drain of
the failure stack ends, and a forwarded object keeps its mark: no object is forwarded twice. -/
theorem collectTransEden_ends {avoidCollectTrained collectionAttemptIsSafe : Bool}
    {gen : TransNewGeneration} (formed : WellFormed c heap)
    (scans : heap.transNew.beginCollect avoidCollectTrained collectionAttemptIsSafe c.id =
      some (.scanning gen)) :
    (∃ τ, collectTransEden c avoidCollectTrained collectionAttemptIsSafe heap =
        some (.finished τ (endScan c τ)) ∧ Over c { heap with transNew := gen } τ) ∧
      ∀ σ, Reaches c { heap with transNew := gen } (startScan { heap with transNew := gen }) σ →
        Drains c σ (drain c σ) ∧
        (∀ τ, Reaches c { heap with transNew := gen } σ τ →
          ∀ a ∈ heap.edenObjects c.id, σ.isForwarded a = true → τ.mark a = σ.mark a) ∧
        ∃ moved : List (Nat × Nat), σ.old = heap.old ++ moved.map Prod.snd ∧
          (moved.map Prod.fst).Nodup ∧ (moved.map Prod.snd).Nodup ∧
          (∀ p ∈ moved, p.1 ∈ heap.edenObjects c.id ∧ c.forwardee σ.toHeap p.1 = p.2) ∧
          ∀ a ∈ heap.edenObjects c.id, σ.isForwarded a = true →
            (a ∈ moved.map Prod.fst ↔ ¬SelfForwarded c σ.toHeap a) := by
  obtain ⟨eden, entry, table⟩ := beginCollect_collecting scans
  have same : SameObjects heap.transNew gen := sameObjects_of_set entry table rfl
  have formed' := same.wellFormed formed
  have objects := same.edenObjects c.id
  have collecting : Collecting c { heap with transNew := gen } := by
    intro other found
    have bound := (List.getElem?_eq_some_iff.mp entry).1
    rw [table, getElem?_set_self bound] at found
    cases some.inj found
    rfl
  constructor
  · obtain ⟨τ, ends, finished⟩ := evacuateEden_over formed' collecting
    refine ⟨τ, ?_, finished⟩
    unfold collectTransEden
    simp only [scans, ends, map_some]
  · intro σ reached
    refine ⟨drains_of_reached formed' reached, ?_, ?_⟩
    · intro τ later a among
      rw [← objects] at among
      exact mark_of_reached formed' reached later among
    · rw [← objects]
      exact copies_of_reached formed' reached

/-- Tenured has room for one of the two objects of the eden, which refer to each other. -/
private def crampedCollector : Collector where
  id := 0
  rootCount := 1
  weakRootCount := 0
  start := fun
    | .gen0 => 1
    | .gen1 => 64
    | .old => 128
    | .perm => 132
  oldEnd := 132
  edenBottom := fun id => 64 + 32 * id
  edenEnd := fun id => 96 + 32 * id
  useBiasedLocking := false
  shouldClear := fun _ => true
  grants := fun _ => true

private def crampedHeap : Heap where
  words := fun
    | .root _ => 64
    | .weakRoot _ => 0
    | .field obj offset => if offset = 2 then if obj = 64 then 68 else if obj = 68 then 64 else 0 else 0
  mark := fun _ => 1
  klass := fun _ => ⟨4, [2], false, none, 1⟩
  cards := fun _ _ => .clean
  gen0 := []
  transNew := ⟨[⟨0, 7, false, false, .collectable, [64, 68]⟩], 1, 0, 1⟩
  old := []
  oldTop := 128
  perm := []

private theorem crampedHeap_wellFormed : WellFormed crampedCollector crampedHeap where
  nonNull := by decide
  edenAbove := by decide
  edenSpan := by decide
  edenBelow := by decide
  oldAbove := by decide
  permAbove := by decide
  topInside := by decide
  inEden := by decide
  gen0 := by decide
  otherEdens := by
    intro i other a among
    rcases i with - | i
    · exact absurd rfl other
    · cases among
  old := by decide
  perm := by decide
  sized := by decide
  unmarked := by decide
  pointers := by
    intro s has
    cases has with
    | root bound => exact fun _ => mem_cons_self
    | weakRoot bound => cases bound
    | @field obj offset among slot =>
      cases mem_singleton.mp slot
      revert obj
      decide
  oopMaps := by
    intro a _ reference
    cases reference

/-- The first object is promoted, the second stays, and both loops end. -/
theorem cramped_collection_ends :
    ∃ τ, collectTransEden crampedCollector false true crampedHeap =
        some (.finished τ (endScan crampedCollector τ)) ∧
      τ.failureStack = [] ∧ τ.promotionFailed = true := by
  have scans : crampedHeap.transNew.beginCollect false true crampedCollector.id =
      some (.scanning ⟨[⟨0, 7, false, false, .collecting, [64, 68]⟩], 1, 0, 0⟩) := rfl
  obtain ⟨⟨τ, collects, finished⟩, -⟩ := collectTransEden_ends crampedHeap_wellFormed scans
  have failed : (collectTransEden crampedCollector false true crampedHeap).map (fun
      | .returned _ => false
      | .finished σ _ => σ.promotionFailed) = some true := by decide +kernel
  rw [collects] at failed
  exact ⟨τ, collects, finished.stack, some.inj failed⟩

end EvacuationEnds
