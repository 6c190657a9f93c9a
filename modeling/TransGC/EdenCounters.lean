import Mathlib.Data.List.Basic
import TransGC.EdenTable

/-!
# The three counters of the eden table

The collectable, available and assigned counters are updated by hand next to the state changes
they are meant to count. One operation keeps them exact precisely when it is `Tame`: a
collection that reaches the safety check neither bails out nor fails a promotion, and a
transaction end does not hit an eden that is already collectable or still available.
-/
namespace EdenCounters
open EdenTable TransitionRuns TransNewGeneration List Option

variable {gen after : TransNewGeneration} {eden : TransEden} {id : Nat} {σ : State}

def count (gen : TransNewGeneration) (σ : State) : Nat :=
  gen.transEdens.countP fun eden => eden.state = σ

structure CountersExact (gen : TransNewGeneration) : Prop where
  collectable : gen.collectableCount = count gen .collectable
  available : gen.availableCount = count gen .available
  assigned : gen.assignedCount = gen.maxTransEden - gen.availableCount

instance (gen : TransNewGeneration) : Decidable (CountersExact gen) :=
  decidable_of_iff
    (gen.collectableCount = count gen .collectable ∧ gen.availableCount = count gen .available ∧
      gen.assignedCount = gen.maxTransEden - gen.availableCount)
    ⟨fun ⟨c, a, s⟩ => ⟨c, a, s⟩, fun ⟨c, a, s⟩ => ⟨c, a, s⟩⟩

theorem initial_exact (n : Nat) : CountersExact (initial n) := by
  constructor
  · simp [initial, count, TransEden.new, countP_replicate]
  · simp [initial, count, TransEden.new, countP_replicate]
  · simp [initial, maxTransEden]

/-- The operations that keep the counters exact. -/
def Tame (gen : TransNewGeneration) : EdenOp → Prop
  | .setTransEdenCollectable index transID _ =>
    ∀ eden, gen.getTransEden index = some eden → eden.transID = transID →
      eden.state ≠ .collectable ∧ eden.state ≠ .available
  | .collectTransEden avoid safe failed index =>
    ∀ eden, gen.getTransEden index = some eden → eden.state = .collectable →
      (eden.trained = true ∧ avoid = true) ∨ (safe = true ∧ failed = false)
  | _ => True

def unit (eden : TransEden) (σ : State) : Nat := if eden.state = σ then 1 else 0

/-- Rewriting one eden moves one unit from the count of its old state to the
count of its new one. -/
theorem count_setTransEden (entry : gen.transEdens[id]? = some eden) (next : TransEden) (σ : State) :
    count (gen.setTransEden id next) σ + unit eden σ = count gen σ + unit next σ := by
  obtain ⟨bound, here⟩ := List.getElem?_eq_some_iff.mp entry
  have positive : eden.state = σ → 0 < count gen σ := fun same =>
    countP_pos_iff.mpr ⟨eden, mem_of_getElem? entry, by simpa using same⟩
  unfold count unit at *
  rw [setTransEden_transEdens, countP_set bound, here]
  simp only [decide_eq_true_eq]
  by_cases same : eden.state = σ
  · have := positive same
    simp only [same, if_true]
    omega
  · simp [same]

section

variable (exact : CountersExact gen)
include exact

/-- An operation that rewrites one eden and sets the counters keeps them exact precisely when they
move by what the rewritten eden contributes. -/
theorem rewritten_exact_iff (entry : gen.transEdens[id]? = some eden) (next : TransEden)
    (collectable assigned available : Int) :
    CountersExact { gen.setTransEden id next with
        collectableCount := collectable
        assignedCount := assigned
        availableCount := available } ↔
      collectable = gen.collectableCount + unit next .collectable - unit eden .collectable ∧
      available = gen.availableCount + unit next .available - unit eden .available ∧
      assigned - gen.assignedCount = gen.availableCount - available := by
  have moved := count_setTransEden entry next .collectable
  have freed := count_setTransEden entry next .available
  have size := gen.setTransEden_maxTransEden id next
  obtain ⟨collectableNow, availableNow, assignedNow⟩ := exact
  constructor
  · rintro ⟨c, a, s⟩
    change collectable = (count (gen.setTransEden id next) .collectable : Int) at c
    change available = (count (gen.setTransEden id next) .available : Int) at a
    change assigned = ((gen.setTransEden id next).maxTransEden : Int) - available at s
    omega
  · rintro ⟨c, a, s⟩
    refine ⟨?_, ?_, ?_⟩
    · change collectable = (count (gen.setTransEden id next) .collectable : Int)
      omega
    · change available = (count (gen.setTransEden id next) .available : Int)
      omega
    · change assigned = ((gen.setTransEden id next).maxTransEden : Int) - available
      omega

theorem emptied_exact (entry : gen.transEdens[id]? = some eden)
    (ended : eden.state = .collectable) :
    CountersExact { gen.setTransEden id eden.reset.clear with
      collectableCount := gen.collectableCount - 1
      assignedCount := gen.assignedCount - 1
      availableCount := gen.availableCount + 1 } := by
  refine (rewritten_exact_iff exact entry _ _ _ _).mpr ?_
  simp only [unit, ended, TransEden.reset, TransEden.clear, reduceCtorEq, if_true, if_false]
  omega

theorem assign_exact {trainingDone : Bool} {tid : Int} (entry : gen.transEdens[id]? = some eden)
    (free : eden.state = .available) :
    CountersExact (gen.assignTransEden trainingDone tid id eden) := by
  refine (rewritten_exact_iff exact entry _ _ _ _).mpr ?_
  simp only [unit, free, reduceCtorEq, if_true, if_false, setTransEden_collectableCount]
  omega

theorem allocate_exact {found trainingDone : Bool} {current : Thread} {out : Allocated}
    (returns : gen.getTransEdenToAllocateNolock found trainingDone current = some out) :
    CountersExact out.gen := by
  cases getTransEdenToAllocateNolock_path returns with
  | assigned accept valid cache search room entry free => exact assign_exact exact entry free
  | _ => exact exact

theorem setCollectable_exact_iff (index transID threadCount : Int) :
    CountersExact (gen.setTransEdenCollectable index transID threadCount) ↔
      Tame gen (.setTransEdenCollectable index transID threadCount) := by
  rcases gen.setTransEdenCollectable_cases index transID threadCount with
    ⟨foreign, same⟩ | ⟨id, eden, rfl, entry, owns, eq⟩
  · rw [same]
    exact ⟨fun _ eden found owns => absurd owns (foreign eden found), fun _ => exact⟩
  · rw [eq, Tame, getTransEden_natCast, entry]
    refine (rewritten_exact_iff exact entry _ _ _ _).trans ?_
    cases state : eden.state <;> simp [unit, state, owns]
    all_goals omega

theorem collect_exact_iff {avoid safe failed : Bool} {index : Int}
    (collected : gen.collectTransEden avoid safe failed index = some after) :
    CountersExact after ↔ Tame gen (.collectTransEden avoid safe failed index) := by
  obtain ⟨id, eden, rfl, entry, outcome⟩ := collectTransEden_outcome collected
  rw [Tame, getTransEden_natCast, entry]
  cases outcome with
  | notCollectable idle => exact iff_of_true exact (by simp [idle])
  | shortcut ended trained =>
    exact iff_of_true (emptied_exact exact entry ended) (by simp [trained])
  | bailOut ended untrained refused =>
    have broken : ¬CountersExact { gen with collectableCount := gen.collectableCount - 1 } := by
      intro wrong
      have now : gen.collectableCount = count gen .collectable := exact.collectable
      have later : gen.collectableCount - 1 = count gen .collectable := wrong.collectable
      omega
    exact iff_of_false broken (by simp [ended, untrained, refused])
  | promotionFailed ended untrained accepted failure =>
    have broken : ¬CountersExact (gen.setTransEden id { eden with state := .collecting }) := by
      intro wrong
      have := (rewritten_exact_iff exact entry _ _ _ _).mp wrong
      simp only [unit, ended, reduceCtorEq, if_true, if_false] at this
      omega
    exact iff_of_false broken (by simp [ended, untrained, failure])
  | evacuated ended untrained accepted success =>
    exact iff_of_true (emptied_exact exact entry ended) (by simp [accepted, success])

theorem collectResettable_exact (trainingDone pretenure avoid : Bool) :
    CountersExact (gen.collectResettableTransEden trainingDone pretenure avoid).2 :=
  collectResettable_keeps exact (fun entry ended exact => emptied_exact exact entry ended) _ _ _

omit exact in
theorem resetTransEdens_exact : CountersExact gen.resetTransEdens := by
  constructor <;>
    simp [resetTransEdens, count, TransEden.reset, countP_map, maxTransEden, Function.comp_def]

theorem step_exact_iff {op : EdenOp} (stepped : step gen op = some after) :
    CountersExact after ↔ Tame gen op := by
  cases op with
  | getTransEdenToAllocate found trainingDone current =>
    obtain ⟨out, returns, rfl⟩ := map_eq_some_iff.mp stepped
    exact iff_of_true (allocate_exact exact returns) trivial
  | setTransEdenCollectable index transID threadCount =>
    cases some.inj stepped
    exact setCollectable_exact_iff exact index transID threadCount
  | collectTransEden avoid safe failed index => exact collect_exact_iff exact stepped
  | collectResettableTransEden trainingDone pretenure avoid =>
    cases some.inj stepped
    exact iff_of_true (collectResettable_exact exact trainingDone pretenure avoid) trivial
  | resetTransEdens =>
    cases some.inj stepped
    exact iff_of_true resetTransEdens_exact trivial

end

/-- The counters stay exact along a run precisely when every operation of the run is tame. -/
theorem counters_exact_along_iff_tame (n : Nat) (ops : List EdenOp) :
    Along step CountersExact (initial n) ops ↔
      Guarded step Tame (initial n) ops :=
  along_iff_guarded (fun _ _ _ exact stepped => step_exact_iff exact stepped) (initial_exact n)

/-- A collection that bails out leaves the eden collectable and no longer counted. -/
theorem bailOut_loses_collectable_eden :
    ∃ gen, run step (initial 1)
        [.getTransEdenToAllocate true false (.java ⟨0, -1, false, true, 1⟩),
          .setTransEdenCollectable 0 0 1,
          .collectTransEden false false false 0] = some gen ∧
      count gen .collectable = 1 ∧ gen.collectableCount = 0 ∧ ¬CountersExact gen :=
  ⟨⟨[⟨1, 0, false, false, .collectable, []⟩], 1, 0, 0⟩, by decide, by decide, by decide, by decide⟩

end EdenCounters
