import Mathlib.Data.List.Basic
import TransGC.EdenTable

/-!
# Which edens a collection leaves out of its scan

While an eden is collected, `space_iterate_with_some_excluded` visits every eden that is not in
state `Collecting` for roots. The eden under collection is the only one meant to be left out, but
a promotion failure leaves its eden in that state; the file follows which edens such failures
have left behind over a whole history.
-/
namespace EdenExclusion
open EdenTable TransitionRuns TransNewGeneration List Option

variable {gen after during : TransNewGeneration} {eden : TransEden} {id : Nat} {op : EdenOp}

/-- `op` is a collection of eden `id` that reaches the scan and fails a promotion. -/
def failsPromotion (gen : TransNewGeneration) (id : Nat) : EdenOp → Bool
  | .collectTransEden avoid safe failed index =>
    index == id && safe && failed &&
      (gen.transEdens[id]?).any fun eden => eden.state == .collectable && !(eden.trained && avoid)
  | _ => false

/-- `op` overwrites the state of eden `id`: a full reset, or the end of its transaction. -/
def releases (gen : TransNewGeneration) (id : Nat) : EdenOp → Bool
  | .setTransEdenCollectable index transID _ =>
    index == id && (gen.transEdens[id]?).any fun eden => eden.transID == transID
  | .resetTransEdens => true
  | _ => false

/-- The run holds a failing collection of `id` that no later operation releases. -/
def leftByFailure (id : Nat) (gen : TransNewGeneration) (left : Bool) : List EdenOp → Bool
  | [] => left
  | op :: ops =>
    match step gen op with
    | some after =>
      leftByFailure id after (failsPromotion gen id op || (!releases gen id op && left)) ops
    | none => left

def collectingAt (gen : TransNewGeneration) (id : Nat) : Bool :=
  (gen.transEdens[id]?).any fun eden => eden.state == .collecting

theorem collectingAt_of_entry (entry : gen.transEdens[id]? = some eden) :
    collectingAt gen id = (eden.state == .collecting) := by
  simp [collectingAt, entry]

/-- Rewriting eden `target` changes the flag of that eden only. -/
theorem collectingAt_set {target : Nat} (entry : gen.transEdens[target]? = some eden)
    {next : TransEden} (same : after.transEdens = gen.transEdens.set target next) (id : Nat) :
    collectingAt after id =
      if id = target then next.state == .collecting else collectingAt gen id := by
  have bound := (List.getElem?_eq_some_iff.mp entry).1
  unfold collectingAt
  rw [same]
  by_cases here : id = target
  · subst here
    simp [List.getElem?_set_self bound]
  · rw [List.getElem?_set_ne (Ne.symm here), if_neg here]

/-- An eden rewritten from and to a state other than `Collecting` keeps every flag. -/
theorem collectingAt_set_unchanged {target : Nat} (entry : gen.transEdens[target]? = some eden)
    (idle : eden.state ≠ .collecting) {next : TransEden} (stays : next.state ≠ .collecting)
    (same : after.transEdens = gen.transEdens.set target next) (id : Nat) :
    collectingAt after id = collectingAt gen id := by
  rw [collectingAt_set entry same]
  split
  · rename_i here
    subst here
    rw [collectingAt_of_entry entry]
    simp [idle, stays]
  · rfl

theorem allocate_collectingAt {found trainingDone : Bool} {current : Thread} {out : Allocated}
    (returns : gen.getTransEdenToAllocateNolock found trainingDone current = some out) (id : Nat) :
    collectingAt out.gen id = collectingAt gen id := by
  cases getTransEdenToAllocateNolock_path returns with
  | assigned accept valid cache search room entry free =>
    exact collectingAt_set_unchanged entry (by simp [free]) (by simp) rfl id
  | _ => rfl

theorem setCollectable_collectingAt (index transID threadCount : Int) (id : Nat) :
    collectingAt (gen.setTransEdenCollectable index transID threadCount) id =
      (!releases gen id (.setTransEdenCollectable index transID threadCount) &&
        collectingAt gen id) := by
  rcases gen.setTransEdenCollectable_cases index transID threadCount with
    ⟨foreign, same⟩ | ⟨target, eden, rfl, entry, owns, eq⟩
  · rw [same]
    have kept : releases gen id (.setTransEdenCollectable index transID threadCount) = false := by
      by_contra hit
      simp only [releases, Bool.not_eq_false, Bool.and_eq_true, beq_iff_eq] at hit
      obtain ⟨rfl, owner⟩ := hit
      cases entry : gen.transEdens[id]? with
      | none => simp [entry] at owner
      | some eden =>
        rw [getTransEden_natCast] at foreign
        exact foreign eden entry (by simpa [entry] using owner)
    simp [kept]
  · rw [eq, collectingAt_set entry rfl]
    by_cases here : id = target
    · subst here
      simp [releases, entry, owns]
    · have kept : releases gen id (.setTransEdenCollectable target transID threadCount) = false := by
        have apart : (target : Int) ≠ id := by omega
        simp [releases, apart]
      simp [here, kept]

theorem collect_collectingAt {avoid safe failed : Bool} {index : Int}
    (collected : gen.collectTransEden avoid safe failed index = some after) (id : Nat) :
    collectingAt after id =
      (failsPromotion gen id (.collectTransEden avoid safe failed index) || collectingAt gen id) := by
  obtain ⟨target, eden, rfl, entry, outcome⟩ := collectTransEden_outcome collected
  have elsewhere : id ≠ target →
      failsPromotion gen id (.collectTransEden avoid safe failed target) = false := by
    intro away
    have apart : (target : Int) ≠ id := by omega
    simp [failsPromotion, apart]
  -- outcomes other than a promotion failure are not failures of any eden
  have harmless : ¬(safe = true ∧ failed = true ∧ eden.state = .collectable ∧
      ¬(eden.trained = true ∧ avoid = true)) → failsPromotion gen id
        (.collectTransEden avoid safe failed target) = false := by
    intro fine
    by_cases here : id = target
    · subst here
      by_contra fails
      refine fine ?_
      simpa [failsPromotion, entry, and_assoc] using fails
    · exact elsewhere here
  cases outcome with
  | notCollectable idle => simp [harmless (fun fails => idle fails.2.2.1)]
  | shortcut ended trained =>
    rw [harmless (fun fails => fails.2.2.2 trained), Bool.false_or]
    exact collectingAt_set_unchanged entry (by simp [ended])
      (by simp [TransEden.reset, TransEden.clear]) rfl id
  | bailOut ended untrained refused =>
    rw [harmless (by simp [refused]), Bool.false_or]
    rfl
  | promotionFailed ended untrained accepted failure =>
    rw [collectingAt_set entry rfl]
    by_cases here : id = target
    · subst here
      have kept : eden.trained = false ∨ avoid = false := by
        rw [← Bool.and_eq_false_iff, Bool.eq_false_iff, Ne, Bool.and_eq_true]
        exact untrained
      simp [failsPromotion, entry, accepted, failure, ended, kept]
    · simp [here, elsewhere here]
  | evacuated ended untrained accepted success =>
    rw [harmless (by simp [success]), Bool.false_or]
    exact collectingAt_set_unchanged entry (by simp [ended])
      (by simp [TransEden.reset, TransEden.clear]) rfl id

theorem collectResettable_collectingAt (trainingDone pretenure avoid : Bool) (id : Nat) :
    collectingAt (gen.collectResettableTransEden trainingDone pretenure avoid).2 id =
      collectingAt gen id := by
  refine collectResettable_keeps (P := fun after => collectingAt after id = collectingAt gen id) rfl
    (fun entry ended kept => ?_) _ _ _
  rw [← kept]
  exact collectingAt_set_unchanged entry (by simp [ended])
    (by simp [TransEden.reset, TransEden.clear]) rfl id

theorem resetTransEdens_collectingAt : collectingAt gen.resetTransEdens id = false := by
  cases entry : gen.transEdens[id]? <;>
    simp [collectingAt, resetTransEdens, TransEden.reset, entry]

/-- An eden is `Collecting` afterwards exactly if the operation fails a promotion of that eden, or
does not release it and found it so. -/
theorem step_collectingAt (stepped : step gen op = some after) (id : Nat) :
    collectingAt after id =
      (failsPromotion gen id op || (!releases gen id op && collectingAt gen id)) := by
  cases op with
  | getTransEdenToAllocate found trainingDone current =>
    obtain ⟨out, returns, rfl⟩ := map_eq_some_iff.mp stepped
    simpa [failsPromotion, releases] using allocate_collectingAt returns id
  | setTransEdenCollectable index transID threadCount =>
    cases some.inj stepped
    simpa [failsPromotion] using setCollectable_collectingAt index transID threadCount id
  | collectTransEden avoid safe failed index =>
    simpa [releases] using collect_collectingAt stepped id
  | collectResettableTransEden trainingDone pretenure avoid =>
    cases some.inj stepped
    simpa [failsPromotion, releases] using
      collectResettable_collectingAt trainingDone pretenure avoid id
  | resetTransEdens =>
    cases some.inj stepped
    simpa [failsPromotion, releases] using resetTransEdens_collectingAt

theorem run_collectingAt {ops : List EdenOp} (reached : run step gen ops = some after) (id : Nat) :
    leftByFailure id gen (collectingAt gen id) ops = collectingAt after id := by
  induction ops generalizing gen with
  | nil =>
    cases some.inj reached
    rfl
  | cons op ops ih =>
    obtain ⟨middle, head, tail⟩ := run_cons_eq_some.mp reached
    rw [leftByFailure, head]
    simp only
    rw [← step_collectingAt head id]
    exact ih tail

theorem initial_collectingAt (n id : Nat) : collectingAt (initial n) id = false := by
  simp only [collectingAt, initial, getElem?_replicate]
  split <;> simp [TransEden.new]

theorem mem_spaceIterateWithSomeExcluded :
    id ∈ gen.spaceIterateWithSomeExcluded ↔
      id < gen.maxTransEden ∧ collectingAt gen id = false := by
  simp only [spaceIterateWithSomeExcluded, mem_filter, mem_range]
  refine and_congr_right fun bound => ?_
  simp [collectingAt, getElem?_eq_getElem bound]

theorem beginCollect_scanning {avoid safe : Bool} {index : Int}
    (scan : gen.beginCollect avoid safe index = some (.scanning during)) :
    ∃ (id : Nat) (eden : TransEden), index = id ∧ gen.transEdens[id]? = some eden ∧
      eden.state = .collectable ∧
      during = { gen with collectableCount := gen.collectableCount - 1 }.setTransEden id
        { eden with state := .collecting } := by
  obtain ⟨eden, found, eq⟩ := map_eq_some_iff.mp scan
  obtain ⟨id, rfl, entry⟩ := getTransEden_eq_some.mp found
  refine ⟨id, eden, rfl, entry, ?_⟩
  by_cases ended : eden.state = .collectable
  · refine ⟨ended, ?_⟩
    simp only [ended, ne_eq, not_true, if_false] at eq
    split at eq
    · cases eq
    · split at eq
      · cases eq
      · cases eq
        simp
  · simp [ended] at eq

/-- After any history of eden operations, a collection skips exactly its own eden if and only if no
eden is left over from a failed promotion. -/
theorem scan_skips_only_collected_iff {n : Nat} {ops : List EdenOp} {avoid safe : Bool} {index : Int}
    (history : run step (initial n) ops = some gen)
    (scan : gen.beginCollect avoid safe index = some (.scanning during)) :
    (∀ id < during.maxTransEden, id ∈ during.spaceIterateWithSomeExcluded ↔ (id : Int) ≠ index) ↔
      ∀ id, leftByFailure id (initial n) false ops = false := by
  obtain ⟨target, eden, rfl, entry, ended, same⟩ := beginCollect_scanning scan
  have left : ∀ id, leftByFailure id (initial n) false ops =
      collectingAt gen id := by
    intro id
    rw [← run_collectingAt history id, initial_collectingAt]
  have table : during.transEdens = gen.transEdens.set target { eden with state := .collecting } := by
    rw [same]
    rfl
  have flags := collectingAt_set entry table
  have size : during.maxTransEden = gen.maxTransEden := by
    simp [maxTransEden, table]
  have own : collectingAt gen target = false := by
    rw [collectingAt_of_entry entry]
    simp [ended]
  simp only [left, mem_spaceIterateWithSomeExcluded, flags, size]
  constructor
  · intro skips id
    by_cases here : id = target
    · rw [here, own]
    · by_cases bound : id < gen.maxTransEden
      · have visited := (skips id bound).mpr (by omega)
        rw [if_neg here] at visited
        exact visited.2
      · have outside : gen.transEdens[id]? = none :=
          List.getElem?_eq_none (Nat.le_of_not_lt bound)
        simp [collectingAt, outside]
  · intro clean id bound
    by_cases here : id = target
    · simp [here]
    · have apart : (id : Int) ≠ target := by omega
      simp only [here, if_false, clean id, and_true]
      exact iff_of_true bound apart

private def twoTransactions : List EdenOp :=
  [.getTransEdenToAllocate true false (.java ⟨0, -1, false, true, 1⟩),
    .getTransEdenToAllocate true false (.java ⟨1, -1, false, true, 1⟩),
    .setTransEdenCollectable 0 0 1]

private def firstEnded : TransNewGeneration :=
  ⟨[⟨1, 0, false, false, .collectable, []⟩, ⟨0, 1, false, false, .assigned, []⟩], 2, 0, 1⟩

theorem scan_of_first_collection :
    ∃ gen during, run step (initial 2) twoTransactions = some gen ∧
      gen.beginCollect false true 0 = some (.scanning during) ∧
      ((∀ id < during.maxTransEden, id ∈ during.spaceIterateWithSomeExcluded ↔ (id : Int) ≠ 0) ↔
        ∀ id, leftByFailure id (initial 2) false twoTransactions = false) := by
  have history : run step (initial 2) twoTransactions = some firstEnded := by decide
  have scan : firstEnded.beginCollect false true 0 =
      some (.scanning { firstEnded with
        transEdens := [⟨1, 0, false, false, .collecting, []⟩, ⟨0, 1, false, false, .assigned, []⟩]
        collectableCount := 0 }) := by
    decide
  exact ⟨_, _, history, scan, scan_skips_only_collected_iff history scan⟩

/-- The first collection leaves eden 0 `Collecting`; the scan of the second one visits no eden. -/
theorem failed_eden_skipped_by_next_scan :
    ∃ gen during, run step (initial 2)
        [.getTransEdenToAllocate true false (.java ⟨0, -1, false, true, 1⟩),
          .getTransEdenToAllocate true false (.java ⟨1, -1, false, true, 1⟩),
          .setTransEdenCollectable 0 0 1,
          .setTransEdenCollectable 1 1 1,
          .collectTransEden false true true 0] = some gen ∧
      gen.beginCollect false true 1 = some (.scanning during) ∧
      during.spaceIterateWithSomeExcluded = [] :=
  ⟨⟨[⟨1, 0, false, false, .collecting, []⟩, ⟨1, 1, false, false, .collectable, []⟩], 2, 0, 2⟩,
    ⟨[⟨1, 0, false, false, .collecting, []⟩, ⟨1, 1, false, false, .collecting, []⟩], 2, 0, 1⟩,
    by decide, by decide, by decide⟩

end EdenExclusion
