import Mathlib.Data.Finset.Card
import Mathlib.Data.List.Induction
import TransGC.ResidualTraining
import TransGC.TransitionRuns

/-!
# The progress of residual training

What training does with a successful collection depends only on the classes of the objects that it
promoted. `Training` gathers a set of classes and ends once the set has stopped growing for long
enough. The virtual machine refines it, with a flag in each class and a counter for the size of
the set.
-/
namespace TrainingProgress
open EdenTable ResidualTraining TransitionRuns List Option

/-! ### Training as a set that grows -/

/-- A successful collection, as training sees it. -/
structure Collection where
  trained : Bool
  classes : List Nat

/-- `streak` counts the last examined collections that found no new class. -/
structure Training where
  flagged : Finset Nat
  seen : Nat
  streak : Nat
  done : Bool

namespace Training

def initial : Training where
  flagged := ∅
  seen := 0
  streak := 0
  done := false

section Growth

variable (flags : Flags)

/-- Byte arrays may be exempt. -/
def flaggable (k : Nat) : Bool := !flags.noPretenuringBytes || k != flags.byteArray

def grow (classes : List Nat) (flagged : Finset Nat) : Finset Nat :=
  flagged ∪ (classes.filter (flaggable flags)).toFinset

def train (c : Collection) (t : Training) : Training :=
  if t.seen < flags.trainingAfterGC then { t with seen := t.seen + 1 }
  else if t.streak < flags.unchangedTimeForTrainingEnd then
    { t with
      seen := t.seen + 1
      flagged := grow flags c.classes t.flagged
      streak := if grow flags c.classes t.flagged = t.flagged then t.streak + 1 else 0 }
  else { t with seen := t.seen + 1, done := true }

def lookAgain (c : Collection) (t : Training) : Training :=
  if c.trained = true ∧ flags.stillCurious = true then
    { t with flagged := grow flags c.classes t.flagged }
  else t

def collect (t : Training) (c : Collection) : Training :=
  lookAgain flags c (if t.done then t else train flags c t)

def after (history : List Collection) : Training := history.foldl (collect flags) initial

end Growth

variable {flags : Flags} {t : Training} {c : Collection} {history front quiet : List Collection}

theorem after_append_singleton :
    after flags (history ++ [c]) = (after flags history).collect flags c := by
  simp [after]

theorem subset_grow (classes : List Nat) (flagged : Finset Nat) :
    flagged ⊆ grow flags classes flagged := Finset.subset_union_left

theorem mem_grow {classes : List Nat} {flagged : Finset Nat} {k : Nat} (listed : k ∈ classes)
    (counts : flaggable flags k = true) : k ∈ grow flags classes flagged := by
  apply Finset.mem_union_right
  exact mem_toFinset.mpr (mem_filter.mpr ⟨listed, counts⟩)

theorem grow_grow (classes : List Nat) (flagged : Finset Nat) :
    grow flags classes (grow flags classes flagged) = grow flags classes flagged := by
  simp [grow, Finset.union_assoc]

theorem lookAgain_flagged (t : Training) : t.flagged ⊆ (lookAgain flags c t).flagged := by
  unfold lookAgain
  split
  · exact subset_grow _ _
  · exact Finset.Subset.refl _

@[simp] theorem lookAgain_seen : (lookAgain flags c t).seen = t.seen := by
  unfold lookAgain
  split <;> rfl

@[simp] theorem lookAgain_streak : (lookAgain flags c t).streak = t.streak := by
  unfold lookAgain
  split <;> rfl

@[simp] theorem lookAgain_done : (lookAgain flags c t).done = t.done := by
  unfold lookAgain
  split <;> rfl

/-- What a collection does to training. -/
inductive Progresses (flags : Flags) (t : Training) (c : Collection) (next : Training) : Prop
  | finished (done : t.done = true) (stays : next.done = true) (grows : t.flagged ⊆ next.flagged)
  | warmUp (runs : t.done = false) (early : t.seen < flags.trainingAfterGC)
      (seen : next.seen = t.seen + 1) (streak : next.streak = t.streak) (still : next.done = false)
      (grows : t.flagged ⊆ next.flagged)
  | examined (runs : t.done = false) (late : flags.trainingAfterGC ≤ t.seen)
      (short : t.streak < flags.unchangedTimeForTrainingEnd) (seen : next.seen = t.seen + 1)
      (flagged : next.flagged = grow flags c.classes t.flagged)
      (streak : next.streak = if next.flagged = t.flagged then t.streak + 1 else 0)
      (still : next.done = false)
  | ended (runs : t.done = false) (late : flags.trainingAfterGC ≤ t.seen)
      (long : flags.unchangedTimeForTrainingEnd ≤ t.streak) (ends : next.done = true)
      (grows : t.flagged ⊆ next.flagged)

theorem collect_progresses (flags : Flags) (t : Training) (c : Collection) :
    Progresses flags t c (t.collect flags c) := by
  unfold collect
  cases runs : t.done with
  | true => exact .finished runs (by simpa using runs) (lookAgain_flagged t)
  | false =>
    simp only [Bool.false_eq_true, if_false]
    by_cases early : t.seen < flags.trainingAfterGC
    · have next : train flags c t = { t with seen := t.seen + 1 } := if_pos early
      rw [next]
      refine .warmUp runs early ?_ ?_ ?_ ?_
      · simp
      · simp
      · simpa using runs
      · exact lookAgain_flagged { t with seen := t.seen + 1 }
    · by_cases short : t.streak < flags.unchangedTimeForTrainingEnd
      · have next : (lookAgain flags c (train flags c t)).flagged = grow flags c.classes t.flagged := by
          rw [train, if_neg early, if_pos short, lookAgain]
          split
          · exact grow_grow _ _
          · rfl
        refine .examined runs (le_of_not_gt early) short ?_ next ?_ ?_
        · simp [train, early, short]
        · rw [next]
          simp [train, early, short]
        · simpa [train, early, short] using runs
      · have next : train flags c t = { t with seen := t.seen + 1, done := true } := by
          rw [train, if_neg early, if_neg short]
        rw [next]
        exact .ended runs (le_of_not_gt early) (le_of_not_gt short) (by simp)
          (lookAgain_flagged { t with seen := t.seen + 1, done := true })

theorem Progresses.grows {next : Training} (progresses : Progresses flags t c next) :
    t.flagged ⊆ next.flagged := by
  cases progresses with
  | finished _ _ grows => exact grows
  | warmUp _ _ _ _ _ grows => exact grows
  | examined _ _ _ _ flagged => exact flagged ▸ subset_grow _ _
  | ended _ _ _ _ grows => exact grows

theorem flagged_append (front quiet : List Collection) :
    (after flags front).flagged ⊆ (after flags (front ++ quiet)).flagged := by
  induction quiet using reverseRecOn with
  | nil => simp
  | append_singleton quiet c ih =>
    rw [← append_assoc, after_append_singleton]
    exact ih.trans (collect_progresses flags _ c).grows

/-- As many as training waits for, after the warm-up, with another collection behind them. -/
structure Settled (flags : Flags) (history front quiet rest : List Collection) : Prop where
  split : history = front ++ quiet ++ rest
  warm : flags.trainingAfterGC ≤ front.length
  long : quiet.length = flags.unchangedTimeForTrainingEnd
  same : (after flags (front ++ quiet)).flagged = (after flags front).flagged
  later : rest ≠ []

/-- The state of training between two collections while it lasts. -/
structure Waiting (flags : Flags) (history : List Collection) : Prop where
  runs : (after flags history).done = false
  seen : (after flags history).seen = history.length
  bounded : (after flags history).streak ≤ flags.unchangedTimeForTrainingEnd
  streak : ∃ front quiet, history = front ++ quiet ∧ quiet.length = (after flags history).streak ∧
    (quiet ≠ [] → flags.trainingAfterGC ≤ front.length) ∧
    (after flags history).flagged = (after flags front).flagged
  longest : ∀ front quiet, history = front ++ quiet → flags.trainingAfterGC ≤ front.length →
    (after flags history).flagged = (after flags front).flagged →
    quiet.length ≤ (after flags history).streak
  unsettled : ∀ front quiet rest, ¬Settled flags history front quiet rest

theorem initial_waiting : Waiting flags [] where
  runs := rfl
  seen := rfl
  bounded := Nat.zero_le _
  streak := ⟨[], [], rfl, rfl, fun filled => absurd rfl filled, rfl⟩
  longest := by
    intro front quiet split _ _
    simp [(append_eq_nil_iff.mp split.symm).2]
  unsettled := by
    intro front quiet rest settled
    have empty := append_eq_nil_iff.mp settled.split.symm
    exact settled.later empty.2

/-- A settled stretch either was there before the last collection or reaches up to it. -/
theorem Settled.snoc {rest : List Collection}
    (settled : Settled flags (history ++ [c]) front quiet rest) :
    (∃ less, Settled flags history front quiet less) ∨ history = front ++ quiet := by
  obtain ⟨split, warm, long, same, later⟩ := settled
  obtain ⟨less, last, rfl⟩ := eq_nil_or_concat' rest |>.resolve_left later
  rw [← append_assoc] at split
  have front_eq := (append_inj' split rfl).1
  cases less with
  | nil => exact .inr (by simpa using front_eq)
  | cons d less => exact .inl ⟨d :: less, front_eq, warm, long, same, by simp⟩

/-- A stretch up to now is not yet long enough, unless the next collection is the end. -/
theorem Waiting.unsettled_next (waiting : Waiting flags history)
    (short : (after flags history).streak < flags.unchangedTimeForTrainingEnd ∨
      history.length < flags.trainingAfterGC) (rest : List Collection) :
    ¬Settled flags (history ++ [c]) front quiet rest := by
  intro settled
  rcases settled.snoc with ⟨less, before⟩ | reaches
  · exact waiting.unsettled _ _ _ before
  · have warm := settled.warm
    have long := settled.long
    rcases short with short | early
    · have bound := waiting.longest front quiet reaches warm (reaches ▸ settled.same)
      omega
    · rw [reaches, length_append] at early
      omega

/-- A stretch without a new class that ends now began without one. -/
theorem longest_snoc (waiting : Waiting flags history) (split : history ++ [c] = front ++ quiet)
    (filled : quiet ≠ []) (warm : flags.trainingAfterGC ≤ front.length)
    (same : (after flags (history ++ [c])).flagged = (after flags front).flagged) :
    (after flags (history ++ [c])).flagged = (after flags history).flagged ∧
      quiet.length ≤ (after flags history).streak + 1 := by
  obtain ⟨less, last, rfl⟩ := (eq_nil_or_concat' quiet).resolve_left filled
  rw [← append_assoc] at split
  have before := (append_inj' split rfl).1
  have grown : (after flags front).flagged ⊆ (after flags history).flagged := by
    rw [before]
    exact flagged_append front less
  have grows : (after flags history).flagged ⊆ (after flags (history ++ [c])).flagged :=
    flagged_append history [c]
  have start : (after flags history).flagged = (after flags front).flagged :=
    Finset.Subset.antisymm (same ▸ grows) grown
  refine ⟨same.trans start.symm, ?_⟩
  have bound := waiting.longest front less before warm start
  rw [length_append, length_singleton]
  omega

theorem Waiting.warmUp (waiting : Waiting flags history)
    (early : (after flags history).seen < flags.trainingAfterGC)
    (seen : (after flags (history ++ [c])).seen = (after flags history).seen + 1)
    (streak : (after flags (history ++ [c])).streak = (after flags history).streak)
    (still : (after flags (history ++ [c])).done = false) : Waiting flags (history ++ [c]) := by
  rw [waiting.seen] at early seen
  have none_yet : (after flags history).streak = 0 := by
    obtain ⟨front, quiet, split, length, warm, -⟩ := waiting.streak
    rw [← length, length_eq_zero_iff]
    by_contra filled
    have late := warm filled
    rw [split, length_append] at early
    omega
  refine ⟨still, ?_, ?_, ?_, ?_, ?_⟩
  · simpa using seen
  · rw [streak]
    exact waiting.bounded
  · exact ⟨history ++ [c], [], by simp, by simp [streak, none_yet], fun filled => absurd rfl filled, rfl⟩
  · intro front quiet split warm _
    have length := congrArg length split
    simp only [length_append, length_singleton] at length
    omega
  · intro front quiet rest
    exact waiting.unsettled_next (.inr early) rest

theorem Waiting.examined (waiting : Waiting flags history)
    (late : flags.trainingAfterGC ≤ (after flags history).seen)
    (short : (after flags history).streak < flags.unchangedTimeForTrainingEnd)
    (seen : (after flags (history ++ [c])).seen = (after flags history).seen + 1)
    (streak : (after flags (history ++ [c])).streak =
      if (after flags (history ++ [c])).flagged = (after flags history).flagged then
        (after flags history).streak + 1 else 0)
    (still : (after flags (history ++ [c])).done = false) : Waiting flags (history ++ [c]) := by
  rw [waiting.seen] at late seen
  refine ⟨still, ?_, ?_, ?_, ?_, ?_⟩
  · simpa using seen
  · rw [streak]
    split <;> omega
  · by_cases same : (after flags (history ++ [c])).flagged = (after flags history).flagged
    · rw [if_pos same] at streak
      obtain ⟨front, quiet, split, length, warm, before⟩ := waiting.streak
      refine ⟨front, quiet ++ [c], by simp [split], by simp [length, streak], fun _ => ?_,
        same.trans before⟩
      by_cases filled : quiet = []
      · have whole : history = front := by simpa [filled] using split
        exact whole ▸ late
      · exact warm filled
    · rw [if_neg same] at streak
      exact ⟨history ++ [c], [], by simp, by simp [streak], fun filled => absurd rfl filled, rfl⟩
  · intro front quiet split warm same
    by_cases filled : quiet = []
    · simp [filled]
    · obtain ⟨unchanged, bound⟩ := longest_snoc waiting split filled warm same
      rw [streak, if_pos unchanged]
      exact bound
  · intro front quiet rest
    exact waiting.unsettled_next (.inl short) rest

theorem Settled.append {rest more : List Collection} (settled : Settled flags history front quiet rest) :
    Settled flags (history ++ more) front quiet (rest ++ more) where
  split := by rw [settled.split]; simp
  warm := settled.warm
  long := settled.long
  same := settled.same
  later := by simp [settled.later]

theorem waiting_or_settled (flags : Flags) (history : List Collection) :
    Waiting flags history ∨ ((after flags history).done = true ∧
      ∃ front quiet rest, Settled flags history front quiet rest) := by
  induction history using reverseRecOn with
  | nil => exact .inl initial_waiting
  | append_singleton history c ih =>
    have progresses := collect_progresses flags (after flags history) c
    rw [← after_append_singleton] at progresses
    rcases ih with waiting | ⟨done, front, quiet, rest, settled⟩
    · cases progresses with
      | finished done => rw [waiting.runs] at done; cases done
      | warmUp _ early seen streak still => exact .inl (waiting.warmUp early seen streak still)
      | examined _ late short seen _ streak still =>
        exact .inl (waiting.examined late short seen streak still)
      | ended _ late long ends =>
        obtain ⟨front, quiet, split, length, warm, same⟩ := waiting.streak
        refine .inr ⟨ends, front, quiet, [c], by rw [split], ?_, ?_, split ▸ same, by simp⟩
        · by_cases filled : quiet = []
          · have whole : history = front := by simpa [filled] using split
            exact whole ▸ waiting.seen ▸ late
          · exact warm filled
        · exact length.trans (le_antisymm waiting.bounded long)
    · refine .inr ⟨?_, front, quiet, rest ++ [c], settled.append⟩
      cases progresses with
      | finished _ stays => exact stays
      | warmUp runs | examined runs | ended runs => rw [done] at runs; cases runs

/-- Training is over exactly when some collection came after a settled stretch. -/
theorem done_iff_settled (flags : Flags) (history : List Collection) :
    (after flags history).done = true ↔
      ∃ front quiet rest, Settled flags history front quiet rest := by
  rcases waiting_or_settled flags history with waiting | ⟨done, settled⟩
  · constructor
    · intro done
      rw [waiting.runs] at done
      cases done
    · rintro ⟨front, quiet, rest, settled⟩
      exact absurd settled (waiting.unsettled front quiet rest)
  · exact ⟨fun _ => settled, fun _ => done⟩

/-- A collection of a trained eden looks at what it promoted whether training is over or not. -/
theorem flags_promoted_again {k : Nat} (trained : c.trained = true) (curious : flags.stillCurious = true)
    (listed : k ∈ c.classes) (counts : flaggable flags k = true) :
    k ∈ (after flags (history ++ [c])).flagged := by
  rw [after_append_singleton, collect, lookAgain, if_pos ⟨trained, curious⟩]
  exact mem_grow listed counts

/-- A collection behind the warm-up that does not end training flags what it promoted. -/
theorem flags_promoted {k : Nat} (warm : flags.trainingAfterGC ≤ history.length)
    (still : (after flags (history ++ [c])).done = false) (listed : k ∈ c.classes)
    (counts : flaggable flags k = true) : k ∈ (after flags (history ++ [c])).flagged := by
  have progresses := collect_progresses flags (after flags history) c
  rw [← after_append_singleton] at progresses
  have waiting : Waiting flags history := by
    rcases waiting_or_settled flags history with waiting | ⟨done, -⟩
    · exact waiting
    · cases progresses with
      | finished _ stays => rw [still] at stays; cases stays
      | warmUp runs | examined runs | ended runs => rw [done] at runs; cases runs
  cases progresses with
  | finished done => rw [waiting.runs] at done; cases done
  | warmUp _ early =>
    rw [waiting.seen] at early
    omega
  | examined _ _ _ _ flagged =>
    rw [flagged]
    exact mem_grow listed counts
  | ended _ _ _ ends => rw [still] at ends; cases ends

end Training

/-! ### The virtual machine refines it -/

/-- What training reads and writes of the virtual machine. -/
structure Progress where
  isResidual : Nat → Bool
  gcCount : Nat
  residualUnchangedTime : Nat
  totalResidualCount : Nat
  trainingDone : Bool

def progress (vm : VM) : Progress where
  isResidual := vm.isResidual
  gcCount := vm.gcCount
  residualUnchangedTime := vm.residualUnchangedTime
  totalResidualCount := vm.totalResidualCount
  trainingDone := vm.machine.trainingDone

/-- The flags stand for the set, and the counter for its size. -/
structure Refines (p : Progress) (t : Training) : Prop where
  flag : ∀ k, p.isResidual k = true ↔ k ∈ t.flagged
  total : p.totalResidualCount = t.flagged.card
  count : p.gcCount = t.seen
  unchanged : p.residualUnchangedTime = t.streak
  done : p.trainingDone = t.done

open Training (grow flaggable)

section Refinement

variable {flags : Flags} {vm after : VM} {t : Training}

theorem grow_cons (k : Nat) (classes : List Nat) (flagged : Finset Nat) :
    grow flags (k :: classes) flagged = grow flags classes (grow flags [k] flagged) := by
  ext i
  simp only [grow, filter_cons, Finset.mem_union, List.mem_toFinset, filter_nil]
  split
  · grind
  · simp

theorem examineObject_refines (flags : Flags) (refines : Refines (progress vm) t) (obj : Nat) :
    Refines (progress (examineObject flags vm obj))
      { t with flagged := grow flags [vm.klass obj] t.flagged } := by
  unfold examineObject
  dsimp only
  split
  · rename_i new
    have fresh : vm.klass obj ∉ t.flagged := by
      intro listed
      have set : vm.isResidual (vm.klass obj) = true := (refines.flag _).mpr listed
      rw [new.1] at set
      cases set
    have grown : grow flags [vm.klass obj] t.flagged = insert (vm.klass obj) t.flagged := by
      have counts : flaggable flags (vm.klass obj) = true := by
        simpa [flaggable] using new.2
      simp [grow, counts]
    rw [grown]
    refine ⟨fun k => ?_, ?_, refines.count, refines.unchanged, refines.done⟩
    · rw [Finset.mem_insert, ← refines.flag k]
      by_cases same : k = vm.klass obj <;> simp [progress, same]
    · rw [Finset.card_insert_of_notMem fresh, ← refines.total]
      rfl
  · rename_i old
    have kept : grow flags [vm.klass obj] t.flagged = t.flagged := by
      apply Finset.union_eq_left.mpr
      intro k listed
      obtain ⟨rfl, counts⟩ : k = vm.klass obj ∧ flaggable flags k = true := by
        simpa using listed
      rw [← refines.flag]
      by_contra unset
      exact old ⟨by simpa [progress] using unset, by simpa [flaggable] using counts⟩
    rw [kept]
    exact refines

@[simp] theorem examineObject_klass (flags : Flags) (vm : VM) (obj : Nat) :
    (examineObject flags vm obj).klass = vm.klass := by
  unfold examineObject
  dsimp only
  split <;> rfl

theorem examineTypeOfObjects_refines (flags : Flags) (promoted : List Nat)
    (refines : Refines (progress vm) t) :
    Refines (progress (examineTypeOfObjects flags promoted vm))
      { t with flagged := grow flags (promoted.map vm.klass) t.flagged } := by
  induction promoted generalizing vm t with
  | nil =>
    have kept : grow flags [] t.flagged = t.flagged := by simp [grow]
    rw [map_nil, kept]
    exact refines
  | cons obj promoted ih =>
    have rest := ih (examineObject_refines flags refines obj)
    rw [examineObject_klass] at rest
    rw [map_cons, grow_cons]
    exact rest

theorem trainingResidual_refines (trained : Bool) (promoted : List Nat)
    (refines : Refines (progress vm) t) :
    Refines (progress (trainingResidual flags promoted vm))
      (Training.train flags ⟨trained, promoted.map vm.klass⟩ t) := by
  obtain ⟨flagged, seen, streak, done⟩ := t
  obtain rfl : vm.gcCount = seen := refines.count
  obtain rfl : vm.residualUnchangedTime = streak := refines.unchanged
  have counted : Refines (progress { vm with gcCount := vm.gcCount + 1 })
      ⟨flagged, vm.gcCount + 1, vm.residualUnchangedTime, done⟩ :=
    ⟨refines.flag, refines.total, rfl, rfl, refines.done⟩
  unfold trainingResidual Training.train
  by_cases early : vm.gcCount < flags.trainingAfterGC
  · rw [if_pos (Nat.succ_le_of_lt early), if_pos early]
    exact counted
  · rw [if_neg early, if_neg (mt Nat.lt_of_succ_le early)]
    by_cases short : vm.residualUnchangedTime < flags.unchangedTimeForTrainingEnd
    · rw [if_pos short, if_pos short]
      have examined := examineTypeOfObjects_refines flags promoted counted
      have total : vm.totalResidualCount = flagged.card := refines.total
      have grown : (examineTypeOfObjects flags promoted { vm with gcCount := vm.gcCount + 1 }
          ).totalResidualCount = (grow flags (promoted.map vm.klass) flagged).card :=
        examined.total
      have settles : (examineTypeOfObjects flags promoted { vm with gcCount := vm.gcCount + 1 }
          ).totalResidualCount = vm.totalResidualCount ↔
          grow flags (promoted.map vm.klass) flagged = flagged := by
        rw [grown, total]
        constructor
        · intro same
          exact (Finset.eq_of_subset_of_card_le (Training.subset_grow _ _) same.le).symm
        · intro same
          exact congrArg Finset.card same
      refine ⟨examined.flag, examined.total, examined.count, ?_, examined.done⟩
      exact ite_congr (propext settles) (fun _ => rfl) (fun _ => rfl)
    · rw [if_neg short, if_neg short]
      exact ⟨counted.flag, counted.total, counted.count, counted.unchanged, rfl⟩

@[simp] theorem trainingResidual_klass (flags : Flags) (promoted : List Nat) (vm : VM) :
    (trainingResidual flags promoted vm).klass = vm.klass := by
  have examined (vm : VM) : (examineTypeOfObjects flags promoted vm).klass = vm.klass := by
    induction promoted generalizing vm with
    | nil => rfl
    | cons obj promoted ih => exact (ih _).trans (examineObject_klass flags vm obj)
  unfold trainingResidual
  dsimp only
  split
  · rfl
  · split
    · exact examined _
    · rfl

/-- The classes of the objects that an evacuation promoted are all that training sees of it. -/
theorem examineResiduals_refines (eden : TransEden) (promoted : List Nat)
    (examines : flags.examineResiduals = true) (refines : Refines (progress vm) t) :
    Refines (progress (examineResiduals flags eden promoted vm))
      (t.collect flags ⟨eden.trained, promoted.map vm.klass⟩) := by
  have again {vm' : VM} {t' : Training} (klass : vm'.klass = vm.klass) (refines' : Refines (progress vm') t') :
      Refines (progress (if flags.examineResiduals = true ∧ eden.trained = true ∧
          flags.stillCurious = true then examineTypeOfObjects flags promoted vm' else vm'))
        (Training.lookAgain flags ⟨eden.trained, promoted.map vm.klass⟩ t') := by
    unfold Training.lookAgain
    by_cases curious : eden.trained = true ∧ flags.stillCurious = true
    · rw [if_pos ⟨examines, curious⟩, if_pos curious, ← klass]
      exact examineTypeOfObjects_refines flags promoted refines'
    · rw [if_neg (fun looks => curious looks.2), if_neg curious]
      exact refines'
  refine again ?_ ?_
  · split
    · exact trainingResidual_klass flags promoted vm
    · rfl
  · cases done : vm.machine.trainingDone with
    | true =>
      rw [if_neg (fun trains => Bool.noConfusion trains.2), if_pos (refines.done.symm.trans done)]
      exact refines
    | false =>
      have runs : t.done = false := refines.done.symm.trans done
      rw [if_pos ⟨examines, rfl⟩, runs, if_neg Bool.false_ne_true]
      exact trainingResidual_refines eden.trained promoted refines

/-! ### Between two collections -/

/-- The successful collection that an event is, if it is one. -/
def collectionOf (flags : Flags) (vm : VM) : Event → Option Collection
  | .collectTransEden collectionAttemptIsSafe promotionFailed promoted id =>
    (vm.machine.gen.transEdens[id]?).bind fun eden =>
      if eden.state = .collectable ∧ ¬(eden.trained = true ∧ flags.avoidCollectTrained = true) ∧
          collectionAttemptIsSafe = true ∧ promotionFailed = false then
        some ⟨eden.trained, promoted.map vm.klass⟩
      else none
  | _ => none

/-- The successful collections of a run, in order. -/
def collections (flags : Flags) : VM → List Event → List Collection
  | _, [] => []
  | vm, e :: events =>
    (collectionOf flags vm e).toList ++ (step flags vm e).elim [] fun next => collections flags next events

theorem thread_trainingDone {flags : ThreadEvents.Flags} {machine next : ThreadEvents.VM}
    {e : ThreadEvents.Event} (acts : e.actor ≠ none)
    (stepped : ThreadEvents.step flags machine e = some next) :
    next.trainingDone = machine.trainingDone := by
  cases e with
  | threadStart ostid parent acceptName =>
    simp only [ThreadEvents.step] at stepped
    split at stepped
    · cases stepped
    · cases stepped
      unfold ThreadEvents.transCheckBeforeRun
      repeat' split
      all_goals rfl
  | getTransEdenToAllocate ostid =>
    obtain ⟨thread, -, allocates⟩ := bind_eq_some_iff.mp stepped
    obtain ⟨out, -, rfl⟩ := map_eq_some_iff.mp allocates
    cases out.thread <;> rfl
  | commonMemAllocateNoinit | park | awaitEntry | awaitExit | threadExit =>
    obtain ⟨thread, -, rfl⟩ := map_eq_some_iff.mp stepped
    simp only [ThreadEvents.commonMemAllocateNoinit, ThreadEvents.park,
      ThreadEvents.dtraceMethodEntry, ThreadEvents.dtraceMethodExit, ThreadEvents.exit]
    split <;> rfl
  | collectTransEden | collectResettableTransEden | resetTransEdens => exact absurd rfl acts

theorem putLocal_progress (vm : VM) (route : Route) (obj : Nat) :
    progress (putLocal vm route obj) = progress vm := by
  unfold putLocal
  split <;> rfl

theorem putInEden_progress (vm : VM) (id obj : Nat) :
    progress (putInEden vm id obj) = progress vm := by
  unfold putInEden
  split <;> rfl

theorem edenToAllocate_trainingDone {machine : ThreadEvents.VM} {ostid : Nat} {thread : JavaThread}
    {given : Option Nat × ThreadEvents.VM} (gives : edenToAllocate machine ostid thread = some given) :
    given.2.trainingDone = machine.trainingDone := by
  obtain ⟨out, -, rfl⟩ := map_eq_some_iff.mp gives
  cases out.thread <;> rfl

theorem allocate_progress {ostid klass width : Nat} {route : Route}
    (allocates : allocate flags vm ostid klass width route = some after) :
    progress after = progress vm := by
  obtain ⟨thread, -, allocates⟩ := bind_eq_some_iff.mp allocates
  dsimp only at allocates
  split at allocates
  · cases allocates
    exact putLocal_progress _ route vm.next
  · split at allocates
    · split at allocates
      · cases allocates
        rfl
      · cases allocates
        exact putLocal_progress _ route vm.next
    · obtain ⟨given, gives, rfl⟩ := map_eq_some_iff.mp allocates
      have done := edenToAllocate_trainingDone gives
      have born : progress { newObject vm ostid klass width thread.transID
          (route.slowPath && shouldPretenure flags vm klass) with machine := given.2 } = progress vm := by
        simp only [progress, newObject, done]
      split
      · split
        · exact (putInEden_progress _ _ _).trans born
        · exact (putLocal_progress _ _ _).trans born
      · exact (putLocal_progress _ _ _).trans born

theorem table_progress (vm : VM) {machine : ThreadEvents.VM} {safe failed : Bool} {id : Nat}
    (collects : ThreadEvents.collectTransEden flags.toFlags vm.machine safe failed false id = some machine) :
    progress { vm with machine := machine } = progress vm := by
  obtain ⟨gen, -, rfl⟩ := map_eq_some_iff.mp collects
  simp [progress]

theorem collectTransEden_refines {safe failed : Bool} {promoted : List Nat} {id : Nat}
    (examines : flags.examineResiduals = true) (refines : Refines (progress vm) t)
    (stepped : collectTransEden flags vm safe failed promoted id = some after) :
    Refines (progress after)
      ((collectionOf flags vm (.collectTransEden safe failed promoted id)).toList.foldl
        (Training.collect flags) t) := by
  obtain ⟨eden, entry, stepped⟩ := bind_eq_some_iff.mp stepped
  simp only [collectionOf, entry, bind_some]
  split at stepped
  · rename_i other
    obtain ⟨machine, collects, rfl⟩ := map_eq_some_iff.mp stepped
    rw [if_neg (fun success => other success.1), table_progress _ collects]
    exact refines
  · rename_i collectable
    split at stepped
    · rename_i avoided
      obtain ⟨machine, collects, rfl⟩ := map_eq_some_iff.mp stepped
      rw [if_neg (fun success => success.2.1 avoided),
        table_progress (vm.drop eden.objects) collects]
      exact refines
    · rename_i collected
      cases safe with
      | false =>
        obtain ⟨machine, collects, rfl⟩ := map_eq_some_iff.mp stepped
        rw [if_neg (by simp), table_progress _ collects]
        exact refines
      | true =>
        cases failed with
        | true =>
          simp only [Bool.true_eq_false, if_false, if_true] at stepped
          split at stepped
          · obtain ⟨machine, collects, rfl⟩ := map_eq_some_iff.mp stepped
            rw [if_neg (by simp), table_progress (promoteFrom vm id eden promoted) collects]
            exact refines
          · cases stepped
        | false =>
          simp only [Bool.true_eq_false, Bool.false_eq_true, if_false] at stepped
          split at stepped
          · obtain ⟨machine, collects, rfl⟩ := map_eq_some_iff.mp stepped
            rw [if_pos ⟨Decidable.not_not.mp collectable, collected, rfl, rfl⟩, table_progress _ collects]
            exact examineResiduals_refines eden promoted examines refines
          · cases stepped

/-- Only successful collections move training on, each by one step of it. -/
theorem step_refines {e : Event} (examines : flags.examineResiduals = true)
    (refines : Refines (progress vm) t) (stepped : step flags vm e = some after) :
    Refines (progress after) ((collectionOf flags vm e).toList.foldl (Training.collect flags) t) := by
  have unmoved (same : progress after = progress vm) : Refines (progress after) t := same ▸ refines
  cases e with
  | thread e =>
    simp only [ResidualTraining.step] at stepped
    split at stepped
    · cases stepped
    · rename_i acts
      obtain ⟨machine, steps, rfl⟩ := map_eq_some_iff.mp stepped
      apply unmoved
      simp only [progress, thread_trainingDone acts steps]
  | allocate ostid klass width route => exact unmoved (allocate_progress stepped)
  | load ostid obj index =>
    simp only [ResidualTraining.step] at stepped
    split at stepped
    · split at stepped <;> (cases stepped; exact unmoved rfl)
    · cases stepped
  | store ostid obj index target =>
    simp only [ResidualTraining.step] at stepped
    split at stepped
    · cases stepped
      exact unmoved rfl
    · cases stepped
  | forget | collectResettableTransEden =>
    cases stepped
    exact unmoved rfl
  | collectTransEden safe failed promoted id => exact collectTransEden_refines examines refines stepped
  | collectDefNew kept promoted =>
    simp only [ResidualTraining.step, collectDefNew] at stepped
    split at stepped
    · cases stepped
      exact unmoved rfl
    · cases stepped
  | collectFull gen0 old =>
    simp only [ResidualTraining.step, collectFull] at stepped
    split at stepped
    · cases stepped
      exact unmoved rfl
    · cases stepped

/-- A run of the virtual machine is a run of training over its successful collections. -/
theorem run_refines {events : List Event} (examines : flags.examineResiduals = true)
    (refines : Refines (progress vm) t) (reached : run (step flags) vm events = some after) :
    Refines (progress after) ((collections flags vm events).foldl (Training.collect flags) t) := by
  induction events generalizing vm t with
  | nil =>
    cases reached
    exact refines
  | cons e events ih =>
    obtain ⟨next, head, tail⟩ := run_cons_eq_some.mp reached
    have rest := ih (step_refines examines refines head) tail
    rw [collections, head, elim_some, foldl_append]
    exact rest

theorem collections_append {front back : List Event} {m : VM}
    (reached : run (step flags) vm front = some m) :
    collections flags vm (front ++ back) = collections flags vm front ++ collections flags m back := by
  induction front generalizing vm with
  | nil =>
    cases reached
    rfl
  | cons e front ih =>
    obtain ⟨next, head, tail⟩ := run_cons_eq_some.mp reached
    simp only [cons_append, collections, head, elim_some, ih tail, append_assoc]

theorem split_collections {events : List Event} {early late : List Collection}
    (reached : run (step flags) vm events = some after)
    (split : collections flags vm events = early ++ late) :
    ∃ front back m, events = front ++ back ∧ run (step flags) vm front = some m ∧
      collections flags vm front = early ∧ collections flags m back = late := by
  induction events generalizing vm early with
  | nil =>
    have empty := append_eq_nil_iff.mp split.symm
    exact ⟨[], [], vm, rfl, rfl, empty.1.symm, empty.2.symm⟩
  | cons e events ih =>
    cases early with
    | nil => exact ⟨[], e :: events, vm, rfl, rfl, rfl, split⟩
    | cons c early =>
      obtain ⟨next, head, tail⟩ := run_cons_eq_some.mp reached
      rw [collections, head, elim_some] at split
      cases collected : collectionOf flags vm e with
      | none =>
        rw [collected] at split
        obtain ⟨front, back, m, rfl, reaches, before, behind⟩ := ih tail split
        refine ⟨e :: front, back, m, rfl, run_cons_eq_some.mpr ⟨next, head, reaches⟩, ?_, behind⟩
        simpa [collections, head, collected] using before
      | some first =>
        rw [collected] at split
        obtain ⟨rfl, others⟩ := cons.inj split
        obtain ⟨front, back, m, rfl, reaches, before, behind⟩ := ih tail others
        refine ⟨e :: front, back, m, rfl, run_cons_eq_some.mpr ⟨next, head, reaches⟩, ?_, behind⟩
        simpa [collections, head, collected] using before

end Refinement

/-! ### Whole runs -/

/-- From `before` to `between`, as many successful collections as training waits for, behind the
warm-up, and no new flag, and with another collection behind it. -/
structure Quieted (flags : Flags) (start : VM) (events front quiet rest : List Event)
    (before between : VM) : Prop where
  split : events = front ++ quiet ++ rest
  reaches : run (step flags) start front = some before
  passes : run (step flags) before quiet = some between
  warm : flags.trainingAfterGC ≤ (collections flags start front).length
  long : (collections flags before quiet).length = flags.unchangedTimeForTrainingEnd
  same : between.isResidual = before.isResidual
  later : collections flags between rest ≠ []

/-- The event `e` leads from `before` to `next` by a successful collection `c` that examines. -/
structure Examined (flags : Flags) (start : VM) (events : List Event) (before next : VM) (e : Event)
    (c : Collection) : Prop where
  splits : ∃ front back, events = front ++ e :: back ∧ run (step flags) start front = some before ∧
    (flags.trainingAfterGC ≤ (collections flags start front).length ∧
        next.machine.trainingDone = false ∨
      c.trained = true ∧ flags.stillCurious = true)
  steps : step flags before e = some next
  succeeds : collectionOf flags before e = some c

section WholeRuns

variable {flags : Flags} {maxTransEden statics width : Nat} {events : List Event} {start vm : VM}

theorem initial_refines (maxTransEden statics width : Nat) :
    Refines (progress (VM.initial maxTransEden statics width)) Training.initial :=
  ⟨by simp [progress, VM.initial, Training.initial], rfl, rfl, rfl, rfl⟩

theorem Refines.flagged_eq_iff {p q : Progress} {s t : Training} (left : Refines p s)
    (right : Refines q t) : p.isResidual = q.isResidual ↔ s.flagged = t.flagged := by
  constructor
  · intro same
    ext k
    rw [← left.flag, ← right.flag, same]
  · intro same
    funext k
    rw [Bool.eq_iff_iff, left.flag, right.flag, same]

section

variable (examines : flags.examineResiduals = true)
  (initial : Refines (progress start) Training.initial)
include examines initial

theorem refines_after (reached : run (step flags) start events = some vm) :
    Refines (progress vm) (Training.after flags (collections flags start events)) :=
  run_refines examines initial reached

theorem done_iff_quieted (reached : run (step flags) start events = some vm) :
    vm.machine.trainingDone = true ↔ ∃ front quiet rest before between,
      Quieted flags start events front quiet rest before between := by
  have refines := refines_after examines initial reached
  rw [show vm.machine.trainingDone = _ from refines.done, Training.done_iff_settled]
  constructor
  · rintro ⟨early, still, late, split, warm, long, same, later⟩
    obtain ⟨both, rest, between, rfl, passes, prior, behind⟩ := split_collections reached split
    obtain ⟨front, quiet, before, rfl, reaches, first, second⟩ := split_collections passes prior
    obtain ⟨before', reaches', waits⟩ := run_append_eq_some.mp passes
    obtain rfl : before' = before := some.inj (reaches'.symm.trans reaches)
    refine ⟨front, quiet, rest, before', between, rfl, reaches, waits, first ▸ warm, second ▸ long, ?_,
      behind ▸ later⟩
    have now := refines_after examines initial passes
    have earlier := refines_after examines initial reaches
    rw [prior] at now
    rw [first] at earlier
    exact (now.flagged_eq_iff earlier).mpr same
  · rintro ⟨front, quiet, rest, before, between, rfl, reaches, passes, warm, long, same, later⟩
    have both := run_append_eq_some.mpr ⟨before, reaches, passes⟩
    refine ⟨_, _, _, ?_, warm, long, ?_, later⟩
    · rw [collections_append both, collections_append reaches]
    · rw [← collections_append reaches]
      exact ((refines_after examines initial both).flagged_eq_iff
        (refines_after examines initial reaches)).mp same

theorem examined_flags {before next : VM} {e : Event} {c : Collection} {k : Nat}
    (reached : run (step flags) start events = some vm)
    (examined : Examined flags start events before next e c)
    (listed : k ∈ c.classes) (counts : flaggable flags k = true) : vm.isResidual k = true := by
  obtain ⟨⟨front, back, rfl, reaches, looks⟩, steps, succeeds⟩ := examined
  have passes : run (step flags) start (front ++ [e]) = some next :=
    run_append_eq_some.mpr ⟨before, reaches, run_cons_eq_some.mpr ⟨next, steps, rfl⟩⟩
  have history : collections flags start (front ++ [e]) = collections flags start front ++ [c] := by
    rw [collections_append reaches]
    simp [collections, succeeds, steps]
  have now := refines_after examines initial passes
  rw [history] at now
  have flagged : k ∈ (Training.after flags (collections flags start front ++ [c])).flagged := by
    rcases looks with ⟨warm, still⟩ | ⟨trained, curious⟩
    · exact Training.flags_promoted warm (now.done.symm.trans still) listed counts
    · exact Training.flags_promoted_again trained curious listed counts
  have whole : collections flags start (front ++ e :: back) =
      collections flags start front ++ [c] ++ collections flags next back := by
    rw [← history, ← collections_append passes, append_assoc, singleton_append]
  have refines := refines_after examines initial reached
  rw [whole] at refines
  exact (refines.flag k).mpr (Training.flagged_append _ _ flagged)

end

/-- What an examined collection promoted is flagged, the counter is the number of flagged classes,
and training is over exactly when a collection came after a stretch that was long enough and flagged
nothing new. -/
theorem residual_training_progress (examines : flags.examineResiduals = true)
    (reached : run (step flags) (VM.initial maxTransEden statics width) events = some vm) :
    (∀ before next e c,
        Examined flags (VM.initial maxTransEden statics width) events before next e c →
        ∀ k ∈ c.classes, vm.isResidual k = true ∨
          (flags.noPretenuringBytes = true ∧ k = flags.byteArray)) ∧
      (∃ flagged : Finset Nat, (∀ k, vm.isResidual k = true ↔ k ∈ flagged) ∧
        vm.totalResidualCount = flagged.card) ∧
      (vm.machine.trainingDone = true ↔ ∃ front quiet rest before between,
        Quieted flags (VM.initial maxTransEden statics width) events front quiet rest before
          between) := by
  have initial := initial_refines maxTransEden statics width
  refine ⟨?_, ?_, done_iff_quieted examines initial reached⟩
  · intro before next e c examined k listed
    by_cases counts : flaggable flags k = true
    · exact .inl (examined_flags examines initial reached examined listed counts)
    · exact .inr (by simpa [flaggable] using counts)
  · have refines := refines_after examines initial reached
    exact ⟨_, refines.flag, refines.total⟩

/-- Training that waits for one collection without a new class. -/
private def shortTraining : Flags where
  threadRunAsTransaction := false
  countChildrenForTrans := true
  useParkUnpark := true
  avoidCollectTrained := true
  pretenure := true
  transGC := true
  applyWhileTraining := false
  examineResiduals := true
  stillCurious := false
  noPretenuringBytes := false
  pretenureToOld := true
  debugTypeGenGC := false
  trainingAfterGC := 0
  unchangedTimeForTrainingEnd := 1
  byteArray := 0

/-- A transaction that allocates one object of class 7, and its collection. -/
private def collectedTransaction (obj : Nat) (promoted : List Nat) : List Event :=
  [.thread (.commonMemAllocateNoinit 2), .allocate 2 7 1 ⟨true, true, true, true⟩, .forget 2 obj,
    .thread (.park 2), .collectTransEden true false promoted 0]

private def quietRun : List Event :=
  [.thread (.threadStart 1 0 true), .thread (.threadStart 2 1 false), .thread (.park 2)] ++
    collectedTransaction 1 [1] ++ collectedTransaction 2 [2] ++ collectedTransaction 3 []

private theorem quietRun_observed :
    (run (step shortTraining) (VM.initial 1 1 1) quietRun).map
        (fun vm => (vm.machine.trainingDone, vm.isResidual 7, vm.totalResidualCount)) =
      some (true, true, 1) := by
  decide +kernel

/-- The first collection flags class 7, the second finds no other, and the third ends training. -/
theorem third_collection_ends_training :
    ∃ vm, run (step shortTraining) (VM.initial 1 1 1) quietRun = some vm ∧
      (∃ flagged : Finset Nat, 7 ∈ flagged ∧ flagged.card = 1) ∧
      ∃ front quiet rest before between,
        Quieted shortTraining (VM.initial 1 1 1) quietRun front quiet rest before between := by
  obtain ⟨vm, reached, seen⟩ := map_eq_some_iff.mp quietRun_observed
  obtain ⟨done, counts⟩ := Prod.mk.inj seen
  obtain ⟨flag, total⟩ := Prod.mk.inj counts
  obtain ⟨-, ⟨flagged, holds, size⟩, ends⟩ := residual_training_progress rfl reached
  exact ⟨vm, reached, ⟨flagged, (holds 7).mp flag, size.symm.trans total⟩, ends.mp done⟩

end WholeRuns

end TrainingProgress
