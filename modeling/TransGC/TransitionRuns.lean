import Mathlib.Init

/-!
# Runs of a partial step function

A system is given by `step : State → Event → Option State`; an event that is not enabled, or that
the program does not survive, has no successor. A run is a finite list of events.
-/
namespace TransitionRuns
open List Option
universe u v

variable {State : Type u} {Event : Type v}

section Runs

variable (step : State → Event → Option State)

def run : State → List Event → Option State
  | s, [] => some s
  | s, e :: es => (step s e).bind fun t => run t es

/-- `P` holds in every state that the run `es` visits from `s`, `s` included. -/
def Along (P : State → Prop) : State → List Event → Prop
  | s, [] => P s
  | s, e :: es => P s ∧ ∀ t, step s e = some t → Along P t es

/-- Every step that the run `es` takes from `s` meets the guard `G`. -/
def Guarded (G : State → Event → Prop) : State → List Event → Prop
  | _, [] => True
  | s, e :: es => ∀ t, step s e = some t → G s e ∧ Guarded G t es

/-- The run `es` from `s` visits a state in which `Q` holds. -/
def Visits (Q : State → Prop) (s : State) (es : List Event) : Prop :=
  ∃ front back m, es = front ++ back ∧ run step s front = some m ∧ Q m

/-- An executable test of a run, step by step. -/
def checkRun (check : State → Event → Bool) : State → List Event → Bool
  | _, [] => true
  | s, e :: es => check s e && (step s e).all fun t => checkRun check t es

end Runs

variable {step : State → Event → Option State} {P : State → Prop}
  {G : State → Event → Prop} {s t : State} {e : Event} {es fs : List Event}

@[simp] theorem run_nil : run step s [] = some s := rfl

theorem run_cons_eq_some :
    run step s (e :: es) = some t ↔ ∃ m, step s e = some m ∧ run step m es = some t := by
  simp [run, bind_eq_some_iff]

theorem run_append_eq_some :
    run step s (es ++ fs) = some t ↔ ∃ m, run step s es = some m ∧ run step m fs = some t := by
  induction es generalizing s with
  | nil => simp
  | cons e es ih =>
    simp only [cons_append, run_cons_eq_some, ih]
    constructor
    · rintro ⟨m, head, n, front, back⟩
      exact ⟨n, ⟨m, head, front⟩, back⟩
    · rintro ⟨n, ⟨m, head, front⟩, back⟩
      exact ⟨m, head, n, front, back⟩

theorem Along.mono {Q : State → Prop} (along : Along step P s es) (weaker : ∀ s, P s → Q s) :
    Along step Q s es := by
  induction es generalizing s with
  | nil => exact weaker s along
  | cons e es ih => exact ⟨weaker s along.1, fun t head => ih (along.2 t head)⟩

theorem Along.and {Q : State → Prop} (left : Along step P s es) (right : Along step Q s es) :
    Along step (fun s => P s ∧ Q s) s es := by
  induction es generalizing s with
  | nil => exact ⟨left, right⟩
  | cons e es ih => exact ⟨⟨left.1, right.1⟩, fun t head => ih (left.2 t head) (right.2 t head)⟩

theorem Along.head (along : Along step P s es) : P s := by
  cases es with
  | nil => exact along
  | cons e es => exact along.1

theorem Along.last (along : Along step P s es) (reached : run step s es = some t) : P t := by
  induction es generalizing s with
  | nil =>
    cases some.inj reached
    exact along
  | cons e es ih =>
    obtain ⟨m, head, tail⟩ := run_cons_eq_some.mp reached
    exact ih (along.2 m head) tail

theorem Along.after (along : Along step P s (es ++ fs)) (reached : run step s es = some t) :
    Along step P t fs := by
  induction es generalizing s with
  | nil =>
    cases some.inj reached
    exact along
  | cons e es ih =>
    obtain ⟨m, head, tail⟩ := run_cons_eq_some.mp reached
    exact ih (along.2 m head) tail

theorem Guarded.after (guarded : Guarded step G s (es ++ fs)) (reached : run step s es = some t) :
    Guarded step G t fs := by
  induction es generalizing s with
  | nil =>
    cases some.inj reached
    exact guarded
  | cons e es ih =>
    obtain ⟨m, head, tail⟩ := run_cons_eq_some.mp reached
    exact ih (guarded m head).2 tail

theorem Guarded.imp {H : State → Event → Prop} (guarded : Guarded step G s es)
    (weaker : ∀ s, ∀ e ∈ es, G s e → H s e) : Guarded step H s es := by
  induction es generalizing s with
  | nil => trivial
  | cons e es ih =>
    intro t head
    obtain ⟨guard, rest⟩ := guarded t head
    exact ⟨weaker s e mem_cons_self guard,
      ih rest fun s e among => weaker s e (mem_cons_of_mem _ among)⟩

/-- An invariant that each guarded step keeps holds along every guarded run. -/
theorem along_of_guarded (keeps : ∀ s e t, P s → step s e = some t → G s e → P t)
    (start : P s) (guarded : Guarded step G s es) : Along step P s es := by
  induction es generalizing s with
  | nil => exact start
  | cons e es ih =>
    refine ⟨start, fun m head => ?_⟩
    obtain ⟨guard, rest⟩ := guarded m head
    exact ih (keeps s e m start head guard) rest

/-- An invariant that every step keeps holds along every run. -/
theorem along_of_invariant (keeps : ∀ s e t, P s → step s e = some t → P t) (start : P s) :
    Along step P s es := by
  induction es generalizing s with
  | nil => exact start
  | cons e es ih => exact ⟨start, fun m head => ih (keeps s e m start head)⟩

/-- If a step keeps the invariant exactly when it meets the guard, so does a run. -/
theorem along_iff_guarded (exact_step : ∀ s e t, P s → step s e = some t → (P t ↔ G s e))
    (start : P s) : Along step P s es ↔ Guarded step G s es := by
  refine ⟨fun along => ?_, along_of_guarded (fun s e t now head => (exact_step s e t now head).mpr)
    start⟩
  induction es generalizing s with
  | nil => trivial
  | cons e es ih =>
    intro m head
    have rest := along.2 m head
    exact ⟨(exact_step s e m start head).mp rest.head, ih rest.head rest⟩

/-- If a guarded step out of the invariant is taken and keeps it, a guarded run is never stuck. -/
theorem run_of_guards (takes : ∀ s e, P s → G s e → ∃ t, step s e = some t ∧ P t) (start : P s)
    (guards : ∀ front e back m, es = front ++ e :: back → run step s front = some m → G m e) :
    (run step s es).isSome ∧ Along step P s es := by
  induction es generalizing s with
  | nil => exact ⟨rfl, start⟩
  | cons e es ih =>
    obtain ⟨m, head, kept⟩ := takes s e start (guards [] e es s rfl rfl)
    have rest := ih kept fun front e back n split reached =>
      guards (_ :: front) e back n (congrArg _ split) (run_cons_eq_some.mpr ⟨m, head, reached⟩)
    rw [run, head]
    refine ⟨rest.1, start, fun t other => ?_⟩
    exact some.inj (head.symm.trans other) ▸ rest.2

theorem Visits.append (visits : Visits step P s es) (fs : List Event) :
    Visits step P s (es ++ fs) := by
  obtain ⟨front, back, m, rfl, reached, holds⟩ := visits
  exact ⟨front, back ++ fs, m, append_assoc _ _ _, reached, holds⟩

theorem visits_last (reached : run step s es = some t) (holds : P t) : Visits step P s es :=
  ⟨es, [], t, (append_nil es).symm, reached, holds⟩

theorem run_invariant (keeps : ∀ s e t, P s → step s e = some t → P t)
    (start : P s) (reached : run step s es = some t) : P t := by
  induction es generalizing s with
  | nil =>
    cases some.inj reached
    exact start
  | cons e es ih =>
    obtain ⟨m, head, tail⟩ := run_cons_eq_some.mp reached
    exact ih (keeps s e m start head) tail

end TransitionRuns
