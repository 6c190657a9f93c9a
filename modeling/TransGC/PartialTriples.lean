import Mathlib.Init

/-!
# Partial computations over a state

Computations that read and change a state and may have no result. A triple says what holds of
every result. `firstSome` runs one attempt after the other until one of them gives a value.
-/
namespace PartialTriples
universe u

variable {σ α β : Type u}

/-- From a state with `P`, every result of `x` meets `Q`. -/
def Triple (P : σ → Prop) (x : StateT σ Option α) (Q : α → σ → Prop) : Prop :=
  ∀ s a t, P s → x s = some (a, t) → Q a t

/-- The value of `x` if it has one, else the result of `y`. -/
def firstSome (x y : StateT σ Option (Option α)) : StateT σ Option (Option α) := do
  match ← x with
  | some a => return some a
  | none => y

variable {P R : σ → Prop} {x : StateT σ Option α} {f : α → StateT σ Option β} {s t : σ}

theorem bind_eq_some {b : β} :
    (x >>= f) s = some (b, t) ↔ ∃ a m, x s = some (a, m) ∧ f a m = some (b, t) := by
  constructor
  · intro runs
    obtain ⟨⟨a, m⟩, first, rest⟩ := Option.bind_eq_some_iff.mp runs
    exact ⟨a, m, first, rest⟩
  · rintro ⟨a, m, first, rest⟩
    exact Option.bind_eq_some_iff.mpr ⟨(a, m), first, rest⟩

theorem bind_eq_of_some {a : α} {m : σ} (first : x s = some (a, m)) : (x >>= f) s = f a m := by
  change (x s).bind _ = _
  rw [first]
  rfl

theorem pure_eq_some {a b : α} : (pure a : StateT σ Option α) s = some (b, t) ↔ a = b ∧ s = t := by
  constructor
  · intro runs
    cases Option.some.inj runs
    exact ⟨rfl, rfl⟩
  · rintro ⟨rfl, rfl⟩
    rfl

theorem firstSome_eq_some {x y : StateT σ Option (Option α)} {r : Option α} :
    firstSome x y s = some (r, t) ↔
      (∃ a, r = some a ∧ x s = some (some a, t)) ∨
        ∃ m, x s = some (none, m) ∧ y m = some (r, t) := by
  rw [firstSome, bind_eq_some]
  constructor
  · rintro ⟨first, m, runs, rest⟩
    cases first with
    | some a =>
      obtain ⟨rfl, rfl⟩ := pure_eq_some.mp rest
      exact .inl ⟨a, rfl, runs⟩
    | none => exact .inr ⟨m, runs, rest⟩
  · rintro (⟨a, rfl, runs⟩ | ⟨m, runs, rest⟩)
    · exact ⟨some a, t, runs, rfl⟩
    · exact ⟨none, m, runs, rest⟩

theorem firstSome_none {x y : StateT σ Option (Option α)} :
    firstSome x y s = some (none, t) ↔ ∃ m, x s = some (none, m) ∧ y m = some (none, t) := by
  rw [firstSome_eq_some]
  simp

theorem Triple.pure {a : α} {Q : α → σ → Prop} (holds : ∀ s, P s → Q a s) :
    Triple P (pure a) Q := by
  intro s b t start runs
  obtain ⟨rfl, rfl⟩ := pure_eq_some.mp runs
  exact holds s start

theorem Triple.bind {Q : α → σ → Prop} {S : β → σ → Prop} (first : Triple P x Q)
    (rest : ∀ a, Triple (Q a) (f a) S) : Triple P (x >>= f) S := by
  intro s b t start runs
  obtain ⟨a, m, runs, later⟩ := bind_eq_some.mp runs
  exact rest a m b t (first s a m start runs) later

theorem Triple.get {Q : β → σ → Prop} {f : σ → StateT σ Option β}
    (rest : ∀ a, Triple P (f a) Q) : Triple P (get >>= f) Q :=
  fun s b t start runs => rest s s b t start runs

theorem Triple.failure {Q : α → σ → Prop} : Triple P (failure : StateT σ Option α) Q := by
  intro s a t _ runs
  cases runs

theorem Triple.mono {Q S : α → σ → Prop} (triple : Triple P x Q) (before : ∀ s, R s → P s)
    (after : ∀ a s, Q a s → S a s) : Triple R x S :=
  fun s a t start runs => after a t (triple s a t (before s start) runs)

theorem Triple.pre {Q : α → σ → Prop} (triple : Triple P x Q) (before : ∀ s, R s → P s) :
    Triple R x Q :=
  triple.mono before fun _ _ holds => holds

theorem Triple.ite {c : Prop} [Decidable c] {y : StateT σ Option α} {Q : α → σ → Prop}
    (yes : c → Triple P x Q) (no : ¬ c → Triple P y Q) : Triple P (if c then x else y) Q := by
  split
  · rename_i holds
    exact yes holds
  · rename_i fails
    exact no fails

/-- Both attempts meet the postcondition; the second starts where the first gave nothing. -/
theorem Triple.firstSome {x y : StateT σ Option (Option α)} {Q : Option α → σ → Prop}
    (first : Triple P x Q) (rest : Triple (Q none) y Q) :
    Triple P (PartialTriples.firstSome x y) Q := by
  intro s r t start runs
  rcases firstSome_eq_some.mp runs with ⟨a, rfl, found⟩ | ⟨m, failed, later⟩
  · exact first s (some a) t start found
  · exact rest m r t (first s none m start failed) later

end PartialTriples
