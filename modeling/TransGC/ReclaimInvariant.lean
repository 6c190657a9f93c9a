import TransGC.ReclaimRace

/-!
# Who may touch an eden

The invariant looks at the fields of an eden that decide who may touch it, and at a thread's
transaction and place in the code. Steps that leave these fields alone, writes to them, and
threads that come and go keep it under the conditions stated here once for each kind.
-/
namespace ReclaimInvariant
open ReclaimRace Function
open EdenTable (State)

/-! ## Where a thread is -/

/-- The eden that a thread is about to reset or to clear. -/
def Pc.window : Pc → Option Nat
  | .reclaimTrained j | .reclaim j _ => some j
  | _ => none

/-- The eden that a thread has seen Available and is about to take. -/
def Pc.claiming : Pc → Option Nat
  | .assign j .setState _ => some j
  | _ => none

def Pc.locked : Pc → Bool
  | .cachedTransID .. | .cachedState .. | .search .. | .readAssignedCount _ | .findAvailable ..
  | .assign .. | .release .. => true
  | _ => false

/-- The thread has handed in its eden and has not yet left the transaction. -/
def Pc.over : Pc → Bool
  | .publish _ .setState => false
  | .publish _ _ => true
  | _ => false

/-- The part of an eden that decides who may touch it. -/
structure Core where
  state : State
  transID : Int
  serving : Option Int
  published : Bool

def coreOf (eden : Eden) : Core := ⟨eden.state, eden.transID, eden.serving, eden.published⟩

def coresOf (mem : Memory) : Nat → Core := fun j => coreOf (mem.edens j)

/-- What a thread that resets an eden has done so far. -/
structure ReclaimStage (core : Core) (point : ReclaimPoint) : Prop where
  idle : core.serving = none
  due : (∃ seen, point = .decreaseCollectable seen) ∨ point = .setState → core.state = .collectable
  named : point = .resetTransID → core.state = .available
  done : (∀ seen, point ≠ .decreaseCollectable seen) → point ≠ .setState → point ≠ .resetTransID →
    core.state = .available ∧ core.transID = -1

/-- What the place of a thread says about the edens. -/
def Stage (cores : Nat → Core) (thread : Mutator) : Prop :=
  match thread.pc with
  | .reclaimTrained j => (cores j).serving = none ∧ (cores j).state = .collectable
  | .reclaim j point => ReclaimStage (cores j) point
  | .assign j .setState _ => (cores j).state = .available
  | .assign j .setTransID _ => (cores j).serving = some thread.transID ∧ (cores j).transID = -1
  | .checkOwner _ => thread.monitored = true ∧ thread.transID ≠ -1
  | .publish j .setState =>
    thread.monitored = true ∧ thread.transID ≠ -1 ∧ (cores j).serving = some thread.transID ∧
      (cores j).transID = thread.transID
  | _ => True

/-! ## The invariant -/

structure Inv (threads : Nat → Option Mutator) (cores : Nat → Core) (lock : Option Nat)
    (newTransID : Int) : Prop where
  counter : -1 ≤ newTransID
  known : ∀ {i a}, threads i = some a → a.transID ≤ newTransID
  knownEden : ∀ j, (cores j).transID ≤ newTransID
  locked : ∀ {i a}, threads i = some a → Pc.locked a.pc = true → lock = some i
  owner : ∀ {i k a b}, threads i = some a → threads k = some b → a.monitored = true →
    b.monitored = true → a.transID ≠ -1 → a.transID = b.transID → i = k
  stage : ∀ {i a}, threads i = some a → Stage cores a
  alone : ∀ {i k a b j}, threads i = some a → threads k = some b → Pc.window a.pc = some j →
    Pc.window b.pc = some j → i = k
  apart : ∀ {i k a b j}, threads i = some a → threads k = some b → Pc.window a.pc = some j →
    Pc.claiming b.pc ≠ some j
  held : ∀ {j tid}, (cores j).serving = some tid → (cores j).state = .assigned
  free : ∀ {j}, (cores j).state = .available → (cores j).transID ≠ -1 →
    ∃ i a, threads i = some a ∧ Pc.window a.pc = some j
  published : ∀ {j}, (cores j).state = .collectable → (cores j).published = true
  named : ∀ {i a j}, threads i = some a → a.monitored = true → a.transID ≠ -1 →
    Pc.over a.pc = false → (cores j).transID = a.transID → (cores j).serving = some a.transID

def Holds (vm : VM) : Prop := Inv vm.threads (coresOf vm.mem) vm.lock vm.newTransID

theorem initial_holds (config : Config) : Holds (VM.initialOf config) where
  counter := Int.le_refl (-1)
  known := fun entry => nomatch entry
  knownEden := fun _ => Int.le_refl (-1)
  locked := fun entry => nomatch entry
  owner := fun entry => nomatch entry
  stage := fun entry => nomatch entry
  alone := fun entry => nomatch entry
  apart := fun entry => nomatch entry
  held := fun serving => nomatch serving
  free := fun _ named => absurd rfl named
  published := fun ended => nomatch ended
  named := fun entry => nomatch entry

variable {threads : Nat → Option Mutator} {cores : Nat → Core} {lock after : Option Nat}
  {newTransID : Int} {id : Nat} {a b : Mutator}

theorem update_eq_some {k : Nat} {c : Mutator} {next : Option Mutator}
    (entry : update threads id next k = some c) :
    (k = id ∧ next = some c) ∨ (k ≠ id ∧ threads k = some c) := by
  by_cases same : k = id
  · subst same
    rw [update_self] at entry
    exact .inl ⟨rfl, entry⟩
  · rw [update_of_ne same] at entry
    exact .inr ⟨same, entry⟩

section

variable (inv : Inv threads cores lock newTransID)
include inv

theorem Inv.window_stage {j : Nat} (entry : threads id = some a)
    (inside : Pc.window a.pc = some j) :
    (cores j).serving = none ∧ (cores j).state ≠ .assigned := by
  have stage := inv.stage entry
  unfold Stage at stage
  cases pc : a.pc with
  | reclaimTrained i =>
    rw [pc] at inside stage
    cases inside
    exact ⟨stage.1, by rw [stage.2]; decide⟩
  | reclaim i point =>
    rw [pc] at inside stage
    cases inside
    refine ⟨stage.idle, ?_⟩
    by_cases first : (∃ seen, point = .decreaseCollectable seen) ∨ point = .setState
    · rw [stage.due first]
      decide
    · by_cases second : point = .resetTransID
      · rw [stage.named second]
        decide
      · rw [not_or, not_exists] at first
        rw [(stage.done first.1 first.2 second).1]
        decide
  | _ => rw [pc] at inside; cases inside

/-- A step of one thread that leaves the cores of all edens alone. -/
structure Moves (threads : Nat → Option Mutator) (cores : Nat → Core) (id : Nat) (a b : Mutator) :
    Prop where
  monitored : b.monitored = a.monitored
  transID : b.transID = a.transID ∨ b.transID = -1
  stage : Stage cores b
  enters : ∀ j, Pc.window b.pc = some j → Pc.window a.pc = some j ∨
    ∀ k c, threads k = some c → k ≠ id → Pc.window c.pc ≠ some j ∧ Pc.claiming c.pc ≠ some j
  leaves : ∀ j, Pc.window a.pc = some j → Pc.window b.pc = some j ∨
    (cores j).state ≠ .available ∨ (cores j).transID = -1
  claims : ∀ j, Pc.claiming b.pc = some j →
    ∀ k c, threads k = some c → k ≠ id → Pc.window c.pc ≠ some j
  past : Pc.over a.pc = true → Pc.over b.pc = true ∨ b.transID = -1

/-- The lock is handled as a lock. -/
structure Handles (threads : Nat → Option Mutator) (id : Nat) (b : Mutator) (after : Option Nat) :
    Prop where
  mine : Pc.locked b.pc = true → after = some id
  others : ∀ k c, threads k = some c → k ≠ id → Pc.locked c.pc = true → after = some k

omit inv in
theorem window_claiming (pc : Pc) {i j : Nat} (inside : Pc.window pc = some i) :
    Pc.claiming pc ≠ some j := by
  cases pc <;> simp_all [Pc.window, Pc.claiming]

theorem Inv.move (entry : threads id = some a) (moves : Moves threads cores id a b)
    (handles : Handles threads id b after) :
    Inv (update threads id (some b)) cores after newTransID where
  counter := inv.counter
  knownEden := inv.knownEden
  held := inv.held
  published := inv.published
  known := by
    intro k c here
    rcases update_eq_some here with ⟨-, same⟩ | ⟨-, here⟩
    · cases same
      rcases moves.transID with same | outside
      · exact same ▸ inv.known entry
      · exact outside ▸ inv.counter
    · exact inv.known here
  locked := by
    intro k c here inside
    rcases update_eq_some here with ⟨rfl, same⟩ | ⟨other, here⟩
    · cases same
      exact handles.mine inside
    · exact handles.others k c here other inside
  owner := by
    -- A monitored thread with a valid ID had this ID before.
    have before : ∀ {k c}, update threads id (some b) k = some c → c.monitored = true →
        c.transID ≠ -1 → ∃ old, threads k = some old ∧ old.monitored = true ∧
          old.transID = c.transID := by
      intro k c here monitored valid
      rcases update_eq_some here with ⟨rfl, same⟩ | ⟨-, here⟩
      · cases same
        exact ⟨a, entry, moves.monitored ▸ monitored, (moves.transID.resolve_right valid).symm⟩
      · exact ⟨c, here, monitored, rfl⟩
    intro i k c d first second monitored monitored' valid same
    obtain ⟨old, here, owns, eq⟩ := before first monitored valid
    obtain ⟨old', here', owns', eq'⟩ := before second monitored' (same ▸ valid)
    exact inv.owner here here' owns owns' (eq ▸ valid) (eq.trans (same.trans eq'.symm))
  stage := by
    intro k c here
    rcases update_eq_some here with ⟨-, same⟩ | ⟨-, here⟩
    · cases same
      exact moves.stage
    · exact inv.stage here
  alone := by
    intro i k c d j first second inside inside'
    rcases update_eq_some first with ⟨rfl, same⟩ | ⟨other, here⟩ <;>
      rcases update_eq_some second with ⟨rfl, same'⟩ | ⟨other', here'⟩
    · rfl
    · cases same
      rcases moves.enters j inside with before | fresh
      · exact inv.alone entry here' before inside'
      · exact absurd inside' (fresh k d here' other').1
    · cases same'
      rcases moves.enters j inside' with before | fresh
      · exact inv.alone here entry inside before
      · exact absurd inside (fresh i c here other).1
    · exact inv.alone here here' inside inside'
  apart := by
    intro i k c d j first second inside claimed
    rcases update_eq_some first with ⟨rfl, same⟩ | ⟨other, here⟩ <;>
      rcases update_eq_some second with ⟨rfl, same'⟩ | ⟨other', here'⟩
    · cases same
      cases same'
      exact window_claiming _ inside claimed
    · cases same
      rcases moves.enters j inside with before | fresh
      · exact inv.apart entry here' before claimed
      · exact (fresh k d here' other').2 claimed
    · cases same'
      exact moves.claims j claimed i c here other inside
    · exact inv.apart here here' inside claimed
  free := by
    intro j free named
    obtain ⟨i, c, here, inside⟩ := inv.free free named
    by_cases same : i = id
    · subst same
      rw [entry] at here
      cases here
      rcases moves.leaves j inside with stays | closed | unnamed
      · exact ⟨i, b, update_self .., stays⟩
      · exact absurd free closed
      · exact absurd unnamed named
    · exact ⟨i, c, by rw [update_of_ne same]; exact here, inside⟩
  named := by
    intro k c j here monitored valid running same
    rcases update_eq_some here with ⟨rfl, eq⟩ | ⟨-, here⟩
    · cases eq
      have kept := moves.transID.resolve_right valid
      have before : Pc.over a.pc = false := by
        by_contra past
        rcases moves.past (by simpa using past) with past' | outside
        · rw [running] at past'
          cases past'
        · exact valid outside
      rw [kept] at same valid ⊢
      exact inv.named entry (moves.monitored ▸ monitored) valid before same
    · exact inv.named here monitored valid running same

/-! ## Writes to the core of an eden -/

/-- The eden whose core a thread relies on. -/
def Pc.touches : Pc → Option Nat
  | .reclaimTrained j | .reclaim j _ | .assign j .setState _ | .assign j .setTransID _
  | .publish j .setState => some j
  | _ => none

omit inv in
theorem Stage.frame {j : Nat} {core : Core} (stage : Stage cores a)
    (elsewhere : Pc.touches a.pc ≠ some j) : Stage (update cores j core) a := by
  have kept : ∀ i, Pc.touches a.pc = some i → update cores j core i = cores i := by
    intro i here
    apply update_of_ne
    rintro rfl
    exact elsewhere here
  unfold Stage at stage ⊢
  split at stage <;> rename_i pc <;>
    first | exact stage | (rw [kept _ (by rw [pc]; rfl)]; exact stage)

/-- What a thread that relies on the core of eden `j` knows about it. -/
inductive Relies (cores : Nat → Core) (a : Mutator) (j : Nat) : Prop
  | reclaims (inside : Pc.window a.pc = some j) (idle : (cores j).serving = none)
  | claims (claiming : Pc.claiming a.pc = some j) (locked : Pc.locked a.pc = true)
      (open_ : (cores j).state = .available)
  | names (locked : Pc.locked a.pc = true) (serves : (cores j).serving = some a.transID)
      (unnamed : (cores j).transID = -1)
  | publishes (monitored : a.monitored = true) (valid : a.transID ≠ -1)
      (serves : (cores j).serving = some a.transID) (owns : (cores j).transID = a.transID)

theorem Inv.relies {j : Nat} (entry : threads id = some a) (here : Pc.touches a.pc = some j) :
    Relies cores a j := by
  have stage := inv.stage entry
  have inside := @Inv.window_stage _ _ _ _ id a inv j entry
  unfold Stage at stage
  unfold Pc.touches at here
  split at here <;> rename_i pc <;> cases here <;> rw [pc] at stage inside
  · exact .reclaims (by rw [pc]; rfl) (inside rfl).1
  · exact .reclaims (by rw [pc]; rfl) (inside rfl).1
  · exact .claims (by rw [pc]; rfl) (by rw [pc]; rfl) stage
  · exact .names (by rw [pc]; rfl) stage.1 stage.2
  · exact .publishes stage.1 stage.2.1 stage.2.2.1 stage.2.2.2

/-- At most one thread relies on the core of an eden. -/
theorem Inv.exclusive {i k j : Nat} (first : threads i = some a) (second : threads k = some b)
    (here : Pc.touches a.pc = some j) (there : Pc.touches b.pc = some j) : i = k := by
  have lockers : Pc.locked a.pc = true → Pc.locked b.pc = true → i = k := fun locked locked' =>
    Option.some.inj ((inv.locked first locked).symm.trans (inv.locked second locked'))
  have unserved : ∀ {tid}, (cores j).serving = some tid → (cores j).state ≠ .available := by
    intro tid serves closed
    rw [inv.held serves] at closed
    cases closed
  cases inv.relies first here with
  | reclaims inside idle =>
    cases inv.relies second there with
    | reclaims inside' idle' => exact inv.alone first second inside inside'
    | claims claiming locked free => exact absurd claiming (inv.apart first second inside)
    | names locked serves | publishes monitored valid serves =>
      rw [idle] at serves
      cases serves
  | claims claiming locked free =>
    cases inv.relies second there with
    | reclaims inside' idle' => exact absurd claiming (inv.apart second first inside')
    | claims claiming' locked' free' => exact lockers locked locked'
    | names locked' serves unnamed => exact lockers locked locked'
    | publishes monitored valid serves owns => exact absurd free (unserved serves)
  | names locked serves unnamed =>
    cases inv.relies second there with
    | reclaims inside' idle' =>
      rw [idle'] at serves
      cases serves
    | claims claiming' locked' free' => exact lockers locked locked'
    | names locked' serves' unnamed' => exact lockers locked locked'
    | publishes monitored valid serves' owns => exact absurd (owns.symm.trans unnamed) valid
  | publishes monitored valid serves owns =>
    cases inv.relies second there with
    | reclaims inside' idle' =>
      rw [idle'] at serves
      cases serves
    | claims claiming' locked' free' => exact absurd free' (unserved serves)
    | names locked' serves' unnamed => exact absurd (owns.symm.trans unnamed) valid
    | publishes monitored' valid' serves' owns' =>
      exact inv.owner first second monitored monitored' valid (owns.symm.trans owns')

/-- A write to the core of eden `j` by the thread that relies on it. -/
structure Writes (threads : Nat → Option Mutator) (cores : Nat → Core) (newTransID : Int)
    (id : Nat) (a b : Mutator) (j : Nat) (core : Core) : Prop where
  touches : Pc.touches a.pc = some j
  same : b.monitored = a.monitored ∧ b.transID = a.transID
  stage : Stage (update cores j core) b
  window : Pc.window b.pc = Pc.window a.pc
  claims : Pc.claiming b.pc = none
  locked : Pc.locked b.pc = Pc.locked a.pc
  past : Pc.over a.pc = true → Pc.over b.pc = true
  known : core.transID ≤ newTransID
  held : ∀ tid, core.serving = some tid → core.state = .assigned
  free : core.state = .available → core.transID ≠ -1 → Pc.window a.pc = some j
  published : core.state = .collectable → core.published = true
  named : ∀ k c, threads k = some c → c.monitored = true → c.transID ≠ -1 →
    (k = id → Pc.over b.pc = false) → (k ≠ id → Pc.over c.pc = false) →
    core.transID = c.transID → core.serving = some c.transID

theorem Inv.write (entry : threads id = some a) {j : Nat} {core : Core}
    (writes : Writes threads cores newTransID id a b j core) :
    Inv (update threads id (some b)) (update cores j core) lock newTransID := by
  have eden : ∀ {P : Nat → Core → Prop}, P j core → (∀ i, i ≠ j → P i (cores i)) →
      ∀ i, P i (update cores j core i) := by
    intro P here there i
    by_cases same : i = j
    · subst same
      rw [update_self]
      exact here
    · rw [update_of_ne same]
      exact there i same
  -- Every thread stands for one with the same ID in the same windows before the step.
  have before : ∀ {k c}, update threads id (some b) k = some c →
      ∃ old, threads k = some old ∧ old.monitored = c.monitored ∧ old.transID = c.transID ∧
        Pc.window old.pc = Pc.window c.pc ∧ Pc.locked old.pc = Pc.locked c.pc ∧
        (Pc.claiming c.pc = Pc.claiming old.pc ∨ Pc.claiming c.pc = none) := by
    intro k c here
    rcases update_eq_some here with ⟨rfl, same⟩ | ⟨-, here⟩
    · cases same
      exact ⟨a, entry, writes.same.1.symm, writes.same.2.symm, writes.window.symm,
        writes.locked.symm, .inr writes.claims⟩
    · exact ⟨c, here, rfl, rfl, rfl, rfl, .inl rfl⟩
  refine ⟨inv.counter, ?_, ?_, ?_, ?_, ?_, ?_, ?_, ?_, ?_, ?_, ?_⟩
  · intro k c here
    obtain ⟨old, entry', -, tid, -⟩ := before here
    exact tid ▸ inv.known entry'
  · exact eden (P := fun _ core => core.transID ≤ newTransID) writes.known fun i _ => inv.knownEden i
  · intro k c here inside
    obtain ⟨old, entry', -, -, -, locked, -⟩ := before here
    exact inv.locked entry' (locked.trans inside)
  · intro i k c d first second monitored monitored' valid same
    obtain ⟨old, entry', owns, tid, -⟩ := before first
    obtain ⟨old', entry'', owns', tid', -⟩ := before second
    exact inv.owner entry' entry'' (owns.trans monitored) (owns'.trans monitored') (tid ▸ valid)
      (tid.trans (same.trans tid'.symm))
  · intro k c here
    rcases update_eq_some here with ⟨rfl, same⟩ | ⟨other, here⟩
    · cases same
      exact writes.stage
    · refine (inv.stage here).frame fun there => ?_
      exact other (inv.exclusive here entry there writes.touches)
  · intro i k c d j first second inside inside'
    obtain ⟨old, entry', -, -, window, -⟩ := before first
    obtain ⟨old', entry'', -, -, window', -⟩ := before second
    exact inv.alone entry' entry'' (window.trans inside) (window'.trans inside')
  · intro i k c d j first second inside claimed
    obtain ⟨old, entry', -, -, window, -⟩ := before first
    obtain ⟨old', entry'', -, -, -, -, claiming | claiming⟩ := before second
    · exact inv.apart entry' entry'' (window.trans inside) (claiming.symm.trans claimed)
    · rw [claiming] at claimed
      cases claimed
  · intro i tid
    exact eden (P := fun _ core => core.serving = some tid → core.state = .assigned)
      (writes.held tid) (fun i _ => inv.held) i
  · intro i free named
    obtain ⟨k, c, here, inside⟩ : ∃ k c, threads k = some c ∧ Pc.window c.pc = some i := by
      revert free named
      exact eden (P := fun i core => core.state = .available → core.transID ≠ -1 →
          ∃ k c, threads k = some c ∧ Pc.window c.pc = some i)
        (fun free named => ⟨id, a, entry, writes.free free named⟩) (fun i _ => inv.free) i
    by_cases same : k = id
    · subst same
      rw [entry] at here
      cases here
      exact ⟨k, b, update_self .., writes.window.trans inside⟩
    · exact ⟨k, c, by rw [update_of_ne same]; exact here, inside⟩
  · intro i
    exact eden (P := fun _ core => core.state = .collectable → core.published = true)
      writes.published (fun i _ => inv.published) i
  · intro k c i here monitored valid running
    refine eden (P := fun _ core => core.transID = c.transID → core.serving = some c.transID)
      ?_ ?_ i
    · rcases update_eq_some here with ⟨rfl, same⟩ | ⟨other, here⟩
      · cases same
        rw [writes.same.2] at valid ⊢
        exact writes.named k a entry (writes.same.1 ▸ monitored) valid (fun _ => running)
          fun other => absurd rfl other
      · exact writes.named k c here monitored valid (fun same => absurd same other) fun _ => running
    · intro i _ owns
      rcases update_eq_some here with ⟨rfl, same⟩ | ⟨other, here⟩
      · cases same
        rw [writes.same.2] at valid owns ⊢
        refine inv.named entry (writes.same.1 ▸ monitored) valid ?_ owns
        by_contra past
        rw [writes.past (by simpa using past)] at running
        cases running
      · exact inv.named here monitored valid running owns

omit inv in
/-- A thread in a window does not run Java code, and so is not the one that is replaced. -/
theorem update_window {next : Option Mutator} {i j : Nat}
    (gone : ∀ a, threads id = some a → a.pc = .idle) (here : threads i = some a)
    (inside : Pc.window a.pc = some j) : update threads id next i = some a := by
  rw [update_of_ne]
  · exact here
  · rintro rfl
    rw [gone a here] at inside
    cases inside

/-- A thread that runs Java code appears or begins a transaction. -/
theorem Inv.renew {drawn : Int} (gone : ∀ a, threads id = some a → a.pc = .idle)
    (runs : b.pc = .idle) (grows : newTransID ≤ drawn) (known : b.transID ≤ drawn)
    (fresh : b.monitored = true → b.transID = -1 ∨ newTransID < b.transID) :
    Inv (update threads id (some b)) cores lock drawn where
  counter := Int.le_trans inv.counter grows
  knownEden := fun j => Int.le_trans (inv.knownEden j) grows
  held := inv.held
  published := inv.published
  known := by
    intro k c here
    rcases update_eq_some here with ⟨-, same⟩ | ⟨-, here⟩
    · cases same
      exact known
    · exact Int.le_trans (inv.known here) grows
  locked := by
    intro k c here inside
    rcases update_eq_some here with ⟨rfl, same⟩ | ⟨-, here⟩
    · cases same
      rw [runs] at inside
      cases inside
    · exact inv.locked here inside
  owner := by
    intro i k c d first second monitored monitored' valid same
    have other : ∀ {k c}, threads k = some c → b.monitored = true → b.transID ≠ -1 →
        c.transID ≠ b.transID := by
      intro k c here owns inside
      have bound := inv.known here
      have above := (fresh owns).resolve_left inside
      omega
    rcases update_eq_some first with ⟨rfl, eq⟩ | ⟨-, here⟩ <;>
      rcases update_eq_some second with ⟨rfl, eq'⟩ | ⟨-, here'⟩
    · rfl
    · cases eq
      exact absurd same.symm (other here' monitored valid)
    · cases eq'
      exact absurd same (other here monitored' (same ▸ valid))
    · exact inv.owner here here' monitored monitored' valid same
  stage := by
    intro k c here
    rcases update_eq_some here with ⟨-, same⟩ | ⟨-, here⟩
    · cases same
      unfold Stage
      rw [runs]
      trivial
    · exact inv.stage here
  alone := by
    intro i k c d j first second inside inside'
    rcases update_eq_some first with ⟨rfl, eq⟩ | ⟨-, here⟩
    · cases eq
      rw [runs] at inside
      cases inside
    · rcases update_eq_some second with ⟨rfl, eq'⟩ | ⟨-, here'⟩
      · cases eq'
        rw [runs] at inside'
        cases inside'
      · exact inv.alone here here' inside inside'
  apart := by
    intro i k c d j first second inside claimed
    rcases update_eq_some first with ⟨rfl, eq⟩ | ⟨-, here⟩
    · cases eq
      rw [runs] at inside
      cases inside
    · rcases update_eq_some second with ⟨rfl, eq'⟩ | ⟨-, here'⟩
      · cases eq'
        rw [runs] at claimed
        cases claimed
      · exact inv.apart here here' inside claimed
  free := by
    intro j free named
    obtain ⟨i, c, here, inside⟩ := inv.free free named
    exact ⟨i, c, update_window gone here inside, inside⟩
  named := by
    intro k c j here monitored valid running same
    rcases update_eq_some here with ⟨rfl, eq⟩ | ⟨-, here⟩
    · cases eq
      have bound := inv.knownEden j
      have above := (fresh monitored).resolve_left valid
      omega
    · exact inv.named here monitored valid running same

theorem Inv.leave (gone : ∀ a, threads id = some a → a.pc = .idle) :
    Inv (update threads id none) cores lock newTransID := by
  have before : ∀ {k c}, update threads id none k = some c → threads k = some c := by
    intro k c here
    rcases update_eq_some here with ⟨-, removed⟩ | ⟨-, here⟩
    · cases removed
    · exact here
  refine ⟨inv.counter, fun here => inv.known (before here), inv.knownEden,
    fun here => inv.locked (before here), fun first second => inv.owner (before first) (before second),
    fun here => inv.stage (before here), fun first second => inv.alone (before first) (before second),
    fun first second => inv.apart (before first) (before second), inv.held, ?_, inv.published,
    fun here => inv.named (before here)⟩
  intro j free named
  obtain ⟨i, c, here, inside⟩ := inv.free free named
  exact ⟨i, c, update_window gone here inside, inside⟩

end

/-! ## One access -/

/-- The places at which a thread relies on nothing. -/
def Pc.plain : Pc → Bool
  | .reclaimTrained _ | .reclaim .. | .assign _ .setState _ | .assign _ .setTransID _
  | .checkOwner _ | .publish .. => false
  | _ => true

theorem plain_spec {pc : Pc} (plain : Pc.plain pc = true) :
    Pc.window pc = none ∧ Pc.claiming pc = none ∧ Pc.over pc = false := by
  refine ⟨?_, ?_, ?_⟩
  · unfold Pc.window
    split <;> simp_all [Pc.plain]
  · unfold Pc.claiming
    split <;> simp_all [Pc.plain]
  · unfold Pc.over
    split <;> simp_all [Pc.plain]

theorem plain_stage (plain : Pc.plain b.pc = true) : Stage cores b := by
  unfold Stage
  split <;> rename_i pc <;> first | trivial | (rw [pc] at plain; cases plain)

theorem Moves.toPlain (plain : Pc.plain b.pc = true) (monitored : b.monitored = a.monitored)
    (transID : b.transID = a.transID ∨ b.transID = -1)
    (leaves : ∀ j, Pc.window a.pc = some j → (cores j).state ≠ .available ∨ (cores j).transID = -1)
    (past : Pc.over a.pc = true → b.transID = -1) : Moves threads cores id a b where
  monitored := monitored
  transID := transID
  stage := plain_stage plain
  enters := fun j inside => by
    rw [(plain_spec plain).1] at inside
    cases inside
  leaves := fun j inside => .inr (leaves j inside)
  claims := fun j claimed => by
    rw [(plain_spec plain).2.1] at claimed
    cases claimed
  past := fun here => .inr (past here)

theorem Moves.plain (here : Pc.plain a.pc = true) (there : Pc.plain b.pc = true)
    (monitored : b.monitored = a.monitored) (transID : b.transID = a.transID ∨ b.transID = -1) :
    Moves threads cores id a b := by
  apply Moves.toPlain there monitored transID
  · intro j inside
    rw [(plain_spec here).1] at inside
    cases inside
  · intro past
    rw [(plain_spec here).2.2] at past
    cases past

theorem Inv.handles (inv : Inv threads cores lock newTransID) (entry : threads id = some a)
    (keeps : Pc.locked b.pc = true → Pc.locked a.pc = true) : Handles threads id b lock where
  mine := fun locked => inv.locked entry (keeps locked)
  others := fun _ _ here _ locked => inv.locked here locked

theorem cores_setEden (mem : Memory) (j : Nat) (eden : Eden) :
    coresOf (mem.setEden j eden) = update (coresOf mem) j (coreOf eden) := by
  funext i
  by_cases same : i = j
  · subst same
    simp [coresOf, Memory.setEden]
  · simp [coresOf, Memory.setEden, update_of_ne same]

theorem cores_setEden_same {mem : Memory} {j : Nat} {eden : Eden}
    (same : coreOf eden = coreOf (mem.edens j)) :
    coresOf (mem.setEden j eden) = coresOf mem := by
  rw [cores_setEden, same]
  exact update_eq_self ..

theorem changeSharedIntByOne_edens (mem : Memory) (counter : Counter) (delta : Int)
    (seen : Option Int) : (mem.changeSharedIntByOne counter delta seen).1.edens = mem.edens := by
  unfold Memory.changeSharedIntByOne
  split
  · rfl
  · split <;> rfl

theorem cores_of_edens {mem mem' : Memory} (same : mem'.edens = mem.edens) :
    coresOf mem' = coresOf mem := by
  unfold coresOf
  rw [same]

variable {vm : VM} {j : Nat}

theorem Moves.reclaiming {point next : ReclaimPoint} (pc : a.pc = .reclaim j point)
    (stage : ReclaimStage (cores j) next) :
    Moves threads cores id a (a.goto (.reclaim j next)) where
  monitored := rfl
  transID := .inl rfl
  stage := stage
  enters := fun i inside => .inl (by rw [pc]; exact inside)
  leaves := fun i inside => .inl (by rw [pc] at inside; exact inside)
  claims := fun i claimed => nomatch claimed
  past := fun past => by
    rw [pc] at past
    cases past

theorem ReclaimStage.collectable {core : Core} {point next : ReclaimPoint}
    (stage : ReclaimStage core point)
    (here : (∃ seen, point = .decreaseCollectable seen) ∨ point = .setState)
    (there : (∃ seen, next = .decreaseCollectable seen) ∨ next = .setState) :
    ReclaimStage core next where
  idle := stage.idle
  due := fun _ => stage.due here
  named := by
    rintro rfl
    simp at there
  done := by
    rintro first second -
    rcases there with ⟨seen, there⟩ | there
    · exact absurd there (first seen)
    · exact absurd there second

/-- The points after the three writes to the core. -/
def Settled (point : ReclaimPoint) : Prop :=
  (∀ seen, point ≠ .decreaseCollectable seen) ∧ point ≠ .setState ∧ point ≠ .resetTransID

theorem ReclaimStage.settled {core : Core} {point next : ReclaimPoint}
    (stage : ReclaimStage core point) (here : Settled point) (there : Settled next) :
    ReclaimStage core next where
  idle := stage.idle
  due := by
    rintro (⟨seen, rfl⟩ | rfl)
    · exact absurd rfl (there.1 seen)
    · exact absurd rfl there.2.1
  named := fun now => absurd now there.2.2
  done := fun _ _ _ => stage.done here.1 here.2.1 here.2.2

theorem Holds.reclaimStage (inv : Holds vm) (entry : vm.threads id = some a) {point : ReclaimPoint}
    (pc : a.pc = .reclaim j point) : ReclaimStage (coresOf vm.mem j) point := by
  have stage := inv.stage entry
  unfold Stage at stage
  rw [pc] at stage
  exact stage

/-- A step between places at which a thread relies on nothing. -/
theorem Holds.plain (inv : Holds vm) (entry : vm.threads id = some a) {mem : Memory}
    (here : Pc.plain a.pc = true)
    (there : Pc.plain b.pc = true ∧ b.monitored = a.monitored ∧
      (b.transID = a.transID ∨ b.transID = -1) ∧ (Pc.locked b.pc = true → Pc.locked a.pc = true))
    (same : coresOf mem = coresOf vm.mem) :
    Inv (update vm.threads id (some b)) (coresOf mem) vm.lock vm.newTransID := by
  rw [same]
  obtain ⟨plain, monitored, tid, locked⟩ := there
  exact inv.move entry (.plain here plain monitored tid) (inv.handles entry locked)

end ReclaimInvariant
