import Mathlib.Algebra.Order.Ring.Int
import Mathlib.Logic.Function.Basic
import TransGC.CompactSpaces
import TransGC.NextFit

/-!
# What the forwarding pass decides

The forwarding pass reads a space as a sequence of live objects and of runs of dead ones, and
places each live object, and each dead run it lets stay, at the next fitting address. The plan
states that decision without memory; the pass fails exactly when the plan fails, and otherwise
leaves the plan in the mark words and changes nothing else that the second pass reads.
-/
namespace ForwardPlan
open CompactSpaces MarkWord OrderedMoves List Option

/-- A live object, or all dead objects between two live ones. -/
structure Run where
  live : Bool
  size : Nat
  deriving DecidableEq, Repr

def runAt (heap : Heap) (mem : Nat → Nat) (t q : Nat) : Run :=
  if isMarked (mem q) then ⟨true, heap.sizeAt mem q⟩
  else ⟨false, endOfDead heap mem t (t - q) q - q⟩

def runs (heap : Heap) (mem : Nat → Nat) (t : Nat) : Nat → Nat → List Run
  | 0, _ => []
  | fuel + 1, q =>
    if q < t then runAt heap mem t q :: runs heap mem t fuel (q + (runAt heap mem t q).size) else []

def spaceRuns (heap : Heap) (store : Store) (this : SpaceRef) : List Run :=
  runs heap store.mem (store.top this) (store.top this - heap.bottom this) (heap.bottom this)

/-- What becomes of a run: it is placed, or its words become free. -/
inductive Item
  | placed (size target : Nat)
  | gap (size : Nat)
  deriving DecidableEq, Repr

namespace Item

def size : Item → Nat
  | placed size _ => size
  | gap size => size

/-- The end of the last placed item, if `acc` is that of the items before this one. -/
def endOfLive (q acc : Nat) : Item → Nat
  | placed size _ => q + size
  | gap _ => acc

/-- The start of the first gap, or `acc` if that comes first. -/
def firstDead (q acc : Nat) : Item → Nat
  | placed _ _ => acc
  | gap _ => if q < acc then q else acc

/-- The start of the last gap, with `acc` the one among the items before. -/
def liveRange (q : Nat) (acc : Option Nat) : Item → Option Nat
  | placed _ _ => acc
  | gap _ => some q

end Item

abbrev Cursor := NextFit.Cursor SpaceRef

abbrev place (heap : Heap) (c : Cursor) (size : Nat) : Option (Nat × Cursor) :=
  NextFit.place heap.bottom heap.limit c size

/-- One run at `q`: the item, what is left of the allowed dead space, and the cursor. -/
def planRun (heap : Heap) (run : Run) (q allowed : Nat) (c : Cursor) :
    Option (Item × Nat × Cursor) :=
  if run.live then
    (place heap c run.size).map fun (target, c) => (.placed run.size target, allowed, c)
  else if allowed > 0 ∧ q = c.top then
    if allowed ≥ run.size then
      (place heap c run.size).map fun (target, c) =>
        (.placed run.size target, allowed - run.size, c)
    else some (.gap run.size, 0, c)
  else some (.gap run.size, allowed, c)

def plan (heap : Heap) : List Run → Nat → Nat → Cursor → Option (List Item × Cursor)
  | [], _, _, c => some ([], c)
  | run :: rest, q, allowed, c =>
    (planRun heap run q allowed c).bind fun (item, allowed, c) =>
      (plan heap rest (q + run.size) allowed c).map fun (items, c) => (item :: items, c)

def span (items : List Item) : Nat := (items.map Item.size).sum

@[simp] theorem span_nil : span [] = 0 := rfl

@[simp] theorem span_cons (item : Item) (items : List Item) :
    span (item :: items) = item.size + span items := by
  simp [span]

def endOfLive : List Item → Nat → Nat → Nat
  | [], _, acc => acc
  | item :: items, q, acc => endOfLive items (q + item.size) (item.endOfLive q acc)

def firstDead : List Item → Nat → Nat → Nat
  | [], _, acc => acc
  | item :: items, q, acc => firstDead items (q + item.size) (item.firstDead q acc)

/-- The address and the size of every live object. -/
def liveAt : Nat → List Run → List (Nat × Nat)
  | _, [] => []
  | q, run :: rest =>
    if run.live then (q, run.size) :: liveAt (q + run.size) rest else liveAt (q + run.size) rest

/-- A scan resets its own space, which moves the cursor if it stands there. -/
def enter (heap : Heap) (this : SpaceRef) (c : Cursor) : Cursor :=
  if c.bin = this then { c with top := heap.bottom this } else c

def planSpaces (heap : Heap) (store : Store) :
    List SpaceRef → Cursor → Option (List (SpaceRef × List Item) × Cursor)
  | [], c => some ([], c)
  | this :: spaces, c =>
    (plan heap (spaceRuns heap store this) (heap.bottom this) (heap.allowedDeadspace this)
      (enter heap this c)).bind fun (items, c) =>
        (planSpaces heap store spaces c).map fun (plans, c) => ((this, items) :: plans, c)

/-- The spaces that a compact point in `space` can still switch to. -/
def later (heap : Heap) (space : SpaceRef) : List SpaceRef :=
  match space.gen with
  | .tenured => heap.chain .defNew
  | .transNew => (heap.chain .transNew).drop (space.index + 1) ++ heap.chain .defNew
  | .defNew => (heap.chain .defNew).drop (space.index + 1)

def cursorAt (heap : Heap) (space : SpaceRef) (top : Nat) : Cursor :=
  ⟨space, top, later heap space⟩

def Valid (heap : Heap) (space : SpaceRef) : Prop := space.index < heap.count space.gen

theorem le_of_mem_liveAt {object : Nat × Nat} {q : Nat} {rest : List Run}
    (among : object ∈ liveAt q rest) : q ≤ object.1 := by
  induction rest generalizing q with
  | nil => cases among
  | cons run rest ih =>
    rw [liveAt] at among
    split at among
    · rcases mem_cons.mp among with rfl | among
      · exact le_rfl
      · exact (Nat.le_add_right q run.size).trans (ih among)
    · exact (Nat.le_add_right q run.size).trans (ih among)

section PlanRun

variable {heap : Heap} {size q allowed : Nat} {c : Cursor}

theorem planRun_live : planRun heap ⟨true, size⟩ q allowed c =
    (place heap c size).map fun (target, c) => (.placed size target, allowed, c) := rfl

theorem planRun_of_place {target : Nat} {c' : Cursor}
    (placed : place heap c size = some (target, c')) :
    planRun heap ⟨true, size⟩ q allowed c = some (.placed size target, allowed, c') := by
  rw [planRun_live, placed]
  rfl

theorem planRun_kept (may : allowed > 0 ∧ q = c.top) (short : allowed ≥ size) :
    planRun heap ⟨false, size⟩ q allowed c =
      (place heap c size).map fun (target, c) => (.placed size target, allowed - size, c) := by
  simp [planRun, may, short]

theorem planRun_long (may : allowed > 0 ∧ q = c.top) (long : ¬ allowed ≥ size) :
    planRun heap ⟨false, size⟩ q allowed c = some (.gap size, 0, c) := by
  simp [planRun, may, long]

theorem planRun_gap (free : ¬ (allowed > 0 ∧ q = c.top)) :
    planRun heap ⟨false, size⟩ q allowed c = some (.gap size, allowed, c) := by
  rw [planRun, if_neg Bool.false_ne_true, if_neg free]

theorem planRun_cases {run : Run} {item : Item} {left : Nat} {c' : Cursor}
    (planned : planRun heap run q allowed c = some (item, left, c')) :
    (∃ target, item = .placed run.size target ∧ place heap c run.size = some (target, c')) ∨
      (run.live = false ∧ item = .gap run.size ∧ c' = c) := by
  obtain ⟨live, size⟩ := run
  cases live with
  | true =>
    obtain ⟨⟨target, m⟩, found, same⟩ := map_eq_some_iff.mp planned
    cases same
    exact .inl ⟨target, rfl, found⟩
  | false =>
    by_cases may : allowed > 0 ∧ q = c.top
    · by_cases short : allowed ≥ size
      · rw [planRun_kept may short] at planned
        obtain ⟨⟨target, m⟩, found, same⟩ := map_eq_some_iff.mp planned
        cases same
        exact .inl ⟨target, rfl, found⟩
      · rw [planRun_long may short] at planned
        cases planned
        exact .inr ⟨rfl, rfl, rfl⟩
    · rw [planRun_gap may] at planned
      cases planned
      exact .inr ⟨rfl, rfl, rfl⟩

theorem plan_cons_eq_some {run : Run} {rest : List Run} {items : List Item} {c' : Cursor} :
    plan heap (run :: rest) q allowed c = some (items, c') ↔
      ∃ item left m behind, planRun heap run q allowed c = some (item, left, m) ∧
        plan heap rest (q + run.size) left m = some (behind, c') ∧ items = item :: behind := by
  rw [plan]
  constructor
  · intro planned
    obtain ⟨⟨item, left, m⟩, head, tail⟩ := bind_eq_some_iff.mp planned
    obtain ⟨⟨behind, last⟩, found, same⟩ := map_eq_some_iff.mp tail
    cases same
    exact ⟨item, left, m, behind, head, found, rfl⟩
  · rintro ⟨item, left, m, behind, head, tail, rfl⟩
    rw [head, bind_some]
    dsimp only
    rw [tail]
    rfl

end PlanRun

theorem planSpaces_cons_eq_some {heap : Heap} {store : Store} {this : SpaceRef}
    {spaces : List SpaceRef} {c c' : Cursor} {plans : List (SpaceRef × List Item)} :
    planSpaces heap store (this :: spaces) c = some (plans, c') ↔
      ∃ items m behind, plan heap (spaceRuns heap store this) (heap.bottom this)
          (heap.allowedDeadspace this) (enter heap this c) = some (items, m) ∧
        planSpaces heap store spaces m = some (behind, c') ∧ plans = (this, items) :: behind := by
  rw [planSpaces]
  constructor
  · intro planned
    obtain ⟨⟨items, m⟩, head, tail⟩ := bind_eq_some_iff.mp planned
    obtain ⟨⟨behind, last⟩, found, same⟩ := map_eq_some_iff.mp tail
    cases same
    exact ⟨items, m, behind, head, found, rfl⟩
  · rintro ⟨items, m, behind, head, tail, rfl⟩
    rw [head, bind_some]
    dsimp only
    rw [tail]
    rfl

/-! ### A result of the code and a result of the plan -/

/-- Both succeed, with related results, or the plan fails and the code misses a generation. -/
def Agrees {α β : Type} (R : α → β → Prop) : Except Fault α → Option β → Prop
  | .ok a, some b => R a b
  | .error .nullGeneration, none => True
  | _, _ => False

section Agrees

variable {α β γ δ : Type} {R : α → β → Prop} {S : γ → δ → Prop} {x : Except Fault α}
  {y : Option β}

section

variable (agrees : Agrees R x y)
include agrees

theorem Agrees.bind {f : α → Except Fault γ} {g : β → Option δ}
    (related : ∀ a b, R a b → Agrees S (f a) (g b)) : Agrees S (x.bind f) (y.bind g) := by
  match x, y, agrees with
  | .ok a, some b, agrees => exact related a b agrees
  | .error .nullGeneration, none, _ => exact trivial

theorem Agrees.mono {T : α → β → Prop} (weaker : ∀ a b, R a b → T a b) : Agrees T x y := by
  match x, y, agrees with
  | .ok a, some b, agrees => exact weaker a b agrees
  | .error .nullGeneration, none, _ => exact trivial

theorem Agrees.map_left {T : γ → β → Prop} {f : α → γ} (related : ∀ a b, R a b → T (f a) b) :
    Agrees T (x.map f) y := by
  match x, y, agrees with
  | .ok a, some b, agrees => exact related a b agrees
  | .error .nullGeneration, none, _ => exact trivial

theorem Agrees.map_right {T : α → δ → Prop} {g : β → δ} (related : ∀ a b, R a b → T a (g b)) :
    Agrees T x (y.map g) := by
  match x, y, agrees with
  | .ok a, some b, agrees => exact related a b agrees
  | .error .nullGeneration, none, _ => exact trivial

theorem Agrees.map {f : α → γ} {g : β → δ} (related : ∀ a b, R a b → S (f a) (g b)) :
    Agrees S (x.map f) (y.map g) := by
  match x, y, agrees with
  | .ok a, some b, agrees => exact related a b agrees
  | .error .nullGeneration, none, _ => exact trivial

theorem Agrees.ok_iff : (∃ a, x = .ok a) ↔ ∃ b, y = some b := by
  rcases x with (_ | _) | a <;> rcases y with _ | b <;> simp_all [Agrees]

theorem Agrees.of_none (failed : y = none) : x = .error .nullGeneration := by
  subst failed
  rcases x with (_ | _) | a
  · rfl
  · exact agrees.elim
  · exact agrees.elim

theorem Agrees.of_ok {a : α} (done : x = .ok a) : ∃ b, y = some b ∧ R a b := by
  subst done
  cases y with
  | none => exact agrees.elim
  | some b => exact ⟨b, rfl, agrees⟩

end

theorem Agrees.some_right {b : β} (agrees : Agrees R x (some b)) : ∃ a, x = .ok a ∧ R a b := by
  match x, agrees with
  | .ok a, agrees => exact ⟨a, rfl, agrees⟩

end Agrees

/-! ### Switching spaces -/

theorem chain_drop (heap : Heap) {gen : Generation} {index : Nat} (valid : index < heap.count gen) :
    (heap.chain gen).drop index = ⟨gen, index⟩ :: (heap.chain gen).drop (index + 1) := by
  have bound : index < (heap.chain gen).length := by simpa [Heap.chain] using valid
  rw [drop_eq_getElem_cons bound]
  simp [Heap.chain]

theorem chain_drop_of_last (heap : Heap) {gen : Generation} {index : Nat}
    (last : heap.count gen ≤ index) : (heap.chain gen).drop index = [] :=
  drop_eq_nil_of_le (by simpa [Heap.chain] using last)

theorem chain_defNew (heap : Heap) :
    heap.chain .defNew = ⟨.defNew, 0⟩ :: later heap ⟨.defNew, 0⟩ := by
  have nonempty : 0 < heap.count .defNew := Nat.succ_pos heap.survivors
  exact chain_drop heap nonempty

/-- What the compact point switches to is what the cursor finds next. -/
theorem later_of_switch (heap : Heap) {space : SpaceRef} (valid : Valid heap space) :
    (switchSpace heap space = none ∧ later heap space = []) ∨
      ∃ next, switchSpace heap space = some next ∧ Valid heap next ∧
        later heap space = next :: later heap next := by
  obtain ⟨gen, index⟩ := space
  by_cases inner : index + 1 < heap.count gen
  · refine .inr ⟨⟨gen, index + 1⟩, by simp [switchSpace, Heap.nextCompactionSpace, inner], inner, ?_⟩
    cases gen with
    | defNew => exact chain_drop heap inner
    | transNew =>
      rw [later, chain_drop heap inner]
      rfl
    | tenured => exact absurd inner (by simp [Heap.count])
  · have last : heap.nextCompactionSpace ⟨gen, index⟩ = none := by
      simpa [Heap.nextCompactionSpace] using inner
    have first : Valid heap ⟨.defNew, 0⟩ := Nat.succ_pos heap.survivors
    cases gen with
    | defNew =>
      exact .inl ⟨by simp [switchSpace, last, prevGen], chain_drop_of_last heap (not_lt.mp inner)⟩
    | transNew =>
      refine .inr ⟨⟨.defNew, 0⟩, by simp [switchSpace, last, prevGen, Heap.firstCompactionSpace],
        first, ?_⟩
      rw [later, chain_drop_of_last heap (not_lt.mp inner), nil_append, chain_defNew]
    | tenured =>
      exact .inr ⟨⟨.defNew, 0⟩, by simp [switchSpace, last, prevGen, Heap.firstCompactionSpace],
        first, chain_defNew heap⟩

/-- The stores differ at most in the compaction tops. -/
structure SameButTops (store store' : Store) : Prop where
  mem : store'.mem = store.mem
  top : store'.top = store.top
  firstDead : store'.firstDead = store.firstDead
  endOfLive : store'.endOfLive = store.endOfLive

/-- The cursor stands where the compact point does, with the same spaces ahead. -/
structure Points (heap : Heap) (space : SpaceRef) (compactTop : Nat) (c : Cursor) : Prop where
  valid : Valid heap space
  cursor : c = cursorAt heap space compactTop

theorem findSpace_agrees (heap : Heap) {size fuel compactTop : Nat} {store : Store}
    {space : SpaceRef} (positive : 0 < size) (valid : Valid heap space)
    (enough : (later heap space).length < fuel) :
    Agrees (fun found placed => SameButTops store found.1 ∧ found.2.2 = placed.1 ∧
        Points heap found.2.1 (found.2.2 + size) placed.2)
      (findSpace heap size fuel store space compactTop)
      (place heap (cursorAt heap space compactTop) size) := by
  induction fuel generalizing store space compactTop with
  | zero => omega
  | succ fuel ih =>
    by_cases fits : compactTop + size ≤ heap.limit space
    · have here : ¬ size > heap.limit space - compactTop := by omega
      have placed : place heap (cursorAt heap space compactTop) size =
          some (compactTop, cursorAt heap space (compactTop + size)) := NextFit.place_of_fits fits
      rw [findSpace, if_neg here, placed]
      exact ⟨⟨rfl, rfl, rfl, rfl⟩, rfl, valid, rfl⟩
    · have full : size > heap.limit space - compactTop := by omega
      rw [findSpace, if_pos full]
      rcases later_of_switch heap valid with ⟨last, ahead⟩ | ⟨next, switch, valid', ahead⟩
      · have failed : place heap (cursorAt heap space compactTop) size = none :=
          NextFit.place_of_last ahead fits
        rw [last, failed]
        exact trivial
      · have goesOn : place heap (cursorAt heap space compactTop) size =
            place heap (cursorAt heap next (heap.bottom next)) size :=
          NextFit.place_of_full ahead fits
        rw [switch, goesOn]
        rw [ahead, length_cons] at enough
        refine (ih valid' (by omega)).mono ?_
        rintro found placed ⟨same, target, points⟩
        exact ⟨⟨same.mem, same.top, same.firstDead, same.endOfLive⟩, target, points⟩

end ForwardPlan
