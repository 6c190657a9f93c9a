import TransGC.ResidualTraining
import TransGC.TransitionRuns

/-!
# Emptying a trained eden

An eden may be emptied without evacuation if nothing outside refers to an object in it. The
training does not ensure that: it has seen the classes of earlier survivors, not the program. It
is enough that, when a transaction in a trained eden ends, whatever refers to one of its objects
from outside refers to one that was to be pretenured, and that nobody allocates for the
transaction after that.
-/
namespace ResidualSafety
open EdenTable ResidualTraining TransitionRuns Function TransNewGeneration List Option

/-- A root, or an object outside the eden, refers to the object. -/
inductive Refers (vm : VM) (eden : TransEden) : Nat → Prop
  | root {holder : Option Nat} {b : Nat} (held : (holder, b) ∈ vm.roots) : Refers vm eden b
  | field {a b : Nat} (outside : a ∉ eden.objects) (points : some b ∈ vm.fields a) :
      Refers vm eden b

/-- From the thread roots, gen0, another eden, the old or the permanent generation. -/
inductive Reached (vm : VM) (eden : TransEden) : Nat → Prop
  | outside {b : Nat} (refers : Refers vm eden b) : Reached vm eden b
  | inside {a b : Nat} (reached : Reached vm eden a) (points : some b ∈ vm.fields a) :
      Reached vm eden b

def Unreferenced (vm : VM) (eden : TransEden) : Prop := ∀ b, Refers vm eden b → b ∉ eden.objects

variable {flags : Flags} {vm after : VM} {eden : TransEden} {b id obj ostid : Nat} {failed : Bool}
  {thread : JavaThread} {e : ThreadEvents.Event} {machine next : ThreadEvents.VM}

theorem not_mem_of_reached (unreferenced : Unreferenced vm eden) (reached : Reached vm eden b) :
    b ∉ eden.objects := by
  induction reached with
  | outside refers => exact unreferenced _ refers
  | inside reached points ih => exact unreferenced _ (.field ih points)

/-- The edens that an event empties without evacuation. -/
def Empties (flags : Flags) (vm : VM) : Event → TransEden → Prop
  | .collectTransEden _ _ _ id, eden => vm.machine.gen.transEdens[id]? = some eden ∧
      eden.state = .collectable ∧ eden.trained = true ∧ flags.avoidCollectTrained = true
  | .collectResettableTransEden, eden => eden ∈ vm.machine.gen.transEdens ∧
      eden.state = .collectable ∧ eden.trained = true ∧ vm.machine.trainingDone = true ∧
      flags.pretenure = true ∧ flags.avoidCollectTrained = true
  | _, _ => False

structure EdenInv (vm : VM) (eden : TransEden) : Prop where
  below : ∀ obj ∈ eden.objects, obj < vm.next
  owned : ∀ obj ∈ eden.objects, vm.owner obj = eden.transID ∧ vm.pretenured obj = false
  idle : eden.state = .available → eden.objects = []
  free : eden.state = .available → eden.transID = -1
  quiet : eden.state = .collectable → eden.trained = true → Unreferenced vm eden

def Inv (vm : VM) : Prop := ∀ eden ∈ vm.machine.gen.transEdens, EdenInv vm eden

theorem edenInv_of_empty (empty : eden.objects = [])
    (free : eden.state = .available → eden.transID = -1) : EdenInv vm eden where
  below := by simp [empty]
  owned := by simp [empty]
  idle := fun _ => empty
  free := free
  quiet := by simp [Unreferenced, empty]

/-- Only what can be reached is referred to afterwards. -/
theorem EdenInv.of_reached (inv : EdenInv vm eden) (next : after.next = vm.next)
    (owner : after.owner = vm.owner) (pretenured : after.pretenured = vm.pretenured)
    (finds : ∀ b, Refers after eden b → Reached vm eden b) : EdenInv after eden where
  below := by
    rw [next]
    exact inv.below
  owned := by
    rw [owner, pretenured]
    exact inv.owned
  idle := inv.idle
  free := inv.free
  quiet handedIn trained b refers :=
    not_mem_of_reached (inv.quiet handedIn trained) (finds b refers)

/-- The heap has no more references than before, and the same records. -/
structure Shrinks (vm after : VM) : Prop where
  next : after.next = vm.next
  owner : after.owner = vm.owner
  pretenured : after.pretenured = vm.pretenured
  roots : ∀ root ∈ after.roots, root ∈ vm.roots
  fields : ∀ a b, some b ∈ after.fields a → some b ∈ vm.fields a

theorem Shrinks.refers (shrinks : Shrinks vm after) (refers : Refers after eden b) :
    Refers vm eden b := by
  cases refers with
  | root held => exact .root (shrinks.roots _ held)
  | field outside points => exact .field outside (shrinks.fields _ _ points)

theorem Shrinks.trans {last : VM} (first : Shrinks vm after) (second : Shrinks after last) :
    Shrinks vm last where
  next := second.next.trans first.next
  owner := second.owner.trans first.owner
  pretenured := second.pretenured.trans first.pretenured
  roots root held := first.roots root (second.roots root held)
  fields a b points := first.fields a b (second.fields a b points)

theorem shrinks_of_eq (next : after.next = vm.next) (owner : after.owner = vm.owner)
    (pretenured : after.pretenured = vm.pretenured) (roots : after.roots = vm.roots)
    (fields : after.fields = vm.fields) : Shrinks vm after where
  next := next
  owner := owner
  pretenured := pretenured
  roots root held := by rwa [roots] at held
  fields a b points := by rwa [fields] at points

theorem EdenInv.shrinks (inv : EdenInv vm eden) (shrinks : Shrinks vm after) : EdenInv after eden :=
  inv.of_reached shrinks.next shrinks.owner shrinks.pretenured
    fun _ refers => .outside (shrinks.refers refers)

/-- Training changes the flags and the counters only. -/
structure SameHeap (vm after : VM) : Prop where
  shrinks : Shrinks vm after
  gen : after.machine.gen = vm.machine.gen

theorem SameHeap.refl (vm : VM) : SameHeap vm vm := ⟨shrinks_of_eq rfl rfl rfl rfl rfl, rfl⟩

theorem SameHeap.trans {last : VM} (first : SameHeap vm after) (second : SameHeap after last) :
    SameHeap vm last :=
  ⟨first.shrinks.trans second.shrinks, second.gen.trans first.gen⟩

theorem EdenInv.newObject (inv : EdenInv vm eden) (ostid klass width : Nat) (transID : Int)
    (pretenure : Bool) : EdenInv (newObject vm ostid klass width transID pretenure) eden where
  below obj among := Nat.lt_succ_of_lt (inv.below obj among)
  owned obj among := by
    have other := ne_of_lt (inv.below obj among)
    refine ⟨?_, ?_⟩
    · exact (update_of_ne other ..).trans (inv.owned obj among).1
    · exact (update_of_ne other ..).trans (inv.owned obj among).2
  idle := inv.idle
  free := inv.free
  quiet handedIn trained b refers := by
    have quiet := inv.quiet handedIn trained
    cases refers with
    | root held =>
      rcases mem_cons.mp held with fresh | earlier
      · cases fresh
        exact fun among => lt_irrefl _ (inv.below _ among)
      · exact quiet b (.root earlier)
    | @field a _ outside points =>
      change some b ∈ update vm.fields vm.next _ a at points
      by_cases fresh : a = vm.next
      · rw [fresh, update_self] at points
        cases eq_of_mem_replicate points
      · rw [update_of_ne fresh] at points
        exact quiet b (.field outside points)

theorem SameHeap.inv (same : SameHeap vm after) (inv : Inv vm) : Inv after := by
  intro eden among
  rw [same.gen] at among
  exact (inv eden among).shrinks same.shrinks

theorem initial_inv (maxTransEden statics width : Nat) :
    Inv (VM.initial maxTransEden statics width) := by
  intro eden listed
  obtain ⟨-, rfl⟩ := mem_replicate.mp listed
  exact edenInv_of_empty rfl fun _ => rfl

end ResidualSafety
