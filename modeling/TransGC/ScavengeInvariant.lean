import Mathlib.Data.List.Infix
import Mathlib.Data.List.Nodup
import TransGC.ScavengeSteps

/-!
# Invariants of a scavenge

What holds in every state of a scavenge in which no promotion has failed, and what a slot keeps
once it has been dealt with. A copy above its saved mark is still as its source was, so all its
slots are unscanned; a slot that no step may touch keeps its word.
-/
namespace ScavengeInvariant
open EdenTable MarkWord ObjectHeap ObjectMoves YoungScavenge ScavengeSteps Function List

/-- An object that is not among those to be copied. -/
def Known (σ : Scan) (obj : Nat) : Prop :=
  obj ∈ σ.edenObjects ∨ obj ∈ σ.perm ∨ ∃ d, obj ∈ (σ.room d).objects

def KnownSlot (σ : Scan) : Slot → Prop
  | .field obj _ => Known σ obj
  | _ => True

structure Inv (c : Scavenger) (start : YoungHeap) (σ : Scan) : Prop where
  valid : ∃ moved, Valid c start σ.toYoungHeap moved
  lists : ∀ kind r, r ∈ σ.discovered kind → Listed c σ kind r
  once : ∀ kind, (σ.discovered kind).Nodup
  saved : ∀ d, (start.room d).objects.length ≤ σ.savedMark d ∧
    σ.savedMark d ≤ (σ.room d).objects.length
  waiting : ∀ d, ∀ obj ∈ (σ.room d).objects.drop (σ.savedMark d),
    ∀ offset ∈ (σ.klass obj).slots, Unscanned c start σ (.field obj offset)

/-- A heap from which a scavenge can start. -/
structure Startable (c : Scavenger) (start : YoungHeap) : Prop extends WellFormed c start where
  vacated : (start.room .toSpace).objects = []

variable {c : Scavenger} {start young : YoungHeap} {touch : Slot → Prop} {loops : List LoopStep}
  {σ τ : Scan} {a obj offset : Nat} {d : Destination} {s : Slot} {moved : List Move}

theorem known_of_visible (visible : Visible σ s) : KnownSlot σ s := by
  cases s with
  | field obj offset =>
    rcases visible with eden | permanent | ⟨d, scanned⟩
    · exact .inl eden
    · exact .inr (.inl permanent)
    · exact .inr (.inr ⟨d, mem_of_mem_take scanned⟩)
  | _ => trivial

theorem known_not_top (valid : Valid c start σ.toYoungHeap moved)
    (vacant : Vacant c start σ.toYoungHeap d) (known : Known σ obj) : obj ≠ (σ.room d).top := by
  rcases known with eden | permanent | ⟨e, among⟩
  · rw [valid.edenObjects] at eden
    exact vacant.outer obj (by simp [outside, eden])
  · rw [valid.perm] at permanent
    exact vacant.outer obj (by simp [outside, permanent])
  · exact vacant.objects e obj among

/-! ### Objects above a saved mark -/

theorem objects_nodup (formed : Startable c start) (valid : Valid c start young moved)
    (d : Destination) : (young.room d).objects.Nodup := by
  rw [valid.objects d]
  apply Nodup.append
  · cases d with
    | toSpace =>
      rw [formed.vacated]
      exact nodup_nil
    | tenured => exact (nodup_append.mp (nodup_append.mp formed.distinct).1).2.1
  · exact (valid.targets_nodup formed.layout).sublist (filter_sublist.map _)
  · intro obj old copy
    have below := (formed.objects_inRoom old).2
    obtain ⟨m, filtered, rfl⟩ := mem_map.mp copy
    obtain ⟨listed, dest⟩ := mem_filter.mp filtered
    obtain rfl : m.dest = d := by simpa using dest
    exact absurd below (Nat.not_lt.mpr (valid.fresh m listed).1)

theorem not_visible_of_waiting (formed : Startable c start)
    (valid : Valid c start σ.toYoungHeap moved)
    (waits : obj ∈ (σ.room d).objects.drop (σ.savedMark d)) : ¬ Visible σ (.field obj offset) := by
  have here := (valid.objects_inRoom formed.toWellFormed (mem_of_mem_drop waits)).1
  rintro (eden | permanent | ⟨e, scanned⟩)
  · rw [valid.edenObjects] at eden
    exact formed.eden_not_inRoom eden here
  · rw [valid.perm] at permanent
    exact formed.perm_not_inRoom permanent here
  · have there := (valid.objects_inRoom formed.toWellFormed (mem_of_mem_take scanned)).1
    obtain rfl := formed.inRoom_unique here there
    exact disjoint_take_drop (objects_nodup formed valid d) (le_refl _) scanned waits

/-- What can happen to a slot of an object that is not to be copied. -/
inductive Evolves (c : Scavenger) (start : YoungHeap) (touch : Slot → Prop) (σ τ : Scan)
    (s : Slot) : Prop
  | same (kept : τ.words s = σ.words s)
  | redirected (touched : touch s) (visible : Visible σ s) (among : σ.words s ∈ start.sources)
      (black : τ.isForwarded (σ.words s) = true)
      (moved : τ.words s = c.forwardee τ.toYoungHeap (σ.words s))
  | cleared (touched : touch s) (visible : Visible σ s) (late : σ.discovering = false)
      (weak : Clearable c σ s)
      (dead : σ.words s = 0 ∨ σ.words s ∈ start.sources ∧ σ.isForwarded (σ.words s) = false)
      (zero : τ.words s = 0)

/-! ### What one step leaves as it is -/

theorem visible_of_listed {kind : ReferenceType} {r : Nat} (listed : Listed c σ kind r) :
    Visible σ (.field r offset) := .inr (.inr ⟨.toSpace, listed.survivor⟩)

variable (formed : Startable c start)

section Step

variable (step : Step c start touch loops σ τ)
include step

theorem step_objects_grow (d : Destination) : (σ.room d).objects <+: (τ.room d).objects := by
  cases step with
  | @copy e a among white room =>
    by_cases same : d = e
    · subst same
      rw [evacuate_room_self]
      exact prefix_append _ _
    · rw [evacuate_room_of_ne same]
  | _ => exact prefix_rfl

theorem step_savedMark_le (d : Destination) : σ.savedMark d ≤ τ.savedMark d := by
  cases step with
  | @copy e a among white room =>
    obtain ⟨-, -, -, -, marks, -⟩ := evacuate_frame (σ := σ) (d := e) (a := a)
    rw [marks]
  | @advance e allowed bound =>
    by_cases same : d = e
    · subst same
      simp [Scan.advance]
    · simp [Scan.advance, same]
  | _ => exact le_refl _

theorem step_frame : τ.transNew = σ.transNew ∧ τ.perm = σ.perm := by
  cases step with
  | @copy e a among white room =>
    obtain ⟨-, -, table, perm, -⟩ := evacuate_frame (σ := σ) (d := e) (a := a)
    exact ⟨table, perm⟩
  | _ => exact ⟨rfl, rfl⟩

theorem step_scanned_subset (d : Destination) :
    (σ.room d).objects.take (σ.savedMark d) ⊆ (τ.room d).objects.take (τ.savedMark d) := by
  intro obj scanned
  have longer := (IsPrefix.take (step_objects_grow step d) (σ.savedMark d)).subset scanned
  exact (take_prefix_take_left (step_savedMark_le step d)).subset longer

theorem step_visible (visible : Visible σ s) : Visible τ s := by
  obtain ⟨table, perm⟩ := step_frame step
  cases s with
  | field obj offset =>
    rcases visible with eden | permanent | ⟨d, scanned⟩
    · left
      rw [YoungHeap.edenObjects, table]
      exact eden
    · right
      left
      rw [perm]
      exact permanent
    · exact .inr (.inr ⟨d, step_scanned_subset step d scanned⟩)
  | _ => trivial

/-- The objects that wait after a step waited before, or are new copies. -/
theorem step_waiting_cases (inv : Inv c start σ)
    (waits : obj ∈ (τ.room d).objects.drop (τ.savedMark d)) :
    obj ∈ (σ.room d).objects.drop (σ.savedMark d) ∨
      ∃ a ∈ start.sources, τ = evacuate σ d a ∧ obj = (σ.room d).top := by
  cases step with
  | @copy e a among white room =>
    obtain ⟨-, -, -, -, marks, -⟩ := evacuate_frame (σ := σ) (d := e) (a := a)
    rw [marks] at waits
    by_cases same : d = e
    · subst same
      rw [evacuate_room_self] at waits
      rw [drop_append_of_le_length (inv.saved d).2] at waits
      rcases mem_append.mp waits with earlier | last
      · exact .inl earlier
      · exact .inr ⟨a, among, rfl, mem_singleton.mp last⟩
    · rw [evacuate_room_of_ne same] at waits
      exact .inl waits
  | @advance e allowed bound =>
    have advances : Step c start touch loops σ (σ.advance e) := .advance allowed bound
    exact .inl ((drop_subset_drop_left _ (step_savedMark_le advances d)) waits)
  | _ => exact .inl waits

variable (valid : Valid c start σ.toYoungHeap moved)
include formed valid

theorem step_evolves (known : KnownSlot σ s) : Evolves c start touch σ τ s := by
  cases step with
  | @copy d a among white room =>
    have vacant := valid.fresh_of_fits formed.toWellFormed among room
    refine .same ((evacuate_moves σ d a).words_of_ne ?_)
    rintro offset rfl
    exact known_not_top valid vacant known rfl
  | @redirect t touched visible slot among black =>
    by_cases same : s = t
    · subst same
      exact .redirected touched visible among black (update_self ..)
    · exact .same (update_of_ne same ..)
  | @clear t touched visible slot late weak dead =>
    by_cases same : s = t
    · subst same
      exact .cleared touched visible late weak dead (update_self ..)
    · exact .same (update_of_ne same ..)
  | _ => exact .same rfl

theorem step_klass (known : Known σ obj) : τ.klass obj = σ.klass obj := by
  cases step with
  | @copy d a among white room =>
    have vacant := valid.fresh_of_fits formed.toWellFormed among room
    rw [(evacuate_moves σ d a).klass, if_neg (known_not_top valid vacant known)]
  | _ => rfl

/-- A slot that points to nothing that is to be copied stays as it is. -/
theorem step_settled (visible : Visible σ s)
    (settled : σ.words s ∉ start.sources) : τ.words s = σ.words s := by
  cases step_evolves formed step valid (known_of_visible visible) with
  | same kept => exact kept
  | redirected touched visible among black moved => exact absurd among settled
  | cleared touched visible late weak dead zero =>
    rcases dead with null | ⟨among, -⟩
    · rw [zero, null]
    · exact absurd among settled

theorem step_forwarded (among : a ∈ start.sources)
    (black : σ.isForwarded a = true) : τ.isForwarded a = true := by
  obtain ⟨more, after⟩ := step.valid formed.toWellFormed formed.vacated valid
  obtain ⟨m, listed, rfl⟩ := valid.forwarded a among black
  exact isForwarded_of_mark (after.source m (mem_append_left _ listed)).2

theorem listed_step {kind : ReferenceType} {r : Nat}
    (listed : Listed c σ kind r) : Listed c τ kind r where
  survivor := step_scanned_subset step .toSpace listed.survivor
  ofKind := by
    have known : Known σ r := known_of_visible (s := .field r 0) (visible_of_listed listed)
    rw [step_klass formed step valid known]
    exact listed.ofKind
  active := by
    have settled : σ.words (.field r nextOffset) ∉ start.sources := by
      rw [listed.active]
      exact fun among => formed.source_ne_zero among rfl
    rw [step_settled formed step valid (visible_of_listed listed) settled]
    exact listed.active
  policy := listed.policy
  typed := listed.typed

end Step

theorem steps_more {touch' : Slot → Prop} {more : List LoopStep}
    (wider : ∀ s, touch s → touch' s) (subset : loops ⊆ more)
    (steps : Steps c start touch loops σ τ) : Steps c start touch' more σ τ := by
  refine Relation.ReflTransGen.mono ?_ _ _ steps
  intro υ ω step
  cases step with
  | copy among white room => exact .copy among white room
  | redirect touched visible slot among black =>
    exact .redirect (wider _ touched) visible slot among black
  | clear touched visible slot late weak dead =>
    exact .clear (wider _ touched) visible slot late weak dead
  | discover early listed new => exact .discover early listed new
  | remove touched => exact .remove (wider _ touched)
  | card cards => exact .card cards
  | advance allowed bound => exact .advance (subset allowed) bound
  | stopDiscovery allowed => exact .stopDiscovery (subset allowed)

theorem steps_visible (steps : Steps c start touch loops σ τ) (visible : Visible σ s) :
    Visible τ s := by
  induction steps with
  | refl => exact visible
  | tail _ step ih => exact step_visible step ih

theorem steps_objects_grow (steps : Steps c start touch loops σ τ) (d : Destination) :
    (σ.room d).objects <+: (τ.room d).objects := by
  induction steps with
  | refl => exact prefix_rfl
  | tail _ step ih => exact ih.trans (step_objects_grow step d)

theorem steps_discovering (steady : .stopDiscovery ∉ loops)
    (steps : Steps c start touch loops σ τ) : τ.discovering = σ.discovering := by
  induction steps with
  | refl => rfl
  | tail _ step ih =>
    rw [← ih]
    cases step with
    | @copy d a among white room => exact evacuate_frame.2.2.2.2.2.1
    | stopDiscovery allowed => exact absurd allowed steady
    | _ => rfl

theorem steps_late (late : σ.discovering = false) (steps : Steps c start touch loops σ τ) :
    τ.discovering = false := by
  induction steps with
  | refl => exact late
  | tail _ step ih =>
    cases step with
    | @copy d a among white room => exact evacuate_frame.2.2.2.2.2.1.trans ih
    | stopDiscovery allowed => rfl
    | _ => exact ih

theorem steps_savedMark (steady : .advance ∉ loops) (steps : Steps c start touch loops σ τ) :
    τ.savedMark = σ.savedMark := by
  induction steps with
  | refl => rfl
  | tail _ step ih =>
    rw [← ih]
    cases step with
    | @copy d a among white room => exact evacuate_frame.2.2.2.2.1
    | advance allowed bound => exact absurd allowed steady
    | _ => rfl

/-! ### Each step keeps the invariant -/

theorem mem_addDiscovered {kind kind' : ReferenceType} {r r' : Nat} :
    r ∈ (σ.addDiscovered kind' r').discovered kind ↔
      kind = kind' ∧ r = r' ∨ r ∈ σ.discovered kind := by
  by_cases same : kind = kind'
  · subst same
    simp [Scan.addDiscovered]
  · simp [Scan.addDiscovered, same]

theorem mem_removeDiscovered {kind kind' : ReferenceType} {r r' : Nat} :
    r ∈ (σ.removeDiscovered kind' r').discovered kind ↔
      r ∈ σ.discovered kind ∧ ¬ (kind = kind' ∧ r = r') := by
  by_cases same : kind = kind'
  · subst same
    simp [Scan.removeDiscovered]
  · simp [Scan.removeDiscovered, same]

theorem allObjects_of_source (among : a ∈ start.sources) : a ∈ ScanSteps.allObjects start.heap := by
  have young : a ∈ start.heap.gen0 := mem_append_left _ among
  simp [ScanSteps.allObjects, young]

include formed

theorem startScan_inv : Inv c start (startScan start) where
  valid := ⟨[], valid_start formed.toWellFormed⟩
  lists := by
    intro kind r among
    cases among
  once := fun _ => nodup_nil
  saved := fun d => ⟨le_refl _, le_refl _⟩
  waiting := by
    intro d obj waits
    change obj ∈ (start.room d).objects.drop (start.room d).objects.length at waits
    simp at waits

/-- The slots of an object that is to be copied point to such objects, or out of gen0. -/
theorem source_slot (valid : Valid c start young moved) (among : a ∈ start.sources)
    (slot : offset ∈ (start.klass a).slots)
    (inside : c.inGen0 (young.words (.field a offset)) = true) :
    young.words (.field a offset) ∈ start.sources := by
  rw [valid.sourceWords a among] at inside ⊢
  exact formed.pointers _ (.field (allObjects_of_source among) slot) inside

theorem inv_step (inv : Inv c start σ) (step : Step c start touch loops σ τ) : Inv c start τ where
  valid := by
    obtain ⟨moved, valid⟩ := inv.valid
    obtain ⟨more, after⟩ := step.valid formed.toWellFormed formed.vacated valid
    exact ⟨_, after⟩
  lists := by
    intro kind r among
    obtain ⟨moved, valid⟩ := inv.valid
    have carried : r ∈ σ.discovered kind → Listed c τ kind r :=
      fun earlier => listed_step formed step valid (inv.lists kind r earlier)
    cases step with
    | @copy d a inside white room =>
      obtain ⟨-, -, -, -, -, -, lists⟩ := evacuate_frame (σ := σ) (d := d) (a := a)
      rw [lists] at among
      exact carried among
    | @discover kind' r' early listed new =>
      rcases mem_addDiscovered.mp among with ⟨rfl, rfl⟩ | earlier
      · exact ⟨listed.survivor, listed.ofKind, listed.active, listed.policy, listed.typed⟩
      · exact carried earlier
    | remove touched => exact carried (mem_removeDiscovered.mp among).1
    | _ => exact carried among
  once := by
    intro kind
    have once := inv.once kind
    cases step with
    | @copy d a inside white room =>
      obtain ⟨-, -, -, -, -, -, lists⟩ := evacuate_frame (σ := σ) (d := d) (a := a)
      rw [lists]
      exact once
    | @discover kind' r' early listed new =>
      by_cases same : kind = kind'
      · subst same
        simpa [Scan.addDiscovered] using ⟨new, once⟩
      · simpa [Scan.addDiscovered, same] using once
    | @remove kind' r' touched =>
      by_cases same : kind = kind'
      · subst same
        simpa [Scan.removeDiscovered] using once.filter _
      · simpa [Scan.removeDiscovered, same] using once
    | _ => exact once
  saved := by
    intro d
    refine ⟨le_trans (inv.saved d).1 (step_savedMark_le step d), ?_⟩
    have longer := (step_objects_grow step d).length_le
    have saved := (inv.saved d).2
    cases step with
    | @copy e a inside white room =>
      obtain ⟨-, -, -, -, marks, -⟩ := evacuate_frame (σ := σ) (d := e) (a := a)
      rw [marks]
      exact le_trans saved longer
    | @advance e allowed bound =>
      by_cases same : d = e
      · subst same
        simp only [Scan.advance, update_self]
        exact bound
      · simpa [Scan.advance, same] using saved
    | _ => exact saved
  waiting := by
    intro d obj waits offset slot
    obtain ⟨moved, valid⟩ := inv.valid
    rcases step_waiting_cases step inv waits with earlier | ⟨a, among, rfl, rfl⟩
    · have known : Known σ obj := .inr (.inr ⟨d, mem_of_mem_drop earlier⟩)
      rw [step_klass formed step valid known] at slot
      have hidden : ¬ Visible σ (.field obj offset) := not_visible_of_waiting formed valid earlier
      cases step_evolves (s := .field obj offset) formed step valid known with
      | same kept =>
        unfold Unscanned
        rw [kept]
        exact inv.waiting d obj earlier offset slot
      | redirected touched visible among black moved => exact absurd visible hidden
      | cleared touched visible late weak dead zero => exact absurd visible hidden
    · unfold Unscanned
      rw [(evacuate_moves σ _ a).klass, if_pos rfl, valid.klass a (.inl among)] at slot
      rw [(evacuate_moves σ _ a).field, if_pos rfl]
      exact source_slot formed valid among slot

theorem inv_steps (inv : Inv c start σ) (steps : Steps c start touch loops σ τ) :
    Inv c start τ := by
  induction steps with
  | refl => exact inv
  | tail _ step ih => exact inv_step formed ih step

/-! ### Sequences of steps -/

variable (inv : Inv c start σ) (steps : Steps c start touch loops σ τ)
include inv steps

theorem steps_keep {P : Scan → Prop}
    (keeps : ∀ {υ ω}, Inv c start υ → Step c start touch loops υ ω → P υ → P ω) (holds : P σ) :
    P τ := by
  induction steps with
  | refl => exact holds
  | tail before step ih => exact keeps (inv_steps formed inv before) step ih

theorem steps_keep_slot {P : Scan → Prop}
    (keeps : ∀ {υ ω}, Inv c start υ → Step c start touch loops υ ω → Visible υ s → P υ → P ω)
    (visible : Visible σ s) (holds : P σ) : P τ := by
  refine (steps_keep (P := fun υ => Visible υ s ∧ P υ) formed inv steps ?_ ⟨visible, holds⟩).2
  intro υ ω inv step both
  exact ⟨step_visible step both.1, keeps inv step both.1 both.2⟩

theorem steps_untouched
    (visible : Visible σ s) (untouched : ¬ touch s) : τ.words s = σ.words s := by
  refine steps_keep_slot (P := fun υ => υ.words s = σ.words s) formed inv steps ?_ visible rfl
  intro υ ω inv step visible same
  obtain ⟨moved, valid⟩ := inv.valid
  cases step_evolves formed step valid (known_of_visible visible) with
  | same kept => exact kept.trans same
  | redirected touched visible among black moved => exact absurd touched untouched
  | cleared touched visible late weak dead zero => exact absurd touched untouched

theorem steps_settled
    (visible : Visible σ s) (settled : σ.words s ∉ start.sources) : τ.words s = σ.words s := by
  refine steps_keep_slot (P := fun υ => υ.words s = σ.words s) formed inv steps ?_ visible rfl
  intro υ ω inv step visible same
  obtain ⟨moved, valid⟩ := inv.valid
  rw [← same] at settled
  exact (step_settled formed step valid visible settled).trans same

theorem steps_klass (visible : Visible σ (.field obj offset)) : τ.klass obj = σ.klass obj := by
  refine steps_keep_slot (P := fun υ => υ.klass obj = σ.klass obj) (s := .field obj offset) formed
    inv steps ?_ visible rfl
  intro υ ω inv step visible same
  obtain ⟨moved, valid⟩ := inv.valid
  have known : Known υ obj := known_of_visible visible
  exact (step_klass formed step valid known).trans same

theorem steps_isSlot (visible : Visible σ s) (slot : IsSlot σ s) : IsSlot τ s := by
  cases s with
  | field obj offset =>
    rw [IsSlot, steps_klass formed inv steps visible]
    exact slot
  | _ => trivial

theorem steps_forwarded
    (among : a ∈ start.sources) (black : σ.isForwarded a = true) : τ.isForwarded a = true := by
  refine steps_keep (P := fun υ => υ.isForwarded a = true) formed inv steps ?_ black
  intro υ ω inv step black
  obtain ⟨moved, valid⟩ := inv.valid
  exact step_forwarded formed step valid among black

end ScavengeInvariant
