import Mathlib.Data.List.Basic
import TransGC.ScanSteps

/-!
# Invariants of the scan

What holds in every state of a collection, and what a slot or an object, once dealt with,
keeps from then on. All of it is shown for one step and carried to any number of steps.
-/
namespace ScanInvariant
open EdenTable MarkWord ObjectHeap ObjectMoves EdenScan ScanSteps Function List

def SelfForwarded (c : Collector) (heap : Heap) (a : Nat) : Prop :=
  heap.isForwarded a = true ∧ c.forwardee heap a = a

/-- How many objects of the eden are not forwarded yet. -/
def unforwarded (c : Collector) (start heap : Heap) : Nat :=
  (start.edenObjects c.id).countP fun a => !heap.isForwarded a

def Pending (σ : Scan) (s : Slot) : Prop :=
  ∃ kind r, s = .field r referentOffset ∧ r ∈ σ.discovered kind

/-- The slot needs no more work before the discovered references are processed. -/
def Handled (c : Collector) (σ : Scan) (s : Slot) : Prop :=
  Settled c σ.toHeap (σ.words s) ∨ Pending σ s

def Done (c : Collector) (σ : Scan) (obj : Nat) : Prop :=
  ∀ offset ∈ (σ.klass obj).slots, Handled c σ (.field obj offset)

structure Inv (c : Collector) (start : Heap) (Good : Nat → Prop) (σ : Scan) : Prop where
  valid : ∃ moved, Valid c start Good σ.toHeap moved
  lists : ∀ kind r, r ∈ σ.discovered kind → Listed c start Good σ.toHeap kind r
  stack : ∀ a ∈ σ.failureStack, a ∈ start.edenObjects c.id ∧ SelfForwarded c σ.toHeap a
  failure : ∀ a ∈ start.edenObjects c.id, SelfForwarded c σ.toHeap a → σ.promotionFailed = true
  kept : ∀ saved ∈ σ.preserved, saved.1 ∈ start.edenObjects c.id ∧ saved.2 = start.mark saved.1
  preserved : ∀ a ∈ start.edenObjects c.id, SelfForwarded c σ.toHeap a →
    mustBePreserved c.useBiasedLocking (start.mark a) (start.klass a).prototypeHeader = true →
      (a, start.mark a) ∈ σ.preserved
  saved : start.old.length ≤ σ.savedMark ∧ σ.savedMark ≤ σ.old.length
  room : σ.old.length + unforwarded c start σ.toHeap ≤
    start.old.length + (start.edenObjects c.id).length

variable {c : Collector} {start : Heap} {Good : Nat → Prop} {loops : List LoopStep}
  {σ τ : Scan} {a : Nat} {s : Slot}

/-! ### Counting -/

theorem countP_lt_countP {α : Type*} {l : List α} {p q : α → Bool} {x : α}
    (weaker : ∀ y ∈ l, q y = true → p y = true) (among : x ∈ l) (before : p x = true)
    (after : q x = false) : l.countP q < l.countP p := by
  induction l with
  | nil => cases among
  | cons y l ih =>
    have tail : l.countP q ≤ l.countP p :=
      countP_mono_left fun z inside => weaker z (mem_cons_of_mem y inside)
    rcases mem_cons.mp among with rfl | inside
    · rw [countP_cons_of_pos before, countP_cons_of_neg (by simp [after])]
      omega
    · have strict := ih (fun z member => weaker z (mem_cons_of_mem y member)) inside
      have head := weaker y mem_cons_self
      rw [countP_cons, countP_cons]
      split
      · rename_i holds
        rw [if_pos (head holds)]
        omega
      · split <;> omega

theorem unforwarded_lt {heap heap' : Heap} (among : a ∈ start.edenObjects c.id)
    (white : heap.isForwarded a = false) (black : heap'.isForwarded a = true)
    (others : ∀ b ∈ start.edenObjects c.id, heap.isForwarded b = true →
      heap'.isForwarded b = true) :
    unforwarded c start heap' < unforwarded c start heap := by
  refine countP_lt_countP (fun b inside clean => ?_) among (by simp [white]) (by simp [black])
  cases marked : heap.isForwarded b with
  | false => rfl
  | true =>
    rw [others b inside marked] at clean
    cases clean

theorem Inv.start_inv (formed : WellFormed c start) : Inv c start Good (startScan start) where
  valid := ⟨[], valid_start formed⟩
  lists := by
    intro kind r among
    cases among
  stack := by
    intro a among
    cases among
  failure := by
    intro a among itself
    have white := formed.unmarked a among
    have black : start.isForwarded a = true := itself.1
    rw [white] at black
    cases black
  kept := by
    intro saved among
    cases among
  preserved := by
    intro a among itself
    have white := formed.unmarked a among
    have black : start.isForwarded a = true := itself.1
    rw [white] at black
    cases black
  saved := ⟨le_refl _, le_refl _⟩
  room := Nat.add_le_add_left countP_le_length _

/-! ### Slots -/

theorem mem_addDiscovered {kind kind' : ReferenceType} {r r' : Nat} :
    r ∈ (σ.addDiscovered kind' r').discovered kind ↔
      kind = kind' ∧ r = r' ∨ r ∈ σ.discovered kind := by
  by_cases same : kind = kind'
  · subst same
    simp [Scan.addDiscovered]
  · simp [Scan.addDiscovered, same]

theorem mem_removeDiscovered {kind kind' : ReferenceType} {r r' : Nat} :
    r ∈ (σ.removeDiscovered kind' r').discovered kind ↔
      r ∈ σ.discovered kind ∧ ¬ (kind = kind' ∧ r = r') := by
  by_cases same : kind = kind'
  · subst same
    simp [Scan.removeDiscovered]
  · simp [Scan.removeDiscovered, same]

theorem pending_step (step : Step c start Good loops σ τ) (pending : Pending σ s) :
    Pending τ s ∨ Settled c τ.toHeap (τ.words s) := by
  obtain ⟨kind, r, rfl, among⟩ := pending
  cases step with
  | discover early listed => exact .inl ⟨kind, r, rfl, mem_addDiscovered.mpr (.inr among)⟩
  | @remove kind' r' settled =>
    by_cases own : kind = kind' ∧ r = r'
    · exact .inr (own.2 ▸ settled)
    · exact .inl ⟨kind, r, rfl, mem_removeDiscovered.mpr ⟨among, own⟩⟩
  | _ => exact .inl ⟨kind, r, rfl, among⟩

theorem promotionFailed_step (step : Step c start Good loops σ τ)
    (failed : σ.promotionFailed = true) : τ.promotionFailed = true := by
  cases step with
  | fail good white => rfl
  | _ => exact failed

theorem mem_preserved_of_fail {saved : Nat × Nat} :
    saved ∈ (handlePromotionFailure c σ a).preserved ↔ saved ∈ σ.preserved ∨
      mustBePreserved c.useBiasedLocking (σ.mark a) (σ.klass a).prototypeHeader = true ∧
        saved = (a, σ.mark a) := by
  change saved ∈ (if _ then _ else _) ↔ _
  split
  · rename_i must
    simp [must]
  · rename_i plain
    simp [plain]

variable (setup : Setup c start Good)

section Step

variable (step : Step c start Good loops σ τ) (inv : Inv c start Good σ)
include setup step inv

theorem settled_step {value : Nat} (settled : Settled c σ.toHeap value) :
    Settled c τ.toHeap value := by
  obtain ⟨moved, valid⟩ := inv.valid
  cases inside : c.inEden value with
  | false => exact .inl inside
  | true =>
    rcases settled with outside | ⟨marked, itself⟩
    · rw [inside] at outside
      cases outside
    · obtain ⟨black, same⟩ := step.forwarded setup.formed valid inside marked
      exact .inr ⟨black, same.trans itself⟩

theorem settled_slot_step
    (visible : Visible c start σ.toHeap s) (settled : Settled c σ.toHeap (σ.words s)) :
    Settled c τ.toHeap (τ.words s) := by
  obtain ⟨moved, valid⟩ := inv.valid
  obtain ⟨more, after⟩ := step.valid setup valid
  cases step.evolves setup valid visible with
  | same kept =>
    rw [kept]
    exact settled_step setup step inv settled
  | redirected good marked moved =>
    rw [moved]
    exact after.settled_forwardee setup.formed (setup.closed.eden _ good) marked
  | cleared weak late dead zero =>
    rw [zero]
    exact .inl setup.formed.inEden_zero

theorem goodSlot_step
    {P : Nat → Prop} (visible : Visible c start σ.toHeap s) (good : GoodSlot c P σ.toHeap s) :
    GoodSlot c P τ.toHeap s := by
  obtain ⟨moved, valid⟩ := inv.valid
  obtain ⟨more, after⟩ := step.valid setup valid
  intro inside
  cases step.evolves setup valid visible with
  | same kept =>
    rw [kept] at inside ⊢
    exact good inside
  | redirected target marked moved =>
    have among := setup.closed.eden _ target
    rw [moved] at inside ⊢
    rcases after.forwardee_cases among marked with ⟨copy, -, same, above⟩ | same
    · rw [same, setup.formed.not_inEden above] at inside
      cases inside
    · rw [same]
      exact good (setup.formed.inEden _ among)
  | cleared weak late dead zero =>
    rw [zero, setup.formed.inEden_zero] at inside
    cases inside

theorem klass_step {obj offset : Nat} (visible : Visible c start σ.toHeap (.field obj offset)) :
    τ.klass obj = σ.klass obj := by
  obtain ⟨moved, valid⟩ := inv.valid
  cases step with
  | copy good white fits =>
    have size := valid.size_pos setup.formed (setup.closed.eden _ good)
    have place := visible.1
    rw [(copy_moves σ _).klass, if_neg (by omega)]
  | _ => rfl

theorem isSlot_step
    (visible : Visible c start σ.toHeap s) (slot : IsSlot σ.toHeap s) : IsSlot τ.toHeap s := by
  cases s with
  | field obj offset =>
    rw [IsSlot, klass_step setup step inv visible]
    exact slot
  | _ => trivial

theorem handled_step
    (visible : Visible c start σ.toHeap s) (handled : Handled c σ s) : Handled c τ s := by
  rcases handled with settled | pending
  · exact .inl (settled_slot_step setup step inv visible settled)
  · exact (pending_step step pending).symm

theorem done_step {obj : Nat}
    (visible : ∀ offset, Visible c start σ.toHeap (.field obj offset)) (done : Done c σ obj) :
    Done c τ obj := by
  intro offset slot
  rw [klass_step setup step inv (visible offset)] at slot
  exact handled_step setup step inv (visible offset) (done offset slot)

/-! ### Each step keeps the invariant -/

theorem listed_step
    {kind : ReferenceType} {r : Nat} (listed : Listed c start Good σ.toHeap kind r) :
    Listed c start Good τ.toHeap kind r where
  region := listed.region
  ofKind := by
    rw [klass_step setup step inv listed.visible]
    exact listed.ofKind
  active := by
    obtain ⟨moved, valid⟩ := inv.valid
    cases step.evolves (s := .field r nextOffset) setup valid listed.visible with
    | same kept => exact kept.trans listed.active
    | redirected good marked moved =>
      have zero := setup.formed.inEden _ (setup.closed.eden _ good)
      rw [listed.active, setup.formed.inEden_zero] at zero
      cases zero
    | cleared weak late dead zero => exact zero
  policy := listed.policy
  typed := listed.typed
  visible := by
    obtain ⟨moved, valid⟩ := inv.valid
    exact step.visible setup.formed valid listed.visible
  inside := goodSlot_step setup step inv listed.visible listed.inside
  held := by
    rcases listed.held with good | weak
    · exact .inl (goodSlot_step setup step inv listed.visible good)
    · exact .inr weak

/-- An object is forwarded to itself only by a failed promotion. -/
theorem selfForwarded_cases (among : a ∈ start.edenObjects c.id)
    (itself : SelfForwarded c τ.toHeap a) :
    SelfForwarded c σ.toHeap a ∨ σ.isForwarded a = false ∧ τ = handlePromotionFailure c σ a := by
  obtain ⟨moved, valid⟩ := inv.valid
  have low := setup.formed.eden_lt_top among
  have top := valid.top
  obtain ⟨marked, same⟩ := itself
  cases step with
  | @copy b good white fits =>
    by_cases own : a = b
    · subst own
      rw [forwardee_of_mark (copy_moves σ a).mark_self] at same
      omega
    · have kept := (copy_moves σ b).mark_of_ne own (show a ≠ σ.oldTop by omega)
      refine .inl ⟨?_, ?_⟩
      · rwa [Memory.isForwarded, kept] at marked
      · rwa [Collector.forwardee, kept] at same
  | @fail b good white =>
    by_cases own : a = b
    · subst own
      exact .inr ⟨white, rfl⟩
    · have kept : (handlePromotionFailure c σ b).mark a = σ.mark a := update_of_ne own ..
      refine .inl ⟨?_, ?_⟩
      · rwa [Memory.isForwarded, kept] at marked
      · rwa [Collector.forwardee, kept] at same
  | _ => exact .inl ⟨marked, same⟩

theorem room_step :
    τ.old.length + unforwarded c start τ.toHeap ≤ σ.old.length + unforwarded c start σ.toHeap ∧
      τ.failureStack.length + unforwarded c start τ.toHeap ≤
        σ.failureStack.length + unforwarded c start σ.toHeap := by
  obtain ⟨moved, valid⟩ := inv.valid
  have stays : ∀ b ∈ start.edenObjects c.id, σ.isForwarded b = true → τ.isForwarded b = true :=
    fun b inside marked => (step.forwarded setup.formed valid (setup.formed.inEden b inside) marked).1
  cases step with
  | @copy b good white fits =>
    have fewer := unforwarded_lt (setup.closed.eden _ good) white
      (isForwarded_of_mark (copy_moves σ b).mark_self) stays
    have longer : ((σ.copyToTop b).forwardTo b σ.oldTop).old.length = σ.old.length + 1 :=
      length_append
    refine ⟨by rw [longer]; omega, ?_⟩
    exact Nat.add_le_add_left (le_of_lt fewer) _
  | fail good white =>
    have fewer := unforwarded_lt (setup.closed.eden _ good) white
      (isForwarded_of_mark (update_self ..)) stays
    refine ⟨Nat.add_le_add_left (le_of_lt fewer) _, ?_⟩
    change σ.failureStack.length + 1 + _ ≤ _
    omega
  | pop allowed stack =>
    refine ⟨le_refl _, ?_⟩
    rw [stack]
    exact Nat.add_le_add_right (Nat.le_succ _) _
  | _ => exact ⟨le_refl _, le_refl _⟩

end Step

include setup

theorem Inv.step (inv : Inv c start Good σ) (step : Step c start Good loops σ τ) :
    Inv c start Good τ where
  valid := by
    obtain ⟨moved, valid⟩ := inv.valid
    obtain ⟨more, after⟩ := step.valid setup valid
    exact ⟨_, after⟩
  lists := by
    intro kind r among
    have carried := fun earlier => listed_step setup step inv (inv.lists kind r earlier)
    cases step with
    | discover early listed =>
      rcases mem_addDiscovered.mp among with ⟨rfl, rfl⟩ | earlier
      · exact listed
      · exact carried earlier
    | remove settled => exact carried (mem_removeDiscovered.mp among).1
    | _ => exact carried among
  stack := by
    intro a among
    obtain ⟨moved, valid⟩ := inv.valid
    have carried : a ∈ σ.failureStack → a ∈ start.edenObjects c.id ∧ SelfForwarded c τ.toHeap a := by
      intro earlier
      obtain ⟨inside, marked, itself⟩ := inv.stack a earlier
      obtain ⟨black, same⟩ := step.forwarded setup.formed valid (setup.formed.inEden a inside) marked
      exact ⟨inside, black, same.trans itself⟩
    cases step with
    | @fail b good white =>
      rcases mem_cons.mp among with rfl | earlier
      · have pointer := update_self a (encodePointerAsMark (8 * a)) σ.mark
        exact ⟨setup.closed.eden a good, isForwarded_of_mark pointer, forwardee_of_mark pointer⟩
      · exact carried earlier
    | pop allowed stack =>
      refine carried ?_
      rw [stack]
      exact mem_cons_of_mem _ among
    | _ => exact carried among
  failure := by
    intro a among itself
    rcases selfForwarded_cases setup step inv among itself with before | ⟨-, rfl⟩
    · exact promotionFailed_step step (inv.failure a among before)
    · rfl
  kept := by
    intro saved among
    obtain ⟨moved, valid⟩ := inv.valid
    cases step with
    | @fail b good white =>
      rcases mem_preserved_of_fail.mp among with earlier | ⟨-, rfl⟩
      · exact inv.kept saved earlier
      · have inside := setup.closed.eden b good
        exact ⟨inside, valid.mark b (.inl (setup.formed.eden_lt_top inside)) fun _ => white⟩
    | _ => exact inv.kept saved among
  preserved := by
    intro a among itself must
    obtain ⟨moved, valid⟩ := inv.valid
    have low := setup.formed.eden_lt_top among
    rcases selfForwarded_cases setup step inv among itself with before | ⟨white, rfl⟩
    · have earlier := inv.preserved a among before must
      cases step with
      | fail good clean => exact mem_preserved_of_fail.mpr (.inl earlier)
      | _ => exact earlier
    · have mark := valid.mark a (.inl low) fun _ => white
      refine mem_preserved_of_fail.mpr (.inr ?_)
      rw [mark, valid.klass a (.inl low)]
      exact ⟨must, rfl⟩
  saved := by
    have saved := inv.saved
    cases step with
    | @copy b good white fits =>
      have longer : ((σ.copyToTop b).forwardTo b σ.oldTop).old.length = σ.old.length + 1 :=
        length_append
      exact ⟨saved.1, by rw [longer]; exact Nat.le_succ_of_le saved.2⟩
    | advance allowed bound => exact ⟨Nat.le_succ_of_le saved.1, bound⟩
    | _ => exact saved
  room := le_trans (room_step setup step inv).1 inv.room

theorem Inv.steps (inv : Inv c start Good σ) (steps : Steps c start Good loops σ τ) :
    Inv c start Good τ := by
  induction steps with
  | refl => exact inv
  | tail _ step ih => exact ih.step setup step

variable (inv : Inv c start Good σ) (steps : Steps c start Good loops σ τ)
include inv steps

/-- What every step keeps holds at the end if it holds at the start. -/
theorem steps_keep {P : Scan → Prop}
    (keeps : ∀ {υ ω}, Inv c start Good υ → Step c start Good loops υ ω → P υ → P ω) (holds : P σ) :
    P τ := by
  induction steps with
  | refl => exact holds
  | tail before step ih => exact keeps (inv.steps setup before) step ih

theorem steps_visible (visible : Visible c start σ.toHeap s) : Visible c start τ.toHeap s := by
  refine steps_keep (P := fun υ => Visible c start υ.toHeap s) setup inv steps ?_ visible
  intro υ ω inv step visible
  obtain ⟨moved, valid⟩ := inv.valid
  exact step.visible setup.formed valid visible

theorem steps_keep_slot {P : Scan → Prop}
    (keeps : ∀ {υ ω}, Inv c start Good υ → Step c start Good loops υ ω → Visible c start υ.toHeap s → P υ → P ω)
    (visible : Visible c start σ.toHeap s) (holds : P σ) : P τ := by
  refine (steps_keep (P := fun υ => Visible c start υ.toHeap s ∧ P υ) setup inv steps ?_
    ⟨visible, holds⟩).2
  intro υ ω inv step both
  obtain ⟨moved, valid⟩ := inv.valid
  exact ⟨step.visible setup.formed valid both.1, keeps inv step both.1 both.2⟩

theorem steps_handled
    (visible : Visible c start σ.toHeap s) (handled : Handled c σ s) : Handled c τ s :=
  steps_keep_slot (P := fun υ => Handled c υ s) setup inv steps
    (fun inv step visible handled => handled_step setup step inv visible handled)
    visible handled

theorem steps_settled
    (visible : Visible c start σ.toHeap s) (settled : Settled c σ.toHeap (σ.words s)) :
    Settled c τ.toHeap (τ.words s) :=
  steps_keep_slot (P := fun υ => Settled c υ.toHeap (υ.words s)) setup inv steps
    (fun inv step visible settled => settled_slot_step setup step inv visible settled)
    visible settled

theorem steps_isSlot
    (visible : Visible c start σ.toHeap s) (slot : IsSlot σ.toHeap s) : IsSlot τ.toHeap s :=
  steps_keep_slot (P := fun υ => IsSlot υ.toHeap s) setup inv steps
    (fun inv step visible slot => isSlot_step setup step inv visible slot) visible slot

theorem steps_goodSlot
    {P : Nat → Prop} (visible : Visible c start σ.toHeap s) (good : GoodSlot c P σ.toHeap s) :
    GoodSlot c P τ.toHeap s :=
  steps_keep_slot (P := fun υ => GoodSlot c P υ.toHeap s) setup inv steps
    (fun inv step visible good => goodSlot_step setup step inv visible good)
    visible good

end ScanInvariant
