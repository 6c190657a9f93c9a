import TransGC.ScanClosures

/-!
# Draining the failure stack

The fast-scan closure in its two uses: inside the drain, where a failed promotion only pushes,
and outside, where it drains the stack before it returns. The drain ends because each round
takes one object off the stack, and an object is pushed only when it is forwarded.
-/
namespace ScanDrain
open EdenTable MarkWord ObjectHeap EdenScan ScanSteps ScanInvariant ScanClosures List

variable {c : Collector} {start : Heap} {Good : Nat → Prop} {loops : List LoopStep}
  {covers : Slot → Prop} {K : Scan → Prop} {drain : Scan → Scan} {σ τ : Scan} {a obj : Nat}
  {s : Slot}

theorem keepAliveCard_marks (heap : Heap) (s : Slot) :
    Marks heap.cards (keepAliveCard c heap s) := by
  cases s with
  | field obj offset =>
    unfold keepAliveCard
    dsimp only
    split_ifs <;> simp
  | _ => exact .refl _

/-- What a closure leaves behind for the slot it was applied to. -/
structure Applied (c : Collector) (start : Heap) (Good : Nat → Prop) (loops : List LoopStep)
    (K : Scan → Prop) (σ τ : Scan) (s : Slot) : Prop where
  steps : Steps c start Good loops σ τ
  between : K τ
  settled : Settled c τ.toHeap (τ.words s)

variable (setup : Setup c start Good)
include setup

/-- Marking cards does no harm after a closure. -/
theorem Applied.andThen (draining : Draining c start Good loops K drain)
    (inv : Inv c start Good σ) {cards : Region → Nat → Card}
    (applied : Applied c start Good loops K σ τ s) (marks : Marks τ.cards cards) :
    Applied c start Good loops K σ { τ with cards := cards } s where
  steps := applied.steps.tail (.card marks)
  between := draining.keeps (inv.steps setup applied.steps) applied.between
    (.single (.card marks)) rfl
  settled := applied.settled

/-! ### The fast-scan closure -/

theorem fastScan_applied (draining : Draining c start Good loops K drain)
    (barrier : Option Region) (inv : Inv c start Good σ) (between : K σ)
    (visible : Visible c start σ.toHeap s) (slot : IsSlot σ.toHeap s)
    (good : GoodSlot c Good σ.toHeap s) :
    Applied c start Good loops K σ (fastScan c drain barrier σ s) s := by
  have marks : ∀ {υ : Scan}, Applied c start Good loops K σ υ s →
      Applied c start Good loops K σ (barrier.elim υ fun region => doBarrier c region υ s) s := by
    intro υ applied
    cases barrier with
    | none => exact applied
    | some region =>
      exact applied.andThen setup draining inv (c.doBarrier_marks _ region s)
  unfold fastScan
  split
  · rename_i zero
    exact ⟨.refl, between, settled_zero setup.formed zero⟩
  · dsimp only
    split
    · rename_i inside
      obtain ⟨steps, kept, settled⟩ :=
        draining.redirect setup inv between visible slot (good inside)
      exact marks (marks ⟨steps, kept, settled⟩)
    · rename_i outside
      exact marks ⟨.refl, between, .inl (by simpa using outside)⟩

theorem fastScan_scans (draining : Draining c start Good loops K drain) (barrier : Option Region) :
    Scans c start Good loops K (fun _ => True) (fastScan c drain barrier) where
  steady := draining.steady
  steps inv between visible slot good :=
    (fastScan_applied setup draining barrier inv between visible slot (good trivial)).steps
  keeps inv between visible slot good :=
    (fastScan_applied setup draining barrier inv between visible slot (good trivial)).between
  settles inv between visible slot good _ :=
    (fastScan_applied setup draining barrier inv between visible slot good).settled
  discovers inv between early listed :=
    draining.keeps inv between (.single (.discover early listed)) rfl

omit setup in
theorem pushing : Draining c start Good [] (fun _ => True) id where
  steady := not_mem_nil
  drains _ _ _ _ := ⟨.refl, trivial⟩
  keeps _ _ _ _ := trivial

/-! ### The drain -/

omit setup in
theorem goodSlot_of_carries (formed : WellFormed c start) {moved : List (Nat × Nat)} {heap : Heap}
    (valid : Valid c start Good heap moved) {before after : Nat}
    (carries : Carries c start heap before after) (good : c.inEden before = true → Good before)
    (inside : c.inEden after = true) : Good after := by
  rcases carries with same | ⟨among, marked, redirected⟩
  · rw [same] at inside ⊢
    exact good inside
  · rcases valid.forwardee_cases among marked with ⟨target, -, same, above⟩ | same
    · rw [redirected, same, formed.not_inEden above] at inside
      cases inside
    · rw [redirected, same]
      exact good (formed.inEden _ among)

omit setup in
theorem strongSlots_subset {klass : Klass} {offset : Nat} (strong : offset ∈ klass.strongSlots) :
    offset ∈ klass.slots := by
  unfold Klass.strongSlots at strong
  unfold Klass.slots
  split at strong
  · rename_i reference
    rw [if_pos reference]
    rcases mem_append.mp strong with ordinary | next
    · exact mem_append_left _ ordinary
    · exact mem_append_right _ (mem_cons_of_mem _ next)
  · rename_i plain
    rwa [if_neg plain]

omit setup in
theorem referent_mem_slots {klass : Klass} (reference : klass.reference.isSome = true) :
    referentOffset ∈ klass.slots := by
  simp [Klass.slots, reference]

omit setup in
/-- If every slot of an object may be followed, the object can be scanned. -/
theorem ready_of_goodSlots (visible : ∀ offset, Visible c start σ.toHeap (.field obj offset))
    (good : ∀ offset ∈ (σ.klass obj).slots, GoodSlot c Good σ.toHeap (.field obj offset)) :
    Ready c start Good covers σ obj where
  visible := visible
  strong offset slot _ := good offset (strongSlots_subset slot)
  referent reference _ := .inl (good _ (referent_mem_slots reference))

theorem ready_of_selfForwarded (inv : Inv c start Good σ) (among : a ∈ start.edenObjects c.id)
    (itself : SelfForwarded c σ.toHeap a) : Ready c start Good covers σ a := by
  obtain ⟨moved, valid⟩ := inv.valid
  have low := setup.formed.eden_lt_top among
  refine ready_of_goodSlots (visible_of_selfForwarded setup.formed inv among itself) ?_
  intro offset slot
  rw [valid.klass a (.inl low)] at slot
  rcases valid.words (.field a offset) (.inl low) with carries | ⟨-, zero⟩
  · exact goodSlot_of_carries setup.formed valid carries
      (setup.closed.slots a (valid.good_of_forwarded among itself.1) offset slot)
  · intro inside
    rw [zero, setup.formed.inEden_zero] at inside
    cases inside

theorem potential_steps (inv : Inv c start Good σ) (steps : Steps c start Good loops σ τ)
    {bound : Nat} (below : σ.failureStack.length + unforwarded c start σ.toHeap ≤ bound) :
    τ.failureStack.length + unforwarded c start τ.toHeap ≤ bound := by
  refine steps_keep (P := fun υ => υ.failureStack.length + unforwarded c start υ.toHeap ≤ bound)
    setup inv steps ?_ below
  intro υ ω inv step below
  exact Nat.le_trans (room_step setup step inv).2 below

theorem drain_scan (inv : Inv c start Good σ) {rest : List Nat}
    (stack : σ.failureStack = obj :: rest)
    (popped : Inv c start Good { σ with failureStack := rest }) {τ : Scan}
    (round : τ = oopIterate c (fastScan c id none) { σ with failureStack := rest } obj) :
    Ready c start Good (fun _ => True) { σ with failureStack := rest } obj ∧
      Steps c start Good [] { σ with failureStack := rest } τ ∧
      ∀ offset ∈ (σ.klass obj).slots, Handled c τ (.field obj offset) := by
  obtain ⟨among, itself⟩ := inv.stack obj (by rw [stack]; exact mem_cons_self)
  have ready : Ready c start Good (fun _ => True) { σ with failureStack := rest } obj :=
    ready_of_selfForwarded setup popped among itself
  obtain ⟨steps, -, handled⟩ :=
    (fastScan_scans setup pushing none).oopIterate setup ready popped trivial
  rw [← round] at steps handled
  exact ⟨ready, steps, fun offset slot => handled offset slot trivial⟩

/-- A round of the drain takes one object off the stack for good. -/
theorem drain_round_steps (inv : Inv c start Good σ) {rest : List Nat}
    (stack : σ.failureStack = obj :: rest) {τ : Scan}
    (round : τ = oopIterate c (fastScan c id none) { σ with failureStack := rest } obj) :
    Steps c start Good [.pop] σ τ ∧
      τ.failureStack.length + unforwarded c start τ.toHeap + 1 ≤
        σ.failureStack.length + unforwarded c start σ.toHeap := by
  have step : Step c start Good [.pop] σ { σ with failureStack := rest } := .pop (by simp) stack
  have popped := inv.step setup step
  obtain ⟨-, steps, -⟩ := drain_scan setup inv stack popped round
  refine ⟨.head step (steps_more (nil_subset _) steps), ?_⟩
  have below := potential_steps setup popped steps (Nat.le_refl _)
  rw [stack, length_cons]
  change _ ≤ rest.length + unforwarded c start σ.toHeap at below
  omega

theorem drain_round_covered (inv : Inv c start Good σ) (covered : Covered c start [] σ)
    {rest : List Nat} (stack : σ.failureStack = obj :: rest) {τ : Scan}
    (round : τ = oopIterate c (fastScan c id none) { σ with failureStack := rest } obj) :
    Covered c start [] τ := by
  have step : Step c start Good [.pop] σ { σ with failureStack := rest } := .pop (by simp) stack
  have popped := inv.step setup step
  obtain ⟨ready, steps, handled⟩ := drain_scan setup inv stack popped round
  have covered : Covered c start [obj] { σ with failureStack := rest } := by
    intro a inside forwarded
    rcases covered a inside forwarded with stacked | exception | done
    · rw [stack] at stacked
      rcases mem_cons.mp stacked with rfl | below
      · exact .inr (.inl (by simp))
      · exact .inl below
    · cases exception
    · exact .inr (.inr done)
  intro a inside forwarded
  rcases covered_steps setup not_mem_nil popped steps covered a inside forwarded with
    stacked | exception | done
  · exact .inl stacked
  · obtain rfl := mem_singleton.mp exception
    refine .inr (.inr fun offset slot => ?_)
    rw [steps_klass setup popped steps ready.visible] at slot
    exact handled offset slot
  · exact .inr (.inr done)

theorem drainPromoFailureScanStack_quiet {fuel : Nat} (inv : Inv c start Good σ)
    (covered : Covered c start [] σ)
    (enough : σ.failureStack.length + unforwarded c start σ.toHeap ≤ fuel) :
    Steps c start Good [.pop] σ (drainPromoFailureScanStack c fuel σ) ∧
      Quiet c start (drainPromoFailureScanStack c fuel σ) := by
  induction fuel generalizing σ with
  | zero =>
    have empty : σ.failureStack.length = 0 := by omega
    exact ⟨.refl, length_eq_zero_iff.mp empty, covered⟩
  | succ fuel ih =>
    rw [drainPromoFailureScanStack]
    split
    · rename_i empty
      exact ⟨.refl, empty, covered⟩
    · rename_i obj rest stack
      obtain ⟨first, fewer⟩ := drain_round_steps setup inv stack rfl
      have covered := drain_round_covered setup inv covered stack rfl
      obtain ⟨later, quiet⟩ := ih (inv.steps setup first) covered (by omega)
      exact ⟨.trans first later, quiet⟩

/-- Outside the drain the stack is drained as soon as something was pushed. -/
theorem drained :
    Draining c start Good [.pop] (Quiet c start) (EdenScan.drain c) where
  steady := by simp
  drains := by
    intro σ a inv quiet good white
    have step : Step c start Good [] σ (handlePromotionFailure c σ a) := .fail good white
    have after := inv.step setup step
    obtain ⟨moved, valid⟩ := after.valid
    refine drainPromoFailureScanStack_quiet setup after
      (covered_steps setup not_mem_nil inv (.single step) quiet.covered) ?_
    have few : unforwarded c start (handlePromotionFailure c σ a).toHeap ≤
        (start.edenObjects c.id).length := countP_le_length
    have stack : (handlePromotionFailure c σ a).failureStack = [a] := by
      change a :: σ.failureStack = [a]
      rw [quiet.stack]
    rw [stack, fuel, Heap.edenObjects, valid.transNew]
    change 1 + _ ≤ (start.edenObjects c.id).length + 1
    omega
  keeps := by
    intro σ τ inv quiet steps stack
    exact ⟨stack.trans quiet.stack, covered_steps setup not_mem_nil inv steps quiet.covered⟩

theorem scanSlot_scans (barrier : Option Region) :
    Scans c start Good [.pop] (Quiet c start) (fun _ => True) (scanSlot c barrier) :=
  fastScan_scans setup (drained setup) barrier

/-- The slots that the walk over non-clean cards is there for. -/
def OnCards (cards : Nat → Card) (isArray : Bool) : Slot → Prop
  | .field obj offset => onScannedCard cards isArray obj offset = true
  | _ => False

theorem filtered_applied {region : Region} (above : c.edenEnd c.id ≤ c.start region)
    (cards : Nat → Card) (isArray : Bool) (inv : Inv c start Good σ) (quiet : Quiet c start σ)
    (visible : Visible c start σ.toHeap s) (slot : IsSlot σ.toHeap s)
    (good : OnCards cards isArray s → GoodSlot c Good σ.toHeap s) :
    Steps c start Good [.pop] σ (filtered c region cards isArray σ s) ∧
      Quiet c start (filtered c region cards isArray σ s) ∧
      (OnCards cards isArray s → Settled c (filtered c region cards isArray σ s).toHeap
        ((filtered c region cards isArray σ s).words s)) := by
  cases s with
  | root | weakRoot => exact ⟨.refl, quiet, False.elim⟩
  | field obj offset =>
    unfold filtered
    dsimp only
    split
    · rename_i passes
      obtain ⟨onCard, -⟩ := (Bool.and_eq_true _ _).mp passes
      have applied := fastScan_applied setup (drained setup) (some region) inv quiet
        visible slot (good onCard)
      exact ⟨applied.steps, applied.between, fun _ => applied.settled⟩
    · rename_i stopped
      refine ⟨.refl, quiet, fun onCard => .inl ?_⟩
      -- The value lies above the generations younger than the scanned one.
      have high : ¬ σ.words (.field obj offset) < c.start region := by
        intro low
        have scanned : onScannedCard cards isArray obj offset = true := onCard
        exact stopped (by simp [scanned, low])
      cases inside : c.inEden (σ.words (.field obj offset)) with
      | false => rfl
      | true =>
        simp only [Collector.inEden, Bool.and_eq_true, decide_eq_true_eq] at inside
        omega

theorem filtered_scans {region : Region} (above : c.edenEnd c.id ≤ c.start region)
    (cards : Nat → Card) (isArray : Bool) :
    Scans c start Good [.pop] (Quiet c start) (OnCards cards isArray)
      (filtered c region cards isArray) where
  steady := by simp
  steps inv quiet visible slot good :=
    (filtered_applied setup above cards isArray inv quiet visible slot good).1
  keeps inv quiet visible slot good :=
    (filtered_applied setup above cards isArray inv quiet visible slot good).2.1
  settles inv quiet visible slot good covered :=
    (filtered_applied setup above cards isArray inv quiet visible slot fun _ => good).2.2
      covered
  discovers inv quiet early listed :=
    (drained setup).keeps inv quiet (.single (.discover early listed)) rfl

theorem keepAlive_applied (inv : Inv c start Good σ) (quiet : Quiet c start σ)
    (visible : Visible c start σ.toHeap s) (slot : IsSlot σ.toHeap s)
    (good : GoodSlot c Good σ.toHeap s) :
    Applied c start Good [.pop] (Quiet c start) σ (keepAlive c σ s) s := by
  refine Applied.andThen setup (drained setup) inv ?_ (keepAliveCard_marks _ s)
  split
  · rename_i inside
    obtain ⟨steps, kept, settled⟩ :=
      (drained setup).redirect setup inv quiet visible slot (good inside)
    exact ⟨steps, kept, settled⟩
  · rename_i outside
    exact ⟨.refl, quiet, .inl (by simpa using outside)⟩

end ScanDrain
