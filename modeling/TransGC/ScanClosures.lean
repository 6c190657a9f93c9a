import TransGC.ScanInvariant

/-!
# What the closures of the scan achieve

Each closure is a sequence of steps and leaves the slot it was applied to settled. The scan of an
object leaves every slot of it settled or pending on a discovered list. A failed promotion inside
a closure is drained before it returns, so between two slots the failure stack is empty: `Quiet`.
-/
namespace ScanClosures
open EdenTable MarkWord ObjectHeap ObjectMoves EdenScan ScanSteps ScanInvariant List

/-- Objects forwarded to themselves are on the stack, among the exceptions, or scanned. -/
def Covered (c : Collector) (start : Heap) (except : List Nat) (σ : Scan) : Prop :=
  ∀ a ∈ start.edenObjects c.id, SelfForwarded c σ.toHeap a →
    a ∈ σ.failureStack ∨ a ∈ except ∨ Done c σ a

structure Quiet (c : Collector) (start : Heap) (σ : Scan) : Prop where
  stack : σ.failureStack = []
  covered : Covered c start [] σ

/-- A slot a closure may follow, or the referent of a reference that will be discovered. -/
def Admitted (c : Collector) (start : Heap) (Good : Nat → Prop) (σ : Scan) (s : Slot) : Prop :=
  GoodSlot c Good σ.toHeap s ∨
    Clearable c start s ∧ σ.discovering = true ∧
      GoodSlot c (fun a => a ∈ start.edenObjects c.id) σ.toHeap s

/-- An object that can be scanned by a closure that looks at the slots in `covers`. -/
structure Ready (c : Collector) (start : Heap) (Good : Nat → Prop) (covers : Slot → Prop)
    (σ : Scan) (obj : Nat) : Prop where
  visible : ∀ offset, Visible c start σ.toHeap (.field obj offset)
  strong : ∀ offset ∈ (σ.klass obj).strongSlots, covers (.field obj offset) →
    GoodSlot c Good σ.toHeap (.field obj offset)
  referent : (σ.klass obj).reference.isSome = true →
    c.regionOf obj = .gen1 ∨ covers (.field obj referentOffset) →
      Admitted c start Good σ (.field obj referentOffset)

variable {c : Collector} {start : Heap} {Good : Nat → Prop} {loops : List LoopStep}
  {covers : Slot → Prop} {σ τ : Scan} {a obj : Nat} {s : Slot}

/-! ### Sequences of steps -/

theorem steps_more {more : List LoopStep} (subset : loops ⊆ more)
    (steps : Steps c start Good loops σ τ) : Steps c start Good more σ τ := by
  refine Relation.ReflTransGen.mono ?_ _ _ steps
  intro υ ω step
  cases step with
  | copy good white fits => exact .copy good white fits
  | fail good white => exact .fail good white
  | redirect visible slot good black => exact .redirect visible slot good black
  | clear visible slot late weak dead => exact .clear visible slot late weak dead
  | discover early listed => exact .discover early listed
  | remove settled => exact .remove settled
  | pop allowed stack => exact .pop (subset allowed) stack
  | card marks => exact .card marks
  | advance allowed bound => exact .advance (subset allowed) bound
  | stopDiscovery allowed => exact .stopDiscovery (subset allowed)

theorem steps_discovering (steady : .stopDiscovery ∉ loops)
    (steps : Steps c start Good loops σ τ) : τ.discovering = σ.discovering := by
  induction steps with
  | refl => rfl
  | tail _ step ih =>
    rw [← ih]
    cases step with
    | stopDiscovery allowed => exact absurd allowed steady
    | _ => rfl

theorem steps_klass (setup : Setup c start Good) (inv : Inv c start Good σ)
    (steps : Steps c start Good loops σ τ)
    (visible : ∀ offset, Visible c start σ.toHeap (.field obj offset)) :
    τ.klass obj = σ.klass obj := by
  refine steps_keep_slot (P := fun υ => υ.klass obj = σ.klass obj) (s := .field obj 0) setup inv
    steps ?_ (visible 0) rfl
  intro υ ω inv step visible same
  exact (klass_step setup step inv visible).trans same

theorem steps_done (setup : Setup c start Good) (inv : Inv c start Good σ)
    (steps : Steps c start Good loops σ τ)
    (visible : ∀ offset, Visible c start σ.toHeap (.field obj offset)) (done : Done c σ obj) :
    Done c τ obj := by
  intro offset slot
  rw [steps_klass setup inv steps visible] at slot
  exact steps_handled setup inv steps (visible offset) (done offset slot)

theorem steps_ready (setup : Setup c start Good) (steady : .stopDiscovery ∉ loops)
    (inv : Inv c start Good σ) (steps : Steps c start Good loops σ τ)
    (ready : Ready c start Good covers σ obj) :
    Ready c start Good covers τ obj where
  visible := fun offset => steps_visible setup inv steps (ready.visible offset)
  strong := by
    intro offset slot covered
    rw [steps_klass setup inv steps ready.visible] at slot
    exact steps_goodSlot setup inv steps (ready.visible offset)
      (ready.strong offset slot covered)
  referent := by
    intro reference covered
    rw [steps_klass setup inv steps ready.visible] at reference
    rcases ready.referent reference covered with good | ⟨weak, discovering, inside⟩
    · exact .inl (steps_goodSlot setup inv steps (ready.visible _) good)
    · refine .inr ⟨weak, ?_, steps_goodSlot setup inv steps (ready.visible _) inside⟩
      rwa [steps_discovering steady steps]

theorem visible_of_selfForwarded (formed : WellFormed c start) (inv : Inv c start Good σ)
    (among : a ∈ start.edenObjects c.id) (itself : SelfForwarded c σ.toHeap a) (offset : Nat) :
    Visible c start σ.toHeap (.field a offset) := by
  obtain ⟨moved, valid⟩ := inv.valid
  have low := formed.eden_lt_top among
  have top := valid.top
  exact ⟨.inl (by omega), fun _ => itself.1⟩

theorem covered_steps (setup : Setup c start Good) (steady : .pop ∉ loops) {except : List Nat}
    (inv : Inv c start Good σ) (steps : Steps c start Good loops σ τ)
    (covered : Covered c start except σ) : Covered c start except τ := by
  refine steps_keep (P := Covered c start except) setup inv steps ?_ covered
  intro υ ω inv step covered a among itself
  rcases selfForwarded_cases setup step inv among itself with before | ⟨-, rfl⟩
  · rcases covered a among before with stacked | exception | done
    · left
      cases step with
      | fail good white => exact mem_cons_of_mem _ stacked
      | pop allowed stack => exact absurd allowed steady
      | _ => exact stacked
    · exact .inr (.inl exception)
    · exact .inr (.inr (done_step setup step inv
        (visible_of_selfForwarded setup.formed inv among before) done))
  · exact .inl mem_cons_self

/-! ### The scan of an object -/

/-- A sequence of steps that settles the slot if it is one of those the closure is there for. `K`
holds between two slots. -/
structure Scans (c : Collector) (start : Heap) (Good : Nat → Prop) (loops : List LoopStep)
    (K : Scan → Prop) (covers : Slot → Prop) (doOop : Scan → Slot → Scan) : Prop where
  steady : .stopDiscovery ∉ loops
  steps : ∀ {σ s}, Inv c start Good σ → K σ → Visible c start σ.toHeap s → IsSlot σ.toHeap s →
    (covers s → GoodSlot c Good σ.toHeap s) → Steps c start Good loops σ (doOop σ s)
  keeps : ∀ {σ s}, Inv c start Good σ → K σ → Visible c start σ.toHeap s → IsSlot σ.toHeap s →
    (covers s → GoodSlot c Good σ.toHeap s) → K (doOop σ s)
  settles : ∀ {σ s}, Inv c start Good σ → K σ → Visible c start σ.toHeap s → IsSlot σ.toHeap s →
    GoodSlot c Good σ.toHeap s → covers s →
      Settled c (doOop σ s).toHeap ((doOop σ s).words s)
  discovers : ∀ {σ kind r}, Inv c start Good σ → K σ → σ.discovering = true →
    Listed c start Good σ.toHeap kind r → K (σ.addDiscovered kind r)

variable {K : Scan → Prop} {doOop : Scan → Slot → Scan}

theorem Scans.fold (setup : Setup c start Good) (scans : Scans c start Good loops K covers doOop)
    (slots : List Slot) (inv : Inv c start Good σ) (between : K σ)
    (visible : ∀ s ∈ slots, Visible c start σ.toHeap s) (isSlot : ∀ s ∈ slots, IsSlot σ.toHeap s)
    (good : ∀ s ∈ slots, covers s → GoodSlot c Good σ.toHeap s) :
    Steps c start Good loops σ (slots.foldl doOop σ) ∧ K (slots.foldl doOop σ) ∧
      ∀ s ∈ slots, covers s →
        Settled c (slots.foldl doOop σ).toHeap ((slots.foldl doOop σ).words s) := by
  induction slots generalizing σ with
  | nil => exact ⟨.refl, between, fun _ among => by cases among⟩
  | cons s slots ih =>
    have seen := visible s mem_cons_self
    have slot := isSlot s mem_cons_self
    have held := good s mem_cons_self
    have first := scans.steps inv between seen slot held
    have after := inv.steps setup first
    obtain ⟨rest, kept, settled⟩ := ih after (scans.keeps inv between seen slot held)
      (fun t among => steps_visible setup inv first
        (visible t (mem_cons_of_mem s among)))
      (fun t among => steps_isSlot setup inv first
        (visible t (mem_cons_of_mem s among)) (isSlot t (mem_cons_of_mem s among)))
      (fun t among covered => steps_goodSlot setup inv first
        (visible t (mem_cons_of_mem s among)) (good t (mem_cons_of_mem s among) covered))
    refine ⟨.trans first rest, kept, fun t among covered => ?_⟩
    rcases mem_cons.mp among with rfl | later
    · exact steps_settled setup after rest (steps_visible setup inv first seen)
        (scans.settles inv between seen slot (held covered) covered)
    · exact settled t later covered

theorem discoverReference_cases {kind : ReferenceType} {r : Nat}
    (found : discoverReference c σ r kind = some τ) :
    σ.discovering = true ∧ σ.words (.field r nextOffset) = 0 ∧ c.regionOf r = .gen1 ∧
      (kind = .soft → c.shouldClear r = true) ∧
      (r ∈ σ.discovered kind ∧ τ = σ ∨ kind ≠ .other ∧ τ = σ.addDiscovered kind r) := by
  simp only [discoverReference, Option.ite_none_left_eq_some] at found
  obtain ⟨discovering, active, region, policy, found⟩ := found
  refine ⟨by simpa using discovering, not_not.mp active, not_not.mp region, ?_, ?_⟩
  · intro soft
    by_contra keep
    exact policy ⟨soft, by simpa using keep⟩
  · split at found
    · rename_i among
      cases found
      exact .inl ⟨among, rfl⟩
    · obtain ⟨typed, ⟨⟩⟩ := Option.ite_none_left_eq_some.mp found
      exact .inr ⟨typed, rfl⟩

theorem discoverReference_ne_none {kind : ReferenceType} {r : Nat}
    (discovering : σ.discovering = true) (active : σ.words (.field r nextOffset) = 0)
    (region : c.regionOf r = .gen1) (policy : kind = .soft → c.shouldClear r = true)
    (typed : kind ≠ .other) : discoverReference c σ r kind ≠ none := by
  have keep : ¬ (kind = .soft ∧ c.shouldClear r = false) := by
    rintro ⟨soft, clear⟩
    rw [policy soft] at clear
    cases clear
  unfold discoverReference
  rw [if_neg (by simp [discovering]), if_neg (by simp [active]), if_neg (by simp [region]),
    if_neg keep]
  split
  · exact Option.some_ne_none _
  · exact Option.some_ne_none _

/-- A reference with a clearable referent is discovered as long as discovery is on. -/
theorem discoverReference_of_clearable (formed : WellFormed c start) (inv : Inv c start Good σ)
    {kind : ReferenceType} (ofKind : (σ.klass obj).reference = some kind)
    (weak : Clearable c start (.field obj referentOffset)) (discovering : σ.discovering = true) :
    discoverReference c σ obj kind ≠ none := by
  obtain ⟨moved, valid⟩ := inv.valid
  obtain ⟨-, region, active, typed⟩ := weak
  have low := gen1_lt_top formed region
  rw [valid.klass obj (.inl low)] at ofKind
  refine discoverReference_ne_none discovering ?_ region ?_ ?_
  · rcases valid.words (.field obj nextOffset) (.inl low) with (same | ⟨among, -⟩) | ⟨-, zero⟩
    · rw [same, active]
    · rw [active] at among
      exact absurd rfl (formed.ne_zero (formed.inEden _ among))
    · exact zero
  · rintro rfl
    rcases typed with other | ⟨-, clear⟩
    · rw [ofKind] at other
      cases other
    · exact clear
  · rintro rfl
    rw [ofKind] at typed
    rcases typed with other | ⟨other, -⟩ <;> cases other

theorem settled_zero (formed : WellFormed c start) {value : Nat} (zero : value = 0) :
    Settled c σ.toHeap value := .inl (by rw [zero]; exact formed.inEden_zero)

theorem goodSlot_of_forwarded (inv : Inv c start Good σ)
    (inside : GoodSlot c (fun a => a ∈ start.edenObjects c.id) σ.toHeap s)
    (marked : σ.isForwarded (σ.words s) = true) : GoodSlot c Good σ.toHeap s := by
  obtain ⟨moved, valid⟩ := inv.valid
  intro target
  exact valid.good_of_forwarded (inside target) marked

theorem next_mem_strongSlots {klass : Klass} {kind : ReferenceType}
    (ofKind : klass.reference = some kind) : nextOffset ∈ klass.strongSlots := by
  simp [Klass.strongSlots, ofKind]

theorem isSlot_referent {kind : ReferenceType} (ofKind : (σ.klass obj).reference = some kind) :
    IsSlot σ.toHeap (.field obj referentOffset) := by
  simp [IsSlot, Klass.slots, ofKind]

theorem isSlot_next {kind : ReferenceType} (ofKind : (σ.klass obj).reference = some kind) :
    IsSlot σ.toHeap (.field obj nextOffset) := by
  simp [IsSlot, Klass.slots, ofKind]

theorem Scans.iterateReference (setup : Setup c start Good)
    (scans : Scans c start Good loops K covers doOop) {kind : ReferenceType}
    (ofKind : (σ.klass obj).reference = some kind) (ready : Ready c start Good covers σ obj)
    (inv : Inv c start Good σ) (between : K σ) :
    Steps c start Good loops σ (iterateReference c doOop σ obj kind) ∧
      K (iterateReference c doOop σ obj kind) ∧
      ∀ offset, offset = referentOffset ∨ offset = nextOffset → covers (.field obj offset) →
        Handled c (iterateReference c doOop σ obj kind) (.field obj offset) := by
  have referent := ready.visible referentOffset
  have next := ready.visible nextOffset
  have goodNext := ready.strong nextOffset (next_mem_strongSlots ofKind)
  unfold EdenScan.iterateReference
  dsimp only
  split
  · rename_i zero
    have steps := scans.steps inv between next (isSlot_next ofKind) goodNext
    refine ⟨steps, scans.keeps inv between next (isSlot_next ofKind) goodNext, ?_⟩
    rintro offset (rfl | rfl) covered
    · exact .inl (steps_settled setup inv steps referent (settled_zero setup.formed zero))
    · exact .inl (scans.settles inv between next (isSlot_next ofKind) (goodNext covered) covered)
  · rename_i nonNull
    split
    · rename_i ω found
      split at found
      · cases found
      · obtain ⟨discovering, active, region, policy, outcome⟩ := discoverReference_cases found
        have settledNext : Settled c σ.toHeap (σ.words (.field obj nextOffset)) :=
          settled_zero setup.formed active
        rcases outcome with ⟨among, rfl⟩ | ⟨typed, rfl⟩
        · refine ⟨.refl, between, ?_⟩
          rintro offset (rfl | rfl) -
          · exact .inr ⟨kind, obj, rfl, among⟩
          · exact .inl settledNext
        · have admitted := ready.referent (by rw [ofKind]; rfl) (.inl region)
          have inside : GoodSlot c (· ∈ start.edenObjects c.id) σ.toHeap
              (.field obj referentOffset) := by
            rcases admitted with good | ⟨-, -, inside⟩
            · exact fun target => setup.closed.eden _ (good target)
            · exact inside
          have listed : Listed c start Good σ.toHeap kind obj :=
            ⟨region, ofKind, active, policy, typed, referent, inside, admitted.imp id And.left⟩
          refine ⟨.single (.discover discovering listed),
            scans.discovers inv between discovering listed, ?_⟩
          rintro offset (rfl | rfl) -
          · exact .inr ⟨kind, obj, rfl, mem_addDiscovered.mpr (.inl ⟨rfl, rfl⟩)⟩
          · exact .inl settledNext
    · rename_i found
      -- Not discovered: the referent is forwarded already or may be followed.
      have good : covers (.field obj referentOffset) →
          GoodSlot c Good σ.toHeap (.field obj referentOffset) := by
        intro covered
        rcases ready.referent (by rw [ofKind]; rfl) (.inr covered) with good | ⟨weak, discovering, inside⟩
        · exact good
        · split at found
          · rename_i marked
            exact goodSlot_of_forwarded inv inside marked
          · exact absurd found (discoverReference_of_clearable setup.formed inv ofKind weak discovering)
      obtain ⟨steps, kept, settled⟩ := scans.fold setup
        [.field obj referentOffset, .field obj nextOffset] inv between
        (by simpa using ⟨referent, next⟩)
        (by simpa using ⟨isSlot_referent ofKind, isSlot_next ofKind⟩)
        (by simpa using ⟨good, goodNext⟩)
      refine ⟨steps, kept, ?_⟩
      rintro offset (rfl | rfl) covered
      · exact .inl (settled _ (by simp) covered)
      · exact .inl (settled _ (by simp) covered)

theorem Scans.oopIterate (setup : Setup c start Good)
    (scans : Scans c start Good loops K covers doOop) (ready : Ready c start Good covers σ obj)
    (inv : Inv c start Good σ) (between : K σ) :
    Steps c start Good loops σ (oopIterate c doOop σ obj) ∧ K (oopIterate c doOop σ obj) ∧
      ∀ offset ∈ (σ.klass obj).slots, covers (.field obj offset) →
        Handled c (oopIterate c doOop σ obj) (.field obj offset) := by
  have strong : ∀ offset ∈ (σ.klass obj).oops, offset ∈ (σ.klass obj).strongSlots := by
    intro offset among
    unfold Klass.strongSlots
    split
    · exact mem_append_left _ among
    · exact among
  have ordinary : ∀ offset ∈ (σ.klass obj).oops, IsSlot σ.toHeap (.field obj offset) := by
    intro offset among
    unfold IsSlot Klass.slots
    dsimp only
    split
    · exact mem_append_left _ among
    · exact among
  obtain ⟨first, kept, settled⟩ := scans.fold setup
    ((σ.klass obj).oops.map (Slot.field obj)) inv between
    (by simpa using fun offset _ => ready.visible offset) (by simpa using ordinary)
    (by simpa using fun offset among covered => ready.strong offset (strong offset among) covered)
  rw [foldl_map] at first kept settled
  have after := inv.steps setup first
  have same := steps_klass setup inv first ready.visible
  have settledOops : ∀ offset ∈ (σ.klass obj).oops, covers (.field obj offset) → _ :=
    fun offset among => settled _ (mem_map_of_mem among)
  unfold EdenScan.oopIterate
  dsimp only
  split
  · rename_i plain
    refine ⟨first, kept, fun offset slot covered => ?_⟩
    rw [same] at plain
    rw [Klass.slots, plain] at slot
    exact .inl (settledOops offset slot covered)
  · rename_i kind ofKind
    obtain ⟨second, kept, handled⟩ := scans.iterateReference setup ofKind
      (steps_ready setup scans.steady inv first ready) after kept
    refine ⟨.trans first second, kept, fun offset slot covered => ?_⟩
    rw [same] at ofKind
    rw [Klass.slots, ofKind] at slot
    rcases mem_append.mp slot with ordinary | special
    · exact .inl (steps_settled setup after second
        (steps_visible setup inv first (ready.visible offset))
        (settledOops offset ordinary covered))
    · exact handled offset (by simpa using special) covered

/-! ### One slot -/

/-- What has to be known of the treatment of the failure stack. -/
structure Draining (c : Collector) (start : Heap) (Good : Nat → Prop) (loops : List LoopStep)
    (K : Scan → Prop) (drain : Scan → Scan) : Prop where
  steady : .stopDiscovery ∉ loops
  drains : ∀ {σ a}, Inv c start Good σ → K σ → Good a → σ.isForwarded a = false →
    Steps c start Good loops (handlePromotionFailure c σ a)
        (drain (handlePromotionFailure c σ a)) ∧
      K (drain (handlePromotionFailure c σ a))
  keeps : ∀ {σ τ}, Inv c start Good σ → K σ → Steps c start Good [] σ τ →
    τ.failureStack = σ.failureStack → K τ

variable {drain : Scan → Scan}

theorem Draining.redirect_forwarded (setup : Setup c start Good)
    (draining : Draining c start Good loops K drain) (inv : Inv c start Good σ) (between : K σ)
    (visible : Visible c start σ.toHeap s) (slot : IsSlot σ.toHeap s) (good : Good (σ.words s))
    (black : σ.isForwarded (σ.words s) = true) {target : Nat}
    (same : c.forwardee σ.toHeap (σ.words s) = target) :
    Steps c start Good loops σ (σ.store s target) ∧ K (σ.store s target) ∧
      Settled c (σ.store s target).toHeap ((σ.store s target).words s) := by
  obtain ⟨moved, valid⟩ := inv.valid
  have step : Step c start Good [] σ (σ.store s target) := by
    rw [← same]
    exact .redirect visible slot good black
  refine ⟨steps_more (nil_subset _) (.single step),
    draining.keeps inv between (.single step) rfl, ?_⟩
  have own : (σ.store s target).words s = target := Function.update_self ..
  have settled := valid.settled_forwardee setup.formed (setup.closed.eden _ good) black
  rw [same] at settled
  rw [own]
  exact settled

/-- A slot that points to an object forwarded to itself stays as it is. -/
theorem steps_words_self (setup : Setup c start Good) (inv : Inv c start Good σ)
    (steps : Steps c start Good loops σ τ) (visible : Visible c start σ.toHeap s)
    (among : a ∈ start.edenObjects c.id) (itself : SelfForwarded c σ.toHeap a)
    (points : σ.words s = a) : SelfForwarded c τ.toHeap a ∧ τ.words s = a := by
  refine steps_keep_slot (P := fun υ => SelfForwarded c υ.toHeap a ∧ υ.words s = a) setup
    inv steps ?_ visible ⟨itself, points⟩
  rintro υ ω inv step visible ⟨⟨marked, itself⟩, points⟩
  obtain ⟨moved, valid⟩ := inv.valid
  have inside := setup.formed.inEden a among
  obtain ⟨black, same⟩ := step.forwarded setup.formed valid inside marked
  refine ⟨⟨black, same.trans itself⟩, ?_⟩
  cases step.evolves setup valid visible with
  | same kept => exact kept.trans points
  | redirected good forwarded moved => rw [moved, points, same, itself]
  | cleared weak late dead zero =>
    rw [points] at dead
    rcases dead with null | ⟨-, white⟩
    · exact absurd null (setup.formed.ne_zero inside)
    · rw [marked] at white
      cases white

theorem Draining.redirect (setup : Setup c start Good)
    (draining : Draining c start Good loops K drain) (inv : Inv c start Good σ) (between : K σ)
    (visible : Visible c start σ.toHeap s) (slot : IsSlot σ.toHeap s) (good : Good (σ.words s)) :
    Steps c start Good loops σ (redirect c drain σ s) ∧ K (redirect c drain σ s) ∧
      Settled c (redirect c drain σ s).toHeap ((redirect c drain σ s).words s) := by
  obtain ⟨moved, valid⟩ := inv.valid
  have among := setup.closed.eden _ good
  unfold EdenScan.redirect
  dsimp only
  split
  · rename_i black
    exact draining.redirect_forwarded setup inv between visible slot good black rfl
  · rename_i unmarked
    have white : σ.isForwarded (σ.words s) = false := by simpa using unmarked
    unfold copyToSurvivorSpace promote
    split
    · rename_i copied found
      split at found
      · rename_i granted
        cases found
        have step : Step c start Good [] σ _ := .copy good white granted.1
        have size := valid.size_pos setup.formed among
        have points : ((σ.copyToTop (σ.words s)).forwardTo (σ.words s) σ.oldTop).words s =
            σ.words s := by
          refine (copy_moves σ _).words_of_ne ?_
          rintro offset rfl
          have := visible.1
          omega
        have pointer : ((σ.copyToTop (σ.words s)).forwardTo (σ.words s) σ.oldTop).mark
            (σ.words s) = encodePointerAsMark (8 * σ.oldTop) := (copy_moves σ _).mark_self
        have forwards : c.forwardee ((σ.copyToTop (σ.words s)).forwardTo (σ.words s)
            σ.oldTop).toHeap (((σ.copyToTop (σ.words s)).forwardTo (σ.words s) σ.oldTop).words s) =
            σ.oldTop := by
          rw [points]
          exact forwardee_of_mark pointer
        obtain ⟨second, kept, settled⟩ := draining.redirect_forwarded setup
          (inv.step setup step) (draining.keeps inv between (.single step) rfl)
          (step.visible setup.formed valid visible) (isSlot_step setup step inv visible slot)
          (by rwa [points])
          (by rw [points]; exact isForwarded_of_mark pointer) forwards
        exact ⟨.trans (steps_more (nil_subset _) (.single step)) second, kept, settled⟩
      · cases found
    · have step : Step c start Good [] σ _ := .fail good white
      have pointer := Function.update_self (σ.words s) (encodePointerAsMark (8 * σ.words s)) σ.mark
      have after := inv.step setup step
      obtain ⟨second, kept⟩ := draining.drains inv between good white
      have first := steps_more (nil_subset loops) (.single step)
      have seen := step.visible setup.formed valid visible
      obtain ⟨itself, points⟩ := steps_words_self setup after second seen among
        ⟨isForwarded_of_mark pointer, forwardee_of_mark pointer⟩ rfl
      have forwards : c.forwardee (drain (handlePromotionFailure c σ (σ.words s))).toHeap
          ((drain (handlePromotionFailure c σ (σ.words s))).words s) = σ.words s := by
        rw [points]
        exact itself.2
      obtain ⟨third, kept, settled⟩ := draining.redirect_forwarded setup
        (after.steps setup second) kept (steps_visible setup after second seen)
        (steps_isSlot setup after second seen
          (isSlot_step setup step inv visible slot))
        (by rwa [points]) (by rw [points]; exact itself.1) forwards
      exact ⟨.trans first (.trans second third), kept, settled⟩

end ScanClosures
