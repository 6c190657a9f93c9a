import TransGC.EdenReachability
import TransGC.ScavengeReferences

/-!
# What a scavenge reaches

The strongly reachable objects of eden and from-space are those that a chain of ordinary references
leads to, from a root or from a slot outside gen0. When the followers closure returns for the first
time all of them are copied; from then on a slot that pointed to one of them follows it.
-/
namespace ScavengeReachability
open EdenTable MarkWord ObjectHeap ObjectMoves YoungScavenge ScavengeSteps ScavengeInvariant ScavengeOperations
  ScavengeClosures ScavengePhases ScavengeReferences List

/-- References outside gen0 are not discovered, so their referents are among the roots. -/
inductive RootSlot (c : Scavenger) (young : YoungHeap) : Slot → Prop
  | root {i : Nat} (bound : i < c.rootCount) : RootSlot c young (.root i)
  | field {obj offset : Nat} (outer : obj ∈ outside young)
      (slot : offset ∈ (young.klass obj).slots) : RootSlot c young (.field obj offset)

inductive Reachable (c : Scavenger) (young : YoungHeap) : Nat → Prop
  | direct {s : Slot} (held : RootSlot c young s) (inside : young.words s ∈ young.sources) :
      Reachable c young (young.words s)
  | step {a offset : Nat} (reached : Reachable c young a)
      (strong : offset ∈ (young.klass a).strongSlots)
      (inside : young.words (.field a offset) ∈ young.sources) :
      Reachable c young (young.words (.field a offset))

/-- Every old or permanent slot that points into gen0 lies on a card that is not clean. -/
def CardsMarked (c : Scavenger) (young : YoungHeap) : Prop :=
  ∀ region objects,
    (region, objects) ∈ [(Region.old, (young.room .tenured).objects), (Region.perm, young.perm)] →
      ∀ obj ∈ objects, ∀ offset ∈ (young.klass obj).slots,
        c.inGen0 (young.words (.field obj offset)) = true →
          young.cards region (cardFor (obj + offset)) ≠ .clean

variable {c : Scavenger} {start young : YoungHeap} {touch : Slot → Prop} {loops : List LoopStep}
  {σ τ υ : Scan} {a b obj offset value : Nat} {d : Destination} {s : Slot} {m : Move}
  {moved : List Move}

theorem Reachable.among (reached : Reachable c start a) : a ∈ start.sources := by
  cases reached with
  | direct held inside => exact inside
  | step reached strong inside => exact inside

theorem RootSlot.outer (held : RootSlot c start s) : Outer start s := by
  cases held with
  | root bound => trivial
  | field outer slot => exact outer

theorem RootSlot.visible (held : RootSlot c start s) : Visible (startScan start) s := by
  cases held with
  | root bound => trivial
  | field outer slot => exact visible_of_outside outer _

/-! ### Up to the first return of the followers closure -/

variable (formed : Startable c start)
include formed

theorem rootSlot_settled (cards : CardsMarked c start)
    (steps : Steps c start touch loops (startScan start) σ) (done : RootsDone c start σ)
    (held : RootSlot c start s) : σ.words s ∉ start.sources := by
  have unmarked : c.inGen0 (start.words s) = false → σ.words s ∉ start.sources := by
    intro elsewhere
    apply steps_not_source formed (startScan_inv formed) steps held.visible
    intro among
    have inside := (formed.sources _ among).1
    change c.inGen0 (start.words s) = true at inside
    rw [elsewhere] at inside
    cases inside
  cases points : c.inGen0 (start.words s) with
  | false => exact unmarked points
  | true =>
    cases held with
    | root bound => exact done.roots _ bound
    | @field obj offset outer slot =>
      have looked : ∀ region objects, (region, objects) ∈
          [(Region.old, (start.room .tenured).objects), (Region.perm, start.perm)] →
          obj ∈ objects → σ.words (.field obj offset) ∉ start.sources :=
        fun region objects listed among => done.cards region objects listed obj among offset slot
          (cards region objects listed obj among offset slot points)
      simp only [outside, mem_append] at outer
      rcases outer with (eden | tenured) | permanent
      · exact done.edens obj eden offset slot
      · exact looked .old _ (by simp) tenured
      · exact looked .perm _ (by simp) permanent

structure Traced (c : Scavenger) (start : YoungHeap) (σ : Scan) : Prop where
  steps : Steps c start Strong [.advance] (startScan start) σ
  resting : Resting c start σ
  caughtUp : CaughtUp σ
  fresh : ∀ kind, Fresh c start σ kind
  roots : ∀ s, RootSlot c start s → σ.words s ∉ start.sources

theorem trace_done (cards : CardsMarked c start) (success : (evacuateFollowers c
      (genProcessStrongRoots c (startScan start))).promotionFailed = false) :
    Traced c start (evacuateFollowers c (genProcessStrongRoots c (startScan start))) := by
  obtain ⟨first, roots⟩ := genProcessStrongRoots_done formed
    (succeeded_before (evacuateFollowers_operations _) success)
  generalize genProcessStrongRoots c (startScan start) = σ at success first roots ⊢
  have inv := inv_steps formed (startScan_inv formed) first
  have marks : σ.savedMark = fun d => (start.room d).objects.length :=
    steps_savedMark (by simp) first
  have rest : Resting c start σ := by
    refine ⟨inv, ?_, (steps_control first).1, (steps_control first).2⟩
    intro d k obj above below
    rw [marks] at below
    exact absurd below (Nat.not_lt.mpr above)
  -- only copies are discovered, and none has been scanned so far
  have fresh : ∀ kind, Fresh c start σ kind := by
    intro kind r among
    have survivor := (inv.lists kind r among).survivor
    simp [marks, formed.vacated] at survivor
  obtain ⟨second, caughtUp⟩ := evacuateFollowers_done formed rest success
  have strong : ∀ s, ¬ Visible σ s → Strong s := by
    rintro s hidden i rfl
    exact hidden trivial
  refine ⟨.trans (steps_more (fun _ touched => touched) (nil_subset _) first)
    (steps_more strong (List.Subset.refl _) second.steps), second.resting, caughtUp,
    fun kind => second.fresh kind (fresh kind), fun s held => ?_⟩
  exact steps_not_source formed inv second.steps (steps_visible first held.visible)
    (rootSlot_settled formed cards first roots held)

/-! ### Copies -/

omit formed in
/-- The copies are all scanned when the followers closure returns. -/
theorem copy_handled (resting : Resting c start σ) (caughtUp : CaughtUp σ)
    (valid : Valid c start σ.toYoungHeap moved) (listed : m ∈ moved)
    (slot : offset ∈ (start.klass m.source).slots) : Handled start σ (.field m.target offset) := by
  have among : m.target ∈ (moved.filter fun n => n.dest = m.dest).map Move.target :=
    mem_map_of_mem (mem_filter.mpr ⟨listed, by simp⟩)
  obtain ⟨k, found⟩ := getElem?_of_mem among
  have place : (σ.room m.dest).objects[(start.room m.dest).objects.length + k]? = some m.target := by
    rw [valid.objects, getElem?_append_right (Nat.le_add_right _ _), Nat.add_sub_cancel_left]
    exact found
  refine resting.swept m.dest _ m.target (Nat.le_add_right _ _) ?_ place offset ?_
  · rw [caughtUp]
    exact (List.getElem?_eq_some_iff.mp place).1
  · rwa [valid.copyKlass m listed]

omit formed in
theorem move_of_carries (carries : Carries moved a value) (among : a ∈ start.sources)
    (settled : value ∉ start.sources) : ∃ m ∈ moved, m.source = a ∧ m.target = value := by
  rcases carries with rfl | moves
  · exact absurd among settled
  · exact moves

theorem referent_not_strong (among : a ∈ start.sources) {kind : ReferenceType}
    (ofKind : (start.klass a).reference = some kind) :
    referentOffset ∉ (start.klass a).strongSlots := by
  have distinct := formed.oopMaps a (allObjects_of_source among)
  rw [slots_of_reference ofKind] at distinct
  apply EdenReachability.referent_not_strong
  · rw [ofKind]
    rfl
  · exact fun ordinary => disjoint_of_nodup_append distinct ordinary (by simp)

/-- The ordinary references of a copy that was scanned are settled, and were not cleared. -/
theorem copy_strong (inv : Inv c start σ) (valid : Valid c start σ.toYoungHeap moved)
    (listed : m ∈ moved) (strong : offset ∈ (start.klass m.source).strongSlots)
    (handled : Handled start σ (.field m.target offset)) :
    σ.words (.field m.target offset) ∉ start.sources ∧
      Carries moved (start.words (.field m.source offset)) (σ.words (.field m.target offset)) := by
  have among := (valid.source m listed).1
  constructor
  · rcases handled with settled | ⟨kind, r, same, discovered⟩
    · exact settled
    · obtain ⟨rfl, rfl⟩ := Slot.field.inj same
      have ofKind := (inv.lists kind _ discovered).ofKind
      rw [valid.copyKlass m listed] at ofKind
      exact absurd strong (referent_not_strong formed among ofKind)
  · rcases valid.copySlots m listed offset with carries | ⟨⟨rfl, -, -, weak | ⟨soft, -⟩⟩, -⟩
    · exact carries
    · exact absurd strong (referent_not_strong formed among weak)
    · exact absurd strong (referent_not_strong formed among soft)

theorem moved_of_reachable (traced : Traced c start σ) (valid : Valid c start σ.toYoungHeap moved)
    (reached : Reachable c start a) : ∃ m ∈ moved, m.source = a := by
  induction reached with
  | @direct s held inside =>
    have carries : Carries moved (start.words s) (σ.words s) := by
      rcases valid.words s held.outer.inPlace with carries | ⟨⟨i, rfl⟩, -⟩
      · exact carries
      · cases held
    obtain ⟨m, listed, source, -⟩ := move_of_carries carries inside (traced.roots s held)
    exact ⟨m, listed, source⟩
  | @step a offset reached strong inside ih =>
    obtain ⟨m, listed, rfl⟩ := ih
    have handled := copy_handled traced.resting traced.caughtUp valid listed
      (ScanDrain.strongSlots_subset strong)
    obtain ⟨settled, carries⟩ := copy_strong formed traced.resting.inv valid listed strong handled
    obtain ⟨n, moves, source, -⟩ := move_of_carries carries inside settled
    exact ⟨n, moves, source⟩

theorem forwarded_of_reachable (traced : Traced c start σ) (reached : Reachable c start a) :
    σ.isForwarded a = true := by
  obtain ⟨moved, valid⟩ := traced.resting.inv.valid
  obtain ⟨m, listed, rfl⟩ := moved_of_reachable formed traced valid reached
  exact isForwarded_of_mark (valid.source m listed).2

/-! ### Slots that follow an object -/

/-- The value is the address of the object, or its new address. -/
def Points (c : Scavenger) (σ : Scan) (a value : Nat) : Prop :=
  value = a ∨ σ.isForwarded a = true ∧ value = c.forwardee σ.toYoungHeap a

theorem step_mark_of_forwarded (step : Step c start touch loops σ τ)
    (valid : Valid c start σ.toYoungHeap moved) (among : a ∈ start.sources)
    (black : σ.isForwarded a = true) : τ.mark a = σ.mark a := by
  obtain ⟨more, after⟩ := step.valid formed.toWellFormed formed.vacated valid
  obtain ⟨m, listed, rfl⟩ := valid.forwarded a among black
  exact (after.source m (mem_append_left _ listed)).2.trans (valid.source m listed).2.symm

theorem step_forwardee (step : Step c start touch loops σ τ)
    (valid : Valid c start σ.toYoungHeap moved) (among : a ∈ start.sources)
    (black : σ.isForwarded a = true) :
    c.forwardee τ.toYoungHeap a = c.forwardee σ.toYoungHeap a := by
  unfold Scavenger.forwardee
  rw [step_mark_of_forwarded formed step valid among black]

/-- A slot is not cleared while references are still discovered, nor if its target is copied. -/
theorem points_step (step : Step c start touch loops σ τ) (inv : Inv c start σ)
    (known : KnownSlot σ s) (among : a ∈ start.sources)
    (safe : σ.discovering = true ∨ σ.isForwarded a = true) (points : Points c σ a (σ.words s)) :
    Points c τ a (τ.words s) := by
  obtain ⟨moved, valid⟩ := inv.valid
  have copy : ∀ value, σ.isForwarded a = true ∧ value = c.forwardee σ.toYoungHeap a →
      value ∉ start.sources ∧ value ≠ 0 := by
    rintro value ⟨black, rfl⟩
    obtain ⟨m, listed, -, target⟩ := valid.target_of_forwarded among black
    rw [← target]
    exact ⟨valid.target_not_source formed.toWellFormed listed,
      formed.inRoom_ne_zero (valid.target_inRoom formed.toWellFormed listed)⟩
  cases step_evolves formed step valid known with
  | same kept =>
    rw [kept]
    rcases points with same | ⟨black, same⟩
    · exact .inl same
    · refine .inr ⟨step_forwarded formed step valid among black, ?_⟩
      rw [step_forwardee formed step valid among black]
      exact same
  | redirected touched visible inside black moves =>
    rcases points with same | new
    · rw [same] at black moves
      exact .inr ⟨black, moves⟩
    · exact absurd inside (copy _ new).1
  | cleared touched visible late weak dead zero =>
    have black : σ.isForwarded a = true := by
      rcases safe with early | black
      · rw [late] at early
        cases early
      · exact black
    rcases points with same | new
    · rw [same] at dead
      rcases dead with null | ⟨-, white⟩
      · exact absurd null (formed.source_ne_zero among)
      · rw [black] at white
        cases white
    · rcases dead with null | ⟨inside, -⟩
      · exact absurd null (copy _ new).2
      · exact absurd inside (copy _ new).1

/-- Every slot that pointed to the object still does, in what stays and in the copies. -/
structure Follows (c : Scavenger) (start : YoungHeap) (a : Nat) (σ : Scan) : Prop where
  outer : ∀ s, Outer start s → start.words s = a → Points c σ a (σ.words s)
  copies : ∀ b ∈ start.sources, σ.isForwarded b = true →
    ∀ offset, start.words (.field b offset) = a →
      Points c σ a (σ.words (.field (c.forwardee σ.toYoungHeap b) offset))

omit formed in
theorem knownSlot_of_outer (valid : Valid c start σ.toYoungHeap moved) (outer : Outer start s) :
    KnownSlot σ s := by
  cases s with
  | field obj offset =>
    have outer : obj ∈ outside start := outer
    simp only [outside, mem_append] at outer
    rcases outer with (eden | tenured) | permanent
    · left
      rw [valid.edenObjects]
      exact eden
    · right
      right
      refine ⟨.tenured, ?_⟩
      rw [valid.objects]
      exact mem_append_left _ tenured
    · right
      left
      rw [valid.perm]
      exact permanent
  | _ => trivial

omit formed in
theorem known_of_moved (valid : Valid c start σ.toYoungHeap moved) (listed : m ∈ moved) :
    Known σ m.target := by
  refine .inr (.inr ⟨m.dest, ?_⟩)
  rw [valid.objects]
  exact mem_append_right _
    (mem_map_of_mem (mem_filter.mpr ⟨listed, by simp⟩))

theorem copied_of_forwarded (step : Step c start touch loops σ τ)
    (valid : Valid c start σ.toYoungHeap moved) (inside : b ∈ start.sources)
    (white : σ.isForwarded b = false) (black : τ.isForwarded b = true) :
    ∃ d, τ = evacuate σ d b := by
  have unchanged : τ.mark b = σ.mark b → False := by
    intro same
    unfold Memory.isForwarded at white black
    rw [same, white] at black
    cases black
  cases step with
  | @copy d a among new room =>
    by_cases own : b = a
    · subst own
      exact ⟨d, rfl⟩
    · have vacant := valid.fresh_of_fits formed.toWellFormed among room
      refine absurd ?_ unchanged
      exact (evacuate_moves σ d a).mark_of_ne own (vacant.source b inside)
  | _ => exact absurd rfl unchanged

theorem follows_step (step : Step c start touch loops σ τ) (inv : Inv c start σ)
    (among : a ∈ start.sources) (safe : σ.discovering = true ∨ σ.isForwarded a = true)
    (follows : Follows c start a σ) : Follows c start a τ := by
  obtain ⟨moved, valid⟩ := inv.valid
  constructor
  · intro s outer pointed
    exact points_step formed step inv (knownSlot_of_outer valid outer) among safe
      (follows.outer s outer pointed)
  · intro b inside black offset pointed
    cases before : σ.isForwarded b with
    | true =>
      obtain ⟨m, listed, -, target⟩ := valid.target_of_forwarded inside before
      have known : Known σ (c.forwardee σ.toYoungHeap b) := target ▸ known_of_moved valid listed
      rw [step_forwardee formed step valid inside before]
      exact points_step (s := .field _ offset) formed step inv known among safe
        (follows.copies b inside before offset pointed)
    | false =>
      obtain ⟨d, rfl⟩ := copied_of_forwarded formed step valid inside before black
      have moves := evacuate_moves σ d b
      left
      rw [forwardee_of_mark moves.mark_self, moves.field, if_pos rfl, valid.sourceWords b inside]
      exact pointed

/-- No slot is cleared up to the first return of the followers closure. -/
theorem Traced.follows (traced : Traced c start σ) (among : a ∈ start.sources) :
    Follows c start a σ := by
  have begins : Follows c start a (startScan start) := by
    refine ⟨fun s _ pointed => .inl pointed, fun b inside black => ?_⟩
    have white := formed.unmarked b inside
    change start.isForwarded b = true at black
    rw [white] at black
    cases black
  refine (steps_keep (P := fun υ => υ.discovering = true ∧ Follows c start a υ) formed
    (startScan_inv formed) traced.steps ?_ ⟨rfl, begins⟩).2
  rintro υ ω inv step ⟨early, follows⟩
  exact ⟨(steps_discovering (by simp) (.single step)).trans early,
    follows_step formed step inv among (.inl early) follows⟩

theorem follows_later (inv : Inv c start σ) (steps : Steps c start touch loops σ τ)
    (among : a ∈ start.sources) (black : σ.isForwarded a = true) (follows : Follows c start a σ) :
    Follows c start a τ := by
  refine (steps_keep (P := fun υ => υ.isForwarded a = true ∧ Follows c start a υ) formed inv steps
    ?_ ⟨black, follows⟩).2
  rintro υ ω inv step ⟨black, follows⟩
  obtain ⟨moved, valid⟩ := inv.valid
  exact ⟨step_forwarded formed step valid among black,
    follows_step formed step inv among (.inr black) follows⟩

/-! ### The end of the scan -/

/-- The slots that a scavenge leaves in place. -/
inductive OuterSlot (c : Scavenger) (young : YoungHeap) : Slot → Prop
  | held {s : Slot} (root : RootSlot c young s) : OuterSlot c young s
  | weakRoot {i : Nat} (bound : i < c.weakRootCount) : OuterSlot c young (.weakRoot i)

omit formed in
theorem OuterSlot.outer (slot : OuterSlot c start s) : Outer start s := by
  cases slot with
  | held root => exact root.outer
  | weakRoot bound => trivial

/-- No slot points to an object of eden or from-space, and a slot that pointed to a reachable object
follows it. -/
structure Ended (c : Scavenger) (start : YoungHeap) (τ : Scan) : Prop where
  inv : Inv c start τ
  running : τ.aborted = false
  slots : ∀ s, OuterSlot c start s → τ.words s ∉ start.sources
  copies : ∀ moved, Valid c start τ.toYoungHeap moved → ∀ m ∈ moved,
    ∀ offset ∈ (start.klass m.source).slots, τ.words (.field m.target offset) ∉ start.sources
  reached : ∀ a, Reachable c start a → τ.isForwarded a = true ∧ Follows c start a τ

theorem scavenge_ends (cards : CardsMarked c start)
    (success : (scavenge c start).promotionFailed = false) : Ended c start (scavenge c start) := by
  unfold scavenge at success ⊢
  have traced := trace_done formed cards
    (succeeded_before (processDiscoveredReferences_operations _) success)
  generalize evacuateFollowers c (genProcessStrongRoots c (startScan start)) = σ at success traced ⊢
  have inv₀ := startScan_inv formed
  have inv := traced.resting.inv
  have finished := processDiscoveredReferences_done formed traced.resting traced.fresh
    (fun i bound => steps_unscanned (s := .weakRoot i) formed inv₀ traced.steps trivial
      (fun strong => strong i rfl) (formed.pointers _ (.weakRoot bound)))
    success
  generalize processDiscoveredReferences c σ = τ at finished ⊢
  refine ⟨finished.resting.inv, finished.resting.running, fun s slot => ?_, ?_, fun a path => ?_⟩
  · cases slot with
    | held root =>
      exact steps_not_source formed inv finished.steps
        (steps_visible traced.steps root.visible) (traced.roots s root)
    | weakRoot bound => exact finished.handles _ bound
  · intro moved valid m listed offset slot
    rcases copy_handled finished.resting finished.caughtUp valid listed slot with
      settled | ⟨kind, r, same, among⟩
    · exact settled
    · rw [same]
      exact finished.listed kind r among
  · have black := forwarded_of_reachable formed traced path
    exact ⟨steps_forwarded formed inv finished.steps path.among black,
      follows_later formed inv finished.steps path.among black (traced.follows formed path.among)⟩

end ScavengeReachability
