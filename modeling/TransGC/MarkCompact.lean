import Mathlib.Data.List.Pairwise
import TransGC.CompactionSafety

/-!
# The full mark-compact

If all live data of TransNew fits into Tenured, or if DefNew holds no live object, then the live
objects get disjoint destinations and arrive there intact. If TransNew's data overflows into
DefNew's eden and DefNew has a live object that eden could hold, two live objects get the same
first word: the scan of eden resets the compaction top that TransNew's objects have used.
-/
namespace MarkCompact
open CompactSpaces MarkWord OrderedMoves ForwardPlan ForwardScan ForwardFits CompactionMoves List Option
  CompactionSafety

/-- The address and the size of every live object, in the order of the scans. -/
def liveObjects (heap : Heap) (store : Store) : List (Nat × Nat) :=
  heap.scanOrder.flatMap fun space => liveAt (heap.bottom space) (spaceRuns heap store space)

/-- Where the object at `a` goes, as its mark word says after the first pass. -/
def destination (heap : Heap) (mem : Nat → Nat) (a : Nat) : Nat :=
  if isMarked (mem a) then decodeAddress heap (mem a) else a

/-- The words of the object's destination. -/
def Occupies (heap : Heap) (mem : Nat → Nat) (object : Nat × Nat) (a : Nat) : Prop :=
  destination heap mem object.1 ≤ a ∧ a < destination heap mem object.1 + object.2

def DisjointDestinations (heap : Heap) (store prepared : Store) : Prop :=
  ∀ object ∈ liveObjects heap store, ∀ other ∈ liveObjects heap store, object ≠ other →
    ∀ a, Occupies heap prepared.mem object a → ¬ Occupies heap prepared.mem other a

/-- Every word of a live object but its mark is found at the destination. -/
def WordsArrive (heap : Heap) (store prepared done : Store) : Prop :=
  ∀ object ∈ liveObjects heap store, ∀ k, 0 < k → k < object.2 →
    done.mem (destination heap prepared.mem object.1 + k) = store.mem (object.1 + k)

def transNewLive (heap : Heap) (store : Store) : List Nat :=
  (heap.chain .transNew).flatMap (spaceLive heap store)

/-- No live object of TransNew goes to a space of DefNew that has live objects. -/
def KeepsApart (heap : Heap) (store : Store) : Prop :=
  fits heap store [] (transNewLive heap store) = true ∨
    ∀ space ∈ heap.chain .defNew, spaceLive heap store space = []

variable {heap : Heap} {store prepared : Store} {c c' : Cursor} {this : SpaceRef}
  {items : List Item} {rest : List Run} {spaces : List SpaceRef} {m : Move} {q : Nat}
  {object : Nat × Nat} {plans : Plans}

/-! ### The cursor moves steadily -/

theorem steady_of_idle
    (idle : ∀ space ∈ spaces, space.gen ≠ .tenured ∧ spaceLive heap store space = []) :
    Steady heap store spaces c := by
  cases spaces with
  | nil => trivial
  | cons this spaces => exact .inl idle

theorem steady_defNew (formed : WellFormed heap store) (chain : spaces <:+ heap.chain .defNew)
    (path : OnPath heap c) (caught : spaces <:+ c.rest) : Steady heap store spaces c := by
  induction spaces generalizing c with
  | nil => trivial
  | cons this spaces ih =>
    have ahead : this ∈ c.rest := caught.subset mem_cons_self
    have among : this ∈ heap.chain .defNew := chain.subset mem_cons_self
    have young : this.gen ≠ .tenured := by simp [gen_of_mem_chain among]
    have chain' := (suffix_cons this spaces).trans chain
    have elsewhere : c.bin ≠ this := fun here =>
      (nodup_cons.mp (onPath_nodup path)).1 (here ▸ ahead)
    refine .inr ⟨enter_of_ne elsewhere, fun items m planned => ?_⟩
    rw [allowedDeadspace_eq_zero young] at planned
    have caught' : spaces <:+ m.rest := by
      obtain ⟨items', m', planned', reaches⟩ := plan_of_reaches (.inr ahead) le_rfl
        (spaceRuns_room formed (valid_of_mem_chain among))
      obtain ⟨rfl, rfl⟩ := Prod.mk.inj (some.inj (planned'.symm.trans planned))
      exact (plan_onPath path planned).ahead_of_reaches chain reaches
    refine ⟨fun space listed => ⟨?_, fun _ => .inr (caught'.subset listed)⟩,
      ih chain' (plan_onPath path planned) caught'⟩
    simp [gen_of_mem_chain (chain'.subset listed)]

theorem steady_transNew {young : List SpaceRef} (path : OnPath heap c)
    (trans : ∀ space ∈ spaces, space.gen = .transNew)
    (defNew : ∀ space ∈ young, space.gen = .defNew)
    (ahead : (∀ space ∈ young, spaceLive heap store space = []) ∨
      ∃ last, NextFit.placeAll heap.bottom heap.limit c (spaces.flatMap (spaceLive heap store)) =
        some last ∧ young <:+ last.rest)
    (after : ∀ last, NextFit.placeAll heap.bottom heap.limit c
      (spaces.flatMap (spaceLive heap store)) = some last → Steady heap store young last) :
    Steady heap store (spaces ++ young) c := by
  induction spaces generalizing c with
  | nil => exact after c rfl
  | cons this spaces ih =>
    rw [forall_mem_cons] at trans
    have elsewhere : c.bin ≠ this := fun here => path.not_transNew (here ▸ trans.1)
    refine .inr ⟨enter_of_ne elsewhere, fun items m planned => ?_⟩
    rw [allowedDeadspace_eq_zero (by simp [trans.1])] at planned
    have first := plan_iff_placeAll.mp ⟨items, planned⟩
    have rejoin : ∀ last, NextFit.placeAll heap.bottom heap.limit m
        (spaces.flatMap (spaceLive heap store)) = some last ↔
        NextFit.placeAll heap.bottom heap.limit c
          ((this :: spaces).flatMap (spaceLive heap store)) = some last := fun last => by
      rw [flatMap_cons, NextFit.placeAll_append, spaceLive, first, bind_some]
    simp only [← rejoin] at ahead after
    refine ⟨fun space listed => ?_, ih (plan_onPath path planned) trans.2 ahead after⟩
    rcases mem_append.mp listed with listed | listed
    · exact ⟨by simp [trans.2 space listed], fun _ => .inl (trans.2 space listed)⟩
    · refine ⟨by simp [defNew space listed], fun live => .inr ?_⟩
      rcases ahead with idle | ⟨last, others, suffix⟩
      · exact absurd (idle space listed) live
      · exact (suffix.trans (NextFit.placeAll_rest_suffix others)).subset listed

theorem fits_nil_iff (sizes : List Nat) :
    fits heap store [] sizes = true ↔
      ∃ last, NextFit.placeAll heap.bottom heap.limit (tenuredCursor heap store) sizes = some last ∧
        heap.chain .defNew <:+ last.rest := by
  rw [fits, isSome_iff_exists, NextFit.placeAll_append_rest, nil_append]
  refine exists_congr fun last => and_congr_right fun placed => ?_
  have shorter : last.rest <:+ heap.chain .defNew := NextFit.placeAll_rest_suffix placed
  exact ⟨fun long => (shorter.eq_of_length_le long).symm ▸ suffix_rfl, IsSuffix.length_le⟩

theorem steady_scanOrder (formed : WellFormed heap store) (apart : KeepsApart heap store) :
    Steady heap store heap.scanOrder (startCursor heap) := by
  have defNew : ∀ space ∈ heap.chain .defNew, space.gen = .defNew :=
    fun _ listed => gen_of_mem_chain listed
  have trans : ∀ space ∈ heap.chain .transNew, space.gen = .transNew :=
    fun _ listed => gen_of_mem_chain listed
  have entered : enter heap ⟨.tenured, 0⟩ (startCursor heap) = startCursor heap := if_pos rfl
  rw [scanOrder_eq]
  refine .inr ⟨entered, fun items m planned => ?_⟩
  obtain ⟨items', planned'⟩ := plan_tenured formed
  obtain ⟨rfl, rfl⟩ := Prod.mk.inj (some.inj (planned'.symm.trans planned))
  refine ⟨fun space listed => ?_, steady_transNew tenuredCursor_onPath trans defNew ?_ ?_⟩
  · rcases mem_append.mp listed with listed | listed
    · exact ⟨by simp [trans space listed], fun _ => .inl (trans space listed)⟩
    · exact ⟨by simp [defNew space listed], fun _ => .inr listed⟩
  · exact apart.symm.imp_right (fits_nil_iff _).mp
  · intro last placed
    rcases apart with inTenured | idle
    · obtain ⟨last', placed', caught⟩ := (fits_nil_iff _).mp inTenured
      obtain rfl := some.inj (placed.symm.trans placed')
      exact steady_defNew formed suffix_rfl (tenuredCursor_onPath.placeAll placed) caught
    · exact steady_of_idle fun space listed => ⟨by simp [defNew space listed], idle space listed⟩

/-! ### From the plan to the heap -/

theorem destination_of_move {mem : Nat → Nat} (reflects : Reflects heap mem q items)
    (among : m ∈ moves q items) : destination heap mem m.source = m.target := by
  induction items generalizing q with
  | nil => cases among
  | cons item items ih =>
    obtain ⟨here, behind⟩ := reflects
    cases item with
    | gap size => exact ih behind among
    | placed size target =>
      rcases mem_cons.mp among with rfl | among
      · have word := here.2.2
        by_cases stays : q = target
        · rw [if_neg (by simpa using stays)] at word
          have unmarked : isMarked (mem q) = false := by
            rw [word]
            exact heap.objects.prototypeHeader_unmarked _
          simpa [destination, unmarked] using stays
        · rw [if_pos stays] at word
          simp [destination, word, decodeAddress]
      · exact ih behind among

theorem move_of_live {allowed : Nat} (planned : plan heap rest q allowed c = some (items, c'))
    (live : object ∈ liveAt q rest) :
    ∃ target, (⟨object.1, object.2, target⟩ : Move) ∈ moves q items := by
  induction rest generalizing q allowed c items with
  | nil => cases live
  | cons run rest ih =>
    obtain ⟨item, left, m, behind, head, tail, rfl⟩ := plan_cons_eq_some.mp planned
    rw [liveAt] at live
    rcases planRun_cases head with ⟨target, rfl, -⟩ | ⟨dead, rfl, rfl⟩
    · rw [moves]
      split at live
      · rcases mem_cons.mp live with rfl | live
        · exact ⟨target, mem_cons_self⟩
        · exact (ih tail live).imp fun _ among => mem_cons_of_mem _ among
      · exact (ih tail live).imp fun _ among => mem_cons_of_mem _ among
    · rw [dead, if_neg Bool.false_ne_true] at live
      rw [moves]
      exact ih tail live

theorem planSpaces_live (planned : planSpaces heap store spaces c = some (plans, c'))
    (live : object ∈ spaces.flatMap fun space => liveAt (heap.bottom space) (spaceRuns heap store space)) :
    ∃ entry ∈ plans, object ∈ liveAt (heap.bottom entry.1) (spaceRuns heap store entry.1) ∧
      ∃ target, (⟨object.1, object.2, target⟩ : Move) ∈ planMoves heap entry := by
  induction spaces generalizing c plans with
  | nil => cases live
  | cons this spaces ih =>
    obtain ⟨items, m, behind, head, tail, rfl⟩ := planSpaces_cons_eq_some.mp planned
    rw [flatMap_cons, mem_append] at live
    rcases live with live | live
    · exact ⟨(this, items), mem_cons_self, live, move_of_live head live⟩
    · obtain ⟨entry, listed, facts⟩ := ih tail live
      exact ⟨entry, mem_cons_of_mem _ listed, facts⟩

theorem startCursor_onPath : OnPath heap (startCursor heap) := .inl ⟨rfl, rfl⟩

theorem plans_ready (formed : WellFormed heap store)
    (listed : plans.map Prod.fst = heap.scanOrder) (safe : PlansSafe heap c plans)
    (each : ∀ entry ∈ plans, SpaceDone heap store entry.1 entry.2 prepared) :
    ∀ entry ∈ plans, Ready heap prepared entry := by
  intro entry among
  have space := each entry among
  have valid : Valid heap entry.1 := by
    rw [← mem_scanOrder, ← listed]
    exact mem_map_of_mem among
  have large : ∀ m ∈ planMoves heap entry, 0 < m.size := fun m moved => by
    have bounds := moves_bounds space.reflects moved
    omega
  exact ⟨⟨space.endOfLive, space.firstDead⟩, (safe.each entry among).dense,
    (safe.each entry among).downward, space.stop ▸ formed.below entry.1 valid, large,
    .inr space.reflects⟩

theorem allMoves_ordered (ready : ∀ entry ∈ plans, Ready heap prepared entry)
    (reflects : ∀ entry ∈ plans, Reflects heap prepared.mem (heap.bottom entry.1) entry.2)
    (safe : PlansSafe heap c plans) : (allMoves heap plans).Pairwise Before := by
  refine pairwise_flatMap.mpr ⟨fun entry among => ?_, ?_⟩
  · refine (moves_ascending.and (safe.each entry among).apart).imp_of_mem ?_
    intro m m' moved moved' both a writes
    obtain ⟨ascending, apart⟩ := both
    refine ⟨fun reads => ?_, apart a writes⟩
    have down := (safe.each entry among).downward m moved a writes
    have bounds := moves_bounds (reflects entry among) moved'
    obtain ⟨low, high⟩ := reads
    omega
  · refine (safe.clear.and safe.apart).imp_of_mem ?_
    intro entry entry' among among' both m moved m' moved' a writes
    obtain ⟨clear, apart⟩ := both
    refine ⟨fun reads => ?_, apart m moved m' moved' a writes⟩
    have outside := clear (ne_nil_of_mem moved') m moved a writes
    have bounds := moves_bounds (reflects entry' among') moved'
    have inside := (ready entry' among').inside
    obtain ⟨low, high⟩ := reads
    omega

instance : Std.Symm CompactionSafety.Disjoint :=
  ⟨fun _ _ apart a writes' writes => apart a writes writes'⟩

/-- The plan, its moves and what the first pass left behind. -/
structure Prepared (heap : Heap) (store prepared : Store) (plans : Plans) : Prop where
  planned : ∃ c', planSpaces heap store heap.scanOrder (startCursor heap) = some (plans, c')
  each : ∀ entry ∈ plans, SpaceDone heap store entry.1 entry.2 prepared

theorem prepared_of_ok (formed : WellFormed heap store)
    (finished : prepareForCompaction heap store = .ok prepared) :
    ∃ plans, Prepared heap store prepared plans := by
  obtain ⟨⟨plans, c'⟩, planned, done⟩ := (prepareForCompaction_agrees formed).of_ok finished
  exact ⟨plans, ⟨c', planned⟩, done.each⟩

/-- Every live object has a move, to the destination that its mark word names. -/
theorem Prepared.move_of_live (prep : Prepared heap store prepared plans)
    (live : object ∈ liveObjects heap store) :
    ∃ entry ∈ plans, object ∈ liveAt (heap.bottom entry.1) (spaceRuns heap store entry.1) ∧
      (⟨object.1, object.2, destination heap prepared.mem object.1⟩ : Move) ∈
        planMoves heap entry := by
  obtain ⟨c', planned⟩ := prep.planned
  obtain ⟨entry, among, own, target, moved⟩ := planSpaces_live planned live
  have reaches := destination_of_move (prep.each entry among).reflects moved
  exact ⟨entry, among, own, reaches ▸ moved⟩

section Prepared

variable (formed : WellFormed heap store) (prep : Prepared heap store prepared plans)
include formed prep

theorem Prepared.safe (apart : KeepsApart heap store) : PlansSafe heap (startCursor heap) plans := by
  obtain ⟨c', planned⟩ := prep.planned
  exact plansSafe_of_steady formed (fun _ listed => mem_scanOrder.mp listed) startCursor_onPath
    le_rfl (steady_scanOrder formed apart) planned

theorem Prepared.ready (safe : PlansSafe heap c plans) :
    ∀ entry ∈ plans, Ready heap prepared entry := by
  obtain ⟨c', planned⟩ := prep.planned
  exact plans_ready formed (planSpaces_fst planned) safe prep.each

theorem disjointDestinations_of_keepsApart (apart : KeepsApart heap store) :
    DisjointDestinations heap store prepared := by
  have safe := prep.safe formed apart
  have ordered := allMoves_ordered (prep.ready formed safe)
    (fun entry among => (prep.each entry among).reflects) safe
  have disjoint : (allMoves heap plans).Pairwise CompactionSafety.Disjoint :=
    ordered.imp fun before a writes => (before a writes).2
  intro object live other live' distinct a occupies occupies'
  obtain ⟨entry, among, -, moved⟩ := prep.move_of_live live
  obtain ⟨entry', among', -, moved'⟩ := prep.move_of_live live'
  have listed := mem_flatMap.mpr ⟨entry, among, moved⟩
  have listed' := mem_flatMap.mpr ⟨entry', among', moved'⟩
  refine disjoint.forall listed listed' (fun same => distinct ?_) a occupies occupies'
  exact Prod.ext (congrArg Move.source same) (congrArg Move.size same)

theorem wordsArrive_of_keepsApart (apart : KeepsApart heap store) :
    ∃ done, compact heap prepared = .ok done ∧ WordsArrive heap store prepared done := by
  have safe := prep.safe formed apart
  have ready := prep.ready formed safe
  have ordered := allMoves_ordered ready (fun entry among => (prep.each entry among).reflects) safe
  obtain ⟨done, finished, mem⟩ := compactSpaces_moves ready safe.clear
  obtain ⟨c', planned⟩ := prep.planned
  rw [planSpaces_fst planned] at finished
  refine ⟨done, finished, fun object live k positive inside => ?_⟩
  obtain ⟨entry, among, own, moved⟩ := prep.move_of_live live
  have large : ∀ m ∈ allMoves heap plans, 0 < m.size := fun m listed => by
    obtain ⟨entry', among', moved'⟩ := mem_flatMap.mp listed
    exact (ready entry' among').large m moved'
  have delivered : moveAll heap.initMark prepared.mem (allMoves heap plans)
      (destination heap prepared.mem object.1 + k) = prepared.mem (object.1 + k) :=
    moveAll_delivers large ordered (mem_flatMap.mpr ⟨entry, among, moved⟩) positive inside
  rw [mem]
  exact delivered.trans ((prep.each entry among).words object own _ (by omega) (by omega))

end Prepared

/-! ### Overflow into eden -/

/-- What TransNew puts into DefNew stays in eden, and eden could hold any one live object of
DefNew. -/
def EdenSuffices (heap : Heap) (store : Store) : Prop :=
  fits heap store [⟨.defNew, 0⟩] (transNewLive heap store) = true ∧
    ∀ space ∈ heap.chain .defNew, ∀ size ∈ spaceLive heap store space,
      heap.bottom ⟨.defNew, 0⟩ + size ≤ heap.limit ⟨.defNew, 0⟩

/-- A cursor that gets to a bin has placed something at its bottom. -/
theorem plan_enters {allowed : Nat} (planned : plan heap rest q allowed c = some (items, c'))
    (before : c.bin ≠ this) (after : c'.bin = this) :
    ∃ m ∈ moves q items, m.target = heap.bottom this := by
  induction rest generalizing q allowed c items with
  | nil =>
    cases planned
    exact absurd after before
  | cons run rest ih =>
    obtain ⟨item, left, m, behind, head, tail, rfl⟩ := plan_cons_eq_some.mp planned
    rcases planRun_cases head with ⟨target, rfl, placed⟩ | ⟨-, rfl, rfl⟩
    · rw [moves]
      by_cases here : m.bin = this
      · refine ⟨_, mem_cons_self, ?_⟩
        obtain ⟨-, -, landing⟩ := NextFit.place_landing placed
        cases landing with
        | here bin _ _ => exact absurd (bin.symm.trans here) before
        | later start _ _ => exact start.trans (congrArg heap.bottom here)
      · obtain ⟨m', moved, target'⟩ := ih tail here
        exact ⟨m', mem_cons_of_mem _ moved, target'⟩
    · rw [moves]
      exact ih tail before

theorem planSpaces_enters (path : OnPath heap c) (trans : ∀ space ∈ spaces, space.gen = .transNew)
    (planned : planSpaces heap store spaces c = some (plans, c')) (before : c.bin ≠ this)
    (after : c'.bin = this) :
    ∃ entry ∈ plans, ∃ m ∈ planMoves heap entry, m.target = heap.bottom this := by
  induction spaces generalizing c plans with
  | nil =>
    cases planned
    exact absurd after before
  | cons space spaces ih =>
    obtain ⟨items, m, behind, head, tail, rfl⟩ := planSpaces_cons_eq_some.mp planned
    rw [forall_mem_cons] at trans
    rw [enter_of_ne fun here => path.not_transNew (here ▸ trans.1)] at head
    by_cases here : m.bin = this
    · obtain ⟨m', moved, target⟩ := plan_enters head before here
      exact ⟨_, mem_cons_self, m', moved, target⟩
    · obtain ⟨entry, among, found⟩ := ih (plan_onPath path head) trans.2 tail here
      exact ⟨entry, mem_cons_of_mem _ among, found⟩

/-- From a cursor at the bottom of a bin that could hold it, the first live object goes there. -/
theorem plan_first_live (planned : plan heap rest q 0 c = some (items, c'))
    (live : liveSizes rest ≠ []) (room : ∀ size ∈ liveSizes rest, c.top + size ≤ heap.limit c.bin) :
    ∃ m ∈ moves q items, m.target = c.top := by
  induction rest generalizing q items with
  | nil => exact absurd rfl live
  | cons run rest ih =>
    obtain ⟨item, left, m, behind, head, tail, rfl⟩ := plan_cons_eq_some.mp planned
    obtain ⟨alive, size⟩ := run
    cases alive with
    | true =>
      have found : place heap c size = some (c.top, ⟨c.bin, c.top + size, c.rest⟩) :=
        NextFit.place_of_fits (room size mem_cons_self)
      rw [planRun_of_place found] at head
      cases head
      exact ⟨_, mem_cons_self, rfl⟩
    | false =>
      cases head
      rw [moves]
      exact ih tail live room

theorem planSpaces_first_live (young : ∀ space ∈ spaces, space.gen = .defNew)
    (start : c.top = heap.bottom c.bin)
    (planned : planSpaces heap store spaces c = some (plans, c'))
    (live : ∃ space ∈ spaces, spaceLive heap store space ≠ [])
    (room : ∀ space ∈ spaces, ∀ size ∈ spaceLive heap store space, c.top + size ≤ heap.limit c.bin) :
    ∃ entry ∈ plans, ∃ m ∈ planMoves heap entry, m.target = heap.bottom c.bin := by
  induction spaces generalizing plans with
  | nil =>
    obtain ⟨space, listed, -⟩ := live
    cases listed
  | cons space spaces ih =>
    obtain ⟨items, m, behind, head, tail, rfl⟩ := planSpaces_cons_eq_some.mp planned
    rw [forall_mem_cons] at young room
    have entered : enter heap space c = c := by
      by_cases here : c.bin = space
      · rw [enter, if_pos here, ← here, ← start]
      · exact enter_of_ne here
    rw [entered, allowedDeadspace_eq_zero (by simp [young.1])] at head
    by_cases idle : spaceLive heap store space = []
    · obtain ⟨-, rfl⟩ := plan_idle idle head
      have live' : ∃ space ∈ spaces, spaceLive heap store space ≠ [] := by
        obtain ⟨other, listed, alive⟩ := live
        rcases mem_cons.mp listed with rfl | listed
        · exact absurd idle alive
        · exact ⟨other, listed, alive⟩
      obtain ⟨entry, among, found⟩ := ih young.2 tail live' room.2
      exact ⟨entry, mem_cons_of_mem _ among, found⟩
    · obtain ⟨m', moved, target⟩ := plan_first_live head idle room.1
      exact ⟨_, mem_cons_self, m', moved, target.trans start⟩

theorem planSpaces_append_eq_some {young : List SpaceRef}
    (planned : planSpaces heap store (spaces ++ young) c = some (plans, c')) :
    ∃ m front back, planSpaces heap store spaces c = some (front, m) ∧
      planSpaces heap store young m = some (back, c') ∧ plans = front ++ back := by
  induction spaces generalizing c plans with
  | nil => exact ⟨c, [], plans, rfl, planned, rfl⟩
  | cons this spaces ih =>
    obtain ⟨items, m, behind, head, tail, rfl⟩ := planSpaces_cons_eq_some.mp planned
    obtain ⟨m', front, back, first, second, rfl⟩ := ih tail
    exact ⟨m', (this, items) :: front, back,
      planSpaces_cons_eq_some.mpr ⟨items, m, front, head, first, rfl⟩, second, rfl⟩

theorem live_of_move (planned : plan heap rest q 0 c = some (items, c'))
    (moved : m ∈ moves q items) : (m.source, m.size) ∈ liveAt q rest := by
  induction rest generalizing q c items with
  | nil =>
    cases planned
    cases moved
  | cons run rest ih =>
    obtain ⟨item, left, m', behind, head, tail, rfl⟩ := plan_cons_eq_some.mp planned
    obtain ⟨alive, size⟩ := run
    cases alive with
    | true =>
      obtain ⟨⟨target, last⟩, -, same⟩ := map_eq_some_iff.mp head
      cases same
      rcases mem_cons.mp moved with rfl | moved
      · exact mem_cons_self
      · exact mem_cons_of_mem _ (ih tail moved)
    | false =>
      cases head
      exact ih tail moved

/-- The moves of young spaces are those of their live objects. -/
theorem planSpaces_live_of_move {entry : SpaceRef × List Item}
    (young : ∀ space ∈ spaces, space.gen ≠ .tenured)
    (planned : planSpaces heap store spaces c = some (plans, c')) (among : entry ∈ plans)
    (moved : m ∈ planMoves heap entry) :
    (m.source, m.size) ∈ liveAt (heap.bottom entry.1) (spaceRuns heap store entry.1) := by
  induction spaces generalizing c plans with
  | nil =>
    cases planned
    cases among
  | cons this spaces ih =>
    obtain ⟨items, m', behind, head, tail, rfl⟩ := planSpaces_cons_eq_some.mp planned
    rw [forall_mem_cons] at young
    rcases mem_cons.mp among with rfl | among
    · rw [allowedDeadspace_eq_zero young.1] at head
      exact live_of_move head moved
    · exact ih young.2 tail among

/-- Two entries whose moves have one target make two live objects with one destination. -/
theorem Prepared.overlap {entry entry' : SpaceRef × List Item} {m' : Move}
    (formed : WellFormed heap store) (prep : Prepared heap store prepared plans)
    (among : entry ∈ plans) (among' : entry' ∈ plans) (differ : entry.1 ≠ entry'.1)
    (moved : m ∈ planMoves heap entry) (moved' : m' ∈ planMoves heap entry')
    (live : (m.source, m.size) ∈ liveAt (heap.bottom entry.1) (spaceRuns heap store entry.1))
    (live' : (m'.source, m'.size) ∈ liveAt (heap.bottom entry'.1) (spaceRuns heap store entry'.1))
    (same : m.target = m'.target) : ¬ DisjointDestinations heap store prepared := by
  intro disjoint
  obtain ⟨c', planned⟩ := prep.planned
  have listed : ∀ entry ∈ plans, entry.1 ∈ heap.scanOrder := fun entry among => by
    rw [← planSpaces_fst planned]
    exact mem_map_of_mem among
  have valid := mem_scanOrder.mp (listed entry among)
  have valid' := mem_scanOrder.mp (listed entry' among')
  have bounds := liveAt_runs_bounds (formed.tiled _ valid) live
  have bounds' := liveAt_runs_bounds (formed.tiled _ valid') live'
  have target := destination_of_move (prep.each entry among).reflects moved
  have target' := destination_of_move (prep.each entry' among').reflects moved'
  have distinct : (m.source, m.size) ≠ (m'.source, m'.size) := fun equal => by
    have source : m.source = m'.source := congrArg Prod.fst equal
    have outside := formed.outside valid valid' differ bounds.1
      (show m.source < store.top entry.1 by dsimp only at bounds; omega)
    omega
  refine disjoint _ (mem_flatMap.mpr ⟨entry.1, listed entry among, live⟩) _
    (mem_flatMap.mpr ⟨entry'.1, listed entry' among', live'⟩) distinct m.target ?_ ?_
  · dsimp only at bounds
    exact ⟨by simp [target], by simp only [target]; omega⟩
  · dsimp only at bounds'
    exact ⟨by simp [target', same], by simp only [target', same]; omega⟩

theorem planSpaces_transNew_cursor (path : OnPath heap c)
    (trans : ∀ space ∈ spaces, space.gen = .transNew)
    (planned : planSpaces heap store spaces c = some (plans, c')) :
    NextFit.placeAll heap.bottom heap.limit c (spaces.flatMap (spaceLive heap store)) =
      some c' := by
  induction spaces generalizing c plans with
  | nil =>
    cases planned
    rfl
  | cons this spaces ih =>
    obtain ⟨items, m, behind, head, tail, rfl⟩ := planSpaces_cons_eq_some.mp planned
    rw [forall_mem_cons] at trans
    rw [enter_of_ne fun here => path.not_transNew (here ▸ trans.1),
      allowedDeadspace_eq_zero (by simp [trans.1])] at head
    rw [flatMap_cons, NextFit.placeAll_append, spaceLive, plan_iff_placeAll.mp ⟨items, head⟩]
    exact ih (plan_onPath path head) trans.2 tail

/-- After an overflow that eden can take, the cursor stands in eden. -/
theorem cursor_in_eden (path : OnPath heap c)
    (placed : NextFit.placeAll heap.bottom heap.limit (tenuredCursor heap store)
      (transNewLive heap store) = some c)
    (eden : fits heap store [⟨.defNew, 0⟩] (transNewLive heap store) = true)
    (overflow : ¬ fits heap store [] (transNewLive heap store) = true) :
    c.bin = ⟨.defNew, 0⟩ := by
  have first : (heap.chain .defNew).take (0 + 1) = [⟨.defNew, 0⟩] := by
    rw [chain_defNew]
    rfl
  rw [← first, fits_iff] at eden
  obtain ⟨last, placed', long⟩ := eden
  obtain rfl := some.inj (placed.symm.trans placed')
  rcases path with ⟨-, all⟩ | suffix
  · exact absurd ((fits_nil_iff _).mpr ⟨c, placed, all ▸ suffix_rfl⟩) overflow
  · have whole : c.bin :: c.rest = heap.chain .defNew := suffix.eq_of_length_le (by simpa using long)
    rw [chain_defNew] at whole
    exact (cons.inj whole).1

theorem keepsApart_of_disjoint (formed : WellFormed heap store)
    (prep : Prepared heap store prepared plans) (eden : EdenSuffices heap store)
    (disjoint : DisjointDestinations heap store prepared) : KeepsApart heap store := by
  by_contra mixed
  obtain ⟨overflow, busy⟩ := not_or.mp mixed
  have trans : ∀ space ∈ heap.chain .transNew, space.gen = .transNew :=
    fun _ listed => gen_of_mem_chain listed
  have defNew : ∀ space ∈ heap.chain .defNew, space.gen = .defNew :=
    fun _ listed => gen_of_mem_chain listed
  obtain ⟨c', planned⟩ := prep.planned
  rw [scanOrder_eq] at planned
  obtain ⟨items, m, behind, head, tail, rfl⟩ := planSpaces_cons_eq_some.mp planned
  obtain ⟨items', head'⟩ := plan_tenured formed
  obtain ⟨rfl, rfl⟩ := Prod.mk.inj (some.inj (head'.symm.trans head))
  obtain ⟨c, front, back, first, second, rfl⟩ := planSpaces_append_eq_some tail
  have placed := planSpaces_transNew_cursor tenuredCursor_onPath trans first
  have arrived := cursor_in_eden (tenuredCursor_onPath.placeAll placed) placed eden.1 overflow
  -- an object of TransNew went to the bottom of eden
  obtain ⟨entry, among, move, moved, target⟩ :=
    planSpaces_enters tenuredCursor_onPath trans first (by simp [tenuredCursor]) arrived
  -- and so does the first live object of DefNew, because the scan of eden resets the cursor
  have reset : planSpaces heap store (heap.chain .defNew)
      ⟨⟨.defNew, 0⟩, heap.bottom ⟨.defNew, 0⟩, c.rest⟩ = some (back, c') := by
    rw [chain_defNew] at second ⊢
    rw [planSpaces, enter, if_pos arrived, arrived] at second
    exact second
  obtain ⟨entry', among', move', moved', target'⟩ :=
    planSpaces_first_live defNew rfl reset (by simpa using busy) eden.2
  have young : ∀ space ∈ heap.chain .transNew, space.gen ≠ .tenured :=
    fun space listed => by simp [trans space listed]
  have young' : ∀ space ∈ heap.chain .defNew, space.gen ≠ .tenured :=
    fun space listed => by simp [defNew space listed]
  have differ : entry.1 ≠ entry'.1 := fun same => by
    have gen := trans entry.1 (planSpaces_fst first ▸ mem_map_of_mem among)
    have gen' := defNew entry'.1 (planSpaces_fst reset ▸ mem_map_of_mem among')
    rw [same, gen'] at gen
    cases gen
  refine prep.overlap formed ?_ ?_ differ moved moved'
    (planSpaces_live_of_move young first among moved)
    (planSpaces_live_of_move young' reset among' moved') (target.trans target'.symm) disjoint
  · exact mem_cons_of_mem _ (mem_append_left _ among)
  · exact mem_cons_of_mem _ (mem_append_right _ among')

/-- If no live object of TransNew goes to a generation that has live objects of its own, the
destinations are disjoint and the words of every live object arrive. If TransNew's overflow stays in
an eden that could hold any live object of DefNew, that is also necessary. -/
theorem mark_compact_keeps_objects (formed : WellFormed heap store)
    (finished : prepareForCompaction heap store = .ok prepared) :
    (KeepsApart heap store → DisjointDestinations heap store prepared ∧
      ∃ done, compact heap prepared = .ok done ∧ WordsArrive heap store prepared done) ∧
    (EdenSuffices heap store →
      (DisjointDestinations heap store prepared ↔ KeepsApart heap store)) := by
  obtain ⟨plans, prep⟩ := prepared_of_ok formed finished
  exact ⟨fun apart => ⟨disjointDestinations_of_keepsApart formed prep apart,
      wordsArrive_of_keepsApart formed prep apart⟩,
    fun eden => ⟨keepsApart_of_disjoint formed prep eden,
      disjointDestinations_of_keepsApart formed prep⟩⟩

/-! ### Tenured full, one object in a trans eden and one in DefNew's eden -/

/-- Tenured is full, the first trans eden holds a live object of five words, DefNew's eden one of
four that is live or dead. -/
def crowdedStore (live : Bool) : Store where
  mem
    | 0 => 3
    | 1 => 2
    | 8 => 3
    | 9 => 3
    | 10 => 9
    | 24 => if live then 3 else 1
    | 25 => 2
    | 26 => 7
    | _ => 0
  top
    | ⟨.tenured, _⟩ => 4
    | ⟨.transNew, 0⟩ => 13
    | ⟨.transNew, index⟩ => 8 + 8 * index
    | ⟨.defNew, 0⟩ => 28
    | ⟨.defNew, index⟩ => 24 + 8 * index
  compactionTop _ := 0
  firstDead _ := 0
  endOfLive _ := 0

theorem crowdedStore_wellFormed (live : Bool) : WellFormed tightHeap (crowdedStore live) where
  below space valid := by
    rcases tightHeap_spaces valid with rfl | rfl | rfl | rfl | rfl <;>
      simp [crowdedStore, tightHeap]
  tiled space valid := by
    rcases tightHeap_spaces valid with rfl | rfl | rfl | rfl | rfl
    · exact .object (.done 4)
    · exact .object (.done 13)
    · exact .done 16
    · exact .object (.done 28)
    · exact .done 32
  apart := (tightStore_wellFormed live).apart

theorem crowded_prepares (live : Bool) :
    ∃ prepared, prepareForCompaction tightHeap (crowdedStore live) = .ok prepared := by
  cases live
  · exact ⟨_, rfl⟩
  · exact ⟨_, rfl⟩

/-- With the object in eden dead, the one of TransNew moves to eden. -/
theorem trans_eden_moves_to_eden :
    ∃ prepared done, prepareForCompaction tightHeap (crowdedStore false) = .ok prepared ∧
      compact tightHeap prepared = .ok done ∧
      DisjointDestinations tightHeap (crowdedStore false) prepared ∧
      WordsArrive tightHeap (crowdedStore false) prepared done := by
  obtain ⟨prepared, finished⟩ := crowded_prepares false
  have idle : ∀ space ∈ tightHeap.chain .defNew,
      spaceLive tightHeap (crowdedStore false) space = [] := by decide
  obtain ⟨disjoint, done, compacts, words⟩ :=
    (mark_compact_keeps_objects (crowdedStore_wellFormed false) finished).1 (.inr idle)
  exact ⟨prepared, done, finished, compacts, disjoint, words⟩

/-- With both live, both go to the bottom of eden, and the words of DefNew's object are lost. -/
theorem eden_object_overwritten :
    WellFormed tightHeap (crowdedStore true) ∧
      ∃ prepared done, prepareForCompaction tightHeap (crowdedStore true) = .ok prepared ∧
        compact tightHeap prepared = .ok done ∧
        ¬ DisjointDestinations tightHeap (crowdedStore true) prepared ∧
        ¬ WordsArrive tightHeap (crowdedStore true) prepared done := by
  refine ⟨crowdedStore_wellFormed true, ?_⟩
  obtain ⟨prepared, finished⟩ := crowded_prepares true
  have targets : (prepareForCompaction tightHeap (crowdedStore true)).map (fun prepared =>
      (destination tightHeap prepared.mem 8, destination tightHeap prepared.mem 24)) =
        .ok (24, 24) := rfl
  have word : (prepareForCompaction tightHeap (crowdedStore true)).bind (fun prepared =>
      (compact tightHeap prepared).map fun done => done.mem 26) = .ok 9 := rfl
  rw [finished] at targets word
  obtain ⟨first, second⟩ := Prod.mk.inj (Except.ok.inj targets)
  have live : ((8, 5) : Nat × Nat) ∈ liveObjects tightHeap (crowdedStore true) := by decide
  have live' : ((24, 4) : Nat × Nat) ∈ liveObjects tightHeap (crowdedStore true) := by decide
  cases compacts : compact tightHeap prepared with
  | error fault =>
    simp only [Except.bind, compacts] at word
    cases word
  | ok done =>
    simp only [Except.bind, compacts] at word
    refine ⟨prepared, done, finished, compacts, fun disjoint => ?_, fun words => ?_⟩
    · exact disjoint _ live _ live' (by decide) 24 ⟨by simp [first], by simp [first]⟩
        ⟨by simp [second], by simp [second]⟩
    · have lost := words _ live' 2 (by decide) (by decide)
      rw [second] at lost
      exact absurd ((Except.ok.inj word).symm.trans lost) (by decide)

/-- The first pass refines the plan by sizes: it dereferences a missing generation exactly if the
plan finds no room; otherwise the mark of each live object names the target of its planned move. -/
theorem forwarding_refines_plan (formed : WellFormed heap store) :
    (prepareForCompaction heap store = .error .nullGeneration ∧
      planSpaces heap store heap.scanOrder (startCursor heap) = none) ∨
    ∃ prepared plans c', prepareForCompaction heap store = .ok prepared ∧
      planSpaces heap store heap.scanOrder (startCursor heap) = some (plans, c') ∧
      ∀ object ∈ liveObjects heap store,
        ⟨object.1, object.2, destination heap prepared.mem object.1⟩ ∈ allMoves heap plans := by
  have agrees := prepareForCompaction_agrees formed
  cases planned : planSpaces heap store heap.scanOrder (startCursor heap) with
  | none => exact .inl ⟨agrees.of_none planned, rfl⟩
  | some result =>
    obtain ⟨prepared, finished, done⟩ := (planned ▸ agrees).some_right
    have prep : Prepared heap store prepared result.1 := ⟨⟨result.2, planned⟩, done.each⟩
    refine .inr ⟨prepared, result.1, result.2, finished, rfl, fun object live => ?_⟩
    obtain ⟨entry, among, -, moved⟩ := prep.move_of_live live
    exact mem_flatMap.mpr ⟨entry, among, moved⟩

theorem crowded_forwarding_planned :
    ∃ plans c', planSpaces tightHeap (crowdedStore false) tightHeap.scanOrder
      (startCursor tightHeap) = some (plans, c') := by
  obtain ⟨prepared, finished⟩ := crowded_prepares false
  rcases forwarding_refines_plan (crowdedStore_wellFormed false) with
    ⟨failed, -⟩ | ⟨-, plans, c', -, planned, -⟩
  · exact nomatch finished.symm.trans failed
  · exact ⟨plans, c', planned⟩

end MarkCompact
