import TransGC.CompactionMoves
import TransGC.ForwardFits

/-!
# Where the live objects arrive

The targets of the moves of one space are free addresses of the cursor and lie apart from each
other. Over all spaces this holds as long as the cursor is never set back below a target, which
`Steady` says of a plan. Then no move writes over a word that a later move has to read.
-/
namespace CompactionSafety
open CompactSpaces MarkWord OrderedMoves ForwardPlan ForwardScan ForwardFits CompactionMoves List

variable {heap : Heap} {store : Store} {q allowed : Nat} {c c' : Cursor}
  {rest : List Run} {items : List Item} {this : SpaceRef}

abbrev Sound (heap : Heap) (c : Cursor) : Prop := NextFit.Sound heap.bottom heap.limit c

abbrev Free (heap : Heap) (c : Cursor) (a : Nat) : Prop := NextFit.Free heap.bottom heap.limit c a

/-! ### The targets of one space -/

structure Placed (heap : Heap) (c c' : Cursor) (ms : List Move) : Prop where
  sound : Sound heap c'
  shrinks : ∀ a, Free heap c' a → Free heap c a
  free : ∀ m ∈ ms, ∀ a, m.Writes a → Free heap c a
  taken : ∀ m ∈ ms, ∀ a, m.Writes a → ¬ Free heap c' a
  apart : ms.Pairwise fun m m' => ∀ a, m.Writes a → ¬ m'.Writes a

theorem plan_placed (sound : Sound heap c)
    (planned : plan heap rest q allowed c = some (items, c')) :
    Placed heap c c' (moves q items) := by
  induction rest generalizing q allowed c items with
  | nil =>
    cases planned
    exact ⟨sound, fun _ free => free, fun _ among => (by cases among), fun _ among => (by cases among),
      .nil⟩
  | cons run rest ih =>
    obtain ⟨item, left, m, behind, head, tail, rfl⟩ := plan_cons_eq_some.mp planned
    rcases planRun_cases head with ⟨target, rfl, placed⟩ | ⟨-, rfl, rfl⟩
    · have others := ih (sound.place placed) tail
      refine ⟨others.sound, fun a free => NextFit.free_of_free_after placed (others.shrinks a free),
        ?_, ?_, ?_⟩
      · rw [moves, forall_mem_cons]
        exact ⟨fun a writes => NextFit.free_of_place placed writes, fun m' among a writes =>
          NextFit.free_of_free_after placed (others.free m' among a writes)⟩
      · rw [moves, forall_mem_cons]
        exact ⟨fun a writes free =>
          NextFit.not_free_after sound placed writes (others.shrinks a free), others.taken⟩
      · rw [moves, pairwise_cons]
        exact ⟨fun m' among a writes writes' =>
          NextFit.not_free_after sound placed writes (others.free m' among a writes'), others.apart⟩
    · rw [moves]
      exact ih sound tail

/-- The cursor does not stand above `q` in the space `this`. -/
def NotPast (this : SpaceRef) (q : Nat) (c : Cursor) : Prop := c.bin = this → c.top ≤ q

theorem target_le {size target : Nat} (low : heap.bottom this ≤ q) (notPast : NotPast this q c)
    (placed : place heap c size = some (target, c')) (here : c'.bin = this) : target ≤ q := by
  obtain ⟨-, -, landing⟩ := NextFit.place_landing placed
  cases landing with
  | here bin start rest =>
    rw [start]
    exact notPast (bin.symm.trans here)
  | later start passed split =>
    rw [start, here]
    exact low

/-- Every target lies inside one of the spaces ahead; in the own space it is not above the
source. -/
theorem plan_targets (sound : Sound heap c) (low : heap.bottom this ≤ q)
    (notPast : NotPast this q c) (planned : plan heap rest q allowed c = some (items, c')) :
    ∀ m ∈ moves q items, ∃ b ∈ c.bin :: c.rest, heap.bottom b ≤ m.target ∧
      m.target + m.size ≤ heap.limit b ∧ (b = this → m.target ≤ m.source) := by
  induction rest generalizing q allowed c items with
  | nil =>
    cases planned
    exact fun _ among => (by cases among)
  | cons run rest ih =>
    obtain ⟨item, left, m, behind, head, tail, rfl⟩ := plan_cons_eq_some.mp planned
    have low' := low.trans (Nat.le_add_right q run.size)
    rcases planRun_cases head with ⟨target, rfl, placed⟩ | ⟨-, rfl, rfl⟩
    · obtain ⟨above, below, ahead⟩ := NextFit.place_inside sound placed
      have after : NotPast this (q + run.size) m := fun here => by
        rw [(NextFit.place_landing placed).1]
        exact Nat.add_le_add_right (target_le low notPast placed here) run.size
      rw [moves, forall_mem_cons]
      refine ⟨⟨m.bin, ahead, above, below, target_le low notPast placed⟩, fun m' among => ?_⟩
      obtain ⟨b, ahead', facts⟩ := ih (sound.place placed) low' after tail m' among
      exact ⟨b, NextFit.bins_of_place placed ahead', facts⟩
    · rw [moves]
      exact ih sound low' (fun here => (notPast here).trans (Nat.le_add_right q run.size)) tail

/-! ### Objects that stay form a dense part at the bottom -/

def ValidBins (heap : Heap) (c : Cursor) : Prop := ∀ b ∈ c.bin :: c.rest, Valid heap b

theorem ValidBins.place {size target : Nat} (valid : ValidBins heap c)
    (placed : place heap c size = some (target, c')) : ValidBins heap c' :=
  fun b ahead => valid b (NextFit.bins_of_place placed ahead)

section Dense

variable (formed : WellFormed heap store) (sound : Sound heap c) (valid : ValidBins heap c)
  (own : Valid heap this)
include formed sound valid own

theorem target_ne_of_elsewhere {size target : Nat}
    (placed : place heap c size = some (target, c')) (elsewhere : c'.bin ≠ this)
    (positive : 0 < size) (low : heap.bottom this ≤ q) (high : q < heap.limit this) :
    target ≠ q := by
  obtain ⟨above, below, ahead⟩ := NextFit.place_inside sound placed
  have apart := formed.apart c'.bin this (valid _ ahead) own elsewhere
  omega

theorem plan_moving (low : heap.bottom this < q) (behind : c.bin = this → c.top < q)
    (large : ∀ run ∈ rest, 2 ≤ run.size)
    (room : q + total rest ≤ heap.limit this)
    (planned : plan heap rest q allowed c = some (items, c')) : Moving q items := by
  induction rest generalizing q allowed c items with
  | nil =>
    cases planned
    exact trivial
  | cons run rest ih =>
    obtain ⟨item, left, m, others, head, tail, rfl⟩ := plan_cons_eq_some.mp planned
    rw [forall_mem_cons] at large
    rw [total_cons, ← Nat.add_assoc] at room
    have low' : heap.bottom this < q + run.size := by omega
    rcases planRun_cases head with ⟨target, rfl, placed⟩ | ⟨-, rfl, rfl⟩
    · have below : m.bin = this → target < q := fun here => by
        -- one word lower the bound still holds, which gives the strict one
        have bound : NotPast this (q - 1) c := fun here' => by
          have := behind here'
          omega
        have := target_le (show heap.bottom this ≤ q - 1 by omega) bound placed here
        omega
      have moved : target ≠ q := by
        by_cases here : m.bin = this
        · exact (below here).ne
        · exact target_ne_of_elsewhere formed sound valid own placed here (by omega) low.le
            (by omega)
      refine ⟨moved, ih (sound.place placed) (valid.place placed) low' (fun here => ?_) large.2 room
        tail⟩
      rw [(NextFit.place_landing placed).1]
      exact Nat.add_lt_add_right (below here) run.size
    · rw [Moving]
      exact ih sound valid low' (fun here => (behind here).trans_le (Nat.le_add_right q run.size))
        large.2 room tail

theorem plan_staying (low : heap.bottom this ≤ q) (here : c.bin = this) (start : c.top = q)
    (large : ∀ run ∈ rest, 2 ≤ run.size)
    (room : q + total rest ≤ heap.limit this)
    (planned : plan heap rest q allowed c = some (items, c')) : Staying q items := by
  induction rest generalizing q allowed c items with
  | nil =>
    cases planned
    exact trivial
  | cons run rest ih =>
    obtain ⟨item, left, m, others, head, tail, rfl⟩ := plan_cons_eq_some.mp planned
    rw [forall_mem_cons] at large
    rw [total_cons, ← Nat.add_assoc] at room
    have low' : heap.bottom this < q + run.size := by omega
    rcases planRun_cases head with ⟨target, rfl, placed⟩ | ⟨-, rfl, rfl⟩
    · have fitting : c.top + run.size ≤ heap.limit c.bin := by
        rw [start, here]
        omega
      have found : place heap c run.size = some (c.top, ⟨c.bin, c.top + run.size, c.rest⟩) :=
        NextFit.place_of_fits fitting
      obtain ⟨rfl, rfl⟩ := Prod.mk.inj (Option.some.inj (found.symm.trans placed))
      exact ⟨start, ih (sound.place placed) (valid.place placed) low'.le here
        (congrArg (· + run.size) start) large.2 room tail⟩
    · exact plan_moving formed sound valid own low' (fun _ => by omega) large.2 room tail

theorem plan_dense_items (start : c.bin = this → c.top = heap.bottom this)
    (large : ∀ run ∈ rest, 2 ≤ run.size)
    (room : heap.bottom this + total rest ≤ heap.limit this)
    (planned : plan heap rest (heap.bottom this) allowed c = some (items, c')) :
    Dense (heap.bottom this) items := by
  by_cases here : c.bin = this
  · exact .inr (plan_staying formed sound valid own le_rfl here (start here) large room planned)
  · cases rest with
    | nil =>
      cases planned
      exact .inl trivial
    | cons run rest =>
      obtain ⟨item, left, m, others, head, tail, rfl⟩ := plan_cons_eq_some.mp planned
      rw [forall_mem_cons] at large
      rw [total_cons, ← Nat.add_assoc] at room
      have low' : heap.bottom this < heap.bottom this + run.size := by omega
      rcases planRun_cases head with ⟨target, rfl, placed⟩ | ⟨-, rfl, rfl⟩
      · have sound' := sound.place placed
        have valid' := valid.place placed
        by_cases arrived : m.bin = this
        · -- the first object opens the space it is in, so it stays
          obtain ⟨top, -, landing⟩ := NextFit.place_landing placed
          have same : target = heap.bottom this := by
            cases landing with
            | here bin _ _ => exact absurd (bin.symm.trans arrived) here
            | later start _ _ => rw [start, arrived]
          subst same
          exact .inr ⟨rfl, plan_staying formed sound' valid' own low'.le arrived top large.2 room
            tail⟩
        · have moved := target_ne_of_elsewhere formed sound valid own placed arrived (by omega)
            le_rfl (by omega)
          exact .inl ⟨moved, plan_moving formed sound' valid' own low'
            (fun here => absurd here arrived) large.2 room tail⟩
      · left
        rw [Moving]
        exact plan_moving formed sound valid own low' (fun here' => absurd here' here) large.2 room
          tail

end Dense

/-! ### One space after the other -/

theorem plan_span (planned : plan heap rest q allowed c = some (items, c')) :
    span items = total rest := by
  induction rest generalizing q allowed c items with
  | nil =>
    cases planned
    rfl
  | cons run rest ih =>
    obtain ⟨item, left, m, others, head, tail, rfl⟩ := plan_cons_eq_some.mp planned
    rw [span_cons, total_cons, ih tail]
    rcases planRun_cases head with ⟨target, rfl, -⟩ | ⟨-, rfl, -⟩ <;> rfl

theorem plan_onPath (path : OnPath heap c)
    (planned : plan heap rest q allowed c = some (items, c')) : OnPath heap c' := by
  induction rest generalizing q allowed c items with
  | nil =>
    cases planned
    exact path
  | cons run rest ih =>
    obtain ⟨item, left, m, others, head, tail, rfl⟩ := plan_cons_eq_some.mp planned
    rcases planRun_cases head with ⟨target, rfl, placed⟩ | ⟨-, rfl, rfl⟩
    · exact ih (path.place placed) tail
    · exact ih path tail

theorem plan_idle (idle : liveSizes rest = [])
    (planned : plan heap rest q 0 c = some (items, c')) : moves q items = [] ∧ c' = c := by
  induction rest generalizing q items with
  | nil =>
    cases planned
    exact ⟨rfl, rfl⟩
  | cons run rest ih =>
    obtain ⟨live, size⟩ := run
    cases live with
    | true => cases idle
    | false =>
      obtain ⟨item, left, m, others, head, tail, rfl⟩ := plan_cons_eq_some.mp planned
      cases head
      rw [moves]
      exact ih idle tail

theorem onPath_validBins (path : OnPath heap c) : ValidBins heap c := by
  intro b ahead
  rcases path with ⟨bin, all⟩ | suffix
  · rw [bin, all] at ahead
    rcases mem_cons.mp ahead with rfl | ahead
    · exact Nat.zero_lt_one
    · exact valid_of_mem_chain ahead
  · exact valid_of_mem_chain (suffix.subset ahead)

theorem onPath_nodup (path : OnPath heap c) : (c.bin :: c.rest).Nodup := by
  rcases path with ⟨bin, all⟩ | suffix
  · rw [bin, all, nodup_cons]
    exact ⟨fun among => (by cases gen_of_mem_chain among), chain_nodup heap _⟩
  · exact (chain_nodup heap _).sublist suffix.sublist

theorem onPath_sound (formed : WellFormed heap store) (path : OnPath heap c)
    (above : heap.bottom c.bin ≤ c.top) : Sound heap c := by
  refine ⟨above, (onPath_nodup path).imp_of_mem ?_⟩
  intro b b' ahead ahead' distinct a low high low'
  have apart := formed.apart b b' (onPath_validBins path b ahead) (onPath_validBins path b' ahead')
    distinct
  omega

def Disjoint (m m' : Move) : Prop := ∀ a, m.Writes a → ¬ m'.Writes a

/-- The plan of one space can be carried out. -/
structure SpaceSafe (heap : Heap) (entry : SpaceRef × List Item) : Prop where
  dense : Dense (heap.bottom entry.1) entry.2
  downward : ∀ m ∈ planMoves heap entry, Downward (heap.bottom entry.1 + span entry.2) m
  apart : (planMoves heap entry).Pairwise Disjoint

theorem spaceSafe_of_idle {entry : SpaceRef × List Item} (idle : planMoves heap entry = []) :
    SpaceSafe heap entry := by
  refine ⟨.inl (moving_of_idle idle), ?_, ?_⟩
  · rw [idle]
    exact fun _ among => (by cases among)
  · rw [idle]
    exact .nil

theorem spaceSafe_of_plan (formed : WellFormed heap store) (own : Valid heap this)
    (path : OnPath heap c) (above : heap.bottom c.bin ≤ c.top)
    (start : c.bin = this → c.top = heap.bottom this)
    (planned : plan heap (spaceRuns heap store this) (heap.bottom this) allowed c =
      some (items, c')) : SpaceSafe heap (this, items) := by
  have sound := onPath_sound formed path above
  have facts := runs_facts (formed.tiled this own) le_rfl
  have room := spaceRuns_room formed own
  refine ⟨plan_dense_items formed sound (onPath_validBins path) own start facts.1 room planned, ?_,
    (plan_placed sound planned).apart⟩
  intro m among a writes
  obtain ⟨b, ahead, low, high, down⟩ :=
    plan_targets sound le_rfl (fun here => (start here).le) planned m among
  have source : heap.bottom this ≤ m.source := le_source among
  have length : span items = total (spaceRuns heap store this) := plan_span planned
  obtain ⟨first, last⟩ := writes
  by_cases here : b = this
  · have := down here
    exact .inl (by omega)
  · have apart := formed.apart b this (onPath_validBins path b ahead) own here
    dsimp only
    omega

/-- A free address lies in a space that the cursor can use. -/
theorem free_bin {a : Nat} (sound : Sound heap c) (free : Free heap c a) :
    ∃ b ∈ c.bin :: c.rest, heap.bottom b ≤ a ∧ a < heap.limit b := by
  rcases free with ⟨low, high⟩ | ⟨b, ahead, range⟩
  · exact ⟨c.bin, mem_cons_self, sound.above.trans low, high⟩
  · exact ⟨b, mem_cons_of_mem _ ahead, range⟩

theorem free_not_transNew {a : Nat} (formed : WellFormed heap store) (path : OnPath heap c)
    (sound : Sound heap c) (own : Valid heap this) (trans : this.gen = .transNew)
    (free : Free heap c a) : a < heap.bottom this ∨ heap.limit this ≤ a := by
  obtain ⟨b, ahead, low, high⟩ := free_bin sound free
  have distinct : b ≠ this := by
    rintro rfl
    rcases mem_cons.mp ahead with rfl | ahead
    · exact path.not_transNew trans
    · have young := gen_of_mem_chain (path.ahead.subset ahead)
      rw [trans] at young
      cases young
  have apart := formed.apart b this (onPath_validBins path b ahead) own distinct
  omega

/-- Scanned from the cursor `c`, the spaces can be compacted one after the other: no scan moves the
cursor back, and what goes ahead of the scan goes into a space without live objects. -/
def Steady (heap : Heap) (store : Store) : List SpaceRef → Cursor → Prop
  | [], _ => True
  | this :: spaces, c =>
    (∀ space ∈ this :: spaces, space.gen ≠ .tenured ∧ spaceLive heap store space = []) ∨
      (enter heap this c = c ∧ ∀ items m,
        plan heap (spaceRuns heap store this) (heap.bottom this) (heap.allowedDeadspace this) c =
          some (items, m) →
        (∀ space ∈ spaces, space.gen ≠ .tenured ∧
          (spaceLive heap store space ≠ [] → space.gen = .transNew ∨ space ∈ m.rest)) ∧
        Steady heap store spaces m)

structure PlansSafe (heap : Heap) (c : Cursor) (plans : Plans) : Prop where
  each : ∀ entry ∈ plans, SpaceSafe heap entry
  clear : plans.Pairwise (Clear heap)
  apart : plans.Pairwise fun entry entry' =>
    ∀ m ∈ planMoves heap entry, ∀ m' ∈ planMoves heap entry', Disjoint m m'
  free : ∀ entry ∈ plans, ∀ m ∈ planMoves heap entry, ∀ a, m.Writes a → Free heap c a

theorem planSpaces_fst {spaces : List SpaceRef} {plans : Plans}
    (planned : planSpaces heap store spaces c = some (plans, c')) : plans.map Prod.fst = spaces := by
  induction spaces generalizing c plans with
  | nil =>
    cases planned
    rfl
  | cons this spaces ih =>
    obtain ⟨items, m, behind, -, tail, rfl⟩ := planSpaces_cons_eq_some.mp planned
    rw [map_cons, ih tail]

theorem planSpaces_idle {spaces : List SpaceRef} {plans : Plans}
    (planned : planSpaces heap store spaces c = some (plans, c')) :
    ∀ entry ∈ plans, entry.1.gen ≠ .tenured → spaceLive heap store entry.1 = [] →
      planMoves heap entry = [] := by
  induction spaces generalizing c plans with
  | nil =>
    cases planned
    exact fun _ among => (by cases among)
  | cons this spaces ih =>
    obtain ⟨items, m, behind, head, tail, rfl⟩ := planSpaces_cons_eq_some.mp planned
    rw [forall_mem_cons]
    refine ⟨fun young idle => ?_, ih tail⟩
    rw [allowedDeadspace_eq_zero young] at head
    exact (plan_idle idle head).1

theorem plansSafe_of_idle {plans : Plans} (idle : ∀ entry ∈ plans, planMoves heap entry = []) :
    PlansSafe heap c plans := by
  refine ⟨fun entry among => spaceSafe_of_idle (idle entry among), ?_, ?_, ?_⟩
  · exact pairwise_of_forall_mem_list fun entry _ entry' among' busy =>
      absurd (idle entry' among') busy
  · refine pairwise_of_forall_mem_list fun entry among entry' _ m writes => ?_
    rw [idle entry among] at writes
    cases writes
  · intro entry among m writes
    rw [idle entry among] at writes
    cases writes

theorem plansSafe_of_steady {spaces : List SpaceRef} {plans : Plans}
    (formed : WellFormed heap store) (valid : ∀ space ∈ spaces, Valid heap space)
    (path : OnPath heap c) (above : heap.bottom c.bin ≤ c.top)
    (steady : Steady heap store spaces c)
    (planned : planSpaces heap store spaces c = some (plans, c')) : PlansSafe heap c plans := by
  induction spaces generalizing c plans with
  | nil =>
    cases planned
    exact plansSafe_of_idle fun _ among => (by cases among)
  | cons this spaces ih =>
    rcases steady with idle | ⟨entered, steady⟩
    · refine plansSafe_of_idle fun entry among => ?_
      have listed : entry.1 ∈ this :: spaces := by
        rw [← planSpaces_fst planned]
        exact mem_map_of_mem among
      exact planSpaces_idle planned entry among (idle _ listed).1 (idle _ listed).2
    · obtain ⟨items, m, behind, head, tail, rfl⟩ := planSpaces_cons_eq_some.mp planned
      rw [entered] at head
      obtain ⟨ahead, steady⟩ := steady items m head
      rw [forall_mem_cons] at valid
      have sound := onPath_sound formed path above
      have placed := plan_placed sound head
      have safe := ih valid.2 (plan_onPath path head) placed.sound.above steady tail
      have start : c.bin = this → c.top = heap.bottom this := fun here => by
        have top := congrArg NextFit.Cursor.top entered
        rw [enter, if_pos here] at top
        exact top.symm
      have own := spaceSafe_of_plan formed valid.1 path above start head
      refine ⟨?_, ?_, ?_, ?_⟩
      · rw [forall_mem_cons]
        exact ⟨own, safe.each⟩
      · refine .cons (fun entry among busy m' moved a writes => ?_) safe.clear
        have listed : entry.1 ∈ spaces := by
          rw [← planSpaces_fst tail]
          exact mem_map_of_mem among
        have live : spaceLive heap store entry.1 ≠ [] := fun idle =>
          busy (planSpaces_idle tail entry among (ahead _ listed).1 idle)
        rcases (ahead _ listed).2 live with trans | rest
        · exact free_not_transNew formed path sound (valid.2 _ listed) trans
            (placed.free m' moved a writes)
        · have taken := placed.taken m' moved a writes
          by_contra inside
          exact taken (.inr ⟨entry.1, rest, by omega, by omega⟩)
      · refine .cons (fun entry among m' moved m'' moved' a writes writes' => ?_) safe.apart
        exact placed.taken m' moved a writes (safe.free entry among m'' moved' a writes')
      · rw [forall_mem_cons]
        exact ⟨placed.free, fun entry among m' moved a writes =>
          placed.shrinks a (safe.free entry among m' moved a writes)⟩

end CompactionSafety
