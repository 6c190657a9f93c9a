import Mathlib.Data.List.Infix
import TransGC.ForwardScan

/-!
# When forwarding finds a destination for every live object

Live data of TransNew has Tenured's remaining room and, behind that, the spaces of DefNew. DefNew's
own live data finds room once its scan has caught up with the compact point: from then on every
object fits at or before its own place. Until then it has to fit behind the data that went past
it. These two conditions decide whether the pass runs off the youngest generation.
-/
namespace ForwardFits
open CompactSpaces MarkWord ForwardPlan ForwardScan List Option

def liveSizes (rest : List Run) : List Nat := (rest.filter Run.live).map Run.size

def spaceLive (heap : Heap) (store : Store) (space : SpaceRef) : List Nat :=
  liveSizes (spaceRuns heap store space)

/-- The dead words at the bottom of a space that the pass lets stay. -/
def keptDead : List Run → Nat → Nat
  | [], _ => 0
  | run :: rest, allowed =>
    if run.live then keptDead rest allowed
    else if run.size ≤ allowed then run.size + keptDead rest (allowed - run.size)
    else 0

/-- The top of Tenured once its own live data and the dead words that stay are in place. -/
def tenuredTop (heap : Heap) (store : Store) : Nat :=
  heap.bottom ⟨.tenured, 0⟩ + (spaceLive heap store ⟨.tenured, 0⟩).sum +
    keptDead (spaceRuns heap store ⟨.tenured, 0⟩) (heap.allowedDeadspace ⟨.tenured, 0⟩)

/-- Objects of these sizes fit into the rest of Tenured and then into the given spaces. -/
def fits (heap : Heap) (store : Store) (spaces : List SpaceRef) (sizes : List Nat) : Bool :=
  (NextFit.placeAll heap.bottom heap.limit ⟨⟨.tenured, 0⟩, tenuredTop heap store, spaces⟩
    sizes).isSome

/-- For some `k`, the live data of TransNew and of the first `k` spaces of DefNew fits into
Tenured's rest and the first `k + 1` spaces of DefNew. -/
def DestinationsFit (heap : Heap) (store : Store) : Prop :=
  ∃ k ≤ heap.count .defNew,
    fits heap store ((heap.chain .defNew).take (k + 1))
      ((heap.chain .transNew).flatMap (spaceLive heap store) ++
        ((heap.chain .defNew).take k).flatMap (spaceLive heap store)) = true

variable {heap : Heap} {store : Store} {mem : Nat → Nat} {q t allowed : Nat} {c c' : Cursor}
  {rest : List Run} {this : SpaceRef}

/-! ### The runs of a space -/

def total (rest : List Run) : Nat := (rest.map Run.size).sum

@[simp] theorem total_nil : total [] = 0 := rfl

@[simp] theorem total_cons (run : Run) (rest : List Run) :
    total (run :: rest) = run.size + total rest := by
  simp [total]

@[simp] theorem liveSizes_nil : liveSizes [] = [] := rfl

@[simp] theorem liveSizes_live (size : Nat) (rest : List Run) :
    liveSizes (⟨true, size⟩ :: rest) = size :: liveSizes rest := rfl

@[simp] theorem liveSizes_dead (size : Nat) (rest : List Run) :
    liveSizes (⟨false, size⟩ :: rest) = liveSizes rest := rfl

theorem runs_facts {fuel : Nat} (tiled : Tiled heap mem q t) (enough : t - q ≤ fuel) :
    (∀ run ∈ runs heap mem t fuel q, 2 ≤ run.size) ∧ q + total (runs heap mem t fuel q) = t := by
  have finished : ¬ q < t → q + total [] = t := fun above => by
    have := tiled.le
    rw [total_nil]
    omega
  induction fuel generalizing q with
  | zero => exact ⟨by simp [runs], finished (by omega)⟩
  | succ fuel ih =>
    by_cases below : q < t
    · obtain ⟨large, behind⟩ := runAt_bounds tiled below
      have stop := behind.le
      obtain ⟨others, sum⟩ := ih behind (by omega) fun above => by
        rw [total_nil]
        omega
      rw [runs, if_pos below, forall_mem_cons, total_cons]
      exact ⟨⟨large, others⟩, by omega⟩
    · rw [runs, if_neg below]
      exact ⟨by simp, finished below⟩

/-! ### Plans as placements -/

/-- Where no dead space may stay, the plan only places the live objects. -/
theorem plan_iff_placeAll :
    (∃ items, plan heap rest q 0 c = some (items, c')) ↔
      NextFit.placeAll heap.bottom heap.limit c (liveSizes rest) = some c' := by
  induction rest generalizing q c with
  | nil => simp [plan]
  | cons run rest ih =>
    obtain ⟨live, size⟩ := run
    cases live with
    | false =>
      have gap : planRun heap ⟨false, size⟩ q 0 c = some (.gap size, 0, c) := planRun_gap (by omega)
      simp [plan_cons_eq_some, gap, ih]
    | true =>
      simp only [plan_cons_eq_some, planRun_live, liveSizes_live, NextFit.placeAll_cons_eq_some]
      constructor
      · rintro ⟨items, item, left, m, behind, head, tail, rfl⟩
        obtain ⟨⟨target, m⟩, found, same⟩ := map_eq_some_iff.mp head
        cases same
        exact ⟨target, m, found, ih.mp ⟨behind, tail⟩⟩
      · rintro ⟨target, m, found, all⟩
        obtain ⟨behind, tail⟩ := ih.mpr all
        exact ⟨_, _, _, m, behind, map_eq_some_iff.mpr ⟨_, found, rfl⟩, tail, rfl⟩

section Tenured

variable {top : Nat} {ahead : List SpaceRef}

theorem place_here {size : Nat} (fitting : top + size ≤ heap.limit this) :
    place heap ⟨this, top, ahead⟩ size = some (top, ⟨this, top + size, ahead⟩) :=
  NextFit.place_of_fits fitting

theorem planRun_live_here {size : Nat} (fitting : top + size ≤ heap.limit this) :
    planRun heap ⟨true, size⟩ q allowed ⟨this, top, ahead⟩ =
      some (.placed size top, allowed, ⟨this, top + size, ahead⟩) :=
  planRun_of_place (place_here fitting)

/-- Behind a gap of the own space nothing stays any more. -/
theorem plan_sliding (behind : top < q) (room : q + total rest ≤ heap.limit this) :
    ∃ items, plan heap rest q allowed ⟨this, top, ahead⟩ =
      some (items, ⟨this, top + (liveSizes rest).sum, ahead⟩) := by
  induction rest generalizing q top with
  | nil => exact ⟨[], rfl⟩
  | cons run rest ih =>
    obtain ⟨live, size⟩ := run
    rw [total_cons] at room
    dsimp only at room
    have room' : q + size + total rest ≤ heap.limit this := by omega
    cases live with
    | false =>
      obtain ⟨items, tail⟩ := ih (Nat.lt_add_right size behind) room'
      have gap : ¬ (allowed > 0 ∧ q = top) := by omega
      exact ⟨_, plan_cons_eq_some.mpr ⟨_, _, _, _, planRun_gap gap, tail, rfl⟩⟩
    | true =>
      obtain ⟨items, tail⟩ := ih (Nat.add_lt_add_right behind size) room'
      rw [add_assoc] at tail
      exact ⟨_, plan_cons_eq_some.mpr
        ⟨_, _, _, _, planRun_live_here (by omega), tail, rfl⟩⟩

/-- The dense part at the bottom, where the cursor stands at the scanned address. -/
theorem plan_dense (allowed : Nat) (ahead : List SpaceRef) (large : ∀ run ∈ rest, 2 ≤ run.size)
    (room : q + total rest ≤ heap.limit this) :
    ∃ items top, plan heap rest q allowed ⟨this, q, ahead⟩ = some (items, ⟨this, top, ahead⟩) ∧
      top = q + (liveSizes rest).sum + keptDead rest allowed := by
  induction rest generalizing q allowed with
  | nil => exact ⟨[], q, rfl, rfl⟩
  | cons run rest ih =>
    obtain ⟨live, size⟩ := run
    rw [forall_mem_cons] at large
    rw [total_cons] at room
    dsimp only at room large
    have room' : q + size + total rest ≤ heap.limit this := by omega
    cases live with
    | true =>
      obtain ⟨items, top, tail, sum⟩ := ih allowed large.2 room'
      refine ⟨_, top, plan_cons_eq_some.mpr
        ⟨_, _, _, _, planRun_live_here (by omega), tail, rfl⟩, ?_⟩
      simp only [liveSizes_live, sum_cons, keptDead, if_true]
      omega
    | false =>
      by_cases short : size ≤ allowed
      · obtain ⟨items, top, tail, sum⟩ := ih (allowed - size) large.2 room'
        have kept : planRun heap ⟨false, size⟩ q allowed ⟨this, q, ahead⟩ =
            some (.placed size q, allowed - size, ⟨this, q + size, ahead⟩) := by
          have start : q = (⟨this, q, ahead⟩ : Cursor).top := rfl
          rw [planRun_kept ⟨by omega, start⟩ short, place_here (by omega)]
          rfl
        refine ⟨_, top, plan_cons_eq_some.mpr ⟨_, _, _, _, kept, tail, rfl⟩, ?_⟩
        simp only [liveSizes_dead, keptDead, Bool.false_eq_true, if_false, if_pos short]
        omega
      · -- too long a run becomes a gap, with what was allowed spent or already zero
        have gap : ∃ left, planRun heap ⟨false, size⟩ q allowed ⟨this, q, ahead⟩ =
            some (.gap size, left, ⟨this, q, ahead⟩) := by
          by_cases may : allowed > 0
          · exact ⟨0, planRun_long ⟨may, rfl⟩ short⟩
          · exact ⟨allowed, planRun_gap fun both => may both.1⟩
        obtain ⟨left, gap⟩ := gap
        obtain ⟨items, tail⟩ := plan_sliding (Nat.lt_add_of_pos_right (by omega)) room'
        refine ⟨_, _, plan_cons_eq_some.mpr ⟨_, _, _, _, gap, tail, rfl⟩, ?_⟩
        simp only [liveSizes_dead, keptDead, Bool.false_eq_true, if_false, if_neg short]
        omega

end Tenured

/-! ### The cursor between two spaces -/

/-- The cursor is in Tenured with all of DefNew ahead, or in DefNew with what is behind it ahead. -/
def OnPath (heap : Heap) (c : Cursor) : Prop :=
  (c.bin = ⟨.tenured, 0⟩ ∧ c.rest = heap.chain .defNew) ∨ (c.bin :: c.rest) <:+ heap.chain .defNew

theorem OnPath.ahead (path : OnPath heap c) : c.rest <:+ heap.chain .defNew := by
  rcases path with ⟨-, all⟩ | suffix
  · exact ⟨[], by simp [all]⟩
  · exact (suffix_cons c.bin c.rest).trans suffix

theorem OnPath.place {size target : Nat} (path : OnPath heap c)
    (placed : place heap c size = some (target, c')) : OnPath heap c' := by
  obtain ⟨-, -, landing⟩ := NextFit.place_landing placed
  cases landing with
  | here bin start rest =>
    rw [OnPath, bin, rest]
    exact path
  | later start passed split => exact .inr (IsSuffix.trans ⟨passed, split.symm⟩ path.ahead)

theorem OnPath.placeAll {sizes : List Nat} (path : OnPath heap c)
    (placed : NextFit.placeAll heap.bottom heap.limit c sizes = some c') : OnPath heap c' := by
  induction sizes generalizing c with
  | nil =>
    cases placed
    exact path
  | cons size sizes ih =>
    obtain ⟨target, m, first, others⟩ := NextFit.placeAll_cons_eq_some.mp placed
    exact ih (path.place first) others

theorem OnPath.enter (path : OnPath heap c) : OnPath heap (enter heap this c) := by
  rw [ForwardPlan.enter]
  split <;> exact path

theorem OnPath.not_transNew (path : OnPath heap c) : c.bin.gen ≠ .transNew := by
  rcases path with ⟨bin, -⟩ | suffix
  · simp [bin]
  · have among := gen_of_mem_chain (suffix.subset mem_cons_self)
    simp [among]

/-- Whether the cursor has gone past the space that begins the chain `this :: others`. -/
theorem OnPath.compare {others : List SpaceRef} (path : OnPath heap c)
    (chain : (this :: others) <:+ heap.chain .defNew) :
    (this ∈ c.rest ∧ others.length < c.rest.length) ∨ (c.bin = this ∧ c.rest = others) ∨
      (c.bin :: c.rest) <:+ others := by
  rcases path with ⟨-, all⟩ | suffix
  · have shorter := chain.length_le
    exact .inl ⟨all ▸ chain.subset mem_cons_self, all ▸ shorter⟩
  · rcases suffix_or_suffix_of_suffix suffix chain with cursorLater | spaceLater
    · rcases suffix_cons_iff.mp cursorLater with same | later
      · cases same
        exact .inr (.inl ⟨rfl, rfl⟩)
      · exact .inr (.inr later)
    · rcases suffix_cons_iff.mp spaceLater with same | later
      · cases same
        exact .inr (.inl ⟨rfl, rfl⟩)
      · exact .inl ⟨later.subset mem_cons_self, later.length_le⟩

/-- A cursor that has not gone past a space has all later spaces ahead. -/
theorem OnPath.ahead_of_reaches {others : List SpaceRef} (path : OnPath heap c)
    (chain : (this :: others) <:+ heap.chain .defNew) (reaches : NextFit.Reaches c this q) :
    others <:+ c.rest := by
  rcases path.compare chain with ⟨-, longer⟩ | ⟨-, same⟩ | past
  · exact suffix_of_suffix_length_le ((suffix_cons this others).trans chain) path.ahead
      longer.le
  · rw [same]
  · have fresh : this ∉ others :=
      (nodup_cons.mp ((chain_nodup heap _).sublist chain.sublist)).1
    rcases reaches with ⟨here, -⟩ | ahead
    · exact absurd (here ▸ past.subset mem_cons_self) fresh
    · exact absurd (past.subset (mem_cons_of_mem _ ahead)) fresh

/-! ### The spaces of TransNew and DefNew -/

theorem allowedDeadspace_eq_zero (young : this.gen ≠ .tenured) :
    heap.allowedDeadspace this = 0 := by
  have ratio : heap.allowedDeadRatio this.gen = 0 := by
    cases gen : this.gen with
    | tenured => exact absurd gen young
    | transNew => rfl
    | defNew => rfl
  simp [Heap.allowedDeadspace, ratio]

theorem enter_of_ne (elsewhere : c.bin ≠ this) : enter heap this c = c := if_neg elsewhere

/-- The runs of a space all find room when the cursor reaches the space. -/
theorem plan_of_reaches (reaches : NextFit.Reaches c this q) (low : heap.bottom this ≤ q)
    (room : q + total rest ≤ heap.limit this) :
    ∃ items c', plan heap rest q 0 c = some (items, c') ∧
      NextFit.Reaches c' this (q + total rest) := by
  induction rest generalizing q c with
  | nil => exact ⟨[], c, rfl, reaches⟩
  | cons run rest ih =>
    obtain ⟨live, size⟩ := run
    rw [total_cons, ← add_assoc] at room ⊢
    dsimp only at room ⊢
    cases live with
    | false =>
      have further : NextFit.Reaches c this (q + size) :=
        reaches.imp_left fun ⟨same, notPast⟩ => ⟨same, notPast.trans (Nat.le_add_right q size)⟩
      obtain ⟨items, c', tail, after⟩ := ih further (low.trans (Nat.le_add_right q size)) room
      exact ⟨_, c', plan_cons_eq_some.mpr ⟨_, _, _, _, planRun_gap (by omega), tail, rfl⟩, after⟩
    | true =>
      obtain ⟨target, m, found, further⟩ :=
        NextFit.place_of_reaches reaches low (show q + size ≤ heap.limit this by omega)
      obtain ⟨items, c', tail, after⟩ := ih further (low.trans (Nat.le_add_right q size)) room
      exact ⟨_, c', plan_cons_eq_some.mpr ⟨_, _, _, _, planRun_of_place found, tail, rfl⟩, after⟩

theorem spaceRuns_room (formed : WellFormed heap store) (valid : Valid heap this) :
    heap.bottom this + total (spaceRuns heap store this) ≤ heap.limit this := by
  have facts := runs_facts (formed.tiled this valid) le_rfl
  have below := formed.below this valid
  rw [spaceRuns, facts.2]
  exact below

theorem valid_of_mem_chain {gen : Generation} (among : this ∈ heap.chain gen) :
    Valid heap this := by
  obtain ⟨index, bound, rfl⟩ := mem_map.mp among
  exact mem_range.mp bound

/-- Once the scan of DefNew has caught up with the cursor, it always finishes. -/
theorem planSpaces_of_caughtUp {spaces : List SpaceRef} (formed : WellFormed heap store)
    (chain : spaces <:+ heap.chain .defNew) (path : OnPath heap c)
    (caught : spaces.length ≤ c.rest.length + 1) :
    ∃ planned, planSpaces heap store spaces c = some planned := by
  induction spaces generalizing c with
  | nil => exact ⟨_, rfl⟩
  | cons this spaces ih =>
    have among : this ∈ heap.chain .defNew := chain.subset mem_cons_self
    have young : this.gen ≠ .tenured := by simp [gen_of_mem_chain among]
    rw [length_cons] at caught
    have reaches : NextFit.Reaches (enter heap this c) this (heap.bottom this) := by
      rcases path.compare chain with ⟨ahead, -⟩ | ⟨here, -⟩ | past
      · by_cases here : c.bin = this
        · exact .inl (by simp [enter, here])
        · rw [enter_of_ne here]
          exact .inr ahead
      · exact .inl (by simp [enter, here])
      · have shorter := past.length_le
        rw [length_cons] at shorter
        omega
    obtain ⟨items, m, planned, after⟩ :=
      plan_of_reaches reaches le_rfl (spaceRuns_room formed (valid_of_mem_chain among))
    have path' : OnPath heap m := path.enter.placeAll (plan_iff_placeAll.mp ⟨items, planned⟩)
    have caught' : spaces.length ≤ m.rest.length + 1 := by
      have ahead := (path'.ahead_of_reaches chain after).length_le
      omega
    obtain ⟨behind, tail⟩ := ih ((suffix_cons this spaces).trans chain) path' caught'
    rw [← allowedDeadspace_eq_zero young] at planned
    exact ⟨_, planSpaces_cons_eq_some.mpr ⟨items, m, _, planned, tail, rfl⟩⟩

theorem planSpaces_cons_iff {spaces : List SpaceRef} (young : this.gen ≠ .tenured)
    (elsewhere : c.bin ≠ this) :
    (∃ planned, planSpaces heap store (this :: spaces) c = some planned) ↔
      ∃ m, NextFit.placeAll heap.bottom heap.limit c (spaceLive heap store this) = some m ∧
        ∃ planned, planSpaces heap store spaces m = some planned := by
  constructor
  · rintro ⟨⟨plans, c'⟩, planned⟩
    obtain ⟨items, m, behind, head, tail, -⟩ := planSpaces_cons_eq_some.mp planned
    rw [enter_of_ne elsewhere, allowedDeadspace_eq_zero young] at head
    exact ⟨m, plan_iff_placeAll.mp ⟨items, head⟩, _, tail⟩
  · rintro ⟨m, placed, ⟨behind, c'⟩, tail⟩
    obtain ⟨items, head⟩ := plan_iff_placeAll.mpr placed
    rw [← enter_of_ne elsewhere, ← allowedDeadspace_eq_zero young] at head
    exact ⟨_, planSpaces_cons_eq_some.mpr ⟨items, m, behind, head, tail, rfl⟩⟩

theorem planSpaces_transNew_iff {spaces young : List SpaceRef} (path : OnPath heap c)
    (trans : ∀ space ∈ spaces, space.gen = .transNew) :
    (∃ planned, planSpaces heap store (spaces ++ young) c = some planned) ↔
      ∃ m, NextFit.placeAll heap.bottom heap.limit c
          (spaces.flatMap (spaceLive heap store)) = some m ∧
        ∃ planned, planSpaces heap store young m = some planned := by
  induction spaces generalizing c with
  | nil => simp
  | cons this spaces ih =>
    rw [forall_mem_cons] at trans
    have elsewhere : c.bin ≠ this := fun here => path.not_transNew (here ▸ trans.1)
    rw [cons_append, planSpaces_cons_iff (by simp [trans.1]) elsewhere, flatMap_cons,
      NextFit.placeAll_append]
    simp only [bind_eq_some_iff]
    constructor
    · rintro ⟨m, placed, more⟩
      obtain ⟨m', others, rest⟩ := (ih (path.placeAll placed) trans.2).mp more
      exact ⟨m', ⟨m, placed, others⟩, rest⟩
    · rintro ⟨m', ⟨m, placed, others⟩, rest⟩
      exact ⟨m, placed, (ih (path.placeAll placed) trans.2).mpr ⟨m', others, rest⟩⟩

/-- The scan of DefNew finishes exactly if the spaces visited before it has caught up with the
cursor find room behind it. -/
theorem planSpaces_defNew_iff {spaces : List SpaceRef} (formed : WellFormed heap store)
    (chain : spaces <:+ heap.chain .defNew) (path : OnPath heap c) :
    (∃ planned, planSpaces heap store spaces c = some planned) ↔
      ∃ k ≤ spaces.length, ∃ c', NextFit.placeAll heap.bottom heap.limit c
          ((spaces.take k).flatMap (spaceLive heap store)) = some c' ∧
        spaces.length ≤ c'.rest.length + 1 + k := by
  induction spaces generalizing c with
  | nil => exact iff_of_true ⟨_, rfl⟩ ⟨0, le_rfl, c, rfl, Nat.zero_le _⟩
  | cons this spaces ih =>
    by_cases caught : (this :: spaces).length ≤ c.rest.length + 1
    · have finishes := planSpaces_of_caughtUp formed chain path caught
      exact iff_of_true finishes ⟨0, Nat.zero_le _, c, rfl, caught⟩
    · have chain' := (suffix_cons this spaces).trans chain
      have among : this ∈ heap.chain .defNew := chain.subset mem_cons_self
      have young : this.gen ≠ .tenured := by simp [gen_of_mem_chain among]
      have elsewhere : c.bin ≠ this := by
        rw [length_cons] at caught
        rcases path.compare chain with ⟨-, longer⟩ | ⟨-, same⟩ | past
        · omega
        · rw [same] at caught
          omega
        · rintro rfl
          have fresh := (nodup_cons.mp ((chain_nodup heap _).sublist chain.sublist)).1
          exact fresh (past.subset mem_cons_self)
      rw [planSpaces_cons_iff young elsewhere]
      constructor
      · rintro ⟨m, placed, more⟩
        obtain ⟨k, bound, c', others, left⟩ := (ih chain' (path.placeAll placed)).mp more
        refine ⟨k + 1, Nat.succ_le_succ bound, c', ?_, ?_⟩
        · rw [take_succ_cons, flatMap_cons, NextFit.placeAll_append, placed]
          exact others
        · rw [length_cons]
          omega
      · rintro ⟨k, bound, c', placed, left⟩
        cases k with
        | zero =>
          cases placed
          exact absurd left caught
        | succ k =>
          rw [take_succ_cons, flatMap_cons, NextFit.placeAll_append,
            bind_eq_some_iff] at placed
          obtain ⟨m, first, others⟩ := placed
          rw [length_cons] at left bound
          exact ⟨m, first, (ih chain' (path.placeAll first)).mpr
            ⟨k, by omega, c', others, by omega⟩⟩

/-! ### The whole pass -/

/-- The cursor behind Tenured's own data. -/
def tenuredCursor (heap : Heap) (store : Store) : Cursor :=
  ⟨⟨.tenured, 0⟩, tenuredTop heap store, heap.chain .defNew⟩

theorem plan_tenured (formed : WellFormed heap store) :
    ∃ items, plan heap (spaceRuns heap store ⟨.tenured, 0⟩) (heap.bottom ⟨.tenured, 0⟩)
      (heap.allowedDeadspace ⟨.tenured, 0⟩) (enter heap ⟨.tenured, 0⟩ (startCursor heap)) =
        some (items, tenuredCursor heap store) := by
  have valid : Valid heap ⟨.tenured, 0⟩ := Nat.zero_lt_one
  have facts := runs_facts (formed.tiled _ valid) le_rfl
  obtain ⟨items, top, planned, sum⟩ := plan_dense (heap.allowedDeadspace ⟨.tenured, 0⟩)
    (heap.chain .defNew) facts.1 (spaceRuns_room formed valid)
  have entered : enter heap ⟨.tenured, 0⟩ (startCursor heap) =
      ⟨⟨.tenured, 0⟩, heap.bottom ⟨.tenured, 0⟩, heap.chain .defNew⟩ := if_pos rfl
  refine ⟨items, ?_⟩
  rw [entered, tenuredCursor, tenuredTop, spaceLive, spaceRuns, planned, sum]

theorem planSpaces_tenured_iff {spaces : List SpaceRef} (formed : WellFormed heap store) :
    (∃ planned, planSpaces heap store (⟨.tenured, 0⟩ :: spaces) (startCursor heap) =
        some planned) ↔
      ∃ planned, planSpaces heap store spaces (tenuredCursor heap store) = some planned := by
  obtain ⟨items, head⟩ := plan_tenured formed
  constructor
  · rintro ⟨⟨plans, c'⟩, planned⟩
    obtain ⟨items', m, behind, head', tail, -⟩ := planSpaces_cons_eq_some.mp planned
    rw [head] at head'
    cases head'
    exact ⟨_, tail⟩
  · rintro ⟨⟨behind, c'⟩, tail⟩
    exact ⟨_, planSpaces_cons_eq_some.mpr ⟨items, _, behind, head, tail, rfl⟩⟩

theorem tenuredCursor_onPath : OnPath heap (tenuredCursor heap store) := .inl ⟨rfl, rfl⟩

/-- Placing into the first `k + 1` spaces of DefNew only is placing without going past them. -/
theorem fits_iff (k : Nat) (sizes : List Nat) :
    fits heap store ((heap.chain .defNew).take (k + 1)) sizes = true ↔
      ∃ c', NextFit.placeAll heap.bottom heap.limit (tenuredCursor heap store) sizes = some c' ∧
        (heap.chain .defNew).length ≤ c'.rest.length + 1 + k := by
  rw [fits, isSome_iff_exists, NextFit.placeAll_append_rest, take_append_drop]
  refine exists_congr fun c' => and_congr_right fun _ => ?_
  rw [length_drop]
  omega

theorem scanOrder_eq (heap : Heap) :
    heap.scanOrder = ⟨.tenured, 0⟩ :: (heap.chain .transNew ++ heap.chain .defNew) := rfl

theorem planSpaces_scanOrder_iff (formed : WellFormed heap store) :
    (∃ planned, planSpaces heap store heap.scanOrder (startCursor heap) = some planned) ↔
      DestinationsFit heap store := by
  have trans : ∀ space ∈ heap.chain .transNew, space.gen = .transNew :=
    fun _ among => gen_of_mem_chain among
  have length : (heap.chain .defNew).length = heap.count .defNew := by simp [Heap.chain]
  rw [scanOrder_eq, planSpaces_tenured_iff formed, planSpaces_transNew_iff tenuredCursor_onPath trans]
  simp only [DestinationsFit, fits_iff, NextFit.placeAll_append, bind_eq_some_iff, ← length]
  constructor
  · rintro ⟨m, placed, finishes⟩
    obtain ⟨k, bound, c', others, left⟩ := (planSpaces_defNew_iff formed suffix_rfl
      (tenuredCursor_onPath.placeAll placed)).mp finishes
    exact ⟨k, bound, c', ⟨m, placed, others⟩, left⟩
  · rintro ⟨k, bound, c', ⟨m, placed, others⟩, left⟩
    exact ⟨m, placed, (planSpaces_defNew_iff formed suffix_rfl
      (tenuredCursor_onPath.placeAll placed)).mpr ⟨k, bound, c', others, left⟩⟩

/-- Forwarding reaches the end of the heap exactly if the live data of TransNew, and that of the
DefNew spaces it goes past, fits. Otherwise `forward` dereferences a missing generation. -/
theorem forward_finds_destination_iff (formed : WellFormed heap store) :
    ((∃ done, prepareForCompaction heap store = .ok done) ↔ DestinationsFit heap store) ∧
      (prepareForCompaction heap store = .error .nullGeneration ↔ ¬ DestinationsFit heap store) := by
  have agrees := prepareForCompaction_agrees formed
  have ends := agrees.ok_iff.trans (planSpaces_scanOrder_iff formed)
  refine ⟨ends, fun failed fit => ?_, fun unfit => ?_⟩
  · obtain ⟨done, finished⟩ := ends.mpr fit
    rw [failed] at finished
    cases finished
  · refine agrees.of_none (eq_none_iff_forall_ne_some.mpr fun planned found => ?_)
    exact unfit ((planSpaces_scanOrder_iff formed).mp ⟨planned, found⟩)

/-! ### A full Tenured and two trans edens with one object each -/

/-- The header of an object is its size, less the two words of every object. -/
def plainObjects : ObjectModel where
  size header := header + 2
  prototypeHeader _ := prototype
  filler words := words - 2
  two_le_size header := Nat.le_add_left 2 header
  prototypeHeader_unmarked _ := rfl
  size_filler _ large := Nat.sub_add_cancel large

def tightHeap : Heap where
  objects := plainObjects
  bottom
    | ⟨.tenured, _⟩ => 0
    | ⟨.transNew, index⟩ => 8 + 8 * index
    | ⟨.defNew, index⟩ => 24 + 8 * index
  limit
    | ⟨.tenured, _⟩ => 4
    | ⟨.transNew, index⟩ => 14 + 8 * index
    | ⟨.defNew, 0⟩ => 32
    | ⟨.defNew, index⟩ => 26 + 8 * index
  transEdens := 2
  survivors := 1
  useBiasedLocking := true
  markSweepDeadRatio := 5
  markSweepAlwaysCompactCount := 4
  invocations := 1

/-- Tenured holds one live object of four words, each trans eden one of five. -/
def tightStore (live : Bool) : Store where
  mem
    | 0 => 3
    | 1 => 2
    | 8 => 3
    | 9 => 3
    | 16 => if live then 3 else 1
    | 17 => 3
    | _ => 0
  top
    | ⟨.tenured, _⟩ => 4
    | ⟨.transNew, index⟩ => 13 + 8 * index
    | ⟨.defNew, index⟩ => 24 + 8 * index
  compactionTop _ := 0
  firstDead _ := 0
  endOfLive _ := 0

theorem tightHeap_spaces {space : SpaceRef} (valid : Valid tightHeap space) :
    space = ⟨.tenured, 0⟩ ∨ space = ⟨.transNew, 0⟩ ∨ space = ⟨.transNew, 1⟩ ∨
      space = ⟨.defNew, 0⟩ ∨ space = ⟨.defNew, 1⟩ := by
  have among := mem_scanOrder.mpr valid
  simpa [Heap.scanOrder, Heap.chain, Heap.count, tightHeap, range_succ] using among

theorem tightStore_wellFormed (live : Bool) : WellFormed tightHeap (tightStore live) where
  below space valid := by
    rcases tightHeap_spaces valid with rfl | rfl | rfl | rfl | rfl <;>
      simp [tightStore, tightHeap]
  tiled space valid := by
    rcases tightHeap_spaces valid with rfl | rfl | rfl | rfl | rfl
    · exact .object (.done 4)
    · exact .object (.done 13)
    · exact .object (.done 21)
    · exact .done 24
    · exact .done 32
  apart space other valid valid' distinct := by
    rcases tightHeap_spaces valid with rfl | rfl | rfl | rfl | rfl <;>
      rcases tightHeap_spaces valid' with rfl | rfl | rfl | rfl | rfl <;>
        first | exact absurd rfl distinct | decide

/-- With one of the two objects dead the other one goes to DefNew's eden. -/
theorem forward_of_one_live_eden :
    ∃ done, prepareForCompaction tightHeap (tightStore false) = .ok done :=
  (forward_finds_destination_iff (tightStore_wellFormed false)).1.mpr ⟨0, by decide, by decide⟩

/-- With both live the second one fits neither behind the first nor into the from space. -/
theorem second_live_eden_has_no_destination :
    WellFormed tightHeap (tightStore true) ∧
      prepareForCompaction tightHeap (tightStore true) = .error .nullGeneration :=
  ⟨tightStore_wellFormed true, rfl⟩

end ForwardFits
