import TransGC.CompactionSafety

/-!
# Forwarding a space into itself

When a space is its own destination, what is placed goes to the next free address below or at its
own, one block behind the other. The file computes that plan for any budget of dead words, shows
that the scan carries it out, and lists the calls of `forward`.
-/
namespace SlidePlan
open CompactSpaces MarkWord OrderedMoves ForwardPlan ForwardScan ForwardFits CompactionMoves Function List

/-- With the compact point at the bottom of the space itself and dead words allowed to stay. -/
def startScan (heap : Heap) (this : SpaceRef) (allowedDeadspace : Nat) (store : Store) : Scan where
  store := store.setCompactionTop this (heap.bottom this)
  space := this
  compactTop := (store.setCompactionTop this (heap.bottom this)).compactionTop this
  allowedDeadspace := allowedDeadspace
  endOfLive := heap.bottom this
  firstDead := heap.limit this
  liveRange := none

/-- `SCAN_AND_FORWARD` of a space into itself. -/
def scanAndForwardWithin (heap : Heap) (this : SpaceRef) (allowedDeadspace : Nat) (store : Store) :
    Except Fault (Store × SpaceRef) :=
  let q := heap.bottom this
  let t := store.top this
  (scanLoop heap t (t - q) q (startScan heap this allowedDeadspace store)).map (finishScan this t)

/-- The budget that the code computes is one of them. -/
example (heap : Heap) (this : SpaceRef) (store : Store) :
    scanAndForward heap this (some this) store =
      scanAndForwardWithin heap this (heap.allowedDeadspace this) store := rfl

/-! ### The plan -/

def slide : List Run → Nat → Nat → Nat → List Item
  | [], _, _, _ => []
  | run :: rest, q, allowed, top =>
    if run.live then .placed run.size top :: slide rest (q + run.size) allowed (top + run.size)
    else if allowed > 0 ∧ q = top then
      if allowed ≥ run.size then
        .placed run.size top :: slide rest (q + run.size) (allowed - run.size) (top + run.size)
      else .gap run.size :: slide rest (q + run.size) 0 top
    else .gap run.size :: slide rest (q + run.size) allowed top

def placedSize : List Item → Nat
  | [] => 0
  | .placed size _ :: items => size + placedSize items
  | .gap _ :: items => placedSize items

/-- The moves fill the words from `first` to `last`, one target behind the other. -/
def Packed : Nat → List Move → Nat → Prop
  | first, [], last => first = last
  | first, m :: ms, last => m.target = first ∧ Packed (first + m.size) ms last

variable {heap : Heap} {this : SpaceRef} {rest : List Run} {q allowed top : Nat}

theorem slide_cons (run : Run) (rest : List Run) (q allowed top : Nat) :
    (∃ left, (run.live = true ∨ q = top) ∧ slide (run :: rest) q allowed top =
        .placed run.size top :: slide rest (q + run.size) left (top + run.size)) ∨
      ∃ left, run.live = false ∧ slide (run :: rest) q allowed top =
        .gap run.size :: slide rest (q + run.size) left top := by
  obtain ⟨live, size⟩ := run
  cases live with
  | true => exact .inl ⟨allowed, .inl rfl, by simp [slide]⟩
  | false =>
    by_cases may : allowed > 0 ∧ q = top
    · by_cases short : allowed ≥ size
      · exact .inl ⟨allowed - size, .inr may.2, by simp [slide, may, short]⟩
      · exact .inr ⟨0, rfl, by simp [slide, may, short]⟩
    · refine .inr ⟨allowed, rfl, ?_⟩
      rw [slide, if_neg (by simp), if_neg may]

theorem plan_slide (ahead : List SpaceRef) (below : top ≤ q)
    (room : q + total rest ≤ heap.limit this) :
    plan heap rest q allowed ⟨this, top, ahead⟩ =
      some (slide rest q allowed top,
        ⟨this, top + placedSize (slide rest q allowed top), ahead⟩) := by
  induction rest generalizing q allowed top with
  | nil => rfl
  | cons run rest ih =>
    rw [total_cons, ← add_assoc] at room
    have placing : ∀ left, planRun heap run q allowed ⟨this, top, ahead⟩ =
          some (.placed run.size top, left, ⟨this, top + run.size, ahead⟩) →
        slide (run :: rest) q allowed top =
          .placed run.size top :: slide rest (q + run.size) left (top + run.size) →
        plan heap (run :: rest) q allowed ⟨this, top, ahead⟩ =
          some (slide (run :: rest) q allowed top,
            ⟨this, top + placedSize (slide (run :: rest) q allowed top), ahead⟩) := by
      intro left head shape
      have tail := @ih (q + run.size) left (top + run.size) (Nat.add_le_add_right below run.size) room
      rw [shape, placedSize, ← add_assoc]
      exact plan_cons_eq_some.mpr ⟨_, _, _, _, head, tail, rfl⟩
    have skipping : ∀ left, planRun heap run q allowed ⟨this, top, ahead⟩ =
          some (.gap run.size, left, ⟨this, top, ahead⟩) →
        slide (run :: rest) q allowed top = .gap run.size :: slide rest (q + run.size) left top →
        plan heap (run :: rest) q allowed ⟨this, top, ahead⟩ =
          some (slide (run :: rest) q allowed top,
            ⟨this, top + placedSize (slide (run :: rest) q allowed top), ahead⟩) := by
      intro left head shape
      have tail := @ih (q + run.size) left top (below.trans (Nat.le_add_right q run.size)) room
      rw [shape, placedSize]
      exact plan_cons_eq_some.mpr ⟨_, _, _, _, head, tail, rfl⟩
    have fits : top + run.size ≤ heap.limit this := by omega
    obtain ⟨live, size⟩ := run
    cases live with
    | true => exact placing allowed (planRun_live_here fits) (by simp [slide])
    | false =>
      by_cases may : allowed > 0 ∧ q = top
      · by_cases short : allowed ≥ size
        · refine placing (allowed - size) ?_ (by simp [slide, may, short])
          rw [planRun_kept may short, place_here fits]
          rfl
        · exact skipping 0 (planRun_long may short) (by simp [slide, may, short])
      · refine skipping allowed (planRun_gap may) ?_
        rw [slide, if_neg (by simp), if_neg may]

/-! ### What the plan does -/

theorem slide_packed (rest : List Run) (q allowed top : Nat) :
    Packed top (moves q (slide rest q allowed top))
      (top + placedSize (slide rest q allowed top)) := by
  induction rest generalizing q allowed top with
  | nil => rfl
  | cons run rest ih =>
    rcases slide_cons run rest q allowed top with ⟨left, -, shape⟩ | ⟨left, -, shape⟩
    · rw [shape, moves, placedSize, ← add_assoc]
      exact ⟨rfl, ih _ _ _⟩
    · rw [shape, moves, placedSize]
      exact ih _ _ _

theorem slide_down (below : top ≤ q) :
    ∀ m ∈ moves q (slide rest q allowed top), m.target ≤ m.source := by
  induction rest generalizing q allowed top with
  | nil =>
    intro m among
    cases among
  | cons run rest ih =>
    intro m among
    rcases slide_cons run rest q allowed top with ⟨left, -, shape⟩ | ⟨left, -, shape⟩
    · rw [shape, moves] at among
      rcases mem_cons.mp among with rfl | among
      · exact below
      · exact ih (Nat.add_le_add_right below run.size) m among
    · rw [shape, moves] at among
      exact ih (below.trans (Nat.le_add_right q run.size)) m among

theorem slide_moving (below : top < q) : Moving q (slide rest q allowed top) := by
  induction rest generalizing q allowed top with
  | nil => trivial
  | cons run rest ih =>
    rcases slide_cons run rest q allowed top with ⟨left, -, shape⟩ | ⟨left, -, shape⟩
    · rw [shape]
      exact ⟨below.ne, ih (Nat.add_lt_add_right below run.size)⟩
    · rw [shape]
      exact ih (Nat.lt_add_right run.size below)

theorem slide_staying (large : ∀ run ∈ rest, 2 ≤ run.size) :
    Staying q (slide rest q allowed q) := by
  induction rest generalizing q allowed with
  | nil => trivial
  | cons run rest ih =>
    rw [forall_mem_cons] at large
    rcases slide_cons run rest q allowed q with ⟨left, -, shape⟩ | ⟨left, -, shape⟩
    · rw [shape]
      exact ⟨rfl, ih large.2⟩
    · rw [shape]
      exact slide_moving (by omega)

theorem slide_placed (below : top ≤ q) :
    ∀ m ∈ moves q (slide rest q allowed top),
      (m.source, m.size) ∈ liveAt q rest ∨ m.target = m.source := by
  induction rest generalizing q allowed top with
  | nil =>
    intro m among
    cases among
  | cons run rest ih =>
    intro m among
    have later : ∀ {top' left}, top' ≤ q + run.size →
        m ∈ moves (q + run.size) (slide rest (q + run.size) left top') →
        (m.source, m.size) ∈ liveAt q (run :: rest) ∨ m.target = m.source := by
      intro top' left below' among'
      rcases ih below' m among' with live | stays
      · rw [liveAt]
        split
        · exact .inl (mem_cons_of_mem _ live)
        · exact .inl live
      · exact .inr stays
    rcases slide_cons run rest q allowed top with ⟨left, reason, shape⟩ | ⟨left, -, shape⟩
    · rw [shape, moves] at among
      rcases mem_cons.mp among with rfl | among
      · rcases reason with live | stays
        · rw [liveAt, if_pos live]
          exact .inl mem_cons_self
        · exact .inr stays.symm
      · exact later (Nat.add_le_add_right below run.size) among
    · rw [shape, moves] at among
      exact later (below.trans (Nat.le_add_right q run.size)) among

theorem packed_le {first last : Nat} {ms : List Move} (packed : Packed first ms last) :
    first ≤ last ∧ ∀ m ∈ ms, first ≤ m.target ∧ m.target + m.size ≤ last := by
  induction ms generalizing first with
  | nil =>
    refine ⟨packed.le, fun m among => ?_⟩
    cases among
  | cons m ms ih =>
    obtain ⟨start, rest⟩ := packed
    obtain ⟨low, each⟩ := ih rest
    refine ⟨by omega, fun m' among => ?_⟩
    rcases mem_cons.mp among with rfl | among
    · exact ⟨start.ge, by omega⟩
    · have := each m' among
      omega

theorem packed_ascending {first last : Nat} {ms : List Move} (packed : Packed first ms last) :
    ms.Pairwise fun m m' => m.target + m.size ≤ m'.target := by
  induction ms generalizing first with
  | nil => exact .nil
  | cons m ms ih =>
    obtain ⟨start, rest⟩ := packed
    refine .cons (fun m' among => ?_) (ih rest)
    have := (packed_le rest).2 m' among
    omega

/-! ### The scan -/

/-- Whether the loop of `SCAN_AND_FORWARD` calls `forward` for the block at `q`. -/
def callsForward (heap : Heap) (t q : Nat) (scan : Scan) : Bool :=
  isMarked (scan.store.mem q) ||
    (scan.allowedDeadspace > 0 && q == scan.compactTop &&
      scan.allowedDeadspace ≥ endOfDead heap scan.store.mem t (t - q) q - q)

/-- The addresses for which the loop calls `forward`, in the order of the calls. -/
def forwardCalls (heap : Heap) (t : Nat) : Nat → Nat → Scan → List Nat
  | 0, _, _ => []
  | fuel + 1, q, scan =>
    if q < t then
      match scanBlock heap t q scan with
      | .ok (next, scan') =>
        if callsForward heap t q scan then q :: forwardCalls heap t fuel next scan'
        else forwardCalls heap t fuel next scan'
      | .error _ => []
    else []

theorem callsForward_iff {mem : Nat → Nat} {t : Nat} {scan : Scan} {item : Item} {left : Nat}
    {c : Cursor} (tiled : Tiled heap mem q t) (below : q < t)
    (same : SameOn mem scan.store.mem q t)
    (planned : planRun heap (runAt heap mem t q) q scan.allowedDeadspace
      (cursorAt heap scan.space scan.compactTop) = some (item, left, c)) :
    callsForward heap t q scan = true ↔ ∃ size target, item = .placed size target := by
  have mark : scan.store.mem q = mem q := same q le_rfl below
  by_cases marked : isMarked (mem q) = true
  · have run : runAt heap mem t q = ⟨true, heap.sizeAt mem q⟩ := if_pos marked
    rw [run] at planned
    have calls : callsForward heap t q scan = true := by simp [callsForward, mark, marked]
    rcases planRun_cases planned with ⟨target, placed, -⟩ | ⟨dead, -, -⟩
    · exact iff_of_true calls ⟨_, target, placed⟩
    · cases dead
  · have run : runAt heap mem t q = ⟨false, endOfDead heap mem t (t - q) q - q⟩ := if_neg marked
    rw [run] at planned
    have calls : callsForward heap t q scan = true ↔
        (scan.allowedDeadspace > 0 ∧ q = scan.compactTop) ∧
          scan.allowedDeadspace ≥ endOfDead heap mem t (t - q) q - q := by
      simp [callsForward, mark, marked, same.endOfDead tiled below]
    rw [calls]
    by_cases may : scan.allowedDeadspace > 0 ∧ q = scan.compactTop
    · by_cases short : scan.allowedDeadspace ≥ endOfDead heap mem t (t - q) q - q
      · rw [planRun_kept may short] at planned
        obtain ⟨⟨target, m⟩, -, found⟩ := Option.map_eq_some_iff.mp planned
        cases found
        exact iff_of_true ⟨may, short⟩ ⟨_, target, rfl⟩
      · rw [planRun_long may short] at planned
        cases planned
        exact iff_of_false (fun both => short both.2) (by rintro ⟨_, _, ⟨⟩⟩)
    · rw [planRun_gap may] at planned
      cases planned
      exact iff_of_false (fun both => may both.1) (by rintro ⟨_, _, ⟨⟩⟩)

/-- The calls of `forward` are those for the blocks that the plan places. -/
theorem forwardCalls_eq {mem : Nat → Nat} {t fuel : Nat} {scan : Scan} {items : List Item}
    {c : Cursor} (tiled : Tiled heap mem q t) (same : SameOn mem scan.store.mem q t)
    (valid : Valid heap scan.space) (range : ∀ a, Open scan a → a < q)
    (planned : plan heap (runs heap mem t fuel q) q scan.allowedDeadspace
      (cursorAt heap scan.space scan.compactTop) = some (items, c)) :
    forwardCalls heap t fuel q scan = (moves q items).map Move.source := by
  induction fuel generalizing q scan items with
  | zero =>
    cases planned
    rfl
  | succ fuel ih =>
    by_cases below : q < t
    · rw [runs, if_pos below] at planned
      obtain ⟨item, left, m, behind, head, tail, rfl⟩ := plan_cons_eq_some.mp planned
      obtain ⟨large, further⟩ := runAt_bounds tiled below
      have agrees := scanBlock_agrees tiled below same valid
      rw [head] at agrees
      cases scanned : scanBlock heap t q scan with
      | error fault =>
        rw [scanned] at agrees
        cases fault <;> exact agrees.elim
      | ok result =>
        obtain ⟨next, scan'⟩ := result
        rw [scanned] at agrees
        have block : BlockDone heap scan q (runAt heap mem t q) (next, scan') (item, left, m) := agrees
        obtain rfl : next = q + (runAt heap mem t q).size := block.next
        obtain rfl : left = scan'.allowedDeadspace := block.allowed
        obtain rfl : m = cursorAt heap scan'.space scan'.compactTop := block.points.cursor
        have rest := ih further (block.same_after range same) block.points.valid
          (block.range_after range large) tail
        have length : item.size = (runAt heap mem t q).size := block.size
        rw [forwardCalls, if_pos below, scanned]
        dsimp only
        rw [rest, ← length]
        have calls := callsForward_iff tiled below same head
        cases item with
        | placed size target =>
          rw [if_pos (calls.mpr ⟨size, target, rfl⟩), moves, map_cons]
          rfl
        | gap size =>
          rw [if_neg fun called => ?_]
          · rfl
          · obtain ⟨_, _, placed⟩ := calls.mp called
            cases placed
    · rw [runs, if_neg below] at planned
      cases planned
      rw [forwardCalls, if_neg below]
      rfl

/-- The plan of the space `this` for itself. -/
def slideSpace (heap : Heap) (store : Store) (this : SpaceRef) (allowed : Nat) : List Item :=
  slide (spaceRuns heap store this) (heap.bottom this) allowed (heap.bottom this)

section Scan

variable {store : Store} (valid : Valid heap this)
  (tiled : Tiled heap store.mem (heap.bottom this) (store.top this))
  (below : store.top this ≤ heap.limit this)

include tiled below in
theorem plan_slideSpace (allowed : Nat) :
    plan heap (spaceRuns heap store this) (heap.bottom this) allowed
        (cursorAt heap this (heap.bottom this)) =
      some (slideSpace heap store this allowed, cursorAt heap this
        (heap.bottom this + placedSize (slideSpace heap store this allowed))) := by
  have facts := runs_facts tiled le_rfl
  exact plan_slide (later heap this) le_rfl (by rw [spaceRuns, facts.2]; exact below)

include valid tiled below in
/-- Forwarding into the own space always succeeds and records the plan. -/
theorem scanAndForwardWithin_done (allowed : Nat) :
    ∃ done, scanAndForwardWithin heap this allowed store = .ok (done, this) ∧
      done.compactionTop this = heap.bottom this + placedSize (slideSpace heap store this allowed) ∧
      SpaceDone heap store this (slideSpace heap store this allowed) done ∧
      (∀ a, a < heap.bottom this ∨ store.top this ≤ a → done.mem a = store.mem a) ∧
      done.top = store.top := by
  have entered : SameButTops store (store.setCompactionTop this (heap.bottom this)) :=
    ⟨rfl, rfl, rfl, rfl⟩
  have agrees := finishScan_agrees allowed tiled (fun _ _ _ => rfl) rfl entered valid
  rw [Store.setCompactionTop_compactionTop, update_self, plan_slideSpace tiled below] at agrees
  have start : startScan heap this allowed store = ⟨store.setCompactionTop this (heap.bottom this),
      this, heap.bottom this, allowed, heap.bottom this, heap.limit this, none⟩ := by
    rw [startScan, Store.setCompactionTop_compactionTop, update_self]
  obtain ⟨result, finished, done⟩ : ∃ result, scanAndForwardWithin heap this allowed store =
      .ok result ∧ ScanDone heap store store this result _ := by
    rw [scanAndForwardWithin, start]
    exact agrees.some_right
  obtain ⟨after, space⟩ := result
  have cursor := done.points.cursor
  obtain rfl : this = space := congrArg NextFit.Cursor.bin cursor
  exact ⟨after, finished, (congrArg NextFit.Cursor.top cursor).symm, done.space, done.frame,
    done.top⟩

include valid tiled below in
theorem forwardCalls_slideSpace (allowed : Nat) :
    forwardCalls heap (store.top this) (store.top this - heap.bottom this) (heap.bottom this)
        (startScan heap this allowed store) =
      (moves (heap.bottom this) (slideSpace heap store this allowed)).map Move.source := by
  have start : (startScan heap this allowed store).compactTop = heap.bottom this :=
    update_self _ _ _
  have closed : ∀ a, Open (startScan heap this allowed store) a → a < heap.bottom this := by
    rintro a ⟨range, none, -⟩
    cases none
  have cursor : cursorAt heap this (heap.bottom this) =
      cursorAt heap this (startScan heap this allowed store).compactTop := by rw [start]
  have planned := plan_slideSpace tiled below allowed
  rw [cursor] at planned
  exact forwardCalls_eq tiled (fun _ _ _ => rfl) valid closed planned

end Scan

end SlidePlan
