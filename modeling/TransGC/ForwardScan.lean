import Mathlib.Data.List.Nodup
import TransGC.ForwardPlan

/-!
# The forwarding pass carries out its plan

The induction follows the scan of one space from `q` to its top. Ahead of `q` the words are those
from before the scan; behind `q` every item of the plan is readable in its first words. The one
word behind `q` that the scan still writes is the second word of the last gap.
-/
namespace ForwardScan
open CompactSpaces MarkWord OrderedMoves ForwardPlan Function List

/-- Objects follow each other without a hole from one address to the other. -/
inductive Tiled (heap : Heap) (mem : Nat → Nat) : Nat → Nat → Prop
  | done (a : Nat) : Tiled heap mem a a
  | object {a t : Nat} (rest : Tiled heap mem (a + heap.sizeAt mem a) t) : Tiled heap mem a t

def SameOn (mem mem' : Nat → Nat) (q t : Nat) : Prop := ∀ a, q ≤ a → a < t → mem' a = mem a

variable {heap : Heap} {mem mem' : Nat → Nat} {q t a fuel size : Nat} {c : Cursor}
  {planned : Item × Nat × Cursor} {done : Nat × Scan} {cp : Option SpaceRef} {run : Run}
  {scan : Scan} {space this : SpaceRef} {first store : Store}

theorem two_le_sizeAt (heap : Heap) (mem : Nat → Nat) (q : Nat) : 2 ≤ heap.sizeAt mem q :=
  heap.objects.two_le_size _

theorem Tiled.le (tiled : Tiled heap mem q t) : q ≤ t := by
  induction tiled with
  | done a => exact le_rfl
  | object rest ih => omega

theorem Tiled.next (tiled : Tiled heap mem q t) (below : q < t) :
    Tiled heap mem (q + heap.sizeAt mem q) t := by
  cases tiled with
  | done => omega
  | object rest => exact rest

theorem SameOn.sizeAt (same : SameOn mem mem' q t) (tiled : Tiled heap mem q t) (below : q < t) :
    heap.sizeAt mem' q = heap.sizeAt mem q := by
  have inside := (tiled.next below).le
  have large := two_le_sizeAt heap mem q
  rw [Heap.sizeAt, Heap.sizeAt, same (q + 1) (by omega) (by omega)]

theorem SameOn.mono {q' : Nat} (same : SameOn mem mem' q t) (above : q ≤ q') :
    SameOn mem mem' q' t := fun a low high => same a (above.trans low) high

theorem endOfDead_bounds (tiled : Tiled heap mem q t) (below : q < t) (enough : t - q ≤ fuel) :
    q + 2 ≤ endOfDead heap mem t fuel q ∧ Tiled heap mem (endOfDead heap mem t fuel q) t := by
  induction fuel generalizing q with
  | zero => omega
  | succ fuel ih =>
    have large := two_le_sizeAt heap mem q
    have next := tiled.next below
    rw [endOfDead]
    split
    · rename_i dead
      have further := ih next dead.1 (by omega)
      exact ⟨by omega, further.2⟩
    · exact ⟨by omega, next⟩

theorem SameOn.endOfDead (same : SameOn mem mem' q t) (tiled : Tiled heap mem q t) (below : q < t) :
    endOfDead heap mem' t fuel q = endOfDead heap mem t fuel q := by
  induction fuel generalizing q with
  | zero => rfl
  | succ fuel ih =>
    have next := tiled.next below
    rw [CompactSpaces.endOfDead, CompactSpaces.endOfDead, same.sizeAt tiled below]
    by_cases inside : q + heap.sizeAt mem q < t
    · rw [same _ (Nat.le_add_right _ _) inside, ih (same.mono (Nat.le_add_right _ _)) next inside]
    · simp [inside]

/-! ### One block -/

/-- The item is readable in the first words at `q`. -/
def ItemAt (heap : Heap) (mem : Nat → Nat) (q : Nat) : Item → Prop
  | .placed size target => 2 ≤ size ∧ heap.sizeAt mem q = size ∧
      mem q = if q ≠ target then encodePointerAsMark (8 * target) else heap.initMark mem q
  | .gap size => 2 ≤ size ∧ mem q = 8 * (q + size)

/-- The stores differ at most in the words and the compaction tops. -/
structure SameFields (store store' : Store) : Prop where
  top : store'.top = store.top
  firstDead : store'.firstDead = store.firstDead
  endOfLive : store'.endOfLive = store.endOfLive

theorem SameFields.trans {store' store'' : Store} (first : SameFields store store')
    (second : SameFields store' store'') : SameFields store store'' :=
  ⟨second.top.trans first.top, second.firstDead.trans first.firstDead,
    second.endOfLive.trans first.endOfLive⟩

/-- The address is the second word of the gap that the scan has still to complete. -/
def Open (scan : Scan) (a : Nat) : Prop := ∃ range, scan.liveRange = some range ∧ a = range + 1

structure BlockDone (heap : Heap) (scan : Scan) (q : Nat) (run : Run) (done : Nat × Scan)
    (planned : Item × Nat × Cursor) : Prop where
  next : done.1 = q + run.size
  size : planned.1.size = run.size
  live : run.live = true → ∃ target, planned.1 = .placed run.size target
  allowed : planned.2.1 = done.2.allowedDeadspace
  points : Points heap done.2.space done.2.compactTop planned.2.2
  item : ItemAt heap done.2.store.mem q planned.1
  words : run.live = true → ∀ a, q < a → a < q + run.size →
    done.2.store.mem a = scan.store.mem a
  frame : ∀ a, a < q ∨ q + run.size ≤ a → ¬ Open scan a → done.2.store.mem a = scan.store.mem a
  liveRange : done.2.liveRange = planned.1.liveRange q scan.liveRange
  endOfLive : done.2.endOfLive = planned.1.endOfLive q scan.endOfLive
  firstDead : done.2.firstDead = planned.1.firstDead q scan.firstDead
  fields : SameFields scan.store done.2.store

/-- The new mark, the one word that `forward` writes. -/
def forwardMark (heap : Heap) (mem : Nat → Nat) (q target : Nat) : Nat :=
  if q ≠ target then encodePointerAsMark (8 * target) else heap.initMark mem q

theorem forward_agrees {compactTop : Nat} (positive : 0 < size) (valid : Valid heap space) :
    Agrees (fun done placed =>
        done.1.mem = update store.mem q (forwardMark heap store.mem q placed.1) ∧
          SameFields store done.1 ∧ Points heap done.2.1 done.2.2 placed.2)
      (forward heap store q size space compactTop)
      (place heap (cursorAt heap space compactTop) size) := by
  have enough : (later heap space).length < heap.transEdens + heap.survivors + 3 := by
    rcases space with ⟨gen, index⟩
    cases gen <;> simp [later, Heap.chain, Heap.count] <;> omega
  refine (findSpace_agrees heap positive valid enough).map_left ?_
  rintro ⟨store', space', target⟩ placed ⟨same, rfl, points⟩
  refine ⟨?_, ⟨same.top, same.firstDead, same.endOfLive⟩, points⟩
  rw [Store.setMem_mem, same.mem]
  rfl

/-- `filled` is the scan with one object in the block: the live one, or a filler. -/
structure Filled (heap : Heap) (scan : Scan) (q : Nat) (run : Run) (filled : Scan) : Prop where
  size : heap.sizeAt filled.store.mem q = run.size
  words : run.live = true → ∀ a, q < a → a < q + run.size → filled.store.mem a = scan.store.mem a
  frame : ∀ a, a < q ∨ q + run.size ≤ a → filled.store.mem a = scan.store.mem a
  fields : SameFields scan.store filled.store
  space : filled.space = scan.space
  compactTop : filled.compactTop = scan.compactTop
  liveRange : filled.liveRange = scan.liveRange
  firstDead : filled.firstDead = scan.firstDead

theorem forwardBlock_agrees {filled : Scan} (valid : Valid heap scan.space) (large : 2 ≤ run.size)
    (fill : Filled heap scan q run filled) :
    Agrees (BlockDone heap scan q run) (forwardBlock heap filled q run.size)
      ((place heap (cursorAt heap scan.space scan.compactTop) run.size).map
        fun (target, c) => (.placed run.size target, filled.allowedDeadspace, c)) := by
  rw [forwardBlock, fill.space, fill.compactTop]
  refine (forward_agrees (by omega) valid).map ?_
  rintro ⟨store, space, compactTop⟩ ⟨target, c⟩ ⟨mem, fields, points⟩
  have header : store.mem (q + 1) = filled.store.mem (q + 1) := by
    rw [mem, update_of_ne (by omega)]
  have others : ∀ a, a ≠ q → store.mem a = filled.store.mem a := fun a other => by
    rw [mem, update_of_ne other]
  exact {
    next := rfl
    size := rfl
    live := fun _ => ⟨target, rfl⟩
    allowed := rfl
    points := points
    item := by
      refine ⟨large, ?_, ?_⟩
      · rw [Heap.sizeAt, header]
        exact fill.size
      · rw [Heap.initMark, header, mem, update_self]
        rfl
    words := fun live a above below => by
      rw [others a (by omega), fill.words live a above below]
    frame := fun a outside _ => by
      rw [others a (by omega), fill.frame a outside]
    liveRange := fill.liveRange
    endOfLive := rfl
    firstDead := fill.firstDead
    fields := fill.fields.trans fields }

theorem setEndIfAny_mem {stop : Nat} (closed : ¬ Open scan a) :
    (setEndIfAny scan.store scan.liveRange stop).mem a = scan.store.mem a := by
  cases last : scan.liveRange with
  | none => rfl
  | some range =>
    refine update_of_ne ?_ _ _
    rintro rfl
    exact closed ⟨range, last, rfl⟩

theorem setEndIfAny_fields (store : Store) (liveRange : Option Nat) (stop : Nat) :
    SameFields store (setEndIfAny store liveRange stop) := by
  cases liveRange <;> exact ⟨rfl, rfl, rfl⟩

theorem recordDead_done {allowed : Nat} (large : 2 ≤ size)
    (points : Points heap scan.space scan.compactTop c) :
    BlockDone heap scan q ⟨false, size⟩
      (q + size, recordDead { scan with allowedDeadspace := allowed } q (q + size))
      (.gap size, allowed, c) := by
  have fields := setEndIfAny_fields scan.store scan.liveRange q
  exact {
    next := rfl
    size := rfl
    live := fun live => by cases live
    allowed := rfl
    points := points
    item := by
      refine ⟨large, ?_⟩
      simp [recordDead, setEnd]
    words := fun live => by cases live
    frame := fun a outside closed => by
      dsimp only at outside
      have notFirst : a ≠ q := by omega
      have notSecond : a ≠ q + 1 := by omega
      have kept : (setEndIfAny scan.store scan.liveRange q).mem a = scan.store.mem a :=
        setEndIfAny_mem closed
      simpa [recordDead, setEnd, notFirst, notSecond] using kept
    liveRange := rfl
    endOfLive := rfl
    firstDead := rfl
    fields := ⟨fields.top, fields.firstDead, fields.endOfLive⟩ }

theorem runAt_bounds (tiled : Tiled heap mem q t) (below : q < t) :
    2 ≤ (runAt heap mem t q).size ∧ Tiled heap mem (q + (runAt heap mem t q).size) t := by
  rw [runAt]
  split
  · exact ⟨two_le_sizeAt heap mem q, tiled.next below⟩
  · have bounds := endOfDead_bounds tiled below le_rfl
    refine ⟨by dsimp only; omega, ?_⟩
    have rejoin : q + (endOfDead heap mem t (t - q) q - q) = endOfDead heap mem t (t - q) q := by
      omega
    rw [rejoin]
    exact bounds.2

theorem insertDeadspace_filled (large : 2 ≤ size) (short : scan.allowedDeadspace ≥ size) :
    ∃ filled, insertDeadspace heap scan q size = (filled, true) ∧
      filled.allowedDeadspace = scan.allowedDeadspace - size ∧
      Filled heap scan q ⟨false, size⟩ filled := by
  refine ⟨_, if_pos short, rfl, ?_⟩
  exact {
    size := by
      simpa [Heap.sizeAt] using heap.objects.size_filler size large
    words := fun live => by cases live
    frame := fun a outside => by
      dsimp only at outside
      have notFirst : a ≠ q := by omega
      have notSecond : a ≠ q + 1 := by omega
      simp [notFirst, notSecond]
    fields := ⟨rfl, rfl, rfl⟩
    space := rfl
    compactTop := rfl
    liveRange := rfl
    firstDead := rfl }

theorem scanBlock_dead (large : 2 ≤ size) (valid : Valid heap scan.space) :
    Agrees (BlockDone heap scan q ⟨false, size⟩)
      (if scan.allowedDeadspace > 0 ∧ q = scan.compactTop then
        match insertDeadspace heap scan q size with
        | (scan, true) => forwardBlock heap scan q size
        | (scan, false) => .ok (q + size, recordDead scan q (q + size))
      else .ok (q + size, recordDead scan q (q + size)))
      (planRun heap ⟨false, size⟩ q scan.allowedDeadspace
        (cursorAt heap scan.space scan.compactTop)) := by
  have points : Points heap scan.space scan.compactTop
      (cursorAt heap scan.space scan.compactTop) := ⟨valid, rfl⟩
  by_cases may : scan.allowedDeadspace > 0 ∧ q = scan.compactTop
  · rw [if_pos may]
    by_cases short : scan.allowedDeadspace ≥ size
    · obtain ⟨filled, inserted, left, fill⟩ := insertDeadspace_filled large short
      rw [inserted, planRun_kept may short, ← left]
      exact forwardBlock_agrees valid large fill
    · have refused : insertDeadspace heap scan q size =
          ({ scan with allowedDeadspace := 0 }, false) := if_neg short
      rw [refused, planRun_long may short]
      exact recordDead_done large points
  · rw [if_neg may, planRun_gap may]
    exact recordDead_done large points

theorem scanBlock_agrees (tiled : Tiled heap mem q t) (below : q < t)
    (same : SameOn mem scan.store.mem q t) (valid : Valid heap scan.space) :
    Agrees (BlockDone heap scan q (runAt heap mem t q)) (scanBlock heap t q scan)
      (planRun heap (runAt heap mem t q) q scan.allowedDeadspace
        (cursorAt heap scan.space scan.compactTop)) := by
  have mark := same q le_rfl below
  by_cases marked : isMarked (mem q) = true
  · have run : runAt heap mem t q = ⟨true, heap.sizeAt mem q⟩ := if_pos marked
    rw [run, scanBlock, mark, if_pos marked, same.sizeAt tiled below]
    exact forwardBlock_agrees valid (two_le_sizeAt heap mem q)
      { size := same.sizeAt tiled below, words := fun _ _ _ _ => rfl, frame := fun _ _ => rfl
        fields := ⟨rfl, rfl, rfl⟩, space := rfl, compactTop := rfl, liveRange := rfl
        firstDead := rfl }
  · have run : runAt heap mem t q = ⟨false, endOfDead heap mem t (t - q) q - q⟩ := if_neg marked
    have further := endOfDead_bounds tiled below le_rfl
    obtain ⟨size, stop⟩ : ∃ size, endOfDead heap mem t (t - q) q = q + size :=
      ⟨endOfDead heap mem t (t - q) q - q, by omega⟩
    rw [run, scanBlock, mark, if_neg marked, same.endOfDead tiled below, stop]
    dsimp only
    rw [Nat.add_sub_cancel_left]
    exact scanBlock_dead (by omega) valid

/-! ### One space -/

/-- The items are readable one after the other from `q` on. -/
def Reflects (heap : Heap) (mem : Nat → Nat) : Nat → List Item → Prop
  | _, [] => True
  | q, item :: items => ItemAt heap mem q item ∧ Reflects heap mem (q + item.size) items

/-- The words at the end of the scan, with the last gap complete. -/
def closed (scan : Scan) (t : Nat) : Nat → Nat := (setEndIfAny scan.store scan.liveRange t).mem

structure LoopDone (heap : Heap) (scan : Scan) (q t : Nat) (rest : List Run) (done : Scan)
    (planned : List Item × Cursor) : Prop where
  points : Points heap done.space done.compactTop planned.2
  stop : q + span planned.1 = t
  reflects : Reflects heap (closed done t) q planned.1
  words : ∀ object ∈ liveAt q rest, ∀ a, object.1 < a → a < object.1 + object.2 →
    closed done t a = scan.store.mem a
  frame : ∀ a, a < q ∨ t ≤ a → ¬ Open scan a → closed done t a = scan.store.mem a
  endOfLive : done.endOfLive = endOfLive planned.1 q scan.endOfLive
  firstDead : done.firstDead = firstDead planned.1 q scan.firstDead
  fields : SameFields scan.store done.store

theorem ItemAt.congr {item : Item} (here : ItemAt heap mem q item) (mark : mem' q = mem q)
    (header : ∀ size target, item = .placed size target → mem' (q + 1) = mem (q + 1)) :
    ItemAt heap mem' q item := by
  cases item with
  | placed size target =>
    obtain ⟨large, same, word⟩ := here
    have second := header size target rfl
    exact ⟨large, by rwa [Heap.sizeAt, second], by rwa [mark, Heap.initMark, second]⟩
  | gap size => exact ⟨here.1, mark.trans here.2⟩

theorem BlockDone.open_after (block : BlockDone heap scan q run done planned)
    (isOpen : Open done.2 a) : Open scan a ∨ (a = q + 1 ∧ ∃ size, planned.1 = .gap size) := by
  obtain ⟨range, last, rfl⟩ := isOpen
  rw [block.liveRange] at last
  cases item : planned.1 with
  | placed size target =>
    rw [item] at last
    exact .inl ⟨range, last, rfl⟩
  | gap size =>
    rw [item] at last
    cases last
    exact .inr ⟨rfl, size, rfl⟩

/-- Ahead of a scanned block the words are still those from before the scan. -/
theorem BlockDone.same_after (block : BlockDone heap scan q run done planned)
    (range : ∀ a, Open scan a → a < q) (same : SameOn mem scan.store.mem q t) :
    SameOn mem done.2.store.mem (q + run.size) t := by
  intro a low high
  have shut : ¬ Open scan a := fun isOpen => by
    have := range a isOpen
    omega
  exact (block.frame a (.inr low) shut).trans (same a (by omega) high)

theorem BlockDone.range_after (block : BlockDone heap scan q run done planned)
    (range : ∀ a, Open scan a → a < q) (large : 2 ≤ run.size) :
    ∀ a, Open done.2 a → a < q + run.size := by
  intro a isOpen
  rcases block.open_after isOpen with old | ⟨second, -⟩
  · have := range a old
    omega
  · omega

theorem BlockDone.cons {next : Nat × Scan} {item : Item} {allowed : Nat} {rest : List Run}
    {done : Scan} {planned : List Item × Cursor}
    (block : BlockDone heap scan q run next (item, allowed, c))
    (behind : LoopDone heap next.2 next.1 t rest done planned) (large : 2 ≤ run.size)
    (inside : q + run.size ≤ t) (range : ∀ a, Open scan a → a < q) :
    LoopDone heap scan q t (run :: rest) done (item :: planned.1, planned.2) := by
  have size : item.size = run.size := block.size
  have next_eq := block.next
  have kept : ∀ a, a < q + run.size → (∀ size, item = .gap size → a ≠ q + 1) → ¬ Open scan a →
      closed done t a = next.2.store.mem a := fun a below notSecond shut => by
    refine behind.frame a (.inl (next_eq ▸ below)) fun isOpen => ?_
    rcases block.open_after isOpen with old | ⟨second, size, gap⟩
    · exact shut old
    · exact notSecond size gap second
  have notOpen : ∀ a, q ≤ a → ¬ Open scan a := fun a low isOpen => by
    have := range a isOpen
    omega
  have stop := behind.stop
  refine ⟨behind.points, by rw [span_cons]; omega, ⟨?_, ?_⟩, ?_, ?_, ?_, ?_,
    block.fields.trans behind.fields⟩
  · refine block.item.congr (kept q (by omega) (fun _ _ => by omega) (notOpen q le_rfl)) ?_
    rintro placedSize target rfl
    exact kept (q + 1) (by omega) (fun _ gap => by cases gap) (notOpen _ (by omega))
  · rw [size, ← next_eq]
    exact behind.reflects
  · intro object among a above below
    rw [liveAt] at among
    have later : object ∈ liveAt (q + run.size) rest → closed done t a = scan.store.mem a :=
      fun among => by
        have past := le_of_mem_liveAt among
        rw [behind.words object (next_eq ▸ among) a above below,
          block.frame a (.inr (by omega)) (notOpen a (by omega))]
    split at among
    · rename_i live
      rcases mem_cons.mp among with rfl | among
      · obtain ⟨target, placed⟩ := block.live live
        dsimp only at above below placed
        rw [kept a below (fun _ gap => by rw [placed] at gap; cases gap) (notOpen a (by omega)),
          block.words live a above below]
      · exact later among
    · exact later among
  · intro a outside shut
    have same := block.frame a (outside.imp_right inside.trans) shut
    rw [← same]
    refine behind.frame a (by omega) fun isOpen => ?_
    rcases block.open_after isOpen with old | ⟨second, -⟩
    · exact shut old
    · omega
  · rw [behind.endOfLive, next_eq, block.endOfLive, ← size]
    rfl
  · rw [behind.firstDead, next_eq, block.firstDead, ← size]
    rfl

theorem loopDone_nil (finished : q = t) (valid : Valid heap scan.space) :
    LoopDone heap scan q t [] scan ([], cursorAt heap scan.space scan.compactTop) where
  points := ⟨valid, rfl⟩
  stop := finished
  reflects := trivial
  words := fun _ among => by cases among
  frame := fun _ _ shut => setEndIfAny_mem shut
  endOfLive := rfl
  firstDead := rfl
  fields := ⟨rfl, rfl, rfl⟩

theorem scanLoop_agrees (tiled : Tiled heap mem q t) (enough : t - q ≤ fuel)
    (same : SameOn mem scan.store.mem q t) (valid : Valid heap scan.space)
    (range : ∀ a, Open scan a → a < q) :
    Agrees (LoopDone heap scan q t (runs heap mem t fuel q)) (scanLoop heap t fuel q scan)
      (plan heap (runs heap mem t fuel q) q scan.allowedDeadspace
        (cursorAt heap scan.space scan.compactTop)) := by
  induction fuel generalizing q scan with
  | zero =>
    have above : ¬ q < t := by omega
    rw [scanLoop, if_neg above]
    exact loopDone_nil (le_antisymm tiled.le (not_lt.mp above)) valid
  | succ fuel ih =>
    by_cases below : q < t
    · obtain ⟨large, rest⟩ := runAt_bounds tiled below
      rw [scanLoop, if_pos below, runs, if_pos below, plan]
      refine (scanBlock_agrees tiled below same valid).bind ?_
      rintro ⟨q', scan'⟩ ⟨item, allowed, c⟩ block
      obtain rfl : q' = q + (runAt heap mem t q).size := block.next
      obtain rfl : allowed = scan'.allowedDeadspace := block.allowed
      obtain rfl : c = cursorAt heap scan'.space scan'.compactTop := block.points.cursor
      have behind := ih rest (by omega) (block.same_after range same) block.points.valid
        (block.range_after range large)
      exact behind.map_right fun done planned behind => block.cons behind large rest.le range
    · rw [scanLoop, if_neg below, runs, if_neg below]
      exact loopDone_nil (le_antisymm tiled.le (not_lt.mp below)) valid

theorem Reflects.congr {items : List Item} (reflects : Reflects heap mem q items)
    (same : SameOn mem mem' q (q + span items)) : Reflects heap mem' q items := by
  induction items generalizing q with
  | nil => trivial
  | cons item items ih =>
    obtain ⟨here, behind⟩ := reflects
    rw [span_cons, ← add_assoc] at same
    have large : 2 ≤ item.size := by
      cases item with
      | placed size target => exact here.1
      | gap size => exact here.1
    refine ⟨here.congr (same q le_rfl (by omega)) fun _ _ _ => same _ (by omega) (by omega), ?_⟩
    exact ih behind (same.mono (Nat.le_add_right _ _))

/-- What the pass leaves behind for the space `this`, whose words were those of `store`. -/
structure SpaceDone (heap : Heap) (store : Store) (this : SpaceRef) (items : List Item)
    (done : Store) : Prop where
  stop : heap.bottom this + span items = store.top this
  reflects : Reflects heap done.mem (heap.bottom this) items
  words : ∀ object ∈ liveAt (heap.bottom this) (spaceRuns heap store this),
    ∀ a, object.1 < a → a < object.1 + object.2 → done.mem a = store.mem a
  endOfLive : done.endOfLive this = endOfLive items (heap.bottom this) (heap.bottom this)
  firstDead : done.firstDead this =
    min (done.endOfLive this) (firstDead items (heap.bottom this) (heap.limit this))

structure ScanDone (heap : Heap) (first store : Store) (this : SpaceRef) (done : Store × SpaceRef)
    (planned : List Item × Cursor) : Prop where
  points : Points heap done.2 (done.1.compactionTop done.2) planned.2
  space : SpaceDone heap first this planned.1 done.1
  frame : ∀ a, a < heap.bottom this ∨ store.top this ≤ a → done.1.mem a = store.mem a
  top : done.1.top = store.top
  others : ∀ space, space ≠ this → done.1.endOfLive space = store.endOfLive space ∧
    done.1.firstDead space = store.firstDead space

/-- The cursor before a scan; the first one starts at the bottom of Tenured. -/
def Starts (heap : Heap) (store : Store) (c : Cursor) : Option SpaceRef → Prop
  | none => c = cursorAt heap ⟨.tenured, 0⟩ (heap.bottom ⟨.tenured, 0⟩)
  | some space => Points heap space (store.compactionTop space) c

theorem enterSpace_points (this : SpaceRef) (starts : Starts heap store c cp) :
    ∃ entered space, enterSpace heap this cp store = (entered, space) ∧
      SameButTops store entered ∧ Points heap space (entered.compactionTop space)
        (enter heap this c) := by
  cases cp with
  | none =>
    have valid : Valid heap ⟨.tenured, 0⟩ := Nat.zero_lt_one
    refine ⟨_, _, rfl, ⟨rfl, rfl, rfl, rfl⟩, valid, ?_⟩
    obtain rfl := starts
    by_cases here : this = ⟨.tenured, 0⟩ <;>
      simp [enter, cursorAt, Heap.firstCompactionSpace, here, eq_comm]
  | some space =>
    refine ⟨_, _, rfl, ⟨rfl, rfl, rfl, rfl⟩, starts.valid, ?_⟩
    obtain rfl := starts.cursor
    by_cases here : space = this
    · simp [enter, cursorAt, here]
    · simp [enter, cursorAt, here]

theorem liveAt_runs_bounds {object : Nat × Nat} (tiled : Tiled heap mem q t)
    (among : object ∈ liveAt q (runs heap mem t fuel q)) :
    q ≤ object.1 ∧ 2 ≤ object.2 ∧ object.1 + object.2 ≤ t := by
  induction fuel generalizing q with
  | zero => cases among
  | succ fuel ih =>
    by_cases below : q < t
    · obtain ⟨large, rest⟩ := runAt_bounds tiled below
      have inside := rest.le
      rw [runs, if_pos below, liveAt] at among
      have later : object ∈ liveAt (q + (runAt heap mem t q).size)
          (runs heap mem t fuel (q + (runAt heap mem t q).size)) →
          q ≤ object.1 ∧ 2 ≤ object.2 ∧ object.1 + object.2 ≤ t := fun among => by
        have bounds := ih rest among
        omega
      split at among
      · rcases mem_cons.mp among with rfl | among
        · exact ⟨le_rfl, large, inside⟩
        · exact later among
      · exact later among
    · rw [runs, if_neg below] at among
      cases among

/-- The scan of a space from its bottom with any budget of dead words, finished. -/
theorem finishScan_agrees {entered : Store} (allowed : Nat)
    (tiled : Tiled heap first.mem (heap.bottom this) (first.top this))
    (same : SameOn first.mem store.mem (heap.bottom this) (first.top this))
    (top : store.top = first.top) (tops : SameButTops store entered) (valid : Valid heap space) :
    Agrees (ScanDone heap first store this)
      ((scanLoop heap (first.top this) (first.top this - heap.bottom this) (heap.bottom this)
        ⟨entered, space, entered.compactionTop space, allowed, heap.bottom this, heap.limit this,
          none⟩).map (finishScan this (first.top this)))
      (plan heap (spaceRuns heap first this) (heap.bottom this) allowed
        (cursorAt heap space (entered.compactionTop space))) := by
  refine (scanLoop_agrees tiled le_rfl ?_ valid ?_).map_left ?_
  · rwa [tops.mem]
  · rintro a ⟨range, none, -⟩
    cases none
  · intro scan planned loop
    have fields := loop.fields.trans
      (setEndIfAny_fields scan.store scan.liveRange (first.top this))
    have finalMem : (finishScan this (first.top this) scan).1.mem = closed scan (first.top this) :=
      rfl
    have notOpen : ∀ a, ¬ Open (Scan.mk entered space (entered.compactionTop space)
        allowed (heap.bottom this) (heap.limit this) none) a := by
      rintro a ⟨range, none, -⟩
      cases none
    refine ⟨⟨loop.points.valid, ?_⟩, ⟨loop.stop, loop.reflects, ?_, ?_, ?_⟩, ?_, ?_, ?_⟩
    · rw [loop.points.cursor]
      simp [finishScan]
    · intro object among a above below
      have bounds := liveAt_runs_bounds tiled among
      rw [finalMem, loop.words object among a above below, tops.mem]
      exact same a (by omega) (by omega)
    · simp [finishScan, loop.endOfLive]
    · rw [← loop.firstDead]
      simp only [finishScan, update_self]
      split <;> omega
    · intro a outside
      rw [finalMem, loop.frame a (by rwa [← top]) (notOpen a)]
      exact congrFun tops.mem a
    · exact fields.top.trans tops.top
    · intro other distinct
      simp [finishScan, distinct, fields.endOfLive, fields.firstDead, tops.endOfLive, tops.firstDead]

theorem scanAndForward_agrees (tiled : Tiled heap first.mem (heap.bottom this) (first.top this))
    (same : SameOn first.mem store.mem (heap.bottom this) (first.top this))
    (top : store.top = first.top) (starts : Starts heap store c cp) :
    Agrees (ScanDone heap first store this) (scanAndForward heap this cp store)
      (plan heap (spaceRuns heap first this) (heap.bottom this) (heap.allowedDeadspace this)
        (enter heap this c)) := by
  obtain ⟨entered, space, entering, tops, points⟩ := enterSpace_points this starts
  have topEntered : entered.top this = first.top this := by rw [tops.top, top]
  rw [scanAndForward, entering]
  dsimp only
  rw [topEntered, points.cursor]
  exact finishScan_agrees (heap.allowedDeadspace this) tiled same top tops points.valid

/-! ### The whole pass -/

/-- The spaces of the heap do not overlap and their used parts are made of objects. -/
structure WellFormed (heap : Heap) (store : Store) : Prop where
  below : ∀ space, Valid heap space → store.top space ≤ heap.limit space
  tiled : ∀ space, Valid heap space →
    Tiled heap store.mem (heap.bottom space) (store.top space)
  apart : ∀ space other, Valid heap space → Valid heap other → space ≠ other →
    heap.limit space ≤ heap.bottom other ∨ heap.limit other ≤ heap.bottom space

structure PrepareDone (heap : Heap) (first store : Store) (spaces : List SpaceRef) (done : Store)
    (planned : List (SpaceRef × List Item) × Cursor) : Prop where
  each : ∀ entry ∈ planned.1, SpaceDone heap first entry.1 entry.2 done
  frame : ∀ a, (∀ space ∈ spaces, a < heap.bottom space ∨ store.top space ≤ a) →
    done.mem a = store.mem a
  top : done.top = store.top
  others : ∀ space, space ∉ spaces → done.endOfLive space = store.endOfLive space ∧
    done.firstDead space = store.firstDead space

theorem WellFormed.outside {other : SpaceRef} (formed : WellFormed heap store)
    (valid : Valid heap space) (valid' : Valid heap other) (distinct : space ≠ other)
    (low : heap.bottom space ≤ a) (high : a < store.top space) :
    a < heap.bottom other ∨ store.top other ≤ a := by
  have apart := formed.apart space other valid valid' distinct
  have below := formed.below space valid
  have below' := formed.below other valid'
  omega

theorem SpaceDone.congr {done done' : Store} {items : List Item}
    (space : SpaceDone heap first this items done)
    (tiled : Tiled heap first.mem (heap.bottom this) (first.top this))
    (same : SameOn done.mem done'.mem (heap.bottom this) (first.top this))
    (endOfLive : done'.endOfLive this = done.endOfLive this)
    (firstDead : done'.firstDead this = done.firstDead this) :
    SpaceDone heap first this items done' := by
  refine ⟨space.stop, space.reflects.congr (space.stop ▸ same), ?_,
    endOfLive.trans space.endOfLive, by rw [firstDead, endOfLive, space.firstDead]⟩
  intro object among a above below
  have bounds := liveAt_runs_bounds tiled among
  rw [same a (by omega) (by omega), space.words object among a above below]

theorem prepareSpaces_agrees {spaces : List SpaceRef} (formed : WellFormed heap first)
    (distinct : spaces.Nodup) (valid : ∀ space ∈ spaces, Valid heap space)
    (same : ∀ space ∈ spaces, SameOn first.mem store.mem (heap.bottom space) (first.top space))
    (top : store.top = first.top) (starts : Starts heap store c cp) :
    Agrees (PrepareDone heap first store spaces) (prepareSpaces heap spaces cp store)
      (planSpaces heap first spaces c) := by
  induction spaces generalizing store cp c with
  | nil =>
    refine ⟨?_, fun _ _ => rfl, rfl, fun _ _ => ⟨rfl, rfl⟩⟩
    intro entry among
    cases among
  | cons this spaces ih =>
    rw [forall_mem_cons] at valid same
    obtain ⟨fresh, distinct⟩ := nodup_cons.mp distinct
    have other : ∀ space ∈ spaces, space ≠ this := fun space among equal => fresh (equal ▸ among)
    refine (scanAndForward_agrees (formed.tiled this valid.1) same.1 top starts).bind ?_
    rintro ⟨store', space⟩ ⟨items, c'⟩ scan
    have same' : ∀ space ∈ spaces,
        SameOn first.mem store'.mem (heap.bottom space) (first.top space) := by
      intro space among a low high
      rw [scan.frame a ?_, same.2 space among a low high]
      rw [top]
      exact formed.outside (valid.2 space among) valid.1 (other space among) low high
    have starts' : Starts heap store' c' (some space) := scan.points
    have behind := ih distinct valid.2 same' (scan.top.trans top) starts'
    refine behind.map_right fun done planned behind => ⟨?_, ?_, ?_, ?_⟩
    · rw [forall_mem_cons]
      refine ⟨scan.space.congr (formed.tiled this valid.1) ?_ (behind.others this fresh).1
        (behind.others this fresh).2, behind.each⟩
      intro a low high
      refine behind.frame a fun space among => ?_
      rw [scan.top, top]
      exact formed.outside valid.1 (valid.2 space among) (other space among).symm low high
    · intro a outside
      rw [forall_mem_cons] at outside
      rw [behind.frame a (scan.top ▸ outside.2), scan.frame a outside.1]
    · exact behind.top.trans scan.top
    · intro space absent
      rw [mem_cons, not_or] at absent
      obtain ⟨live, dead⟩ := behind.others space absent.2
      obtain ⟨live', dead'⟩ := scan.others space absent.1
      exact ⟨live.trans live', dead.trans dead'⟩

theorem chain_nodup (heap : Heap) (gen : Generation) : (heap.chain gen).Nodup :=
  List.Nodup.map (fun _ _ equal => congrArg SpaceRef.index equal) nodup_range

theorem gen_of_mem_chain {gen : Generation} (among : space ∈ heap.chain gen) : space.gen = gen := by
  obtain ⟨index, -, rfl⟩ := mem_map.mp among
  rfl

theorem scanOrder_nodup (heap : Heap) : heap.scanOrder.Nodup := by
  have differ : ∀ gen gen' : Generation, gen ≠ gen' →
      (heap.chain gen).Disjoint (heap.chain gen') := fun gen gen' differs space among among' =>
    differs ((gen_of_mem_chain among).symm.trans (gen_of_mem_chain among'))
  refine (chain_nodup heap _).append ((chain_nodup heap _).append (chain_nodup heap _) ?_) ?_
  · exact differ _ _ (by decide)
  · rw [disjoint_append_right]
    exact ⟨differ _ _ (by decide), differ _ _ (by decide)⟩

theorem mem_scanOrder : space ∈ heap.scanOrder ↔ Valid heap space := by
  rcases space with ⟨gen, index⟩
  cases gen <;> simp [Heap.scanOrder, Heap.chain, Valid]

/-- The cursor before the first scan. -/
def startCursor (heap : Heap) : Cursor := cursorAt heap ⟨.tenured, 0⟩ (heap.bottom ⟨.tenured, 0⟩)

theorem prepareForCompaction_agrees (formed : WellFormed heap store) :
    Agrees (PrepareDone heap store store heap.scanOrder) (prepareForCompaction heap store)
      (planSpaces heap store heap.scanOrder (startCursor heap)) :=
  prepareSpaces_agrees formed (scanOrder_nodup heap) (fun _ among => mem_scanOrder.mp among)
    (fun _ _ _ _ _ => rfl) rfl rfl

end ForwardScan
