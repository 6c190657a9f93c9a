import TransGC.MemRegions
import TransGC.CardTable
import TransGC.TransitionRuns

/-!
# The covered regions of the card table

The card table keeps the regions that it covers in address order, and for each of them the part
of the table that was committed for it, in whole pages that may overlap.
`resize_covered_region` finds the region with the given start or makes a new one, commits or
uncommits pages for its cards, and cleans the cards behind its old end.

Words and cards are counted from the start of the heap, and a card's address in the table is
its number: the table starts on a page boundary. Fresh pages are zero.
-/

namespace CoveredRegions

open CardTable TransitionRuns

/-- `last_card`, the value of the guard card. -/
def lastCard : Int := 8

/-- The sizes that the table is made for. The heap ends on a card boundary. -/
structure Setting where
  cardSizeInWords : Nat
  pageSize : Nat
  heapWords : Nat
  maxCoveredRegions : Nat
  cardPositive : 0 < cardSizeInWords
  pagePositive : 0 < pageSize

namespace Setting

variable (setting : Setting)

def byteFor (a : Nat) : Nat := a / setting.cardSizeInWords

/-- For an empty region at the start of the heap the last word is the one before the heap. -/
def byteAfterLast (r : MemRegion) : Nat :=
  if r.stop = 0 then 0 else setting.byteFor (r.stop - 1) + 1

def alignSizeDown (c : Nat) : Nat := c / setting.pageSize * setting.pageSize

def alignSizeUp (c : Nat) : Nat := (c + setting.pageSize - 1) / setting.pageSize * setting.pageSize

def guardIndex : Nat := (setting.heapWords + setting.cardSizeInWords - 1) / setting.cardSizeInWords

/-- The region is made with the page size as a number of words of eight bytes. -/
def guardRegion : MemRegion := ⟨setting.alignSizeDown setting.guardIndex, 8 * setting.pageSize⟩

end Setting

/-- One place of the arrays `_covered` and `_committed`. -/
structure Entry where
  covered : MemRegion
  committed : MemRegion
deriving DecidableEq, Repr

/-- The bytes of the table, and which of them are committed. -/
structure Memory where
  cards : Nat → Int
  backed : Nat → Bool

namespace Memory

variable (memory : Memory)

def commit (mr : MemRegion) : Memory where
  cards c := if mr.Contains c then 0 else memory.cards c
  backed c := decide (mr.Contains c) || memory.backed c

def uncommit (mr : MemRegion) : Memory where
  cards := memory.cards
  backed c := !decide (mr.Contains c) && memory.backed c

/-- Set the cards from `entry` to `stop` to clean. -/
def clean (entry stop : Nat) : Memory where
  cards c := if entry ≤ c ∧ c < stop then cleanCard else memory.cards c
  backed := memory.backed

end Memory

structure State where
  entries : List Entry
  memory : Memory

variable (setting : Setting)

/-- The entry that is made for a new base. -/
def fresh (base : Nat) : Entry :=
  ⟨⟨base, 0⟩, ⟨setting.alignSizeDown (setting.byteFor base), 0⟩⟩

/-- The regions below the given base, the one that has it, new if there is none, and those above. -/
def findCoveringRegionByBase (base : Nat) : List Entry → List Entry × Entry × List Entry
  | [] => ([], fresh setting base, [])
  | e :: rest =>
    if e.covered.start = base then ([], e, rest)
    else if e.covered.start > base then ([], fresh setting base, e :: rest)
    else
      let (below, own, above) := findCoveringRegionByBase base rest
      (e :: below, own, above)

def largestPrevCommittedEnd : List Entry → Nat → Nat
  | [], maxEnd => maxEnd
  | e :: rest, maxEnd => largestPrevCommittedEnd rest
      (if e.committed.stop > maxEnd then e.committed.stop else maxEnd)

/-- The committed region with its end moved up to the ends of the regions below. -/
def curCommitted (below : List Entry) (own : Entry) : MemRegion :=
  if largestPrevCommittedEnd below 0 > own.committed.stop then
    .between own.committed.start (largestPrevCommittedEnd below 0)
  else own.committed

/-- The loop of `committed_unique_to_self` over the other regions. -/
def minusCommitted : List Entry → MemRegion → Option MemRegion
  | [], result => some result
  | e :: rest, result => do
    let result ← result.minus e.committed
    minusCommitted rest result

def committedUniqueToSelf (others : List Entry) (mr : MemRegion) : Option MemRegion := do
  let result ← minusCommitted others mr
  result.minus setting.guardRegion

/-- The new end is moved down to the start of the first other region that contains it. -/
def avoidCollision (newEndAligned : Nat) : List Entry → Nat
  | [] => newEndAligned
  | e :: rest =>
    if e.committed.Contains newEndAligned then e.committed.start
    else avoidCollision newEndAligned rest

/-- The second result is the end of the committed region; `uncommitOk` answers for the system. -/
def adjustCommitted (uncommitOk : Bool) (others : List Entry) (own : Entry)
    (curCommitted : MemRegion) (newEndAligned newEndForCommit : Nat) (memory : Memory) :
    Option (Memory × Nat) :=
  if newEndForCommit > curCommitted.stop then
    some (memory.commit (.between curCommitted.stop newEndForCommit), newEndAligned)
  else if newEndAligned < curCommitted.stop then do
    let uncommitRegion ← committedUniqueToSelf setting others
      (.between newEndAligned curCommitted.stop)
    if uncommitRegion.IsEmpty then some (memory, newEndAligned)
    else if uncommitOk then some (memory.uncommit uncommitRegion, newEndAligned)
    else some (memory, own.committed.stop)
  else some (memory, newEndAligned)

/-- There is no result if the arrays are full or a guarantee fails. -/
def resizeCoveredRegion (uncommitOk : Bool) (newRegion : MemRegion) (st : State) :
    Option State :=
  let (below, own, above) := findCoveringRegionByBase setting newRegion.start st.entries
  if setting.maxCoveredRegions < below.length + 1 + above.length then none
  else
    let oldRegion := own.covered
    if newRegion.wordSize ≠ oldRegion.wordSize then do
      let newEnd := setting.byteAfterLast newRegion
      let newEndAligned := avoidCollision (setting.alignSizeUp newEnd) (below ++ above)
      let newEndForCommit := min newEndAligned setting.guardRegion.start
      let (memory, newEndAligned) ← adjustCommitted setting uncommitOk (below ++ above) own
        (curCommitted below own) newEndAligned newEndForCommit st.memory
      let entry := setting.byteAfterLast oldRegion
      let memory := if entry < newEndForCommit then memory.clean entry newEndForCommit else memory
      some ⟨below ++ ⟨⟨oldRegion.start, newRegion.wordSize⟩,
        .between own.committed.start newEndAligned⟩ :: above, memory⟩
    else some ⟨below ++ ⟨⟨oldRegion.start, newRegion.wordSize⟩, own.committed⟩ :: above,
      st.memory⟩

/-- What the constructor sets up: the guard page is committed, and no region is covered. -/
def newTable : State where
  entries := []
  memory :=
    { cards := Function.update (fun _ => 0) setting.guardIndex lastCard
      backed := fun c => decide
        ((⟨setting.guardRegion.start, setting.pageSize⟩ : MemRegion).Contains c) }

/-- The card is one of those of the region's words. -/
def CoversCard (r : MemRegion) (c : Nat) : Prop :=
  0 < r.wordSize ∧ setting.byteFor r.start ≤ c ∧ c ≤ setting.byteFor r.last

instance (r : MemRegion) (c : Nat) : Decidable (CoversCard setting r c) :=
  inferInstanceAs (Decidable (_ ∧ _ ∧ _))

/-- Some covered region has the card. -/
def Covered (st : State) (c : Nat) : Prop := ∃ e ∈ st.entries, CoversCard setting e.covered c

instance (st : State) (c : Nat) : Decidable (Covered setting st c) :=
  inferInstanceAs (Decidable (∃ e ∈ st.entries, _))

/-- Between the calls any value may be written to a covered card. -/
inductive Event
  | resize (newRegion : MemRegion) (uncommitOk : Bool)
  | write (c : Nat) (v : Int)

def step (st : State) : Event → Option State
  | .resize newRegion uncommitOk => resizeCoveredRegion setting uncommitOk newRegion st
  | .write c v =>
    if Covered setting st c then
      some { st with memory := { st.memory with cards := Function.update st.memory.cards c v } }
    else none

/-- The region of the first entry starts and ends in front of that of the second one. -/
def Before (e e' : Entry) : Prop :=
  e.covered.start < e'.covered.start ∧ e.covered.stop ≤ e'.covered.start

/-- The covered regions are in order and disjoint, and every covered card is committed. -/
structure Sound (st : State) : Prop where
  sorted : st.entries.Pairwise Before
  backed : ∀ c, Covered setting st c → st.memory.backed c = true

/-- What a call for a region leaves alone and what it cleans. -/
structure CallSound (region : MemRegion) (before after : State) : Prop where
  others : ∀ e ∈ before.entries, e.covered.start ≠ region.start → ∀ c,
    CoversCard setting e.covered c → after.memory.cards c = before.memory.cards c
  guard : after.memory.cards setting.guardIndex = before.memory.cards setting.guardIndex
  cleaned : ∀ c, Covered setting after c → ¬ Covered setting before c →
    after.memory.cards c = cleanCard

section Rounding

variable {setting} {r : MemRegion} {c d : Nat}

theorem byteAfterLast_le_iff :
    setting.byteAfterLast r ≤ c ↔ r.stop ≤ c * setting.cardSizeInWords := by
  rw [Setting.byteAfterLast]
  split
  next zero =>
    rw [zero]
    exact ⟨fun _ => Nat.zero_le _, fun _ => Nat.zero_le _⟩
  next positive =>
    rw [Nat.succ_le_iff, Setting.byteFor, Nat.div_lt_iff_lt_mul setting.cardPositive]
    omega

/-- The region starts on a card boundary. -/
def CardAligned (setting : Setting) (r : MemRegion) : Prop :=
  setting.byteFor r.start * setting.cardSizeInWords = r.start

instance (r : MemRegion) : Decidable (CardAligned setting r) := inferInstanceAs (Decidable (_ = _))

/-- A region that ends in front of an aligned one has its cards in front of it, too. -/
theorem byteAfterLast_le_byteFor {r' : MemRegion} (aligned : CardAligned setting r')
    (before : r.stop ≤ r'.start) : setting.byteAfterLast r ≤ setting.byteFor r'.start := by
  rw [byteAfterLast_le_iff, aligned]
  exact before

theorem byteFor_le_byteAfterLast (aligned : CardAligned setting r) :
    setting.byteFor r.start ≤ setting.byteAfterLast r := by
  have reached := byteAfterLast_le_iff.mp (le_refl (setting.byteAfterLast r))
  have order : r.start ≤ r.stop := Nat.le_add_right _ _
  rw [← aligned] at order
  exact Nat.le_of_mul_le_mul_right (le_trans order reached) setting.cardPositive

theorem CoversCard.bounds (covers : CoversCard setting r c) :
    setting.byteFor r.start ≤ c ∧ c < setting.byteAfterLast r := by
  obtain ⟨positive, low, high⟩ := covers
  have nonzero : r.stop ≠ 0 := by
    rw [MemRegion.stop]
    omega
  rw [Setting.byteAfterLast, if_neg nonzero]
  exact ⟨low, Nat.lt_succ_of_le high⟩

theorem coversCard_of_bounds (aligned : CardAligned setting r)
    (low : setting.byteFor r.start ≤ c) (high : c < setting.byteAfterLast r) :
    CoversCard setting r c := by
  have positive : 0 < r.wordSize := by
    by_contra zero
    have stopLe : r.stop ≤ r.start := by
      rw [MemRegion.stop]
      omega
    have := byteAfterLast_le_byteFor aligned stopLe
    omega
  refine ⟨positive, low, ?_⟩
  have nonzero : r.stop ≠ 0 := by
    rw [MemRegion.stop]
    omega
  rw [Setting.byteAfterLast, if_neg nonzero] at high
  exact Nat.le_of_lt_succ high

theorem le_alignSizeUp : c ≤ setting.alignSizeUp c := by
  have positive := setting.pagePositive
  have lt : c + setting.pageSize - 1 <
      ((c + setting.pageSize - 1) / setting.pageSize + 1) * setting.pageSize :=
    (Nat.div_lt_iff_lt_mul positive).mp (Nat.lt_succ_self _)
  rw [Nat.succ_mul] at lt
  rw [Setting.alignSizeUp]
  omega

theorem alignSizeDown_le : setting.alignSizeDown c ≤ c := Nat.div_mul_le_self _ _

theorem alignSizeUp_le_alignSizeDown (le : c ≤ setting.alignSizeDown d) :
    setting.alignSizeUp c ≤ setting.alignSizeDown d := by
  have positive := setting.pagePositive
  refine Nat.mul_le_mul_right _ (Nat.le_of_lt_succ ?_)
  rw [Nat.div_lt_iff_lt_mul positive, Nat.succ_mul]
  rw [Setting.alignSizeDown] at le
  omega

theorem alignSizeUp_mono (le : c ≤ d) : setting.alignSizeUp c ≤ setting.alignSizeUp d :=
  Nat.mul_le_mul_right _ (Nat.div_le_div_right (by omega))

theorem alignSizeDown_mono (le : c ≤ d) : setting.alignSizeDown c ≤ setting.alignSizeDown d :=
  Nat.mul_le_mul_right _ (Nat.div_le_div_right le)

theorem byteFor_mono (le : c ≤ d) : setting.byteFor c ≤ setting.byteFor d := Nat.div_le_div_right le

end Rounding

/-- The committed part is the pages that the region's cards touch, up to the guard page. -/
structure Placed (e : Entry) : Prop where
  aligned : CardAligned setting e.covered
  first : e.committed.start = setting.alignSizeDown (setting.byteFor e.covered.start)
  last : e.committed.stop = setting.alignSizeUp (setting.byteAfterLast e.covered)
  belowGuard : setting.byteAfterLast e.covered ≤ setting.guardRegion.start

/-- The invariant between two calls. -/
structure Laid (st : State) : Prop where
  placed : ∀ e ∈ st.entries, Placed setting e
  sorted : st.entries.Pairwise Before
  backed : ∀ e ∈ st.entries, ∀ c, e.committed.Contains c → st.memory.backed c = true
  room : st.entries.length ≤ setting.maxCoveredRegions

variable {setting} {st : State}

theorem Placed.covers_committed {e : Entry} {c : Nat} (placed : Placed setting e)
    (covers : CoversCard setting e.covered c) : e.committed.Contains c := by
  obtain ⟨low, high⟩ := covers.bounds
  refine ⟨?_, ?_⟩
  · rw [placed.first]
    exact le_trans alignSizeDown_le low
  · rw [placed.last]
    exact lt_of_lt_of_le high le_alignSizeUp

theorem Laid.sound (laid : Laid setting st) : Sound setting st where
  sorted := laid.sorted
  backed c covered := by
    obtain ⟨e, mem, covers⟩ := covered
    exact laid.backed e mem c ((laid.placed e mem).covers_committed covers)

theorem newTable_laid : Laid setting (newTable setting) where
  placed _ mem := absurd mem List.not_mem_nil
  sorted := List.Pairwise.nil
  backed _ mem := absurd mem List.not_mem_nil
  room := Nat.zero_le _

end CoveredRegions
