import Mathlib.Tactic.Ring
import TransGC.CardTable
import TransGC.TransitionRuns

/-!
# Parallel card scanning against the barrier

Scanners claim strides, walk over the chunks of a stride from the high end and look for runs of
cards that are not clean; each card of a run is cleared, and the cleared ones are handed to the
closure window by window. Meanwhile barrier calls mark cards that receive a reference into a
younger generation. A step makes at most one access to a card.
-/
namespace CardScanning
open CardTable TransitionRuns Function List Option

/-! ### The cards of a stride -/

/-- The cards from `first` up to `last`, in the order of the walk. -/
def chunkCards (first last : Nat) : List Nat := (range' first (last - first)).reverse

/-- The loop of `process_stride`. -/
def strideLoop (cardsPerStrideChunk nStrides endCard : Nat) : Nat → Nat → List (List Nat)
  | 0, _ => []
  | fuel + 1, chunkCardStart =>
    if chunkCardStart < endCard then
      chunkCards chunkCardStart (min (chunkCardStart + cardsPerStrideChunk) endCard) ::
        strideLoop cardsPerStrideChunk nStrides endCard fuel
          (chunkCardStart + cardsPerStrideChunk * nStrides)
    else []

/-- A used region, by its cards, and how it is cut into strides. -/
structure Region where
  startCard : Nat
  endCard : Nat
  startChunk : Nat
  nStrides : Nat
  cardsPerStrideChunk : Nat
  nStrides_pos : 0 < nStrides
  cardsPerStrideChunk_pos : 0 < cardsPerStrideChunk

/-- `process_stride`: the chunks of one stride. -/
def processStride (region : Region) (stride : Nat) : List (List Nat) :=
  let startChunkStrideNum := region.startChunk % region.nStrides
  let chunkCardStart :=
    if stride ≥ startChunkStrideNum then
      region.startCard + (stride - startChunkStrideNum) * region.cardsPerStrideChunk
    else
      region.startCard + (region.nStrides - startChunkStrideNum + stride) *
        region.cardsPerStrideChunk
  strideLoop region.cardsPerStrideChunk region.nStrides region.endCard
    (region.endCard - region.startCard) chunkCardStart

def strides (region : Region) : List (List (List Nat)) :=
  (range region.nStrides).map (processStride region)

theorem mem_chunkCards {first last c : Nat} (low : first ≤ c) (high : c < last) :
    c ∈ chunkCards first last := by
  rw [chunkCards, mem_reverse, mem_range']
  exact ⟨c - first, by omega, by omega⟩

/-- The loop reaches the chunk that starts `k` rounds behind its own first one. -/
theorem mem_strideLoop {cards n endCard fuel first c : Nat} (k : Nat) (positive : 0 < cards * n)
    (low : first + k * (cards * n) ≤ c) (high : c < first + k * (cards * n) + cards)
    (inside : c < endCard) (enough : k < fuel) :
    ∃ chunk ∈ strideLoop cards n endCard fuel first, c ∈ chunk := by
  induction k generalizing first fuel with
  | zero =>
    obtain ⟨fuel, rfl⟩ : ∃ rest, fuel = rest + 1 := ⟨fuel - 1, by omega⟩
    rw [strideLoop, if_pos (by omega)]
    exact ⟨_, mem_cons_self, mem_chunkCards (by omega) (by omega)⟩
  | succ k ih =>
    obtain ⟨fuel, rfl⟩ : ∃ rest, fuel = rest + 1 := ⟨fuel - 1, by omega⟩
    rw [Nat.succ_mul] at low high
    rw [strideLoop, if_pos (by omega)]
    obtain ⟨chunk, listed, among⟩ := @ih fuel (first + cards * n) (by omega) (by omega) (by omega)
    exact ⟨chunk, mem_cons_of_mem _ listed, among⟩

/-- The first chunk of the stride that has chunk `j` of the region is chunk `j % n`. -/
theorem stride_offset {s n : Nat} (j : Nat) (small : s < n) :
    (if (s + j) % n ≥ s then (s + j) % n - s else n - s + (s + j) % n) = j % n := by
  have remainder : j % n < n := Nat.mod_lt j (by omega)
  have sum : (s + j) % n = (s + j % n) % n := (Nat.add_mod_mod s j n).symm
  by_cases short : s + j % n < n
  · rw [sum, Nat.mod_eq_of_lt short, if_pos (by omega)]
    omega
  · rw [sum, Nat.mod_eq_sub_mod (by omega), Nat.mod_eq_of_lt (by omega), if_neg (by omega)]
    omega

theorem strides_cover (region : Region) {c : Nat} (low : region.startCard ≤ c)
    (high : c < region.endCard) : ∃ stride ∈ strides region, ∃ chunk ∈ stride, c ∈ chunk := by
  obtain ⟨startCard, endCard, startChunk, n, cards, nPos, cardsPos⟩ := region
  dsimp only at low high
  have small : startChunk % n < n := Nat.mod_lt _ nPos
  have rounds := Nat.div_add_mod ((c - startCard) / cards) n
  have position := Nat.div_add_mod (c - startCard) cards
  have rest := Nat.mod_lt (c - startCard) cardsPos
  generalize (c - startCard) / cards = j at rounds position
  generalize (c - startCard) % cards = offset at position rest
  have chunk : startCard + j % n * cards + j / n * (cards * n) = startCard + cards * j := by
    calc startCard + j % n * cards + j / n * (cards * n)
        = startCard + cards * (n * (j / n) + j % n) := by ring
      _ = startCard + cards * j := by rw [rounds]
  have bound : j ≤ cards * j := Nat.le_mul_of_pos_left j cardsPos
  have few : j / n ≤ j := Nat.div_le_self j n
  refine ⟨_, mem_map.mpr ⟨(startChunk % n + j) % n, mem_range.mpr (Nat.mod_lt _ nPos), rfl⟩, ?_⟩
  have first : (if (startChunk % n + j) % n ≥ startChunk % n then
      startCard + ((startChunk % n + j) % n - startChunk % n) * cards
      else startCard + (n - startChunk % n + (startChunk % n + j) % n) * cards) =
        startCard + j % n * cards := by
    rw [← stride_offset j small]
    split <;> rfl
  rw [processStride]
  dsimp only
  rw [first]
  exact mem_strideLoop (j / n) (Nat.mul_pos cardsPos nPos) (by omega) (by omega) high (by omega)

/-! ### Scanners and barriers -/

/-- Inside `clear_card`: before the read, before the compare-and-swap, before the store. -/
inductive ClearStep
  | read
  | swap (seen : Int)
  | store
  deriving DecidableEq

/-- In the loop of `non_clean_card_iterate_work`, in its inner loop that extends a run, or in
`do_MemRegion` with the cards still to clear and the window of cleared ones. -/
inductive Scanner
  | idle
  | walk (rest : List Nat)
  | extend (run rest : List Nat)
  | clear (todo window rest : List Nat) (phase : ClearStep)
  deriving DecidableEq

/-- Where a call of `write_ref_field_gc_par` is. -/
inductive Barrier
  | idle
  | read (card : Nat)
  | store (card : Nat)
  | swap (card : Nat) (seen : Int)
  deriving DecidableEq

structure State where
  card : Nat → Int
  scanner : Nat → Scanner
  /-- The chunks a scanner has still to do of its stride. -/
  chunks : Nat → List (List Nat)
  barrier : Nat → Barrier
  /-- The strides that no scanner has claimed. -/
  unclaimed : List (List (List Nat))
  /-- The cards in windows that were given to the scanning closure. -/
  handed : List Nat
  /-- The cards for which a barrier call has returned. -/
  marked : List Nat

inductive Event
  | claim (s : Nat)
  | scan (s : Nat)
  | enter (w card : Nat)
  | mark (w : Nat)
  deriving DecidableEq

namespace State

variable (st : State)

def setCard (c : Nat) (v : Int) : State := { st with card := update st.card c v }

def setScanner (s : Nat) (scanner : Scanner) : State :=
  { st with scanner := update st.scanner s scanner }

def setBarrier (w : Nat) (barrier : Barrier) : State :=
  { st with barrier := update st.barrier w barrier }

def hand (window : List Nat) : State := { st with handed := st.handed ++ window }

/-- A barrier call returns. -/
def finish (w c : Nat) : State := { st.setBarrier w .idle with marked := c :: st.marked }

end State

section Steps

variable (cur : Int)

/-- One step of `clear_card` for the first of the cards to clear. -/
def clearCard (st : State) (s c : Nat) (todo window rest : List Nat) : ClearStep → State
  | .read =>
    let entryVal := st.card c
    if Erasable cur entryVal then st.setScanner s (.clear (c :: todo) window rest (.swap entryVal))
    else if entryVal = curYoungergenAndPrevNoncleanCard then
      st.setScanner s (.clear (c :: todo) window rest .store)
    else (st.hand window).setScanner s (.clear todo [] rest .read)
  | .swap seen =>
    if st.card c = seen then
      (st.setCard c cleanCard).setScanner s (.clear todo (window ++ [c]) rest .read)
    else st.setScanner s (.clear (c :: todo) window rest .read)
  | .store => (st.setCard c cur).setScanner s (.clear todo (window ++ [c]) rest .read)

def scanStep (st : State) (s : Nat) : Option State :=
  match st.scanner s with
  | .idle =>
    match st.chunks s with
    | [] => none
    | chunk :: more =>
      some { st.setScanner s (.walk chunk) with chunks := update st.chunks s more }
  | .walk [] => some (st.setScanner s .idle)
  | .walk (c :: rest) =>
    some (st.setScanner s (if st.card c ≠ cleanCard then .extend [c] rest else .walk rest))
  | .extend run [] => some (st.setScanner s (.clear run [] [] .read))
  | .extend run (c :: rest) =>
    some (st.setScanner s (if st.card c ≠ cleanCard then .extend (run ++ [c]) rest
      else .clear run [] (c :: rest) .read))
  | .clear [] window rest _ => some ((st.hand window).setScanner s (.walk rest))
  | .clear (c :: todo) window rest phase => some (clearCard cur st s c todo window rest phase)

/-- One step of `write_ref_field_gc_par`. -/
def markStep (st : State) (w : Nat) : Option State :=
  match st.barrier w with
  | .idle => none
  | .read c =>
    let entryVal := st.card c
    some (if entryVal = cleanCard then st.setBarrier w (.store c)
      else if Erasable cur entryVal then st.setBarrier w (.swap c entryVal)
      else st.finish w c)
  | .store c => some ((st.setCard c cur).finish w c)
  | .swap c seen =>
    some (if st.card c = seen then (st.setCard c curYoungergenAndPrevNoncleanCard).finish w c
      else st.setBarrier w (.read c))

def step (st : State) : Event → Option State
  | .claim s =>
    if st.scanner s = .idle ∧ st.chunks s = [] then
      match st.unclaimed with
      | [] => none
      | stride :: more =>
        some { st with chunks := update st.chunks s stride, unclaimed := more }
    else none
  | .scan s => scanStep cur st s
  | .enter w c => if st.barrier w = .idle then some (st.setBarrier w (.read c)) else none
  | .mark w => markStep cur st w

end Steps

/-- The start of the scan of the given regions. -/
def start (card : Nat → Int) (regions : List Region) : State where
  card := card
  scanner _ := .idle
  chunks _ := []
  barrier _ := .idle
  unclaimed := regions.flatMap strides
  handed := []
  marked := []

/-- All strides are claimed and no scanner has anything left to do. -/
structure Scanned (st : State) : Prop where
  unclaimed : st.unclaimed = []
  scanner : ∀ s, st.scanner s = .idle
  chunks : ∀ s, st.chunks s = []

/-! ### What a step can do -/

namespace Scanner

/-- The cards that a scanner has claimed and not yet cleared or passed. -/
def work : Scanner → List Nat
  | .idle => []
  | .walk rest => rest
  | .extend run rest => run ++ rest
  | .clear todo _ rest _ => todo ++ rest

/-- The cleared cards that are still to be handed on. -/
def window : Scanner → List Nat
  | .clear _ window _ _ => window
  | _ => []

/-- The value that the coming compare-and-swap expects. -/
def expected : Scanner → Option Int
  | .clear _ _ _ (.swap seen) => some seen
  | _ => none

end Scanner

/-- How the value of a card changes in one step. -/
inductive CardChange (cur old : Int) : Int → Prop
  | same : CardChange cur old old
  | cleaned (erasable : Erasable cur old) : CardChange cur old cleanCard
  | both (erasable : Erasable cur old) : CardChange cur old curYoungergenAndPrevNoncleanCard
  | current : CardChange cur old cur

/-- The card says that it has a reference into a younger generation. -/
def Settled (cur v : Int) : Prop := v ≠ cleanCard ∧ ¬ Erasable cur v

variable {cur : Int} {st st' : State} {s w c : Nat}

theorem ParallelValue.not_due (parallel : ParallelValue cur) : ¬ Due cur cur := by
  rintro (erasable | both)
  · exact parallel.not_erasable erasable
  · have bounds := parallel.bounds
    simp only [curYoungergenAndPrevNoncleanCard, lastReserved] at both
    omega

theorem CardChange.settled {old new : Int} (parallel : ParallelValue cur)
    (change : CardChange cur old new) (settled : Settled cur old) : Settled cur new := by
  cases change with
  | same => exact settled
  | cleaned erasable => exact absurd erasable settled.2
  | both erasable => exact absurd erasable settled.2
  | current => exact ⟨parallel.ne_clean, parallel.not_erasable⟩

/-- A card that need not be handed on does not come to need it. -/
theorem CardChange.not_due {old new : Int} (parallel : ParallelValue cur)
    (change : CardChange cur old new) (rest : ¬ Due cur old) : ¬ Due cur new := by
  cases change with
  | same => exact rest
  | cleaned erasable | both erasable => exact absurd (.inl erasable) rest
  | current => exact ParallelValue.not_due parallel

@[simp] theorem setCard_self (v : Int) : (st.setCard c v).card c = v := update_self _ _ _

theorem setCard_of_ne {d : Nat} (v : Int) (other : d ≠ c) : (st.setCard c v).card d = st.card d :=
  update_of_ne other _ _

theorem setCard_change {v : Int} (change : CardChange cur (st.card c) v) (d : Nat) :
    CardChange cur (st.card d) ((st.setCard c v).card d) := by
  by_cases same : d = c
  · subst same
    rw [setCard_self]
    exact change
  · rw [setCard_of_ne v same]
    exact .same

/-- A step of the scanner `s`, which is at `next` afterwards. -/
structure ScanEffect (cur : Int) (st st' : State) (s : Nat) (next : Scanner) : Prop where
  scanner : st'.scanner = update st.scanner s next
  barrier : st'.barrier = st.barrier
  marked : st'.marked = st.marked
  unclaimed : st'.unclaimed = st.unclaimed
  handed : ∀ c ∈ st.handed, c ∈ st'.handed
  expected : ∀ v, next.expected = some v → Erasable cur v
  others : ∀ r, r ≠ s → st'.chunks r = st.chunks r
  chunks : ∀ chunk ∈ st.chunks s, chunk ∈ st'.chunks s ∨ ∀ c ∈ chunk, c ∈ next.work
  window : ∀ c ∈ (st.scanner s).window, c ∈ next.window ∨ c ∈ st'.handed
  work : ∀ c ∈ (st.scanner s).work, Due cur (st.card c) → c ∈ next.work ∨ c ∈ next.window
  cards : ∀ c, CardChange cur (st.card c) (st'.card c)
  due : ∀ c, Due cur (st.card c) → Due cur (st'.card c) ∨ c ∈ next.window

theorem scanEffect_setScanner {next : Scanner}
    (expected : ∀ v, next.expected = some v → Erasable cur v)
    (window : ∀ c ∈ (st.scanner s).window, c ∈ next.window)
    (work : ∀ c ∈ (st.scanner s).work, Due cur (st.card c) → c ∈ next.work) :
    ScanEffect cur st (st.setScanner s next) s next where
  scanner := rfl
  barrier := rfl
  marked := rfl
  unclaimed := rfl
  handed _ listed := listed
  expected := expected
  others _ _ := rfl
  chunks _ listed := .inl listed
  window c listed := .inl (window c listed)
  work c listed due := .inl (work c listed due)
  cards _ := .same
  due _ due := .inl due

theorem scanEffect_hand {next : Scanner} (expected : next.expected = none)
    (work : ∀ c ∈ (st.scanner s).work, Due cur (st.card c) → c ∈ next.work) :
    ScanEffect cur st ((st.hand (st.scanner s).window).setScanner s next) s next where
  scanner := rfl
  barrier := rfl
  marked := rfl
  unclaimed := rfl
  handed _ listed := mem_append_left _ listed
  expected v found := by
    rw [expected] at found
    cases found
  others _ _ := rfl
  chunks _ listed := .inl listed
  window _ listed := .inr (mem_append_right _ listed)
  work c listed due := .inl (work c listed due)
  cards _ := .same
  due _ due := .inl due

/-- A step that changes the card `c` and puts it into the window. -/
theorem scanEffect_clear {todo window rest : List Nat} {phase : ClearStep} {v : Int}
    (here : st.scanner s = .clear (c :: todo) window rest phase)
    (change : CardChange cur (st.card c) v) :
    ScanEffect cur st
      ((st.setCard c v).setScanner s (.clear todo (window ++ [c]) rest .read)) s
      (.clear todo (window ++ [c]) rest .read) where
  scanner := rfl
  barrier := rfl
  marked := rfl
  unclaimed := rfl
  handed _ listed := listed
  expected v found := by cases found
  others _ _ := rfl
  chunks _ listed := .inl listed
  window d listed := by
    rw [here] at listed
    exact .inl (mem_append_left _ listed)
  work d listed _ := by
    rw [here] at listed
    rcases mem_cons.mp listed with rfl | listed
    · exact .inr (mem_append_right _ (mem_singleton_self _))
    · exact .inl listed
  cards := setCard_change change
  due d due := by
    by_cases same : d = c
    · subst same
      exact .inr (mem_append_right _ (mem_singleton_self _))
    · exact .inl ((setCard_of_ne v same).symm ▸ due)

/-- The scanner makes its compare-and-swap only for a value that may be cleaned. -/
def Expects (cur : Int) (st : State) : Prop :=
  ∀ s v, (st.scanner s).expected = some v → Erasable cur v

theorem clearCard_effect {todo window rest : List Nat} {phase : ClearStep}
    (expects : Expects cur st) (here : st.scanner s = .clear (c :: todo) window rest phase) :
    ∃ next, ScanEffect cur st (clearCard cur st s c todo window rest phase) s next := by
  have work : (st.scanner s).work = c :: todo ++ rest := by rw [here]; rfl
  have windowHere : (st.scanner s).window = window := by rw [here]; rfl
  cases phase with
  | read =>
    rw [clearCard]
    split
    · rename_i erasable
      refine ⟨_, scanEffect_setScanner ?_ ?_ ?_⟩
      · rintro v ⟨⟩
        exact erasable
      · rw [windowHere]
        exact fun _ listed => listed
      · rw [work]
        exact fun _ listed _ => listed
    · rename_i fixed
      split
      · refine ⟨_, scanEffect_setScanner ?_ ?_ ?_⟩
        · rintro v ⟨⟩
        · rw [windowHere]
          exact fun _ listed => listed
        · rw [work]
          exact fun _ listed _ => listed
      · -- the card is clean or has the current value: it is not for this scan
        rename_i single
        have effect := @scanEffect_hand cur st s (.clear todo [] rest .read) rfl ?_
        · rw [windowHere] at effect
          exact ⟨_, effect⟩
        · rw [work]
          intro d listed due
          rcases mem_cons.mp listed with rfl | listed
          · exact absurd due (by rintro (erasable | both); exacts [fixed erasable, single both])
          · exact listed
  | swap seen =>
    have erasable : Erasable cur seen := expects s seen (by rw [here]; rfl)
    rw [clearCard]
    split
    · rename_i unchanged
      rw [← unchanged] at erasable
      exact ⟨_, scanEffect_clear here (.cleaned erasable)⟩
    · refine ⟨_, scanEffect_setScanner ?_ ?_ ?_⟩
      · rintro v ⟨⟩
      · rw [windowHere]
        exact fun _ listed => listed
      · rw [work]
        exact fun _ listed _ => listed
  | store => exact ⟨_, scanEffect_clear here .current⟩

theorem scanEffect_chunk {chunk : List Nat} {more : List (List Nat)}
    (here : st.scanner s = .idle) (claimed : st.chunks s = chunk :: more) :
    ScanEffect cur st
      { st.setScanner s (.walk chunk) with chunks := update st.chunks s more } s
      (.walk chunk) where
  scanner := rfl
  barrier := rfl
  marked := rfl
  unclaimed := rfl
  handed _ listed := listed
  expected v found := by cases found
  others _ other := update_of_ne other _ _
  chunks part listed := by
    rw [claimed] at listed
    rcases mem_cons.mp listed with rfl | listed
    · exact .inr fun _ among => among
    · have left : part ∈ update st.chunks s more s := by
        rw [update_self]
        exact listed
      exact .inl left
  window c listed := by
    rw [here] at listed
    cases listed
  work c listed := by
    rw [here] at listed
    cases listed
  cards _ := .same
  due _ due := .inl due

/-- The scanner passes on without clearing: what it leaves out is not due. -/
theorem scanEffect_pass {next : Scanner} (plain : next.expected = none)
    (window : (st.scanner s).window = [])
    (work : ∀ c ∈ (st.scanner s).work, Due cur (st.card c) → c ∈ next.work) :
    ScanEffect cur st (st.setScanner s next) s next := by
  refine scanEffect_setScanner ?_ ?_ work
  · intro v found
    rw [plain] at found
    cases found
  · rw [window]
    intro c listed
    cases listed

theorem scanStep_effect (expects : Expects cur st) (stepped : scanStep cur st s = some st') :
    ∃ next, ScanEffect cur st st' s next := by
  unfold scanStep at stepped
  split at stepped
  next here =>
    split at stepped
    · cases stepped
    · rename_i chunk more claimed
      obtain rfl := some.inj stepped
      exact ⟨_, scanEffect_chunk here claimed⟩
  next here =>
    obtain rfl := some.inj stepped
    refine ⟨_, scanEffect_pass rfl (by rw [here]; rfl) ?_⟩
    rw [here]
    exact fun _ listed _ => listed
  next c rest here =>
    obtain rfl := some.inj stepped
    refine ⟨_, scanEffect_pass (by split <;> rfl) (by rw [here]; rfl) ?_⟩
    rw [here]
    intro d listed due
    split
    · exact listed
    · rename_i clean
      rcases mem_cons.mp listed with rfl | listed
      · exact absurd (due_ne_clean due) clean
      · exact listed
  next run here =>
    obtain rfl := some.inj stepped
    refine ⟨_, scanEffect_pass rfl (by rw [here]; rfl) ?_⟩
    rw [here]
    exact fun _ listed _ => listed
  next run c rest here =>
    obtain rfl := some.inj stepped
    refine ⟨_, scanEffect_pass (by split <;> rfl) (by rw [here]; rfl) ?_⟩
    rw [here]
    intro d listed _
    split
    · rw [Scanner.work, append_assoc]
      exact listed
    · exact listed
  next window rest phase here =>
    obtain rfl := some.inj stepped
    have effect := @scanEffect_hand cur st s (.walk rest) rfl ?_
    · have windowHere : (st.scanner s).window = window := by rw [here]; rfl
      rw [windowHere] at effect
      exact ⟨_, effect⟩
    · rw [here]
      exact fun _ listed _ => listed
  next c todo window rest phase here =>
    obtain rfl := some.inj stepped
    exact clearCard_effect expects here

/-! ### What a barrier call can do -/

/-- A step of the barrier call `w`, which is at `next` afterwards. -/
structure MarkEffect (cur : Int) (st st' : State) (w : Nat) (next : Barrier) : Prop where
  barrier : st'.barrier = update st.barrier w next
  scanner : st'.scanner = st.scanner
  chunks : st'.chunks = st.chunks
  unclaimed : st'.unclaimed = st.unclaimed
  handed : st'.handed = st.handed
  swaps : ∀ c v, next = .swap c v → Erasable cur v
  stores : ∀ c, next = .store c → ¬ Due cur (st'.card c)
  cards : ∀ c, CardChange cur (st.card c) (st'.card c)
  due : ∀ c, Due cur (st.card c) → Due cur (st'.card c)
  marked : ∀ c ∈ st'.marked, c ∈ st.marked ∨ Settled cur (st'.card c)

/-- A compare-and-swap expects a value that may be cleaned; a card seen clean is not due again. -/
structure BarriersRely (cur : Int) (st : State) : Prop where
  swaps : ∀ w c v, st.barrier w = .swap c v → Erasable cur v
  stores : ∀ w c, st.barrier w = .store c → ¬ Due cur (st.card c)

theorem clean_not_due : ¬ Due cur cleanCard := fun due => due_ne_clean due rfl

theorem markEffect_setBarrier {next : Barrier} (swaps : ∀ c v, next = .swap c v → Erasable cur v)
    (stores : ∀ c, next = .store c → ¬ Due cur (st.card c)) :
    MarkEffect cur st (st.setBarrier w next) w next where
  barrier := rfl
  scanner := rfl
  chunks := rfl
  unclaimed := rfl
  handed := rfl
  swaps := swaps
  stores := stores
  cards _ := .same
  due _ due := due
  marked _ listed := .inl listed

theorem markEffect_write {v : Int} (change : CardChange cur (st.card c) v) (settled : Settled cur v)
    (due : Due cur (st.card c) → Due cur v) :
    MarkEffect cur st ((st.setCard c v).finish w c) w .idle where
  barrier := rfl
  scanner := rfl
  chunks := rfl
  unclaimed := rfl
  handed := rfl
  swaps c v found := by cases found
  stores c found := by cases found
  cards := setCard_change change
  due d due' := by
    by_cases same : d = c
    · subst same
      exact (setCard_self v).symm ▸ due due'
    · exact (setCard_of_ne v same).symm ▸ due'
  marked d listed := by
    rcases mem_cons.mp listed with rfl | listed
    · exact .inr ((setCard_self v).symm ▸ settled)
    · exact .inl listed

theorem both_settled : Settled cur curYoungergenAndPrevNoncleanCard :=
  ⟨both_ne_clean, both_not_erasable⟩

theorem markStep_effect (parallel : ParallelValue cur) (rely : BarriersRely cur st)
    (stepped : markStep cur st w = some st') : ∃ next, MarkEffect cur st st' w next := by
  unfold markStep at stepped
  split at stepped
  next => cases stepped
  next c here =>
    obtain rfl := some.inj stepped
    split
    · rename_i clean
      refine ⟨_, markEffect_setBarrier (by rintro _ _ ⟨⟩) ?_⟩
      rintro d ⟨⟩
      rw [clean]
      exact clean_not_due
    · rename_i used
      split
      · rename_i erasable
        refine ⟨_, markEffect_setBarrier ?_ (by rintro _ ⟨⟩)⟩
        rintro d v ⟨⟩
        exact erasable
      · rename_i fixed
        have effect := @markEffect_write cur st w c (st.card c) .same ⟨used, fixed⟩ id
        have kept : st.setCard c (st.card c) = st := by rw [State.setCard, update_eq_self]
        rw [kept] at effect
        exact ⟨_, effect⟩
  next c here =>
    obtain rfl := some.inj stepped
    exact ⟨_, markEffect_write .current ⟨parallel.ne_clean, parallel.not_erasable⟩
      fun due => absurd due (rely.stores w c here)⟩
  next c seen here =>
    obtain rfl := some.inj stepped
    have erasable := rely.swaps w c seen here
    split
    · rename_i unchanged
      rw [← unchanged] at erasable
      exact ⟨_, markEffect_write (.both erasable) both_settled fun _ => .inr rfl⟩
    · exact ⟨_, markEffect_setBarrier (by rintro _ _ ⟨⟩) (by rintro _ ⟨⟩)⟩

/-! ### Whole runs -/

/-- What holds in every state of a scan. -/
structure Coherent (cur : Int) (st : State) : Prop where
  expects : Expects cur st
  rely : BarriersRely cur st
  marked : ∀ c ∈ st.marked, Settled cur (st.card c)

theorem ScanEffect.coherent {next : Scanner} (parallel : ParallelValue cur)
    (effect : ScanEffect cur st st' s next) (coherent : Coherent cur st) : Coherent cur st' := by
  refine ⟨fun r v found => ?_, ⟨?_, ?_⟩, ?_⟩
  · rw [effect.scanner] at found
    by_cases same : r = s
    · subst same
      rw [update_self] at found
      exact effect.expected v found
    · rw [update_of_ne same] at found
      exact coherent.expects r v found
  · rw [effect.barrier]
    exact coherent.rely.swaps
  · rw [effect.barrier]
    exact fun w c found => (effect.cards c).not_due parallel (coherent.rely.stores w c found)
  · rw [effect.marked]
    exact fun c listed => (effect.cards c).settled parallel (coherent.marked c listed)

theorem MarkEffect.coherent {next : Barrier} (parallel : ParallelValue cur)
    (effect : MarkEffect cur st st' w next) (coherent : Coherent cur st) : Coherent cur st' := by
  refine ⟨fun r v found => ?_, ⟨fun x c v found => ?_, fun x c found => ?_⟩, fun c listed => ?_⟩
  · rw [effect.scanner] at found
    exact coherent.expects r v found
  · rw [effect.barrier] at found
    by_cases same : x = w
    · subst same
      rw [update_self] at found
      exact effect.swaps c v found
    · rw [update_of_ne same] at found
      exact coherent.rely.swaps x c v found
  · rw [effect.barrier] at found
    by_cases same : x = w
    · subst same
      rw [update_self] at found
      exact effect.stores c found
    · rw [update_of_ne same] at found
      exact (effect.cards c).not_due parallel (coherent.rely.stores x c found)
  · rcases effect.marked c listed with before | settled
    · exact (effect.cards c).settled parallel (coherent.marked c before)
    · exact settled

/-- The four kinds of steps. -/
inductive StepEffect (cur : Int) (st st' : State) : Prop
  | claim (s : Nat) (stride : List (List Nat)) (more : List (List (List Nat)))
      (free : st.chunks s = []) (waiting : st.unclaimed = stride :: more)
      (after : st' = { st with chunks := update st.chunks s stride, unclaimed := more })
  | scan (s : Nat) (next : Scanner) (effect : ScanEffect cur st st' s next)
  | mark (w : Nat) (next : Barrier) (effect : MarkEffect cur st st' w next)

theorem step_effect {e : Event} (parallel : ParallelValue cur) (coherent : Coherent cur st)
    (stepped : step cur st e = some st') : StepEffect cur st st' := by
  cases e with
  | claim s =>
    rw [step] at stepped
    split at stepped
    · rename_i free
      split at stepped
      · cases stepped
      · rename_i stride more waiting
        exact .claim s stride more free.2 waiting (some.inj stepped).symm
    · cases stepped
  | scan s =>
    obtain ⟨next, effect⟩ := scanStep_effect coherent.expects stepped
    exact .scan s next effect
  | enter w c =>
    rw [step] at stepped
    split at stepped
    · obtain rfl := some.inj stepped
      exact .mark w _ (markEffect_setBarrier (by rintro _ _ ⟨⟩) (by rintro _ ⟨⟩))
    · cases stepped
  | mark w =>
    obtain ⟨next, effect⟩ := markStep_effect parallel coherent.rely stepped
    exact .mark w next effect

theorem StepEffect.coherent (parallel : ParallelValue cur) (effect : StepEffect cur st st')
    (coherent : Coherent cur st) : Coherent cur st' := by
  cases effect with
  | claim s stride more free waiting after =>
    subst after
    exact ⟨coherent.expects, ⟨coherent.rely.swaps, coherent.rely.stores⟩, coherent.marked⟩
  | scan s next effect | mark w next effect => exact effect.coherent parallel coherent

theorem start_coherent (card : Nat → Int) (regions : List Region) :
    Coherent cur (start card regions) where
  expects s v found := by cases found
  rely := ⟨fun _ _ _ found => (by cases found), fun _ _ found => (by cases found)⟩
  marked c listed := by cases listed

/-! ### No due card is lost -/

/-- Some scanner will still come to the card. -/
def Awaited (st : State) (c : Nat) : Prop :=
  (∃ stride ∈ st.unclaimed, ∃ chunk ∈ stride, c ∈ chunk) ∨
    ∃ s, (∃ chunk ∈ st.chunks s, c ∈ chunk) ∨ c ∈ (st.scanner s).work

/-- The card was handed on, is in a window that will be, or is due and awaited. -/
def Tracked (cur : Int) (st : State) (c : Nat) : Prop :=
  c ∈ st.handed ∨ (∃ s, c ∈ (st.scanner s).window) ∨ (Due cur (st.card c) ∧ Awaited st c)

theorem ScanEffect.scanner_other {next : Scanner} (effect : ScanEffect cur st st' s next) {r : Nat}
    (other : r ≠ s) : st'.scanner r = st.scanner r := by
  rw [effect.scanner]
  exact update_of_ne other _ _

theorem ScanEffect.scanner_self {next : Scanner} (effect : ScanEffect cur st st' s next) :
    st'.scanner s = next := by
  rw [effect.scanner]
  exact update_self _ _ _

theorem ScanEffect.awaited {next : Scanner} (effect : ScanEffect cur st st' s next)
    (due : Due cur (st.card c)) (awaited : Awaited st c) : Awaited st' c ∨ c ∈ next.window := by
  rcases awaited with waiting | ⟨r, claimed⟩
  · rw [← effect.unclaimed] at waiting
    exact .inl (.inl waiting)
  · by_cases same : r = s
    · subst same
      rcases claimed with ⟨chunk, listed, among⟩ | working
      · rcases effect.chunks chunk listed with still | taken
        · exact .inl (.inr ⟨r, .inl ⟨chunk, still, among⟩⟩)
        · exact .inl (.inr ⟨r, .inr (effect.scanner_self ▸ taken c among)⟩)
      · rcases effect.work c working due with still | cleared
        · exact .inl (.inr ⟨r, .inr (effect.scanner_self ▸ still)⟩)
        · exact .inr cleared
    · rw [← effect.others r same, ← effect.scanner_other same] at claimed
      exact .inl (.inr ⟨r, claimed⟩)

theorem ScanEffect.tracked {next : Scanner} (effect : ScanEffect cur st st' s next)
    (tracked : Tracked cur st c) : Tracked cur st' c := by
  have cleared : c ∈ next.window → Tracked cur st' c := fun listed =>
    .inr (.inl ⟨s, effect.scanner_self ▸ listed⟩)
  rcases tracked with handed | ⟨r, listed⟩ | ⟨due, awaited⟩
  · exact .inl (effect.handed c handed)
  · by_cases same : r = s
    · subst same
      rcases effect.window c listed with still | handed
      · exact cleared still
      · exact .inl handed
    · rw [← effect.scanner_other same] at listed
      exact .inr (.inl ⟨r, listed⟩)
  · rcases effect.due c due with still | listed
    · rcases effect.awaited due awaited with later | listed
      · exact .inr (.inr ⟨still, later⟩)
      · exact cleared listed
    · exact cleared listed

theorem StepEffect.tracked (effect : StepEffect cur st st') (tracked : Tracked cur st c) :
    Tracked cur st' c := by
  cases effect with
  | claim s stride more free waiting after =>
    subst after
    rcases tracked with handed | window | ⟨due, (⟨part, listed, among⟩ | ⟨r, claimed⟩)⟩
    · exact .inl handed
    · exact .inr (.inl window)
    · rw [waiting] at listed
      rcases mem_cons.mp listed with rfl | listed
      · have taken : ∃ chunk ∈ update st.chunks s part s, c ∈ chunk := by
          rw [update_self]
          exact among
        exact .inr (.inr ⟨due, .inr ⟨s, .inl taken⟩⟩)
      · exact .inr (.inr ⟨due, .inl ⟨part, listed, among⟩⟩)
    · refine .inr (.inr ⟨due, .inr ⟨r, ?_⟩⟩)
      rcases claimed with ⟨chunk, listed, among⟩ | working
      · have other : r ≠ s := by
          rintro rfl
          rw [free] at listed
          cases listed
        have kept : chunk ∈ update st.chunks s stride r := by
          rw [update_of_ne other]
          exact listed
        exact .inl ⟨chunk, kept, among⟩
      · exact .inr working
  | scan s next effect => exact effect.tracked tracked
  | mark w next effect =>
    rcases tracked with handed | window | ⟨due, awaited⟩
    · exact .inl (effect.handed ▸ handed)
    · exact .inr (.inl (effect.scanner ▸ window))
    · refine .inr (.inr ⟨effect.due c due, ?_⟩)
      rw [Awaited, effect.unclaimed, effect.chunks, effect.scanner]
      exact awaited

theorem start_tracked {card : Nat → Int} {regions : List Region} {region : Region}
    (listed : region ∈ regions) (low : region.startCard ≤ c) (high : c < region.endCard)
    (due : Due cur (card c)) : Tracked cur (start card regions) c := by
  obtain ⟨stride, among, chunk⟩ := strides_cover region low high
  exact .inr (.inr ⟨due, .inl ⟨stride, mem_flatMap.mpr ⟨region, listed, among⟩, chunk⟩⟩)

theorem handed_of_scanned (scanned : Scanned st) (tracked : Tracked cur st c) : c ∈ st.handed := by
  rcases tracked with handed | ⟨s, listed⟩ | ⟨-, (⟨stride, listed, -⟩ | ⟨s, (⟨chunk, listed, -⟩ | listed)⟩)⟩
  · exact handed
  · rw [scanned.scanner s] at listed
    cases listed
  · rw [scanned.unclaimed] at listed
    cases listed
  · rw [scanned.chunks s] at listed
    cases listed
  · rw [scanned.scanner s] at listed
    cases listed

/-- In every interleaving of a parallel scan with barrier calls: a card for which a barrier call has
returned is not clean from then on; and when the scan is over, every card that was dirty, or had the
value of another collection, was handed to the closure. -/
theorem card_scan_safe {lastCurValInGen : Nat → Int} {regionsToIterate : Nat} {card : Nat → Int}
    {regions : List Region} {events : List Event}
    (prepared : prepareForYoungerRefsIterate true lastCurValInGen regionsToIterate = some cur)
    (reached : run (step cur) (start card regions) events = some st) :
    (∀ c ∈ st.marked, st.card c ≠ cleanCard) ∧
      (Scanned st → ∀ region ∈ regions, ∀ c, region.startCard ≤ c → c < region.endCard →
        cardIsDirtyWrtGenIter (card c) = true ∨ isPrevNoncleanCardVal cur (card c) = true →
        c ∈ st.handed) ∧
      ∀ g < regionsToIterate, lastCurValInGen g ≠ cur := by
  have parallel := parallelValue_of_prepared prepared
  have keeps : ∀ st e st', Coherent cur st → step cur st e = some st' → Coherent cur st' :=
    fun st e st' coherent stepped =>
      (step_effect parallel coherent stepped).coherent parallel coherent
  have coherent := run_invariant keeps (start_coherent card regions) reached
  refine ⟨fun c listed => (coherent.marked c listed).1, ?_, fun g => ne_of_prepared prepared⟩
  intro scanned region listed c low high old
  have due : Due cur (card c) := by
    rcases old with dirty | prev
    · exact .inl (.inl dirty)
    · exact due_of_prevNonclean prev
  have both : Coherent cur st ∧ Tracked cur st c := by
    refine run_invariant (P := fun st => Coherent cur st ∧ Tracked cur st c) ?_
      ⟨start_coherent card regions, start_tracked listed low high due⟩ reached
    rintro st e st' ⟨coherent, tracked⟩ stepped
    have effect := step_effect parallel coherent stepped
    exact ⟨effect.coherent parallel coherent, effect.tracked tracked⟩
  exact handed_of_scanned scanned both.2

/-- A region of one card in one stride. -/
def oneCard : Region := ⟨0, 1, 0, 1, 1, Nat.one_pos, Nat.one_pos⟩

/-- The barrier marks a dirty card between the scanner's read and its compare-and-swap. -/
def racingEvents : List Event :=
  [.claim 0, .scan 0, .scan 0, .scan 0, .enter 0 0, .mark 0, .scan 0, .mark 0, .scan 0, .scan 0,
    .scan 0, .scan 0, .scan 0]

theorem racing_scanned
    (reached : run (step 18) (start (fun _ => dirtyCard) [oneCard]) racingEvents = some st) :
    Scanned st ∧ 0 ∈ st.marked := by
  obtain rfl := some.inj reached
  refine ⟨⟨rfl, fun s => ?_, fun s => ?_⟩, mem_cons_self⟩
  · cases s with
    | zero => rfl
    | succ s => rfl
  · cases s with
    | zero => rfl
    | succ s => rfl

theorem dirty_card_scanned_and_marked :
    ∃ st, run (step 18) (start (fun _ => dirtyCard) [oneCard]) racingEvents = some st ∧
      st.card 0 ≠ cleanCard ∧ 0 ∈ st.handed := by
  obtain ⟨st, reached⟩ : ∃ st, run (step 18) (start (fun _ => dirtyCard) [oneCard]) racingEvents =
      some st := ⟨_, rfl⟩
  obtain ⟨scanned, marked⟩ := racing_scanned reached
  have prepared : prepareForYoungerRefsIterate true (fun _ => cleanCard) 3 = some 18 := rfl
  obtain ⟨used, handed, -⟩ := card_scan_safe prepared reached
  exact ⟨st, reached, used 0 marked,
    handed scanned oneCard (mem_singleton_self _) 0 (by decide) (by decide) (.inl rfl)⟩

/-- Of three collections in a row the first and the last use the value 18. A card that the first one
left with it, and that lay in no used region during the second, is not handed on by the last. -/
theorem stale_current_card_passed :
    prepareForYoungerRefsIterate true (fun _ => cleanCard) 4 = some 18 ∧
      prepareForYoungerRefsIterate true (update (fun _ => cleanCard) 3 18) 4 = some 19 ∧
      prepareForYoungerRefsIterate true (update (fun _ => cleanCard) 3 19) 4 = some 18 ∧
      ∃ st, run (step 18) (start (fun _ => 18) [oneCard]) (.claim 0 :: replicate 6 (.scan 0)) =
        some st ∧ Scanned st ∧ 0 ∉ st.handed := by
  refine ⟨rfl, by decide, by decide, _, rfl, ⟨rfl, fun s => ?_, fun s => ?_⟩, not_mem_nil⟩
  · cases s with
    | zero => rfl
    | succ s => rfl
  · cases s with
    | zero => rfl
    | succ s => rfl

end CardScanning
