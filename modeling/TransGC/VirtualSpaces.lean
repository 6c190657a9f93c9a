import Mathlib.Algebra.Order.Ring.Int
import Mathlib.Order.Lattice.Nat
import TransGC.TransitionRuns

/-!
# Committing and uncommitting a reserved range

A `VirtualSpace` is a reserved range of which `[low, high)` is in use. Its memory is committed in
three regions: large pages in the middle, where the range is aligned for them, and small pages
below and above. `expand_by` and `shrink_by` make up to three requests to the operating system, each
of which may be refused; a refusal ends the call with what was done before it in effect. Both move
`high` last: for `shrink_by`, bytes that an earlier request gave back are then still below it.
-/
namespace VirtualSpaces
open TransitionRuns

/-! ### Pages -/

/-- The page sizes of the platform; those in `pageSizes` are tried from the first on. -/
structure Pages where
  vmPageSize : Nat
  useLargePages : Bool
  pageSizes : List Nat
  positive : 0 < vmPageSize
  whole : ∀ size ∈ pageSizes, 0 < size ∧ vmPageSize ∣ size

/-- A range that was reserved begins and ends at a page boundary. -/
structure ReservedSpace (pages : Pages) where
  base : Nat
  size : Nat
  special : Bool
  nonempty : 0 < size
  base_aligned : pages.vmPageSize ∣ base
  size_aligned : pages.vmPageSize ∣ size

/-- `os::page_size_for_region`; page sizes are powers of two, so its masks test divisibility. -/
def pageSizeForRegion (pages : Pages) (regionMinSize regionMaxSize minPages : Nat) : Nat :=
  if pages.useLargePages then
    (pages.pageSizes.find? fun sz =>
      (regionMinSize % sz == 0 && regionMaxSize % sz == 0) || sz ≤ regionMaxSize / minPages).getD
      pages.vmPageSize
  else pages.vmPageSize

def roundTo (x s : Nat) : Nat := (x + (s - 1)) / s * s

def roundDown (x s : Nat) : Nat := x / s * s

/-! ### The space -/

/-- Which addresses are committed by requests of this space. -/
abbrev Memory := Nat → Bool

/-- A region ends at its boundary and begins where the one before it ends. -/
structure Region where
  start : Nat
  high : Nat
  highBoundary : Nat
  alignment : Nat
  deriving DecidableEq, Repr

structure VirtualSpace where
  lowBoundary : Nat
  highBoundary : Nat
  low : Nat
  high : Nat
  special : Bool
  lower : Region
  middle : Region
  upper : Region
  deriving DecidableEq, Repr

structure Machine where
  space : VirtualSpace
  committed : Memory

/-- What the operating system answers to the request for each region, if it is made. -/
structure Answers where
  lower : Bool
  middle : Bool
  upper : Bool
  deriving DecidableEq, Repr

def commitMemory (memory : Memory) (low high : Nat) : Memory :=
  fun a => decide (low ≤ a ∧ a < high) || memory a

def uncommitMemory (memory : Memory) (low high : Nat) : Memory :=
  fun a => !decide (low ≤ a ∧ a < high) && memory a

/-- The mark of a region after an expansion up to `newHigh`. -/
def Region.grown (r : Region) (newHigh : Nat) : Nat :=
  roundTo (min newHigh r.highBoundary) r.alignment

/-- The mark of a region after the space has shrunk down to `newHigh`. -/
def Region.shrunk (r : Region) (newHigh : Nat) : Nat :=
  roundTo (max newHigh r.start) r.alignment

/-- Commits what the region needs; `none` if the request is refused. -/
def Region.commit (r : Region) (memory : Memory) (newHigh : Nat) (granted : Bool) :
    Option (Region × Memory) :=
  if r.grown newHigh > r.high then
    if granted then
      some ({ r with high := r.grown newHigh }, commitMemory memory r.high (r.grown newHigh))
    else none
  else some (r, memory)

def Region.uncommit (r : Region) (memory : Memory) (newHigh : Nat) (granted : Bool) :
    Option (Region × Memory) :=
  if r.shrunk newHigh < r.high then
    if granted then
      some ({ r with high := r.shrunk newHigh }, uncommitMemory memory (r.shrunk newHigh) r.high)
    else none
  else some (r, memory)

namespace VirtualSpace

def committedSize (s : VirtualSpace) : Nat := s.high - s.low

def uncommittedSize (s : VirtualSpace) : Nat := s.highBoundary - s.lowBoundary - s.committedSize

end VirtualSpace

/-- The state after the call, and whether it succeeded. -/
def expandBy (m : Machine) (bytes : Nat) (answers : Answers) : Machine × Bool :=
  let s := m.space
  if s.uncommittedSize < bytes then (m, false)
  else if s.special then ({ m with space.high := s.high + bytes }, true)
  else
    let newHigh := s.high + bytes
    match s.lower.commit m.committed newHigh answers.lower with
    | none => (m, false)
    | some (lower, committed) =>
      match s.middle.commit committed newHigh answers.middle with
      | none => (⟨{ s with lower }, committed⟩, false)
      | some (middle, committed') =>
        match s.upper.commit committed' newHigh answers.upper with
        | none => (⟨{ s with lower, middle }, committed'⟩, false)
        | some (upper, committed'') =>
          (⟨{ s with lower, middle, upper, high := newHigh }, committed''⟩, true)

/-- The state after the call; `none` where the virtual machine gives up. -/
def shrinkBy (m : Machine) (size : Nat) (answers : Answers) : Option Machine :=
  let s := m.space
  if s.committedSize < size then none
  else if s.special then some { m with space.high := s.high - size }
  else
    let newHigh := s.high - size
    match s.upper.uncommit m.committed newHigh answers.upper with
    | none => some m
    | some (upper, committed) =>
      match s.middle.uncommit committed newHigh answers.middle with
      | none => some ⟨{ s with upper }, committed⟩
      | some (middle, committed') =>
        match s.lower.uncommit committed' newHigh answers.lower with
        | none => some ⟨{ s with upper, middle }, committed'⟩
        | some (lower, committed'') =>
          some ⟨{ s with upper, middle, lower, high := newHigh }, committed''⟩

/-- The state in which `initialize` makes its first expansion. -/
def reserved {pages : Pages} (rs : ReservedSpace pages) : Machine where
  space :=
    let highBoundary := rs.base + rs.size
    let middleAlignment := pageSizeForRegion pages rs.size rs.size 1
    let lowerHighBoundary := roundTo rs.base middleAlignment
    let middleHighBoundary := roundDown highBoundary middleAlignment
    { lowBoundary := rs.base
      highBoundary
      low := rs.base
      high := rs.base
      special := rs.special
      lower := ⟨rs.base, rs.base, lowerHighBoundary, pages.vmPageSize⟩
      middle := ⟨lowerHighBoundary, lowerHighBoundary, middleHighBoundary, middleAlignment⟩
      upper := ⟨middleHighBoundary, middleHighBoundary, highBoundary, pages.vmPageSize⟩ }
  committed := fun _ => false

def initializeSpace {pages : Pages} (rs : ReservedSpace pages) (committedSize : Nat)
    (answers : Answers) : Machine × Bool :=
  if committedSize > 0 then expandBy (reserved rs) committedSize answers else (reserved rs, true)

inductive Event
  | expandBy (bytes : Nat) (answers : Answers)
  | shrinkBy (size : Nat) (answers : Answers)
  deriving DecidableEq, Repr

def step (m : Machine) : Event → Option Machine
  | .expandBy bytes answers => some (expandBy m bytes answers).1
  | .shrinkBy size answers => shrinkBy m size answers

/-! ### What should hold -/

/-- The mark is in the region, and the region is committed up to it. -/
structure Region.Exact (r : Region) (memory : Memory) : Prop where
  lower : r.start ≤ r.high
  upper : r.high ≤ r.highBoundary
  committed : ∀ a, r.start ≤ a → a < r.highBoundary → (memory a = true ↔ a < r.high)

/-- Every byte in use is committed, one by one or with the whole pinned range. -/
def Backed (m : Machine) : Prop :=
  ∀ a, m.space.low ≤ a → a < m.space.high → m.space.special = true ∨ m.committed a = true

/-! ### Rounding -/

theorem le_roundTo (x : Nat) {s : Nat} (positive : 0 < s) : x ≤ roundTo x s := by
  have parts := Nat.div_add_mod' (x + (s - 1)) s
  have rest := Nat.mod_lt (x + (s - 1)) positive
  unfold roundTo
  omega

theorem roundTo_le {x s bound : Nat} (positive : 0 < s) (aligned : s ∣ bound) (le : x ≤ bound) :
    roundTo x s ≤ bound := by
  obtain ⟨n, rfl⟩ := aligned
  rw [mul_comm s n]
  apply Nat.mul_le_mul_right
  apply Nat.le_of_lt_succ
  apply (Nat.div_lt_iff_lt_mul positive).mpr
  rw [Nat.succ_mul, mul_comm n s]
  omega

theorem dvd_roundTo (x s : Nat) : s ∣ roundTo x s := dvd_mul_left s _

theorem roundDown_le (x s : Nat) : roundDown x s ≤ x := Nat.div_mul_le_self x s

theorem le_roundDown {x s bound : Nat} (positive : 0 < s) (aligned : s ∣ bound) (le : bound ≤ x) :
    bound ≤ roundDown x s := by
  obtain ⟨n, rfl⟩ := aligned
  rw [mul_comm s n]
  apply Nat.mul_le_mul_right
  apply (Nat.le_div_iff_mul_le positive).mpr
  rw [mul_comm]
  exact le

/-! ### One region -/

/-- The part of the region below `high` is committed. -/
def Region.Covers (r : Region) (high : Nat) : Prop := min high r.highBoundary ≤ r.high

/-- The boundaries and the alignment of a region, which no request changes. -/
structure Region.Laid (r : Region) : Prop where
  ordered : r.start ≤ r.highBoundary
  positive : 0 < r.alignment
  aligned : r.alignment ∣ r.highBoundary

structure Region.SamePlace (r r' : Region) : Prop where
  start : r'.start = r.start
  highBoundary : r'.highBoundary = r.highBoundary
  alignment : r'.alignment = r.alignment

theorem Region.SamePlace.laid {r r' : Region} (same : r.SamePlace r') (laid : r.Laid) :
    r'.Laid := by
  obtain ⟨start, boundary, alignment⟩ := same
  constructor
  · rw [start, boundary]
    exact laid.ordered
  · rw [alignment]
    exact laid.positive
  · rw [alignment, boundary]
    exact laid.aligned

section Regions

variable {r r' : Region} {memory memory' : Memory} {newHigh : Nat} {granted : Bool}

/-- What a request does to the memory of the other regions: nothing. -/
def SameOutside (r : Region) (memory memory' : Memory) : Prop :=
  ∀ a, a < r.start ∨ r.highBoundary ≤ a → memory' a = memory a

theorem Region.Exact.frame {other : Region} (exact : r.Exact memory)
    (same : SameOutside other memory memory')
    (apart : r.highBoundary ≤ other.start ∨ other.highBoundary ≤ r.start) : r.Exact memory' := by
  refine ⟨exact.lower, exact.upper, fun a above below => ?_⟩
  rw [same a (by omega)]
  exact exact.committed a above below

theorem commit_spec (laid : r.Laid) (exact : r.Exact memory)
    (done : r.commit memory newHigh granted = some (r', memory')) :
    r.SamePlace r' ∧ r'.Exact memory' ∧ SameOutside r memory memory' ∧ r.high ≤ r'.high ∧
      r'.Covers newHigh := by
  have lower := exact.lower
  have reaches := le_roundTo (min newHigh r.highBoundary) laid.positive
  have inside : r.grown newHigh ≤ r.highBoundary :=
    roundTo_le laid.positive laid.aligned (min_le_right _ _)
  unfold Region.commit at done
  split at done
  · rename_i needs
    split at done
    · cases done
      refine ⟨⟨rfl, rfl, rfl⟩, ⟨le_trans lower (le_of_lt needs), inside, ?_⟩, ?_,
        le_of_lt needs, reaches⟩
      · intro a above below
        have before := exact.committed a above below
        simp only [commitMemory, Bool.or_eq_true, decide_eq_true_eq, before]
        omega
      · intro a away
        have : ¬(r.high ≤ a ∧ a < r.grown newHigh) := by omega
        simp [commitMemory, this]
    · cases done
  · rename_i enough
    cases done
    exact ⟨⟨rfl, rfl, rfl⟩, exact, fun _ _ => rfl, le_refl _,
      le_trans reaches (le_of_not_gt enough)⟩

theorem uncommit_spec (laid : r.Laid) (exact : r.Exact memory)
    (done : r.uncommit memory newHigh granted = some (r', memory')) :
    r.SamePlace r' ∧ r'.Exact memory' ∧ SameOutside r memory memory' ∧
      r'.high = min r.high (r.shrunk newHigh) := by
  have upper := exact.upper
  have above : r.start ≤ r.shrunk newHigh :=
    le_trans (le_max_right _ _) (le_roundTo _ laid.positive)
  unfold Region.uncommit at done
  split at done
  · rename_i needs
    split at done
    · cases done
      refine ⟨⟨rfl, rfl, rfl⟩, ⟨above, le_trans (le_of_lt needs) upper, ?_⟩, ?_,
        (min_eq_right (le_of_lt needs)).symm⟩
      · intro a inside below
        have before := exact.committed a inside below
        simp only [uncommitMemory, Bool.and_eq_true, Bool.not_eq_true', decide_eq_false_iff_not,
          before]
        omega
      · intro a away
        have : ¬(r.shrunk newHigh ≤ a ∧ a < r.high) := by omega
        simp [uncommitMemory, this]
    · cases done
  · rename_i keeps
    cases done
    exact ⟨⟨rfl, rfl, rfl⟩, exact, fun _ _ => rfl, (min_eq_left (le_of_not_gt keeps)).symm⟩

/-- The request is made and refused. -/
def Region.Refused (r : Region) (newHigh : Nat) (granted : Bool) : Prop :=
  r.shrunk newHigh < r.high ∧ granted = false

theorem uncommit_eq_none_iff :
    r.uncommit memory newHigh granted = none ↔ r.Refused newHigh granted := by
  unfold Region.uncommit Region.Refused
  split
  · rename_i needs
    cases granted <;> simp [needs]
  · rename_i keeps
    simp [keeps]

theorem not_refused_of_uncommit (done : r.uncommit memory newHigh granted = some (r', memory')) :
    ¬r.Refused newHigh granted := by
  intro refused
  rw [uncommit_eq_none_iff.mpr refused] at done
  cases done

end Regions

/-! ### The whole space -/

structure Laid (s : VirtualSpace) : Prop where
  low : s.low = s.lowBoundary
  lowerStart : s.lower.start = s.lowBoundary
  middleStart : s.middle.start = s.lower.highBoundary
  upperStart : s.upper.start = s.middle.highBoundary
  upperEnd : s.upper.highBoundary = s.highBoundary
  lower : s.lower.Laid
  middle : s.middle.Laid
  upper : s.upper.Laid
  above : s.low ≤ s.high
  inside : s.high ≤ s.highBoundary

/-- Each mark is in its region and equals the end of what is committed there. -/
structure Marked (m : Machine) : Prop where
  lower : m.space.lower.Exact m.committed
  middle : m.space.middle.Exact m.committed
  upper : m.space.upper.Exact m.committed

theorem backed_iff {m : Machine} (laid : Laid m.space) (marked : Marked m) :
    Backed m ↔ m.space.special = true ∨ m.space.lower.Covers m.space.high ∧
      m.space.middle.Covers m.space.high ∧ m.space.upper.Covers m.space.high := by
  obtain ⟨low, lowerStart, middleStart, upperStart, upperEnd, lower, middle, upper, above, inside⟩ :=
    laid
  have lowerOrder := lower.ordered
  have middleOrder := middle.ordered
  -- a region covers what its committed bytes below `high` say
  have covers : ∀ r : Region, r.Exact m.committed → m.space.low ≤ r.start →
      (∀ a, m.space.low ≤ a → a < m.space.high → m.committed a = true) →
      r.Covers m.space.high := by
    intro r exact after all
    by_contra short
    unfold Region.Covers at short
    have first := all r.high (le_trans after exact.lower) (by omega)
    have := (exact.committed r.high exact.lower (by omega)).mp first
    omega
  constructor
  · intro backed
    by_cases special : m.space.special = true
    · exact .inl special
    · have all : ∀ a, m.space.low ≤ a → a < m.space.high → m.committed a = true :=
        fun a le lt => (backed a le lt).resolve_left special
      exact .inr ⟨covers _ marked.lower (by omega) all, covers _ marked.middle (by omega) all,
        covers _ marked.upper (by omega) all⟩
  · rintro (special | ⟨coversLower, coversMiddle, coversUpper⟩) a le lt
    · exact .inl special
    · right
      unfold Region.Covers at coversLower coversMiddle coversUpper
      rcases lt_or_ge a m.space.lower.highBoundary with first | beyond
      · exact (marked.lower.committed a (by omega) first).mpr (by omega)
      · rcases lt_or_ge a m.space.middle.highBoundary with second | last
        · exact (marked.middle.committed a (by omega) second).mpr (by omega)
        · exact (marked.upper.committed a (by omega) (by omega)).mpr (by omega)

theorem Region.SamePlace.refl (r : Region) : r.SamePlace r := ⟨rfl, rfl, rfl⟩

theorem Laid.moved {s : VirtualSpace} (laid : Laid s) {lower middle upper : Region} {high : Nat}
    (sameLower : s.lower.SamePlace lower) (sameMiddle : s.middle.SamePlace middle)
    (sameUpper : s.upper.SamePlace upper) (above : s.low ≤ high) (inside : high ≤ s.highBoundary) :
    Laid { s with lower, middle, upper, high } where
  low := laid.low
  lowerStart := sameLower.start.trans laid.lowerStart
  middleStart := sameMiddle.start.trans (laid.middleStart.trans sameLower.highBoundary.symm)
  upperStart := sameUpper.start.trans (laid.upperStart.trans sameMiddle.highBoundary.symm)
  upperEnd := sameUpper.highBoundary.trans laid.upperEnd
  lower := sameLower.laid laid.lower
  middle := sameMiddle.laid laid.middle
  upper := sameUpper.laid laid.upper
  above := above
  inside := inside

theorem Region.Covers.mono {r r' : Region} {high : Nat} (covers : r.Covers high)
    (same : r.SamePlace r') (grows : r.high ≤ r'.high) : r'.Covers high := by
  unfold Region.Covers at covers ⊢
  rw [same.highBoundary]
  exact le_trans covers grows

section Steps

variable {m t : Machine}

theorem Laid.apart {s : VirtualSpace} (laid : Laid s) :
    s.lower.highBoundary ≤ s.middle.start ∧ s.middle.highBoundary ≤ s.upper.start ∧
      s.lower.highBoundary ≤ s.upper.start := by
  have := laid.middle.ordered
  have := laid.middleStart
  have := laid.upperStart
  omega

theorem expandBy_spec (laid : Laid m.space) (marked : Marked m) (bytes : Nat)
    (answers : Answers) :
    Laid (expandBy m bytes answers).1.space ∧ Marked (expandBy m bytes answers).1 ∧
      (Backed m → Backed (expandBy m bytes answers).1) := by
  obtain ⟨lowerMiddle, middleUpper, lowerUpper⟩ := laid.apart
  have above := laid.above
  have inside := laid.inside
  unfold expandBy
  dsimp only
  split
  · exact ⟨laid, marked, id⟩
  rename_i room
  have fits : m.space.high + bytes ≤ m.space.highBoundary := by
    have := laid.low
    unfold VirtualSpace.uncommittedSize VirtualSpace.committedSize at room
    omega
  split
  · rename_i special
    have higher := laid.moved (.refl _) (.refl _) (.refl _)
      (show m.space.low ≤ m.space.high + bytes by omega) fits
    exact ⟨higher, ⟨marked.lower, marked.middle, marked.upper⟩, fun _ a _ _ => .inl special⟩
  split
  · exact ⟨laid, marked, id⟩
  rename_i lower memory₁ done₁
  obtain ⟨same₁, exact₁, frame₁, grows₁, covers₁⟩ := commit_spec laid.lower marked.lower done₁
  have middle₁ := marked.middle.frame frame₁ (.inr lowerMiddle)
  have upper₁ := marked.upper.frame frame₁ (.inr lowerUpper)
  split
  · have moved := laid.moved same₁ (.refl _) (.refl _) above inside
    have marked' : Marked ⟨{ m.space with lower }, memory₁⟩ := ⟨exact₁, middle₁, upper₁⟩
    refine ⟨moved, marked', fun backed => (backed_iff moved marked').mpr ?_⟩
    rcases (backed_iff laid marked).mp backed with special | ⟨lowest, rest⟩
    · exact .inl special
    · exact .inr ⟨lowest.mono same₁ grows₁, rest⟩
  rename_i middle memory₂ done₂
  obtain ⟨same₂, exact₂, frame₂, grows₂, covers₂⟩ := commit_spec laid.middle middle₁ done₂
  have lower₂ := exact₁.frame frame₂ (.inl (same₁.highBoundary ▸ lowerMiddle))
  have upper₂ := upper₁.frame frame₂ (.inr middleUpper)
  split
  · have moved := laid.moved same₁ same₂ (.refl _) above inside
    have marked' : Marked ⟨{ m.space with lower, middle }, memory₂⟩ := ⟨lower₂, exact₂, upper₂⟩
    refine ⟨moved, marked', fun backed => (backed_iff moved marked').mpr ?_⟩
    rcases (backed_iff laid marked).mp backed with special | ⟨lowest, second, last⟩
    · exact .inl special
    · exact .inr ⟨lowest.mono same₁ grows₁, second.mono same₂ grows₂, last⟩
  rename_i upper memory₃ done₃
  obtain ⟨same₃, exact₃, frame₃, grows₃, covers₃⟩ := commit_spec laid.upper upper₂ done₃
  have lower₃ := lower₂.frame frame₃ (.inl (same₁.highBoundary ▸ lowerUpper))
  have middle₃ := exact₂.frame frame₃ (.inl (same₂.highBoundary ▸ middleUpper))
  have moved := laid.moved same₁ same₂ same₃
    (show m.space.low ≤ m.space.high + bytes by omega) fits
  have marked' : Marked ⟨{ m.space with lower, middle, upper, high := m.space.high + bytes },
      memory₃⟩ := ⟨lower₃, middle₃, exact₃⟩
  exact ⟨moved, marked', fun _ => (backed_iff moved marked').mpr (.inr ⟨covers₁, covers₂, covers₃⟩)⟩

/-- The bytes of the region that are in use are not given back. -/
def Region.KeepsUsed (r : Region) (newHigh high : Nat) : Prop :=
  min high r.highBoundary ≤ r.shrunk newHigh

/-- No request of the call is refused after an earlier one gave back bytes that are in use. -/
def InOrder (m : Machine) : Event → Prop
  | .expandBy _ _ => True
  | .shrinkBy size answers =>
    let s := m.space
    let newHigh := s.high - size
    s.special = true ∨ s.upper.Refused newHigh answers.upper ∨
      (s.middle.Refused newHigh answers.middle → s.upper.KeepsUsed newHigh s.high) ∧
      (¬s.middle.Refused newHigh answers.middle → s.lower.Refused newHigh answers.lower →
        s.upper.KeepsUsed newHigh s.high ∧ s.middle.KeepsUsed newHigh s.high)

/-- After a granted request a region covers `high` if it did and keeps what is in use. -/
theorem covers_shrunk_iff {r r' : Region} {newHigh high : Nat} (same : r.SamePlace r')
    (mark : r'.high = min r.high (r.shrunk newHigh)) (covers : r.Covers high) :
    r'.Covers high ↔ r.KeepsUsed newHigh high := by
  unfold Region.Covers Region.KeepsUsed at *
  rw [mark, same.highBoundary]
  omega

theorem covers_newHigh {r r' : Region} {newHigh high : Nat} (positive : 0 < r.alignment)
    (same : r.SamePlace r') (mark : r'.high = min r.high (r.shrunk newHigh))
    (covers : r.Covers high) (lower : newHigh ≤ high) : r'.Covers newHigh := by
  have := le_roundTo (max newHigh r.start) positive
  unfold Region.Covers Region.shrunk at *
  rw [mark, same.highBoundary]
  omega

theorem shrinkBy_spec (laid : Laid m.space) (marked : Marked m) {size : Nat} {answers : Answers}
    (shrinks : shrinkBy m size answers = some t) :
    Laid t.space ∧ Marked t ∧ (Backed m → (Backed t ↔ InOrder m (.shrinkBy size answers))) := by
  obtain ⟨lowerMiddle, middleUpper, lowerUpper⟩ := laid.apart
  have above := laid.above
  have inside := laid.inside
  unfold shrinkBy at shrinks
  dsimp only at shrinks
  split at shrinks
  · cases shrinks
  rename_i enough
  have lowest : m.space.low ≤ m.space.high - size := by
    unfold VirtualSpace.committedSize at enough
    omega
  have highest : m.space.high - size ≤ m.space.highBoundary := by omega
  split at shrinks
  · rename_i special
    cases shrinks
    have moved := laid.moved (.refl _) (.refl _) (.refl _) lowest highest
    exact ⟨moved, ⟨marked.lower, marked.middle, marked.upper⟩,
      fun _ => iff_of_true (fun _ _ _ => .inl special) (.inl special)⟩
  rename_i plain
  split at shrinks
  · rename_i refused
    cases shrinks
    exact ⟨laid, marked,
      fun backed => iff_of_true backed (.inr (.inl (uncommit_eq_none_iff.mp refused)))⟩
  rename_i upper memory₁ done₁
  have granted₁ := not_refused_of_uncommit done₁
  obtain ⟨same₁, exact₁, frame₁, mark₁⟩ := uncommit_spec laid.upper marked.upper done₁
  have middle₁ := marked.middle.frame frame₁ (.inl middleUpper)
  have lower₁ := marked.lower.frame frame₁ (.inl lowerUpper)
  split at shrinks
  · rename_i refused
    cases shrinks
    have refused₂ := uncommit_eq_none_iff.mp refused
    have moved := laid.moved (.refl _) (.refl _) same₁ above inside
    have marked' : Marked ⟨{ m.space with upper }, memory₁⟩ := ⟨lower₁, middle₁, exact₁⟩
    refine ⟨moved, marked', fun backed => ?_⟩
    obtain ⟨coversLower, coversMiddle, coversUpper⟩ :=
      ((backed_iff laid marked).mp backed).resolve_left plain
    have shrunk := covers_shrunk_iff same₁ mark₁ coversUpper
    rw [backed_iff moved marked']
    simp only [InOrder, plain, granted₁, refused₂, coversLower, coversMiddle, shrunk, true_and,
      false_or, not_true, false_implies, and_true, true_implies]
  rename_i middle memory₂ done₂
  have granted₂ := not_refused_of_uncommit done₂
  obtain ⟨same₂, exact₂, frame₂, mark₂⟩ := uncommit_spec laid.middle middle₁ done₂
  have upper₂ := exact₁.frame frame₂ (.inr (same₁.start ▸ middleUpper))
  have lower₂ := lower₁.frame frame₂ (.inl lowerMiddle)
  split at shrinks
  · rename_i refused
    cases shrinks
    have refused₃ := uncommit_eq_none_iff.mp refused
    have moved := laid.moved (.refl _) same₂ same₁ above inside
    have marked' : Marked ⟨{ m.space with upper, middle }, memory₂⟩ := ⟨lower₂, exact₂, upper₂⟩
    refine ⟨moved, marked', fun backed => ?_⟩
    obtain ⟨coversLower, coversMiddle, coversUpper⟩ :=
      ((backed_iff laid marked).mp backed).resolve_left plain
    have shrunkUpper := covers_shrunk_iff same₁ mark₁ coversUpper
    have shrunkMiddle := covers_shrunk_iff same₂ mark₂ coversMiddle
    rw [backed_iff moved marked']
    simp only [InOrder, plain, granted₁, granted₂, refused₃, coversLower, shrunkUpper,
      shrunkMiddle, true_and, false_or, not_false_eq_true, false_implies, true_implies]
    exact or_congr Iff.rfl and_comm
  rename_i lower memory₃ done₃
  have granted₃ := not_refused_of_uncommit done₃
  obtain ⟨same₃, exact₃, frame₃, mark₃⟩ := uncommit_spec laid.lower lower₂ done₃
  have upper₃ := upper₂.frame frame₃ (.inr (same₁.start ▸ lowerUpper))
  have middle₃ := exact₂.frame frame₃ (.inr (same₂.start ▸ lowerMiddle))
  cases shrinks
  have moved := laid.moved same₃ same₂ same₁ lowest highest
  have marked' : Marked ⟨{ m.space with upper, middle, lower, high := m.space.high - size },
      memory₃⟩ := ⟨exact₃, middle₃, upper₃⟩
  refine ⟨moved, marked', fun backed => iff_of_true ?_ ?_⟩
  · obtain ⟨coversLower, coversMiddle, coversUpper⟩ :=
      ((backed_iff laid marked).mp backed).resolve_left plain
    have less : m.space.high - size ≤ m.space.high := Nat.sub_le _ _
    exact (backed_iff moved marked').mpr
      (.inr ⟨covers_newHigh laid.lower.positive same₃ mark₃ coversLower less,
        covers_newHigh laid.middle.positive same₂ mark₂ coversMiddle less,
        covers_newHigh laid.upper.positive same₁ mark₁ coversUpper less⟩)
  · exact .inr (.inr ⟨fun refused => absurd refused granted₂,
      fun _ refused => absurd refused granted₃⟩)

/-- Every call keeps the marks right; it keeps the bytes in use committed exactly if it is in
order. -/
theorem step_spec {e : Event} (laid : Laid m.space) (marked : Marked m)
    (stepped : step m e = some t) :
    Laid t.space ∧ Marked t ∧ (Backed m → (Backed t ↔ InOrder m e)) := by
  cases e with
  | expandBy bytes answers =>
    cases stepped
    obtain ⟨laid', marked', backed'⟩ := expandBy_spec laid marked bytes answers
    exact ⟨laid', marked', fun backed => iff_of_true (backed' backed) trivial⟩
  | shrinkBy size answers => exact shrinkBy_spec laid marked stepped

end Steps

/-! ### Runs -/

section Runs

variable {pages : Pages} (rs : ReservedSpace pages)

/-- The alignment is a multiple of the page size, and the range has a boundary of it. -/
theorem pageSizeForRegion_spec :
    0 < pageSizeForRegion pages rs.size rs.size 1 ∧
      pages.vmPageSize ∣ pageSizeForRegion pages rs.size rs.size 1 ∧
      pageSizeForRegion pages rs.size rs.size 1 ≤ rs.size := by
  have small : 0 < pages.vmPageSize ∧ pages.vmPageSize ∣ pages.vmPageSize ∧
      pages.vmPageSize ≤ rs.size :=
    ⟨pages.positive, dvd_refl _, Nat.le_of_dvd rs.nonempty rs.size_aligned⟩
  unfold pageSizeForRegion
  split
  · cases found : pages.pageSizes.find? _ with
    | none => exact small
    | some sz =>
      obtain ⟨positive, whole⟩ := pages.whole sz (List.mem_of_find?_eq_some found)
      refine ⟨positive, whole, ?_⟩
      have chosen := List.find?_some found
      simp only [Bool.and_self, Nat.div_one, Bool.or_eq_true, beq_iff_eq, decide_eq_true_eq]
        at chosen
      rcases chosen with divides | le
      · exact Nat.le_of_dvd rs.nonempty (Nat.dvd_of_mod_eq_zero divides)
      · exact le
  · exact small

theorem reserved_laid : Laid (reserved rs).space := by
  obtain ⟨positive, whole, small⟩ := pageSizeForRegion_spec rs
  have above := le_roundTo rs.base positive
  have below := roundDown_le (rs.base + rs.size) (pageSizeForRegion pages rs.size rs.size 1)
  -- the first aligned address is still in the range
  have between : roundTo rs.base (pageSizeForRegion pages rs.size rs.size 1) ≤ rs.base + rs.size := by
    have parts := Nat.div_add_mod'
      (rs.base + (pageSizeForRegion pages rs.size rs.size 1 - 1))
      (pageSizeForRegion pages rs.size rs.size 1)
    unfold roundTo
    omega
  have ordered := le_roundDown positive (dvd_roundTo _ _) between
  refine ⟨rfl, rfl, rfl, rfl, rfl, ⟨above, pages.positive, ?_⟩, ⟨ordered, positive, ?_⟩,
    ⟨below, pages.positive, ?_⟩, le_refl _, Nat.le_add_right _ _⟩
  · exact dvd_trans whole (dvd_roundTo _ _)
  · exact dvd_mul_left _ _
  · exact Nat.dvd_add rs.base_aligned rs.size_aligned

theorem reserved_marked : Marked (reserved rs) := by
  have laid := reserved_laid rs
  refine ⟨⟨le_refl _, laid.lower.ordered, fun a above _ => ?_⟩,
    ⟨le_refl _, laid.middle.ordered, fun a above _ => ?_⟩,
    ⟨le_refl _, laid.upper.ordered, fun a above _ => ?_⟩⟩
  all_goals exact iff_of_false Bool.false_ne_true (not_lt_of_ge above)

theorem reserved_backed : Backed (reserved rs) :=
  fun _ above below => absurd below (not_lt_of_ge above)

/-- The marks are right after every call. The bytes in use are committed after every call exactly
if no call that shrinks has a request refused after an earlier one gave back bytes in use. -/
theorem backed_along_iff (committedSize : Nat) (answers : Answers) (events : List Event) :
    Along step Marked (initializeSpace rs committedSize answers).1 events ∧
      (Along step Backed (initializeSpace rs committedSize answers).1 events ↔
        Guarded step InOrder (initializeSpace rs committedSize answers).1 events) := by
  have start : Laid (initializeSpace rs committedSize answers).1.space ∧
      Marked (initializeSpace rs committedSize answers).1 ∧
      Backed (initializeSpace rs committedSize answers).1 := by
    have laid := reserved_laid rs
    have marked := reserved_marked rs
    unfold initializeSpace
    split
    · obtain ⟨laid', marked', backed'⟩ := expandBy_spec laid marked committedSize answers
      exact ⟨laid', marked', backed' (reserved_backed rs)⟩
    · exact ⟨laid, marked, reserved_backed rs⟩
  generalize (initializeSpace rs committedSize answers).1 = m at start
  obtain ⟨laid, marked, backed⟩ := start
  have always : Along step (fun m => Laid m.space ∧ Marked m) m events := by
    apply along_of_invariant _ ⟨laid, marked⟩
    rintro m e t ⟨laid, marked⟩ stepped
    obtain ⟨laid', marked', -⟩ := step_spec laid marked stepped
    exact ⟨laid', marked'⟩
  have exactly : Along step (fun m => (Laid m.space ∧ Marked m) ∧ Backed m) m events ↔
      Guarded step InOrder m events := by
    apply along_iff_guarded _ ⟨⟨laid, marked⟩, backed⟩
    rintro m e t ⟨⟨laid, marked⟩, backed⟩ stepped
    obtain ⟨laid', marked', inOrder⟩ := step_spec laid marked stepped
    rw [← inOrder backed]
    exact and_iff_right ⟨laid', marked'⟩
  refine ⟨always.mono fun m => And.right, ?_⟩
  rw [← exactly]
  exact ⟨fun along => always.and along, fun along => along.mono fun m => And.right⟩

end Runs

/-- Pages of 4 KB, and large pages of 2 MB. -/
private def usualPages : Pages := ⟨4096, true, [2097152, 4096], Nat.succ_pos _, by decide⟩

/-- One large page, two small pages below it and two above. -/
private def largeRange : ReservedSpace usualPages :=
  ⟨2088960, 2113536, false, by decide, by decide, by decide⟩

/-- The space is shrunk to one small page. The upper region is given back, the request for the
middle one is refused: the first byte of the upper region is in use and not committed. -/
theorem refused_shrink_leaves_hole :
    ∃ m, run step (initializeSpace largeRange 0 ⟨true, true, true⟩).1
        [.expandBy 2113536 ⟨true, true, true⟩, .shrinkBy 2109440 ⟨true, false, true⟩] = some m ∧
      m.space.low ≤ 4194304 ∧ 4194304 < m.space.high ∧ m.space.special = false ∧
      m.committed 4194304 = false := by
  have ends : (run step (initializeSpace largeRange 0 ⟨true, true, true⟩).1
      [.expandBy 2113536 ⟨true, true, true⟩, .shrinkBy 2109440 ⟨true, false, true⟩]).map
        (fun m => (m.space.low, m.space.high, m.space.special, m.committed 4194304)) =
      some (2088960, 4202496, false, false) := by decide +kernel
  obtain ⟨m, reached, fields⟩ := Option.map_eq_some_iff.mp ends
  obtain ⟨low, high, special, committed⟩ : m.space.low = 2088960 ∧ m.space.high = 4202496 ∧
      m.space.special = false ∧ m.committed 4194304 = false := by simpa using fields
  exact ⟨m, reached, by omega, by omega, special, committed⟩

end VirtualSpaces
