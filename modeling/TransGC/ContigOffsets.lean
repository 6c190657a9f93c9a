import TransGC.BlockLayouts
import TransGC.BlockOffsets

/-!
# Block starts in a contiguous space

Blocks are allocated side by side from the bottom of the space. `alloc_block` updates the table
only if the block reaches past a threshold, the next card boundary that no block has crossed.
`block_start_unsafe` follows the entries back to the start of some block and goes on from block
to block up to the address.
-/

namespace ContigOffsets

open BlockLayouts BlockOffsets Function List Option

/-- The card size of the table and the first card of the space, which starts on a card
boundary. -/
structure Area where
  nWords : Nat
  positive : 0 < nWords
  bottomIndex : Nat

namespace Area

variable (area : Area)

def indexFor (a : Nat) : Nat := a / area.nWords

def addressForIndex (index : Nat) : Nat := index * area.nWords

def bottom : Nat := area.addressForIndex area.bottomIndex

end Area

structure Offsets where
  table : Table
  nextOffsetIndex : Nat
  nextOffsetThreshold : Nat

variable (area : Area)

def initializeThreshold (table : Table) : Offsets :=
  let nextOffsetIndex := area.indexFor area.bottom + 1
  ⟨table, nextOffsetIndex, area.addressForIndex nextOffsetIndex⟩

def allocBlockWork (st : Offsets) (blkStart blkEnd : Nat) : Offsets :=
  let table := update st.table st.nextOffsetIndex (st.nextOffsetThreshold - blkStart)
  let endIndex := area.indexFor (blkEnd - 1)
  let table := if st.nextOffsetIndex + 1 ≤ endIndex then
      setRemainderToPointToStart area.nWords table
        (area.addressForIndex (st.nextOffsetIndex + 1))
        (area.addressForIndex endIndex + area.nWords)
    else table
  ⟨table, endIndex + 1, area.addressForIndex endIndex + area.nWords⟩

def allocBlock (st : Offsets) (blkStart blkEnd : Nat) : Offsets :=
  if blkEnd > st.nextOffsetThreshold then allocBlockWork area st blkStart blkEnd else st

/-- Blocks of the given sizes are allocated one after the other, the first one at `top`. -/
def allocBlocks : Offsets → Nat → List Nat → Offsets
  | st, _, [] => st
  | st, top, size :: rest =>
    allocBlocks (allocBlock area st top (top + size)) (top + size) rest

/-- The loop over entries above `nWords`; no result if it leaves the space or does not end. -/
def skipPowers (table : Table) : Nat → Nat → Option Nat
  | 0, _ => none
  | fuel + 1, index =>
    if table index > area.nWords then
      let nCardsBack := entryToCardsBack area.nWords (table index)
      if index < area.bottomIndex + nCardsBack then none
      else skipPowers table fuel (index - nCardsBack)
    else some index

/-- The loop over entries equal to `nWords`. -/
def skipCards (table : Table) : Nat → Nat → Option Nat
  | 0, _ => none
  | fuel + 1, index =>
    if table index = area.nWords then
      if index < area.bottomIndex + 1 then none else skipCards table fuel (index - 1)
    else some index

/-- The block start to which the entries lead back from a card. -/
def startFor (table : Table) (index : Nat) : Option Nat := do
  let index ← skipPowers area table (index + 1) index
  let index ← skipCards area table (index + 1) index
  return area.addressForIndex index - table index

/-- The blocks in the space are given by their sizes. -/
def blockStartUnsafe (st : Offsets) (sizes : List Nat) (addr : Nat) : Option Nat := do
  let index := min (area.indexFor addr) (st.nextOffsetIndex - 1)
  let q ← startFor area st.table index
  return lastStart id addr q q (blocksFrom id area.bottom sizes q)

variable {area} {table table' : Table} {fuel index size : Nat} {sizes : List Nat} {st : Offsets}

theorem skipPowers_le {result : Nat} (found : skipPowers area table fuel index = some result) :
    result ≤ index := by
  induction fuel generalizing index with
  | zero => cases found
  | succ fuel ih =>
    simp only [skipPowers] at found
    split at found
    · split at found
      · cases found
      · have := ih found
        omega
    · cases found
      exact le_refl _

/-- The first loop reads only entries up to the card where it starts. -/
theorem skipPowers_congr (same : ∀ i ≤ index, table i = table' i) :
    skipPowers area table fuel index = skipPowers area table' fuel index := by
  induction fuel generalizing index with
  | zero => rfl
  | succ fuel ih =>
    simp only [skipPowers, same index (le_refl _)]
    rw [ih fun i le => same i (by omega)]

theorem skipCards_congr (same : ∀ i ≤ index, table i = table' i) :
    skipCards area table fuel index = skipCards area table' fuel index := by
  induction fuel generalizing index with
  | zero => rfl
  | succ fuel ih =>
    simp only [skipCards, same index (le_refl _)]
    rw [ih fun i le => same i (by omega)]

theorem skipCards_le {result : Nat} (found : skipCards area table fuel index = some result) :
    result ≤ index := by
  induction fuel generalizing index with
  | zero => cases found
  | succ fuel ih =>
    simp only [skipCards] at found
    split at found
    · split at found
      · cases found
      · have := ih found
        omega
    · cases found
      exact le_refl _

theorem startFor_congr (same : ∀ i ≤ index, table i = table' i) :
    startFor area table index = startFor area table' index := by
  rw [startFor, startFor, skipPowers_congr same]
  cases powers : skipPowers area table' (index + 1) index with
  | none => rfl
  | some middle =>
    have upTo : ∀ i ≤ middle, table i = table' i :=
      fun i le => same i (le_trans le (skipPowers_le powers))
    simp only [bind_eq_bind, bind_some, skipCards_congr upTo]
    cases cards : skipCards area table' (middle + 1) middle with
    | none => rfl
    | some result => simp only [bind_some, upTo result (skipCards_le cards)]

/-- The cards behind `card` are the remainder of a block whose start is found through `card`. -/
structure Remainder (area : Area) (table : Table) (card count : Nat) : Prop where
  inSpace : area.bottomIndex ≤ card
  short : count < 16 ^ 7
  offset : table card ≤ area.nWords
  powers : ∀ d, 0 < d → d ≤ count → table (card + d) = area.nWords + Nat.log 16 d

section Remainder

variable {card count d : Nat} (remainder : Remainder area table card count)
include remainder

theorem Remainder.back (positive : 0 < d) (le : d ≤ count) :
    entryToCardsBack area.nWords (table (card + d)) = 16 ^ Nat.log 16 d := by
  have short := remainder.short
  have power : Nat.log 16 d < 7 := Nat.log_lt_of_lt_pow (by omega) (by omega)
  rw [remainder.powers d positive le, entryToCardsBack, Nat.add_sub_cancel_left,
    powerToCardsBack_eq (by omega)]

/-- The skips lead to one of the last fifteen cards behind the offset card, or to it. -/
theorem Remainder.skipPowers_eq (le : d ≤ count) (enough : d < fuel) :
    skipPowers area table fuel (card + d) = some (card + d % 16) := by
  induction d using Nat.strong_induction_on generalizing fuel with
  | _ d ih =>
    obtain ⟨fuel, rfl⟩ := Nat.exists_eq_add_one_of_ne_zero (ne_of_gt (Nat.zero_lt_of_lt enough))
    by_cases far : 16 ≤ d
    · have back := remainder.back (by omega) le
      have entry := remainder.powers d (by omega) le
      have log : 1 ≤ Nat.log 16 d := Nat.log_pos (by decide) far
      have reach : 16 ^ Nat.log 16 d ≤ d := pow_log_le (by omega)
      have positive : 0 < 16 ^ Nat.log 16 d := Nat.pow_pos (by decide)
      have inSpace := remainder.inSpace
      obtain ⟨k, power⟩ : 16 ∣ 16 ^ Nat.log 16 d := dvd_pow_self 16 (by omega)
      have landing : card + d - 16 ^ Nat.log 16 d = card + (d - 16 ^ Nat.log 16 d) := by omega
      have mod : (d - 16 ^ Nat.log 16 d) % 16 = d % 16 := by omega
      rw [skipPowers, if_pos (by omega), back, if_neg (by omega), landing, ← mod]
      exact ih _ (by omega) (by omega) (by omega)
    · have near : d % 16 = d := Nat.mod_eq_of_lt (by omega)
      have entry : table (card + d) ≤ area.nWords := by
        by_cases zero : d = 0
        · exact zero ▸ remainder.offset
        · rw [remainder.powers d (by omega) le, Nat.log_of_lt (by omega)]
          exact le_refl _
      rw [skipPowers, if_neg (not_lt_of_ge entry), near]

theorem Remainder.skipCards_eq (le : d ≤ count) (near : d < 16) :
    skipCards area table (fuel + d) (card + d) = skipCards area table fuel card := by
  induction d with
  | zero => rfl
  | succ d ih =>
    have entry : table (card + (d + 1)) = area.nWords := by
      rw [remainder.powers (d + 1) (Nat.succ_pos d) le, Nat.log_of_lt near]
      rfl
    have inSpace := remainder.inSpace
    rw [← add_assoc, skipCards, if_pos entry, if_neg (by omega), ← ih (by omega) (by omega)]
    rfl

/-- The start of the block is found from every card of its remainder. -/
theorem Remainder.startFor_eq (le : d ≤ count) :
    startFor area table (card + d) = do
      let index ← skipCards area table (card + 1) card
      return area.addressForIndex index - table index := by
  have near : d % 16 ≤ d := Nat.mod_le d 16
  have small : d % 16 < 16 := Nat.mod_lt d (by decide)
  have fuelEq : card + d % 16 + 1 = card + 1 + d % 16 := add_right_comm _ _ _
  rw [startFor, remainder.skipPowers_eq le (by omega)]
  simp only [bind_eq_bind, bind_some]
  rw [fuelEq, remainder.skipCards_eq (by omega) small]

end Remainder

theorem allocBlockWork_table (blkStart : Nat) {blkEnd : Nat}
    (short : area.indexFor (blkEnd - 1) < st.nextOffsetIndex + 16 ^ 7) (c : Nat) :
    (allocBlockWork area st blkStart blkEnd).table c =
      if st.nextOffsetIndex < c ∧ c ≤ area.indexFor (blkEnd - 1) then
        area.nWords + Nat.log 16 (c - st.nextOffsetIndex)
      else if c = st.nextOffsetIndex then st.nextOffsetThreshold - blkStart else st.table c := by
  simp only [allocBlockWork]
  split
  next some =>
    rw [Area.addressForIndex, Area.addressForIndex,
      setRemainderToPointToStart_eq area.positive some short, update_apply]
  next none =>
    rw [if_neg (by omega), update_apply]

/-- No block has crossed the threshold yet, and from every card below it the table leads back to the
start of some block. -/
structure Indexed (area : Area) (st : Offsets) (sizes : List Nat) : Prop where
  threshold : st.nextOffsetThreshold = area.addressForIndex st.nextOffsetIndex
  above : area.bottomIndex < st.nextOffsetIndex
  top_le : area.bottom + total id sizes ≤ st.nextOffsetThreshold
  crossed : area.addressForIndex (st.nextOffsetIndex - 1) < area.bottom + total id sizes ∨
    (sizes = [] ∧ st.nextOffsetIndex = area.bottomIndex + 1)
  bottomEntry : st.table area.bottomIndex = 0
  found : ∀ c, area.bottomIndex ≤ c → c < st.nextOffsetIndex →
    ∃ start rest, startFor area st.table c = some start ∧
      From id area.bottom sizes start rest ∧ start ≤ area.addressForIndex c

/-- A card whose entry is below `nWords` gives the start of the block at once. -/
theorem skipCards_self {card : Nat} (entry : table card < area.nWords) :
    skipCards area table (card + 1) card = some card := by
  rw [skipCards, if_neg (ne_of_lt entry)]

theorem initializeThreshold_eq (table : Table) : initializeThreshold area table =
    ⟨table, area.bottomIndex + 1, area.addressForIndex (area.bottomIndex + 1)⟩ := by
  have index : area.indexFor area.bottom = area.bottomIndex := Nat.mul_div_cancel _ area.positive
  simp only [initializeThreshold, index]

theorem initializeThreshold_indexed {table : Table} (zero : table area.bottomIndex = 0) :
    Indexed area (initializeThreshold area table) [] := by
  have positive := area.positive
  rw [initializeThreshold_eq]
  refine ⟨rfl, Nat.lt_succ_self _, ?_, Or.inr ⟨rfl, rfl⟩, zero, ?_⟩
  · exact Nat.mul_le_mul_right _ (Nat.le_succ _)
  · intro c low high
    obtain rfl : c = area.bottomIndex := le_antisymm (Nat.le_of_lt_succ high) low
    refine ⟨area.bottom, [], ?_, From.here _ _, le_refl _⟩
    have remainder : Remainder area table area.bottomIndex 0 :=
      ⟨le_refl _, by decide, by omega, fun d positive le => by omega⟩
    have start := remainder.startFor_eq (le_refl 0)
    rw [add_zero, skipCards_self (by omega)] at start
    simpa [zero, Area.bottom] using start

section

variable (inv : Indexed area st sizes)
include inv

/-- A block that does not reach past the threshold starts no card. -/
theorem Indexed.keep (positive : 0 < size)
    (fits : area.bottom + total id sizes + size ≤ st.nextOffsetThreshold) :
    Indexed area st (sizes ++ [size]) := by
  have grown : total id (sizes ++ [size]) = total id sizes + size := total_append sizes [size]
  refine ⟨inv.threshold, inv.above, by omega, ?_, inv.bottomEntry, ?_⟩
  · left
    rcases inv.crossed with crossed | ⟨rfl, first⟩
    · omega
    · have bottomEq : area.addressForIndex (st.nextOffsetIndex - 1) = area.bottom := by
        rw [first]
        rfl
      omega
  · intro c low high
    obtain ⟨start, rest, found, layout, le⟩ := inv.found c low high
    exact ⟨start, rest ++ [size], found, layout.append [size], le⟩

/-- The offset card of a new block leads to its start. Only the first block starts a whole card
before its offset card. -/
theorem Indexed.offset_card {table : Table}
    (below : ∀ c < st.nextOffsetIndex, table c = st.table c)
    (entry : table st.nextOffsetIndex = st.nextOffsetThreshold - (area.bottom + total id sizes)) :
    table st.nextOffsetIndex ≤ area.nWords ∧
      (do let index ← skipCards area table (st.nextOffsetIndex + 1) st.nextOffsetIndex
          return area.addressForIndex index - table index) =
        some (area.bottom + total id sizes) := by
  have positive := area.positive
  have above := inv.above
  have topLe := inv.top_le
  have thresholdEq := inv.threshold
  have cardBefore : area.addressForIndex st.nextOffsetIndex =
      area.addressForIndex (st.nextOffsetIndex - 1) + area.nWords := by
    rw [Area.addressForIndex, Area.addressForIndex, ← Nat.succ_mul]
    congr 1
    omega
  rcases inv.crossed with crossed | ⟨rfl, first⟩
  · have small : table st.nextOffsetIndex < area.nWords := by omega
    refine ⟨le_of_lt small, ?_⟩
    rw [skipCards_self small]
    refine congrArg some ?_
    omega
  · -- the first block: its offset card holds a whole card
    have bottomEq : area.addressForIndex (st.nextOffsetIndex - 1) = area.bottom := by
      rw [first]
      rfl
    rw [total_nil, add_zero] at entry ⊢
    have whole : table st.nextOffsetIndex = area.nWords := by omega
    have zero : table (st.nextOffsetIndex - 1) = 0 := by
      rw [below _ (by omega), first]
      exact inv.bottomEntry
    refine ⟨le_of_eq whole, ?_⟩
    obtain ⟨index, indexEq⟩ : ∃ index, st.nextOffsetIndex = index + 1 := ⟨area.bottomIndex, first⟩
    rw [skipCards, if_pos whole, if_neg (by omega)]
    rw [indexEq, Nat.add_sub_cancel] at zero bottomEq ⊢
    rw [skipCards_self (by omega)]
    simp [zero, bottomEq]

theorem Indexed.work (small : size < 2 ^ 28 * area.nWords)
    (crosses : st.nextOffsetThreshold < area.bottom + total id sizes + size) :
    Indexed area (allocBlockWork area st (area.bottom + total id sizes)
      (area.bottom + total id sizes + size)) (sizes ++ [size]) := by
  have positive := area.positive
  have above := inv.above
  have topLe := inv.top_le
  have grown : total id (sizes ++ [size]) = total id sizes + size := total_append sizes [size]
  generalize topEq : area.bottom + total id sizes = top at crosses topLe ⊢
  generalize endEq : area.indexFor (top + size - 1) = endIndex
  have nextLe : st.nextOffsetIndex ≤ endIndex := by
    rw [← endEq, Area.indexFor, Nat.le_div_iff_mul_le positive]
    have := inv.threshold
    simp only [Area.addressForIndex] at this
    omega
  have short : endIndex < st.nextOffsetIndex + 16 ^ 7 := by
    rw [← endEq, Area.indexFor, Nat.div_lt_iff_lt_mul positive, add_mul]
    have := inv.threshold
    simp only [Area.addressForIndex] at this
    omega
  have table := allocBlockWork_table top (endEq.symm ▸ short)
  have below (c : Nat) (under : c < st.nextOffsetIndex) :
      (allocBlockWork area st top (top + size)).table c = st.table c := by
    rw [table c, if_neg (by omega), if_neg (by omega)]
  have offset := inv.offset_card below
    (by rw [table, if_neg (by omega), if_pos rfl, topEq])
  have remainder : Remainder area (allocBlockWork area st top (top + size)).table
      st.nextOffsetIndex (endIndex - st.nextOffsetIndex) := by
    refine ⟨le_of_lt above, by omega, offset.1, ?_⟩
    intro d some le
    rw [table, if_pos (by omega), Nat.add_sub_cancel_left]
  have next : (allocBlockWork area st top (top + size)).nextOffsetIndex = endIndex + 1 :=
    congrArg (· + 1) endEq
  have threshold : (allocBlockWork area st top (top + size)).nextOffsetThreshold =
      area.addressForIndex (endIndex + 1) := by
    simp only [allocBlockWork, endEq, Area.addressForIndex, Nat.succ_mul]
  have inCard : area.addressForIndex endIndex ≤ top + size - 1 ∧
      top + size - 1 < area.addressForIndex (endIndex + 1) := by
    rw [← endEq]
    exact ⟨Nat.div_mul_le_self _ _, (Nat.div_lt_iff_lt_mul positive).mp (Nat.lt_succ_self _)⟩
  constructor
  · rw [threshold, next]
  · omega
  · rw [threshold]
    omega
  · left
    rw [next, Nat.add_sub_cancel]
    omega
  · rw [below _ above]
    exact inv.bottomEntry
  · intro c low high
    by_cases old : c < st.nextOffsetIndex
    · obtain ⟨start, rest, found, layout, le⟩ := inv.found c low old
      refine ⟨start, rest ++ [size], ?_, layout.append [size], le⟩
      rw [← found]
      exact startFor_congr fun i iLe => below i (by omega)
    · obtain ⟨d, rfl⟩ := Nat.exists_eq_add_of_le (le_of_not_gt old)
      refine ⟨top, [size], ?_, topEq ▸ from_stop _ sizes [size], ?_⟩
      · rw [remainder.startFor_eq (by omega), offset.2, topEq]
      · have := inv.threshold
        have mono : area.addressForIndex st.nextOffsetIndex ≤
            area.addressForIndex (st.nextOffsetIndex + d) :=
          Nat.mul_le_mul_right _ (Nat.le_add_right _ _)
        omega

theorem Indexed.allocBlock (positive : 0 < size) (small : size < 2 ^ 28 * area.nWords) :
    Indexed area (allocBlock area st (area.bottom + total id sizes)
      (area.bottom + total id sizes + size)) (sizes ++ [size]) := by
  rw [ContigOffsets.allocBlock]
  split
  next crosses => exact inv.work small crosses
  next fits => exact inv.keep positive (le_of_not_gt fits)

theorem Indexed.allocBlocks {more : List Nat}
    (regular : ∀ size ∈ more, 0 < size ∧ size < 2 ^ 28 * area.nWords) :
    Indexed area (allocBlocks area st (area.bottom + total id sizes) more) (sizes ++ more) := by
  induction more generalizing st sizes with
  | nil => exact (append_nil sizes).symm ▸ inv
  | cons size more ih =>
    have here := regular size mem_cons_self
    have step := inv.allocBlock here.1 here.2
    have grown : area.bottom + total id sizes + size = area.bottom + total id (sizes ++ [size]) := by
      rw [total_append, add_assoc]
      rfl
    rw [append_cons, ContigOffsets.allocBlocks]
    rw [grown] at step ⊢
    exact ih step fun size' mem => regular size' (mem_cons_of_mem size mem)

/-- The lookup finds the block of every address below the top. -/
theorem Indexed.blockStartUnsafe {addr : Nat} (positive : ∀ size ∈ sizes, 0 < size)
    (low : area.bottom ≤ addr) (high : addr < area.bottom + total id sizes) :
    ∃ start size, At id area.bottom sizes start size ∧ start ≤ addr ∧ addr < start + size ∧
      blockStartUnsafe area st sizes addr = some start := by
  have above := inv.above
  have bottomLe : area.bottomIndex ≤ area.indexFor addr :=
    (Nat.le_div_iff_mul_le area.positive).mpr low
  obtain ⟨first, rest, found, layout, firstLe⟩ :=
    inv.found (min (area.indexFor addr) (st.nextOffsetIndex - 1)) (by omega) (by omega)
  have reached : first ≤ addr := by
    have cardLe : area.addressForIndex (min (area.indexFor addr) (st.nextOffsetIndex - 1)) ≤
        area.addressForIndex (area.indexFor addr) :=
      Nat.mul_le_mul_right _ (min_le_left _ _)
    have inCard : area.addressForIndex (area.indexFor addr) ≤ addr := Nat.div_mul_le_self _ _
    omega
  rw [← layout.total_eq] at high
  obtain ⟨start, size, later, block, startLe, lt⟩ := exists_from reached high
  refine ⟨start, size, ⟨later, layout.trans block⟩, startLe, lt, ?_⟩
  cases rest with
  | nil => exact absurd high (not_lt_of_ge reached)
  | cons b rest =>
    have blocks : blocksFrom id area.bottom sizes first = b :: rest := blocksFrom_eq positive layout
    simp only [ContigOffsets.blockStartUnsafe, found, bind_eq_bind, bind_some, blocks]
    exact congrArg some (lastStart_eq block startLe lt)

end

/-- For all blocks allocated side by side from the bottom of the space, each shorter than `2 ^ 28`
cards, and every address below the top, the lookup ends within the space and returns the start of
the block of the address. Apart from the entry of the first card the table may hold anything. -/
theorem block_start_found (area : Area) (table : Table) (zero : table area.bottomIndex = 0)
    (sizes : List Nat) (regular : ∀ size ∈ sizes, 0 < size ∧ size < 2 ^ 28 * area.nWords)
    (addr : Nat) (low : area.bottom ≤ addr) (high : addr < area.bottom + total id sizes) :
    ∃ start size, At id area.bottom sizes start size ∧ start ≤ addr ∧ addr < start + size ∧
      blockStartUnsafe area (allocBlocks area (initializeThreshold area table) area.bottom sizes)
        sizes addr = some start := by
  have inv := (initializeThreshold_indexed zero).allocBlocks regular
  exact inv.blockStartUnsafe (fun size mem => (regular size mem).1) low high

/-- Cards of four words from the word 8 on. -/
def smallArea : Area := ⟨4, by decide, 2⟩

/-- Blocks of 3, 90 and 5 words: the address 97 is found through a skip over sixteen cards. -/
theorem block_start_found_far :
    blockStartUnsafe smallArea (allocBlocks smallArea (initializeThreshold smallArea fun _ => 0)
      smallArea.bottom [3, 90, 5]) [3, 90, 5] 97 = some 11 := by
  obtain ⟨start, size, found, le, lt, same⟩ := block_start_found smallArea (fun _ => 0) rfl
    [3, 90, 5] (by decide) 97 (by decide) (by decide)
  have second : At id smallArea.bottom [3, 90, 5] 11 90 := ⟨[5], From.later (From.here _ _)⟩
  obtain ⟨rfl, -⟩ := found.unique second le lt (by decide) (by decide)
  exact same

end ContigOffsets
