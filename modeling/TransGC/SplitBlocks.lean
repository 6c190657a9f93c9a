import TransGC.BlockOffsets

/-!
# Splitting a block in the offset table

`split_block` is told that a block has become two and changes the entries of the second part
only, as few of them as it can: the first cards behind the new start, as many as the first part
has, and then the last ones in front of each power of sixteen.
-/

namespace SplitBlocks

open BlockOffsets Function

variable (nWords : Nat)

/-- The first card that starts at or behind an address. -/
def firstIndex (addr : Nat) : Nat :=
  let index := addr / nWords
  if index * nWords ≠ addr then index + 1 else index

/-- What `check_all_cards` guarantees of one card behind the first one. -/
structure CardChecked (table : Table) (startCard c : Nat) : Prop where
  logarithmic : c - startCard > powerToCardsBack 1 → nWords < table c
  skips : nWords ≤ table c
  lands : startCard - 1 + entryToCardsBack nWords (table c) ≤ c
  monotone : startCard ≤ c - entryToCardsBack nWords (table c) →
    table (c - entryToCardsBack nWords (table c)) ≤ table c
  offset : c - entryToCardsBack nWords (table c) < startCard →
    table (c - entryToCardsBack nWords (table c)) ≤ nWords

/-- `check_all_cards` on a closed interval of cards. -/
def CheckAllCards (table : Table) (startCard endCard : Nat) : Prop :=
  startCard ≤ endCard → table startCard = nWords ∧
    ∀ c, startCard < c → c ≤ endCard → CardChecked nWords table startCard c

/-- `do_block_internal` with `Action_check`: the block is represented as a single one. -/
def VerifySingleBlock (table : Table) (blkStart blkEnd : Nat) : Prop :=
  let boundaryBeforeEnd := (blkEnd - 1) / nWords * nWords
  blkStart ≤ boundaryBeforeEnd →
    let startIndex := firstIndex nWords blkStart
    let endIndex := (blkEnd - 1) / nWords
    table startIndex = startIndex * nWords - blkStart ∧
      CheckAllCards nWords table (startIndex + 1) endIndex

/-- The loop that looks for the first power above the number of cards of the first part and fills
the cards in front of it: the table, whether there is more to do, and the next power. -/
def fillFirst (suffIndex endIndex numPrefCards : Nat) : Nat → Nat → Table → Table × Bool × Nat
  | 0, i, table => (table, true, i)
  | fuel + 1, i, table =>
    let backBy := powerToCardsBack i
    let rightIndex := suffIndex + backBy - 1
    let leftIndex := rightIndex - numPrefCards + 1
    let more := !decide (rightIndex ≥ endIndex - 1)
    let rightIndex := if rightIndex ≥ endIndex - 1 then endIndex - 1 else rightIndex
    if backBy > numPrefCards then
      if leftIndex ≤ rightIndex then
        (setOffsetRange table leftIndex rightIndex (nWords + i - 1), more, i + 1)
      else (table, false, i + 1)
    else if more then fillFirst suffIndex endIndex numPrefCards fuel (i + 1) table
    else (table, more, i + 1)

/-- The loop over the powers that are left. -/
def fillRest (suffIndex endIndex numPrefCards : Nat) : Nat → Nat → Table → Table
  | 0, _, table => table
  | fuel + 1, i, table =>
    let backBy := powerToCardsBack i
    let rightIndex := suffIndex + backBy - 1
    let leftIndex := rightIndex - numPrefCards + 1
    if rightIndex ≥ endIndex - 1 then
      let rightIndex := endIndex - 1
      if leftIndex > rightIndex then table
      else setOffsetRange table leftIndex rightIndex (nWords + i - 1)
    else fillRest suffIndex endIndex numPrefCards fuel (i + 1)
      (setOffsetRange table leftIndex rightIndex (nWords + i - 1))

/-- Both loops, from the first power on. -/
def fillPowers (table : Table) (suffIndex endIndex numPrefCards : Nat) : Table :=
  let (table, more, i) := fillFirst nWords suffIndex endIndex numPrefCards (nPowers - 1) 1 table
  if more then fillRest nWords suffIndex endIndex numPrefCards (nPowers - i) i table else table

/-- `do_block_internal` with `Action_single`. -/
def singleBlock (table : Table) (blkStart blkEnd : Nat) : Table :=
  let boundaryBeforeEnd := (blkEnd - 1) / nWords * nWords
  if blkStart ≤ boundaryBeforeEnd then
    let startIndex := firstIndex nWords blkStart
    let endIndex := (blkEnd - 1) / nWords
    let boundary := startIndex * nWords
    let table := update table startIndex (boundary - blkStart)
    if startIndex < endIndex then
      setRemainderToPointToStart nWords table (startIndex * nWords + nWords)
        (endIndex * nWords + nWords)
    else table
  else table

def splitBlock (table : Table) (blk blkSize leftBlkSize : Nat) : Table :=
  let suffAddr := blk + leftBlkSize
  let endAddr := blk + blkSize
  let prefIndex := firstIndex nWords blk
  let suffIndex := firstIndex nWords suffAddr
  let endIndex := (endAddr - 1) / nWords + 1
  let numPrefCards := suffIndex - prefIndex
  let numSuffCards := endIndex - suffIndex
  if numSuffCards > 0 then
    let boundary := suffIndex * nWords
    let table := update table suffIndex (boundary - suffAddr)
    if numPrefCards > 0 then
      if numPrefCards ≥ numSuffCards then
        setRemainderToPointToStartIncl nWords table (suffIndex + 1) (endIndex - 1)
      else
        let table := setRemainderToPointToStartIncl nWords table (suffIndex + 1)
          (suffIndex + numPrefCards - 1)
        fillPowers nWords table suffIndex endIndex numPrefCards
    else table
  else table

/-- The card `d` cards behind the new start can no longer skip back as far as it could. -/
def Shortened (count d : Nat) : Prop := 16 ^ (Nat.log 16 d + 1) ≤ d + count

instance (count d : Nat) : Decidable (Shortened count d) := inferInstanceAs (Decidable (_ ≤ _))

variable {nWords}

/-- The first part has `count` cards, with `k` the largest power of sixteen not above, and fewer
cards than the second part, which ends with the card `last`. -/
structure Filling (suff last count k : Nat) : Prop where
  low : 16 ^ k ≤ count
  high : count < 16 ^ (k + 1)
  long : suff + count ≤ last
  short : last < suff + 16 ^ 7

section Filling

variable {suff last count k i fuel : Nat} {table : Table}

theorem Filling.power_lt (filling : Filling suff last count k) : k < 7 := by
  have low := filling.low
  have long := filling.long
  have short := filling.short
  exact (Nat.pow_lt_pow_iff_right (by decide)).mp (by omega : 16 ^ k < 16 ^ 7)

theorem power_le (short : last < suff + 16 ^ 7) (left : suff + 16 ^ i ≤ last) : i < 7 :=
  (Nat.pow_lt_pow_iff_right (by decide)).mp (by omega : 16 ^ i < 16 ^ 7)

/-- The window in front of the `i + 1`-th power consists of the cards whose power is `i`. -/
theorem shortened_iff {d : Nat} (positive : 0 < d) (small : count ≤ 15 * 16 ^ i) :
    (16 ^ (i + 1) - count ≤ d ∧ d < 16 ^ (i + 1)) ↔ Nat.log 16 d = i ∧ Shortened count d := by
  have growth : 16 ^ (i + 1) = 16 * 16 ^ i := Nat.pow_succ'
  constructor
  · rintro ⟨low, high⟩
    have log : Nat.log 16 d = i := log_eq (by omega) high
    refine ⟨log, ?_⟩
    rw [Shortened, log]
    omega
  · rintro ⟨rfl, shortened⟩
    rw [Shortened] at shortened
    exact ⟨by omega, lt_pow_log d⟩

theorem window_eq (small : count ≤ 15 * 16 ^ i) (table : Table) (right : Nat)
    (rightEq : right = min (suff + 16 ^ (i + 1) - 1) last) (c : Nat) :
    setOffsetRange table (suff + 16 ^ (i + 1) - count) right (nWords + i) c =
      if suff < c ∧ c ≤ last ∧ Nat.log 16 (c - suff) = i ∧ Shortened count (c - suff) then
        nWords + Nat.log 16 (c - suff) else table c := by
  have positive : 0 < 16 ^ i := Nat.pow_pos (by decide)
  by_cases here : suff < c ∧ c ≤ last ∧ Nat.log 16 (c - suff) = i ∧ Shortened count (c - suff)
  · have bounds := (shortened_iff (by omega) small).mpr here.2.2
    rw [if_pos here, setOffsetRange_of_mem (by omega), here.2.2.1]
  · rw [if_neg here]
    refine setOffsetRange_of_not_mem fun inside => here ?_
    refine ⟨by omega, by omega, ?_⟩
    exact (shortened_iff (by omega) small).mp (by omega)

theorem window_merge (c power entry : Nat) :
    (if suff < c ∧ c ≤ last ∧ i + 1 ≤ Nat.log 16 (c - suff) ∧ Shortened count (c - suff) then power
      else if suff < c ∧ c ≤ last ∧ Nat.log 16 (c - suff) = i ∧ Shortened count (c - suff) then
        power else entry) =
      if suff < c ∧ c ≤ last ∧ i ≤ Nat.log 16 (c - suff) ∧ Shortened count (c - suff) then power
      else entry := by
  by_cases due : suff < c ∧ c ≤ last ∧ Shortened count (c - suff)
  · by_cases here : Nat.log 16 (c - suff) = i
    · rw [if_neg (by omega), if_pos ⟨due.1, due.2.1, here, due.2.2⟩,
        if_pos ⟨due.1, due.2.1, by omega, due.2.2⟩]
    · have same : i + 1 ≤ Nat.log 16 (c - suff) ↔ i ≤ Nat.log 16 (c - suff) := by omega
      simp only [same, here, false_and, and_false, if_false]
  · rw [if_neg fun held => due ⟨held.1, held.2.1, held.2.2.2⟩,
      if_neg fun held => due ⟨held.1, held.2.1, held.2.2.2⟩,
      if_neg fun held => due ⟨held.1, held.2.1, held.2.2.2⟩]

/-- The second loop gives each card in front of a later power its new power. -/
theorem fillRest_eq (short : last < suff + 16 ^ 7) (small : count ≤ 15 * 16 ^ i)
    (left : suff + 16 ^ i ≤ last) (enough : 7 ≤ i + fuel) (table : Table) (c : Nat) :
    fillRest nWords suff (last + 1) count fuel (i + 1) table c =
      if suff < c ∧ c ≤ last ∧ i ≤ Nat.log 16 (c - suff) ∧ Shortened count (c - suff) then
        nWords + Nat.log 16 (c - suff) else table c := by
  have power := power_le short left
  induction fuel generalizing i table with
  | zero => omega
  | succ fuel ih =>
    have positive : 0 < 16 ^ i := Nat.pow_pos (by decide)
    have leftEq : suff + 16 ^ (i + 1) - 1 - count + 1 = suff + 16 ^ (i + 1) - count := by omega
    have entryEq : nWords + (i + 1) - 1 = nWords + i := rfl
    simp only [fillRest, powerToCardsBack_eq (show i + 1 ≤ 7 by omega), leftEq, entryEq,
      Nat.add_sub_cancel]
    split
    next stop =>
      have clipped : (if suff + 16 ^ (i + 1) - count > last then table else
          setOffsetRange table (suff + 16 ^ (i + 1) - count) last (nWords + i)) c =
            setOffsetRange table (suff + 16 ^ (i + 1) - count) last (nWords + i) c := by
        split
        · exact (setOffsetRange_of_not_mem (by omega)).symm
        · rfl
      have clip : last = min (suff + 16 ^ (i + 1) - 1) last := by omega
      rw [clipped, window_eq small table last clip]
      refine if_congr (and_congr_right fun behind => and_congr_right fun le =>
        and_congr_left fun _ => ?_) rfl rfl
      -- no card of the second part has a larger power
      have below : Nat.log 16 (c - suff) < i + 1 := Nat.log_lt_of_lt_pow (by omega) (by omega)
      exact ⟨fun same => le_of_eq same.symm, fun atLeast => by omega⟩
    next more =>
      have power' : i + 1 < 7 := power_le short (by omega)
      have clip : suff + 16 ^ (i + 1) - 1 = min (suff + 16 ^ (i + 1) - 1) last := by omega
      rw [ih (by omega) (by omega) (by omega) _ power', window_eq small table _ clip]
      exact window_merge _ _ _

/-- The first loop passes over the powers up to the number of cards of the first part. -/
theorem Filling.fillFirst_skip (filling : Filling suff last count k) (fuel : Nat) {m : Nat}
    (le : m ≤ k) (table : Table) :
    fillFirst nWords suff (last + 1) count (fuel + m) (k + 1 - m) table =
      fillFirst nWords suff (last + 1) count fuel (k + 1) table := by
  induction m with
  | zero => rfl
  | succ m ih =>
    have low := filling.low
    have long := filling.long
    have power := filling.power_lt
    have mono : 16 ^ (k + 1 - (m + 1)) ≤ 16 ^ k := Nat.pow_le_pow_right (by decide) (by omega)
    have positive : 0 < 16 ^ (k + 1 - (m + 1)) := Nat.pow_pos (by decide)
    have next : k + 1 - (m + 1) + 1 = k + 1 - m := by omega
    have before : ¬ suff + 16 ^ (k + 1 - (m + 1)) - 1 ≥ last + 1 - 1 := by omega
    rw [← add_assoc, fillFirst, powerToCardsBack_eq (by omega)]
    simp only [before, decide_false, Bool.not_false, if_true, next]
    rw [if_neg (by omega)]
    exact ih (by omega)

/-- The window of the first power is filled with one entry, whatever the cards in it need. -/
theorem Filling.fillPowers_eq (filling : Filling suff last count k) (table : Table) (c : Nat) :
    fillPowers nWords table suff (last + 1) count c =
      if suff < c ∧ c ≤ last ∧ k + 1 ≤ Nat.log 16 (c - suff) ∧ Shortened count (c - suff) then
        nWords + Nat.log 16 (c - suff)
      else setOffsetRange table (suff + 16 ^ (k + 1) - count)
        (min (suff + 16 ^ (k + 1) - 1) last) (nWords + k) c := by
  have low := filling.low
  have high := filling.high
  have short := filling.short
  have power := filling.power_lt
  have positive : 0 < 16 ^ k := Nat.pow_pos (by decide)
  have skip : fillFirst nWords suff (last + 1) count (nPowers - 1) 1 table =
      fillFirst nWords suff (last + 1) count (12 - k + 1) (k + 1) table := by
    have fuelEq : nPowers - 1 = 12 - k + 1 + k := by
      simp only [nPowers]
      omega
    rw [← filling.fillFirst_skip (12 - k + 1) (le_refl k), ← fuelEq, Nat.add_sub_cancel_left]
  have leftEq : suff + 16 ^ (k + 1) - 1 - count + 1 = suff + 16 ^ (k + 1) - count := by omega
  have rightEq : (if suff + 16 ^ (k + 1) - 1 ≥ last then last else suff + 16 ^ (k + 1) - 1) =
      min (suff + 16 ^ (k + 1) - 1) last := by
    split <;> omega
  rw [fillPowers, skip, fillFirst, powerToCardsBack_eq (by omega)]
  simp only [leftEq, Nat.add_sub_cancel, rightEq, if_pos high.gt]
  by_cases more : suff + 16 ^ (k + 1) ≤ last
  · have window : suff + 16 ^ (k + 1) - count ≤ min (suff + 16 ^ (k + 1) - 1) last := by omega
    have goesOn : ¬ suff + 16 ^ (k + 1) - 1 ≥ last := by omega
    simp only [if_pos window, goesOn, decide_false, Bool.not_false, if_true]
    exact fillRest_eq short (by omega) more (by simp only [nPowers]; omega) _ c
  · -- the second part ends in the first window
    have done : suff + 16 ^ (k + 1) - 1 ≥ last := by omega
    have beyond : ¬ (suff < c ∧ c ≤ last ∧ k + 1 ≤ Nat.log 16 (c - suff) ∧
        Shortened count (c - suff)) := by
      rintro ⟨behind, le, large, -⟩
      have := Nat.log_lt_of_lt_pow (by omega) (by omega : c - suff < 16 ^ (k + 1))
      omega
    split
    next window => simp [done]
    next noWindow =>
      exact (setOffsetRange_of_not_mem (by omega)).symm

/-- If the first window has only cards of its power, every card gets the power that it needs. -/
theorem Filling.fillPowers_good (filling : Filling suff last count k)
    (good : count ≤ 15 * 16 ^ k) (table : Table) (c : Nat) :
    fillPowers nWords table suff (last + 1) count c =
      if suff < c ∧ c ≤ last ∧ k ≤ Nat.log 16 (c - suff) ∧ Shortened count (c - suff) then
        nWords + Nat.log 16 (c - suff) else table c := by
  rw [filling.fillPowers_eq, window_eq good table _ rfl]
  exact window_merge _ _ _

theorem Filling.fillPowers_outside (filling : Filling suff last count k) {c : Nat}
    (outside : c ≤ suff ∨ last < c) (table : Table) :
    fillPowers nWords table suff (last + 1) count c = table c := by
  have high := filling.high
  rw [filling.fillPowers_eq, if_neg (by omega)]
  exact setOffsetRange_of_not_mem (by omega)

/-- Otherwise the first card of the window gets a power that leads out of the second part. -/
theorem Filling.fillPowers_bad (filling : Filling suff last count k)
    (bad : 15 * 16 ^ k < count) (table : Table) :
    fillPowers nWords table suff (last + 1) count (suff + 16 ^ (k + 1) - count) = nWords + k := by
  have high := filling.high
  have long := filling.long
  have below : Nat.log 16 (suff + 16 ^ (k + 1) - count - suff) < k + 1 :=
    Nat.log_lt_of_lt_pow' (by omega) (by omega)
  rw [filling.fillPowers_eq, if_neg (by omega)]
  exact setOffsetRange_of_mem (by omega)

end Filling

section Split

variable {table : Table} {blk blkSize leftBlkSize : Nat}

theorem firstIndex_bounds (positive : 0 < nWords) (a : Nat) :
    a ≤ firstIndex nWords a * nWords ∧ firstIndex nWords a * nWords < a + nWords := by
  have le := Nat.div_mul_le_self a nWords
  have lt : a < (a / nWords + 1) * nWords :=
    (Nat.div_lt_iff_lt_mul positive).mp (Nat.lt_succ_self _)
  rw [Nat.succ_mul] at lt
  simp only [firstIndex]
  split
  · rw [Nat.succ_mul]
    omega
  · omega

/-- A block starts a card exactly if the first card behind its start is not behind its end. -/
theorem firstIndex_le_iff (positive : 0 < nWords) (a index : Nat) :
    firstIndex nWords a ≤ index ↔ a ≤ index * nWords := by
  have bounds := firstIndex_bounds positive a
  constructor
  · intro le
    exact le_trans bounds.1 (Nat.mul_le_mul_right _ le)
  · intro le
    have lt : firstIndex nWords a * nWords < (index + 1) * nWords := by
      rw [Nat.succ_mul]
      omega
    exact Nat.le_of_lt_succ (Nat.lt_of_mul_lt_mul_right lt)

theorem firstIndex_mono (positive : 0 < nWords) {a b : Nat} (le : a ≤ b) :
    firstIndex nWords a ≤ firstIndex nWords b :=
  (firstIndex_le_iff positive a _).mpr (le_trans le (firstIndex_bounds positive b).1)

/-- The cards that a block starts end where the cards of the next block begin. -/
theorem last_card (positive : 0 < nWords) {a : Nat} (some : 0 < a) :
    (a - 1) / nWords + 1 = firstIndex nWords a := by
  have bounds := firstIndex_bounds positive a
  obtain ⟨index, indexEq⟩ : ∃ index, firstIndex nWords a = index + 1 := by
    refine Nat.exists_eq_add_one_of_ne_zero ?_
    intro zero
    rw [zero] at bounds
    omega
  rw [indexEq, Nat.succ_mul] at bounds
  rw [indexEq]
  refine congrArg (· + 1) (Nat.div_eq_of_lt_le (by omega) ?_)
  rw [Nat.succ_mul]
  omega

/-- The window of the first power above the first part reaches below the power before. -/
def Overfills (numPrefCards numSuffCards : Nat) : Prop :=
  numPrefCards < numSuffCards ∧ 15 * 16 ^ Nat.log 16 numPrefCards < numPrefCards

instance (count rest : Nat) : Decidable (Overfills count rest) :=
  inferInstanceAs (Decidable (_ ∧ _))

/-- It is among the first cards of the second part, or its power has become too large. -/
def Rewritten (count d : Nat) : Prop := d < count ∨ Shortened count d

instance (count d : Nat) : Decidable (Rewritten count d) := inferInstanceAs (Decidable (_ ∨ _))

/-- The cards of a split: the first ones of both parts and the last one. -/
structure Cards (nWords blk blkSize leftBlkSize pref suff last : Nat) : Prop where
  pref_eq : firstIndex nWords blk = pref
  suff_eq : firstIndex nWords (blk + leftBlkSize) = suff
  last_eq : (blk + blkSize - 1) / nWords = last
  order : pref ≤ suff
  suff_le : suff ≤ last + 1
  short : last < suff + 16 ^ 7

variable {pref suff last : Nat}

section

variable (cards : Cards nWords blk blkSize leftBlkSize pref suff last)
include cards

theorem Cards.filling (some : 0 < suff - pref) (fewer : suff - pref < last + 1 - suff) :
    Filling suff last (suff - pref) (Nat.log 16 (suff - pref)) :=
  ⟨pow_log_le some, lt_pow_log _, by omega, cards.short⟩

omit cards in
theorem shortened_zero {d : Nat} : ¬ Shortened 0 d := by
  have := lt_pow_log d
  rw [Shortened]
  omega

theorem Cards.splitBlock_good (some : suff ≤ last)
    (good : ¬ Overfills (suff - pref) (last + 1 - suff)) (c : Nat) :
    splitBlock nWords table blk blkSize leftBlkSize c =
      if suff < c ∧ c ≤ last ∧ Rewritten (suff - pref) (c - suff) then
        nWords + Nat.log 16 (c - suff)
      else if c = suff then suff * nWords - (blk + leftBlkSize) else table c := by
  have short := cards.short
  simp only [splitBlock, cards.pref_eq, cards.suff_eq, cards.last_eq, Nat.add_sub_cancel]
  rw [if_pos (by omega)]
  split
  next somePref =>
    split
    next atLeast =>
      -- all cards of the second part are written
      rw [setRemainderToPointToStartIncl_eq short, update_apply]
      refine if_congr ?_ rfl rfl
      refine and_congr_right fun _ => ⟨fun le => ⟨le, Or.inl (by omega)⟩, fun held => held.1⟩
    next fewer =>
      have filling := cards.filling somePref (lt_of_not_ge fewer)
      have fits : suff - pref ≤ 15 * 16 ^ Nat.log 16 (suff - pref) :=
        le_of_not_gt fun large => good ⟨lt_of_not_ge fewer, large⟩
      rw [filling.fillPowers_good fits, setRemainderToPointToStartIncl_eq (by omega), update_apply]
      by_cases rewritten : suff < c ∧ c ≤ last ∧ Rewritten (suff - pref) (c - suff)
      · rw [if_pos rewritten]
        by_cases early : c - suff < suff - pref
        · rw [if_pos (by omega : suff < c ∧ c ≤ suff + (suff - pref) - 1), ite_self]
        · -- a card with a smaller power would be among the first ones
          have shortened := rewritten.2.2.resolve_left early
          have power : Nat.log 16 (suff - pref) ≤ Nat.log 16 (c - suff) :=
            Nat.log_mono_right (le_of_not_gt early)
          rw [if_pos ⟨rewritten.1, rewritten.2.1, power, shortened⟩]
      · rw [if_neg rewritten, if_neg, if_neg]
        · exact fun held => rewritten ⟨held.1, by omega, Or.inl (by omega)⟩
        · exact fun held => rewritten ⟨held.1, held.2.1, Or.inr held.2.2.2⟩
  next none =>
    have zero : suff - pref = 0 := Nat.eq_zero_of_not_pos none
    have untouched : ¬ (suff < c ∧ c ≤ last ∧ Rewritten (suff - pref) (c - suff)) := by
      rw [zero]
      rintro ⟨-, -, impossible | shortened⟩
      · exact Nat.not_lt_zero _ impossible
      · exact shortened_zero shortened
    rw [if_neg untouched, update_apply]

/-- No split changes an entry in front of or behind the cards of the second part. -/
theorem Cards.splitBlock_outside {c : Nat} (outside : c < suff ∨ last < c) :
    splitBlock nWords table blk blkSize leftBlkSize c = table c := by
  have short := cards.short
  have order := cards.order
  simp only [splitBlock, cards.pref_eq, cards.suff_eq, cards.last_eq, Nat.add_sub_cancel]
  by_cases some : suff ≤ last
  · have kept (offset : Nat) : update table suff offset c = table c :=
      update_of_ne (by omega) _ _
    rw [if_pos (by omega)]
    split
    next somePref =>
      split
      · rw [setRemainderToPointToStartIncl_eq short, if_neg (by omega), kept]
      next fewer =>
        have filling := cards.filling somePref (lt_of_not_ge fewer)
        rw [filling.fillPowers_outside (by omega), setRemainderToPointToStartIncl_eq (by omega),
          if_neg (by omega), kept]
    next => exact kept _
  · rw [if_neg (by omega)]

theorem Cards.splitBlock_bad (bad : Overfills (suff - pref) (last + 1 - suff)) :
    splitBlock nWords table blk blkSize leftBlkSize
      (suff + 16 ^ (Nat.log 16 (suff - pref) + 1) - (suff - pref)) =
        nWords + Nat.log 16 (suff - pref) := by
  obtain ⟨fewer, large⟩ := bad
  have filling := cards.filling (by omega) fewer
  simp only [splitBlock, cards.pref_eq, cards.suff_eq, cards.last_eq, Nat.add_sub_cancel]
  rw [if_pos (by omega), if_pos (by omega), if_neg (not_le_of_gt fewer)]
  exact filling.fillPowers_bad large _

end

/-- The card `d` cards behind `card` skips back to a card of the block with no larger entry. -/
structure Linked (nWords : Nat) (table : Table) (card d : Nat) : Prop where
  skips : nWords ≤ table (card + d)
  defined : table (card + d) ≤ nWords + 7
  lands : 16 ^ (table (card + d) - nWords) ≤ d
  logarithmic : 17 < d → nWords < table (card + d)
  monotone : 16 ^ (table (card + d) - nWords) < d →
    table (card + (d - 16 ^ (table (card + d) - nWords))) ≤ table (card + d)

structure Chained (nWords : Nat) (table : Table) (card count : Nat) : Prop where
  offset : table card ≤ nWords
  linked : ∀ d, 0 < d → d ≤ count → Linked nWords table card d

theorem cardsBack_eq {entry : Nat} (defined : entry ≤ nWords + 7) :
    entryToCardsBack nWords entry = 16 ^ (entry - nWords) :=
  powerToCardsBack_eq (by omega)

theorem checkAllCards_of_chained {card count : Nat} (chained : Chained nWords table card count) :
    CheckAllCards nWords table (card + 1) (card + count) := by
  intro some
  have second : table (card + 1) = nWords := by
    have linked := chained.linked 1 (by decide) (by omega)
    have skips := linked.skips
    have lands := linked.lands
    have zero : table (card + 1) - nWords = 0 := by
      by_contra positive
      have := Nat.pow_le_pow_right (show 16 > 0 by decide) (Nat.one_le_iff_ne_zero.mpr positive)
      omega
    omega
  refine ⟨second, ?_⟩
  intro c behind le
  obtain ⟨d, rfl⟩ := Nat.exists_eq_add_of_le (le_of_lt (Nat.lt_of_succ_lt behind))
  obtain ⟨skips, defined, lands, logarithmic, monotone⟩ := chained.linked d (by omega) (by omega)
  have back := cardsBack_eq defined
  constructor
  · intro far
    have sixteen : powerToCardsBack 1 = 16 := rfl
    exact logarithmic (by omega)
  · exact skips
  · rw [back]
    omega
  · rw [back, Nat.add_sub_assoc lands]
    intro inside
    exact monotone (by omega)
  · rw [back]
    intro before
    have landing : card + d - 16 ^ (table (card + d) - nWords) = card := by omega
    rw [landing]
    exact chained.offset

theorem chained_of_checkAllCards {card count : Nat} (offset : table card ≤ nWords)
    (defined : ∀ d, 0 < d → d ≤ count → table (card + d) ≤ nWords + 7)
    (checked : CheckAllCards nWords table (card + 1) (card + count)) :
    Chained nWords table card count := by
  refine ⟨offset, fun d some le => ?_⟩
  obtain ⟨second, behind⟩ := checked (by omega)
  have small := defined d some le
  rcases eq_or_lt_of_le (Nat.succ_le_of_lt some) with rfl | far
  · refine ⟨le_of_eq second.symm, small, ?_, by omega, ?_⟩ <;> rw [second, Nat.sub_self]
    · exact le_refl _
    · exact fun shorter => absurd shorter (by decide)
  · obtain ⟨logarithmic, skips, lands, monotone, -⟩ := behind (card + d) (by omega) (by omega)
    have sixteen : powerToCardsBack 1 = 16 := rfl
    rw [cardsBack_eq small] at lands monotone
    have fits : 16 ^ (table (card + d) - nWords) ≤ d := by omega
    rw [Nat.add_sub_assoc fits] at monotone
    exact ⟨skips, small, fits, fun _ => logarithmic (by omega), fun _ => monotone (by omega)⟩

/-- No card whose entry is kept skips back to a card that gets a larger entry. Where the entries are
as `single_block` writes them this is so. -/
def Consistent (nWords : Nat) (table : Table) (pref suff last : Nat) : Prop :=
  ∀ d, 0 < d → suff + d ≤ last → ¬ Rewritten (suff - pref) d →
    Rewritten (suff - pref) (d - 16 ^ (table (suff + d) - nWords)) →
      Nat.log 16 (d - 16 ^ (table (suff + d) - nWords)) ≤ table (suff + d) - nWords

/-- A card whose entry is kept skips back by a power that fits the new distance. -/
theorem power_of_kept {count d e : Nat} (kept : ¬ Rewritten count d) (lands : 16 ^ e ≤ d + count) :
    e ≤ Nat.log 16 d := by
  have fits : ¬ Shortened count d := fun shortened => kept (Or.inr shortened)
  rw [Shortened] at fits
  exact Nat.le_of_lt_succ ((Nat.pow_lt_pow_iff_right (by decide)).mp
    (by omega : 16 ^ e < 16 ^ (Nat.log 16 d + 1)))

section Chain

variable (cards : Cards nWords blk blkSize leftBlkSize pref suff last) (some : suff ≤ last)
  (good : ¬ Overfills (suff - pref) (last + 1 - suff))
include cards some good

theorem Cards.rewritten {d : Nat} (positive : 0 < d) (le : suff + d ≤ last)
    (rewritten : Rewritten (suff - pref) d) :
    splitBlock nWords table blk blkSize leftBlkSize (suff + d) = nWords + Nat.log 16 d := by
  rw [cards.splitBlock_good some good, Nat.add_sub_cancel_left, if_pos ⟨by omega, le, rewritten⟩]

theorem Cards.kept {d : Nat} (positive : 0 < d) (kept : ¬ Rewritten (suff - pref) d) :
    splitBlock nWords table blk blkSize leftBlkSize (suff + d) = table (suff + d) := by
  rw [cards.splitBlock_good some good, Nat.add_sub_cancel_left,
    if_neg fun held => kept held.2.2, if_neg (by omega)]

theorem Cards.offset_card :
    splitBlock nWords table blk blkSize leftBlkSize suff = suff * nWords - (blk + leftBlkSize) := by
  rw [cards.splitBlock_good some good, if_neg (by omega), if_pos rfl]

/-- The entry of every later card is at most the power of its distance. -/
theorem Cards.entry_le (chained : Chained nWords table pref (last - pref)) {d : Nat}
    (positive : 0 < d) (le : suff + d ≤ last) :
    splitBlock nWords table blk blkSize leftBlkSize (suff + d) ≤ nWords + Nat.log 16 d := by
  by_cases rewritten : Rewritten (suff - pref) d
  · exact le_of_eq (cards.rewritten some good positive le rewritten)
  · have order := cards.order
    have lands := (chained.linked (d + (suff - pref)) (by omega) (by omega)).lands
    have same : pref + (d + (suff - pref)) = suff + d := by omega
    rw [same] at lands
    have := power_of_kept rewritten lands
    rw [cards.kept some good positive rewritten]
    omega

theorem Cards.chained_suffix (positiveWords : 0 < nWords)
    (chained : Chained nWords table pref (last - pref))
    (consistent : Consistent nWords table pref suff last) :
    Chained nWords (splitBlock nWords table blk blkSize leftBlkSize) suff (last - suff) := by
  have order := cards.order
  have short := cards.short
  refine ⟨?_, fun d positive le => ?_⟩
  · rw [cards.offset_card some good, ← cards.suff_eq]
    have := firstIndex_bounds positiveWords (blk + leftBlkSize)
    omega
  have log : Nat.log 16 d < 7 := Nat.log_lt_of_lt_pow (by omega) (by omega)
  have power := pow_log_le positive
  by_cases rewritten : Rewritten (suff - pref) d
  · have entry : splitBlock nWords table blk blkSize leftBlkSize (suff + d) = _ :=
      cards.rewritten some good positive (by omega) rewritten
    constructor <;> simp only [entry, Nat.add_sub_cancel_left]
    · exact Nat.le_add_right _ _
    · omega
    · exact power
    · intro far
      have := Nat.log_pos (show 1 < 16 by decide) (show 16 ≤ d by omega)
      omega
    · intro shorter
      have back := Nat.sub_le d (16 ^ Nat.log 16 d)
      have landing := cards.entry_le some good chained
        (show 0 < d - 16 ^ Nat.log 16 d by omega) (by omega)
      have := Nat.log_mono_right (b := 16) back
      omega
  · obtain ⟨skips, defined, lands, logarithmic, monotone⟩ :=
      chained.linked (d + (suff - pref)) (by omega) (by omega)
    have oldCard : pref + (d + (suff - pref)) = suff + d := by omega
    rw [oldCard] at skips defined lands logarithmic monotone
    have small := power_of_kept rewritten lands
    have entry : splitBlock nWords table blk blkSize leftBlkSize (suff + d) = table (suff + d) :=
      cards.kept some good positive rewritten
    constructor <;> rw [entry]
    · exact skips
    · exact defined
    · exact le_trans (Nat.pow_le_pow_right (by decide) small) power
    · exact fun far => logarithmic (by omega)
    · intro shorter
      have back := Nat.sub_le d (16 ^ (table (suff + d) - nWords))
      by_cases landing : Rewritten (suff - pref) (d - 16 ^ (table (suff + d) - nWords))
      · rw [cards.rewritten some good (by omega) (by omega) landing]
        have := consistent d positive (by omega) rewritten landing
        omega
      · rw [cards.kept some good (by omega) landing]
        have same : pref + (d + (suff - pref) - 16 ^ (table (suff + d) - nWords)) =
            suff + (d - 16 ^ (table (suff + d) - nWords)) := by omega
        rw [same] at monotone
        exact monotone (by omega)

/-- A kept card that skips back to a rewritten one would break the order of the entries. -/
theorem Cards.consistent_of_checked (chained : Chained nWords table pref (last - pref))
    (checked : CheckAllCards nWords (splitBlock nWords table blk blkSize leftBlkSize)
      (suff + 1) last) :
    Consistent nWords table pref suff last := by
  intro d positive le kept landing
  have order := cards.order
  have defined := (chained.linked (d + (suff - pref)) (by omega) (by omega)).defined
  rw [show pref + (d + (suff - pref)) = suff + d by omega] at defined
  have keptEntry : splitBlock nWords table blk blkSize leftBlkSize (suff + d) =
      table (suff + d) := cards.kept some good positive kept
  have power : 0 < 16 ^ (table (suff + d) - nWords) := Nat.pow_pos (by decide)
  by_cases first : d ≤ 16 ^ (table (suff + d) - nWords)
  · rw [Nat.sub_eq_zero_of_le first, Nat.log_zero_right]
    exact Nat.zero_le _
  · have monotone := ((checked (by omega)).2 (suff + d) (by omega) le).monotone
    have same : suff + d - 16 ^ (table (suff + d) - nWords) =
        suff + (d - 16 ^ (table (suff + d) - nWords)) := by omega
    have back : d - 16 ^ (table (suff + d) - nWords) ≤ d := Nat.sub_le _ _
    rw [keptEntry, cardsBack_eq defined, same,
      cards.rewritten some good (by omega) (by omega) landing] at monotone
    have := monotone (by omega)
    omega

end Chain

/-- The window that reaches too far down leaves an entry that leads out of the second part. -/
theorem Cards.good_of_checked (cards : Cards nWords blk blkSize leftBlkSize pref suff last)
    (checked : CheckAllCards nWords (splitBlock nWords table blk blkSize leftBlkSize)
      (suff + 1) last) : ¬ Overfills (suff - pref) (last + 1 - suff) := by
  intro bad
  have entry : splitBlock nWords table blk blkSize leftBlkSize
      (suff + 16 ^ (Nat.log 16 (suff - pref) + 1) - (suff - pref)) =
        nWords + Nat.log 16 (suff - pref) := cards.splitBlock_bad bad
  obtain ⟨fewer, large⟩ := bad
  have high := lt_pow_log (suff - pref)
  have low := pow_log_le (show 0 < suff - pref by omega)
  have power := (cards.filling (by omega) fewer).power_lt
  generalize Nat.log 16 (suff - pref) = k at large entry high low power
  have growth : 16 ^ (k + 1) = 16 * 16 ^ k := Nat.pow_succ'
  generalize distance : 16 ^ (k + 1) - (suff - pref) = d
  have card : suff + 16 ^ (k + 1) - (suff - pref) = suff + d := by omega
  rw [card] at entry
  have whole := checked (by omega)
  rcases eq_or_lt_of_le (show 1 ≤ d by omega) with rfl | far
  · rw [whole.1] at entry
    obtain rfl : k = 0 := by omega
    omega
  · have lands := (whole.2 (suff + d) (by omega) (by omega)).lands
    rw [entry, cardsBack_eq (by omega), Nat.add_sub_cancel_left] at lands
    omega

/-- A single block, and every entry stands for a power that the machine's `int` can hold. -/
structure Represented (nWords : Nat) (table : Table) (blkStart blkEnd : Nat) : Prop where
  verified : VerifySingleBlock nWords table blkStart blkEnd
  defined : ∀ c, firstIndex nWords blkStart ≤ c → c ≤ (blkEnd - 1) / nWords →
    table c ≤ nWords + 7

variable {blkStart blkEnd : Nat}

theorem Represented.chained (positive : 0 < nWords)
    (represented : Represented nWords table blkStart blkEnd)
    (first : firstIndex nWords blkStart = pref) (end' : (blkEnd - 1) / nWords = last)
    (some : pref ≤ last) :
    table pref = pref * nWords - blkStart ∧ Chained nWords table pref (last - pref) := by
  have bounds := firstIndex_bounds positive blkStart
  have starts : blkStart ≤ last * nWords :=
    (firstIndex_le_iff positive blkStart last).mp (first.symm ▸ some)
  have verified := represented.verified (end'.symm ▸ starts)
  have defined := represented.defined
  simp only [first, end'] at verified defined bounds
  refine ⟨verified.1, chained_of_checkAllCards (by omega) ?_ ?_⟩
  · exact fun d _ le => defined (pref + d) (by omega) (by omega)
  · rw [Nat.add_sub_cancel' some]
    exact verified.2

theorem verified_of_chained (positive : 0 < nWords) (first : firstIndex nWords blkStart = pref)
    (end' : (blkEnd - 1) / nWords = last)
    (chained : pref ≤ last →
      table pref = pref * nWords - blkStart ∧ Chained nWords table pref (last - pref)) :
    VerifySingleBlock nWords table blkStart blkEnd := by
  intro starts
  have some : pref ≤ last := first ▸ (firstIndex_le_iff positive blkStart last).mpr (end' ▸ starts)
  obtain ⟨offset, cards⟩ := chained some
  simp only [first, end']
  refine ⟨offset, ?_⟩
  have checked := checkAllCards_of_chained cards
  rwa [Nat.add_sub_cancel' some] at checked

/-- The representation of the cards up to some card only depends on these cards. -/
theorem Chained.restrict {table' : Table} {card count count' : Nat}
    (chained : Chained nWords table card count) (le : count' ≤ count)
    (same : ∀ c ≤ card + count', table' c = table c) : Chained nWords table' card count' := by
  refine ⟨?_, fun d positive short => ?_⟩
  · rw [same card (by omega)]
    exact chained.offset
  · obtain ⟨skips, defined, lands, logarithmic, monotone⟩ :=
      chained.linked d positive (by omega)
    constructor <;> rw [same (card + d) (by omega)]
    · exact skips
    · exact defined
    · exact lands
    · exact logarithmic
    · have back := Nat.sub_le d (16 ^ (table (card + d) - nWords))
      rw [same _ (by omega)]
      exact monotone

/-- The numbers of cards that the two parts of a split start. -/
def numPrefCards (nWords blk leftBlkSize : Nat) : Nat :=
  firstIndex nWords (blk + leftBlkSize) - firstIndex nWords blk

def numSuffCards (nWords blk blkSize leftBlkSize : Nat) : Nat :=
  (blk + blkSize - 1) / nWords + 1 - firstIndex nWords (blk + leftBlkSize)

/-- The entries are as `single_block` writes them. -/
structure Written (nWords : Nat) (table : Table) (blkStart blkEnd : Nat) : Prop where
  offset : table (firstIndex nWords blkStart) = firstIndex nWords blkStart * nWords - blkStart
  powers : ∀ d, 0 < d → firstIndex nWords blkStart + d ≤ (blkEnd - 1) / nWords →
    table (firstIndex nWords blkStart + d) = nWords + Nat.log 16 d

theorem singleBlock_written (positive : 0 < nWords) (table : Table)
    (starts : blkStart ≤ (blkEnd - 1) / nWords * nWords)
    (short : (blkEnd - 1) / nWords < firstIndex nWords blkStart + 2 ^ 28) :
    Written nWords (singleBlock nWords table blkStart blkEnd) blkStart blkEnd := by
  have next : firstIndex nWords blkStart * nWords + nWords =
      (firstIndex nWords blkStart + 1) * nWords := (Nat.succ_mul _ _).symm
  simp only [singleBlock, if_pos starts, next]
  constructor
  · split
    next more =>
      rw [setRemainderToPointToStart_eq positive more (by omega), if_neg (by omega), update_self]
    next => exact update_self _ _ _
  · intro d some le
    rw [if_pos (by omega), setRemainderToPointToStart_eq positive (by omega) (by omega),
      if_pos (by omega), Nat.add_sub_cancel_left]

theorem Written.chained (positive : 0 < nWords) (written : Written nWords table blkStart blkEnd)
    (short : (blkEnd - 1) / nWords < firstIndex nWords blkStart + 2 ^ 28) :
    Chained nWords table (firstIndex nWords blkStart)
      ((blkEnd - 1) / nWords - firstIndex nWords blkStart) := by
  have bounds := firstIndex_bounds positive blkStart
  have offset := written.offset
  refine ⟨by omega, fun d some le => ?_⟩
  have log : Nat.log 16 d < 7 := Nat.log_lt_of_lt_pow (by omega) (by omega)
  constructor <;> rw [written.powers d some (by omega)]
  · exact Nat.le_add_right _ _
  · omega
  · rw [Nat.add_sub_cancel_left]
    exact pow_log_le some
  · intro far
    have := Nat.log_pos (show 1 < 16 by decide) (show 16 ≤ d by omega)
    omega
  · rw [Nat.add_sub_cancel_left]
    intro shorter
    have back := Nat.sub_le d (16 ^ Nat.log 16 d)
    rw [written.powers _ (by omega) (by omega)]
    exact Nat.add_le_add_left (Nat.log_mono_right back) nWords

/-- What `single_block` writes is a representation as a single block. -/
theorem Written.represented (positive : 0 < nWords)
    (written : Written nWords table blkStart blkEnd)
    (short : (blkEnd - 1) / nWords < firstIndex nWords blkStart + 2 ^ 28) :
    Represented nWords table blkStart blkEnd := by
  have chained := written.chained positive short
  refine ⟨verified_of_chained positive rfl rfl fun _ => ⟨written.offset, chained⟩, ?_⟩
  intro c low high
  obtain ⟨d, rfl⟩ := Nat.exists_eq_add_of_le low
  rcases Nat.eq_zero_or_pos d with rfl | some
  · have := chained.offset
    rw [add_zero]
    omega
  · exact (chained.linked d some (by omega)).defined

theorem Written.consistent (positive : 0 < nWords)
    (written : Written nWords table blk (blk + blkSize)) :
    Consistent nWords table (firstIndex nWords blk) (firstIndex nWords (blk + leftBlkSize))
      ((blk + blkSize - 1) / nWords) := by
  have order := firstIndex_mono positive (show blk ≤ blk + leftBlkSize by omega)
  intro d some le _ _
  have entry := written.powers (d + numPrefCards nWords blk leftBlkSize) (by omega)
    (by rw [numPrefCards]; omega)
  have same : firstIndex nWords blk + (d + numPrefCards nWords blk leftBlkSize) =
      firstIndex nWords (blk + leftBlkSize) + d := by
    rw [numPrefCards]
    omega
  rw [same] at entry
  rw [entry, Nat.add_sub_cancel_left]
  refine Nat.log_mono_right (le_trans (Nat.sub_le _ _) (Nat.le_add_right _ _))

theorem cards_of_split (positive : 0 < nWords) (someLeft : 0 < leftBlkSize)
    (someRight : leftBlkSize < blkSize)
    (short : (blk + blkSize - 1) / nWords < firstIndex nWords blk + 2 ^ 28) :
    Cards nWords blk blkSize leftBlkSize (firstIndex nWords blk)
      (firstIndex nWords (blk + leftBlkSize)) ((blk + blkSize - 1) / nWords) := by
  have suffLe := firstIndex_mono positive (show blk + leftBlkSize ≤ blk + blkSize by omega)
  rw [← last_card positive (show 0 < blk + blkSize by omega)] at suffLe
  have order := firstIndex_mono positive (show blk ≤ blk + leftBlkSize by omega)
  exact ⟨rfl, rfl, rfl, order, suffLe, by omega⟩

/-- The first part keeps its cards, which end in front of those of the second part. -/
theorem Cards.verified_pref (cards : Cards nWords blk blkSize leftBlkSize pref suff last)
    (positive : 0 < nWords) (someLeft : 0 < leftBlkSize)
    (represented : Represented nWords table blk (blk + blkSize)) :
    VerifySingleBlock nWords (splitBlock nWords table blk blkSize leftBlkSize)
      blk (blk + leftBlkSize) := by
  have end' := last_card positive (show 0 < blk + leftBlkSize by omega)
  rw [cards.suff_eq] at end'
  have suffLe := cards.suff_le
  refine verified_of_chained positive cards.pref_eq rfl fun some => ?_
  obtain ⟨offset, chained⟩ := represented.chained positive cards.pref_eq cards.last_eq (by omega)
  constructor
  · rw [cards.splitBlock_outside (by omega)]
    exact offset
  · exact chained.restrict (by omega) fun c le => cards.splitBlock_outside (by omega)

theorem Cards.verified_suff_iff (cards : Cards nWords blk blkSize leftBlkSize pref suff last)
    (positive : 0 < nWords) (represented : Represented nWords table blk (blk + blkSize)) :
    VerifySingleBlock nWords (splitBlock nWords table blk blkSize leftBlkSize)
        (blk + leftBlkSize) (blk + blkSize) ↔
      ¬ Overfills (suff - pref) (last + 1 - suff) ∧ Consistent nWords table pref suff last := by
  have order := cards.order
  by_cases some : suff ≤ last
  · obtain ⟨offset, chained⟩ :=
      represented.chained positive cards.pref_eq cards.last_eq (by omega)
    constructor
    · intro verified
      have starts : blk + leftBlkSize ≤ last * nWords :=
        (firstIndex_le_iff positive _ last).mp (cards.suff_eq.symm ▸ some)
      have checked := (verified (cards.last_eq.symm ▸ starts)).2
      rw [cards.suff_eq, cards.last_eq] at checked
      have good := cards.good_of_checked checked
      exact ⟨good, cards.consistent_of_checked some good chained checked⟩
    · rintro ⟨good, consistent⟩
      refine verified_of_chained positive cards.suff_eq cards.last_eq fun _ => ?_
      exact ⟨cards.offset_card some good,
        cards.chained_suffix some good positive chained consistent⟩
  · -- the second part starts no card
    constructor
    · intro _
      refine ⟨fun bad => ?_, fun d positive le => absurd le (by omega)⟩
      have := bad.1
      omega
    · intro _
      exact verified_of_chained positive cards.suff_eq cards.last_eq fun le => absurd le some

/-- Both parts are represented as single blocks exactly if the window in front of the first power
does not reach too far down and no card that is left alone skips back to a larger entry. Entries
outside the block never change. With at most `2 ^ 28` cards every shift is one that the `int` can
hold. -/
theorem split_verified_iff (nWords : Nat) (positive : 0 < nWords) (table : Table)
    (blk blkSize leftBlkSize : Nat) (someLeft : 0 < leftBlkSize)
    (someRight : leftBlkSize < blkSize)
    (represented : Represented nWords table blk (blk + blkSize))
    (short : (blk + blkSize - 1) / nWords < firstIndex nWords blk + 2 ^ 28) :
    (∀ c, c < firstIndex nWords blk ∨ (blk + blkSize - 1) / nWords < c →
      splitBlock nWords table blk blkSize leftBlkSize c = table c) ∧
    ((VerifySingleBlock nWords (splitBlock nWords table blk blkSize leftBlkSize)
        blk (blk + leftBlkSize) ∧
      VerifySingleBlock nWords (splitBlock nWords table blk blkSize leftBlkSize)
        (blk + leftBlkSize) (blk + blkSize)) ↔
      ¬ Overfills (numPrefCards nWords blk leftBlkSize)
        (numSuffCards nWords blk blkSize leftBlkSize) ∧
      Consistent nWords table (firstIndex nWords blk) (firstIndex nWords (blk + leftBlkSize))
        ((blk + blkSize - 1) / nWords)) := by
  have cards := cards_of_split positive someLeft someRight short
  constructor
  · intro c outside
    have order := cards.order
    exact cards.splitBlock_outside (by omega)
  · rw [cards.verified_suff_iff positive represented]
    exact and_iff_right (cards.verified_pref positive someLeft represented)

/-- A block of 320 cards is split behind twenty, so that the powers 16 and 256 have windows. -/
theorem split_verified_windows :
    VerifySingleBlock 64 (splitBlock 64 (singleBlock 64 (fun _ => 0) 0 20480) 0 20480 1280)
      0 (0 + 1280) ∧
    VerifySingleBlock 64 (splitBlock 64 (singleBlock 64 (fun _ => 0) 0 20480) 0 20480 1280)
      (0 + 1280) (0 + 20480) := by
  have written : Written 64 (singleBlock 64 (fun _ => 0) 0 20480) 0 (0 + 20480) :=
    singleBlock_written (by decide) _ (by decide) (by decide)
  refine (split_verified_iff 64 (by decide) _ 0 20480 1280 (by decide) (by decide)
    (written.represented (by decide) (by decide)) (by decide)).2.mpr ⟨by decide, ?_⟩
  exact written.consistent (by decide)

/-- A block of 483 cards of 64 words, split behind 241 cards: the window in front of the power 256
starts fifteen cards behind the new start, and its entry leads back sixteen cards. -/
def longBlock : Table := singleBlock 64 (fun _ => 0) 0 (483 * 64)

theorem long_split_leaves_part :
    Represented 64 longBlock 0 (0 + 483 * 64) ∧
    ¬ VerifySingleBlock 64 (splitBlock 64 longBlock 0 (483 * 64) (241 * 64))
      (0 + 241 * 64) (0 + 483 * 64) := by
  constructor
  · exact (singleBlock_written (by decide) _ (by decide) (by decide)).represented (by decide)
      (by decide)
  · intro verified
    have lands := ((verified (by decide)).2 (by decide)).2 256 (by decide) (by decide) |>.lands
    exact absurd lands (by decide)

/-- A block that `single_block` has entered is verified; when it is split, both parts are exactly
if the window in front of the first power does not reach too far down. -/
theorem entered_split_verified_iff (nWords : Nat) (positive : 0 < nWords) (table : Table)
    (blk blkSize leftBlkSize : Nat) (someLeft : 0 < leftBlkSize)
    (someRight : leftBlkSize < blkSize)
    (starts : blk ≤ (blk + blkSize - 1) / nWords * nWords)
    (short : (blk + blkSize - 1) / nWords < firstIndex nWords blk + 2 ^ 28) :
    let entered := singleBlock nWords table blk (blk + blkSize)
    let split := splitBlock nWords entered blk blkSize leftBlkSize
    VerifySingleBlock nWords entered blk (blk + blkSize) ∧
    ((VerifySingleBlock nWords split blk (blk + leftBlkSize) ∧
      VerifySingleBlock nWords split (blk + leftBlkSize) (blk + blkSize)) ↔
      ¬ Overfills (numPrefCards nWords blk leftBlkSize)
        (numSuffCards nWords blk blkSize leftBlkSize)) := by
  intro entered split
  have written := singleBlock_written positive table starts short
  have represented := written.represented positive short
  have cards := cards_of_split positive someLeft someRight short
  refine ⟨represented.verified, ?_⟩
  rw [cards.verified_suff_iff positive represented,
    and_iff_right (cards.verified_pref positive someLeft represented)]
  exact and_iff_left (written.consistent positive)

theorem entered_split_verified_even :
    VerifySingleBlock 64 (splitBlock 64 (singleBlock 64 (fun _ => 0) 0 256) 0 256 128) 128 256 :=
  ((entered_split_verified_iff 64 (by decide) (fun _ => 0) 0 256 128 (by decide) (by decide)
    (by decide) (by decide)).2.mpr (by decide)).2

end Split

end SplitBlocks
