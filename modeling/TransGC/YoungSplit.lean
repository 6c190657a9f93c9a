import TransGC.GenerationSizes

/-!
# The split of the young generation leaves room for its spaces

`initialize_flags` asks for a young generation of three grains, one for eden and one for each
survivor space, but checks this before the generation is split. Whether DefNew has an eden and every
transaction eden is non-empty depends on the ratio, and the checks do not see to it.
-/
namespace YoungSplit
open WordSizes HeapSizing GenerationSizes BitVec

variable {p : Platform} {heapFlags raw : HeapFlags p} {flags : TypeGenFlags p} {heap gen0 : Sizes p}

/-! ### The parts -/

theorem localGenSize_toNat (ratio : flags.remoteRatio.slt 1 = false) (size : p.Word) :
    (localGenSize flags size).toNat =
      (if flags.reverseRemoteRatio then size.toNat * flags.remoteRatio.toNat % 2 ^ p.bitsPerWord
        else size.toNat) / (flags.remoteRatio.toNat + 1) / 65536 * 65536 := by
  have divisor : (flags.remoteRatio + 1).toNat = flags.remoteRatio.toNat + 1 :=
    ratio_add_toNat (ratio_positive ratio).2 (by decide)
  unfold localGenSize
  split
  · rw [toNat_alignDown_grain, toNat_udiv, divisor, toNat_mul]
  · rw [toNat_alignDown_grain, toNat_udiv, divisor]

theorem localGenSize_le (ratio : flags.remoteRatio.slt 1 = false) (size : p.Word) :
    (localGenSize flags size).toNat ≤ size.toNat := by
  rw [localGenSize_toNat ratio]
  refine (Nat.div_mul_le_self _ _).trans ?_
  apply Nat.div_le_of_le_mul
  split
  · calc size.toNat * flags.remoteRatio.toNat % 2 ^ p.bitsPerWord
        ≤ size.toNat * flags.remoteRatio.toNat := Nat.mod_le _ _
      _ ≤ (flags.remoteRatio.toNat + 1) * size.toNat := by
        rw [Nat.mul_comm]
        exact Nat.mul_le_mul_right _ (Nat.le_succ _)
  · exact Nat.le_mul_of_pos_left _ (Nat.succ_pos _)

theorem remoteGenSize_toNat (ratio : flags.remoteRatio.slt 1 = false) (size : p.Word) :
    (size - localGenSize flags size).toNat = size.toNat - (localGenSize flags size).toNat :=
  toNat_sub_of_le (localGenSize_le ratio size)

/-- The remote part grows with the whole, also when the product with the ratio wraps. -/
theorem remote_grows (ratio : flags.remoteRatio.slt 1 = false) {small large : p.Word}
    (le : small.toNat ≤ large.toNat) (small_grained : 65536 ∣ small.toNat)
    (large_grained : 65536 ∣ large.toNat) :
    (localGenSize flags large).toNat + small.toNat ≤
      (localGenSize flags small).toNat + large.toNat := by
  rw [localGenSize_toNat ratio, localGenSize_toNat ratio]
  refine share_grows le (Nat.succ_pos _) small_grained large_grained ?_
  obtain ⟨more, same⟩ := Nat.le.dest le
  rw [← same, Nat.add_sub_cancel_left, Nat.mul_succ]
  split
  · -- the larger product wraps at least as often as the smaller one
    have product : (small.toNat + more) * flags.remoteRatio.toNat =
        small.toNat * flags.remoteRatio.toNat + more * flags.remoteRatio.toNat := Nat.add_mul ..
    have wraps : (small.toNat * flags.remoteRatio.toNat) / 2 ^ p.bitsPerWord ≤
        ((small.toNat + more) * flags.remoteRatio.toNat) / 2 ^ p.bitsPerWord :=
      Nat.div_le_div_right (product ▸ Nat.le_add_right _ _)
    have words := Nat.mul_le_mul_left (2 ^ p.bitsPerWord) wraps
    have less := Nat.div_add_mod (small.toNat * flags.remoteRatio.toNat) (2 ^ p.bitsPerWord)
    have whole := Nat.div_add_mod ((small.toNat + more) * flags.remoteRatio.toNat)
      (2 ^ p.bitsPerWord)
    omega
  · omega

/-! ### The spaces -/

theorem computeSurvivorSize_toNat (accepted : Accepted heapFlags) (size : p.Word) :
    (computeSurvivorSize heapFlags.survivorRatio size).toNat =
      max (size.toNat / (heapFlags.survivorRatio.toNat + 2) / 65536 * 65536) 65536 := by
  have divisor : (heapFlags.survivorRatio + 2).toNat = heapFlags.survivorRatio.toNat + 2 :=
    ratio_add_toNat accepted.survivorRatio.2 (by decide)
  rw [computeSurvivorSize, wholeGrains_toNat, toNat_udiv, divisor]

/-- The survivor spaces leave a third of the generation, if it has three grains. -/
theorem computeSurvivorSize_le (accepted : Accepted heapFlags) (size : p.Word) :
    (computeSurvivorSize heapFlags.survivorRatio size).toNat = 65536 ∨
      (computeSurvivorSize heapFlags.survivorRatio size).toNat * 3 ≤ size.toNat := by
  have third : size.toNat / (heapFlags.survivorRatio.toNat + 2) * 3 ≤ size.toNat := by
    refine (Nat.mul_le_mul_left _ ?_).trans (Nat.div_mul_le_self _ (heapFlags.survivorRatio.toNat + 2))
    exact Nat.add_le_add_right accepted.survivorRatio.1 2
  rw [computeSurvivorSize_toNat accepted]
  generalize size.toNat / (heapFlags.survivorRatio.toNat + 2) = part at third
  omega

theorem twoSurvivors_toNat (accepted : Accepted heapFlags) (size : p.Word) :
    (2 * computeSurvivorSize heapFlags.survivorRatio size).toNat =
      2 * (computeSurvivorSize heapFlags.survivorRatio size).toNat := by
  have two : (2 : p.Word).toNat = 2 := small_toNat (by decide)
  have bound := size.isLt
  have wide := wide_word (p := p)
  rw [toNat_mul, two]
  apply Nat.mod_eq_of_lt
  rcases computeSurvivorSize_le accepted size with least | third <;> omega

/-- DefNew has an eden exactly if its size is at least three grains. -/
theorem eden_iff (accepted : Accepted heapFlags) {size : p.Word} (grained : 65536 ∣ size.toNat) :
    (defNewEdenSize heapFlags.survivorRatio size).NoWrap ∧
        0 < (defNewEdenSize heapFlags.survivorRatio size).value.toNat ↔ 196608 ≤ size.toNat := by
  have least : 65536 ≤ (computeSurvivorSize heapFlags.survivorRatio size).toNat := by
    rw [computeSurvivorSize_toNat accepted]
    exact le_max_right _ _
  have survivors := twoSurvivors_toNat accepted size
  rw [defNewEdenSize, Traced.noWrap_minus, Traced.minus_value, survivors]
  constructor
  · rintro ⟨fits, positive⟩
    have below : 2 * computeSurvivorSize heapFlags.survivorRatio size ≤ size := by
      rwa [le_def, survivors]
    rw [toNat_sub_of_le below, survivors] at positive
    omega
  · intro large
    have fits : 2 * (computeSurvivorSize heapFlags.survivorRatio size).toNat < size.toNat := by
      rcases computeSurvivorSize_le accepted size with exact_grain | third <;> omega
    have below : 2 * computeSurvivorSize heapFlags.survivorRatio size ≤ size := by
      rw [le_def, survivors]
      exact Nat.le_of_lt fits
    rw [toNat_sub_of_le below, survivors]
    omega

/-- Every transaction eden is non-empty exactly if there is a grain for each. -/
theorem transEden_iff (edens : flags.maxTransEden.slt 1 = false) (size : p.Word) :
    0 < (transEdenSize flags.maxTransEden size).toNat ↔
      65536 * flags.maxTransEden.toNat ≤ size.toNat := by
  rw [transEdenSize, toNat_alignDown_grain, toNat_udiv,
    ← Nat.le_div_iff_mul_le (ratio_positive edens).1]
  omega

/-! ### The split -/

/-- Whole grains that add up and are in order, with no empty eden in either part. -/
structure SplitsWell (heapFlags : HeapFlags p) (flags : TypeGenFlags p) (gen0 : Sizes p)
    (young : YoungSizes p) : Prop where
  initial_sum : young.initialLocalGenSize.toNat + young.initialRemoteGenSize.toNat =
    gen0.initial.toNat
  maximum_sum : young.maxLocalGenSize.toNat + young.maxRemoteGenSize.toNat = gen0.maximum.toNat
  initialLocal : 65536 ∣ young.initialLocalGenSize.toNat
  maxLocal : 65536 ∣ young.maxLocalGenSize.toNat
  initialRemote : 65536 ∣ young.initialRemoteGenSize.toNat
  maxRemote : 65536 ∣ young.maxRemoteGenSize.toNat
  local_le : young.initialLocalGenSize.toNat ≤ young.maxLocalGenSize.toNat
  remote_le : young.initialRemoteGenSize.toNat ≤ young.maxRemoteGenSize.toNat
  eden : (defNewEdenSize heapFlags.survivorRatio young.initialLocalGenSize).NoWrap ∧
    0 < (defNewEdenSize heapFlags.survivorRatio young.initialLocalGenSize).value.toNat
  transEdens : 0 < (transEdenSize flags.maxTransEden young.initialRemoteGenSize).toNat

/-- With the reversed ratio the products may wrap; what is left of them must then be in order. -/
def ProductsOrdered (flags : TypeGenFlags p) (gen0 : Sizes p) : Prop :=
  flags.reverseRemoteRatio = true →
    gen0.maximum.toNat * flags.remoteRatio.toNat < 2 ^ p.bitsPerWord ∨
      gen0.initial.toNat * flags.remoteRatio.toNat % 2 ^ p.bitsPerWord /
          (flags.remoteRatio.toNat + 1) / 65536 ≤
        gen0.maximum.toNat * flags.remoteRatio.toNat % 2 ^ p.bitsPerWord /
          (flags.remoteRatio.toNat + 1) / 65536

/-- The ratio gives the local generation three grains and the remote one a grain for each eden. -/
structure SplitFits (flags : TypeGenFlags p) (gen0 : Sizes p) : Prop where
  ordered : gen0.initial.toNat ≤ gen0.maximum.toNat
  product : ProductsOrdered flags gen0
  localPart : 196608 ≤ (localGenSize flags gen0.initial).toNat
  remotePart : 65536 * flags.maxTransEden.toNat + (localGenSize flags gen0.initial).toNat ≤
    gen0.initial.toNat

/-- The local part grows with the whole exactly if the products are in order. -/
theorem local_grows_iff (ratio : flags.remoteRatio.slt 1 = false)
    (ordered : gen0.initial.toNat ≤ gen0.maximum.toNat) :
    (localGenSize flags gen0.initial).toNat ≤ (localGenSize flags gen0.maximum).toNat ↔
      ProductsOrdered flags gen0 := by
  unfold ProductsOrdered
  rw [localGenSize_toNat ratio, localGenSize_toNat ratio, Nat.mul_le_mul_right_iff (by decide)]
  cases flags.reverseRemoteRatio with
  | false => simpa using Nat.div_le_div_right (Nat.div_le_div_right ordered)
  | true =>
    rw [if_pos rfl, if_pos rfl, forall_prop_of_true rfl]
    refine (or_iff_right_of_imp fun largest => ?_).symm
    have products := Nat.mul_le_mul_right flags.remoteRatio.toNat ordered
    rw [Nat.mod_eq_of_lt largest, Nat.mod_eq_of_lt (products.trans_lt largest)]
    exact Nat.div_le_div_right (Nat.div_le_div_right products)

theorem localGenSize_grained (ratio : flags.remoteRatio.slt 1 = false) (size : p.Word) :
    65536 ∣ (localGenSize flags size).toNat := by
  rw [localGenSize_toNat ratio]
  exact Nat.dvd_mul_left _ _

theorem typeGenSizeInfo_splitsWell_iff (accepted : Accepted heapFlags)
    (ratio : flags.remoteRatio.slt 1 = false) (edens : flags.maxTransEden.slt 1 = false)
    (initial : 65536 ∣ gen0.initial.toNat) (maximum : 65536 ∣ gen0.maximum.toNat) :
    SplitsWell heapFlags flags gen0 (typeGenSizeInfo flags gen0) ↔ SplitFits flags gen0 := by
  have initial_le := localGenSize_le ratio gen0.initial
  have maximum_le := localGenSize_le ratio gen0.maximum
  have initialLocal := localGenSize_grained ratio gen0.initial
  have maxLocal := localGenSize_grained ratio gen0.maximum
  have initialRemote := remoteGenSize_toNat ratio gen0.initial
  have maxRemote := remoteGenSize_toNat ratio gen0.maximum
  constructor
  · intro well
    have local_le : (localGenSize flags gen0.initial).toNat ≤
        (localGenSize flags gen0.maximum).toNat := well.local_le
    have remote_le : (gen0.initial - localGenSize flags gen0.initial).toNat ≤
        (gen0.maximum - localGenSize flags gen0.maximum).toNat := well.remote_le
    have remote := (transEden_iff edens _).mp well.transEdens
    rw [typeGenSizeInfo, initialRemote] at remote
    have ordered : gen0.initial.toNat ≤ gen0.maximum.toNat := by omega
    exact ⟨ordered, (local_grows_iff ratio ordered).mp local_le,
      (eden_iff accepted initialLocal).mp well.eden, by omega⟩
  · intro fits
    have local_le := (local_grows_iff ratio fits.ordered).mpr fits.product
    have grows := remote_grows ratio fits.ordered initial maximum
    have remote := fits.remotePart
    constructor
    case eden => exact (eden_iff accepted initialLocal).mpr fits.localPart
    case transEdens =>
      apply (transEden_iff edens _).mpr
      rw [typeGenSizeInfo, initialRemote]
      omega
    case local_le => exact local_le
    case initialLocal => exact initialLocal
    case maxLocal => exact maxLocal
    all_goals simp only [typeGenSizeInfo, initialRemote, maxRemote]
    case initialRemote => exact Nat.dvd_sub initial initialLocal
    case maxRemote => exact Nat.dvd_sub maximum maxLocal
    all_goals omega

/-- For accepted flags the split is right in every respect exactly if the sizes of gen0 are in order
and the ratio leaves each part what it needs. -/
theorem young_split_iff (accepts : initializeFlags raw = .ok heapFlags)
    {sized : Traced p.bitsPerWord (SizeInfo p)}
    (sizes : initializeSizeInfo heapFlags = .ok (heap, sized))
    (ratio : flags.remoteRatio.slt 1 = false) (edens : flags.maxTransEden.slt 1 = false) :
    SplitsWell heapFlags flags sized.value.gen0 (typeGenSizeInfo flags sized.value.gen0) ↔
      SplitFits flags sized.value.gen0 := by
  have accepted := accepted_of_initializeFlags accepts
  obtain ⟨found, heap_info, same⟩ := except_bind_ok sizes
  cases same
  obtain ⟨initial, maximum⟩ :=
    generationSizeInfo_gen0_grained accepted (heapSized_of_info heap_info)
  exact typeGenSizeInfo_splitsWell_iff accepted ratio edens initial maximum

/-- A young generation of 2 MB in a heap of 16 MB. -/
private def smallYoung : HeapFlags lp64 where
  permSize := 21757952
  newSize := 2097152
  newSizeOrigin := .commandLine
  maxNewSize := 2097152
  maxNewSizeOrigin := .commandLine
  oldSize := 5452592
  oldSizeOrigin := .default
  maxHeapSize := 16777216
  newRatio := 2
  survivorRatio := 8
  initialHeapSize := 16777216
  minHeapSize := 16777216

/-- With the default ratio and five edens the split is right. -/
theorem even_split :
    ∃ heapFlags heap sized, initializeFlags smallYoung = .ok heapFlags ∧
      initializeSizeInfo heapFlags = .ok (heap, sized) ∧
      SplitsWell heapFlags ⟨1, false, 5⟩ sized.value.gen0
        (typeGenSizeInfo ⟨1, false, 5⟩ sized.value.gen0) := by
  have accepts : initializeFlags smallYoung = .ok _ := rfl
  refine ⟨_, _, _, accepts, rfl, (young_split_iff accepts rfl (by decide) (by decide)).mpr ?_⟩
  exact ⟨by decide +kernel, nofun, by decide +kernel, by decide +kernel⟩

/-- With a ratio of 15 the local generation has two grains, both for survivor spaces, and eden is
empty. With a ratio of 31 it has one, and the size of eden wraps. -/
theorem uneven_split_starves_eden :
    ∃ heapFlags heap sized, initializeFlags smallYoung = .ok heapFlags ∧
      initializeSizeInfo heapFlags = .ok (heap, sized) ∧
      (defNewEdenSize heapFlags.survivorRatio
        (typeGenSizeInfo ⟨15, false, 5⟩ sized.value.gen0).initialLocalGenSize).value = 0 ∧
      ¬(defNewEdenSize heapFlags.survivorRatio
        (typeGenSizeInfo ⟨31, false, 5⟩ sized.value.gen0).initialLocalGenSize).NoWrap ∧
      ¬SplitsWell heapFlags ⟨31, false, 5⟩ sized.value.gen0
        (typeGenSizeInfo ⟨31, false, 5⟩ sized.value.gen0) := by
  have wraps : ∃ heapFlags heap sized, initializeFlags smallYoung = .ok heapFlags ∧
      initializeSizeInfo heapFlags = .ok (heap, sized) ∧
      (defNewEdenSize heapFlags.survivorRatio
        (typeGenSizeInfo ⟨15, false, 5⟩ sized.value.gen0).initialLocalGenSize).value = 0 ∧
      ¬(defNewEdenSize heapFlags.survivorRatio
        (typeGenSizeInfo ⟨31, false, 5⟩ sized.value.gen0).initialLocalGenSize).NoWrap :=
    ⟨_, _, _, rfl, rfl, by decide +kernel, by decide +kernel⟩
  obtain ⟨heapFlags, heap, sized, accepts, sizes, empty, wraps⟩ := wraps
  exact ⟨heapFlags, heap, sized, accepts, sizes, empty, wraps, fun well => wraps well.eden.1⟩

end YoungSplit
