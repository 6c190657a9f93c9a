import TransGC.HeapSizing

/-!
# The sizes of the generations fit the heap

For every configuration that the virtual machine accepts, the sizes of gen0 are whole grains in
order and leave a grain of the heap. So is what is left for gen1, unless `OldSize` is given: it is
then used as it is, and where it exceeds the minimum heap size the room for gen0 wraps.
-/
namespace GenerationSizes
open WordSizes HeapSizing

variable {p : Platform} {flags raw : HeapFlags p} {heap gen0 : Sizes p}

/-! ### Words as numbers -/

@[simp] theorem minAlignment_toNat : (minAlignment : p.Word).toNat = 65536 :=
  toNat_twoPow_of_lt (k := 16) (by have := p.wide; omega)

@[simp] theorem M_toNat : (M : p.Word).toNat = 1048576 :=
  toNat_twoPow_of_lt (k := 20) (by have := p.wide; omega)

@[simp] theorem toNat_alignDown_grain (size : p.Word) :
    (alignDown size minAlignment).toNat = size.toNat / 65536 * 65536 :=
  toNat_alignDown (k := 16) (by have := p.wide; omega) size

theorem grain_dvd_alignUp (size : p.Word) : 65536 ∣ (alignUp size minAlignment).toNat := by
  rw [minAlignment, toNat_alignUp (by have := p.wide; omega)]
  exact dvd_mul_left _ _

theorem grain_dvd_alignUp_max (size : p.Word) : 65536 ∣ (alignUp size maxAlignment).toNat := by
  rw [maxAlignment, toNat_alignUp p.fits]
  exact (Nat.pow_dvd_pow 2 p.coarse).mul_left _

theorem wide_word : 2 ^ 32 ≤ 2 ^ p.bitsPerWord := Nat.pow_le_pow_right (by decide) p.wide

theorem small_toNat {n : Nat} (small : n < 2 ^ 32) : (BitVec.ofNat p.bitsPerWord n).toNat = n := by
  exact Nat.mod_eq_of_lt (lt_of_lt_of_le small wide_word)

theorem three_grains_toNat : (3 * minAlignment : p.Word).toNat = 196608 := by
  have three : (3 : p.Word).toNat = 3 := small_toNat (by decide)
  rw [BitVec.toNat_mul, three, minAlignment_toNat]
  exact Nat.mod_eq_of_lt (lt_of_lt_of_le (by decide) wide_word)

/-- A signed ratio that is at least one is the same number unsigned, in the lower half. -/
theorem ratio_positive {ratio : p.Word} (positive : ratio.slt 1 = false) :
    1 ≤ ratio.toNat ∧ 2 * ratio.toNat < 2 ^ p.bitsPerWord := by
  have wide := wide_word (p := p)
  have one : (1 : p.Word).toNat = 1 := small_toNat (by decide)
  have below := ratio.isLt
  rw [BitVec.slt_eq_decide, decide_eq_false_iff_not, BitVec.toInt_eq_toNat_cond,
    BitVec.toInt_eq_toNat_cond, one] at positive
  split at positive <;> split at positive <;> omega

theorem ratio_add_toNat {ratio : p.Word} {n : Nat} (half : 2 * ratio.toNat < 2 ^ p.bitsPerWord)
    (small : n < 2 ^ 16) : (ratio + BitVec.ofNat _ n).toNat = ratio.toNat + n := by
  have wide := wide_word (p := p)
  rw [BitVec.toNat_add, small_toNat (by omega)]
  exact Nat.mod_eq_of_lt (by omega)

/-! ### What the checks establish -/

/-- What the rest relies on in flags that `initialize_flags` accepts. -/
structure Accepted (flags : HeapFlags p) : Prop where
  newSize : 65536 ∣ flags.newSize.toNat
  newSize_large : 196608 ≤ flags.newSize.toNat
  maxNewSize : 65536 ∣ flags.maxNewSize.toNat
  newSize_le : flags.newSize.toNat ≤ flags.maxNewSize.toNat
  oldSize : 65536 ∣ flags.oldSize.toNat
  newRatio : 1 ≤ flags.newRatio.toNat ∧ 2 * flags.newRatio.toNat < 2 ^ p.bitsPerWord
  survivorRatio : 1 ≤ flags.survivorRatio.toNat ∧
    2 * flags.survivorRatio.toNat < 2 ^ p.bitsPerWord

theorem except_bind_ok {ε α β : Type} {first : Except ε α} {next : α → Except ε β} {b : β}
    (ok : (first >>= next) = .ok b) : ∃ a, first = .ok a ∧ next a = .ok b := by
  cases first with
  | error message => cases ok
  | ok a => exact ⟨a, rfl, ok⟩

theorem check_ok_iff {ε α : Type} {c : Prop} [Decidable c] {message : ε} {rest : Except ε α}
    {a : α} : (if c then .error message else rest) = .ok a ↔ ¬c ∧ rest = .ok a := by
  split <;> simp [*]

theorem accepted_of_initializeFlags (accepts : initializeFlags raw = .ok flags) :
    Accepted flags := by
  obtain ⟨young, accepted_young, final⟩ := except_bind_ok accepts
  obtain ⟨perm, -, checks⟩ := except_bind_ok accepted_young
  simp only [check_ok_iff, BitVec.lt_def, three_grains_toNat, toNat_alignDown_grain, not_lt,
    Bool.or_eq_true, not_or, Bool.not_eq_true] at checks
  obtain ⟨large, ⟨survivors, ratio⟩, result⟩ := checks
  cases result
  cases final
  have grown : perm.newSize.toNat ≤ (if perm.maxNewSize.toNat < perm.newSize.toNat
      then perm.newSize else perm.maxNewSize).toNat := by
    split <;> omega
  constructor
  case newRatio => exact ratio_positive ratio
  case survivorRatio => exact ratio_positive survivors
  all_goals simp only [toNat_alignDown_grain]
  all_goals omega

/-- What the rest relies on in the sizes of the heap. -/
structure HeapSized (flags : HeapFlags p) (heap : Sizes p) : Prop where
  minimum : 65536 ∣ heap.minimum.toNat
  initial : 65536 ∣ heap.initial.toNat
  maximum : 65536 ∣ heap.maximum.toNat
  large : 1048576 ≤ heap.minimum.toNat
  minimum_le : heap.minimum.toNat ≤ heap.initial.toNat
  initial_le : heap.initial.toNat ≤ heap.maximum.toNat
  newSize_lt : flags.newSize.toNat < heap.initial.toNat

theorem heapSized_of_info (sized : heapSizeInfo flags = .ok heap) : HeapSized flags heap := by
  simp only [heapSizeInfo, check_ok_iff, BitVec.lt_def, BitVec.le_def, M_toNat, not_lt, not_le,
    Except.ok.injEq] at sized
  obtain ⟨-, large, room, -, minimum_le, initial_le, rfl⟩ := sized
  exact
    { minimum := grain_dvd_alignUp _
      initial := grain_dvd_alignUp _
      maximum := grain_dvd_alignUp_max _
      large := large
      minimum_le := minimum_le
      initial_le := initial_le
      newSize_lt := room }

/-! ### The young generation -/

theorem wholeGrains_toNat (x : p.Word) :
    (if x > minAlignment then alignDown x minAlignment else minAlignment).toNat =
      max (x.toNat / 65536 * 65536) 65536 := by
  split <;> rename_i larger <;>
    rw [gt_iff_lt, BitVec.lt_def, minAlignment_toNat] at larger
  · rw [toNat_alignDown_grain]
    omega
  · rw [minAlignment_toNat]
    omega

theorem scale_toNat (accepted : Accepted flags) (baseSize : p.Word) :
    (scaleByNewRatioAligned flags.newRatio baseSize).toNat =
      max (baseSize.toNat / (flags.newRatio.toNat + 1) / 65536 * 65536) 65536 := by
  have divisor : (flags.newRatio + 1).toNat = flags.newRatio.toNat + 1 :=
    ratio_add_toNat accepted.newRatio.2 (by decide)
  rw [scaleByNewRatioAligned, wholeGrains_toNat, BitVec.toNat_udiv, divisor]

theorem grain_dvd_scale (accepted : Accepted flags) (size : p.Word) :
    65536 ∣ (scaleByNewRatioAligned flags.newRatio size).toNat := by
  rw [scale_toNat accepted]
  exact dvd_max (dvd_mul_left _ _) (dvd_refl _)

/-- Beside the share of a heap of at least two grains there is room for a grain. -/
theorem scale_room (accepted : Accepted flags) (size : p.Word) (large : 131072 ≤ size.toNat)
    (grained : 65536 ∣ size.toNat) :
    (scaleByNewRatioAligned flags.newRatio size).toNat + 65536 ≤ size.toNat := by
  have half : size.toNat / (flags.newRatio.toNat + 1) * 2 ≤ size.toNat := by
    refine (Nat.mul_le_mul_left _ ?_).trans (Nat.div_mul_le_self _ (flags.newRatio.toNat + 1))
    exact Nat.succ_le_succ accepted.newRatio.1
  rw [scale_toNat accepted]
  generalize size.toNat / (flags.newRatio.toNat + 1) = share at half
  generalize size.toNat = whole at *
  omega

/-- Of two wholes the larger has the larger rest, if the shares do not differ by more. -/
theorem share_grows {small large x y d : Nat} (le : small ≤ large) (positive : 0 < d)
    (small_grained : 65536 ∣ small) (large_grained : 65536 ∣ large)
    (slow : y ≤ x + (large - small) * d) :
    y / d / 65536 * 65536 + small ≤ x / d / 65536 * 65536 + large := by
  obtain ⟨a, rfl⟩ := small_grained
  obtain ⟨b, rfl⟩ := large_grained
  have step : (65536 * b - 65536 * a) * d = (b - a) * (d * 65536) := by
    rw [← Nat.mul_sub, mul_comm 65536, mul_assoc, mul_comm 65536]
  have grows : y / d / 65536 ≤ x / d / 65536 + (b - a) := by
    rw [Nat.div_div_eq_div_mul, Nat.div_div_eq_div_mul]
    calc y / (d * 65536) ≤ (x + (b - a) * (d * 65536)) / (d * 65536) :=
          Nat.div_le_div_right (step ▸ slow)
      _ = x / (d * 65536) + (b - a) := Nat.add_mul_div_right _ _ (by omega)
  omega

theorem minus_grain_toNat {size : p.Word} (room : 65536 ≤ size.toNat) :
    (size - minAlignment).toNat = size.toNat - 65536 := by
  have below : minAlignment ≤ size := by rwa [BitVec.le_def, minAlignment_toNat]
  rw [BitVec.toNat_sub_of_le below, minAlignment_toNat]

theorem boundMinusAlignment_spec (desired maximum : p.Word)
    (room : 65536 ≤ maximum.toNat) :
    (boundMinusAlignment desired maximum).NoWrap ∧
      (boundMinusAlignment desired maximum).value.toNat =
        min desired.toNat (maximum.toNat - 65536) := by
  constructor
  · simpa [boundMinusAlignment] using room
  · change (min2 desired (maximum - minAlignment)).toNat = _
    rw [toNat_min2, minus_grain_toNat room]

/-- A size of gen0 beside which the heap has room for a grain. -/
structure MaxNewSized (flags : HeapFlags p) (heap : Sizes p) (size : p.Word) : Prop where
  grained : 65536 ∣ size.toNat
  newSize_le : flags.newSize.toNat ≤ size.toNat
  room : size.toNat + 65536 ≤ heap.maximum.toNat

theorem maxNewSizeInfo_spec (accepted : Accepted flags) (sized : HeapSized flags heap) :
    (maxNewSizeInfo flags heap).NoWrap ∧
      MaxNewSized flags heap (maxNewSizeInfo flags heap).value := by
  have newSize := accepted.newSize
  have newSize_large := accepted.newSize_large
  have maxNewSize := accepted.maxNewSize
  have newSize_le := accepted.newSize_le
  obtain ⟨-, initial, maximum, -, -, initial_le, newSize_lt⟩ := sized
  have given {size : p.Word} (good : MaxNewSized flags heap size) :
      (pure size : Traced p.bitsPerWord p.Word).NoWrap ∧
        MaxNewSized flags heap (pure size : Traced p.bitsPerWord p.Word).value :=
    ⟨Traced.noWrap_pure size, good⟩
  unfold maxNewSizeInfo
  split
  · split
    · rename_i tiny
      rw [BitVec.lt_def, minAlignment_toNat] at tiny
      omega
    split
    · have room : 65536 ≤ heap.maximum.toNat := by omega
      have rest := minus_grain_toNat room
      refine ⟨by simpa using room, ?_⟩
      rw [Traced.bind_value, Traced.pure_value, Traced.minus_value]
      constructor <;> rw [toNat_alignDown_grain, rest] <;> omega
    · rename_i smaller
      rw [ge_iff_le, BitVec.le_def] at smaller
      apply given
      constructor <;> rw [toNat_alignDown_grain] <;> omega
  · apply given
    constructor
    · rw [toNat_min2, toNat_max2]
      exact dvd_min (dvd_max (grain_dvd_scale accepted _) newSize) maxNewSize
    · rw [toNat_min2, toNat_max2]
      exact le_min (le_max_right _ _) newSize_le
    · rw [toNat_min2, toNat_max2]
      refine (Nat.add_le_add_right (min_le_left _ _) _).trans ?_
      have shares := scale_room accepted heap.maximum (by omega) maximum
      omega

/-- Whole grains in order, each beside a grain of the heap; gen0 grows no more than the heap. -/
structure Gen0Sized (heap gen0 : Sizes p) : Prop where
  minimum : 65536 ∣ gen0.minimum.toNat
  initial : 65536 ∣ gen0.initial.toNat
  maximum : 65536 ∣ gen0.maximum.toNat
  positive : 65536 ≤ gen0.minimum.toNat
  minimum_le : gen0.minimum.toNat ≤ gen0.initial.toNat
  initial_le : gen0.initial.toNat ≤ gen0.maximum.toNat
  minimum_room : gen0.minimum.toNat + 65536 ≤ heap.minimum.toNat
  initial_room : gen0.initial.toNat + 65536 ≤ heap.initial.toNat
  maximum_room : gen0.maximum.toNat + 65536 ≤ heap.maximum.toNat
  grows : gen0.initial.toNat + heap.minimum.toNat ≤ gen0.minimum.toNat + heap.initial.toNat

theorem Gen0Sized.minimum_lt {heap gen0 : Sizes p} (young : Gen0Sized heap gen0) :
    gen0.minimum.toNat < heap.minimum.toNat :=
  lt_of_lt_of_le (Nat.lt_add_of_pos_right (by decide)) young.minimum_room

theorem Gen0Sized.initial_lt {heap gen0 : Sizes p} (young : Gen0Sized heap gen0) :
    gen0.initial.toNat < heap.initial.toNat :=
  lt_of_lt_of_le (Nat.lt_add_of_pos_right (by decide)) young.initial_room

/-- Sizes of gen0 as far as they are right before they are brought in order. -/
structure Asked (heap asked : Sizes p) : Prop where
  minimum : 65536 ∣ asked.minimum.toNat
  initial : 65536 ∣ asked.initial.toNat
  maximum : 65536 ∣ asked.maximum.toNat
  minimum_large : 65536 ≤ asked.minimum.toNat
  initial_large : 65536 ≤ asked.initial.toNat
  maximum_large : 65536 ≤ asked.maximum.toNat
  grows : asked.initial.toNat + heap.minimum.toNat ≤ asked.minimum.toNat + heap.initial.toNat

theorem scale_grows (accepted : Accepted flags) (sized : HeapSized flags heap) :
    (scaleByNewRatioAligned flags.newRatio heap.initial).toNat + heap.minimum.toNat ≤
      (scaleByNewRatioAligned flags.newRatio heap.minimum).toNat + heap.initial.toNat := by
  have order := sized.minimum_le
  have some_share : 0 < flags.newRatio.toNat + 1 := Nat.succ_pos _
  have slow := Nat.le_mul_of_pos_right (heap.initial.toNat - heap.minimum.toNat) some_share
  have grows := share_grows (x := heap.minimum.toNat) (y := heap.initial.toNat) order some_share
    sized.minimum sized.initial (by omega)
  rw [scale_toNat accepted, scale_toNat accepted]
  omega

theorem desiredGen0Sizes_asked {maxNewSize : p.Word} (accepted : Accepted flags)
    (sized : HeapSized flags heap) (young : MaxNewSized flags heap maxNewSize) :
    Asked heap (desiredGen0Sizes flags heap maxNewSize) := by
  have grained := accepted.newSize
  have large : 65536 ≤ flags.newSize.toNat := le_trans (by decide) accepted.newSize_large
  have order := sized.minimum_le
  unfold desiredGen0Sizes
  split
  · exact
      { minimum := grained
        initial := grained
        maximum := by rw [toNat_max2]; exact dvd_max young.grained grained
        minimum_large := large
        initial_large := large
        maximum_large := by rw [toNat_max2]; exact large.trans (le_max_right _ _)
        grows := Nat.add_le_add_left order _ }
  · have grows := scale_grows accepted sized
    have larger (x : p.Word) : 65536 ≤ (max2 x flags.newSize).toNat := by
      rw [toNat_max2]
      exact large.trans (le_max_right _ _)
    have whole (x : p.Word) :
        65536 ∣ (max2 (scaleByNewRatioAligned flags.newRatio x) flags.newSize).toNat := by
      rw [toNat_max2]
      exact dvd_max (grain_dvd_scale accepted x) grained
    exact
      { minimum := whole _
        initial := whole _
        maximum := young.grained
        minimum_large := larger _
        initial_large := larger _
        maximum_large := large.trans young.newSize_le
        grows := by rw [toNat_max2, toNat_max2]; omega }

/-- What a size bounded by the heap less a grain is. -/
structure Bounded (desired maximum bounded : p.Word) : Prop where
  value : bounded.toNat = min desired.toNat (maximum.toNat - 65536)
  grained : 65536 ∣ bounded.toNat
  large : 65536 ≤ bounded.toNat
  room : bounded.toNat + 65536 ≤ maximum.toNat

theorem boundMinusAlignment_bounded {desired maximum : p.Word}
    (desired_grained : 65536 ∣ desired.toNat) (desired_large : 65536 ≤ desired.toNat)
    (maximum_grained : 65536 ∣ maximum.toNat)
    (maximum_large : 131072 ≤ maximum.toNat) :
    (boundMinusAlignment desired maximum).NoWrap ∧
      Bounded desired maximum (boundMinusAlignment desired maximum).value := by
  obtain ⟨noWrap, value⟩ := boundMinusAlignment_spec desired maximum (by omega)
  refine ⟨noWrap, value, ?_, ?_, ?_⟩
  · rw [value]
    exact dvd_min desired_grained (Nat.dvd_sub maximum_grained (dvd_refl _))
  · omega
  · omega

/-- The second bound on the minimum does nothing. -/
theorem orderSizes_minimum (sizes : Sizes p) :
    (orderSizes sizes).minimum.toNat = min sizes.minimum.toNat sizes.maximum.toNat := by
  simp only [orderSizes, toNat_min2, toNat_max2]
  omega

theorem orderSizes_initial (sizes : Sizes p) :
    (orderSizes sizes).initial.toNat = max (min sizes.initial.toNat sizes.maximum.toNat)
      (min sizes.minimum.toNat sizes.maximum.toNat) := by
  simp only [orderSizes, toNat_min2, toNat_max2]

theorem orderSizes_sized {asked bounded : Sizes p} (sized : HeapSized flags heap)
    (wanted : Asked heap asked) (least : Bounded asked.minimum heap.minimum bounded.minimum)
    (start : Bounded asked.initial heap.initial bounded.initial)
    (most : Bounded asked.maximum heap.maximum bounded.maximum) :
    Gen0Sized heap (orderSizes bounded) := by
  have grows : bounded.initial.toNat + heap.minimum.toNat ≤
      bounded.minimum.toNat + heap.initial.toNat := by
    have order := sized.minimum_le
    have wants := wanted.grows
    have large := sized.large
    rw [least.value, start.value]
    omega
  have order := sized.minimum_le
  have least_room := least.room
  have start_room := start.room
  constructor
  case minimum =>
    rw [orderSizes_minimum]
    exact dvd_min least.grained most.grained
  case initial =>
    rw [orderSizes_initial]
    exact dvd_max (dvd_min start.grained most.grained) (dvd_min least.grained most.grained)
  case maximum => exact most.grained
  case positive =>
    rw [orderSizes_minimum]
    exact le_min least.large most.large
  case minimum_le =>
    rw [orderSizes_minimum, orderSizes_initial]
    exact le_max_right _ _
  case initial_le =>
    rw [orderSizes_initial]
    exact max_le (min_le_right _ _) (min_le_right _ _)
  case maximum_room => exact most.room
  case grows =>
    rw [orderSizes_minimum, orderSizes_initial]
    omega
  all_goals simp only [orderSizes_minimum, orderSizes_initial]
  all_goals omega

theorem gen0SizeInfo_spec (accepted : Accepted flags) (sized : HeapSized flags heap) :
    (gen0SizeInfo flags heap).NoWrap ∧ Gen0Sized heap (gen0SizeInfo flags heap).value := by
  obtain ⟨noWrap, young⟩ := maxNewSizeInfo_spec accepted sized
  have large := sized.large
  have minimum_le := sized.minimum_le
  have initial_le := sized.initial_le
  unfold gen0SizeInfo
  by_cases same : heap.maximum = heap.minimum
  · have positive : 65536 ≤ (maxNewSizeInfo flags heap).value.toNat :=
      (le_trans (by decide) accepted.newSize_large).trans young.newSize_le
    have room := young.room
    have equal := congrArg BitVec.toNat same
    simp only [same, if_true, Traced.noWrap_bind, Traced.noWrap_pure, and_true, Traced.bind_value,
      Traced.pure_value]
    refine ⟨noWrap, young.grained, young.grained, young.grained, positive, le_refl _,
      le_refl _, ?_, ?_, ?_, ?_⟩
    all_goals dsimp only
    all_goals omega
  · have wanted := desiredGen0Sizes_asked accepted sized young
    have least := boundMinusAlignment_bounded wanted.minimum wanted.minimum_large sized.minimum
      (by omega)
    have start := boundMinusAlignment_bounded wanted.initial wanted.initial_large sized.initial
      (by omega)
    have most := boundMinusAlignment_bounded wanted.maximum wanted.maximum_large sized.maximum
      (by omega)
    simp only [same, if_false, Traced.noWrap_bind, Traced.noWrap_pure, and_true, Traced.bind_value,
      Traced.pure_value]
    exact ⟨⟨noWrap, least.1, start.1, most.1⟩, orderSizes_sized sized wanted least.2 start.2 most.2⟩

/-! ### The old generation -/

theorem restOfHeap_grained (heapSize genSize : p.Word) :
    65536 ∣ (restOfHeap heapSize genSize).value.toNat := by
  rw [restOfHeap, Traced.bind_value, Traced.pure_value, toNat_max2, toNat_alignDown_grain,
    minAlignment_toNat]
  exact dvd_max (dvd_mul_left _ _) (dvd_refl _)

theorem restOfHeap_noWrap_iff (heapSize genSize : p.Word) :
    (restOfHeap heapSize genSize).NoWrap ↔ genSize.toNat ≤ heapSize.toNat := by
  simp [restOfHeap]

theorem restOfHeap_toNat {heapSize genSize : p.Word} (heap_grained : 65536 ∣ heapSize.toNat)
    (gen_grained : 65536 ∣ genSize.toNat) (room : genSize.toNat < heapSize.toNat) :
    (restOfHeap heapSize genSize).value.toNat = heapSize.toNat - genSize.toNat := by
  have below : genSize ≤ heapSize := le_of_lt room
  rw [restOfHeap, Traced.bind_value, Traced.pure_value, Traced.minus_value, toNat_max2,
    toNat_alignDown_grain, minAlignment_toNat, BitVec.toNat_sub_of_le below]
  omega

theorem sum_toNat (a b : p.Word) :
    (a.toNat + b.toNat < 2 ^ p.bitsPerWord ∧ (a + b).toNat = a.toNat + b.toNat) ∨
      (2 ^ p.bitsPerWord ≤ a.toNat + b.toNat ∧
        (a + b).toNat + 2 ^ p.bitsPerWord = a.toNat + b.toNat) := by
  have left := a.isLt
  have right := b.isLt
  rw [BitVec.toNat_add]
  rcases lt_or_ge (a.toNat + b.toNat) (2 ^ p.bitsPerWord) with below | above
  · exact .inl ⟨below, Nat.mod_eq_of_lt below⟩
  · refine .inr ⟨above, ?_⟩
    rw [Nat.mod_eq_sub_mod above, Nat.mod_eq_of_lt (by omega)]
    omega

/-- The outcomes of `adjust_gen0_sizes` for a given `OldSize`: it fits beside gen0, its sum with
gen0 wraps and is taken to fit, gen0 makes room for it, it is the whole heap and is cut down, or it
exceeds the heap and the room for gen0 wraps. -/
inductive Adjusts (oldSize gen0 heapSize : p.Word) (t : Traced p.bitsPerWord (Adjusted p)) : Prop
  | kept (below : oldSize.toNat + gen0.toNat ≤ heapSize.toNat) (noWrap : t.NoWrap)
      (young : t.value.gen0.toNat = gen0.toNat) (old : t.value.gen1.toNat = oldSize.toNat)
  | overlooked (overflow : 2 ^ p.bitsPerWord ≤ oldSize.toNat + gen0.toNat) (noWrap : t.NoWrap)
      (young : t.value.gen0.toNat = gen0.toNat) (old : t.value.gen1.toNat = oldSize.toNat)
  | shrunk (above : heapSize.toNat < oldSize.toNat + gen0.toNat)
      (inside : oldSize.toNat + gen0.toNat < 2 ^ p.bitsPerWord)
      (room : oldSize.toNat < heapSize.toNat) (noWrap : t.NoWrap)
      (young : t.value.gen0.toNat = heapSize.toNat - oldSize.toNat)
      (old : t.value.gen1.toNat = oldSize.toNat)
  | exhausted (inside : oldSize.toNat + gen0.toNat < 2 ^ p.bitsPerWord)
      (whole : oldSize.toNat = heapSize.toNat) (noWrap : t.NoWrap)
      (young : t.value.gen0.toNat = gen0.toNat)
      (old : t.value.gen1.toNat = heapSize.toNat - gen0.toNat)
  | wrapped (inside : oldSize.toNat + gen0.toNat < 2 ^ p.bitsPerWord)
      (exceeds : heapSize.toNat < oldSize.toNat) (wraps : ¬t.NoWrap)

theorem adjustGen0Sizes_adjusts {oldSize gen0 heapSize : p.Word}
    (old_grained : 65536 ∣ oldSize.toNat) (gen0_grained : 65536 ∣ gen0.toNat)
    (heap_grained : 65536 ∣ heapSize.toNat)
    (room : gen0.toNat < heapSize.toNat) :
    Adjusts oldSize gen0 heapSize (adjustGen0Sizes oldSize gen0 oldSize heapSize oldSize) := by
  unfold adjustGen0Sizes
  by_cases above : oldSize + gen0 > heapSize
  · have overflow : heapSize.toNat < (oldSize + gen0).toNat := above
    have exact_sum : oldSize.toNat + gen0.toNat < 2 ^ p.bitsPerWord ∧
        heapSize.toNat < oldSize.toNat + gen0.toNat := by
      rcases sum_toNat oldSize gen0 with ⟨inside, sum⟩ | ⟨-, sum⟩ <;> omega
    obtain ⟨inside, more⟩ := exact_sum
    rw [if_pos above, if_pos (by rwa [BitVec.add_comm])]
    by_cases exceeds : heapSize.toNat < oldSize.toNat
    · refine .wrapped inside exceeds ?_
      rw [Traced.noWrap_bind, Traced.noWrap_minus]
      omega
    · have fits : oldSize ≤ heapSize := le_of_not_gt exceeds
      have rest : (heapSize - oldSize).toNat = heapSize.toNat - oldSize.toNat :=
        BitVec.toNat_sub_of_le fits
      by_cases whole : oldSize.toNat = heapSize.toNat
      · have none_left : ¬(minus heapSize oldSize).value ≥ minAlignment := by
          rw [Traced.minus_value, ge_iff_le, BitVec.le_def, rest, minAlignment_toNat]
          omega
        refine .exhausted inside whole ?_ ?_ ?_
        · rw [Traced.noWrap_bind, if_neg none_left, Traced.noWrap_bind, restOfHeap_noWrap_iff,
            Traced.noWrap_minus]
          exact ⟨le_of_not_gt exceeds, le_of_lt room, Traced.noWrap_pure _⟩
        · rw [Traced.bind_value, if_neg none_left]
          rfl
        · rw [Traced.bind_value, if_neg none_left]
          exact restOfHeap_toNat heap_grained gen0_grained room
      · have left : (minus heapSize oldSize).value ≥ minAlignment := by
          rw [Traced.minus_value, ge_iff_le, BitVec.le_def, rest, minAlignment_toNat]
          omega
        have less : oldSize.toNat < heapSize.toNat := by omega
        refine .shrunk more inside less ?_ ?_ ?_
        · rw [Traced.noWrap_bind, if_pos left, Traced.noWrap_bind, restOfHeap_noWrap_iff,
            Traced.noWrap_minus]
          exact ⟨le_of_not_gt exceeds, le_of_lt less, Traced.noWrap_pure _⟩
        · rw [Traced.bind_value, if_pos left]
          exact restOfHeap_toNat heap_grained old_grained less
        · rw [Traced.bind_value, if_pos left]
          rfl
  · have under : (oldSize + gen0).toNat ≤ heapSize.toNat := le_of_not_gt above
    rw [if_neg above]
    rcases sum_toNat oldSize gen0 with ⟨-, sum⟩ | ⟨wraps, -⟩
    · exact .kept (sum ▸ under) (Traced.noWrap_pure _) rfl rfl
    · exact .overlooked wraps (Traced.noWrap_pure _) rfl rfl

theorem adjustGen0Sizes_grained {oldSize gen0 heapSize : p.Word}
    (old_grained : 65536 ∣ oldSize.toNat) (gen0_grained : 65536 ∣ gen0.toNat) :
    65536 ∣ (adjustGen0Sizes oldSize gen0 oldSize heapSize oldSize).value.gen0.toNat ∧
      65536 ∣ (adjustGen0Sizes oldSize gen0 oldSize heapSize oldSize).value.gen1.toNat := by
  unfold adjustGen0Sizes
  split
  · split
    · rw [Traced.bind_value]
      split
      · exact ⟨restOfHeap_grained _ _, old_grained⟩
      · exact ⟨gen0_grained, restOfHeap_grained _ _⟩
    · exact ⟨gen0_grained, restOfHeap_grained _ _⟩
  · exact ⟨gen0_grained, old_grained⟩

/-! ### The sizes of both generations -/

/-- Sizes of a generation in whole grains, in order and positive. -/
structure GenSized (sizes : Sizes p) : Prop where
  minimum : 65536 ∣ sizes.minimum.toNat
  initial : 65536 ∣ sizes.initial.toNat
  maximum : 65536 ∣ sizes.maximum.toNat
  positive : 0 < sizes.minimum.toNat
  minimum_le : sizes.minimum.toNat ≤ sizes.initial.toNat
  initial_le : sizes.initial.toNat ≤ sizes.maximum.toNat

/-- Sizes of the generations that no wrapped subtraction went into and that fit the heap. -/
structure WellSized (heap : Sizes p) (sized : Traced p.bitsPerWord (SizeInfo p)) : Prop where
  noWrap : sized.NoWrap
  gen0 : GenSized sized.value.gen0
  gen1 : GenSized sized.value.gen1
  minimum_sum : sized.value.gen0.minimum.toNat + sized.value.gen1.minimum.toNat ≤
    heap.minimum.toNat
  initial_sum : sized.value.gen0.initial.toNat + sized.value.gen1.initial.toNat ≤
    heap.initial.toNat
  maximum_sum : sized.value.gen0.maximum.toNat + sized.value.gen1.maximum.toNat ≤
    heap.maximum.toNat

/-- An explicit `OldSize` that the heap and gen0 leave room for. Where its sum with a size of gen0
wraps, it is taken to fit and cut down to the maximum of gen1; from that size on the heap must then
have no more room to grow than gen0. -/
structure OldSizeFits (flags : HeapFlags p) (heap gen0 : Sizes p) : Prop where
  positive : 0 < flags.oldSize.toNat
  minimum : flags.oldSize.toNat + gen0.minimum.toNat < 2 ^ p.bitsPerWord →
    flags.oldSize.toNat ≤ heap.minimum.toNat
  minimum_wrapped : 2 ^ p.bitsPerWord ≤ flags.oldSize.toNat + gen0.minimum.toNat →
    heap.maximum.toNat + gen0.minimum.toNat ≤ heap.minimum.toNat + gen0.maximum.toNat
  initial : flags.oldSize.toNat + gen0.initial.toNat < 2 ^ p.bitsPerWord →
    flags.oldSize.toNat = heap.minimum.toNat →
    heap.initial.toNat = heap.minimum.toNat ∨
      heap.minimum.toNat + gen0.minimum.toNat ≤ heap.initial.toNat
  initial_wrapped : 2 ^ p.bitsPerWord ≤ flags.oldSize.toNat + gen0.initial.toNat →
    heap.maximum.toNat + gen0.initial.toNat ≤ heap.initial.toNat + gen0.maximum.toNat

/-- What is left to show once gen0 is sized: the two adjustments, and gen1 bounded. -/
structure Settles (heap gen0 : Sizes p) (minimum initial : Traced p.bitsPerWord (Adjusted p)) :
    Prop where
  minimum_noWrap : minimum.NoWrap
  initial_noWrap : initial.NoWrap
  young_positive : 0 < minimum.value.gen0.toNat
  young_le : minimum.value.gen0.toNat ≤ initial.value.gen0.toNat
  young_max : initial.value.gen0.toNat ≤ gen0.maximum.toNat
  old_positive : 0 < minimum.value.gen1.toNat
  minimum_sum : minimum.value.gen0.toNat +
    min minimum.value.gen1.toNat (heap.maximum.toNat - gen0.maximum.toNat) ≤ heap.minimum.toNat
  initial_sum : initial.value.gen0.toNat +
    min (max initial.value.gen1.toNat
        (min minimum.value.gen1.toNat (heap.maximum.toNat - gen0.maximum.toNat)))
      (heap.maximum.toNat - gen0.maximum.toNat) ≤ heap.initial.toNat

section
variable {minimum initial : Traced p.bitsPerWord (Adjusted p)}

theorem fits_of_settles (sized : HeapSized flags heap) (young : Gen0Sized heap gen0)
    (least : Adjusts flags.oldSize gen0.minimum heap.minimum minimum)
    (start : Adjusts flags.oldSize gen0.initial heap.initial initial)
    (settled : Settles heap gen0 minimum initial) : OldSizeFits flags heap gen0 := by
  have bound := heap.initial.isLt
  have least_room := young.minimum_room
  have most_room := young.maximum_room
  have old_positive := settled.old_positive
  constructor
  case positive =>
    cases least with
    | wrapped inside exceeds wraps => exact absurd settled.minimum_noWrap wraps
    | _ => omega
  case minimum =>
    intro inside
    cases least with
    | wrapped inside exceeds wraps => exact absurd settled.minimum_noWrap wraps
    | _ => omega
  case minimum_wrapped =>
    intro overflow
    have sum := settled.minimum_sum
    cases least <;> omega
  case initial =>
    intro inside whole
    have order := settled.young_le
    have grown := young.minimum_le
    have heap_order := sized.minimum_le
    cases least with
    | exhausted _ _ _ same _ => cases start <;> omega
    | wrapped _ _ wraps => exact absurd settled.minimum_noWrap wraps
    | _ => omega
  case initial_wrapped =>
    intro overflow
    have sum := settled.initial_sum
    cases start <;> omega

theorem settles_of_fits (sized : HeapSized flags heap) (young : Gen0Sized heap gen0)
    (least : Adjusts flags.oldSize gen0.minimum heap.minimum minimum)
    (start : Adjusts flags.oldSize gen0.initial heap.initial initial)
    (fits : OldSizeFits flags heap gen0) : Settles heap gen0 minimum initial := by
  have heap_order := sized.minimum_le
  have order := young.minimum_le
  have positive := fits.positive
  have inside_fits := fits.minimum
  have young_positive : 0 < gen0.minimum.toNat := lt_of_lt_of_le (by decide) young.positive
  have least_room := young.minimum_lt
  have start_room := young.initial_lt
  constructor
  case minimum_noWrap =>
    cases least with
    | wrapped inside exceeds wraps => omega
    | _ => assumption
  case initial_noWrap =>
    cases start with
    | wrapped inside exceeds wraps => omega
    | _ => assumption
  case young_positive => cases least <;> omega
  case young_le =>
    have cut := fits.initial
    cases least <;> cases start <;> omega
  case young_max =>
    have most := young.initial_le
    cases start <;> omega
  case old_positive => cases least <;> omega
  case minimum_sum =>
    have over_fits := fits.minimum_wrapped
    cases least <;> omega
  case initial_sum =>
    have over_fits := fits.initial_wrapped
    have grows := young.grows
    cases start with
    | kept | shrunk | exhausted => cases least <;> omega
    | overlooked overflow noWrap same old => omega
    | wrapped inside exceeds wraps => omega

/-- What is left of the heap beside gen0 always settles the sizes. -/
theorem rest_settles (sized : HeapSized flags heap) (young : Gen0Sized heap gen0) :
    Settles heap gen0
      (do let rest ← restOfHeap heap.minimum gen0.minimum; pure ⟨gen0.minimum, rest, false⟩)
      (do let rest ← restOfHeap heap.initial gen0.initial; pure ⟨gen0.initial, rest, false⟩) := by
  have least_room := young.minimum_lt
  have start_room := young.initial_lt
  have least := restOfHeap_toNat sized.minimum young.minimum least_room
  have start := restOfHeap_toNat sized.initial young.initial start_room
  have grows := young.grows
  constructor
  case minimum_noWrap => simpa [restOfHeap_noWrap_iff] using le_of_lt least_room
  case initial_noWrap => simpa [restOfHeap_noWrap_iff] using le_of_lt start_room
  case young_positive => exact lt_of_lt_of_le (by decide) young.positive
  case young_le => exact young.minimum_le
  case young_max => exact young.initial_le
  all_goals simp only [Traced.bind_value, Traced.pure_value, least, start]
  all_goals omega

/-- The sizes that two adjustments and the maximum of gen1 result in. -/
def settledSizes (gen0 : Sizes p) (maxGen1 : p.Word) (minimum initial : Adjusted p) : SizeInfo p :=
  { gen0 := ⟨minimum.gen0, initial.gen0, gen0.maximum⟩
    gen1 := ⟨min2 minimum.gen1 maxGen1,
      min2 (max2 initial.gen1 (min2 minimum.gen1 maxGen1)) maxGen1, maxGen1⟩ }

theorem gen1_sized_iff (gen0 : Sizes p) {maxGen1 : p.Word} {minimum initial : Adjusted p}
    (most : 65536 ∣ maxGen1.toNat) (positive : 0 < maxGen1.toNat)
    (least : 65536 ∣ minimum.gen1.toNat) (start : 65536 ∣ initial.gen1.toNat) :
    GenSized (settledSizes gen0 maxGen1 minimum initial).gen1 ↔ 0 < minimum.gen1.toNat := by
  have minGen1 : (settledSizes gen0 maxGen1 minimum initial).gen1.minimum.toNat =
      min minimum.gen1.toNat maxGen1.toNat := toNat_min2 _ _
  have initialGen1 : (settledSizes gen0 maxGen1 minimum initial).gen1.initial.toNat =
      min (max initial.gen1.toNat (min minimum.gen1.toNat maxGen1.toNat)) maxGen1.toNat := by
    simp only [settledSizes, toNat_min2, toNat_max2]
  constructor
  · intro sized
    have some_there := sized.positive
    omega
  · intro some_there
    constructor
    · rw [minGen1]
      exact dvd_min least most
    · rw [initialGen1]
      exact dvd_min (dvd_max start (dvd_min least most)) most
    · exact most
    · omega
    · omega
    · rw [initialGen1]
      exact min_le_right _ _

/-- The sizes are right exactly if the two adjustments settle them. -/
theorem wellSized_iff_settles (accepted : Accepted flags) (sized : HeapSized flags heap)
    (values : (gen1SizeInfo flags heap (gen0SizeInfo flags heap).value).value =
      (minimum.value, initial.value))
    (noWrap : (gen1SizeInfo flags heap (gen0SizeInfo flags heap).value).NoWrap ↔
      minimum.NoWrap ∧ initial.NoWrap)
    (least : 65536 ∣ minimum.value.gen0.toNat ∧ 65536 ∣ minimum.value.gen1.toNat)
    (start : 65536 ∣ initial.value.gen0.toNat ∧ 65536 ∣ initial.value.gen1.toNat) :
    WellSized heap (generationSizeInfo flags heap) ↔
      Settles heap (gen0SizeInfo flags heap).value minimum initial := by
  obtain ⟨young_noWrap, young⟩ := gen0SizeInfo_spec accepted sized
  have room : (gen0SizeInfo flags heap).value.maximum.toNat < heap.maximum.toNat :=
    lt_of_lt_of_le (Nat.lt_add_of_pos_right (by decide)) young.maximum_room
  have rest := restOfHeap_toNat sized.maximum young.maximum room
  have rest_grained := restOfHeap_grained heap.maximum (gen0SizeInfo flags heap).value.maximum
  have all_noWrap : (generationSizeInfo flags heap).NoWrap ↔ minimum.NoWrap ∧ initial.NoWrap := by
    simp only [generationSizeInfo, Traced.noWrap_bind, noWrap, restOfHeap_noWrap_iff,
      Traced.noWrap_pure, and_true, young_noWrap, true_and, le_of_lt room]
  have value : (generationSizeInfo flags heap).value =
      settledSizes (gen0SizeInfo flags heap).value
        (restOfHeap heap.maximum (gen0SizeInfo flags heap).value.maximum).value minimum.value
        initial.value := by
    simp only [generationSizeInfo, Traced.bind_value, values, Traced.pure_value, settledSizes]
  have old := gen1_sized_iff (gen0SizeInfo flags heap).value rest_grained
    (by omega) least.2 start.2
  constructor
  · rintro ⟨kept, young_sized, old_sized, minimum_sum, initial_sum, -⟩
    obtain ⟨minimum_noWrap, initial_noWrap⟩ := all_noWrap.mp kept
    rw [value] at young_sized old_sized minimum_sum initial_sum
    simp only [settledSizes, toNat_min2, toNat_max2, rest] at minimum_sum initial_sum
    exact ⟨minimum_noWrap, initial_noWrap, young_sized.positive, young_sized.minimum_le,
      young_sized.initial_le, old.mp old_sized, minimum_sum, initial_sum⟩
  · rintro ⟨minimum_noWrap, initial_noWrap, young_positive, young_le, young_max, old_positive,
      minimum_sum, initial_sum⟩
    refine ⟨all_noWrap.mpr ⟨minimum_noWrap, initial_noWrap⟩, ?_, ?_, ?_, ?_, ?_⟩
    all_goals rw [value]
    · exact ⟨least.1, start.1, young.maximum, young_positive, young_le, young_max⟩
    · exact old.mpr old_positive
    all_goals simp only [settledSizes, toNat_min2, toNat_max2, rest]
    · exact minimum_sum
    · exact initial_sum
    · omega

end

theorem generationSizeInfo_wellSized_iff (accepted : Accepted flags)
    (sized : HeapSized flags heap) :
    WellSized heap (generationSizeInfo flags heap) ↔
      flags.oldSizeOrigin = .default ∨ flags.oldSizeOrigin = .ergonomic ∨
        OldSizeFits flags heap (gen0SizeInfo flags heap).value := by
  obtain ⟨-, young⟩ := gen0SizeInfo_spec accepted sized
  rw [← or_assoc]
  by_cases free : flags.oldSizeOrigin = .default ∨ flags.oldSizeOrigin = .ergonomic
  · refine iff_of_true ?_ (.inl free)
    refine (wellSized_iff_settles accepted sized ?_ ?_ ?_ ?_).mpr (rest_settles sized young)
    · simp only [gen1SizeInfo, free, if_true, Traced.bind_value, Traced.pure_value]
    · simp only [gen1SizeInfo, free, if_true, Traced.noWrap_bind, Traced.noWrap_pure, and_true]
    · exact ⟨young.minimum, restOfHeap_grained _ _⟩
    · exact ⟨young.initial, restOfHeap_grained _ _⟩
  · have least_room := young.minimum_lt
    have start_room := young.initial_lt
    have least := adjustGen0Sizes_adjusts accepted.oldSize young.minimum sized.minimum least_room
    have start := adjustGen0Sizes_adjusts accepted.oldSize young.initial sized.initial start_room
    rw [or_iff_right free]
    refine (wellSized_iff_settles accepted sized ?_ ?_ ?_ ?_).trans
      ⟨fits_of_settles sized young least start, settles_of_fits sized young least start⟩
    · simp only [gen1SizeInfo, free, if_false, Traced.bind_value, Traced.pure_value]
    · simp only [gen1SizeInfo, free, if_false, Traced.noWrap_bind, Traced.noWrap_pure, and_true]
    · exact adjustGen0Sizes_grained accepted.oldSize young.minimum
    · exact adjustGen0Sizes_grained accepted.oldSize young.initial

/-- Whatever the subtractions do, gen0 is given whole grains. -/
theorem generationSizeInfo_gen0_grained (accepted : Accepted flags)
    (sized : HeapSized flags heap) :
    65536 ∣ (generationSizeInfo flags heap).value.gen0.initial.toNat ∧
      65536 ∣ (generationSizeInfo flags heap).value.gen0.maximum.toNat := by
  obtain ⟨-, young⟩ := gen0SizeInfo_spec accepted sized
  refine ⟨?_, young.maximum⟩
  change 65536 ∣ (gen1SizeInfo flags heap (gen0SizeInfo flags heap).value).value.2.gen0.toNat
  unfold gen1SizeInfo
  split
  · exact young.initial
  · exact (adjustGen0Sizes_grained accepted.oldSize young.initial).1

/-- For accepted flags the sizes are right in every respect exactly if the sizes of the heap are
accepted as well and `OldSize` is left to the virtual machine or fits. -/
theorem initializeSizeInfo_wellSized_iff (accepts : initializeFlags raw = .ok flags) :
    (∃ heap sized, initializeSizeInfo flags = .ok (heap, sized) ∧ WellSized heap sized) ↔
      ∃ heap, heapSizeInfo flags = .ok heap ∧
        (flags.oldSizeOrigin = .default ∨ flags.oldSizeOrigin = .ergonomic ∨
          OldSizeFits flags heap (gen0SizeInfo flags heap).value) := by
  have accepted := accepted_of_initializeFlags accepts
  constructor
  · rintro ⟨heap, sized, info, well⟩
    obtain ⟨found, heap_info, same⟩ := except_bind_ok info
    cases same
    exact ⟨heap, heap_info,
      (generationSizeInfo_wellSized_iff accepted (heapSized_of_info heap_info)).mp well⟩
  · rintro ⟨heap, heap_info, fits⟩
    refine ⟨heap, generationSizeInfo flags heap, ?_,
      (generationSizeInfo_wellSized_iff accepted (heapSized_of_info heap_info)).mpr fits⟩
    rw [initializeSizeInfo, heap_info]
    rfl

/-- A 64-bit machine with pages of 4 KB. -/
def lp64 : Platform := ⟨64, 21, Nat.le_add_right 32 32, by decide, by decide⟩

/-- The flags' default values on it, with heap sizes of 16 MB and at most 512 MB given. -/
private def defaultFlags : HeapFlags lp64 where
  permSize := 21757952
  newSize := 1363144
  newSizeOrigin := .default
  maxNewSize := -1
  maxNewSizeOrigin := .default
  oldSize := 5452592
  oldSizeOrigin := .default
  maxHeapSize := 536870912
  newRatio := 2
  survivorRatio := 8
  initialHeapSize := 16777216
  minHeapSize := 16777216

theorem default_sizes_fit :
    ∃ flags, initializeFlags defaultFlags = .ok flags ∧
      ∃ heap sized, initializeSizeInfo flags = .ok (heap, sized) ∧ WellSized heap sized := by
  have accepts : initializeFlags defaultFlags = .ok _ := rfl
  exact ⟨_, accepts, (initializeSizeInfo_wellSized_iff accepts).mpr ⟨_, rfl, .inl rfl⟩⟩

/-- With `-Xms16m -XX:OldSize=64m` the room for gen0 is 16 MB less 64 MB. -/
theorem large_oldSize_wraps :
    ∃ flags heap sized,
      initializeFlags { defaultFlags with oldSize := 67108864, oldSizeOrigin := .commandLine } =
        .ok flags ∧
      initializeSizeInfo flags = .ok (heap, sized) ∧ ¬sized.NoWrap ∧
      sized.value.gen0.minimum.toNat = 2 ^ 64 - 50331648 ∧
      sized.value.gen0.initial.toNat = 2 ^ 64 - 50331648 ∧
      sized.value.gen0.maximum.toNat < sized.value.gen0.initial.toNat :=
  ⟨_, _, _, rfl, rfl, by decide +kernel, by decide +kernel, by decide +kernel, by decide +kernel⟩

end GenerationSizes
