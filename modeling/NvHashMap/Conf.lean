import NvHashMap.Common
import Mathlib.Tactic.Ring

/-! # Configurations

`conf.hpp`.  A configuration holds capacities, blob sizes and the three biases.  The setters check
their arguments and throw; what they establish is kept as fields of the structure: a capacity is
a power of two in the range of `int_t`, and the biases lie in their intervals.  A
container accepts a configuration only if it is also `isValid`: after a change of the growth bias
the minimum capacity can be too small until `autoAdjust` raises it. -/

namespace Nvhm

/-- The compile-time parameters of a configuration: the kernel size `2 ^ kernelBits`, the sizes
of the platform and the larger of the sizes of a key and a value. -/
structure ConfType where
  kernelBits : ℕ
  cacheLineSize : ℕ
  pageSize : ℕ
  numBytes : ℕ
  kernelBits_le : kernelBits ≤ 62
  cacheLineSize_mem : 8 ≤ cacheLineSize ∧ cacheLineSize ≤ 2 ^ 62
  pageSize_le : pageSize ≤ 2 ^ 62

/-- `kernel_size`. -/
def ConfType.kernelSize (C : ConfType) : ℕ := 2 ^ C.kernelBits

theorem ConfType.kernelSize_pos (C : ConfType) : 0 < C.kernelSize := Nat.two_pow_pos _

/-- A power of two in the range of `int_t`. -/
def IsCapacity (n : ℕ) : Prop := ∃ a ≤ 62, n = 2 ^ a

theorem isCapacity_pow {a : ℕ} (h : a ≤ 62) : IsCapacity (2 ^ a) := ⟨a, h, rfl⟩

theorem isCapacity_ceilPow {x : ℕ} (h : x ≤ 2 ^ 62) : IsCapacity (PowTwo.ceilPow x) := by
  obtain ⟨b, hb⟩ := PowTwo.ceilPow_isPow x
  have hle : PowTwo.ceilPow x ≤ 2 ^ 62 := PowTwo.ceilPow_le h
  rw [hb] at hle ⊢
  exact isCapacity_pow ((Nat.pow_le_pow_iff_right (by decide)).mp hle)

theorem IsCapacity.max {m n : ℕ} (hm : IsCapacity m) (hn : IsCapacity n) :
    IsCapacity (max m n) := by
  rcases Nat.le_total m n with h | h
  · rwa [Nat.max_eq_right h]
  · rwa [Nat.max_eq_left h]

theorem isCapacity_bitCeil {x : ℤ} {c : ℕ} (h : bitCeil x = .ok c) : IsCapacity c := by
  obtain ⟨h0, hx, rfl⟩ := bitCeil_ok h
  exact isCapacity_ceilPow (by omega)

/-- A double of a capacity that `n << 1` accepts. -/
theorem isCapacity_shl1 {n n' : ℕ} (hcap : IsCapacity n) (h : shl1 n = .ok n') :
    IsCapacity n' ∧ n ≤ n' := by
  obtain ⟨rfl, hle⟩ := shl1_ok h
  obtain ⟨a, -, rfl⟩ := hcap
  rw [← pow_succ'] at hle ⊢
  exact ⟨isCapacity_pow ((Nat.pow_le_pow_iff_right (by decide)).mp hle),
    Nat.pow_le_pow_right (by decide) (Nat.le_succ a)⟩

/-- `min_capacity_limit`. -/
def minCapacityLimit (C : ConfType) (growBias : ℕ) : ℕ :=
  max (PowTwo.ceilPow growBias) C.kernelSize

/-- `default_capacity`. -/
def defaultCapacity (C : ConfType) (growBias : ℕ) : ℕ :=
  max (PowTwo.ceilPow (C.pageSize / min C.numBytes C.pageSize)) (minCapacityLimit C growBias)

theorem isCapacity_kernelSize (C : ConfType) : IsCapacity C.kernelSize :=
  isCapacity_pow C.kernelBits_le

theorem isCapacity_minCapacityLimit (C : ConfType) {growBias : ℕ}
    (h : growBias ≤ C.cacheLineSize) : IsCapacity (minCapacityLimit C growBias) :=
  (isCapacity_ceilPow (h.trans C.cacheLineSize_mem.2)).max (isCapacity_kernelSize C)

theorem isCapacity_defaultCapacity (C : ConfType) {growBias : ℕ}
    (h : growBias ≤ C.cacheLineSize) : IsCapacity (defaultCapacity C growBias) :=
  (isCapacity_ceilPow ((Nat.div_le_self _ _).trans C.pageSize_le)).max
    (isCapacity_minCapacityLimit C h)

/-- `conf`. -/
structure Conf (C : ConfType) where
  minCapacity : ℕ
  initCapacity : ℕ
  blobSize : ℕ
  blobStride : ℕ
  scrubBias : ℕ
  growBias : ℕ
  shrinkBias : ℕ
  min_isCapacity : IsCapacity minCapacity
  init_isCapacity : IsCapacity initCapacity
  min_le_init : minCapacity ≤ initCapacity
  blobSize_le : blobSize ≤ blobStride
  scrubBias_mem : 2 ≤ scrubBias ∧ scrubBias ≤ C.cacheLineSize
  growBias_mem : 2 ≤ growBias ∧ growBias ≤ C.cacheLineSize
  shrinkBias_mem : 3 ≤ shrinkBias ∧ shrinkBias ≤ C.cacheLineSize

namespace Conf
variable {C : ConfType}

/-- The default member initializers. -/
def default (C : ConfType) : Conf C where
  minCapacity := minCapacityLimit C 8
  initCapacity := defaultCapacity C 8
  blobSize := 0
  blobStride := 0
  scrubBias := 4
  growBias := 8
  shrinkBias := 4
  min_isCapacity := isCapacity_minCapacityLimit C C.cacheLineSize_mem.1
  init_isCapacity := isCapacity_defaultCapacity C C.cacheLineSize_mem.1
  min_le_init := Nat.le_max_right _ _
  blobSize_le := le_rfl
  scrubBias_mem := ⟨by decide, le_trans (by decide) C.cacheLineSize_mem.1⟩
  growBias_mem := ⟨by decide, C.cacheLineSize_mem.1⟩
  shrinkBias_mem := ⟨by decide, le_trans (by decide) C.cacheLineSize_mem.1⟩

/-- The stride that `set_blob` chooses for a positive size. -/
def autoStride (C : ConfType) (size : ℕ) : ℕ :=
  if size < C.cacheLineSize then PowTwo.ceilPow size
  else (ceilDiv size (C.cacheLineSize / 2 : ℕ)).toNat * (C.cacheLineSize / 2)

theorem le_autoStride (C : ConfType) (size : ℕ) : size ≤ autoStride C size := by
  unfold autoStride
  split_ifs
  · exact PowTwo.le_ceilPow size
  · have hn : 0 < C.cacheLineSize / 2 := by
      have := C.cacheLineSize_mem.1
      omega
    generalize C.cacheLineSize / 2 = n at hn
    have hcast : ((size : ℤ) + n - 1) = ((size + n - 1 : ℕ) : ℤ) := by omega
    rw [ceilDiv, hcast, ← Int.ofNat_tdiv, Int.toNat_natCast]
    have hmod := Nat.div_add_mod (size + n - 1) n
    have hlt := Nat.mod_lt (size + n - 1) hn
    rw [mul_comm] at hmod
    omega

/-- `set_blob`. -/
def setBlob (c : Conf C) (size stride : ℤ) : Except Err (Conf C) :=
  if size ≤ 0 then
    if stride ≠ 0 then .error .invalidArgument
    else .ok { c with blobSize := 0, blobStride := 0, blobSize_le := le_rfl }
  else if stride ≤ 0 then
    .ok { c with
      blobSize := size.toNat
      blobStride := autoStride C size.toNat
      blobSize_le := le_autoStride C size.toNat }
  else if h : stride < size then .error .invalidArgument
  else
    .ok { c with
      blobSize := size.toNat
      blobStride := stride.toNat
      blobSize_le := Int.toNat_le_toNat (not_lt.mp h) }

/-- `set_capacity` with two arguments. -/
def setCapacityMin (c : Conf C) (initCapacity minCapacity : ℤ) : Except Err (Conf C) :=
  match hm : bitCeil minCapacity with
  | .error e => .error e
  | .ok m =>
      match hi : bitCeil initCapacity with
      | .error e => .error e
      | .ok i =>
          .ok { c with
            minCapacity := m
            initCapacity := max i m
            min_isCapacity := isCapacity_bitCeil hm
            init_isCapacity := (isCapacity_bitCeil hi).max (isCapacity_bitCeil hm)
            min_le_init := Nat.le_max_right _ _ }

/-- `set_capacity` with one argument. -/
def setCapacity (c : Conf C) (initCapacity : ℤ) : Except Err (Conf C) :=
  c.setCapacityMin initCapacity (minCapacityLimit C c.growBias)

/-- `set_grow_bias`. -/
def setGrowBias (c : Conf C) (growBias : ℤ) : Except Err (Conf C) :=
  if h : growBias < 2 ∨ (C.cacheLineSize : ℤ) < growBias then .error .invalidArgument
  else .ok { c with growBias := growBias.toNat, growBias_mem := by omega }

/-- `set_scrub_bias`. -/
def setScrubBias (c : Conf C) (scrubBias : ℤ) : Except Err (Conf C) :=
  if h : scrubBias < 2 ∨ (C.cacheLineSize : ℤ) < scrubBias then .error .invalidArgument
  else .ok { c with scrubBias := scrubBias.toNat, scrubBias_mem := by omega }

/-- `set_shrink_bias`. -/
def setShrinkBias (c : Conf C) (shrinkBias : ℤ) : Except Err (Conf C) :=
  if h : shrinkBias < 3 ∨ (C.cacheLineSize : ℤ) < shrinkBias then .error .invalidArgument
  else .ok { c with shrinkBias := shrinkBias.toNat, shrinkBias_mem := by omega }

/-- `is_valid`. -/
def isValid (c : Conf C) : Bool := decide (minCapacityLimit C c.growBias ≤ c.minCapacity)

/-- `auto_adjust`. -/
def autoAdjust (c : Conf C) : Conf C :=
  let minCapacity := max c.minCapacity (minCapacityLimit C c.growBias)
  { c with
    minCapacity := minCapacity
    initCapacity := max c.initCapacity minCapacity
    min_isCapacity := c.min_isCapacity.max (isCapacity_minCapacityLimit C c.growBias_mem.2)
    init_isCapacity := c.init_isCapacity.max
      (c.min_isCapacity.max (isCapacity_minCapacityLimit C c.growBias_mem.2))
    min_le_init := Nat.le_max_right _ _ }

/-- `should_grow_precalc`. -/
def shouldGrowPrecalc (numEmpty growThreshold : ℤ) : Bool := decide (numEmpty ≤ growThreshold)

/-- `should_scrub`. -/
def shouldScrub (c : Conf C) (capacity : ℕ) (numTombstone : ℤ) : Bool :=
  decide ((capacity : ℤ) ≤ numTombstone * c.scrubBias)

/-- `should_shrink`. -/
def shouldShrink (c : Conf C) (capacity : ℕ) (numEmpty numTombstone : ℤ) : Bool :=
  let size := (capacity : ℤ) - (numEmpty + numTombstone)
  decide (c.minCapacity < capacity) && decide (size * c.shrinkBias ≤ capacity)

/-- `grow_threshold`. -/
def growThreshold (c : Conf C) (capacity : ℕ) : ℕ := max capacity c.minCapacity / c.growBias

/-! ### Valid configurations -/

/-- `auto_adjust` makes a configuration valid. -/
theorem isValid_autoAdjust (c : Conf C) : c.autoAdjust.isValid = true :=
  decide_eq_true (Nat.le_max_right _ _)

theorem isValid_default : (Conf.default C).isValid = true := decide_eq_true le_rfl

section Valid
variable {c : Conf C} (h : c.isValid = true)
include h

theorem kernelSize_le : C.kernelSize ≤ c.minCapacity :=
  le_trans (Nat.le_max_right _ _) (of_decide_eq_true h)

theorem growBias_le : c.growBias ≤ c.minCapacity :=
  le_trans (PowTwo.le_ceilPow _) (le_trans (Nat.le_max_left _ _) (of_decide_eq_true h))

/-- The growth threshold of any capacity is positive. -/
theorem growThreshold_pos (n : ℕ) : 0 < c.growThreshold n :=
  Nat.div_pos ((growBias_le h).trans (Nat.le_max_right _ _))
    (lt_of_lt_of_le (by decide) c.growBias_mem.1)

end Valid

/-- The growth threshold of a table of at least the minimum capacity is at most half of it. -/
theorem two_mul_growThreshold (c : Conf C) {n : ℕ} (hn : c.minCapacity ≤ n) :
    2 * c.growThreshold n ≤ n := by
  have h2 := c.growBias_mem.1
  have hmul : c.growBias * (n / c.growBias) ≤ n := Nat.mul_div_le n c.growBias
  have hle : 2 * (n / c.growBias) ≤ c.growBias * (n / c.growBias) := Nat.mul_le_mul_right _ h2
  rw [growThreshold, Nat.max_eq_left hn]
  omega

end Conf

end Nvhm
