import NvHashMap.Lib.Simd

/-! # Vector instructions of x86

The intrinsics on registers of 128, 256 and 512 bits, by their documented lanes.  An intrinsic that
exists for several widths is one function; `movemask`, `movepi8_mask` and the masked comparisons give
a word with a bit per byte. -/

namespace X86

open Lanes Simd

variable {W w : ℕ}

/-! ### Constants and conversions -/

/-- `_mm_set1_epi8`. -/
def set1Epi8 (W : ℕ) (x : BitVec 8) : BitVec W := ofLanes 8 W fun _ => x

/-- `_mm_set1_epi16`. -/
def set1Epi16 (W : ℕ) (x : BitVec 16) : BitVec W := ofLanes 16 W fun _ => x

/-- `_mm_set1_epi32`. -/
def set1Epi32 (W : ℕ) (x : BitVec 32) : BitVec W := ofLanes 32 W fun _ => x

/-- `_mm_set1_epi64x`. -/
def set1Epi64x (W : ℕ) (x : BitVec 64) : BitVec W := ofLanes 64 W fun _ => x

/-- `_mm_cvtsi128_si64`. -/
def cvtsi128Si64 (a : BitVec W) : BitVec 64 := a.setWidth 64

/-- `_mm_cvtsi128_si32`, `_mm256_cvtsi256_si32` and `_mm512_cvtsi512_si32`. -/
def cvtsi128Si32 (a : BitVec W) : BitVec 32 := a.setWidth 32

/-- `_mm_cvtsi64_si128`. -/
def cvtsi64Si128 (x : BitVec 64) : BitVec 128 := x.setWidth 128

/-- `_mm_insert_epi64`. -/
def insertEpi64 (a : BitVec 128) (x : BitVec 64) (i : ℕ) : BitVec 128 :=
  ofLanes 64 128 fun j => if j = i then x else laneOf 64 a j

/-- `_mm256_castsi256_si128` and `_mm512_castsi512_si256`. -/
def castLow (W' : ℕ) (a : BitVec W) : BitVec W' := a.setWidth W'

/-- `_mm256_extracti128_si256` and `_mm512_extracti64x4_epi64`. -/
def extracti (W' : ℕ) (a : BitVec W) (i : ℕ) : BitVec W' := laneOf W' a i

/-- `_mm256_cvtepi8_epi64`. -/
def cvtepi8Epi64 (a : BitVec 128) : BitVec 256 :=
  ofLanes 64 256 fun j => (lane a j).signExtend 64

/-! ### Bytes -/

/-- `_mm_cmpeq_epi8`. -/
def cmpeqEpi8 (a b : BitVec W) : BitVec W := map₂ (fun x y => if x = y then 0xff#8 else 0#8) a b

/-- `_mm_cmpgt_epi8`, signed. -/
def cmpgtEpi8 (a b : BitVec W) : BitVec W :=
  map₂ (fun x y => if y.toInt < x.toInt then 0xff#8 else 0#8) a b

/-- `_mm_cmplt_epi8`, signed. -/
def cmpltEpi8 (a b : BitVec W) : BitVec W :=
  map₂ (fun x y => if x.toInt < y.toInt then 0xff#8 else 0#8) a b

/-- `_mm_sign_epi8`: `a` is negated where `b` is negative, and zero where `b` is. -/
def signEpi8 (a b : BitVec W) : BitVec W :=
  map₂ (fun x y => if y.toInt < 0 then -x else if y = 0#8 then 0#8 else x) a b

/-- `_mm_min_epi8`. -/
def minEpi8 (a b : BitVec W) : BitVec W := map₂ minS a b

/-- `_mm_min_epu8`. -/
def minEpu8 (a b : BitVec W) : BitVec W := map₂ minU a b

/-- `_mm_add_epi8`. -/
def addEpi8 (a b : BitVec W) : BitVec W := map₂ (· + ·) a b

/-- `_mm_andnot_si128`. -/
def andnot (a b : BitVec W) : BitVec W := ~~~a &&& b

/-- `_mm_blendv_epi8`. -/
def blendvEpi8 (a b m : BitVec W) : BitVec W :=
  ofLanes 8 W fun i => if (lane m i).msb then lane b i else lane a i

/-! ### Masks -/

/-- `_mm_movemask_epi8`. -/
def movemaskEpi8 (w : ℕ) (a : BitVec W) : BitVec w := bitMask w (W / 8) fun i => (lane a i).msb

/-- `_mm_movepi8_mask`. -/
def movepi8Mask (w : ℕ) (a : BitVec W) : BitVec w := bitMask w (W / 8) fun i => (lane a i).msb

/-- `_mm_cmpeq_epi8_mask`. -/
def cmpeqEpi8Mask (w : ℕ) (a b : BitVec W) : BitVec w :=
  bitMask w (W / 8) fun i => lane a i == lane b i

/-- `_mm_cmpneq_epi8_mask`. -/
def cmpneqEpi8Mask (w : ℕ) (a b : BitVec W) : BitVec w :=
  bitMask w (W / 8) fun i => lane a i != lane b i

/-- `_mm_cmplt_epu8_mask`. -/
def cmpltEpu8Mask (w : ℕ) (a b : BitVec W) : BitVec w :=
  bitMask w (W / 8) fun i => decide ((lane a i).toNat < (lane b i).toNat)

/-- `_mm_mask_set1_epi8`. -/
def maskSet1Epi8 (src : BitVec W) (k : BitVec w) (x : BitVec 8) : BitVec W :=
  ofLanes 8 W fun i => if k.getLsbD i then x else lane src i

/-- `_mm_mask_add_epi8`. -/
def maskAddEpi8 (src : BitVec W) (k : BitVec w) (a b : BitVec W) : BitVec W :=
  ofLanes 8 W fun i => if k.getLsbD i then lane a i + lane b i else lane src i

/-! ### Shifts and permutations -/

/-- `_mm_srli_si128`, by bytes. -/
def srliSi128 (a : BitVec 128) (n : ℕ) : BitVec 128 := a >>> (8 * n)

/-- `_mm_srli_epi64`. -/
def srliEpi64 (a : BitVec W) (n : ℕ) : BitVec W := ofLanes 64 W fun j => laneOf 64 a j >>> n

/-- `_mm_srli_epi32`. -/
def srliEpi32 (a : BitVec W) (n : ℕ) : BitVec W := ofLanes 32 W fun j => laneOf 32 a j >>> n

/-- `_mm_unpacklo_epi8`: within every 128 bits. -/
def unpackloEpi8 (a b : BitVec W) : BitVec W :=
  ofLanes 8 W fun i => lane (if i % 2 = 0 then a else b) (i / 16 * 16 + i % 16 / 2)

/-- `_mm_unpacklo_epi64`. -/
def unpackloEpi64 (a b : BitVec 128) : BitVec 128 :=
  ofLanes 64 128 fun j => laneOf 64 (if j = 0 then a else b) 0

/-- `_mm_shuffle_epi8`. -/
def shuffleEpi8 (a b : BitVec 128) : BitVec 128 :=
  ofLanes 8 128 fun i => if (lane b i).msb then 0#8 else lane a ((lane b i).toNat % 16)

/-- `_mm_permutexvar_epi8`. -/
def permutexvarEpi8 (idx a : BitVec W) : BitVec W :=
  ofLanes 8 W fun i => lane a ((lane idx i).toNat % (W / 8))

/-- `_mm512_permutexvar_epi32`, and `_mm256_permutevar8x32_epi32` with its arguments swapped. -/
def permutexvarEpi32 (idx a : BitVec W) : BitVec W :=
  ofLanes 32 W fun j => laneOf 32 a ((laneOf 32 idx j).toNat % (W / 32))

/-- `_MM_SHUFFLE`. -/
def mmShuffle (z y x w : BitVec 8) : BitVec 8 := z <<< 6 ||| y <<< 4 ||| x <<< 2 ||| w

/-- `_mm256_permute4x64_epi64`. -/
def permute4x64Epi64 (a : BitVec 256) (imm : BitVec 8) : BitVec 256 :=
  ofLanes 64 256 fun j => laneOf 64 a ((imm >>> (2 * j)).toNat % 4)

/-- `_mm_broadcastb_epi8`. -/
def broadcastbEpi8 (W : ℕ) (a : BitVec 128) : BitVec W := ofLanes 8 W fun _ => lane a 0

/-- `_mm_minpos_epu16`: the least lane and its index. -/
def minposEpu16 (a : BitVec 128) : BitVec 128 :=
  let m := reduce minU 8 (laneOf 16 a)
  ofLanes 16 128 fun j =>
    if j = 0 then m
    else if j = 1 then BitVec.ofNat 16 ((List.range 8).findIdx fun i => laneOf 16 a i == m)
    else 0#16

/-! ### The bytes of the results -/

section Lanes
variable (a b : BitVec W) {i : ℕ} (hi : 8 * (i + 1) ≤ W)
include hi

theorem lane_set1Epi8 (x : BitVec 8) : lane (set1Epi8 W x) i = x := lane_ofLanes_eight _ hi

theorem lane_set1Epi16 (x : BitVec 16) : lane (set1Epi16 W x) i = lane x (i % 2) :=
  lane_ofLanes (b := 2) _ hi

theorem lane_set1Epi32 (x : BitVec 32) : lane (set1Epi32 W x) i = lane x (i % 4) :=
  lane_ofLanes (b := 4) _ hi

theorem lane_set1Epi64x (x : BitVec 64) : lane (set1Epi64x W x) i = lane x (i % 8) :=
  lane_ofLanes (b := 8) _ hi

theorem lane_cmpeqEpi8 : lane (cmpeqEpi8 a b) i = if lane a i = lane b i then 0xff#8 else 0#8 :=
  lane_map₂ _ a b hi

theorem lane_cmpgtEpi8 : lane (cmpgtEpi8 a b) i =
    if (lane b i).toInt < (lane a i).toInt then 0xff#8 else 0#8 := lane_map₂ _ a b hi

theorem lane_cmpltEpi8 : lane (cmpltEpi8 a b) i =
    if (lane a i).toInt < (lane b i).toInt then 0xff#8 else 0#8 := lane_map₂ _ a b hi

theorem lane_signEpi8 : lane (signEpi8 a b) i =
    if (lane b i).toInt < 0 then -lane a i else if lane b i = 0#8 then 0#8 else lane a i :=
  lane_map₂ _ a b hi

theorem lane_minEpi8 : lane (minEpi8 a b) i = minS (lane a i) (lane b i) := lane_map₂ _ a b hi

theorem lane_minEpu8 : lane (minEpu8 a b) i = minU (lane a i) (lane b i) := lane_map₂ _ a b hi

theorem lane_addEpi8 : lane (addEpi8 a b) i = lane a i + lane b i := lane_map₂ _ a b hi

theorem lane_blendvEpi8 (m : BitVec W) : lane (blendvEpi8 a b m) i =
    if (lane m i).msb then lane b i else lane a i := lane_ofLanes_eight _ hi

theorem lane_maskSet1Epi8 (k : BitVec w) (x : BitVec 8) : lane (maskSet1Epi8 a k x) i =
    if k.getLsbD i then x else lane a i := lane_ofLanes_eight _ hi

theorem lane_maskAddEpi8 (k : BitVec w) (c : BitVec W) : lane (maskAddEpi8 c k a b) i =
    if k.getLsbD i then lane a i + lane b i else lane c i := lane_ofLanes_eight _ hi

theorem lane_unpackloEpi8 : lane (unpackloEpi8 a a) i = lane a (i / 16 * 16 + i % 16 / 2) := by
  rw [unpackloEpi8, lane_ofLanes_eight _ hi, ite_self]

theorem lane_permutexvarEpi8 : lane (permutexvarEpi8 a b) i =
    lane b ((lane a i).toNat % (W / 8)) := lane_ofLanes_eight _ hi

theorem lane_broadcastbEpi8 (c : BitVec 128) : lane (broadcastbEpi8 W c) i = lane c 0 :=
  lane_ofLanes_eight _ hi

/-- A shift by one within wider lanes, without the bits of the bytes above. -/
theorem lane_halve_wide {n : ℕ} (hn : 0 < n) : lane (ofLanes (8 * n) W fun j =>
    laneOf (8 * n) a j >>> 1) i &&& 0x7f#8 = lane a i >>> 1 := by
  rw [lane_ofLanes _ hi, lane_halve, lane_laneOf a (i / n) (Nat.mod_lt i hn), Nat.div_add_mod]

theorem lane_srliEpi64 : lane (srliEpi64 a 1) i &&& 0x7f#8 = lane a i >>> 1 :=
  lane_halve_wide a hi (n := 8) (by decide)

theorem lane_srliEpi32 : lane (srliEpi32 a 1) i &&& 0x7f#8 = lane a i >>> 1 :=
  lane_halve_wide a hi (n := 4) (by decide)

end Lanes

/-! ### Parts of a register -/

theorem lane_castLow {W' : ℕ} (a : BitVec W) {i : ℕ} (hi : 8 * (i + 1) ≤ W') :
    lane (castLow W' a) i = lane a i := lane_setWidth a hi

theorem setWidth_cvtsi128Si64 (a : BitVec W) : (cvtsi128Si64 a).setWidth 8 = lane a 0 := by
  rw [cvtsi128Si64, BitVec.setWidth_setWidth_of_le _ (by decide), ← setWidth_ushiftRight]
  rfl

theorem setWidth_cvtsi128Si32 (a : BitVec W) : (cvtsi128Si32 a).setWidth 8 = lane a 0 := by
  rw [cvtsi128Si32, BitVec.setWidth_setWidth_of_le _ (by decide), ← setWidth_ushiftRight]
  rfl

theorem lane_extracti {n : ℕ} (a : BitVec W) (j : ℕ) {i : ℕ} (hi : i < n) :
    lane (extracti (8 * n) a j) i = lane a (n * j + i) := lane_laneOf a j hi

theorem lane_srliSi128 (a : BitVec 128) (n i : ℕ) : lane (srliSi128 a n) i = lane a (n + i) := by
  refine BitVec.eq_of_getLsbD_eq fun j hj => ?_
  rw [srliSi128, getLsbD_lane, getLsbD_lane, BitVec.getLsbD_ushiftRight, Nat.mul_add, Nat.add_assoc]

theorem lane_shuffleEpi8 (a b : BitVec 128) {i : ℕ} (hi : i < 16) : lane (shuffleEpi8 a b) i =
    if (lane b i).msb then 0#8 else lane a ((lane b i).toNat % 16) :=
  lane_ofLanes_eight _ (by omega)

/-- The bytes of two 64-bit halves. -/
theorem lane_halves (f : ℕ → BitVec 64) {i : ℕ} (hi : i < 16) :
    lane (ofLanes 64 128 f) i = lane (f (i / 8)) (i % 8) :=
  lane_ofLanes (b := 8) f (by omega)

theorem lane_permute4x64Epi64 (a : BitVec 256) (imm : BitVec 8) {i : ℕ} (hi : i < 32) :
    lane (permute4x64Epi64 a imm) i = lane a (8 * ((imm >>> (2 * (i / 8))).toNat % 4) + i % 8) := by
  have hword : lane (permute4x64Epi64 a imm) i =
      lane (laneOf 64 a ((imm >>> (2 * (i / 8))).toNat % 4)) (i % 8) :=
    lane_ofLanes (b := 8) _ (by omega)
  rw [hword]
  exact lane_laneOf (b := 8) a _ (Nat.mod_lt i (by decide))

/-- The lane of 32 bits that holds a byte. -/
theorem lane_permutexvarEpi32 (a : BitVec W) (x : BitVec 32) {i : ℕ} (hi : 32 * (i / 4 + 1) ≤ W) :
    lane (permutexvarEpi32 (set1Epi32 W x) a) i = lane a (4 * (x.toNat % (W / 32)) + i % 4) := by
  have hword : lane (permutexvarEpi32 (set1Epi32 W x) a) i =
      lane (laneOf 32 a ((laneOf 32 (set1Epi32 W x) (i / 4)).toNat % (W / 32))) (i % 4) :=
    lane_ofLanes (b := 4) _ (by omega)
  rw [hword, set1Epi32, laneOf_ofLanes _ hi]
  exact lane_laneOf (b := 4) a _ (Nat.mod_lt i (by decide))

theorem lane_cvtepi8Epi64 (a : BitVec 128) {i : ℕ} (hi : i < 32) :
    lane (cvtepi8Epi64 a) i = lane ((lane a (i / 8)).signExtend 64) (i % 8) :=
  lane_ofLanes (b := 8) _ (by omega)

theorem lane_insertEpi64 (a : BitVec 128) (x : BitVec 64) {i : ℕ} (hi : i < 16) :
    lane (insertEpi64 a x 1) i = if i < 8 then lane a i else lane x (i % 8) := by
  rw [insertEpi64, lane_halves _ hi]
  split_ifs with h1 h2 h2
  · omega
  · rfl
  · rw [show laneOf 64 a = laneOf (8 * 8) a from rfl, lane_laneOf _ _ (Nat.mod_lt i (by decide)),
      Nat.div_add_mod]
  · omega

theorem lane_unpackloEpi64 (a b : BitVec 128) {i : ℕ} (hi : i < 16) :
    lane (unpackloEpi64 a b) i = lane (if i < 8 then a else b) (i % 8) := by
  have hhalf : i / 8 = 0 ↔ i < 8 := by omega
  rw [unpackloEpi64, lane_halves _ hi, show laneOf 64 (if i / 8 = 0 then a else b) 0 =
    laneOf (8 * 8) _ 0 from rfl, lane_laneOf _ _ (Nat.mod_lt i (by decide)), Nat.mul_zero, Nat.zero_add]
  simp only [hhalf]

/-- The least of sixteen bytes, as the least of eight pairs. -/
theorem isMin_minpos (s : BitVec 128) : IsMin (lane s) (· < 16)
    (lane (minposEpu16 (minEpu8 s (srliSi128 s 1) &&& set1Epi16 128 0xff#16)) 0) := by
  have hpair : ∀ j < 8, laneOf 16 (minEpu8 s (srliSi128 s 1) &&& set1Epi16 128 0xff#16) j =
      (minU (lane s (2 * j)) (lane s (1 + 2 * j))).setWidth 16 := by
    intro j hj
    have hlow : ∀ x : BitVec 8, x &&& lane (0xff#16) 0 = x := by decide
    have hhigh : ∀ x : BitVec 8, x &&& lane (0xff#16) 1 = 0 := by decide
    refine ext_lane (n := 2) (by decide) fun r hr => ?_
    rw [show laneOf 16 _ j = laneOf (8 * 2) _ j from rfl, lane_laneOf _ j hr, lane_and,
      lane_minEpu8 _ _ (by omega), lane_srliSi128, lane_set1Epi16 (by omega)]
    obtain rfl | rfl : r = 0 ∨ r = 1 := by omega
    · rw [Nat.add_zero, Nat.mul_mod_right, hlow, lane_setWidth _ (by decide)]
      exact (lane_eight _).symm
    · rw [Nat.mul_add_mod, hhigh, lane_setWidth _ (by decide), lane_of_ge _ (by decide)]
  have hmin : IsMin (fun j => minU (lane s (2 * j)) (lane s (1 + 2 * j))) (· < 8)
      (lane (minposEpu16 (minEpu8 s (srliSi128 s 1) &&& set1Epi16 128 0xff#16)) 0) := by
    obtain ⟨⟨j, hj, heq⟩, hle⟩ := isMin_reduce (by decide : 0 < 8)
      (laneOf 16 (minEpu8 s (srliSi128 s 1) &&& set1Epi16 128 0xff#16))
    have hlane : ∀ f : ℕ → BitVec 16, lane (ofLanes 16 128 f) 0 = lane (f 0) 0 :=
      fun f => lane_ofLanes (b := 2) f (by decide)
    have hres : lane (minposEpu16 (minEpu8 s (srliSi128 s 1) &&& set1Epi16 128 0xff#16)) 0 =
        minU (lane s (2 * j)) (lane s (1 + 2 * j)) := by
      unfold minposEpu16
      rw [hlane, if_pos rfl, heq, hpair j hj, lane_setWidth _ (by decide), lane_eight]
    have hwide : ∀ x : BitVec 8, (x.setWidth 16).toNat = x.toNat := by decide
    refine ⟨⟨j, hj, hres⟩, fun i hi => ?_⟩
    have hi' := hle i hi
    rwa [heq, hpair j hj, hpair i hi, hwide, hwide, ← hres] at hi'
  refine (hmin.groups fun j _ =>
    (isMin_single (lane s) (2 * j)).min (isMin_single (lane s) (1 + 2 * j))).congr fun i => ?_
  constructor
  · rintro ⟨j, hj, hi⟩
    omega
  · exact fun hi => ⟨i / 2, by omega, by omega⟩

/-- The least byte of a register, from the least bytes of its two halves. -/
theorem isMin_halves {n : ℕ} (x : BitVec W) {a : BitVec 8}
    (h : IsMin (lane (minEpu8 (castLow (8 * n) x) (extracti (8 * n) x 1))) (· < n) a) :
    IsMin (lane x) (· < 2 * n) a := by
  refine (h.groups (s := fun j i => i = j ∨ i = n * 1 + j) fun j hj => ?_).congr fun i => ?_
  · have hj' : 8 * (j + 1) ≤ 8 * n := by omega
    rw [lane_minEpu8 _ _ hj', lane_castLow _ hj', lane_extracti _ _ hj]
    exact (isMin_single (lane x) j).min (isMin_single (lane x) (n * 1 + j))
  · constructor
    · rintro ⟨j, hj, rfl | rfl⟩
      · omega
      · omega
    · intro hi
      by_cases hlt : i < n
      · exact ⟨i, hlt, Or.inl rfl⟩
      · exact ⟨i - n, by omega, Or.inr (by omega)⟩

end X86
