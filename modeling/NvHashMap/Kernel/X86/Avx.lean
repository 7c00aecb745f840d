import NvHashMap.Kernel.X86.Parts

/-! # The AVX2 kernel

`avx_kernel` of `kernel.hpp`: 32 slots, a register of 256 bits and masks of 32 bits.  Its variants
differ in the AVX-512 extensions only. -/

namespace Nvhm

open Lanes Simd X86 X86Kernel

namespace AvxKernel

/-! ### Definitions -/

section Definitions
variable (t : Target)

def maskNotHash (k : BitVec 256) : BitVec 32 :=
  if t.bwvl then movepi8Mask 32 k else movemaskEpi8 32 k

def maskHash (k : BitVec 256) : BitVec 32 := ~~~maskNotHash t k

def maskEmpty (k : BitVec 256) : BitVec 32 := maskNotHash t (signEpi8 k k)

def maskNotEmpty (k : BitVec 256) : BitVec 32 := maskHash t (signEpi8 k k)

def maskEqual (k0 k1 : BitVec 256) : BitVec 32 :=
  if t.bwvl then cmpeqEpi8Mask 32 k0 k1 else maskNotHash t (cmpeqEpi8 k0 k1)

def maskNotEqual (k0 k1 : BitVec 256) : BitVec 32 :=
  if t.bwvl then cmpneqEpi8Mask 32 k0 k1 else maskHash t (cmpeqEpi8 k0 k1)

def hashToTombstone (k : BitVec 256) : BitVec 256 := minEpi8 k (set1Epi8 256 tombstone)

def toEmpty (k : BitVec 256) (m : BitVec 32) : BitVec 256 :=
  if t.bwvl then maskSet1Epi8 k m empty
  else
    let mx := set1Epi32 256 m
    let mx := unpackloEpi8 mx mx
    let mx := unpackloEpi8 mx mx
    let mx := permute4x64Epi64 mx (mmShuffle 1 1 0 0)
    let mx := unpackloEpi8 mx mx
    let mx := mx &&& set1Epi64x 256 0x8040201008040201
    let mx := cmpeqEpi8 mx 0
    blendvEpi8 (set1Epi8 256 empty) k mx

/-- `at`. -/
def stateAt (k : BitVec 256) (i : ℕ) : BitVec 8 :=
  let s : BitVec 32 :=
    if t.vbmi then cvtsi128Si32 (permutexvarEpi8 (set1Epi8 256 (BitVec.ofNat 8 i)) k)
    else
      (cvtsi128Si32 (permutexvarEpi32 (set1Epi32 256 (BitVec.ofNat 32 (i / 4))) k)).sshiftRight
        (i % 4 * 8)
  s.setWidth 8

def minReduceEpu8 (l : BitVec 256) : BitVec 128 :=
  let s := minEpu8 (castLow 128 l) (extracti 128 l 1)
  let s := minEpu8 s (srliSi128 s 1)
  let s := s &&& set1Epi16 128 0xff
  minposEpu16 s

def maskLruBelow (l : BitVec 256) (x : Lru) : BitVec 32 :=
  let tx := set1Epi8 256 x
  if t.bwvl then cmpltEpu8Mask 32 l tx else movemaskEpi8 32 (cmpltEpu8 l tx)

/-- The rescaling in `update_lru`. -/
def halve (l : BitVec 256) : BitVec 256 := srliEpi32 l 1 &&& set1Epi8 256 0x7f

/-- The increment in `update_lru`. -/
def increment (l : BitVec 256) (n : BitVec 32) : BitVec 256 :=
  if t.bwvl then maskAddEpi8 l n l (set1Epi8 256 1)
  else
    let i := (maskType 32).next n
    let maj := cvtsi64Si128 (0xff#64 <<< (i / 8 * 8))
    let min := set1Epi64x 256 (0x01#64 <<< (i % 8 * 8))
    addEpi8 l (cvtepi8Epi64 maj &&& min)

def toEmptyIfLruBelow (k l : BitVec 256) (x : Lru) : BitVec 256 :=
  let l := cmpltEpu8 l (set1Epi8 256 x)
  blendvEpi8 k (set1Epi8 256 0x80) l

def parts : Parts 256 32 where
  maskHash := maskHash t
  maskNotHash := maskNotHash t
  maskEmpty := maskEmpty t
  maskNotEmpty := maskNotEmpty t
  maskEqual := maskEqual t
  maskNotEqual := maskNotEqual t
  countMask := maskEqual t
  hashToTombstone := hashToTombstone
  toEmpty := toEmpty t
  stateAt := stateAt t
  minReduce := minReduceEpu8
  broadcast := broadcastbEpi8 256
  maskBroadcast := broadcastbEpi8 256
  maskLruBelow := maskLruBelow t
  halve := halve
  increment := increment t
  toEmptyIfLruBelow := toEmptyIfLruBelow

end Definitions

/-! ### Masks -/

section Masks
variable (t : Target) (x y : BitVec 256)

theorem le_bits {i : ℕ} (hi : i < 32) : 8 * (i + 1) ≤ 256 := by omega

theorem bits_msb : Bits 32 (maskNotHash t x) fun i => (lane x i).msb := by
  unfold maskNotHash
  split_ifs
  · exact bits_movepi8 rfl le_rfl x
  · exact bits_movemask rfl le_rfl x

theorem bits_maskNotHash : Bits 32 (maskNotHash t x) fun i => !isHash (lane x i) :=
  (bits_msb t x).congr fun _ _ => msb_eq _

theorem bits_maskHash : Bits 32 (maskHash t x) fun i => isHash (lane x i) :=
  (bits_msb t x).not.congr fun i _ => by rw [msb_eq, Bool.not_not]

theorem msb_empty (hx : ∀ i < 32, validState (lane x i) = true) {i : ℕ} (hi : i < 32) :
    (lane (signEpi8 x x) i).msb = (lane x i == empty) := by
  rw [lane_signEpi8 x x (le_bits hi)]
  exact msb_sign _ (hx i hi)

theorem bits_maskEmpty (hx : ∀ i < 32, validState (lane x i) = true) :
    Bits 32 (maskEmpty t x) fun i => lane x i == empty :=
  (bits_msb t _).congr fun _ hi => msb_empty x hx hi

theorem bits_maskNotEmpty (hx : ∀ i < 32, validState (lane x i) = true) :
    Bits 32 (maskNotEmpty t x) fun i => lane x i != empty :=
  (bits_msb t _).not.congr fun _ hi => congrArg _ (msb_empty x hx hi)

theorem bits_maskEqual : Bits 32 (maskEqual t x y) fun i => lane x i == lane y i := by
  unfold maskEqual
  split_ifs
  · exact bits_cmpeq rfl le_rfl x y
  · exact (bits_msb t _).congr fun i hi => msb_lane_cmpeq x y (le_bits hi)

theorem bits_maskNotEqual : Bits 32 (maskNotEqual t x y) fun i => lane x i != lane y i := by
  unfold maskNotEqual
  split_ifs
  · exact bits_cmpneq rfl le_rfl x y
  · exact (bits_msb t _).not.congr fun i hi => congrArg _ (msb_lane_cmpeq x y (le_bits hi))

theorem bits_maskLruBelow (v : Lru) :
    Bits 32 (maskLruBelow t x v) fun i => decide ((lane x i).toNat < v.toNat) := by
  unfold maskLruBelow
  by_cases hb : t.bwvl = true
  · rw [if_pos hb]
    exact bits_cmplt rfl le_rfl x v
  · rw [if_neg hb]
    exact (bits_movemask rfl le_rfl _).congr fun i hi => msb_cmpltEpu8 x v (le_bits hi)

end Masks

/-! ### States -/

section States
variable (t : Target) (x y : BitVec 256) {i : ℕ} (hi : i < 32)
include hi

theorem lane_hashToTombstone (hx : validState (lane x i) = true) :
    lane (hashToTombstone x) i = if isHash (lane x i) then tombstone else lane x i := by
  unfold hashToTombstone
  rw [lane_minEpi8 _ _ (le_bits hi), lane_set1Epi8 (le_bits hi)]
  exact minS_tombstone _ hx

/-- Every byte of the expanded mask holds the bits of its slot. -/
theorem lane_spread (m : BitVec 32) : lane (unpackloEpi8 (permute4x64Epi64
    (unpackloEpi8 (unpackloEpi8 (set1Epi32 256 m) (set1Epi32 256 m))
      (unpackloEpi8 (set1Epi32 256 m) (set1Epi32 256 m))) (mmShuffle 1 1 0 0))
    (permute4x64Epi64 (unpackloEpi8 (unpackloEpi8 (set1Epi32 256 m) (set1Epi32 256 m))
      (unpackloEpi8 (set1Epi32 256 m) (set1Epi32 256 m))) (mmShuffle 1 1 0 0))) i =
        lane m (i / 8) := by
  have hle : ∀ j < 32, j / 16 * 16 + j % 16 / 2 < 32 := by decide
  have hword : ∀ j < 32, 8 * ((mmShuffle 1 1 0 0 >>> (2 * (j / 8))).toNat % 4) + j % 8 < 32 := by
    decide
  have hidx : ∀ i < 32,
      let j := i / 16 * 16 + i % 16 / 2
      let j := 8 * ((mmShuffle 1 1 0 0 >>> (2 * (j / 8))).toNat % 4) + j % 8
      let j := j / 16 * 16 + j % 16 / 2
      let j := j / 16 * 16 + j % 16 / 2
      j % 4 = i / 8 := by decide
  have h1 := hle i hi
  have h2 := hword _ h1
  have h3 := hle _ h2
  have h4 := hle _ h3
  rw [lane_unpackloEpi8 _ (le_bits hi), lane_permute4x64Epi64 _ _ h1,
    lane_unpackloEpi8 _ (le_bits h2), lane_unpackloEpi8 _ (le_bits h3),
    lane_set1Epi32 (le_bits h4), hidx i hi]

theorem lane_toEmpty (m : BitVec 32) :
    lane (toEmpty t x m) i = if m.getLsbD i then empty else lane x i := by
  unfold toEmpty
  by_cases hb : t.bwvl = true
  · rw [if_pos hb, lane_maskSet1Epi8 _ (le_bits hi)]
  · rw [if_neg hb]
    dsimp only
    have hexpand := lane_expand m _ (le_bits hi) (lane_spread hi m)
    rw [lane_blendv _ x _ (le_bits hi) (p := ¬ m.getLsbD i = true) (hexpand.trans (ite_not _ _ _).symm),
      ite_not, lane_set1Epi8 (le_bits hi)]

theorem stateAt_eq : stateAt t x i = lane x i := by
  have hidx : ∀ j < 32, (BitVec.ofNat 8 j).toNat % 32 = j ∧
      (BitVec.ofNat 32 (j / 4)).toNat % 8 = j / 4 := by decide
  obtain ⟨hmod, hmod'⟩ := hidx i hi
  unfold stateAt
  dsimp only
  by_cases hv : t.vbmi = true
  · rw [if_pos hv, setWidth_cvtsi128Si32, lane_permutexvarEpi8 _ _ (by decide),
      lane_set1Epi8 (by decide), hmod]
  · rw [if_neg hv, setWidth_sshiftRight _ (by omega), cvtsi128Si32, lane_setWidth _ (by omega),
      lane_permutexvarEpi32 _ _ (by omega), hmod', Nat.mod_mod, Nat.div_add_mod]

theorem lane_toEmptyIfLruBelow (l : BitVec 256) (v : Lru) :
    lane (toEmptyIfLruBelow x l v) i = if (lane l i).toNat < v.toNat then empty else lane x i := by
  unfold toEmptyIfLruBelow
  dsimp only
  rw [lane_blendv _ _ _ (le_bits hi) (lane_cmpltEpu8 l v (le_bits hi)), lane_set1Epi8 (le_bits hi)]
  rfl

end States

/-! ### LRU counters -/

section Lru
variable (t : Target) (l : BitVec 256)

theorem isMin_minReduce : IsMin (lane l) (· < 32) (lane (minReduceEpu8 l) 0) :=
  isMin_halves (n := 16) l (isMin_minpos _)

theorem lane_halve {i : ℕ} (hi : i < 32) : lane (halve l) i = lane l i >>> 1 := by
  unfold halve
  rw [lane_and, lane_set1Epi8 (le_bits hi)]
  exact lane_srliEpi32 l (le_bits hi)

theorem lane_increment {n : ℕ} (hn : n < 32) {i : ℕ} (hi : i < 32) :
    lane (increment t l (single 32 n)) i = lane l i + if i = n then 1 else 0 := by
  have hnext : (maskType 32).next (single 32 n) = n :=
    MaskType.next_single _ (by decide : 32 * (maskType 32).bitsPerSlot ≤ 32) hn
  have hmaj : ∀ k < 4, ∀ j < 4, lane (0xff#64 <<< (k * 8)) j = if j = k then 0xff else 0 := by decide
  have hmin : ∀ k < 8, ∀ j < 8, lane (0x01#64 <<< (k * 8)) j = if j = k then 1 else 0 := by decide
  unfold increment
  by_cases hb : t.bwvl = true
  · rw [if_pos hb]
    exact lane_maskAdd l _ (le_bits hi) (getLsbD_single hn i)
  · rw [if_neg hb, hnext]
    dsimp only
    rw [lane_addEpi8 _ _ (le_bits hi), lane_and, lane_cvtepi8Epi64 _ hi, cvtsi64Si128,
      lane_setWidth _ (by omega), hmaj _ (by omega) _ (by omega), lane_set1Epi64x (le_bits hi),
      hmin _ (by omega) _ (by omega)]
    congr 1
    have hsign : lane ((if i / 8 = n / 8 then 0xff#8 else 0#8).signExtend 64) (i % 8) =
        if i / 8 = n / 8 then 0xff else 0 := by
      have hbyte : ∀ j < 8, lane (BitVec.signExtend 64 0xff#8) j = 0xff ∧
          lane (BitVec.signExtend 64 0#8) j = 0 := by decide
      obtain ⟨h1, h0⟩ := hbyte (i % 8) (Nat.mod_lt i (by decide))
      split_ifs
      · exact h1
      · exact h0
    refine (congrArg (· &&& _) hsign).trans ?_
    by_cases heq : i = n
    · rw [if_pos (by omega), if_pos (by omega), if_pos heq]
      rfl
    · rw [if_neg heq]
      by_cases hdiv : i / 8 = n / 8
      · rw [if_neg (by omega : ¬ i % 8 = n % 8)]
        exact BitVec.and_zero
      · rw [if_neg hdiv]
        exact BitVec.zero_and

end Lru

/-- Every part is correct, whatever the target. -/
theorem correct (t : Target) : (parts t).Correct 32 where
  maskHash := bits_maskHash t
  maskNotHash := bits_maskNotHash t
  maskEmpty := bits_maskEmpty t
  maskNotEmpty := bits_maskNotEmpty t
  maskEqual := bits_maskEqual t
  maskNotEqual := bits_maskNotEqual t
  countMask := bits_maskEqual t
  hashToTombstone x _ hi hx := lane_hashToTombstone x hi hx
  toEmpty x m _ hi := lane_toEmpty t x hi m
  stateAt x _ hi := stateAt_eq t x hi
  minReduce := isMin_minReduce
  broadcast s _ hi := lane_broadcastbEpi8 (le_bits hi) s
  maskBroadcast s _ hi := lane_broadcastbEpi8 (le_bits hi) s
  maskLruBelow := bits_maskLruBelow t
  halve l _ hi := lane_halve l hi
  increment l _ hn _ hi := lane_increment t l hn hi
  toEmptyIfLruBelow x l v _ hi := lane_toEmptyIfLruBelow x hi l v

end AvxKernel

end Nvhm
