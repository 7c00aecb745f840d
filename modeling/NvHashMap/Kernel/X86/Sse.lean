import NvHashMap.Kernel.X86.Parts

/-! # The SSE kernel

`sse_kernel` of `kernel.hpp`: 16 slots, a register of 128 bits and masks of 32 bits.  Below SSE 4
there is no `_mm_blendv_epi8` and no `_mm_minpos_epu16`, below SSE 3 no `_mm_sign_epi8` and no
`_mm_shuffle_epi8`; with the AVX-512 extensions the comparisons give masks. -/

namespace Nvhm

open Lanes Simd X86 X86Kernel

namespace SseKernel

/-! ### Definitions -/

section Definitions
variable (t : Target)

def fullMask : BitVec 32 := (maskType 32).full 16

def maskNotHash (k : BitVec 128) : BitVec 32 :=
  if t.bwvl then movepi8Mask 32 k else movemaskEpi8 32 k

def maskHash (k : BitVec 128) : BitVec 32 := maskNotHash t k ^^^ fullMask

def maskEqual (k0 k1 : BitVec 128) : BitVec 32 :=
  if t.bwvl then cmpeqEpi8Mask 32 k0 k1 else maskNotHash t (cmpeqEpi8 k0 k1)

def maskNotEqual (k0 k1 : BitVec 128) : BitVec 32 :=
  if t.bwvl then cmpneqEpi8Mask 32 k0 k1 else maskHash t (cmpeqEpi8 k0 k1)

def maskEmpty (k : BitVec 128) : BitVec 32 :=
  if t.bwvl then maskEqual t k (set1Epi8 128 empty)
  else
    let k := if 3 ≤ t.sse then signEpi8 k k else cmpeqEpi8 k (set1Epi8 128 empty)
    maskNotHash t k

def maskNotEmpty (k : BitVec 128) : BitVec 32 :=
  if t.bwvl then maskNotEqual t k (set1Epi8 128 empty)
  else
    let k := if 3 ≤ t.sse then signEpi8 k k else cmpeqEpi8 k (set1Epi8 128 empty)
    maskHash t k

/-- The mask that `count_equal` counts. -/
def countMask (k0 k1 : BitVec 128) : BitVec 32 :=
  if t.gcc then maskNotHash t (cmpeqEpi8 k0 k1) else maskEqual t k0 k1

def hashToTombstone (k : BitVec 128) : BitVec 128 :=
  let x := set1Epi8 128 tombstone
  if 4 ≤ t.sse then minEpi8 k x else addEpi8 (cmpltEpi8 k x) x

def blendvEpi8 (a b m : BitVec 128) : BitVec 128 :=
  if 4 ≤ t.sse then X86.blendvEpi8 a b m
  else
    let a := andnot m a
    let b := m &&& b
    a ||| b

def toEmpty (k : BitVec 128) (m : BitVec 32) : BitVec 128 :=
  if t.bwvl then maskSet1Epi8 k (m.setWidth 16) empty
  else
    let mx := set1Epi32 128 m
    let mx := unpackloEpi8 mx mx
    let mx := unpackloEpi8 mx mx
    let mx := unpackloEpi8 mx mx
    let mx := mx &&& set1Epi64x 128 0x8040201008040201
    let mx := cmpeqEpi8 mx 0
    blendvEpi8 t (set1Epi8 128 empty) k mx

/-- `at`. -/
def stateAt (k : BitVec 128) (i : ℕ) : BitVec 8 :=
  let s : BitVec 64 :=
    if t.vbmi then cvtsi128Si64 (permutexvarEpi8 (set1Epi8 128 (BitVec.ofNat 8 i)) k)
    else if 3 ≤ t.sse then cvtsi128Si64 (shuffleEpi8 k (set1Epi8 128 (BitVec.ofNat 8 i)))
    else
      let k0 := cvtsi128Si64 k
      let k8 := cvtsi128Si64 (srliSi128 k 8)
      (if i < 8 then k0 else k8).sshiftRight (i % 8 * 8)
  s.setWidth 8

def minReduceEpu8 (l : BitVec 128) : BitVec 128 :=
  let s := minEpu8 l (srliSi128 l 1)
  if 4 ≤ t.sse then
    let s := s &&& set1Epi16 128 0xff
    minposEpu16 s
  else
    let s := minEpu8 s (srliSi128 s 2)
    let s := minEpu8 s (srliSi128 s 4)
    minEpu8 s (srliSi128 s 8)

/-- The least counter in all bytes, in `min_lru`. -/
def broadcast (s : BitVec 128) : BitVec 128 :=
  if 3 ≤ t.sse then shuffleEpi8 s 0 else set1Epi8 128 ((cvtsi128Si32 s).setWidth 8)

/-- The least counter in all bytes, in `mask_min_lru`. -/
def maskBroadcast (s : BitVec 128) : BitVec 128 :=
  if 2 ≤ t.avx then broadcastbEpi8 128 s
  else if 3 ≤ t.sse then shuffleEpi8 s 0
  else set1Epi8 128 ((cvtsi128Si32 s).setWidth 8)

def maskLruBelow (l : BitVec 128) (x : Lru) : BitVec 32 :=
  let tx := set1Epi8 128 x
  if t.bwvl then cmpltEpu8Mask 32 l tx else maskNotHash t (cmpltEpu8 l tx)

/-- The rescaling in `update_lru`. -/
def halve (l : BitVec 128) : BitVec 128 := srliEpi64 l 1 &&& set1Epi8 128 0x7f

/-- The increment in `update_lru`. -/
def increment (l : BitVec 128) (n : BitVec 32) : BitVec 128 :=
  if t.bwvl then maskAddEpi8 l (n.setWidth 16) l (set1Epi8 128 1)
  else
    let i := (maskType 32).next n
    let incLo := (BitVec.ofBool (decide (i < 8))).setWidth 64
    let incHi := (BitVec.ofBool (decide (8 ≤ i))).setWidth 64
    let i := i % 8 * 8
    let incLo := incLo <<< i
    let incHi := incHi <<< i
    let inc := cvtsi64Si128 incLo
    let inc :=
      if 4 ≤ t.sse then insertEpi64 inc incHi 1 else unpackloEpi64 inc (cvtsi64Si128 incHi)
    addEpi8 l inc

def toEmptyIfLruBelow (k l : BitVec 128) (x : Lru) : BitVec 128 :=
  let l := cmpltEpu8 l (set1Epi8 128 x)
  blendvEpi8 t k (set1Epi8 128 0x80) l

def parts : Parts 128 32 where
  maskHash := maskHash t
  maskNotHash := maskNotHash t
  maskEmpty := maskEmpty t
  maskNotEmpty := maskNotEmpty t
  maskEqual := maskEqual t
  maskNotEqual := maskNotEqual t
  countMask := countMask t
  hashToTombstone := hashToTombstone t
  toEmpty := toEmpty t
  stateAt := stateAt t
  minReduce := minReduceEpu8 t
  broadcast := broadcast t
  maskBroadcast := maskBroadcast t
  maskLruBelow := maskLruBelow t
  halve := halve
  increment := increment t
  toEmptyIfLruBelow := toEmptyIfLruBelow t

end Definitions

/-! ### Masks -/

section Masks
variable (t : Target) (x y : BitVec 128)

theorem le_bits {i : ℕ} (hi : i < 16) : 8 * (i + 1) ≤ 128 := by omega

theorem bits_msb : Bits 16 (maskNotHash t x) fun i => (lane x i).msb := by
  unfold maskNotHash
  split_ifs
  · exact bits_movepi8 rfl (by decide) x
  · exact bits_movemask rfl (by decide) x

theorem bits_maskNotHash : Bits 16 (maskNotHash t x) fun i => !isHash (lane x i) :=
  (bits_msb t x).congr fun _ _ => msb_eq _

theorem bits_fullMask : Bits 16 fullMask fun _ => true := by
  intro j
  have hK : (maskType 32).IsRepr 16 := ⟨Or.inl rfl, by decide, by decide⟩
  unfold fullMask
  refine (MaskType.getLsbD_full hK j).trans ?_
  simp [MaskType.bit, MaskType.bitsPerSlot, maskType]

theorem bits_not_msb : Bits 16 (maskHash t x) fun i => !(lane x i).msb :=
  (bits_msb t x).xor_full bits_fullMask

theorem bits_maskHash : Bits 16 (maskHash t x) fun i => isHash (lane x i) :=
  (bits_not_msb t x).congr fun i _ => by rw [msb_eq, Bool.not_not]

theorem bits_maskEqual : Bits 16 (maskEqual t x y) fun i => lane x i == lane y i := by
  unfold maskEqual
  split_ifs
  · exact bits_cmpeq rfl (by decide) x y
  · exact (bits_msb t _).congr fun i hi => msb_lane_cmpeq x y (le_bits hi)

theorem bits_maskNotEqual : Bits 16 (maskNotEqual t x y) fun i => lane x i != lane y i := by
  unfold maskNotEqual
  split_ifs
  · exact bits_cmpneq rfl (by decide) x y
  · exact (bits_not_msb t _).congr fun i hi => congrArg _ (msb_lane_cmpeq x y (le_bits hi))

/-- The bytes whose highest bit tells which slots are empty. -/
theorem msb_empty (hx : ∀ i < 16, validState (lane x i) = true) {i : ℕ} (hi : i < 16) :
    (lane (if 3 ≤ t.sse then signEpi8 x x else cmpeqEpi8 x (set1Epi8 128 empty)) i).msb =
      (lane x i == empty) := by
  by_cases hs : 3 ≤ t.sse
  · rw [if_pos hs, lane_signEpi8 x x (le_bits hi)]
    exact msb_sign _ (hx i hi)
  · rw [if_neg hs, msb_lane_cmpeq x _ (le_bits hi), lane_set1Epi8 (le_bits hi)]

theorem bits_maskEmpty (hx : ∀ i < 16, validState (lane x i) = true) :
    Bits 16 (maskEmpty t x) fun i => lane x i == empty := by
  unfold maskEmpty
  by_cases hb : t.bwvl = true
  · rw [if_pos hb]
    exact (bits_maskEqual t x _).congr fun i hi => by rw [lane_set1Epi8 (le_bits hi)]
  · rw [if_neg hb]
    exact (bits_msb t _).congr fun i hi => msb_empty t x hx hi

theorem bits_maskNotEmpty (hx : ∀ i < 16, validState (lane x i) = true) :
    Bits 16 (maskNotEmpty t x) fun i => lane x i != empty := by
  unfold maskNotEmpty
  by_cases hb : t.bwvl = true
  · rw [if_pos hb]
    exact (bits_maskNotEqual t x _).congr fun i hi => by rw [lane_set1Epi8 (le_bits hi)]
  · rw [if_neg hb]
    exact (bits_not_msb t _).congr fun i hi => congrArg _ (msb_empty t x hx hi)

theorem bits_countMask : Bits 16 (countMask t x y) fun i => lane x i == lane y i := by
  unfold countMask
  split_ifs
  · exact (bits_msb t _).congr fun i hi => msb_lane_cmpeq x y (le_bits hi)
  · exact bits_maskEqual t x y

theorem bits_maskLruBelow (v : Lru) :
    Bits 16 (maskLruBelow t x v) fun i => decide ((lane x i).toNat < v.toNat) := by
  unfold maskLruBelow
  by_cases hb : t.bwvl = true
  · rw [if_pos hb]
    exact bits_cmplt rfl (by decide) x v
  · rw [if_neg hb]
    exact (bits_msb t _).congr fun i hi => msb_cmpltEpu8 x v (le_bits hi)

end Masks

/-! ### States -/

section States
variable (t : Target) (x y : BitVec 128) {i : ℕ} (hi : i < 16)
include hi

theorem lane_hashToTombstone (hx : validState (lane x i) = true) :
    lane (hashToTombstone t x) i = if isHash (lane x i) then tombstone else lane x i := by
  have hadd : ∀ s : State, validState s = true →
      (if s.toInt < tombstone.toInt then 0xff#8 else 0#8) + tombstone =
        if isHash s then tombstone else s := by decide
  unfold hashToTombstone
  dsimp only
  by_cases hs : 4 ≤ t.sse
  · rw [if_pos hs, lane_minEpi8 _ _ (le_bits hi), lane_set1Epi8 (le_bits hi)]
    exact minS_tombstone _ hx
  · rw [if_neg hs, lane_addEpi8 _ _ (le_bits hi), lane_cmpltEpi8 _ _ (le_bits hi),
      lane_set1Epi8 (le_bits hi)]
    exact hadd _ hx

/-- A byte of `a` or of `b`, by a byte whose bits are all the same. -/
theorem lane_blendv (m : BitVec 128) {p : Prop} [Decidable p]
    (hm : lane m i = if p then 0xff else 0) :
    lane (blendvEpi8 t x y m) i = if p then lane y i else lane x i := by
  have hone : ∀ a b : BitVec 8, ~~~0xff#8 &&& a ||| 0xff#8 &&& b = b := by
    intro a b
    rw [show ~~~0xff#8 = 0#8 from rfl, BitVec.zero_and, BitVec.zero_or]
    exact BitVec.allOnes_and
  have hzero : ∀ a b : BitVec 8, ~~~0#8 &&& a ||| 0#8 &&& b = a := by
    intro a b
    rw [BitVec.zero_and, BitVec.or_zero]
    exact BitVec.allOnes_and
  unfold blendvEpi8
  by_cases hs : 4 ≤ t.sse
  · rw [if_pos hs]
    exact X86Kernel.lane_blendv x y m (le_bits hi) hm
  · rw [if_neg hs]
    dsimp only
    rw [andnot, lane_or, lane_and, lane_and, lane_not _ (le_bits hi), hm]
    by_cases hp : p
    · rw [if_pos hp, if_pos hp]
      exact hone _ _
    · rw [if_neg hp, if_neg hp]
      exact hzero _ _

theorem lane_toEmpty (m : BitVec 32) :
    lane (toEmpty t x m) i = if m.getLsbD i then empty else lane x i := by
  unfold toEmpty
  by_cases hb : t.bwvl = true
  · rw [if_pos hb, lane_maskSet1Epi8 _ (le_bits hi), BitVec.getLsbD_setWidth, decide_eq_true hi,
      Bool.true_and]
  · rw [if_neg hb]
    dsimp only
    have hle : ∀ j < 16, j / 16 * 16 + j % 16 / 2 < 16 := by decide
    have hidx : ∀ j < 16, ((j / 16 * 16 + j % 16 / 2) / 16 * 16 +
        (j / 16 * 16 + j % 16 / 2) % 16 / 2) / 16 * 16 +
        ((j / 16 * 16 + j % 16 / 2) / 16 * 16 + (j / 16 * 16 + j % 16 / 2) % 16 / 2) % 16 / 2 =
          j / 8 := by decide
    have hexpand := lane_expand m (unpackloEpi8 (unpackloEpi8 (unpackloEpi8 (set1Epi32 128 m)
      (set1Epi32 128 m)) (unpackloEpi8 (set1Epi32 128 m) (set1Epi32 128 m)))
      (unpackloEpi8 (unpackloEpi8 (set1Epi32 128 m) (set1Epi32 128 m))
        (unpackloEpi8 (set1Epi32 128 m) (set1Epi32 128 m)))) (le_bits hi) (by
      rw [lane_unpackloEpi8 _ (le_bits hi), lane_unpackloEpi8 _ (le_bits (hle i hi)),
        lane_unpackloEpi8 _ (le_bits (hle _ (hle i hi))),
        lane_set1Epi32 (le_bits (hle _ (hle _ (hle i hi)))), hidx i hi,
        Nat.mod_eq_of_lt (by omega)])
    rw [lane_blendv t _ x hi _ (p := ¬ m.getLsbD i = true) (hexpand.trans (ite_not _ _ _).symm),
      ite_not, lane_set1Epi8 (le_bits hi)]

theorem stateAt_eq : stateAt t x i = lane x i := by
  have hidx : ∀ j < 16, (BitVec.ofNat 8 j).msb = false ∧ (BitVec.ofNat 8 j).toNat % 16 = j := by
    decide
  obtain ⟨hmsb, hmod⟩ := hidx i hi
  unfold stateAt
  dsimp only
  by_cases hv : t.vbmi = true
  · rw [if_pos hv, setWidth_cvtsi128Si64, lane_permutexvarEpi8 _ _ (by decide),
      lane_set1Epi8 (by decide), hmod]
  rw [if_neg hv]
  by_cases hs : 3 ≤ t.sse
  · rw [if_pos hs, setWidth_cvtsi128Si64, lane_shuffleEpi8 _ _ (by decide),
      lane_set1Epi8 (by decide), hmsb, hmod, if_neg Bool.false_ne_true]
  rw [if_neg hs, setWidth_sshiftRight _ (by omega)]
  split_ifs with hlo
  · rw [cvtsi128Si64, lane_setWidth _ (by omega), Nat.mod_eq_of_lt hlo]
  · rw [cvtsi128Si64, lane_setWidth _ (by omega), lane_srliSi128, show 8 + i % 8 = i by omega]

theorem lane_toEmptyIfLruBelow (l : BitVec 128) (v : Lru) :
    lane (toEmptyIfLruBelow t x l v) i =
      if (lane l i).toNat < v.toNat then empty else lane x i := by
  unfold toEmptyIfLruBelow
  dsimp only
  rw [lane_blendv t _ _ hi _ (lane_cmpltEpu8 l v (le_bits hi)), lane_set1Epi8 (le_bits hi)]
  rfl

end States

/-! ### LRU counters -/

section Lru
variable (t : Target) (l s : BitVec 128)

/-- After every step a byte holds the least counter of a run of slots. -/
theorem isMin_minReduce : IsMin (lane l) (· < 16) (lane (minReduceEpu8 t l) 0) := by
  unfold minReduceEpu8
  dsimp only
  split_ifs
  · exact isMin_minpos l
  · -- the runs have 2, 4, 8 and 16 slots
    have hstep : ∀ (x : BitVec 128) (n : ℕ), 0 < n →
        (∀ i, i + n ≤ 16 → IsMin (lane l) (fun j => i ≤ j ∧ j < i + n) (lane x i)) →
        ∀ i, i + (n + n) ≤ 16 → IsMin (lane l) (fun j => i ≤ j ∧ j < i + (n + n))
          (lane (minEpu8 x (srliSi128 x n)) i) := by
      intro x n hn hx i hi
      rw [lane_minEpu8 _ _ (le_bits (by omega)), lane_srliSi128]
      refine ((hx i (by omega)).min (hx (n + i) (by omega))).congr fun j => ?_
      omega
    have h1 : ∀ i, i + 1 ≤ 16 → IsMin (lane l) (fun j => i ≤ j ∧ j < i + 1) (lane l i) :=
      fun i _ => (isMin_single (lane l) i).congr fun j => by omega
    have h16 := hstep _ 8 (by decide) (hstep _ 4 (by decide) (hstep _ 2 (by decide)
      (hstep _ 1 (by decide) h1))) 0 le_rfl
    exact h16.congr fun j => by omega

theorem lane_shuffle_zero {i : ℕ} (hi : i < 16) : lane (shuffleEpi8 s 0) i = lane s 0 := by
  rw [lane_shuffleEpi8 _ _ hi, lane_zero]
  rfl

theorem lane_broadcast {i : ℕ} (hi : i < 16) : lane (broadcast t s) i = lane s 0 := by
  unfold broadcast
  split_ifs
  · exact lane_shuffle_zero s hi
  · rw [lane_set1Epi8 (le_bits hi), setWidth_cvtsi128Si32]

theorem lane_maskBroadcast {i : ℕ} (hi : i < 16) : lane (maskBroadcast t s) i = lane s 0 := by
  unfold maskBroadcast
  split_ifs
  · exact lane_broadcastbEpi8 (le_bits hi) s
  · exact lane_shuffle_zero s hi
  · rw [lane_set1Epi8 (le_bits hi), setWidth_cvtsi128Si32]

theorem lane_halve {i : ℕ} (hi : i < 16) : lane (halve l) i = lane l i >>> 1 := by
  unfold halve
  rw [lane_and, lane_set1Epi8 (le_bits hi)]
  exact lane_srliEpi64 l (le_bits hi)

theorem lane_increment {n : ℕ} (hn : n < 16) {i : ℕ} (hi : i < 16) :
    lane (increment t l (single 32 n)) i = lane l i + if i = n then 1 else 0 := by
  have hnext : (maskType 32).next (single 32 n) = n :=
    MaskType.next_single _ (by decide : 16 * (maskType 32).bitsPerSlot ≤ 32) hn
  have hword : ∀ b : Bool, ∀ k < 8, ∀ j < 8, lane ((BitVec.ofBool b).setWidth 64 <<< (k * 8)) j =
      if b = true ∧ j = k then 1 else 0 := by decide
  unfold increment
  by_cases hb : t.bwvl = true
  · rw [if_pos hb]
    refine lane_maskAdd l _ (le_bits hi) ?_
    rw [BitVec.getLsbD_setWidth, decide_eq_true hi, Bool.true_and, getLsbD_single (by omega)]
  · rw [if_neg hb, hnext]
    dsimp only
    rw [lane_addEpi8 _ _ (le_bits hi)]
    congr 1
    -- the two words of the register
    have hlanes : ∀ lo hi' : BitVec 64, lane (if 4 ≤ t.sse then insertEpi64 (cvtsi64Si128 lo) hi' 1
        else unpackloEpi64 (cvtsi64Si128 lo) (cvtsi64Si128 hi')) i =
          if i < 8 then lane lo i else lane hi' (i % 8) := by
      intro lo hi'
      by_cases hs : 4 ≤ t.sse
      · rw [if_pos hs, lane_insertEpi64 _ _ hi, cvtsi64Si128, lane_setWidth _ (by omega)]
      · rw [if_neg hs, lane_unpackloEpi64 _ _ hi]
        split_ifs with hlo
        · rw [cvtsi64Si128, lane_setWidth _ (by omega), Nat.mod_eq_of_lt hlo]
        · rw [cvtsi64Si128, lane_setWidth _ (by omega)]
    have hmod : ∀ k, k % 8 < 8 := fun k => Nat.mod_lt k (by decide)
    rw [hlanes]
    by_cases hlo : i < 8
    · rw [if_pos hlo, hword _ _ (hmod n) _ hlo]
      refine if_congr ?_ rfl rfl
      rw [decide_eq_true_iff]
      omega
    · rw [if_neg hlo, hword _ _ (hmod n) _ (hmod i)]
      refine if_congr ?_ rfl rfl
      rw [decide_eq_true_iff]
      omega

end Lru

/-- Every part is correct, whatever the target. -/
theorem correct (t : Target) : (parts t).Correct 16 where
  maskHash := bits_maskHash t
  maskNotHash := bits_maskNotHash t
  maskEmpty := bits_maskEmpty t
  maskNotEmpty := bits_maskNotEmpty t
  maskEqual := bits_maskEqual t
  maskNotEqual := bits_maskNotEqual t
  countMask := bits_countMask t
  hashToTombstone x _ hi hx := lane_hashToTombstone t x hi hx
  toEmpty x m _ hi := lane_toEmpty t x hi m
  stateAt x _ hi := stateAt_eq t x hi
  minReduce l := isMin_minReduce t l
  broadcast s _ hi := lane_broadcast t s hi
  maskBroadcast s _ hi := lane_maskBroadcast t s hi
  maskLruBelow := bits_maskLruBelow t
  halve l _ hi := lane_halve l hi
  increment l _ hn _ hi := lane_increment t l hn hi
  toEmptyIfLruBelow x l v _ hi := lane_toEmptyIfLruBelow t x hi l v

end SseKernel

end Nvhm
