import NvHashMap.Kernel.X86.Sse
import NvHashMap.Kernel.X86.Avx

/-! # The AVX-512 kernel

`avx512_kernel` of `kernel.hpp`: 64 slots, a register of 512 bits and masks of 64 bits.  Its variants
differ in `at` only.  The main result is `x86_agree`: the three kernels agree with the array kernels of
the same size, for every target. -/

namespace Nvhm

open Lanes Simd X86 X86Kernel

namespace Avx512Kernel

/-! ### Definitions -/

section Definitions
variable (t : Target)

def maskNotHash (k : BitVec 512) : BitVec 64 := movepi8Mask 64 k

def maskHash (k : BitVec 512) : BitVec 64 := ~~~maskNotHash k

def maskEqual (k0 k1 : BitVec 512) : BitVec 64 := cmpeqEpi8Mask 64 k0 k1

def maskNotEqual (k0 k1 : BitVec 512) : BitVec 64 := cmpneqEpi8Mask 64 k0 k1

def maskEmpty (k : BitVec 512) : BitVec 64 := maskEqual k (set1Epi8 512 empty)

def maskNotEmpty (k : BitVec 512) : BitVec 64 := maskNotEqual k (set1Epi8 512 empty)

def hashToTombstone (k : BitVec 512) : BitVec 512 := minEpi8 k (set1Epi8 512 tombstone)

def toEmpty (k : BitVec 512) (m : BitVec 64) : BitVec 512 := maskSet1Epi8 k m empty

/-- `at`. -/
def stateAt (k : BitVec 512) (i : ℕ) : BitVec 8 :=
  let s : BitVec 32 :=
    if t.vbmi then cvtsi128Si32 (permutexvarEpi8 (set1Epi8 512 (BitVec.ofNat 8 i)) k)
    else
      (cvtsi128Si32 (permutexvarEpi32 (set1Epi32 512 (BitVec.ofNat 32 (i / 4))) k)).sshiftRight
        (i % 4 * 8)
  s.setWidth 8

def minReduceEpu8 (l : BitVec 512) : BitVec 128 :=
  let ss := minEpu8 (castLow 256 l) (extracti 256 l 1)
  let s := minEpu8 (castLow 128 ss) (extracti 128 ss 1)
  let s := minEpu8 s (srliSi128 s 1)
  let s := s &&& set1Epi16 128 0xff
  minposEpu16 s

def maskLruBelow (l : BitVec 512) (x : Lru) : BitVec 64 := cmpltEpu8Mask 64 l (set1Epi8 512 x)

/-- The rescaling in `update_lru`. -/
def halve (l : BitVec 512) : BitVec 512 := srliEpi32 l 1 &&& set1Epi8 512 0x7f

/-- The increment in `update_lru`. -/
def increment (l : BitVec 512) (n : BitVec 64) : BitVec 512 := maskAddEpi8 l n l (set1Epi8 512 1)

def toEmptyIfLruBelow (k l : BitVec 512) (x : Lru) : BitVec 512 := toEmpty k (maskLruBelow l x)

def parts : Parts 512 64 where
  maskHash := maskHash
  maskNotHash := maskNotHash
  maskEmpty := maskEmpty
  maskNotEmpty := maskNotEmpty
  maskEqual := maskEqual
  maskNotEqual := maskNotEqual
  countMask := maskEqual
  hashToTombstone := hashToTombstone
  toEmpty := toEmpty
  stateAt := stateAt t
  minReduce := minReduceEpu8
  broadcast := broadcastbEpi8 512
  maskBroadcast := broadcastbEpi8 512
  maskLruBelow := maskLruBelow
  halve := halve
  increment := increment
  toEmptyIfLruBelow := toEmptyIfLruBelow

end Definitions

/-! ### The parts are correct -/

section Correct
variable (t : Target) (x y : BitVec 512)

theorem le_bits {i : ℕ} (hi : i < 64) : 8 * (i + 1) ≤ 512 := by omega

theorem bits_msb : Bits 64 (maskNotHash x) fun i => (lane x i).msb :=
  bits_movepi8 rfl le_rfl x

theorem bits_maskNotHash : Bits 64 (maskNotHash x) fun i => !isHash (lane x i) :=
  (bits_msb x).congr fun _ _ => msb_eq _

theorem bits_maskHash : Bits 64 (maskHash x) fun i => isHash (lane x i) :=
  (bits_msb x).not.congr fun i _ => by rw [msb_eq, Bool.not_not]

theorem bits_maskEqual : Bits 64 (maskEqual x y) fun i => lane x i == lane y i :=
  bits_cmpeq rfl le_rfl x y

theorem bits_maskNotEqual : Bits 64 (maskNotEqual x y) fun i => lane x i != lane y i :=
  bits_cmpneq rfl le_rfl x y

theorem bits_maskEmpty : Bits 64 (maskEmpty x) fun i => lane x i == empty :=
  (bits_maskEqual x _).congr fun i hi => by rw [lane_set1Epi8 (le_bits hi)]

theorem bits_maskNotEmpty : Bits 64 (maskNotEmpty x) fun i => lane x i != empty :=
  (bits_maskNotEqual x _).congr fun i hi => by rw [lane_set1Epi8 (le_bits hi)]

theorem bits_maskLruBelow (v : Lru) :
    Bits 64 (maskLruBelow x v) fun i => decide ((lane x i).toNat < v.toNat) :=
  bits_cmplt rfl le_rfl x v

theorem isMin_minReduce : IsMin (lane x) (· < 64) (lane (minReduceEpu8 x) 0) :=
  isMin_halves (n := 32) x (isMin_halves (n := 16) _ (isMin_minpos _))

variable {i : ℕ} (hi : i < 64)
include hi

theorem lane_hashToTombstone (hx : validState (lane x i) = true) :
    lane (hashToTombstone x) i = if isHash (lane x i) then tombstone else lane x i := by
  unfold hashToTombstone
  rw [lane_minEpi8 _ _ (le_bits hi), lane_set1Epi8 (le_bits hi)]
  exact minS_tombstone _ hx

theorem lane_toEmpty (m : BitVec 64) :
    lane (toEmpty x m) i = if m.getLsbD i then empty else lane x i :=
  lane_maskSet1Epi8 x (le_bits hi) m empty

theorem stateAt_eq : stateAt t x i = lane x i := by
  have hidx : ∀ j < 64, (BitVec.ofNat 8 j).toNat % 64 = j ∧
      (BitVec.ofNat 32 (j / 4)).toNat % 16 = j / 4 := by decide
  obtain ⟨hmod, hmod'⟩ := hidx i hi
  unfold stateAt
  dsimp only
  by_cases hv : t.vbmi = true
  · rw [if_pos hv, setWidth_cvtsi128Si32, lane_permutexvarEpi8 _ _ (by decide),
      lane_set1Epi8 (by decide), hmod]
  · rw [if_neg hv, setWidth_sshiftRight _ (by omega), cvtsi128Si32, lane_setWidth _ (by omega),
      lane_permutexvarEpi32 _ _ (by omega), hmod', Nat.mod_mod, Nat.div_add_mod]

theorem lane_toEmptyIfLruBelow (l : BitVec 512) (v : Lru) :
    lane (toEmptyIfLruBelow x l v) i = if (lane l i).toNat < v.toNat then empty else lane x i := by
  have hbit := bits_maskLruBelow l v i
  rw [and_iff_right hi, decide_eq_true_iff] at hbit
  refine (lane_toEmpty x hi _).trans ?_
  exact if_congr hbit rfl rfl

theorem lane_halve : lane (halve x) i = lane x i >>> 1 := by
  unfold halve
  rw [lane_and, lane_set1Epi8 (le_bits hi)]
  exact lane_srliEpi32 x (le_bits hi)

omit hi in
/-- Every part is correct, whatever the target. -/
theorem correct (t : Target) : (parts t).Correct 64 where
  maskHash := bits_maskHash
  maskNotHash := bits_maskNotHash
  maskEmpty x _ := bits_maskEmpty x
  maskNotEmpty x _ := bits_maskNotEmpty x
  maskEqual := bits_maskEqual
  maskNotEqual := bits_maskNotEqual
  countMask := bits_maskEqual
  hashToTombstone x _ hi hx := lane_hashToTombstone x hi hx
  toEmpty x m _ hi := lane_toEmpty x hi m
  stateAt x _ hi := stateAt_eq t x hi
  minReduce := isMin_minReduce
  broadcast s _ hi := lane_broadcastbEpi8 (le_bits hi) s
  maskBroadcast s _ hi := lane_broadcastbEpi8 (le_bits hi) s
  maskLruBelow := bits_maskLruBelow
  halve l _ hi := lane_halve l hi
  increment l _ hn i hi := lane_maskAdd l _ (le_bits hi) (getLsbD_single hn i)
  toEmptyIfLruBelow x l v _ hi := lane_toEmptyIfLruBelow x hi l v

end Correct

end Avx512Kernel

/-! ### Main result -/

/-- In every variant the kernels for SSE, AVX2 and AVX-512 agree with the array kernels of 16, 32 and
64 slots. -/
theorem x86_agree (t : Target) :
    (SseKernel.parts t).AgreesWithArray 16 ∧ (AvxKernel.parts t).AgreesWithArray 32 ∧
      (Avx512Kernel.parts t).AgreesWithArray 64 := by
  refine ⟨?_, ?_, ?_⟩
  · exact (SseKernel.correct t).agreesWithArray
      ⟨rfl, Or.inl rfl, by decide, by decide⟩ (by decide)
  · exact (AvxKernel.correct t).agreesWithArray
      ⟨rfl, Or.inl rfl, by decide, by decide⟩ (by decide)
  · exact (Avx512Kernel.correct t).agreesWithArray
      ⟨rfl, Or.inr (Or.inl rfl), by decide, by decide⟩ (by decide)

/-- Sixteen slots, on a target without and with the AVX-512 extensions. -/
example : [⟨2, 0, false, false, true⟩, ⟨4, 2, true, true, false⟩].map (fun t =>
    let F := (SseKernel.parts t).fns 16
    let b : List State := [3, empty, tombstone, 7, empty, 1, 2, 3, 4, 5, 6, 7, 8, 9, empty, 0]
    ((maskType 32).slots (F.maskEmpty (F.load b)), F.hasHash (F.load b))) =
      [([1, 4, 14], true), ([1, 4, 14], true)] := by
  decide +kernel

end Nvhm
