import NvHashMap.Kernel.Neon.Parts

/-! # The NEON kernels

`neon_kernel<8>`, `<16>`, `<32>` and `<64>` of `kernel.hpp` pack a lane mask into 64 bits: as it is,
by the high nibbles of the bytes, or by isolating one bit of each byte and adding the bytes up.  The
main result is `neon_agree`. -/

namespace Nvhm

open Lanes Simd SlotSet Neon

namespace NeonKernel

/-- `vget_lane_u64(x, 0)`. -/
def vgetLane64 {W : ℕ} (x : BitVec W) : BitVec 64 := laneOf 64 x 0

/-! ### Eight slots, eight bits each -/

namespace Eight

def maskType : MaskType := ⟨64, 3, true⟩

def fullMask : BitVec 64 := maskType.full 8

def collapse (m : BitVec 64) : BitVec 64 := vgetLane64 m

def expand (m : BitVec 64) : BitVec 64 := vtst8 m m

def maskNotHash (k : BitVec 64) : BitVec 64 := fullMask &&& collapse k

/-- The part of `update_lru` that finds out whether to rescale. -/
def rescale (r nx : BitVec 64) : BitVec 64 := vtst 64 r nx

def parts : Parts 8 0 where
  shift := 3
  left := true
  collapse m := fullMask &&& collapse m
  invert m := m ^^^ fullMask
  maskHash k := maskNotHash k ^^^ fullMask
  maskNotHash := maskNotHash
  expand := expand
  rescale := rescale

end Eight

/-- The part of `update_lru` that finds out whether to rescale, for registers of 128 bits. -/
def rescale (d : ℕ) (r nx : BitVec (8 * (16 * 2 ^ d))) : BitVec 128 :=
  vdup32 128 (vmaxvU32 (tree (· ||| ·) d fun j => vtst 32 (val 16 r j) (val 16 nx j)))

/-! ### Sixteen slots, four bits each -/

namespace Sixteen

def maskType : MaskType := ⟨64, 2, false⟩

def fullMask : BitVec 64 := maskType.full 16

def collapse (m8 : BitVec 128) : BitVec 64 :=
  let m4 := vshrn16 m8 4
  vgetLane64 m4

def expand (m : BitVec 64) : BitVec 128 :=
  let mx := vshll8 m 4
  vtst8 mx mx

def parts : Parts 16 0 where
  shift := 2
  left := false
  collapse m := fullMask &&& collapse m
  invert m := m ^^^ fullMask
  maskHash k := fullMask &&& collapse (vcgez k)
  maskNotHash k := fullMask &&& collapse (vcltz k)
  expand := expand
  rescale := rescale 0

end Sixteen

/-! ### Thirty-two slots, two bits each -/

namespace ThirtyTwo

def maskType : MaskType := ⟨64, 1, false⟩

def fullMask : BitVec 64 := maskType.full 32

def bits : BitVec 128 := vdup32 128 0x40100401

def collapse (m8 : BitVec 256) : BitVec 64 :=
  let m0 := val 16 m8 0 &&& bits
  let m1 := val 16 m8 1 &&& bits
  let m0 := vpadd8 m0 m1
  let m0 := vpadd8 m0 m0
  vgetLane64 m0

def expand (m : BitVec 64) : BitVec 256 :=
  let m2 := vdup64 128 m
  let m4 := vzip1 8 m2 m2
  let m0 := vzip1 16 m4 m4
  let m1 := vzip2 16 m4 m4
  let m0 := vtst8 m0 bits
  let m1 := vtst8 m1 bits
  group 16 256 fun j => if j = 0 then m0 else m1

def parts : Parts 16 1 where
  shift := 1
  left := false
  collapse := collapse
  invert m := m ^^^ fullMask
  maskHash k := collapse (each₁ 16 vcgez k)
  maskNotHash k := collapse (each₁ 16 vcltz k)
  expand := expand
  rescale := rescale 1

end ThirtyTwo

/-! ### Sixty-four slots, one bit each -/

namespace SixtyFour

def maskType : MaskType := ⟨64, 0, false⟩

def bits : BitVec 128 := vdup64 128 0x8040201008040201

def collapse (m8 : BitVec 512) : BitVec 64 :=
  let m0 := val 16 m8 0 &&& bits
  let m1 := val 16 m8 1 &&& bits
  let m2 := val 16 m8 2 &&& bits
  let m3 := val 16 m8 3 &&& bits
  let m0 := vpadd8 m0 m1
  let m2 := vpadd8 m2 m3
  let m0 := vpadd8 m0 m2
  let m0 := vpadd8 m0 m0
  vgetLane64 m0

def expand (m : BitVec 64) : BitVec 512 :=
  let a := vdup32 128 (laneOf 32 m 0)
  let b := vdup32 128 (laneOf 32 m 1)
  let a := vzip1 8 a a
  let b := vzip1 8 b b
  let a := vzip1 16 a a
  let b := vzip1 16 b b
  let m0 := vzip1 32 a a
  let m1 := vzip2 32 a a
  let m2 := vzip1 32 b b
  let m3 := vzip2 32 b b
  group 16 512 fun j =>
    vtst8 (if j = 0 then m0 else if j = 1 then m1 else if j = 2 then m2 else m3) bits

def parts : Parts 16 2 where
  shift := 0
  left := false
  collapse := collapse
  invert m := ~~~m
  maskHash k := collapse (each₁ 16 vcgez k)
  maskNotHash k := collapse (each₁ 16 vcltz k)
  expand := expand
  rescale := rescale 2

end SixtyFour

/-! ### Bits of a mask -/

section Bits
variable {b d : ℕ} {P : Parts b d}

/-- A mask, from its bits. -/
theorem denotes_of_bits {m : BitVec 64} {p : ℕ → Bool} (h : ∀ q, m.getLsbD q = true ↔
    ∃ i < b * 2 ^ d, q = P.maskType.bit i ∧ p i = true) : P.sets.Denotes (b * 2 ^ d) m p := by
  refine ⟨fun q hq => ?_, Finset.ext fun i => ?_⟩
  · obtain ⟨i, hi, heq, -⟩ := (h q).mp hq
    exact ⟨i, hi, heq⟩
  · refine MaskType.mem_toSet.trans ?_
    rw [mem_below]
    refine and_congr_right fun hi => (h _).trans ⟨?_, fun hp => ⟨i, hi, rfl, hp⟩⟩
    rintro ⟨j, hj, heq, hp⟩
    obtain rfl := MaskType.bit_inj.mp heq
    exact hp

/-- The bits of a mask. -/
theorem getLsbD_iff {m : BitVec 64} {p : ℕ → Bool} (h : P.sets.Denotes (b * 2 ^ d) m p) (q : ℕ) :
    m.getLsbD q = true ↔ ∃ i < b * 2 ^ d, q = P.maskType.bit i ∧ p i = true := by
  have hmem : ∀ i < b * 2 ^ d, m.getLsbD (P.maskType.bit i) = true ↔ p i = true := by
    intro i hi
    have hset : i ∈ P.sets.toSet m ↔ i ∈ below (b * 2 ^ d) p := by rw [h.2]
    rw [mem_below, and_iff_right hi] at hset
    exact ⟨fun hb => hset.mp (MaskType.mem_toSet.mpr ⟨hi, hb⟩),
      fun hp => (MaskType.mem_toSet.mp (hset.mpr hp)).2⟩
  constructor
  · intro hq
    obtain ⟨i, hi, rfl⟩ := h.1 q hq
    exact ⟨i, hi, rfl, (hmem i hi).mp hq⟩
  · rintro ⟨i, hi, rfl, hp⟩
    exact (hmem i hi).mpr hp

theorem mem_toSet {m : BitVec 64} {i : ℕ} : i ∈ P.sets.toSet m ↔
    i < b * 2 ^ d ∧ m.getLsbD (P.maskType.bit i) = true := MaskType.mem_toSet

/-- Among the bits of a slot only its mark can be set. -/
theorem exists_bit_iff {m : BitVec 64} (hm : P.sets.valid m) {i : ℕ} (hi : i < b * 2 ^ d) :
    (∃ t < 2 ^ P.shift, m.getLsbD (2 ^ P.shift * i + t) = true) ↔ i ∈ P.sets.toSet m := by
  have hle : i * 2 ^ P.shift ≤ P.maskType.bit i := P.maskType.le_bit i
  have hlt : P.maskType.bit i < (i + 1) * 2 ^ P.shift := P.maskType.bit_lt i
  rw [Nat.succ_mul] at hlt
  rw [mem_toSet, and_iff_right hi]
  constructor
  · rintro ⟨t, ht, hbit⟩
    obtain ⟨j, -, heq⟩ := hm _ hbit
    have hshift : P.maskType.bit j >>> P.shift = j := P.maskType.bit_shift j
    have hj : j = i := by
      rw [← hshift, ← heq, Nat.shiftRight_eq_div_pow, Nat.mul_add_div (Nat.two_pow_pos _),
        Nat.div_eq_of_lt ht, Nat.add_zero]
    rwa [heq, hj] at hbit
  · intro hbit
    refine ⟨P.maskType.bit i - i * 2 ^ P.shift, by omega, ?_⟩
    rwa [Nat.mul_comm, Nat.add_sub_cancel' hle]

variable {full : BitVec 64}
  (hfull : ∀ q, full.getLsbD q = true ↔ ∃ i < b * 2 ^ d, q = P.maskType.bit i)
include hfull

/-- `full_mask` cuts a word to the bits that mark slots. -/
theorem full_and {m : BitVec 64} {p : ℕ → Bool}
    (h : ∀ i < b * 2 ^ d, m.getLsbD (P.maskType.bit i) = p i) :
    P.sets.Denotes (b * 2 ^ d) (full &&& m) p := by
  refine denotes_of_bits fun q => ?_
  rw [BitVec.getLsbD_and, Bool.and_eq_true, hfull]
  constructor
  · rintro ⟨⟨i, hi, rfl⟩, hm⟩
    exact ⟨i, hi, rfl, (h i hi).symm.trans hm⟩
  · rintro ⟨i, hi, rfl, hp⟩
    exact ⟨⟨i, hi, rfl⟩, (h i hi).trans hp⟩

/-- The mask of the other slots. -/
theorem xor_full {m : BitVec 64} {p : ℕ → Bool} (h : P.sets.Denotes (b * 2 ^ d) m p) :
    P.sets.Denotes (b * 2 ^ d) (m ^^^ full) fun i => !p i := by
  refine denotes_of_bits fun q => ?_
  have hm := getLsbD_iff h q
  have hf := hfull q
  rw [BitVec.getLsbD_xor]
  by_cases hq : ∃ i < b * 2 ^ d, q = P.maskType.bit i
  · have hf' := hf.mpr hq
    obtain ⟨i, hi, rfl⟩ := hq
    rw [hf', Bool.xor_true, Bool.not_eq_true', Bool.eq_false_iff]
    refine (not_congr hm).trans ?_
    constructor
    · exact fun hn => ⟨i, hi, rfl, by
        rw [Bool.not_eq_true', Bool.eq_false_iff]
        exact fun hp => hn ⟨i, hi, rfl, hp⟩⟩
    · rintro ⟨j, -, heq, hn⟩ ⟨j', -, heq', hp⟩
      rw [← MaskType.bit_inj.mp heq', MaskType.bit_inj.mp heq, Bool.not_eq_true'] at *
      exact Bool.false_ne_true (hn.symm.trans hp)
  · have hm' : m.getLsbD q = false := by
      rw [Bool.eq_false_iff]
      intro hc
      obtain ⟨i, hi, heq, -⟩ := hm.mp hc
      exact hq ⟨i, hi, heq⟩
    have hf' : full.getLsbD q = false := by
      rw [Bool.eq_false_iff]
      exact fun hc => hq (hf.mp hc)
    rw [hm', hf']
    refine iff_of_false Bool.false_ne_true ?_
    rintro ⟨i, hi, heq, -⟩
    exact hq ⟨i, hi, heq⟩

end Bits

/-- A byte is zero if none of its bits is set. -/
theorem ne_zero_iff : ∀ x : BitVec 8, (x != 0) = true ↔ ∃ t < 8, x.getLsbD t = true := by decide

theorem decide_neg (x : BitVec 8) : decide (x.toInt < 0) = !isHash x := by
  unfold isHash
  rw [← decide_not]
  exact decide_eq_decide.mpr not_le.symm

theorem lane_vgetLane64 {W : ℕ} (x : BitVec W) {i : ℕ} (hi : i < 8) :
    lane (vgetLane64 x) i = lane x i := by
  have h := lane_laneOf (b := 8) x 0 hi
  rwa [Nat.mul_zero, Nat.zero_add] at h

/-- The bytes of a condition are all ones or all zeros. -/
theorem getLsbD_full8 : ∀ (c : Bool), ∀ t < 8, (full8 c).getLsbD t = c := by decide

/-! ### Eight slots -/

namespace Eight

theorem getLsbD_fullMask (q : ℕ) :
    fullMask.getLsbD q = true ↔ ∃ i < 8 * 2 ^ 0, q = parts.maskType.bit i :=
  MaskType.getLsbD_full (M := maskType) ⟨Or.inr (Or.inl rfl), by decide, by decide⟩ q

theorem bit_eq (i : ℕ) : parts.maskType.bit i = 8 * i + 7 := by
  rw [Nat.mul_comm]
  rfl

theorem getLsbD_collapse (m : BitVec 64) {i : ℕ} (hi : i < 8) :
    (collapse m).getLsbD (parts.maskType.bit i) = (lane m i).getLsbD 7 := by
  rw [bit_eq, getLsbD_eq_lane _ _ (by decide), collapse, lane_vgetLane64 _ hi]

theorem denotes_maskNotHash (x : BitVec 64) :
    parts.sets.Denotes 8 (maskNotHash x) fun i => !isHash (lane x i) := by
  have hsign : ∀ z : BitVec 8, z.getLsbD 7 = !isHash z := by decide
  refine full_and (P := parts) getLsbD_fullMask fun i hi => ?_
  rw [getLsbD_collapse x hi, hsign]

theorem isLaneMask_expand {m : BitVec 64} (hm : parts.sets.valid m) :
    IsLaneMask 8 (expand m) fun i => decide (i ∈ parts.sets.toSet m) := by
  intro i hi
  unfold expand
  rw [lane_vtst8 _ _ (by omega), BitVec.and_self]
  congr 1
  rw [Bool.eq_iff_iff, decide_eq_true_iff]
  refine ((ne_zero_iff _).trans ?_).trans (exists_bit_iff hm hi)
  exact exists_congr fun t => and_congr_right fun ht => by rw [← getLsbD_eq_lane _ _ ht]; rfl

theorem isLaneMask_rescale {x y : BitVec 64} {p q : ℕ → Bool} (hx : IsLaneMask 8 x p)
    (hy : IsLaneMask 8 y q) :
    IsLaneMask 8 (rescale x y) fun _ => decide (∃ k < 8 * 2 ^ 0, (p k && q k) = true) := by
  intro i hi
  have hlane := lane_laneOf (b := 8) (vtst 64 x y) 0 hi
  have hword := laneOf_vtst (n := 8) (l := 0) le_rfl le_rfl hx hy
  simp only [Nat.mul_zero, Nat.zero_add] at hlane hword
  unfold rescale
  rw [← hlane, hword, lane_full _ hi]
  rfl

theorem correct : parts.Correct where
  bytes_pos := by decide
  slots_le := by decide
  isRepr := ⟨Or.inr (Or.inl rfl), by decide, by decide⟩
  collapse x p hx := full_and getLsbD_fullMask fun i hi => by
    rw [getLsbD_collapse x hi, hx i hi, getLsbD_full8 _ 7 (by decide)]
  invert _ _ h := xor_full getLsbD_fullMask h
  maskHash x := (xor_full (P := parts) getLsbD_fullMask (denotes_maskNotHash x)).congr
    fun i _ => Bool.not_not _
  maskNotHash := denotes_maskNotHash
  expand _ hm := isLaneMask_expand hm
  rescale _ _ _ _ hx hy := isLaneMask_rescale hx hy

end Eight

/-! ### Sixteen slots -/

namespace Sixteen

theorem getLsbD_fullMask (q : ℕ) :
    fullMask.getLsbD q = true ↔ ∃ i < 16 * 2 ^ 0, q = parts.maskType.bit i :=
  MaskType.getLsbD_full (M := maskType) ⟨Or.inr (Or.inl rfl), by decide, by decide⟩ q

theorem bit_eq (i : ℕ) : parts.maskType.bit i = 8 * (i / 2) + 4 * (i % 2) := by
  change i * 4 + 0 = _
  omega

theorem getLsbD_collapse {m : BitVec 128} {p : ℕ → Bool} (hm : IsLaneMask 16 m p) {i : ℕ}
    (hi : i < 16) : (collapse m).getLsbD (parts.maskType.bit i) = p i := by
  have hlt : 4 * (i % 2) < 8 := by omega
  have hbyte : lane (vshrn16 m 4) (i / 2) = (laneOf 16 m (i / 2) >>> 4).setWidth 8 :=
    lane_ofLanes_eight _ (by omega)
  -- a nibble is the high half of an even byte, or the low half of an odd one
  have hpos : 16 * (i / 2) + (4 + 4 * (i % 2)) = 8 * i + 4 * (1 - i % 2) := by omega
  have ht : 4 * (1 - i % 2) < 8 := by omega
  unfold collapse
  rw [bit_eq, getLsbD_eq_lane _ _ hlt, lane_vgetLane64 _ (by omega), hbyte,
    BitVec.getLsbD_setWidth, decide_eq_true hlt, Bool.true_and, BitVec.getLsbD_ushiftRight,
    getLsbD_laneOf, decide_eq_true (by omega : 4 + 4 * (i % 2) < 16), Bool.true_and, hpos,
    getLsbD_eq_lane _ _ ht, hm i hi, getLsbD_full8 _ _ ht]

theorem denotes_collapse {m : BitVec 128} {p : ℕ → Bool} (hm : IsLaneMask 16 m p) :
    parts.sets.Denotes 16 (fullMask &&& collapse m) p :=
  full_and (P := parts) getLsbD_fullMask fun _ hi => getLsbD_collapse hm hi

theorem isLaneMask_expand {m : BitVec 64} (hm : parts.sets.valid m) :
    IsLaneMask 16 (expand m) fun i => decide (i ∈ parts.sets.toSet m) := by
  intro i hi
  have hnibble : ∀ x : BitVec 8, ∀ e < 2, (lane (x.setWidth 16 <<< 4) e != 0) = true ↔
      ∃ t < 4, x.getLsbD (4 * e + t) = true := by decide
  have hbyte : lane (vshll8 m 4) i = lane ((lane m (i / 2)).setWidth 16 <<< 4) (i % 2) :=
    lane_ofLanes (b := 2) _ (by omega)
  unfold expand
  dsimp only
  rw [lane_vtst8 _ _ (by omega), BitVec.and_self, hbyte]
  congr 1
  rw [Bool.eq_iff_iff, decide_eq_true_iff]
  refine ((hnibble _ _ (Nat.mod_lt i (by decide))).trans ?_).trans (exists_bit_iff hm hi)
  refine exists_congr fun t => and_congr_right fun ht => ?_
  have hpos : 4 * i + t = 8 * (i / 2) + (4 * (i % 2) + t) := by omega
  have hbit : m.getLsbD (4 * i + t) = (lane m (i / 2)).getLsbD (4 * (i % 2) + t) := by
    rw [hpos, getLsbD_eq_lane _ _ (by omega)]
  rw [← hbit]
  rfl

theorem correct : parts.Correct where
  bytes_pos := by decide
  slots_le := by decide
  isRepr := ⟨Or.inr (Or.inl rfl), by decide, by decide⟩
  collapse _ _ hx := denotes_collapse hx
  invert _ _ h := xor_full getLsbD_fullMask h
  maskHash x := denotes_collapse fun _ hi => lane_vcgez x (by omega)
  maskNotHash x := denotes_collapse fun i hi => by
    rw [lane_vcltz x (by omega), decide_neg]
  expand _ hm := isLaneMask_expand hm
  rescale _ _ _ _ hx hy := isLaneMask_any hx hy

end Sixteen

/-! ### Thirty-two slots -/

namespace ThirtyTwo

theorem getLsbD_fullMask (q : ℕ) :
    fullMask.getLsbD q = true ↔ ∃ i < 16 * 2 ^ 1, q = parts.maskType.bit i :=
  MaskType.getLsbD_full (M := maskType) ⟨Or.inr (Or.inl rfl), by decide, by decide⟩ q

theorem bit_eq (i : ℕ) : parts.maskType.bit i = 2 * i := by
  change i * 2 + 0 = _
  omega

theorem lane_bits {i : ℕ} (hi : i < 16) : lane bits i = lane (0x40100401 : BitVec 32) (i % 4) :=
  lane_vdup32 (by omega) _

/-- Four slots in a byte. -/
theorem lane_collapse {m : BitVec 256} {p : ℕ → Bool} (hm : IsLaneMask 32 m p) {r : ℕ} (hr : r < 8) :
    lane (collapse m) r = (full8 (p (4 * r)) &&& 0x01) + (full8 (p (4 * r + 1)) &&& 0x04) +
      ((full8 (p (4 * r + 2)) &&& 0x10) + (full8 (p (4 * r + 3)) &&& 0x40)) := by
  let f (k : ℕ) : BitVec 8 := full8 (p k) &&& lane (0x40100401 : BitVec 32) (k % 4)
  have h0 : ∀ k < 16, lane (val 16 m 0 &&& bits) k = f k := by
    intro k hk
    rw [lane_and, lane_val _ _ hk, lane_bits hk, Nat.mul_zero, Nat.zero_add, hm k (by omega)]
  have h1 : ∀ k < 16, lane (val 16 m 1 &&& bits) k = f (16 + k) := by
    intro k hk
    have hmod : (16 + k) % 4 = k % 4 := by omega
    dsimp only [f]
    rw [lane_and, lane_val _ _ hk, lane_bits hk, Nat.mul_one, hm _ (by omega), hmod]
  have hpair : ∀ i < 16, lane (vpadd8 (val 16 m 0 &&& bits) (val 16 m 1 &&& bits)) i =
      f (2 * i) + f (2 * i + 1) := fun i hi => lane_vpadd8 _ _ h0 h1 hi
  have hmod : ∀ t < 4, (4 * r + t) % 4 = t := by omega
  have hf : ∀ t < 4, f (4 * r + t) = full8 (p (4 * r + t)) &&& lane (0x40100401 : BitVec 32) t := by
    intro t ht
    dsimp only [f]
    rw [hmod t ht]
  unfold collapse
  dsimp only
  rw [lane_vgetLane64 _ hr, lane_vpadd8_low _ _ hpair hr]
  have hidx : 2 * (2 * r) = 4 * r + 0 ∧ 2 * (2 * r) + 1 = 4 * r + 1 ∧ 2 * (2 * r + 1) = 4 * r + 2 ∧
      2 * (2 * r + 1) + 1 = 4 * r + 3 := by omega
  rw [hidx.2.2.2, hidx.2.2.1, hidx.2.1, hidx.1, hf 0 (by decide), hf 1 (by decide),
    hf 2 (by decide), hf 3 (by decide)]
  rfl

theorem denotes_collapse {m : BitVec 256} {p : ℕ → Bool} (hm : IsLaneMask 32 m p) :
    parts.sets.Denotes 32 (collapse m) p := by
  have hbyte : ∀ a b c e : Bool, ∀ j < 4, ((full8 a &&& 0x01) + (full8 b &&& 0x04) +
      ((full8 c &&& 0x10) + (full8 e &&& 0x40))).getLsbD (2 * j) = [a, b, c, e].getD j false ∧
      ((full8 a &&& 0x01) + (full8 b &&& 0x04) +
        ((full8 c &&& 0x10) + (full8 e &&& 0x40))).getLsbD (2 * j + 1) = false := by decide
  have hget : ∀ r, ∀ j < 4, [p (4 * r), p (4 * r + 1), p (4 * r + 2), p (4 * r + 3)].getD j false =
      p (4 * r + j) := by
    intro r j hj
    obtain rfl | rfl | rfl | rfl : j = 0 ∨ j = 1 ∨ j = 2 ∨ j = 3 := by omega
    all_goals rfl
  refine denotes_of_bits (P := parts) fun q => ?_
  by_cases hq : q < 64
  · have hpos : 8 * (q / 8) + q % 8 = q := Nat.div_add_mod q 8
    have hbit : (collapse m).getLsbD q = (lane (collapse m) (q / 8)).getLsbD (q % 8) := by
      rw [← getLsbD_eq_lane _ _ (Nat.mod_lt q (by decide)), hpos]
    rw [hbit, lane_collapse hm (by omega)]
    have hhalf : q % 8 = 2 * (q % 8 / 2) ∨ q % 8 = 2 * (q % 8 / 2) + 1 := by omega
    obtain he | ho := hhalf
    · rw [he, (hbyte _ _ _ _ _ (by omega)).1, hget _ _ (by omega)]
      constructor
      · exact fun hp => ⟨_, by omega, by rw [bit_eq]; omega, hp⟩
      · rintro ⟨i, -, hi, hp⟩
        rw [bit_eq] at hi
        have hi' : 4 * (q / 8) + q % 8 / 2 = i := by omega
        rwa [hi']
    · rw [ho, (hbyte _ _ _ _ _ (by omega)).2]
      refine iff_of_false Bool.false_ne_true ?_
      rintro ⟨i, -, hi, -⟩
      rw [bit_eq] at hi
      omega
  · rw [BitVec.getLsbD_of_ge _ _ (not_lt.mp hq)]
    refine iff_of_false Bool.false_ne_true ?_
    rintro ⟨i, hi, heq, -⟩
    rw [bit_eq] at heq
    omega

theorem isLaneMask_expand {m : BitVec 64} (_ : parts.sets.valid m) :
    IsLaneMask 32 (expand m) fun i => decide (i ∈ parts.sets.toSet m) := by
  have hbit : ∀ x : BitVec 8, ∀ j < 4,
      (x &&& lane (0x40100401 : BitVec 32) j != 0) = x.getLsbD (2 * j) := by decide
  have h4 : ∀ a < 16, lane (vzip1 8 (vdup64 128 m) (vdup64 128 m)) a = lane m (a / 2) := by
    intro a ha
    have hidx : (1 * (a / 1 / 2) + a % 1) % 8 = a / 2 := by omega
    refine (lane_vzip1 (n := 1) (by decide) _ ha).trans ?_
    rw [lane_vdup64 (by omega), hidx]
  intro i hi
  unfold expand
  dsimp only
  rw [lane_group (b := 16) _ (by omega)]
  have hr : i % 16 < 16 := Nat.mod_lt i (by decide)
  have hword : lane (if i / 16 = 0 then vtst8 (vzip1 16 (vzip1 8 (vdup64 128 m) (vdup64 128 m))
      (vzip1 8 (vdup64 128 m) (vdup64 128 m))) bits else vtst8 (vzip2 16
      (vzip1 8 (vdup64 128 m) (vdup64 128 m)) (vzip1 8 (vdup64 128 m) (vdup64 128 m))) bits) (i % 16) =
        full8 (lane m (i / 4) &&& lane bits (i % 16) != 0) := by
    split_ifs with h0
    · have hidx : (2 * (i % 16 / 2 / 2) + i % 16 % 2) / 2 = i / 4 := by omega
      have hzip := lane_vzip1 (n := 2) (by decide)
        (vzip1 8 (vdup64 128 m) (vdup64 128 m)) hr
      rw [h4 _ (by omega), hidx] at hzip
      rw [lane_vtst8 _ _ (by omega), ← hzip]
    · have hidx : (2 * (128 / (8 * 2) / 2 + i % 16 / 2 / 2) + i % 16 % 2) / 2 = i / 4 := by omega
      have hzip := lane_vzip2 (n := 2) (by decide)
        (vzip1 8 (vdup64 128 m) (vdup64 128 m)) hr
      rw [h4 _ (by omega), hidx] at hzip
      rw [lane_vtst8 _ _ (by omega), ← hzip]
  have hmod : i % 16 % 4 = i % 4 := by omega
  have hpos : 8 * (i / 4) + 2 * (i % 4) = 2 * i := by omega
  refine hword.trans (congrArg full8 ?_)
  rw [lane_bits hr, hmod, hbit _ _ (Nat.mod_lt i (by decide)), ← getLsbD_eq_lane _ _ (by omega), hpos,
    Bool.eq_iff_iff, decide_eq_true_iff]
  refine Iff.trans ?_ mem_toSet.symm
  rw [bit_eq]
  exact (and_iff_right hi).symm

theorem correct : parts.Correct where
  bytes_pos := by decide
  slots_le := by decide
  isRepr := ⟨Or.inr (Or.inl rfl), by decide, by decide⟩
  collapse _ _ hx := denotes_collapse hx
  invert _ _ h := xor_full getLsbD_fullMask h
  maskHash x := denotes_collapse (Parts.isLaneMask_vcgez (d := 1) x (by decide))
  maskNotHash x := denotes_collapse (Parts.isLaneMask_vcltz (d := 1) x (by decide))
  expand _ hm := isLaneMask_expand hm
  rescale _ _ _ _ hx hy := isLaneMask_any hx hy

end ThirtyTwo

/-! ### Sixty-four slots -/

namespace SixtyFour

theorem bit_eq (i : ℕ) : parts.maskType.bit i = i := by
  change i * 1 + 0 = _
  omega

theorem getLsbD_allOnes (q : ℕ) :
    (BitVec.allOnes 64).getLsbD q = true ↔ ∃ i < 16 * 2 ^ 2, q = parts.maskType.bit i := by
  rw [BitVec.getLsbD_allOnes, decide_eq_true_iff]
  constructor
  · exact fun hq => ⟨q, hq, (bit_eq q).symm⟩
  · rintro ⟨i, hi, rfl⟩
    rw [bit_eq]
    exact hi

theorem lane_bits {i : ℕ} (hi : i < 16) :
    lane bits i = lane (0x8040201008040201 : BitVec 64) (i % 8) :=
  lane_vdup64 (by omega) _

/-- The byte of the slots from `8 * r` on. -/
theorem lane_collapse {m : BitVec 512} {p : ℕ → Bool} (hm : IsLaneMask 64 m p) {r : ℕ} (hr : r < 8) :
    lane (collapse m) r =
      (full8 (p (8 * r)) &&& 0x01) + (full8 (p (8 * r + 1)) &&& 0x02) +
      ((full8 (p (8 * r + 2)) &&& 0x04) + (full8 (p (8 * r + 3)) &&& 0x08)) +
      ((full8 (p (8 * r + 4)) &&& 0x10) + (full8 (p (8 * r + 5)) &&& 0x20) +
      ((full8 (p (8 * r + 6)) &&& 0x40) + (full8 (p (8 * r + 7)) &&& 0x80))) := by
  let f (k : ℕ) : BitVec 8 := full8 (p k) &&& lane (0x8040201008040201 : BitVec 64) (k % 8)
  let f₁ (k : ℕ) : BitVec 8 := f (2 * k) + f (2 * k + 1)
  let f₂ (k : ℕ) : BitVec 8 := f₁ (2 * k) + f₁ (2 * k + 1)
  have hreg : ∀ j < 4, ∀ k < 16, lane (val 16 m j &&& bits) k = f (16 * j + k) := by
    intro j hj k hk
    have hmod : (16 * j + k) % 8 = k % 8 := by omega
    dsimp only [f]
    rw [lane_and, lane_val _ _ hk, lane_bits hk, hm _ (by omega), hmod]
  have h0 : ∀ k < 16, lane (val 16 m 0 &&& bits) k = f k := fun k hk => by
    rw [hreg 0 (by decide) k hk, Nat.mul_zero, Nat.zero_add]
  have hpair : ∀ i < 16, lane (vpadd8 (val 16 m 0 &&& bits) (val 16 m 1 &&& bits)) i = f₁ i :=
    fun i hi => lane_vpadd8 _ _ h0 (hreg 1 (by decide)) hi
  have hpair' : ∀ i < 16, lane (vpadd8 (val 16 m 2 &&& bits) (val 16 m 3 &&& bits)) i =
      f₁ (16 + i) := by
    intro i hi
    refine (lane_vpadd8 (f := fun k => f (32 + k)) _ _ (hreg 2 (by decide)) (fun k hk => ?_) hi).trans ?_
    · rw [hreg 3 (by decide) k hk]
      congr 1
      omega
    · have hidx : 32 + 2 * i = 2 * (16 + i) ∧ 32 + (2 * i + 1) = 2 * (16 + i) + 1 := by omega
      dsimp only [f₁]
      rw [hidx.1, hidx.2]
  have hquad : ∀ i < 16, lane (vpadd8 (vpadd8 (val 16 m 0 &&& bits) (val 16 m 1 &&& bits))
      (vpadd8 (val 16 m 2 &&& bits) (val 16 m 3 &&& bits))) i = f₂ i :=
    fun i hi => lane_vpadd8 _ _ hpair hpair' hi
  have hmod : ∀ t < 8, (8 * r + t) % 8 = t := by omega
  have hf : ∀ t < 8,
      f (8 * r + t) = full8 (p (8 * r + t)) &&& lane (0x8040201008040201 : BitVec 64) t := by
    intro t ht
    dsimp only [f]
    rw [hmod t ht]
  have hidx : ∀ x y z : ℕ, 2 * (2 * (2 * r + x) + y) + z = 8 * r + (4 * x + 2 * y + z) := by omega
  unfold collapse
  dsimp only
  rw [lane_vgetLane64 _ hr, lane_vpadd8_low _ _ hquad hr]
  have hsum : f₂ (2 * r + 0) + f₂ (2 * r + 1) =
      f (8 * r + 0) + f (8 * r + 1) + (f (8 * r + 2) + f (8 * r + 3)) +
      (f (8 * r + 4) + f (8 * r + 5) + (f (8 * r + 6) + f (8 * r + 7))) := by
    dsimp only [f₂, f₁]
    rw [← hidx 0 0 0, ← hidx 0 0 1, ← hidx 0 1 0, ← hidx 0 1 1, ← hidx 1 0 0, ← hidx 1 0 1,
      ← hidx 1 1 0, ← hidx 1 1 1]
    rfl
  refine hsum.trans ?_
  rw [hf 0 (by decide), hf 1 (by decide), hf 2 (by decide), hf 3 (by decide), hf 4 (by decide),
    hf 5 (by decide), hf 6 (by decide), hf 7 (by decide)]
  rfl

theorem denotes_collapse {m : BitVec 512} {p : ℕ → Bool} (hm : IsLaneMask 64 m p) :
    parts.sets.Denotes 64 (collapse m) p := by
  have hbyte : ∀ a b c e a' b' c' e' : Bool, ∀ j < 8,
      ((full8 a &&& 0x01) + (full8 b &&& 0x02) + ((full8 c &&& 0x04) + (full8 e &&& 0x08)) +
        ((full8 a' &&& 0x10) + (full8 b' &&& 0x20) +
          ((full8 c' &&& 0x40) + (full8 e' &&& 0x80)))).getLsbD j =
        [a, b, c, e, a', b', c', e'].getD j false := by decide +kernel
  have hget : ∀ r, ∀ j < 8, [p (8 * r), p (8 * r + 1), p (8 * r + 2), p (8 * r + 3), p (8 * r + 4),
      p (8 * r + 5), p (8 * r + 6), p (8 * r + 7)].getD j false = p (8 * r + j) := by
    intro r j hj
    obtain rfl | rfl | rfl | rfl | rfl | rfl | rfl | rfl : j = 0 ∨ j = 1 ∨ j = 2 ∨ j = 3 ∨ j = 4 ∨
      j = 5 ∨ j = 6 ∨ j = 7 := by omega
    all_goals rfl
  refine denotes_of_bits (P := parts) fun q => ?_
  by_cases hq : q < 64
  · have hpos : 8 * (q / 8) + q % 8 = q := Nat.div_add_mod q 8
    have hr : q % 8 < 8 := Nat.mod_lt q (by decide)
    have hbit : (collapse m).getLsbD q = (lane (collapse m) (q / 8)).getLsbD (q % 8) := by
      rw [← getLsbD_eq_lane _ _ hr, hpos]
    rw [hbit, lane_collapse hm (by omega), hbyte _ _ _ _ _ _ _ _ _ hr, hget _ _ hr, hpos]
    constructor
    · exact fun hp => ⟨q, hq, (bit_eq q).symm, hp⟩
    · rintro ⟨i, -, hi, hp⟩
      rwa [hi, bit_eq]
  · rw [BitVec.getLsbD_of_ge _ _ (not_lt.mp hq)]
    refine iff_of_false Bool.false_ne_true ?_
    rintro ⟨i, hi, heq, -⟩
    rw [bit_eq] at heq
    omega

/-- Every byte holds the bits of its slot and the seven around it. -/
theorem lane_spread (m : BitVec 64) (j : ℕ) {a : ℕ} (ha : a < 16) :
    lane (vzip1 16 (vzip1 8 (vdup32 128 (laneOf 32 m j)) (vdup32 128 (laneOf 32 m j)))
      (vzip1 8 (vdup32 128 (laneOf 32 m j)) (vdup32 128 (laneOf 32 m j)))) a =
        lane m (4 * j + a / 4) := by
  have h1 : ∀ a < 16, lane (vzip1 8 (vdup32 128 (laneOf 32 m j)) (vdup32 128 (laneOf 32 m j))) a =
      lane m (4 * j + a / 2 % 4) := by
    intro a ha
    have hidx : 1 * (a / 1 / 2) + a % 1 = a / 2 := by omega
    refine (lane_vzip1 (n := 1) (by decide) _ ha).trans ?_
    rw [hidx, lane_vdup32 (by omega)]
    exact lane_laneOf (b := 4) m j (Nat.mod_lt _ (by decide))
  have hidx : (2 * (a / 2 / 2) + a % 2) / 2 % 4 = a / 4 := by omega
  refine (lane_vzip1 (n := 2) (by decide) _ ha).trans ?_
  rw [h1 _ (by omega), hidx]

theorem isLaneMask_expand {m : BitVec 64} (_ : parts.sets.valid m) :
    IsLaneMask 64 (expand m) fun i => decide (i ∈ parts.sets.toSet m) := by
  have hbit : ∀ x : BitVec 8, ∀ j < 8,
      (x &&& lane (0x8040201008040201 : BitVec 64) j != 0) = x.getLsbD j := by decide
  intro i hi
  have hr : i % 16 < 16 := Nat.mod_lt i (by decide)
  have hr' : i % 16 % 8 < 8 := Nat.mod_lt _ (by decide)
  unfold expand
  dsimp only
  rw [lane_group (b := 16) _ (by omega), lane_vtst8 _ _ (by omega), lane_bits hr]
  have hmod : i % 16 % 8 = i % 8 := by omega
  have hpos : 8 * (i / 8) + i % 8 = i := Nat.div_add_mod i 8
  have h1 : ∀ j < 2, ∀ x, x = vzip1 16
      (vzip1 8 (vdup32 128 (laneOf 32 m j)) (vdup32 128 (laneOf 32 m j)))
      (vzip1 8 (vdup32 128 (laneOf 32 m j)) (vdup32 128 (laneOf 32 m j))) →
      lane (vzip1 32 x x) (i % 16) = lane m (4 * j + i % 16 / 8) ∧
        lane (vzip2 32 x x) (i % 16) = lane m (4 * j + 2 + i % 16 / 8) := by
    rintro j - x rfl
    have hidx : (4 * (i % 16 / 4 / 2) + i % 16 % 4) / 4 = i % 16 / 8 := by omega
    have hidx' : (4 * (128 / (8 * 4) / 2 + i % 16 / 4 / 2) + i % 16 % 4) / 4 = 2 + i % 16 / 8 := by
      omega
    have hz := lane_vzip1 (n := 4) (by decide) (vzip1 16
      (vzip1 8 (vdup32 128 (laneOf 32 m j)) (vdup32 128 (laneOf 32 m j)))
      (vzip1 8 (vdup32 128 (laneOf 32 m j)) (vdup32 128 (laneOf 32 m j)))) hr
    have hz' := lane_vzip2 (n := 4) (by decide) (vzip1 16
      (vzip1 8 (vdup32 128 (laneOf 32 m j)) (vdup32 128 (laneOf 32 m j)))
      (vzip1 8 (vdup32 128 (laneOf 32 m j)) (vdup32 128 (laneOf 32 m j)))) hr
    rw [lane_spread m j (by omega), hidx] at hz
    rw [lane_spread m j (by omega), hidx', ← Nat.add_assoc] at hz'
    exact ⟨hz, hz'⟩
  refine congrArg full8 ?_
  rw [hbit _ _ hr', hmod, Bool.eq_iff_iff, decide_eq_true_iff]
  have hmem : (lane m (i / 8)).getLsbD (i % 8) = true ↔ i ∈ parts.sets.toSet m := by
    rw [← getLsbD_eq_lane _ _ (by omega), hpos]
    refine Iff.trans ?_ mem_toSet.symm
    rw [bit_eq]
    exact (and_iff_right hi).symm
  refine Iff.trans (Eq.to_iff (congrArg (fun x : BitVec 8 => x.getLsbD (i % 8) = true) ?_)) hmem
  obtain h | h | h | h : i / 16 = 0 ∨ i / 16 = 1 ∨ i / 16 = 2 ∨ i / 16 = 3 := by omega
  · rw [if_pos h, (h1 0 (by decide) _ rfl).1]
    congr 1
    omega
  · rw [if_neg (by omega), if_pos h, (h1 0 (by decide) _ rfl).2]
    congr 1
    omega
  · rw [if_neg (by omega), if_neg (by omega), if_pos h, (h1 1 (by decide) _ rfl).1]
    congr 1
    omega
  · rw [if_neg (by omega), if_neg (by omega), if_neg (by omega), (h1 1 (by decide) _ rfl).2]
    congr 1
    omega

theorem correct : parts.Correct where
  bytes_pos := by decide
  slots_le := by decide
  isRepr := ⟨Or.inr (Or.inl rfl), by decide, by decide⟩
  collapse _ _ hx := denotes_collapse hx
  invert m _ h := by
    have hnot : parts.invert m = m ^^^ BitVec.allOnes 64 := (BitVec.xor_allOnes).symm
    rw [hnot]
    exact xor_full getLsbD_allOnes h
  maskHash x := denotes_collapse (Parts.isLaneMask_vcgez (d := 2) x (by decide))
  maskNotHash x := denotes_collapse (Parts.isLaneMask_vcltz (d := 2) x (by decide))
  expand _ hm := isLaneMask_expand hm
  rescale _ _ _ _ hx hy := isLaneMask_any hx hy

end SixtyFour

end NeonKernel

/-! ### Main result -/

/-- The kernels for NEON agree with the array kernels of 8, 16, 32 and 64 slots. -/
theorem neon_agree :
    NeonKernel.Eight.parts.AgreesWithArray ∧ NeonKernel.Sixteen.parts.AgreesWithArray ∧
      NeonKernel.ThirtyTwo.parts.AgreesWithArray ∧ NeonKernel.SixtyFour.parts.AgreesWithArray :=
  ⟨NeonKernel.Eight.correct.agreesWithArray, NeonKernel.Sixteen.correct.agreesWithArray,
    NeonKernel.ThirtyTwo.correct.agreesWithArray, NeonKernel.SixtyFour.correct.agreesWithArray⟩

/-- The same sixteen slots in two of the kernels, one of them with sixteen empty slots behind. -/
example :
    let b : List State := [3, empty, tombstone, 7, empty, 1, 2, 3, 4, 5, 6, 7, 8, 9, empty, 0]
    let F := NeonKernel.Sixteen.parts.fns
    let F' := NeonKernel.ThirtyTwo.parts.fns
    (NeonKernel.Sixteen.maskType.slots (F.maskTombstone (F.load b)),
      NeonKernel.ThirtyTwo.maskType.slots
        (F'.maskHash (F'.load (b ++ List.replicate 16 empty)))) =
      ([2], [0, 3, 5, 6, 7, 8, 9, 10, 11, 12, 13, 15]) := by
  decide +kernel

end Nvhm
