import NvHashMap.Common
import NvHashMap.Lib.BitScan

/-! # Masks

`uint_mask` of `mask.hpp`: a word with `2 ^ shift` bits per slot, one of which marks the slot.  With
`left` it is the highest bit of the slot, else the lowest.

The containers walk through a mask with `has_next`, `next` and `step`; `slots` is the list of slots
that such a loop visits.  A mask with marks only (`IsMask`) gives its marked slots, in ascending
order (`slots_eq`), and `above` drops the slots up to an index. -/

namespace Nvhm

structure MaskType where
  width : ℕ
  shift : ℕ
  left : Bool

/-- The width of the smallest of the mask types that has `n` bits (`uint_mask_t`). -/
def maskWidth (n : ℕ) : ℕ := if n ≤ 32 then 32 else if n ≤ 64 then 64 else 128

namespace MaskType
variable (M : MaskType)

/-- `bits_per_slot`. -/
def bitsPerSlot : ℕ := 2 ^ M.shift

def single (i : ℕ) (v : Bool) : BitVec M.width :=
  let m := (BitVec.ofBool v).setWidth M.width <<< (i * M.bitsPerSlot)
  if M.left then m <<< (M.bitsPerSlot - 1) else m

def above (m : BitVec M.width) (i : ℤ) : BitVec M.width :=
  let i0 := max i 0
  let n := M.single i0.toNat (i0 == i) <<< 1
  let n := n - (BitVec.ofBool (i0 == i)).setWidth M.width
  (m ^^^ n) &&& m

def hasNext (m : BitVec M.width) : Bool := m != 0#M.width

/-- `count`, the number of bits that are set. -/
def count (m : BitVec M.width) : ℕ := (List.range M.width).countP m.getLsbD

def next (m : BitVec M.width) : ℕ := m.ctz.toNat >>> M.shift

def step (m : BitVec M.width) : BitVec M.width := m &&& (m - 1#M.width)

/-- The rounds of `for (; has_next(m); m = step(m))`. -/
def slotsFrom : ℕ → BitVec M.width → List ℕ
  | 0, _ => []
  | n + 1, m => if M.hasNext m then M.next m :: slotsFrom n (M.step m) else []

/-- The slots of a mask. -/
def slots (m : BitVec M.width) : List ℕ := M.slotsFrom M.width m

/-- The bit that marks a slot. -/
def bit (i : ℕ) : ℕ := i * M.bitsPerSlot + if M.left then M.bitsPerSlot - 1 else 0

/-- Only bits that mark one of `K` slots are set. -/
def IsMask (K : ℕ) (m : BitVec M.width) : Prop :=
  ∀ p, m.getLsbD p = true → ∃ i < K, p = M.bit i

theorem bitsPerSlot_pos : 0 < M.bitsPerSlot := Nat.two_pow_pos _

theorem bit_lt (i : ℕ) : M.bit i < (i + 1) * M.bitsPerSlot := by
  have := M.bitsPerSlot_pos
  rw [bit, Nat.succ_mul]
  split_ifs <;> omega

theorem le_bit (i : ℕ) : i * M.bitsPerSlot ≤ M.bit i := Nat.le_add_right _ _

theorem bit_shift (i : ℕ) : M.bit i >>> M.shift = i := by
  rw [Nat.shiftRight_eq_div_pow]
  exact Nat.div_eq_of_lt_le (M.le_bit i) (M.bit_lt i)

theorem bit_lt_bit {i j : ℕ} : M.bit i < M.bit j ↔ i < j := by
  rw [bit, bit, Nat.add_lt_add_iff_right]
  exact Nat.mul_lt_mul_right M.bitsPerSlot_pos

theorem setWidth_true (w : ℕ) : (BitVec.ofBool true).setWidth w = 1#w := by
  apply BitVec.eq_of_toNat_eq
  simp

theorem single_true (i : ℕ) : M.single i true = BitVec.twoPow M.width (M.bit i) := by
  simp only [single, setWidth_true, bit]
  split_ifs
  · rw [← BitVec.shiftLeft_add, BitVec.twoPow_eq]
  · rw [Nat.add_zero, BitVec.twoPow_eq]

@[simp] theorem single_false (i : ℕ) : M.single i false = 0#M.width := by
  simp [single]

/-- The bits below a power of two. -/
theorem getLsbD_low {w k p : ℕ} (hk : k ≤ w) (hp : p < w) :
    (BitVec.twoPow w k - 1#w).getLsbD p = decide (p < k) := by
  have hw : 1 < 2 ^ w := Nat.one_lt_two_pow (by omega)
  have h1 : (1#w).toNat = 1 := by simp [Nat.mod_eq_of_lt hw]
  have hpos : 0 < 2 ^ k := Nat.two_pow_pos k
  have hle : 2 ^ k ≤ 2 ^ w := Nat.pow_le_pow_right two_pos hk
  have hlow : (BitVec.twoPow w k - 1#w).toNat = 2 ^ k - 1 := by
    rw [BitVec.toNat_sub, h1, BitVec.toNat_twoPow]
    rcases Nat.eq_or_lt_of_le hle with he | hlt
    · rw [he, Nat.mod_self, Nat.add_zero, Nat.mod_eq_of_lt (by omega)]
    · rw [Nat.mod_eq_of_lt hlt, show 2 ^ w - 1 + 2 ^ k = 2 ^ k - 1 + 2 ^ w by omega,
        Nat.add_mod_right, Nat.mod_eq_of_lt (by omega)]
  rw [BitVec.getLsbD, hlow, Nat.testBit_two_pow_sub_one]

/-- A loop that sets the bits at `f i`, for the indices that satisfy `p`. -/
theorem getLsbD_orBits {w : ℕ} (p : ℕ → Bool) (f : ℕ → ℕ) (j : ℕ) : ∀ (l : List ℕ) (m : BitVec w),
    (l.foldl (fun m i => m ||| (BitVec.ofBool (p i)).setWidth w <<< f i) m).getLsbD j =
      (m.getLsbD j || l.any fun i => p i && decide (j = f i ∧ j < w))
  | [], m => by simp
  | i :: l, m => by
      rw [List.foldl_cons, getLsbD_orBits p f j l, BitVec.getLsbD_or, BitVec.getLsbD_shiftLeft,
        BitVec.getLsbD_setWidth, BitVec.getLsbD_ofBool, List.any_cons, Bool.or_assoc]
      congr 2
      by_cases hw : j < w
      · rcases lt_trichotomy j (f i) with hlt | rfl | hgt
        · simp [hlt, Nat.ne_of_lt hlt]
        · have hpos : 0 < w := by omega
          cases p i <;> simp [hw, hpos]
        · simp [show j ≠ f i by omega, show j - f i ≠ 0 by omega]
      · simp [hw]

/-- A mask is zero if no slot is marked. -/
theorem hasNext_iff {K : ℕ} {m : BitVec M.width} (hm : M.IsMask K m) :
    M.hasNext m = true ↔ ∃ i < K, m.getLsbD (M.bit i) = true := by
  rw [hasNext, bne_iff_ne]
  constructor
  · intro hne
    by_contra hall
    refine hne (BitVec.eq_of_getLsbD_eq fun p _ => ?_)
    rw [BitVec.getLsbD_zero, Bool.eq_false_iff]
    intro hp
    obtain ⟨i, hi, rfl⟩ := hm p hp
    exact hall ⟨i, hi, hp⟩
  · rintro ⟨i, -, hp⟩ rfl
    rw [BitVec.getLsbD_zero] at hp
    cases hp

variable {K : ℕ} (hK : K * M.bitsPerSlot ≤ M.width)
include hK

theorem bit_lt_width {i : ℕ} (hi : i < K) : M.bit i < M.width :=
  (M.bit_lt i).trans_le ((Nat.mul_le_mul_right _ hi).trans hK)

omit hK in
theorem slotsFrom_eq : ∀ (n : ℕ) (m : BitVec M.width),
    M.slotsFrom n m = (BitScan.scan n m).map (· >>> M.shift)
  | 0, _ => rfl
  | n + 1, m => by
      rw [slotsFrom, BitScan.scan, slotsFrom_eq n]
      by_cases hm : m = 0#M.width
      · rw [if_neg (by simp [hasNext, hm]), if_pos hm]
        rfl
      · rw [if_pos (by simp [hasNext, hm]), if_neg hm]
        rfl

/-- The bits of a mask, as a list. -/
theorem bits_eq {m : BitVec M.width} (hm : M.IsMask K m) :
    (List.range M.width).filter m.getLsbD =
      ((List.range K).filter fun i => m.getLsbD (M.bit i)).map M.bit := by
  refine List.Pairwise.eq_of_mem_iff (r := (· < ·)) (List.pairwise_lt_range.filter _) ?_ fun p => ?_
  · rw [List.pairwise_map]
    exact (List.pairwise_lt_range.filter _).imp M.bit_lt_bit.mpr
  · simp only [List.mem_filter, List.mem_range, List.mem_map]
    constructor
    · rintro ⟨-, hp⟩
      obtain ⟨i, hi, rfl⟩ := hm p hp
      exact ⟨i, ⟨hi, hp⟩, rfl⟩
    · rintro ⟨i, ⟨hi, hp⟩, rfl⟩
      exact ⟨M.bit_lt_width hK hi, hp⟩

theorem slots_eq {m : BitVec M.width} (hm : M.IsMask K m) :
    M.slots m = (List.range K).filter fun i => m.getLsbD (M.bit i) := by
  rw [slots, slotsFrom_eq, BitScan.scan_eq m le_rfl, M.bits_eq hK hm, List.map_map]
  exact (List.map_congr_left fun i _ => M.bit_shift i).trans (List.map_id _)

theorem count_eq {m : BitVec M.width} (hm : M.IsMask K m) :
    M.count m = ((List.range K).filter fun i => m.getLsbD (M.bit i)).length := by
  rw [count, List.countP_eq_length_filter, M.bits_eq hK hm, List.length_map]

theorem next_single {i : ℕ} (hi : i < K) : M.next (M.single i true) = i := by
  have hlt := M.bit_lt_width hK hi
  have hne : M.single i true ≠ 0#M.width := by
    intro h
    have hb : (M.single i true).getLsbD (M.bit i) = true := by
      rw [single_true, BitVec.getLsbD_twoPow]
      simp [hlt]
    rw [h] at hb
    simp at hb
  have hb := BitVec.getLsbD_true_ctz_of_ne_zero hne
  rw [single_true, BitVec.getLsbD_twoPow, Bool.and_eq_true, decide_eq_true_iff,
    decide_eq_true_iff] at hb
  rw [next, single_true, ← hb.2, bit_shift]

/-- The mark of a slot survives `above` if the slot comes after the index. -/
theorem getLsbD_above {m : BitVec M.width} {a : ℤ} (h1 : -1 ≤ a) (h2 : a < K)
    {i : ℕ} (hi : i < K) :
    (M.above m a).getLsbD (M.bit i) = (m.getLsbD (M.bit i) && decide (a < i)) := by
  have hlt := M.bit_lt_width hK hi
  have hkeep : ∀ n : BitVec M.width, n.getLsbD (M.bit i) = decide (i ≤ a) →
      ((m ^^^ n) &&& m).getLsbD (M.bit i) = (m.getLsbD (M.bit i) && decide (a < i)) := by
    intro n hn
    rw [BitVec.getLsbD_and, BitVec.getLsbD_xor, hn, show decide (a < i) = !decide ((i : ℤ) ≤ a) by
      rw [← decide_not]; exact decide_eq_decide.mpr (not_le).symm]
    cases m.getLsbD (M.bit i) <;> simp
  refine hkeep _ ?_
  rcases Int.eq_ofNat_of_zero_le (show 0 ≤ a + 1 by omega) with ⟨k, hk⟩
  cases k with
  | zero =>
      obtain rfl : a = -1 := by omega
      simp [single_false]
      omega
  | succ k =>
      obtain rfl : a = k := by omega
      have hmax : max (k : ℤ) 0 = k := by omega
      rw [hmax, beq_self_eq_true, Int.toNat_natCast, single_true, setWidth_true,
        show BitVec.twoPow M.width (M.bit k) <<< 1 = BitVec.twoPow M.width (M.bit k + 1) by
          rw [BitVec.twoPow_eq, BitVec.twoPow_eq, BitVec.shiftLeft_add],
        getLsbD_low (M.bit_lt_width hK (by omega)) hlt, decide_eq_decide, Nat.lt_succ_iff,
        ← not_lt, M.bit_lt_bit]
      omega

omit hK in
theorem IsMask.above {m : BitVec M.width} (hm : M.IsMask K m) (a : ℤ) : M.IsMask K (M.above m a) := by
  intro p hp
  rw [MaskType.above, BitVec.getLsbD_and, Bool.and_eq_true] at hp
  exact hm p hp.2

end MaskType

end Nvhm
