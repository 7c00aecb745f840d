import NvHashMap.Mask
import NvHashMap.Bits
import NvHashMap.Lib.SlotSet

/-! # Masks are sets of slots

The other functions of `uint_mask`, and `bitset_mask`, which has one bit per slot and loops over the
bits.

* Of a `uint_mask` the words count that have no bit set but the marks of the slots (`IsMask`).
* Both implement the operations of `SlotSet.Ops` on the sets of marked slots (`masks_are_sets`). -/

namespace Nvhm

open SlotSet

/-! ### `uint_mask` -/

namespace MaskType
variable (M : MaskType)

/-- The start of `full`: a bit in every slot of the word. -/
def everySlot : BitVec M.width :=
  let m := Bits.broadcast M.width 0x01#8
  let m := if M.bitsPerSlot < 8 then m ||| m <<< 4 else m
  let m := if M.bitsPerSlot < 4 then m ||| m <<< 2 else m
  if M.bitsPerSlot < 2 then m ||| m <<< 1 else m

/-- `full`, of `K` slots. -/
def full (K : ℕ) : BitVec M.width :=
  let m := M.everySlot >>> (M.width - K * M.bitsPerSlot)
  if M.left then m <<< (M.bitsPerSlot - 1) else m

/-- `from`. -/
def from_ (m : BitVec M.width) (i : ℕ) : BitVec M.width :=
  let n := M.single i true - 1#M.width
  (m ^^^ n) &&& m

def intersect (m n : BitVec M.width) : BitVec M.width := m &&& n

def join (m n : BitVec M.width) : BitVec M.width := m ||| n

def drop (m n : BitVec M.width) : BitVec M.width := m &&& ~~~n

def contains (m n : BitVec M.width) : Bool := (m &&& n) == n

def truncate (m : BitVec M.width) : BitVec M.width := m ^^^ M.step m

/-- `at`. -/
def at_ (m : BitVec M.width) (i : ℕ) : Bool := (m &&& M.single i true) != 0#M.width

def ops (K : ℕ) : Ops (BitVec M.width) where
  empty := 0#M.width
  full := M.full K
  single i := M.single i true
  above := M.above
  from_ := M.from_
  intersect := M.intersect
  join := M.join
  drop := M.drop
  contains := M.contains
  hasNext := M.hasNext
  count := M.count
  next := M.next
  step := M.step
  truncate := M.truncate
  at_ := M.at_

/-- The slots that a mask marks. -/
def toSet (K : ℕ) (m : BitVec M.width) : Finset ℕ := below K fun i => m.getLsbD (M.bit i)

/-- The representations of the source: words of 32, 64 or 128 bits with up to eight bits per slot. -/
structure IsRepr (K : ℕ) : Prop where
  width : M.width = 32 ∨ M.width = 64 ∨ M.width = 128
  shift : M.shift ≤ 3
  used : K * M.bitsPerSlot ≤ M.width

/-! ### Marks -/

section Marks
variable {M} {K : ℕ} {m n : BitVec M.width}

theorem mem_toSet {i : ℕ} : i ∈ M.toSet K m ↔ i < K ∧ m.getLsbD (M.bit i) = true := mem_below

theorem bit_inj {i j : ℕ} : M.bit i = M.bit j ↔ i = j := by
  refine ⟨fun h => ?_, fun h => h ▸ rfl⟩
  rcases lt_trichotomy i j with hlt | heq | hgt
  · exact absurd h (Nat.ne_of_lt (M.bit_lt_bit.mpr hlt))
  · exact heq
  · exact absurd h.symm (Nat.ne_of_lt (M.bit_lt_bit.mpr hgt))

/-- A word whose bits are among those of a mask is a mask. -/
theorem IsMask.mono (hm : M.IsMask K m) (h : ∀ p, n.getLsbD p = true → m.getLsbD p = true) :
    M.IsMask K n := fun p hp => hm p (h p hp)

theorem ext_toSet (hm : M.IsMask K m) (hn : M.IsMask K n) (h : M.toSet K m = M.toSet K n) :
    m = n := by
  have hsub : ∀ {m n : BitVec M.width}, M.IsMask K m → M.toSet K m = M.toSet K n → ∀ p,
      m.getLsbD p = true → n.getLsbD p = true := by
    intro m n hm h p hp
    obtain ⟨i, hi, rfl⟩ := hm p hp
    exact (mem_toSet.mp (h ▸ mem_toSet.mpr ⟨hi, hp⟩)).2
  refine BitVec.eq_of_getLsbD_eq fun p _ => ?_
  rw [Bool.eq_iff_iff]
  exact ⟨hsub hm h p, hsub hn h.symm p⟩

/-- The set of a mask, from the marks of its slots. -/
theorem toSet_eq {s : Finset ℕ} (hs : ∀ i ∈ s, i < K)
    (h : ∀ i < K, m.getLsbD (M.bit i) = true ↔ i ∈ s) : M.toSet K m = s := by
  refine Finset.ext fun i => ?_
  rw [mem_toSet]
  exact ⟨fun hi => (h i hi.1).mp hi.2, fun hi => ⟨hs i hi, (h i (hs i hi)).mpr hi⟩⟩

/-- The lowest bit of a mask is the mark of its least slot. -/
theorem ctz_min (hm : M.IsMask K m) (h : (M.toSet K m).Nonempty) :
    m ≠ 0#M.width ∧ m.ctz.toNat = M.bit ((M.toSet K m).min' h) := by
  have hmem := mem_toSet.mp ((M.toSet K m).min'_mem h)
  have hctz : m.ctz.toNat = M.bit ((M.toSet K m).min' h) := by
    refine BitScan.ctz_eq hmem.2 fun p hp => ?_
    rw [Bool.eq_false_iff]
    intro hset
    obtain ⟨i, hi, rfl⟩ := hm p hset
    have hle := (M.toSet K m).min'_le i (mem_toSet.mpr ⟨hi, hset⟩)
    exact absurd (M.bit_lt_bit.mp hp) (not_lt.mpr hle)
  obtain ⟨i, hi⟩ : ∃ i, m.getLsbD i = true := ⟨_, hmem.2⟩
  refine ⟨fun hzero => ?_, hctz⟩
  rw [hzero, BitVec.getLsbD_zero] at hi
  cases hi

theorem step_spec (hm : M.IsMask K m) (h : (M.toSet K m).Nonempty) :
    M.IsMask K (M.step m) ∧ M.toSet K (M.step m) = (M.toSet K m).erase ((M.toSet K m).min' h) := by
  obtain ⟨hne, hctz⟩ := ctz_min hm h
  have hbit : ∀ p, (M.step m).getLsbD p = (m.getLsbD p && decide (p ≠ m.ctz.toNat)) :=
    BitScan.getLsbD_clearLowest hne
  refine ⟨hm.mono fun p hp => ?_, toSet_eq (fun i hi => ?_) fun i hi => ?_⟩
  · rw [hbit, Bool.and_eq_true] at hp
    exact hp.1
  · exact (mem_toSet.mp (Finset.mem_of_mem_erase hi)).1
  · rw [hbit, Bool.and_eq_true, decide_eq_true_iff, hctz, Ne, bit_inj, Finset.mem_erase, mem_toSet]
    exact ⟨fun h => ⟨h.2, hi, h.1⟩, fun h => ⟨h.2.2, h.1⟩⟩

theorem getLsbD_truncate (m : BitVec M.width) (p : ℕ) :
    (M.truncate m).getLsbD p = (m.getLsbD p && decide (p = m.ctz.toNat)) := by
  by_cases hne : m = 0#M.width
  · rw [truncate, step, hne]
    simp
  · have hbit : ∀ p, (M.step m).getLsbD p = (m.getLsbD p && decide (p ≠ m.ctz.toNat)) :=
      BitScan.getLsbD_clearLowest hne
    rw [truncate, BitVec.getLsbD_xor, hbit, decide_not]
    cases m.getLsbD p <;> simp

theorem truncate_spec (hm : M.IsMask K m) : M.IsMask K (M.truncate m) ∧
    M.toSet K (M.truncate m) = (M.toSet K m).filter fun i => ∀ j ∈ M.toSet K m, i ≤ j := by
  refine ⟨hm.mono fun p hp => ?_, toSet_eq (fun i hi => ?_) fun i hi => ?_⟩
  · rw [getLsbD_truncate, Bool.and_eq_true] at hp
    exact hp.1
  · exact (mem_toSet.mp (Finset.mem_filter.mp hi).1).1
  · rw [getLsbD_truncate, Bool.and_eq_true, decide_eq_true_iff, Finset.mem_filter]
    constructor
    · rintro ⟨hbit, hctz⟩
      refine ⟨mem_toSet.mpr ⟨hi, hbit⟩, fun j hj => ?_⟩
      rw [(ctz_min hm ⟨j, hj⟩).2, bit_inj] at hctz
      exact hctz ▸ (M.toSet K m).min'_le j hj
    · rintro ⟨hmem, hmin⟩
      have hne : (M.toSet K m).Nonempty := ⟨i, hmem⟩
      have heq : (M.toSet K m).min' hne = i :=
        le_antisymm ((M.toSet K m).min'_le i hmem) (hmin _ ((M.toSet K m).min'_mem hne))
      refine ⟨(mem_toSet.mp hmem).2, ?_⟩
      rw [(ctz_min hm hne).2, heq]

theorem intersect_spec (hm : M.IsMask K m) (n : BitVec M.width) :
    M.IsMask K (M.intersect m n) ∧ M.toSet K (M.intersect m n) = M.toSet K m ∩ M.toSet K n := by
  refine ⟨hm.mono fun p hp => ?_, toSet_eq (fun i hi => ?_) fun i hi => ?_⟩
  · rw [intersect, BitVec.getLsbD_and, Bool.and_eq_true] at hp
    exact hp.1
  · exact (mem_toSet.mp (Finset.mem_inter.mp hi).1).1
  · rw [intersect, BitVec.getLsbD_and, Bool.and_eq_true, Finset.mem_inter, mem_toSet, mem_toSet]
    exact ⟨fun h => ⟨⟨hi, h.1⟩, hi, h.2⟩, fun h => ⟨h.1.2, h.2.2⟩⟩

theorem join_spec (hm : M.IsMask K m) (hn : M.IsMask K n) :
    M.IsMask K (M.join m n) ∧ M.toSet K (M.join m n) = M.toSet K m ∪ M.toSet K n := by
  refine ⟨fun p hp => ?_, toSet_eq (fun i hi => ?_) fun i hi => ?_⟩
  · rw [join, BitVec.getLsbD_or, Bool.or_eq_true] at hp
    exact hp.elim (hm p) (hn p)
  · exact (Finset.mem_union.mp hi).elim (fun h => (mem_toSet.mp h).1) fun h => (mem_toSet.mp h).1
  · rw [join, BitVec.getLsbD_or, Bool.or_eq_true, Finset.mem_union, mem_toSet, mem_toSet]
    simp [hi]

theorem drop_spec (hm : M.IsMask K m) (n : BitVec M.width) :
    M.IsMask K (M.drop m n) ∧ M.toSet K (M.drop m n) = M.toSet K m \ M.toSet K n := by
  have hbit : ∀ p, (M.drop m n).getLsbD p = (m.getLsbD p && !n.getLsbD p) := by
    intro p
    rw [drop, BitVec.getLsbD_and, BitVec.getLsbD_not]
    rcases Nat.lt_or_ge p M.width with hp | hp
    · rw [decide_eq_true hp, Bool.true_and]
    · rw [BitVec.getLsbD_of_ge m p hp, Bool.false_and, Bool.false_and]
  refine ⟨hm.mono fun p hp => ?_, toSet_eq (fun i hi => ?_) fun i hi => ?_⟩
  · rw [hbit, Bool.and_eq_true] at hp
    exact hp.1
  · exact (mem_toSet.mp (Finset.mem_sdiff.mp hi).1).1
  · rw [hbit, Bool.and_eq_true, Finset.mem_sdiff, mem_toSet, mem_toSet]
    simp [hi]

theorem contains_spec (hn : M.IsMask K n) (m : BitVec M.width) :
    M.contains m n = true ↔ M.toSet K n ⊆ M.toSet K m := by
  rw [contains, beq_iff_eq]
  constructor
  · intro heq i hi
    obtain ⟨hlt, hbit⟩ := mem_toSet.mp hi
    rw [← heq, BitVec.getLsbD_and, Bool.and_eq_true] at hbit
    exact mem_toSet.mpr ⟨hlt, hbit.1⟩
  · intro hsub
    refine BitVec.eq_of_getLsbD_eq fun p _ => ?_
    rw [BitVec.getLsbD_and]
    cases hp : n.getLsbD p with
    | false => exact Bool.and_false _
    | true =>
        obtain ⟨i, hi, rfl⟩ := hn p hp
        rw [(mem_toSet.mp (hsub (mem_toSet.mpr ⟨hi, hp⟩))).2]
        rfl

variable (hK : K * M.bitsPerSlot ≤ M.width)
include hK

theorem getLsbD_single {i : ℕ} (hi : i < K) (p : ℕ) :
    (M.single i true).getLsbD p = decide (p = M.bit i) := by
  rw [single_true, BitVec.getLsbD_twoPow, decide_eq_true (M.bit_lt_width hK hi), Bool.true_and]
  exact decide_eq_decide.mpr eq_comm

theorem single_spec {i : ℕ} (hi : i < K) :
    M.IsMask K (M.single i true) ∧ M.toSet K (M.single i true) = {i} := by
  refine ⟨fun p hp => ?_, toSet_eq (fun j hj => ?_) fun j _ => ?_⟩
  · rw [getLsbD_single hK hi, decide_eq_true_iff] at hp
    exact ⟨i, hi, hp⟩
  · rw [Finset.mem_singleton] at hj
    exact hj ▸ hi
  · rw [getLsbD_single hK hi, decide_eq_true_iff, bit_inj, Finset.mem_singleton]

theorem above_spec (hm : M.IsMask K m) {a : ℤ} (h1 : -1 ≤ a) (h2 : a < K) :
    M.IsMask K (M.above m a) ∧
      M.toSet K (M.above m a) = (M.toSet K m).filter fun i : ℕ => a < i := by
  refine ⟨IsMask.above M hm a, toSet_eq (fun i hi => ?_) fun i hi => ?_⟩
  · exact (mem_toSet.mp (Finset.mem_filter.mp hi).1).1
  · rw [M.getLsbD_above hK h1 h2 hi, Bool.and_eq_true, decide_eq_true_iff, Finset.mem_filter,
      mem_toSet]
    exact ⟨fun h => ⟨⟨hi, h.1⟩, h.2⟩, fun h => ⟨h.1.2, h.2⟩⟩

theorem from_spec (hm : M.IsMask K m) {a : ℕ} (ha : a < K) :
    M.IsMask K (M.from_ m a) ∧ M.toSet K (M.from_ m a) = (M.toSet K m).filter fun i => a ≤ i := by
  refine ⟨hm.mono fun p hp => ?_, toSet_eq (fun i hi => ?_) fun i hi => ?_⟩
  · rw [from_, BitVec.getLsbD_and, Bool.and_eq_true] at hp
    exact hp.2
  · exact (mem_toSet.mp (Finset.mem_filter.mp hi).1).1
  · rw [from_, single_true, BitVec.getLsbD_and, BitVec.getLsbD_xor,
      getLsbD_low (M.bit_lt_width hK ha).le (M.bit_lt_width hK hi),
      show decide (M.bit i < M.bit a) = decide (i < a) from decide_eq_decide.mpr M.bit_lt_bit,
      Finset.mem_filter, mem_toSet]
    cases m.getLsbD (M.bit i) <;> simp [hi]

theorem at_spec {i : ℕ} (hi : i < K) : M.at_ m i = true ↔ i ∈ M.toSet K m := by
  rw [at_, bne_iff_ne, mem_toSet]
  constructor
  · intro hne
    refine ⟨hi, ?_⟩
    by_contra hc
    refine hne (BitVec.eq_of_getLsbD_eq fun p _ => ?_)
    rw [BitVec.getLsbD_and, getLsbD_single hK hi, BitVec.getLsbD_zero, Bool.and_eq_false_iff]
    by_cases hp : p = M.bit i
    · exact Or.inl (hp ▸ Bool.eq_false_iff.mpr hc)
    · exact Or.inr (decide_eq_false hp)
  · rintro ⟨-, hbit⟩ hzero
    have hset : (m &&& M.single i true).getLsbD (M.bit i) = true := by
      rw [BitVec.getLsbD_and, getLsbD_single hK hi, hbit, decide_eq_true rfl]
      rfl
    rw [hzero, BitVec.getLsbD_zero] at hset
    cases hset

end Marks

/-! ### The full mask -/

section Full
variable {w : ℕ}

theorem getLsbD_ones (hw : w = 32 ∨ w = 64 ∨ w = 128) {i : ℕ} (hi : i < w) :
    (Bits.broadcast w 0x01#8).getLsbD i = decide (i % 8 = 0) := by
  have hbyte : ∀ r < 8, (0x01#8).getLsbD r = decide (r = 0) := by decide
  rw [← hbyte _ (Nat.mod_lt i (by decide))]
  rcases hw with rfl | rfl | rfl
  · exact Bits.getLsbD_broadcast (a := 0) (k := 2) (by decide) _ hi
  · exact Bits.getLsbD_broadcast (a := 0) (k := 3) (by decide) _ hi
  · exact Bits.getLsbD_broadcast (a := 0) (k := 4) (by decide) _ hi

/-- Twice as many bits. -/
theorem getLsbD_or_shiftLeft {c : ℕ} (hc : c = 4 ∨ c = 2 ∨ c = 1) {m : BitVec w}
    (h : ∀ i < w, m.getLsbD i = decide (i % (2 * c) = 0)) :
    ∀ i < w, (m ||| m <<< c).getLsbD i = decide (i % c = 0) := by
  intro i hi
  rw [BitVec.getLsbD_or, BitVec.getLsbD_shiftLeft, h i hi, h (i - c) (by omega), decide_eq_true hi,
    Bool.true_and, Bool.eq_iff_iff]
  simp only [Bool.or_eq_true, Bool.and_eq_true, Bool.not_eq_true', decide_eq_true_eq,
    decide_eq_false_iff_not]
  rcases hc with rfl | rfl | rfl
  · omega
  · omega
  · omega

variable {M} {K : ℕ} (h : M.IsRepr K)
include h

theorem getLsbD_everySlot {i : ℕ} (hi : i < M.width) :
    M.everySlot.getLsbD i = decide (i % M.bitsPerSlot = 0) := by
  have h8 : ∀ i < M.width, (Bits.broadcast M.width 0x01#8).getLsbD i = decide (i % 8 = 0) :=
    fun i hi => getLsbD_ones h.width hi
  have h4 := getLsbD_or_shiftLeft (Or.inl rfl) h8
  have h2 := getLsbD_or_shiftLeft (Or.inr (Or.inl rfl)) h4
  have h1 := getLsbD_or_shiftLeft (Or.inr (Or.inr rfl)) h2
  have hshift := h.shift
  unfold everySlot bitsPerSlot
  obtain h0 | h0 | h0 | h0 : M.shift = 0 ∨ M.shift = 1 ∨ M.shift = 2 ∨ M.shift = 3 := by omega
  · rw [h0]
    exact h1 i hi
  · rw [h0]
    exact h2 i hi
  · rw [h0]
    exact h4 i hi
  · rw [h0]
    exact h8 i hi

theorem dvd_width : M.bitsPerSlot ∣ M.width := by
  have h32 : M.bitsPerSlot ∣ 32 := (Nat.pow_dvd_pow_iff_le_right (by decide)).mpr
    (show M.shift ≤ 5 by have := h.shift; omega)
  rcases h.width with hw | hw | hw
  · rw [hw]
    exact h32
  · rw [hw]
    exact h32.trans (by decide)
  · rw [hw]
    exact h32.trans (by decide)

theorem getLsbD_full (p : ℕ) :
    (M.full K).getLsbD p = true ↔ ∃ i < K, p = M.bit i := by
  have hpos := M.bitsPerSlot_pos
  have hused := h.used
  have hbit : ∀ i, (M.everySlot >>> (M.width - K * M.bitsPerSlot)).getLsbD i = true ↔
      ∃ j < K, i = j * M.bitsPerSlot := by
    intro i
    obtain ⟨c, hc⟩ := dvd_width h
    have hKc : K ≤ c := by
      refine Nat.le_of_mul_le_mul_left ?_ hpos
      rwa [← hc, Nat.mul_comm]
    have hsub : M.width - K * M.bitsPerSlot = M.bitsPerSlot * (c - K) := by
      rw [hc, Nat.mul_sub, Nat.mul_comm K]
    rw [BitVec.getLsbD_ushiftRight]
    rcases Nat.lt_or_ge i (K * M.bitsPerSlot) with hlt | hge
    · rw [getLsbD_everySlot h (by omega), hsub, Nat.mul_add_mod, decide_eq_true_iff]
      constructor
      · intro hmod
        refine ⟨i / M.bitsPerSlot, Nat.div_lt_of_lt_mul (by rwa [Nat.mul_comm]), ?_⟩
        rw [Nat.div_mul_cancel (Nat.dvd_of_mod_eq_zero hmod)]
      · rintro ⟨j, -, rfl⟩
        exact Nat.mul_mod_left _ _
    · rw [BitVec.getLsbD_of_ge _ _ (by omega)]
      refine iff_of_false Bool.false_ne_true ?_
      rintro ⟨j, hj, rfl⟩
      exact absurd (Nat.mul_lt_mul_of_pos_right hj hpos) (not_lt.mpr hge)
  unfold full bit
  dsimp only
  split_ifs with hleft
  · rw [BitVec.getLsbD_shiftLeft, Bool.and_eq_true, Bool.and_eq_true, hbit]
    simp only [decide_eq_true_eq, Bool.not_eq_true', decide_eq_false_iff_not, not_lt]
    constructor
    · rintro ⟨⟨-, hle⟩, j, hj, hp⟩
      exact ⟨j, hj, by omega⟩
    · rintro ⟨j, hj, rfl⟩
      have hlt := M.bit_lt_width hused hj
      rw [bit, if_pos hleft] at hlt
      exact ⟨⟨hlt, by omega⟩, j, hj, by omega⟩
  · rw [hbit]
    rfl

theorem full_spec : M.IsMask K (M.full K) ∧ M.toSet K (M.full K) = Finset.range K := by
  refine ⟨fun p hp => (getLsbD_full h p).mp hp, toSet_eq (fun i hi => ?_) fun i hi => ?_⟩
  · exact Finset.mem_range.mp hi
  · rw [getLsbD_full h, Finset.mem_range]
    exact iff_of_true ⟨i, hi, rfl⟩ hi

/-- `uint_mask` implements sets of slots. -/
theorem implements : Implements (M.ops K) K (M.IsMask K) (M.toSet K) where
  lt _ _ hi := (mem_toSet.mp hi).1
  ext _ _ := ext_toSet
  empty := by
    refine ⟨fun p hp => ?_, toSet_eq (fun i hi => absurd hi (Finset.notMem_empty i)) fun i _ => ?_⟩
    · rw [show (M.ops K).empty = 0#M.width from rfl, BitVec.getLsbD_zero] at hp
      cases hp
    · rw [show (M.ops K).empty = 0#M.width from rfl, BitVec.getLsbD_zero]
      exact iff_of_false Bool.false_ne_true (Finset.notMem_empty i)
  full := full_spec h
  single _ := single_spec h.used
  above _ _ hm h1 h2 := above_spec h.used hm h1 h2
  from_ _ _ hm := from_spec h.used hm
  intersect _ n hm _ := intersect_spec hm n
  join _ _ := join_spec
  drop _ n hm _ := drop_spec hm n
  contains m _ _ hn := contains_spec hn m
  hasNext m hm := by
    refine (M.hasNext_iff hm).trans ⟨fun ⟨i, hi, hb⟩ => ⟨i, mem_toSet.mpr ⟨hi, hb⟩⟩, ?_⟩
    rintro ⟨i, hi⟩
    exact ⟨i, mem_toSet.mp hi⟩
  count m hm := by
    refine (M.count_eq h.used hm).trans ?_
    exact (card_below K fun i => m.getLsbD (M.bit i)).symm
  next m hm hne := by
    change m.ctz.toNat >>> M.shift = _
    rw [(ctz_min hm hne).2, bit_shift]
  step _ := step_spec
  truncate _ := truncate_spec
  at_ _ _ _ := at_spec h.used

end Full

end MaskType

/-! ### `bitset_mask`, of `K` slots: `std::bitset` is a word of `K` bits -/

namespace BitsetMask
variable {K : ℕ}

/-- `m[i] = false`. -/
def clear (m : BitVec K) (i : ℕ) : BitVec K := m &&& ~~~BitVec.twoPow K i

/-- `m[i] = true`. -/
def set (m : BitVec K) (i : ℕ) : BitVec K := m ||| BitVec.twoPow K i

def single (i : ℕ) : BitVec K := set 0#K i

/-- `from`. -/
def from_ (m : BitVec K) (i : ℕ) : BitVec K := (List.range i).foldl clear m

def above (m : BitVec K) (i : ℤ) : BitVec K := (List.range (i + 1).toNat).foldl clear m

/-- The loop of `next`. -/
def nextLoop (m : BitVec K) : ℕ → ℕ → ℕ
  | 0, i => i
  | n + 1, i => if m.getLsbD i then i else nextLoop m n (i + 1)

def next (m : BitVec K) : ℕ := nextLoop m K 0

def step (m : BitVec K) : BitVec K := clear m (next m)

def truncate (m : BitVec K) : BitVec K :=
  match (List.range K).find? fun i => m.getLsbD i with
  | some i => set 0#K i
  | none => 0#K

def ops (K : ℕ) : Ops (BitVec K) where
  empty := 0#K
  full := BitVec.allOnes K
  single := single
  above := above
  from_ := from_
  intersect m n := m &&& n
  join m n := m ||| n
  drop m n := m &&& ~~~n
  contains m n := (m &&& n) == n
  hasNext m := m != 0#K
  count m := (List.range K).countP m.getLsbD
  next := next
  step := step
  truncate := truncate
  at_ m i := m.getLsbD i

def toSet (m : BitVec K) : Finset ℕ := below K m.getLsbD

theorem mem_toSet {m : BitVec K} {i : ℕ} : i ∈ toSet m ↔ m.getLsbD i = true := by
  rw [toSet, mem_below]
  exact ⟨fun h => h.2, fun h => ⟨BitVec.lt_of_getLsbD h, h⟩⟩

theorem mem_clear {m : BitVec K} {i j : ℕ} : i ∈ toSet (clear m j) ↔ i ∈ toSet m ∧ i ≠ j := by
  rw [mem_toSet, mem_toSet, clear, BitVec.getLsbD_and, BitVec.getLsbD_not, BitVec.getLsbD_twoPow,
    Bool.and_eq_true]
  refine and_congr_right fun hi => ?_
  have hlt := BitVec.lt_of_getLsbD hi
  simp [hlt]
  omega

theorem mem_set {m : BitVec K} {i j : ℕ} (hj : j < K) : i ∈ toSet (set m j) ↔ i ∈ toSet m ∨ i = j := by
  rw [mem_toSet, mem_toSet, set, BitVec.getLsbD_or, BitVec.getLsbD_twoPow, decide_eq_true hj,
    Bool.true_and, Bool.or_eq_true, decide_eq_true_iff]
  exact or_congr_right eq_comm

theorem mem_foldl_clear {i : ℕ} : ∀ {l : List ℕ} {m : BitVec K},
    i ∈ toSet (l.foldl clear m) ↔ i ∈ toSet m ∧ i ∉ l
  | [], m => by simp
  | j :: l, m => by
      rw [List.foldl_cons, mem_foldl_clear, mem_clear, List.mem_cons, not_or, and_assoc]

theorem toSet_zero : toSet (0#K) = ∅ := by
  refine Finset.eq_empty_of_forall_notMem fun i hi => ?_
  rw [mem_toSet, BitVec.getLsbD_zero] at hi
  cases hi

/-- The loop stops at the least slot. -/
theorem nextLoop_eq {m : BitVec K} {j : ℕ} (hj : m.getLsbD j = true)
    (hmin : ∀ i < j, m.getLsbD i = false) : ∀ (n i : ℕ), i ≤ j → j < i + n → nextLoop m n i = j
  | 0, i, hi, hn => by omega
  | n + 1, i, hi, hn => by
      rw [nextLoop]
      rcases Nat.lt_or_eq_of_le hi with hlt | rfl
      · rw [if_neg (by rw [hmin i hlt]; exact Bool.false_ne_true)]
        exact nextLoop_eq hj hmin n (i + 1) hlt (by omega)
      · rw [if_pos hj]

theorem next_eq {m : BitVec K} (h : (toSet m).Nonempty) : next m = (toSet m).min' h := by
  have hmem := mem_toSet.mp ((toSet m).min'_mem h)
  refine nextLoop_eq hmem (fun i hi => ?_) K 0 (Nat.zero_le _) ?_
  · rw [Bool.eq_false_iff]
    intro hset
    exact absurd hi (not_lt.mpr ((toSet m).min'_le i (mem_toSet.mpr hset)))
  · rw [Nat.zero_add]
    exact BitVec.lt_of_getLsbD hmem

theorem mem_truncate {m : BitVec K} {i : ℕ} :
    i ∈ toSet (truncate m) ↔ i ∈ toSet m ∧ ∀ j ∈ toSet m, i ≤ j := by
  rw [truncate]
  cases hf : (List.range K).find? fun i => m.getLsbD i with
  | none =>
      dsimp only
      rw [toSet_zero]
      refine iff_of_false (Finset.notMem_empty i) fun h => ?_
      have hi := mem_toSet.mp h.1
      exact List.find?_eq_none.mp hf i (List.mem_range.mpr (BitVec.lt_of_getLsbD hi)) hi
  | some j =>
      dsimp only
      obtain ⟨hj, pre, post, hsplit, hpre⟩ := List.find?_eq_some_iff_append.mp hf
      have hjK := BitVec.lt_of_getLsbD hj
      have hmin : ∀ i ∈ toSet m, j ≤ i := by
        intro i hi
        by_contra hlt
        have hi' := mem_toSet.mp hi
        have hmem : i ∈ pre ++ j :: post := hsplit ▸ List.mem_range.mpr (BitVec.lt_of_getLsbD hi')
        rcases List.mem_append.mp hmem with hp | hp
        · have := hpre i hp
          rw [hi'] at this
          cases this
        · have hsorted : (pre ++ j :: post).Pairwise (· < ·) := hsplit ▸ List.pairwise_lt_range
          have htail := (List.pairwise_append.mp hsorted).2.1
          rcases List.mem_cons.mp hp with rfl | hp
          · exact hlt le_rfl
          · exact hlt ((List.pairwise_cons.mp htail).1 i hp).le
      rw [mem_set hjK, toSet_zero]
      constructor
      · rintro (h | rfl)
        · exact absurd h (Finset.notMem_empty i)
        · exact ⟨mem_toSet.mpr hj, hmin⟩
      · rintro ⟨hi, hle⟩
        exact Or.inr (le_antisymm (hle j (mem_toSet.mpr hj)) (hmin i hi))

/-- `bitset_mask` implements sets of slots. -/
theorem implements : Implements (ops K) K (fun _ => True) toSet where
  lt _ _ hi := BitVec.lt_of_getLsbD (mem_toSet.mp hi)
  ext m n _ _ h := by
    refine BitVec.eq_of_getLsbD_eq fun i _ => ?_
    rw [Bool.eq_iff_iff, ← mem_toSet, ← mem_toSet, h]
  empty := ⟨trivial, toSet_zero⟩
  full := by
    refine ⟨trivial, Finset.ext fun i => ?_⟩
    rw [mem_toSet, Finset.mem_range]
    change (BitVec.allOnes K).getLsbD i = true ↔ _
    rw [BitVec.getLsbD_allOnes, decide_eq_true_iff]
  single i hi := by
    refine ⟨trivial, Finset.ext fun j => ?_⟩
    change j ∈ toSet (set 0#K i) ↔ _
    rw [mem_set hi, toSet_zero, Finset.mem_singleton]
    simp
  above m a _ _ _ := by
    refine ⟨trivial, Finset.ext fun i => ?_⟩
    change i ∈ toSet ((List.range (a + 1).toNat).foldl clear m) ↔ _
    rw [mem_foldl_clear, Finset.mem_filter, List.mem_range]
    refine and_congr_right fun _ => ?_
    omega
  from_ m a _ _ := by
    refine ⟨trivial, Finset.ext fun i => ?_⟩
    change i ∈ toSet ((List.range a).foldl clear m) ↔ _
    rw [mem_foldl_clear, Finset.mem_filter, List.mem_range, not_lt]
  intersect m n _ _ := by
    refine ⟨trivial, Finset.ext fun i => ?_⟩
    change i ∈ toSet (m &&& n) ↔ _
    rw [Finset.mem_inter, mem_toSet, mem_toSet, mem_toSet, BitVec.getLsbD_and, Bool.and_eq_true]
  join m n _ _ := by
    refine ⟨trivial, Finset.ext fun i => ?_⟩
    change i ∈ toSet (m ||| n) ↔ _
    rw [Finset.mem_union, mem_toSet, mem_toSet, mem_toSet, BitVec.getLsbD_or, Bool.or_eq_true]
  drop m n _ _ := by
    refine ⟨trivial, Finset.ext fun i => ?_⟩
    change i ∈ toSet (m &&& ~~~n) ↔ _
    rw [Finset.mem_sdiff, mem_toSet, mem_toSet, mem_toSet, BitVec.getLsbD_and, BitVec.getLsbD_not,
      Bool.and_eq_true]
    refine and_congr_right fun hi => ?_
    simp [BitVec.lt_of_getLsbD hi]
  contains m n _ _ := by
    change ((m &&& n) == n) = true ↔ _
    rw [beq_iff_eq]
    constructor
    · intro heq i hi
      rw [mem_toSet, ← heq, BitVec.getLsbD_and, Bool.and_eq_true] at hi
      exact mem_toSet.mpr hi.1
    · intro hsub
      refine BitVec.eq_of_getLsbD_eq fun i _ => ?_
      rw [BitVec.getLsbD_and]
      cases hi : n.getLsbD i with
      | false => exact Bool.and_false _
      | true =>
          rw [mem_toSet.mp (hsub (mem_toSet.mpr hi))]
          rfl
  hasNext m _ := by
    change (m != 0#K) = true ↔ _
    rw [bne_iff_ne, Finset.nonempty_iff_ne_empty, ← toSet_zero (K := K), not_iff_not]
    refine ⟨fun h => h ▸ rfl, fun h => BitVec.eq_of_getLsbD_eq fun i _ => ?_⟩
    rw [Bool.eq_iff_iff, ← mem_toSet, ← mem_toSet, h]
  count m _ := by
    rw [toSet, card_below]
    exact List.countP_eq_length_filter
  next _ _ h := next_eq h
  step m _ h := by
    refine ⟨trivial, Finset.ext fun i => ?_⟩
    change i ∈ toSet (clear m (next m)) ↔ _
    rw [mem_clear, next_eq h, Finset.mem_erase, and_comm]
  truncate m _ := ⟨trivial, Finset.ext fun i => by rw [Finset.mem_filter]; exact mem_truncate⟩
  at_ _ _ _ _ := mem_toSet.symm

end BitsetMask

/-! ### Main result -/

/-- `uint_mask`, in every word with every number of bits per slot and both alignments, and
`bitset_mask` implement the sets of slots: all operations are those of sets, the loop over a mask
lists its slots in ascending order and ends, and masks of both kinds with the same slots look the
same. -/
theorem masks_are_sets {M : MaskType} {K : ℕ} (h : M.IsRepr K) :
    Implements (M.ops K) K (M.IsMask K) (M.toSet K) ∧
    Implements (BitsetMask.ops K) K (fun _ => True) BitsetMask.toSet ∧
    (∀ m, M.IsMask K m → ∀ n, K ≤ n → (M.ops K).scan n m = (M.toSet K m).sort (· ≤ ·)) ∧
    (∀ b n, K ≤ n → (BitsetMask.ops K).scan n b = (BitsetMask.toSet b).sort (· ≤ ·)) ∧
    ∀ m b, M.IsMask K m → M.toSet K m = BitsetMask.toSet b →
      Alike (M.ops K) (BitsetMask.ops K) K m b := by
  have hu : Implements (M.ops K) K (M.IsMask K) (M.toSet K) := MaskType.implements h
  have hb : Implements (BitsetMask.ops K) K (fun _ => True) BitsetMask.toSet := BitsetMask.implements
  exact ⟨hu, hb, fun m hm n hn => hu.scan_eq n hm ((hu.card_le m).trans hn),
    fun b n hn => hb.scan_eq n trivial ((hb.card_le b).trans hn),
    fun m b hm heq => hu.alike hb hm trivial heq⟩

/-- The slots 1 and 7 of eight, in a word of eight bytes and in a bit set. -/
theorem masks_are_sets_words :
    let M : MaskType := ⟨64, 3, true⟩
    (M.ops 8).scan 8 (0x8000000000008000#64) = (BitsetMask.ops 8).scan 8 0x82#8 ∧
      (BitsetMask.ops 8).scan 8 0x82#8 = [1, 7] := by
  intro M
  have hbits : ∀ p < 64, (0x8000000000008000#64).getLsbD p = true → ∃ i < 8, p = M.bit i := by
    decide
  have hmask : M.IsMask 8 0x8000000000008000#64 := fun p hp => hbits p (BitVec.lt_of_getLsbD hp) hp
  obtain ⟨-, -, -, -, halike⟩ := masks_are_sets (M := M) (K := 8)
    ⟨Or.inr (Or.inl rfl), le_rfl, le_rfl⟩
  exact ⟨(halike _ 0x82#8 hmask (by decide)).scan 8 le_rfl, by decide⟩

end Nvhm
