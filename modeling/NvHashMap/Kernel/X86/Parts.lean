import NvHashMap.Kernel.ArrayFunctions
import NvHashMap.Lib.X86

/-! # What the x86 kernels share

`sse_kernel`, `avx_kernel` and `avx512_kernel` of `kernel.hpp` have one register of `K` bytes and masks
with a bit per slot.  They write some functions each in its own way (`Parts`); the others are the same
text for all three (`Parts.fns`).  If the parts do what they should to every byte (`Parts.Correct`),
all functions are correct. -/

namespace Nvhm

open Buffer Lanes Simd SlotSet X86

namespace X86Kernel
variable {W w : ℕ}

/-- `mask_type`. -/
def maskType (w : ℕ) : MaskType where
  width := w
  shift := 0
  left := false

/-- The functions that each kernel writes in its own way. -/
structure Parts (W w : ℕ) where
  maskHash : BitVec W → BitVec w
  maskNotHash : BitVec W → BitVec w
  maskEmpty : BitVec W → BitVec w
  maskNotEmpty : BitVec W → BitVec w
  maskEqual : BitVec W → BitVec W → BitVec w
  maskNotEqual : BitVec W → BitVec W → BitVec w
  /-- The mask that `count_equal` counts. -/
  countMask : BitVec W → BitVec W → BitVec w
  hashToTombstone : BitVec W → BitVec W
  toEmpty : BitVec W → BitVec w → BitVec W
  stateAt : BitVec W → ℕ → BitVec 8
  /-- `min_reduce_epu8`: the least counter, in the lowest byte. -/
  minReduce : BitVec W → BitVec 128
  /-- The lowest byte in all bytes, as `min_lru` does it. -/
  broadcast : BitVec 128 → BitVec W
  /-- The lowest byte in all bytes, as `mask_min_lru` does it. -/
  maskBroadcast : BitVec 128 → BitVec W
  maskLruBelow : BitVec W → Lru → BitVec w
  /-- The rescaling in `update_lru`. -/
  halve : BitVec W → BitVec W
  /-- The increment in `update_lru`. -/
  increment : BitVec W → BitVec w → BitVec W
  toEmptyIfLruBelow : BitVec W → BitVec W → Lru → BitVec W

/-- `store`. -/
def store (K : ℕ) (x : BitVec W) : List (BitVec 8) := (List.range K).map (lane x)

/-- The functions of a kernel of `K` slots. -/
def Parts.fns (P : Parts W w) (K : ℕ) : KernelFns (BitVec W) (BitVec W) (BitVec w) where
  maskType := (maskType w).ops K
  load b := pack W b
  store := store K
  mask k s := P.maskEqual k (set1Epi8 W s)
  maskNot k s := P.maskNotEqual k (set1Epi8 W s)
  maskHash := P.maskHash
  maskNotHash := P.maskNotHash
  maskEmpty := P.maskEmpty
  maskNotEmpty := P.maskNotEmpty
  maskTombstone k := P.maskEqual k (set1Epi8 W tombstone)
  maskNotTombstone k := P.maskNotEqual k (set1Epi8 W tombstone)
  maskEqual := P.maskEqual
  maskNotEqual := P.maskNotEqual
  hasHash k := P.maskHash k != 0#w
  hasNotHash k := P.maskNotHash k != 0#w
  hasEmpty k := P.maskEmpty k != 0#w
  hasNotEmpty k := P.maskNotEmpty k != 0#w
  hasTombstone k := P.maskEqual k (set1Epi8 W tombstone) != 0#w
  hasNotTombstone k := P.maskNotEqual k (set1Epi8 W tombstone) != 0#w
  countEqual k0 k1 := (maskType w).count (P.countMask k0 k1)
  countNotEqual k0 k1 := (maskType w).count (P.maskNotEqual k0 k1)
  hashToTombstone := P.hashToTombstone
  notHashToEmpty k := minEpu8 k (set1Epi8 W empty)
  toEmpty := P.toEmpty
  stateAt := P.stateAt
  loadLru l := pack W l
  storeLru := store K
  minLru l :=
    let s := P.minReduce l
    let lru : Lru := (cvtsi128Si32 s).setWidth 8
    (lru, (maskType w).next (P.maskEqual l (P.broadcast s)))
  maskMinLru l := P.maskEqual l (P.maskBroadcast (P.minReduce l))
  maskLruBelow := P.maskLruBelow
  updateLru l n :=
    let n : BitVec w := (maskType w).truncate n
    let l :=
      if (maskType w).hasNext (P.maskEqual l (set1Epi8 W maxLru) &&& n) then P.halve l else l
    P.increment l n
  toEmptyIfLruBelow := P.toEmptyIfLruBelow
  lruAt := P.stateAt

def Parts.has (P : Parts W w) (k : BitVec W) (s : State) : Bool :=
  P.maskEqual k (set1Epi8 W s) != 0#w

def Parts.hasNot (P : Parts W w) (k : BitVec W) (s : State) : Bool :=
  P.maskNotEqual k (set1Epi8 W s) != 0#w

/-- The sets that masks denote. -/
def sets (w K : ℕ) : MaskSets (BitVec w) := ⟨(maskType w).IsMask K, (maskType w).toSet K⟩

/-- The bits of a mask. -/
def Bits (K : ℕ) (m : BitVec w) (p : ℕ → Bool) : Prop :=
  ∀ j, m.getLsbD j = true ↔ j < K ∧ p j = true

/-- The mask of one slot. -/
def single (w i : ℕ) : BitVec w := (maskType w).single i true

theorem getLsbD_single {n : ℕ} (hn : n < w) (j : ℕ) : (single w n).getLsbD j = decide (j = n) := by
  have hbit : (maskType w).bit n = n := by
    simp [MaskType.bit, MaskType.bitsPerSlot, maskType]
  unfold single
  rw [MaskType.single_true, hbit]
  refine (BitVec.getLsbD_twoPow n j).trans ?_
  rw [decide_eq_true hn, Bool.true_and]
  exact decide_eq_decide.mpr eq_comm

/-- The parts do what they should to every byte. -/
structure Parts.Correct (P : Parts W w) (K : ℕ) : Prop where
  maskHash : ∀ x, Bits K (P.maskHash x) fun i => isHash (lane x i)
  maskNotHash : ∀ x, Bits K (P.maskNotHash x) fun i => !isHash (lane x i)
  maskEmpty : ∀ x, (∀ i < K, validState (lane x i) = true) →
    Bits K (P.maskEmpty x) fun i => lane x i == empty
  maskNotEmpty : ∀ x, (∀ i < K, validState (lane x i) = true) →
    Bits K (P.maskNotEmpty x) fun i => lane x i != empty
  maskEqual : ∀ x y, Bits K (P.maskEqual x y) fun i => lane x i == lane y i
  maskNotEqual : ∀ x y, Bits K (P.maskNotEqual x y) fun i => lane x i != lane y i
  countMask : ∀ x y, Bits K (P.countMask x y) fun i => lane x i == lane y i
  hashToTombstone : ∀ x, ∀ i < K, validState (lane x i) = true →
    lane (P.hashToTombstone x) i = if isHash (lane x i) then tombstone else lane x i
  toEmpty : ∀ x m, ∀ i < K, lane (P.toEmpty x m) i = if m.getLsbD i then empty else lane x i
  stateAt : ∀ x, ∀ i < K, P.stateAt x i = lane x i
  minReduce : ∀ l, IsMin (lane l) (· < K) (lane (P.minReduce l) 0)
  broadcast : ∀ s, ∀ i < K, lane (P.broadcast s) i = lane s 0
  maskBroadcast : ∀ s, ∀ i < K, lane (P.maskBroadcast s) i = lane s 0
  maskLruBelow : ∀ l (t : Lru),
    Bits K (P.maskLruBelow l t) fun i => decide ((lane l i).toNat < t.toNat)
  halve : ∀ l, ∀ i < K, lane (P.halve l) i = lane l i >>> 1
  increment : ∀ l s, s < K → ∀ i < K,
    lane (P.increment l (single w s)) i = lane l i + if i = s then 1 else 0
  toEmptyIfLruBelow : ∀ x l (t : Lru), ∀ i < K, lane (P.toEmptyIfLruBelow x l t) i =
    if (lane l i).toNat < t.toNat then empty else lane x i

/-- `cmplt_epu8`. -/
def cmpltEpu8 (a b : BitVec W) : BitVec W :=
  let bias := set1Epi8 W 0x80
  let a := a ^^^ bias
  let b := b ^^^ bias
  cmpgtEpi8 b a

/-- The macros that select the variants of a kernel. -/
structure Target where
  /-- `NVHM_WITH_SSE`. -/
  sse : ℕ
  /-- `NVHM_WITH_AVX`. -/
  avx : ℕ
  /-- `NVHM_WITH_AVX_BWVL`. -/
  bwvl : Bool
  /-- `NVHM_WITH_AVX_VBMI`. -/
  vbmi : Bool
  /-- `__GNUC__` without `__clang__`. -/
  gcc : Bool

/-! ### Tricks -/

section Tricks
variable {K : ℕ}

theorem Bits.congr {m : BitVec w} {p q : ℕ → Bool} (h : Bits K m p) (heq : ∀ i < K, p i = q i) :
    Bits K m q := by
  intro j
  rw [h j]
  exact and_congr_right fun hj => by rw [heq j hj]

theorem bits_bitMask (hK : K ≤ w) (p : ℕ → Bool) : Bits K (bitMask w K p) p := by
  intro j
  rw [getLsbD_bitMask]
  exact ⟨fun hj => hj.2, fun hj => ⟨by omega, hj⟩⟩

section Width
variable (hW : W / 8 = K) (hK : K ≤ w) (x y : BitVec W)
include hW hK

theorem bits_movemask : Bits K (movemaskEpi8 w x) fun i => (lane x i).msb := by
  unfold movemaskEpi8
  rw [hW]
  exact bits_bitMask hK _

theorem bits_movepi8 : Bits K (movepi8Mask w x) fun i => (lane x i).msb := by
  unfold movepi8Mask
  rw [hW]
  exact bits_bitMask hK _

theorem bits_cmpeq : Bits K (cmpeqEpi8Mask w x y) fun i => lane x i == lane y i := by
  unfold cmpeqEpi8Mask
  rw [hW]
  exact bits_bitMask hK _

theorem bits_cmpneq : Bits K (cmpneqEpi8Mask w x y) fun i => lane x i != lane y i := by
  unfold cmpneqEpi8Mask
  rw [hW]
  exact bits_bitMask hK _

theorem bits_cmplt (t : Lru) : Bits K (cmpltEpu8Mask w x (set1Epi8 W t)) fun i =>
    decide ((lane x i).toNat < t.toNat) := by
  unfold cmpltEpu8Mask
  rw [hW]
  refine (bits_bitMask hK _).congr fun i hi => ?_
  rw [lane_set1Epi8 (by omega)]

end Width

theorem Bits.not {m : BitVec w} {p : ℕ → Bool} (h : Bits w m p) : Bits w (~~~m) fun i => !p i := by
  intro j
  have hj := h j
  rw [BitVec.getLsbD_not, Bool.and_eq_true, decide_eq_true_iff, Bool.not_eq_true', Bool.not_eq_true']
  refine and_congr_right fun hlt => ?_
  rw [and_iff_right hlt] at hj
  exact Bool.eq_false_iff.trans ((not_congr hj).trans Bool.eq_false_iff.symm)

theorem Bits.xor_full {m full : BitVec w} {p : ℕ → Bool} (h : Bits K m p)
    (hfull : Bits K full fun _ => true) : Bits K (m ^^^ full) fun i => !p i := by
  intro j
  have hj := h j
  have hf := hfull j
  rw [and_iff_left rfl] at hf
  rw [BitVec.getLsbD_xor]
  by_cases hlt : j < K
  · rw [hf.mpr hlt, Bool.xor_true, and_iff_right hlt, Bool.not_eq_true', Bool.not_eq_true']
    rw [and_iff_right hlt] at hj
    exact Bool.eq_false_iff.trans ((not_congr hj).trans Bool.eq_false_iff.symm)
  · have hm : m.getLsbD j = false := Bool.eq_false_iff.mpr fun hc => hlt (hj.mp hc).1
    have hz : full.getLsbD j = false := Bool.eq_false_iff.mpr fun hc => hlt (hf.mp hc)
    rw [hm, hz]
    exact iff_of_false (by decide) fun hc => hlt hc.1

/-- The highest bit marks the states that are no hashes. -/
theorem msb_eq : ∀ x : State, x.msb = !isHash x := by decide

/-- The highest bit of a byte of `_mm_cmpeq_epi8`. -/
theorem msb_cmpeq (x y : BitVec 8) : (if x = y then 0xff#8 else 0#8).msb = (x == y) := by
  split_ifs with h
  · rw [beq_iff_eq.mpr h]
    decide
  · rw [beq_eq_false_iff_ne.mpr h]
    decide

theorem msb_lane_cmpeq (x y : BitVec W) {i : ℕ} (hi : 8 * (i + 1) ≤ W) :
    (lane (cmpeqEpi8 x y) i).msb = (lane x i == lane y i) := by
  rw [lane_cmpeqEpi8 x y hi, msb_cmpeq]

/-- `_mm_sign_epi8(k, k)` keeps the highest bit of `empty` only. -/
theorem msb_sign : ∀ x : State, validState x = true →
    (if x.toInt < 0 then -x else if x = 0#8 then 0#8 else x).msb = (x == empty) := by decide

/-- Unsigned bytes are compared as signed ones, with their highest bits flipped. -/
theorem toInt_bias : ∀ x : BitVec 8, (x ^^^ 0x80#8).toInt = x.toNat - 128 := by decide

theorem lane_cmpltEpu8 (x : BitVec W) (t : Lru) {i : ℕ} (hi : 8 * (i + 1) ≤ W) :
    lane (cmpltEpu8 x (set1Epi8 W t)) i = if (lane x i).toNat < t.toNat then 0xff else 0 := by
  have hbias : ∀ a b : BitVec 8, (a ^^^ 0x80#8).toInt < (b ^^^ 0x80#8).toInt ↔ a.toNat < b.toNat := by
    intro a b
    rw [toInt_bias, toInt_bias]
    omega
  unfold cmpltEpu8
  rw [lane_cmpgtEpi8 _ _ hi, lane_xor, lane_xor, lane_set1Epi8 hi, lane_set1Epi8 hi]
  exact ite_congr (propext (hbias _ _)) (fun _ => rfl) fun _ => rfl

theorem msb_cmpltEpu8 (x : BitVec W) (t : Lru) {i : ℕ} (hi : 8 * (i + 1) ≤ W) :
    (lane (cmpltEpu8 x (set1Epi8 W t)) i).msb = decide ((lane x i).toNat < t.toNat) := by
  rw [lane_cmpltEpu8 x t hi]
  split_ifs with h
  · rw [decide_eq_true h]
    decide
  · rw [decide_eq_false h]
    decide

/-- The signed minimum turns hashes into tombstones. -/
theorem minS_tombstone : ∀ s : State, validState s = true →
    minS s tombstone = if isHash s then tombstone else s := by decide

/-- A byte of `a` or of `b`, by a byte whose bits are all the same. -/
theorem lane_blendv (a b m : BitVec W) {i : ℕ} (hi : 8 * (i + 1) ≤ W) {p : Prop} [Decidable p]
    (hm : lane m i = if p then 0xff else 0) :
    lane (blendvEpi8 a b m) i = if p then lane b i else lane a i := by
  rw [lane_blendvEpi8 _ _ hi, hm]
  by_cases hp : p
  · rw [if_pos hp, if_pos hp, if_pos (by decide)]
  · rw [if_neg hp, if_neg hp, if_neg (by decide)]

/-- The masked increment. -/
theorem lane_maskAdd (l : BitVec W) (m : BitVec w) {i n : ℕ} (hi : 8 * (i + 1) ≤ W)
    (hm : m.getLsbD i = decide (i = n)) :
    lane (maskAddEpi8 l m l (set1Epi8 W 1)) i = lane l i + if i = n then 1 else 0 := by
  rw [lane_maskAddEpi8 _ _ hi, lane_set1Epi8 hi, hm]
  by_cases heq : i = n
  · rw [if_pos heq, if_pos (decide_eq_true heq)]
  · rw [if_neg heq, if_neg (by rwa [decide_eq_true_iff])]
    exact (BitVec.add_zero _).symm

/-- The bytes of slots that are not in a mask.  Every byte of `mx` holds the bits of its slot and the
seven slots around it. -/
theorem lane_expand (m : BitVec w) (mx : BitVec W) {i : ℕ} (hi : 8 * (i + 1) ≤ W)
    (hmx : lane mx i = lane m (i / 8)) :
    lane (cmpeqEpi8 (mx &&& set1Epi64x W 0x8040201008040201) 0) i =
      if m.getLsbD i then 0 else 0xff := by
  have hbit : ∀ j < 8, ∀ x : BitVec 8,
      x &&& lane 0x8040201008040201#64 j = 0#8 ↔ ¬ x.getLsbD j = true := by decide
  have hj : i % 8 < 8 := Nat.mod_lt i (by decide)
  have hmem : (lane m (i / 8)).getLsbD (i % 8) = m.getLsbD i := by
    rw [← getLsbD_eq_lane _ _ hj, Nat.div_add_mod]
  rw [lane_cmpeqEpi8 _ _ hi, lane_and, hmx, lane_set1Epi64x hi, lane_zero, ← hmem]
  exact (ite_congr (propext (hbit _ hj _)) (fun _ => rfl) fun _ => rfl).trans (ite_not _ _ _)

end Tricks

/-! ### All functions -/

/-- A word of masks that holds a bit for each of `K` slots. -/
structure Fits (W w K : ℕ) : Prop where
  bytes : W = 8 * K
  width : w = 32 ∨ w = 64 ∨ w = 128
  le : K ≤ w
  pos : 0 < K

section Correct
variable {K : ℕ} (hf : Fits W w K)
include hf

theorem bitPerSlot : ArrayKernel.BitPerSlot ((maskType w).ops K) (sets w K) K :=
  ArrayKernel.bitPerSlot_of_le hf.width hf.le

theorem Bits.denotes {m : BitVec w} {p q : ℕ → Bool} (h : Bits K m p) (heq : ∀ i < K, p i = q i) :
    (sets w K).Denotes K m q :=
  ((bitPerSlot hf).denotes h).congr heq

theorem le_bits {i : ℕ} (hi : i < K) : 8 * (i + 1) ≤ W := by
  rw [hf.bytes]
  omega

theorem lane_load (b : List (BitVec 8)) {i : ℕ} (hi : i < K) : lane (pack W b) i = b.getD i 0 :=
  lane_pack b (le_bits hf hi)

theorem valid_lanes {b : List State} (hb : IsBucket K b) :
    ∀ i < K, validState (lane (pack W b) i) = true := by
  intro i hi
  rw [lane_load hf b hi]
  exact hb.valid_getD hi 0

variable {P : Parts W w} (h : P.Correct K)
include h

theorem Parts.Correct.denotes_mask (b : List State) (s : State) :
    (sets w K).Denotes K (P.maskEqual (pack W b) (set1Epi8 W s)) fun i => b.getD i 0 == s :=
  (h.maskEqual _ _).denotes hf fun i hi => by
    rw [lane_load hf b hi, lane_set1Epi8 (le_bits hf hi)]

theorem Parts.Correct.denotes_maskNot (b : List State) (s : State) :
    (sets w K).Denotes K (P.maskNotEqual (pack W b) (set1Epi8 W s)) fun i => b.getD i 0 != s :=
  (h.maskNotEqual _ _).denotes hf fun i hi => by
    rw [lane_load hf b hi, lane_set1Epi8 (le_bits hf hi)]

theorem Parts.Correct.denotes_hash (b : List State) :
    (sets w K).Denotes K (P.maskHash (pack W b)) fun i => isHash (b.getD i 0) :=
  (h.maskHash _).denotes hf fun i hi => by rw [lane_load hf b hi]

theorem Parts.Correct.denotes_notHash (b : List State) :
    (sets w K).Denotes K (P.maskNotHash (pack W b)) fun i => !isHash (b.getD i 0) :=
  (h.maskNotHash _).denotes hf fun i hi => by rw [lane_load hf b hi]

theorem Parts.Correct.denotes_empty {b : List State} (hb : IsBucket K b) :
    (sets w K).Denotes K (P.maskEmpty (pack W b)) fun i => b.getD i 0 == empty :=
  (h.maskEmpty _ (valid_lanes hf hb)).denotes hf fun i hi => by rw [lane_load hf b hi]

theorem Parts.Correct.denotes_notEmpty {b : List State} (hb : IsBucket K b) :
    (sets w K).Denotes K (P.maskNotEmpty (pack W b)) fun i => b.getD i 0 != empty :=
  (h.maskNotEmpty _ (valid_lanes hf hb)).denotes hf fun i hi => by rw [lane_load hf b hi]

theorem Parts.Correct.denotes_equal (b b' : List State) :
    (sets w K).Denotes K (P.maskEqual (pack W b) (pack W b')) fun i => b.getD i 0 == b'.getD i 0 :=
  (h.maskEqual _ _).denotes hf fun i hi => by rw [lane_load hf b hi, lane_load hf b' hi]

theorem Parts.Correct.denotes_notEqual (b b' : List State) : (sets w K).Denotes K
    (P.maskNotEqual (pack W b) (pack W b')) fun i => b.getD i 0 != b'.getD i 0 :=
  (h.maskNotEqual _ _).denotes hf fun i hi => by rw [lane_load hf b hi, lane_load hf b' hi]

/-- The mask of the slots with the least counter, and its first slot. -/
theorem Parts.Correct.minLru_spec {l : List Lru} (hl : l.length = K) {s : BitVec 128}
    (hs : s = P.minReduce (pack W l)) {x : BitVec W} (hx : ∀ i < K, lane x i = lane s 0) :
    (sets w K).valid (P.maskEqual (pack W l) x) ∧
      (lane s 0, (maskType w).next (P.maskEqual (pack W l) x)) = ideal.minLru l := by
  have hmask : (sets w K).Denotes K (P.maskEqual (pack W l) x)
      fun i => l.getD i 0 == lane s 0 :=
    (h.maskEqual _ _).denotes hf fun i hi => by rw [lane_load hf l hi, hx i hi]
  have hmin := h.minReduce (pack W l)
  rw [← hs] at hmin
  obtain ⟨⟨i, hi, hmem⟩, hle⟩ := hmin
  rw [lane_load hf l hi] at hmem
  have hset : ∀ i, i ∈ (sets w K).toSet (P.maskEqual (pack W l) x) ↔
      i < K ∧ l.getD i 0 = lane s 0 := by
    intro i
    rw [hmask.2, mem_below, beq_iff_eq]
  have hne : ((sets w K).toSet (P.maskEqual (pack W l) x)).Nonempty :=
    ⟨i, (hset i).mpr ⟨hi, hmem.symm⟩⟩
  have hnext : (maskType w).next (P.maskEqual (pack W l) x) = _ :=
    (bitPerSlot hf).implements.next _ hmask.1 hne
  obtain ⟨hlt, hfirst⟩ := (hset _).mp (Finset.min'_mem _ hne)
  refine ⟨hmask.1, ?_⟩
  rw [hnext]
  refine minLru_eq hl hlt hfirst (fun j hj => ?_) fun j hj hv => ?_
  · rw [← lane_load hf l hj]
    exact hle j hj
  · exact absurd hj (not_lt.mpr (Finset.min'_le _ j ((hset j).mpr ⟨hj.trans hlt, hv⟩)))

omit h in
/-- The mask of the first slot. -/
theorem truncate_eq {n : BitVec w} (hn : (sets w K).valid n) (hne : ((sets w K).toSet n).Nonempty) :
    (maskType w).truncate n = single w (((sets w K).toSet n).min' hne) := by
  have hI := (bitPerSlot hf).implements
  have hlt := hI.lt n _ (Finset.min'_mem _ hne)
  obtain ⟨hv, hset⟩ := hI.truncate n hn
  obtain ⟨hv', hset'⟩ := hI.single _ hlt
  refine hI.ext _ _ hv hv' (hset.trans (Eq.trans ?_ hset'.symm))
  refine Finset.ext fun i => ?_
  rw [Finset.mem_filter, Finset.mem_singleton]
  constructor
  · exact fun hi => le_antisymm (hi.2 _ (Finset.min'_mem _ hne)) (Finset.min'_le _ i hi.1)
  · rintro rfl
    exact ⟨Finset.min'_mem _ hne, fun j hj => Finset.min'_le _ j hj⟩

theorem Parts.Correct.updateLru_spec {l : List Lru} (hl : l.length = K) {n : BitVec w}
    (hn : (sets w K).valid n) (hne : ((sets w K).toSet n).Nonempty) :
    store K ((P.fns K).updateLru (pack W l) n) = bumpLru l (((sets w K).toSet n).min' hne) := by
  have hI := (bitPerSlot hf).implements
  have hi := hI.lt n _ (Finset.min'_mem _ hne)
  unfold Parts.fns
  dsimp only
  rw [truncate_eq hf hn hne]
  generalize ((sets w K).toSet n).min' hne = i at hi ⊢
  obtain ⟨hv, hset⟩ : (sets w K).valid (single w i) ∧ (sets w K).toSet (single w i) = {i} :=
    hI.single i hi
  have hmask := h.denotes_mask hf l maxLru
  obtain ⟨hv', hset'⟩ := hI.intersect _ _ hmask.1 hv
  have hrescale : (maskType w).hasNext (P.maskEqual (pack W l) (set1Epi8 W maxLru) &&&
      single w i) = true ↔ maxLru.toNat ≤ (l.getD i 0).toNat := by
    have hmax : ∀ x : Lru, x = maxLru ↔ maxLru.toNat ≤ x.toNat := by decide
    refine (hI.hasNext _ hv').trans ?_
    rw [hset', hset, hmask.2, ← hmax]
    constructor
    · rintro ⟨j, hj⟩
      obtain ⟨hj, hij⟩ := Finset.mem_inter.mp hj
      rw [Finset.mem_singleton] at hij
      exact eq_of_beq (hij ▸ (mem_below.mp hj).2)
    · intro heq
      exact ⟨i, Finset.mem_inter.mpr ⟨mem_below.mpr ⟨hi, beq_iff_eq.mpr heq⟩,
        Finset.mem_singleton_self i⟩⟩
  refine stored_bumpLru hl fun j hj => ?_
  rw [h.increment _ i hi j hj]
  congr 1
  by_cases hr : maxLru.toNat ≤ (l.getD i 0).toNat
  · rw [if_pos (hrescale.mpr hr), if_pos hr, h.halve _ j hj, lane_load hf l hj]
  · rw [if_neg (fun hc => hr (hrescale.mp hc)), if_neg hr, lane_load hf l hj]

/-- Every function is correct. -/
theorem Parts.Correct.correct : (P.fns K).Correct (sets w K) K where
  maskType := (bitPerSlot hf).implements
  store_load b hb := stored_eq hb.1 fun i hi => lane_load hf b hi
  mask b s _ := h.denotes_mask hf b s
  maskNot b s _ := h.denotes_maskNot hf b s
  maskHash b _ := h.denotes_hash hf b
  maskNotHash b _ := h.denotes_notHash hf b
  maskEmpty b hb := h.denotes_empty hf hb
  maskNotEmpty b hb := h.denotes_notEmpty hf hb
  maskTombstone b _ := h.denotes_mask hf b tombstone
  maskNotTombstone b _ := h.denotes_maskNot hf b tombstone
  maskEqual b b' _ _ := h.denotes_equal hf b b'
  maskNotEqual b b' _ _ := h.denotes_notEqual hf b b'
  hasHash b hb := ((h.denotes_hash hf b).hasNext (bitPerSlot hf).implements).trans
    (exists_slot hb.1 isHash)
  hasNotHash b hb := ((h.denotes_notHash hf b).hasNext (bitPerSlot hf).implements).trans
    (exists_slot_not hb.1)
  hasEmpty b hb := ((h.denotes_empty hf hb).hasNext (bitPerSlot hf).implements).trans
    (exists_slot_eq hb.1 empty)
  hasNotEmpty b hb := ((h.denotes_notEmpty hf hb).hasNext (bitPerSlot hf).implements).trans
    (exists_slot_ne hb.1 empty)
  hasTombstone b hb := ((h.denotes_mask hf b tombstone).hasNext (bitPerSlot hf).implements).trans
    (exists_slot_eq hb.1 tombstone)
  hasNotTombstone b hb :=
    ((h.denotes_maskNot hf b tombstone).hasNext (bitPerSlot hf).implements).trans
      (exists_slot_ne hb.1 tombstone)
  countEqual b b' _ _ := by
    have hmask : (sets w K).Denotes K (P.countMask (pack W b) (pack W b'))
        fun i => b.getD i 0 == b'.getD i 0 := (h.countMask _ _).denotes hf fun i hi => by
      rw [lane_load hf b hi, lane_load hf b' hi]
    exact hmask.count (bitPerSlot hf).implements
  countNotEqual b b' _ _ := (h.denotes_notEqual hf b b').count (bitPerSlot hf).implements
  hashToTombstone b hb := stored_map hb.1 fun i hi =>
    (h.hashToTombstone _ i hi (valid_lanes hf hb i hi)).trans (by rw [lane_load hf b hi])
  notHashToEmpty b hb := by
    have hbyte : ∀ s : State, validState s = true →
        minU s empty = if isHash s then s else empty := by decide
    refine stored_map hb.1 fun i hi => (lane_minEpu8 _ _ (le_bits hf hi)).trans ?_
    rw [lane_set1Epi8 (le_bits hf hi), ← hbyte _ (hb.valid_getD hi 0)]
    exact congrArg (minU · empty) (lane_load hf b hi)
  toEmpty b m hb hm := by
    refine stored_emptied hb.1 fun i hi => (h.toEmpty _ m i hi).trans ?_
    have hmem := (bitPerSlot hf).mem m i
    rw [and_iff_right hi] at hmem
    exact ite_congr (propext hmem.symm) (fun _ => rfl) fun _ => lane_load hf b hi
  stateAt b i _ hi := (h.stateAt _ i hi).trans (lane_load hf b hi)
  storeLru_loadLru l hl := stored_eq hl fun i hi => lane_load hf l hi
  minLru l hl := by
    refine Eq.trans ?_ (h.minLru_spec hf hl rfl (h.broadcast _)).2
    exact Prod.ext (setWidth_cvtsi128Si32 _) rfl
  minLruSlot l hl := by
    have hspec := h.minLru_spec hf hl rfl (h.maskBroadcast (P.minReduce (pack W l)))
    exact ⟨hspec.1, congrArg Prod.snd hspec.2⟩
  maskLruBelow l t _ := (h.maskLruBelow (pack W l) t).denotes hf fun i hi => by
    rw [lane_load hf l hi]
  updateLru l n hl hn hne := h.updateLru_spec hf hl hn hne
  toEmptyIfLruBelow b l t hb hl := stored_lruBelow hb.1 hl fun i hi =>
    (h.toEmptyIfLruBelow (pack W b) (pack W l) t i hi).trans
      (by rw [lane_load hf b hi, lane_load hf l hi])
  lruAt l i _ hi := (h.stateAt _ i hi).trans (lane_load hf l hi)

/-- `has` and `has_not` agree with those of the array kernel. -/
theorem Parts.Correct.has_eq {b : List State} (hb : IsBucket K b) (s : State) :
    P.has (pack W b) s = ArrayKernel.has b s ∧ P.hasNot (pack W b) s = ArrayKernel.hasNot b s := by
  have hI := (bitPerSlot hf).implements
  constructor
  · refine Bool.eq_iff_iff.mpr (((h.denotes_mask hf b s).hasNext hI).trans ?_)
    rw [exists_slot hb.1 (· == s), ArrayKernel.has, List.any_eq_true]
  · refine Bool.eq_iff_iff.mpr (((h.denotes_maskNot hf b s).hasNext hI).trans ?_)
    rw [exists_slot hb.1 (· != s), ArrayKernel.hasNot, List.any_eq_true]

end Correct

/-- A kernel agrees with the array kernel of the same size on every bucket of valid states and all
LRU counters. -/
def Parts.AgreesWithArray (P : Parts W w) (K : ℕ) : Prop :=
  (P.fns K).Agrees (sets w K) (ArrayKernel.wordFns K) (ArrayKernel.wordSets K) K ∧
    ∀ b s, IsBucket K b →
      P.has (pack W b) s = ArrayKernel.has b s ∧ P.hasNot (pack W b) s = ArrayKernel.hasNot b s

theorem Parts.Correct.agreesWithArray {P : Parts W w} {K : ℕ} (hf : Fits W w K) (hK : K ≤ 128)
    (h : P.Correct K) : P.AgreesWithArray K :=
  ⟨(h.correct hf).agrees (ArrayKernel.correct (ArrayKernel.bitPerSlot_word hK) hf.pos),
    fun _ s hb => h.has_eq hf hb s⟩

end X86Kernel

end Nvhm
