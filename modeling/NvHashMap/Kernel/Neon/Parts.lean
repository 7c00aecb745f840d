import NvHashMap.Kernel.ArrayFunctions
import NvHashMap.Lib.Neon

/-! # What the NEON kernels share

The kernels of `kernel.hpp` for NEON have one register of 8 or 16 bytes, or a group of two or four
registers of 16.  All do the same to every register and combine several in a tree; they differ in how
they pack a lane mask into 64 bits and back, with 8, 4, 2 or 1 bits per slot (`Parts`).  If the packing
is right (`Parts.Correct`), all functions are correct. -/

namespace Nvhm

open Buffer Lanes Simd SlotSet Neon

namespace NeonKernel
variable {b d : ℕ}

/-- The functions that each kernel writes in its own way. -/
structure Parts (b d : ℕ) where
  /-- `mask_type`. -/
  shift : ℕ
  left : Bool
  /-- `collapse_`, and `full_mask` where the kernel cuts the result with it. -/
  collapse : BitVec (8 * (b * 2 ^ d)) → BitVec 64
  /-- The mask of the other slots. -/
  invert : BitVec 64 → BitVec 64
  maskHash : BitVec (8 * (b * 2 ^ d)) → BitVec 64
  maskNotHash : BitVec (8 * (b * 2 ^ d)) → BitVec 64
  expand : BitVec 64 → BitVec (8 * (b * 2 ^ d))
  /-- Whether `update_lru` rescales, in all bits of a register. -/
  rescale : BitVec (8 * (b * 2 ^ d)) → BitVec (8 * (b * 2 ^ d)) → BitVec (8 * b)

namespace Parts

def maskType (P : Parts b d) : MaskType := ⟨64, P.shift, P.left⟩

/-- `store`. -/
def store (K : ℕ) (x : BitVec (8 * K)) : List (BitVec 8) := (List.range K).map (lane x)

section Functions
variable (P : Parts b d) (k k0 k1 : BitVec (8 * (b * 2 ^ d))) (l : BitVec (8 * (b * 2 ^ d)))

/-- `min`. -/
def minState : State := vminvS8 (tree vminS8 d (val b k))

/-- `max`. -/
def maxState : State := vmaxvS8 (tree vmaxS8 d (val b k))

def mask (s : State) : BitVec 64 := P.collapse (each₁ b (fun k => vceq k (vdup8 _ s)) k)

def maskNot (s : State) : BitVec 64 := P.invert (P.mask k s)

def maskEqual : BitVec 64 := P.collapse (each₂ b vceq k0 k1)

def maskNotEqual : BitVec 64 := P.invert (P.maskEqual k0 k1)

def has (s : State) : Bool :=
  vmaxvU8 (tree vmaxU8 d (val b (each₁ b (fun k => vceq k (vdup8 _ s)) k))) != 0

def hasNot (s : State) : Bool :=
  vminvU8 (tree vminU8 d (val b (each₁ b (fun k => vceq k (vdup8 _ s)) k))) == 0

def countEqual : ℤ := -(vaddv8 (tree vadd8 d (val b (each₂ b vceq k0 k1)))).toInt

def countNotEqual : ℤ :=
  (b * 2 ^ d : ℕ) + (vaddv8 (tree vadd8 d (val b (each₂ b vceq k0 k1)))).toInt

def hashToTombstone : BitVec (8 * (b * 2 ^ d)) := each₁ b (fun k => vminS8 k (vdup8 _ tombstone)) k

def notHashToEmpty : BitVec (8 * (b * 2 ^ d)) := each₁ b (fun k => vminU8 k (vdup8 _ empty)) k

def toEmpty (m : BitVec 64) : BitVec (8 * (b * 2 ^ d)) :=
  each₂ b (fun m k => vbsl m (vdup8 _ empty) k) (P.expand m) k

/-- `at`. -/
def stateAt (i : ℕ) : BitVec 8 := lane (vtbl k (vdup8 (8 * b) (BitVec.ofNat 8 i))) 0

/-- `min_lru_`. -/
def minLruState : Lru := vminvU8 (tree vminU8 d (val b l))

def maskLru (lru : Lru) : BitVec 64 := P.collapse (each₁ b (fun l => vceq l (vdup8 _ lru)) l)

def minLru : Lru × ℕ :=
  let lru := minLruState l
  (lru, P.maskType.next (P.maskLru l lru))

def maskMinLru : BitVec 64 := P.maskLru l (minLruState l)

def maskLruBelow (t : Lru) : BitVec 64 := P.collapse (each₁ b (fun l => vcltU8 l (vdup8 _ t)) l)

def updateLru (n : BitVec 64) : BitVec (8 * (b * 2 ^ d)) :=
  let n : BitVec 64 := P.maskType.truncate n
  let nx := P.expand n
  let r := P.rescale (each₁ b (fun l => vceq l (vdup8 _ maxLru)) l) nx
  let l := each₁ b (fun l => vshl8 l r) l
  each₂ b vsub8 l nx

def toEmptyIfLruBelow (t : Lru) : BitVec (8 * (b * 2 ^ d)) :=
  let l := each₁ b (fun l => vcltU8 l (vdup8 _ t)) l
  each₂ b (fun m k => vbsl m (vdup8 _ empty) k) l k

end Functions

/-- The functions of a kernel. -/
def fns (P : Parts b d) :
    KernelFns (BitVec (8 * (b * 2 ^ d))) (BitVec (8 * (b * 2 ^ d))) (BitVec 64) where
  maskType := P.maskType.ops (b * 2 ^ d)
  load b := pack _ b
  store := store _
  mask := P.mask
  maskNot := P.maskNot
  maskHash := P.maskHash
  maskNotHash := P.maskNotHash
  maskEmpty k := P.mask k empty
  maskNotEmpty k := P.maskNot k empty
  maskTombstone k := P.mask k tombstone
  maskNotTombstone k := P.maskNot k tombstone
  maskEqual := P.maskEqual
  maskNotEqual := P.maskNotEqual
  hasHash k := isHash (maxState k)
  hasNotHash k := !isHash (minState k)
  hasEmpty k := minState k == empty
  hasNotEmpty k := maxState k != empty
  hasTombstone k := has k tombstone
  hasNotTombstone k := hasNot k tombstone
  countEqual := countEqual
  countNotEqual := countNotEqual
  hashToTombstone := hashToTombstone
  notHashToEmpty := notHashToEmpty
  toEmpty := P.toEmpty
  stateAt := stateAt
  loadLru l := pack _ l
  storeLru := store _
  minLru := P.minLru
  maskMinLru := P.maskMinLru
  maskLruBelow := P.maskLruBelow
  updateLru := P.updateLru
  toEmptyIfLruBelow := toEmptyIfLruBelow
  lruAt := stateAt

/-- The sets that masks denote. -/
def sets (P : Parts b d) : MaskSets (BitVec 64) :=
  ⟨P.maskType.IsMask (b * 2 ^ d), P.maskType.toSet (b * 2 ^ d)⟩

/-- The packing of lane masks is right. -/
structure Correct (P : Parts b d) : Prop where
  bytes_pos : 0 < b
  slots_le : b * 2 ^ d ≤ 64
  isRepr : P.maskType.IsRepr (b * 2 ^ d)
  collapse : ∀ x p, IsLaneMask (b * 2 ^ d) x p → P.sets.Denotes (b * 2 ^ d) (P.collapse x) p
  invert : ∀ m p, P.sets.Denotes (b * 2 ^ d) m p →
    P.sets.Denotes (b * 2 ^ d) (P.invert m) fun i => !p i
  maskHash : ∀ x, P.sets.Denotes (b * 2 ^ d) (P.maskHash x) fun i => isHash (lane x i)
  maskNotHash : ∀ x, P.sets.Denotes (b * 2 ^ d) (P.maskNotHash x) fun i => !isHash (lane x i)
  expand : ∀ m, P.sets.valid m →
    IsLaneMask (b * 2 ^ d) (P.expand m) fun i => decide (i ∈ P.sets.toSet m)
  rescale : ∀ x y p q, IsLaneMask (b * 2 ^ d) x p → IsLaneMask (b * 2 ^ d) y q →
    IsLaneMask b (P.rescale x y) fun _ => decide (∃ k < b * 2 ^ d, (p k && q k) = true)

/-! ### Lane masks of comparisons -/

theorem card_below_not (K : ℕ) (p : ℕ → Bool) :
    (below K p).card + (below K fun i => !p i).card = K := by
  have hsplit := Finset.card_filter_add_card_filter_not (s := Finset.range K) fun i => p i = true
  rw [Finset.card_range] at hsplit
  have hnot : (below K fun i => !p i) = (Finset.range K).filter fun i => ¬ p i = true :=
    Finset.filter_congr fun i _ => by rw [Bool.not_eq_true', Bool.not_eq_true]
  rw [hnot]
  exact hsplit

section Bytes
variable (x y : BitVec (8 * (b * 2 ^ d))) (hb : 0 < b)
include hb

theorem lane_each {f : BitVec (8 * b) → BitVec (8 * b)} {g : BitVec 8 → BitVec 8}
    (hf : ∀ z, ∀ r < b, lane (f z) r = g (lane z r)) {i : ℕ} (hi : i < b * 2 ^ d) :
    lane (each₁ b f x) i = g (lane x i) :=
  lane_each₁ (g := fun _ => g) hb x (by omega) hf

theorem isLaneMask_vceq (s : BitVec 8) :
    IsLaneMask (b * 2 ^ d) (each₁ b (fun k => vceq k (vdup8 _ s)) x) fun i => lane x i == s := by
  intro i hi
  refine lane_each x hb (g := fun z => full8 (z == s)) (fun z r hr => ?_) hi
  rw [lane_vceq _ _ (by omega), lane_vdup8 (by omega)]

theorem isLaneMask_vceq₂ :
    IsLaneMask (b * 2 ^ d) (each₂ b vceq x y) fun i => lane x i == lane y i := by
  intro i hi
  exact lane_each₂ (g := fun z z' => full8 (z == z')) hb x y (by omega) fun z z' r hr =>
    lane_vceq z z' (by omega)

theorem isLaneMask_vcltU8 (t : Lru) :
    IsLaneMask (b * 2 ^ d) (each₁ b (fun l => vcltU8 l (vdup8 _ t)) x)
      fun i => decide ((lane x i).toNat < t.toNat) := by
  intro i hi
  refine lane_each x hb (g := fun z => full8 (decide (z.toNat < t.toNat))) (fun z r hr => ?_) hi
  rw [lane_vcltU8 _ _ (by omega), lane_vdup8 (by omega)]

theorem isLaneMask_vcgez :
    IsLaneMask (b * 2 ^ d) (each₁ b vcgez x) fun i => isHash (lane x i) := by
  intro i hi
  exact lane_each x hb (g := fun z => full8 (isHash z)) (fun z r hr => lane_vcgez z (by omega)) hi

theorem isLaneMask_vcltz :
    IsLaneMask (b * 2 ^ d) (each₁ b vcltz x) fun i => !isHash (lane x i) := by
  intro i hi
  have hneg : ∀ z : BitVec 8, decide (z.toInt < 0) = !isHash z := by decide
  refine lane_each x hb (g := fun z => full8 (!isHash z)) (fun z r hr => ?_) hi
  rw [lane_vcltz z (by omega), hneg]

/-- The bytes that a lane mask selects are emptied. -/
theorem lane_emptied {m : BitVec (8 * (b * 2 ^ d))} {p : ℕ → Bool}
    (hm : IsLaneMask (b * 2 ^ d) m p) {i : ℕ} (hi : i < b * 2 ^ d) :
    lane (each₂ b (fun m k => vbsl m (vdup8 _ empty) k) m x) i =
      if p i then empty else lane x i := by
  have hr := Nat.mod_lt i hb
  have hbyte : lane (val b m (i / b)) (i % b) = full8 (p i) := by
    rw [lane_val _ _ hr, Nat.div_add_mod, hm i hi]
  unfold each₂
  rw [lane_group _ (by omega), lane_vbsl _ _ (by omega) _ hbyte, lane_vdup8 (by omega),
    lane_val _ _ hr, Nat.div_add_mod]

/-- The least and the greatest state of a bucket. -/
theorem minState_spec : (∃ k < b * 2 ^ d, minState x = lane x k) ∧
    ∀ k < b * 2 ^ d, (minState x).toInt ≤ (lane x k).toInt :=
  across_spec chooses_minS hb x

theorem maxState_spec : (∃ k < b * 2 ^ d, maxState x = lane x k) ∧
    ∀ k < b * 2 ^ d, (lane x k).toInt ≤ (maxState x).toInt :=
  across_spec chooses_maxS hb x

theorem minLruState_spec : (∃ k < b * 2 ^ d, minLruState x = lane x k) ∧
    ∀ k < b * 2 ^ d, (minLruState x).toNat ≤ (lane x k).toNat :=
  across_spec chooses_minU hb x

theorem has_iff (s : State) : has x s = true ↔ ∃ k < b * 2 ^ d, (lane x k == s) = true := by
  have hmask := isLaneMask_vceq x hb s
  obtain ⟨⟨k, hk, heq⟩, hle⟩ := across_spec (d := d) chooses_maxU hb
    (each₁ b (fun k => vceq k (vdup8 _ s)) x)
  have hhas : has x s = (lane (each₁ b (fun k => vceq k (vdup8 _ s)) x) k != 0) :=
    congrArg (· != 0) heq
  rw [hhas, bne_iff_ne]
  constructor
  · intro hne
    refine ⟨k, hk, ?_⟩
    rw [hmask k hk] at hne
    exact (full8_ne_zero _).mp hne
  · rintro ⟨j, hj, hs⟩ hzero
    have hbyte := (hmask j hj).trans (congrArg full8 hs)
    have hbest := hle j hj
    rw [heq, hzero, hbyte] at hbest
    exact absurd hbest (by decide)

theorem hasNot_iff (s : State) : hasNot x s = true ↔ ∃ k < b * 2 ^ d, (lane x k != s) = true := by
  have hmask := isLaneMask_vceq x hb s
  obtain ⟨⟨k, hk, heq⟩, hle⟩ := across_spec (d := d) chooses_minU hb
    (each₁ b (fun k => vceq k (vdup8 _ s)) x)
  have hhas : hasNot x s = (lane (each₁ b (fun k => vceq k (vdup8 _ s)) x) k == 0) :=
    congrArg (· == 0) heq
  have hzero : ∀ c : Bool, full8 c = 0 ↔ c = false := by decide
  rw [hhas, beq_iff_eq]
  constructor
  · intro h0
    refine ⟨k, hk, ?_⟩
    rw [hmask k hk, hzero] at h0
    exact congrArg not h0
  · rintro ⟨j, hj, hs⟩
    have hbest := hle j hj
    rw [heq, hmask j hj, (hzero _).mpr (by rwa [bne, Bool.not_eq_true'] at hs)] at hbest
    exact BitVec.eq_of_toNat_eq (Nat.eq_zero_of_le_zero hbest)

/-- The sum of the bytes of a lane mask. -/
theorem toInt_vaddv (hK : b * 2 ^ d ≤ 64) {m : BitVec (8 * (b * 2 ^ d))} {p : ℕ → Bool}
    (hm : IsLaneMask (b * 2 ^ d) m p) :
    (vaddv8 (tree vadd8 d (val b m))).toInt = -((below (b * 2 ^ d) p).card : ℤ) := by
  have hbyte : ∀ c : Bool, full8 c = BitVec.ofInt 8 (-(if c then 1 else 0)) := by decide
  have hcard : ((below (b * 2 ^ d) p).card : ℤ) =
      ∑ k ∈ Finset.range (b * 2 ^ d), if p k then 1 else 0 := by
    rw [below, Finset.card_filter, Nat.cast_sum]
    exact Finset.sum_congr rfl fun k _ => by split_ifs <;> rfl
  have hle : (below (b * 2 ^ d) p).card ≤ b * 2 ^ d := by
    refine (Finset.card_filter_le _ _).trans ?_
    rw [Finset.card_range]
  rw [across_sum hb m fun k hk => (hm k hk).trans (hbyte _), Finset.sum_neg_distrib, ← hcard,
    BitVec.toInt_ofInt]
  exact Int.bmod_eq_of_le (by omega) (by omega)

theorem lane_hashToTombstone {i : ℕ} (hi : i < b * 2 ^ d) :
    lane (hashToTombstone x) i = minS (lane x i) tombstone := by
  refine lane_each x hb (g := fun z => minS z tombstone) (fun z r hr => ?_) hi
  rw [lane_vminS8 _ _ (by omega), lane_vdup8 (by omega)]

theorem lane_notHashToEmpty {i : ℕ} (hi : i < b * 2 ^ d) :
    lane (notHashToEmpty x) i = minU (lane x i) empty := by
  refine lane_each x hb (g := fun z => minU z empty) (fun z r hr => ?_) hi
  rw [lane_vminU8 _ _ (by omega), lane_vdup8 (by omega)]

theorem stateAt_eq (hK : b * 2 ^ d ≤ 64) {i : ℕ} (hi : i < b * 2 ^ d) : stateAt x i = lane x i := by
  have hidx : (BitVec.ofNat 8 i).toNat = i := by
    rw [BitVec.toNat_ofNat]
    exact Nat.mod_eq_of_lt (by omega)
  unfold stateAt
  rw [lane_vtbl _ (by omega), lane_vdup8 (by omega), hidx,
    Nat.mul_div_cancel_left _ (by decide), if_pos hi]

end Bytes

/-! ### All functions -/

section Correct
variable {P : Parts b d} (h : P.Correct)
include h

theorem Correct.implements :
    Implements (P.maskType.ops (b * 2 ^ d)) (b * 2 ^ d) P.sets.valid P.sets.toSet :=
  MaskType.implements h.isRepr

omit h in
theorem lane_load (l : List (BitVec 8)) {i : ℕ} (hi : i < b * 2 ^ d) :
    lane (pack (8 * (b * 2 ^ d)) l) i = l.getD i 0 := lane_pack l (by omega)

theorem Correct.denotes_mask (l : List (BitVec 8)) (s : BitVec 8) :
    P.sets.Denotes (b * 2 ^ d) (P.mask (pack _ l) s) fun i => l.getD i 0 == s :=
  (h.collapse _ _ (isLaneMask_vceq _ h.bytes_pos s)).congr fun i hi => by rw [lane_load l hi]

theorem Correct.denotes_maskNot (l : List (BitVec 8)) (s : BitVec 8) :
    P.sets.Denotes (b * 2 ^ d) (P.maskNot (pack _ l) s) fun i => l.getD i 0 != s :=
  h.invert _ _ (h.denotes_mask l s)

theorem Correct.denotes_equal (l l' : List (BitVec 8)) :
    P.sets.Denotes (b * 2 ^ d) (P.maskEqual (pack _ l) (pack _ l'))
      fun i => l.getD i 0 == l'.getD i 0 :=
  (h.collapse _ _ (isLaneMask_vceq₂ _ _ h.bytes_pos)).congr fun i hi => by
    rw [lane_load l hi, lane_load l' hi]

theorem Correct.denotes_hash (l : List State) :
    P.sets.Denotes (b * 2 ^ d) (P.maskHash (pack _ l)) fun i => isHash (l.getD i 0) :=
  (h.maskHash _).congr fun i hi => by rw [lane_load l hi]

theorem Correct.denotes_notHash (l : List State) :
    P.sets.Denotes (b * 2 ^ d) (P.maskNotHash (pack _ l)) fun i => !isHash (l.getD i 0) :=
  (h.maskNotHash _).congr fun i hi => by rw [lane_load l hi]

omit h in
/-- Some state is a hash if the greatest one is. -/
theorem isHash_maxState (hb : 0 < b) (l : List State) :
    isHash (maxState (pack (8 * (b * 2 ^ d)) l)) = true ↔
      ∃ i < b * 2 ^ d, isHash (l.getD i 0) = true := by
  obtain ⟨⟨k, hk, heq⟩, hle⟩ := maxState_spec (pack (8 * (b * 2 ^ d)) l) hb
  constructor
  · intro hmax
    rw [heq, lane_load l hk] at hmax
    exact ⟨k, hk, hmax⟩
  · rintro ⟨i, hi, hs⟩
    have hbest := hle i hi
    rw [lane_load l hi] at hbest
    unfold isHash at hs ⊢
    rw [decide_eq_true_iff] at hs ⊢
    exact hs.trans hbest

omit h in
theorem isHash_minState (hb : 0 < b) (l : List State) :
    (!isHash (minState (pack (8 * (b * 2 ^ d)) l))) = true ↔
      ∃ i < b * 2 ^ d, (!isHash (l.getD i 0)) = true := by
  obtain ⟨⟨k, hk, heq⟩, hle⟩ := minState_spec (pack (8 * (b * 2 ^ d)) l) hb
  constructor
  · intro hmin
    rw [heq, lane_load l hk] at hmin
    exact ⟨k, hk, hmin⟩
  · rintro ⟨i, hi, hs⟩
    have hbest := hle i hi
    rw [lane_load l hi] at hbest
    unfold isHash at hs ⊢
    rw [Bool.not_eq_true', decide_eq_false_iff_not] at hs ⊢
    exact fun hc => hs (hc.trans hbest)

omit h in
/-- `empty` is the least state. -/
theorem minState_empty (hb : 0 < b) (l : List State) :
    (minState (pack (8 * (b * 2 ^ d)) l) == empty) = true ↔
      ∃ i < b * 2 ^ d, (l.getD i 0 == empty) = true := by
  have hleast : ∀ s : State, s.toInt ≤ empty.toInt → s = empty := by decide
  obtain ⟨⟨k, hk, heq⟩, hle⟩ := minState_spec (pack (8 * (b * 2 ^ d)) l) hb
  rw [beq_iff_eq]
  constructor
  · intro hmin
    rw [heq, lane_load l hk] at hmin
    exact ⟨k, hk, beq_iff_eq.mpr hmin⟩
  · rintro ⟨i, hi, hs⟩
    have hbest := hle i hi
    rw [lane_load l hi, eq_of_beq hs] at hbest
    exact hleast _ hbest

omit h in
theorem maxState_empty (hb : 0 < b) (l : List State) :
    (maxState (pack (8 * (b * 2 ^ d)) l) != empty) = true ↔
      ∃ i < b * 2 ^ d, (l.getD i 0 != empty) = true := by
  have hleast : ∀ s : State, s.toInt ≤ empty.toInt → s = empty := by decide
  obtain ⟨⟨k, hk, heq⟩, hle⟩ := maxState_spec (pack (8 * (b * 2 ^ d)) l) hb
  rw [bne_iff_ne]
  constructor
  · intro hmax
    rw [heq, lane_load l hk] at hmax
    exact ⟨k, hk, bne_iff_ne.mpr hmax⟩
  · rintro ⟨i, hi, hs⟩ hc
    have hbest := hle i hi
    rw [hc, lane_load l hi] at hbest
    exact (bne_iff_ne.mp hs) (hleast _ hbest)

omit h in
theorem has_load (hb : 0 < b) (l : List State) (s : State) :
    has (pack (8 * (b * 2 ^ d)) l) s = true ↔ ∃ i < b * 2 ^ d, (l.getD i 0 == s) = true := by
  refine (has_iff _ hb s).trans (exists_congr fun i => and_congr_right fun hi => ?_)
  rw [lane_load l hi]

omit h in
theorem hasNot_load (hb : 0 < b) (l : List State) (s : State) :
    hasNot (pack (8 * (b * 2 ^ d)) l) s = true ↔ ∃ i < b * 2 ^ d, (l.getD i 0 != s) = true := by
  refine (hasNot_iff _ hb s).trans (exists_congr fun i => and_congr_right fun hi => ?_)
  rw [lane_load l hi]

theorem Correct.denotes_lruBelow (l : List Lru) (t : Lru) :
    P.sets.Denotes (b * 2 ^ d) (P.maskLruBelow (pack _ l) t)
      fun i => decide ((l.getD i 0).toNat < t.toNat) :=
  (h.collapse _ _ (isLaneMask_vcltU8 _ h.bytes_pos t)).congr fun i hi => by rw [lane_load l hi]

/-- The slots with equal states. -/
theorem Correct.card_equal (l l' : List State) :
    (vaddv8 (tree vadd8 d (val b (each₂ b vceq (pack (8 * (b * 2 ^ d)) l) (pack _ l'))))).toInt =
      -((below (b * 2 ^ d) fun i => l.getD i 0 == l'.getD i 0).card : ℤ) := by
  refine toInt_vaddv h.bytes_pos h.slots_le fun i hi => ?_
  refine (isLaneMask_vceq₂ _ _ h.bytes_pos i hi).trans (congrArg full8 ?_)
  dsimp only
  rw [lane_load l hi, lane_load l' hi]

theorem Correct.card_notEqual (l l' : List State) :
    countNotEqual (pack (8 * (b * 2 ^ d)) l) (pack _ l') =
      (below (b * 2 ^ d) fun i => l.getD i 0 != l'.getD i 0).card := by
  have hsplit := card_below_not (b * 2 ^ d) fun i => l.getD i 0 == l'.getD i 0
  unfold countNotEqual bne
  rw [h.card_equal l l']
  omega

/-- The mask of the slots with the least counter, and its first slot. -/
theorem Correct.minLru_spec {l : List Lru} (hl : l.length = b * 2 ^ d) :
    P.sets.valid (P.maskMinLru (pack _ l)) ∧
      (minLruState (pack (8 * (b * 2 ^ d)) l), P.maskType.next (P.maskMinLru (pack _ l))) =
        ideal.minLru l := by
  obtain ⟨⟨k, hk, heq⟩, hle⟩ := minLruState_spec (pack (8 * (b * 2 ^ d)) l) h.bytes_pos
  have hmask : P.sets.Denotes (b * 2 ^ d) (P.maskMinLru (pack _ l))
      fun i => l.getD i 0 == minLruState (pack (8 * (b * 2 ^ d)) l) :=
    h.denotes_mask l _
  have hset : ∀ i, i ∈ P.sets.toSet (P.maskMinLru (pack _ l)) ↔
      i < b * 2 ^ d ∧ l.getD i 0 = minLruState (pack (8 * (b * 2 ^ d)) l) := by
    intro i
    rw [hmask.2, mem_below, beq_iff_eq]
  have hne : (P.sets.toSet (P.maskMinLru (pack _ l))).Nonempty :=
    ⟨k, (hset k).mpr ⟨hk, by rw [heq, lane_load l hk]⟩⟩
  have hnext : P.maskType.next (P.maskMinLru (pack _ l)) = _ :=
    h.implements.next _ hmask.1 hne
  obtain ⟨hlt, hfirst⟩ := (hset _).mp (Finset.min'_mem _ hne)
  refine ⟨hmask.1, ?_⟩
  rw [hnext]
  refine minLru_eq hl hlt hfirst (fun j hj => ?_) fun j hj hv => ?_
  · rw [← lane_load l hj]
    exact hle j hj
  · exact absurd hj (not_lt.mpr (Finset.min'_le _ j ((hset j).mpr ⟨hj.trans hlt, hv⟩)))

/-- `update_lru` rescales all counters if the one of the slot is the greatest, and increments that one. -/
theorem Correct.updateLru_spec {l : List Lru} (hl : l.length = b * 2 ^ d) {n : BitVec 64}
    (hn : P.sets.valid n) (hne : (P.sets.toSet n).Nonempty) :
    store _ (P.updateLru (pack _ l) n) = bumpLru l ((P.sets.toSet n).min' hne) := by
  have hI := h.implements
  obtain ⟨hv, hset⟩ : P.sets.valid (P.maskType.truncate n) ∧
      P.sets.toSet (P.maskType.truncate n) = _ := hI.truncate n hn
  have hi := hI.lt n _ (Finset.min'_mem _ hne)
  have hmem : ∀ j, j ∈ P.sets.toSet (P.maskType.truncate n) ↔ j = (P.sets.toSet n).min' hne := by
    intro j
    rw [hset, Finset.mem_filter]
    constructor
    · exact fun hj => le_antisymm (hj.2 _ (Finset.min'_mem _ hne)) (Finset.min'_le _ j hj.1)
    · rintro rfl
      exact ⟨Finset.min'_mem _ hne, fun j hj => Finset.min'_le _ j hj⟩
  have hnx := h.expand _ hv
  have hr := h.rescale _ _ _ _ (isLaneMask_vceq (pack _ l) h.bytes_pos maxLru) hnx
  generalize (P.sets.toSet n).min' hne = i at hi hmem ⊢
  have hmax : ∀ x : Lru, (x == maxLru) = decide (maxLru.toNat ≤ x.toNat) := by decide
  have hrescale : decide (∃ k < b * 2 ^ d, ((lane (pack (8 * (b * 2 ^ d)) l) k == maxLru) &&
      decide (k ∈ P.sets.toSet (P.maskType.truncate n))) = true) =
        decide (maxLru.toNat ≤ (l.getD i 0).toNat) := by
    rw [← hmax, Bool.eq_iff_iff, decide_eq_true_iff]
    constructor
    · rintro ⟨k, hk, hc⟩
      obtain ⟨hs, hki⟩ := Bool.and_eq_true_iff.mp hc
      obtain rfl := (hmem k).mp (of_decide_eq_true hki)
      rwa [lane_load l hk] at hs
    · intro hs
      refine ⟨i, hi, Bool.and_eq_true_iff.mpr ⟨?_, decide_eq_true ((hmem i).mpr rfl)⟩⟩
      rwa [lane_load l hi]
  have hshift : ∀ (c : Bool) (x : BitVec 8), shift8 x (full8 c) = if c then x >>> 1 else x := by
    intro c x
    cases c
    · exact BitVec.shiftLeft_zero x
    · rfl
  have hsub : ∀ (c : Bool) (x : BitVec 8), x - full8 c = x + if c then 1 else 0 := by
    intro c x
    cases c
    · exact (BitVec.sub_zero x).trans (BitVec.add_zero x).symm
    · exact BitVec.sub_eq_add_neg _ _
  refine stored_bumpLru hl fun j hj => ?_
  unfold updateLru
  dsimp only
  rw [lane_each₂ (g := fun x y => x - y) h.bytes_pos _ _ (by omega)
      fun z z' r hr' => lane_vsub8 z z' (by omega),
    hnx j hj, hsub, lane_each _ h.bytes_pos
      (g := fun z => shift8 z (full8 (decide (maxLru.toNat ≤ (l.getD i 0).toNat)))) _ hj,
    hshift, lane_load l hj]
  · congr 1
    · exact if_congr decide_eq_true_iff rfl rfl
    · exact if_congr (decide_eq_true_iff.trans (hmem j)) rfl rfl
  · intro z r hr'
    rw [lane_vshl8 _ _ (by omega), hr r hr', hrescale]

/-- Every function is correct. -/
theorem Correct.correct : P.fns.Correct P.sets (b * 2 ^ d) where
  maskType := h.implements
  store_load l hl := stored_eq hl.1 fun i hi => lane_load l hi
  mask l s _ := h.denotes_mask l s
  maskNot l s _ := h.denotes_maskNot l s
  maskHash l _ := h.denotes_hash l
  maskNotHash l _ := h.denotes_notHash l
  maskEmpty l _ := h.denotes_mask l empty
  maskNotEmpty l _ := h.denotes_maskNot l empty
  maskTombstone l _ := h.denotes_mask l tombstone
  maskNotTombstone l _ := h.denotes_maskNot l tombstone
  maskEqual l l' _ _ := h.denotes_equal l l'
  maskNotEqual l l' _ _ := h.invert _ _ (h.denotes_equal l l')
  hasHash l hl := (isHash_maxState h.bytes_pos l).trans (exists_slot hl.1 isHash)
  hasNotHash l hl := (isHash_minState h.bytes_pos l).trans (exists_slot_not hl.1)
  hasEmpty l hl := (minState_empty h.bytes_pos l).trans (exists_slot_eq hl.1 empty)
  hasNotEmpty l hl := (maxState_empty h.bytes_pos l).trans (exists_slot_ne hl.1 empty)
  hasTombstone l hl := (has_load h.bytes_pos l tombstone).trans (exists_slot_eq hl.1 tombstone)
  hasNotTombstone l hl := (hasNot_load h.bytes_pos l tombstone).trans (exists_slot_ne hl.1 tombstone)
  countEqual l l' _ _ := (congrArg _ (h.card_equal l l')).trans (neg_neg _)
  countNotEqual l l' _ _ := h.card_notEqual l l'
  hashToTombstone l hl := by
    have hbyte : ∀ s : State, validState s = true →
        minS s tombstone = if isHash s then tombstone else s := by decide
    refine stored_map hl.1 fun i hi => (lane_hashToTombstone _ h.bytes_pos hi).trans ?_
    rw [← hbyte _ (hl.valid_getD hi 0)]
    exact congrArg (minS · tombstone) (lane_load l hi)
  notHashToEmpty l hl := by
    have hbyte : ∀ s : State, validState s = true →
        minU s empty = if isHash s then s else empty := by decide
    refine stored_map hl.1 fun i hi => (lane_notHashToEmpty _ h.bytes_pos hi).trans ?_
    rw [← hbyte _ (hl.valid_getD hi 0)]
    exact congrArg (minU · empty) (lane_load l hi)
  toEmpty l m hl hm := by
    refine stored_emptied hl.1 fun i hi => (lane_emptied _ h.bytes_pos (h.expand m hm) hi).trans ?_
    exact ite_congr (propext decide_eq_true_iff) (fun _ => rfl) fun _ => lane_load l hi
  stateAt l i _ hi := (stateAt_eq _ h.bytes_pos h.slots_le hi).trans (lane_load l hi)
  storeLru_loadLru l hl := stored_eq hl fun i hi => lane_load l hi
  minLru l hl := (h.minLru_spec hl).2
  minLruSlot l hl := ⟨(h.minLru_spec hl).1, congrArg Prod.snd (h.minLru_spec hl).2⟩
  maskLruBelow l t _ := h.denotes_lruBelow l t
  updateLru l n hl hn hne := h.updateLru_spec hl hn hne
  toEmptyIfLruBelow l l' t hl hl' := by
    refine stored_lruBelow hl.1 hl' fun i hi =>
      (lane_emptied _ h.bytes_pos (isLaneMask_vcltU8 _ h.bytes_pos t) hi).trans ?_
    refine ite_congr (propext ?_) (fun _ => rfl) fun _ => lane_load l hi
    exact decide_eq_true_iff.trans (by rw [show (P.fns.loadLru l') = pack _ l' from rfl, lane_load l' hi])
  lruAt l i _ hi := (stateAt_eq _ h.bytes_pos h.slots_le hi).trans (lane_load l hi)

/-- `has` and `has_not` agree with those of the array kernel. -/
theorem Correct.has_eq {l : List State} (hl : IsBucket (b * 2 ^ d) l) (s : State) :
    has (pack (8 * (b * 2 ^ d)) l) s = ArrayKernel.has l s ∧
      hasNot (pack (8 * (b * 2 ^ d)) l) s = ArrayKernel.hasNot l s := by
  constructor
  · refine Bool.eq_iff_iff.mpr ((has_load h.bytes_pos l s).trans ?_)
    rw [exists_slot hl.1 (· == s), ArrayKernel.has, List.any_eq_true]
  · refine Bool.eq_iff_iff.mpr ((hasNot_load h.bytes_pos l s).trans ?_)
    rw [exists_slot hl.1 (· != s), ArrayKernel.hasNot, List.any_eq_true]

/-- A lane mask that is collapsed and expanded is the same. -/
theorem Correct.expand_collapse {x : BitVec (8 * (b * 2 ^ d))} {p : ℕ → Bool}
    (hx : IsLaneMask (b * 2 ^ d) x p) : P.expand (P.collapse x) = x := by
  obtain ⟨hv, hset⟩ := h.collapse x p hx
  refine ext_lane (n := b * 2 ^ d) le_rfl fun i hi => ?_
  rw [h.expand _ hv i hi, hx i hi, hset]
  congr 1
  rw [Bool.eq_iff_iff, decide_eq_true_iff, mem_below]
  exact and_iff_right hi

/-- A slot mask that is expanded and collapsed is the same. -/
theorem Correct.collapse_expand {m : BitVec 64} (hm : P.sets.valid m) :
    P.collapse (P.expand m) = m := by
  obtain ⟨hv, hset⟩ := h.collapse _ _ (h.expand m hm)
  refine h.implements.ext _ _ hv hm (hset.trans (Finset.ext fun i => ?_))
  rw [mem_below, decide_eq_true_iff]
  exact ⟨fun hi => hi.2, fun hi => ⟨h.implements.lt m i hi, hi⟩⟩

end Correct

/-- Collapsing and expanding are inverse to each other, and the kernel agrees with the array kernel of
the same size on every bucket of valid states and all LRU counters. -/
structure AgreesWithArray (P : Parts b d) : Prop where
  expand_collapse : ∀ x p, IsLaneMask (b * 2 ^ d) x p → P.expand (P.collapse x) = x
  collapse_expand : ∀ m, P.sets.valid m → P.collapse (P.expand m) = m
  agrees : P.fns.Agrees P.sets (ArrayKernel.wordFns (b * 2 ^ d)) (ArrayKernel.wordSets (b * 2 ^ d))
    (b * 2 ^ d)
  has_eq : ∀ l s, IsBucket (b * 2 ^ d) l →
    has (pack (8 * (b * 2 ^ d)) l) s = ArrayKernel.has l s ∧
      hasNot (pack (8 * (b * 2 ^ d)) l) s = ArrayKernel.hasNot l s

theorem Correct.agreesWithArray {P : Parts b d} (h : P.Correct) : P.AgreesWithArray where
  expand_collapse _ _ hx := h.expand_collapse hx
  collapse_expand _ hm := h.collapse_expand hm
  agrees := h.correct.agrees (ArrayKernel.correct
    (ArrayKernel.bitPerSlot_word (h.slots_le.trans (by decide)))
    (Nat.mul_pos h.bytes_pos (Nat.two_pow_pos d)))
  has_eq _ s hl := h.has_eq hl s

end Parts

end NeonKernel

end Nvhm
