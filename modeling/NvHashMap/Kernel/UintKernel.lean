import NvHashMap.Kernel.ArrayKernel
import NvHashMap.Lib.Lanes

/-! # The integer kernels

`uint_kernel` of `kernel.hpp`: a bucket of `2 ^ k` bytes is one integer, and its masks have a byte
per slot, marked in the highest bit.  Masks of less than 32 bits are computed with 32 bits.  The
parameter `fast` is `ProducesFalsePositives`.

A mask function means what it should if its mark of every slot does (`marks`).  The mark of a slot
depends on the byte of the slot alone, except that the fast `mask` borrows from the bytes below.
It marks every slot that matches, and a slot that it marks has a byte without the highest bit: a
false positive is an occupied slot. -/

namespace Nvhm

open Buffer Lanes

namespace UintKernel
variable (k : ℕ)

/-- `mask_type`. -/
def maskType : MaskType where
  width := maskWidth (8 * 2 ^ k)
  shift := 3
  left := true

/-- `repr_type`. -/
abbrev Repr := BitVec (8 * 2 ^ k)

/-- `mask_repr_type`. -/
abbrev MaskRepr := BitVec (maskType k).width

/-- `broadcast`. -/
def broadcast (x : BitVec 8) : Repr k := fill _ k 1 (x.setWidth _)

def lsbs : MaskRepr k := (broadcast k 0x01).setWidth _

def msbs : MaskRepr k := (broadcast k 0x80).setWidth _

def allBits : MaskRepr k := (broadcast k 0xff).setWidth _

/-! ### The functions -/

/-- `load` and `load_lru`, from little-endian memory. -/
def load (b : List (BitVec 8)) : Repr k := pack _ b

variable {k}

/-- `at` and `lru_at`. -/
def stateAt (x : Repr k) (i : ℕ) : BitVec 8 := (x >>> (i * 8)).setWidth 8

/-- `store` and `store_lru`. -/
def store (x : Repr k) : List (BitVec 8) := (List.range (2 ^ k)).map (stateAt x)

def mask (fast : Bool) (x : Repr k) (s : State) : MaskRepr k :=
  let m : MaskRepr k := x.setWidth _
  let m := m ^^^ (lsbs k * s.setWidth _)
  if fast then (m - lsbs k) &&& (~~~m &&& msbs k)
  else ((~~~m &&& ~~~msbs k) + lsbs k) &&& (~~~m &&& msbs k)

def maskHash (x : Repr k) : MaskRepr k :=
  let m : MaskRepr k := x.setWidth _
  ~~~m &&& msbs k

def maskNotHash (x : Repr k) : MaskRepr k := x.setWidth _ &&& msbs k

def maskEmpty (x : Repr k) : MaskRepr k :=
  let m : MaskRepr k := x.setWidth _
  m &&& (~~~m <<< 7) &&& msbs k

def maskTombstone (x : Repr k) : MaskRepr k :=
  let m : MaskRepr k := x.setWidth _
  m &&& (m <<< 7) &&& msbs k

def maskNotTombstone (x : Repr k) : MaskRepr k := maskTombstone x ^^^ msbs k

def maskEqual (x y : Repr k) : MaskRepr k :=
  let m : MaskRepr k := x.setWidth _
  let m := m ^^^ y.setWidth _
  ((~~~m &&& ~~~msbs k) + lsbs k) &&& (~~~m &&& msbs k)

def maskNotEqual (x y : Repr k) : MaskRepr k := maskEqual x y ^^^ msbs k

def notHashToEmpty (x : Repr k) : Repr k :=
  let m : MaskRepr k := x.setWidth _
  (m &&& (~~~lsbs k ||| (~~~m >>> 7))).setWidth _

def toEmpty (x : Repr k) (m : MaskRepr k) : Repr k :=
  let x : MaskRepr k := x.setWidth _
  let m := (m >>> 7) * (0xff#8).setWidth _
  (x ^^^ ((x ^^^ msbs k) &&& m)).setWidth _

def maskMinLru (l : Repr k) : MaskRepr k := (maskType k).single (minLruLoop (2 ^ k) (stateAt l)).2 true

def maskLruBelow (l : Repr k) (t : Lru) : MaskRepr k :=
  (List.range (2 ^ k)).foldl (fun m i => m |||
    (BitVec.ofBool (decide ((stateAt l i).toNat < t.toNat))).setWidth _ <<< (i * 8)) 0#_ <<< 7

def updateLru (l : Repr k) (n : MaskRepr k) : Repr k :=
  let i := (maskType k).next n
  let rescale := decide (maxLru.toNat ≤ (stateAt l i).toNat)
  let n : MaskRepr k := l.setWidth _ >>> (if rescale then 1 else 0)
  let n := n &&& (if rescale then ~~~msbs k else allBits k)
  let l : Repr k := 1#_ <<< (i * 8)
  (n + l.setWidth _).setWidth _

def toEmptyIfLruBelow (x l : Repr k) (t : Lru) : Repr k := toEmpty x (maskLruBelow l t)

variable (k)

/-- What the containers use of the kernel. -/
def ops (fast : Bool) : BucketOps where
  hits b s := (maskType k).slots (mask fast (load k b) s)
  hitsAbove b s i := (maskType k).slots ((maskType k).above (mask fast (load k b) s) i)
  hashes b := (maskType k).slots (maskHash (load k b))
  notHashes b := (maskType k).slots (maskNotHash (load k b))
  empties b := (maskType k).slots (maskEmpty (load k b))
  tombstones b := (maskType k).slots (maskTombstone (load k b))
  hasEmpty b := (maskType k).hasNext (maskEmpty (load k b))
  hasNotTombstone b := (maskType k).hasNext (maskNotTombstone (load k b))
  notHashToEmpty b := store (notHashToEmpty (load k b))
  countNotEqual b0 b1 := (maskType k).count (maskNotEqual (load k b0) (load k b1))
  minLru l := minLruLoop (2 ^ k) (stateAt (load k l))
  minLruSlot l := (maskType k).next (maskMinLru (load k l))
  updateLru l i := store (updateLru (load k l) ((maskType k).single i true))
  toEmptyIfLruBelow b l t := store (toEmptyIfLruBelow (load k b) (load k l) t)

/-! ### Lanes and marks -/

variable {k}

theorem bit_eq (i : ℕ) : (maskType k).bit i = 8 * i + 7 := by
  simp [MaskType.bit, maskType, MaskType.bitsPerSlot]
  omega

theorem stateAt_eq (x : Repr k) (i : ℕ) : stateAt x i = lane x i := by
  refine BitVec.eq_of_getLsbD_eq fun j hj => ?_
  rw [stateAt, getLsbD_lane, BitVec.getLsbD_setWidth, BitVec.getLsbD_ushiftRight, Nat.mul_comm i 8]

variable (hk : k ≤ 4)
include hk

theorem width_le : 2 ^ k * (maskType k).bitsPerSlot ≤ (maskType k).width := by
  have hpow : 2 ^ k ≤ 2 ^ 4 := Nat.pow_le_pow_right two_pos hk
  simp only [MaskType.bitsPerSlot, maskType, maskWidth]
  split_ifs <;> omega

/-- The bytes of a bucket lie in the mask. -/
theorem le_width {i : ℕ} (hi : i < 2 ^ k) : 8 * (i + 1) ≤ (maskType k).width := by
  have h := width_le hk
  have hb : (maskType k).bitsPerSlot = 8 := rfl
  rw [hb] at h
  omega

theorem lane_load {b : List (BitVec 8)} {i : ℕ} (hi : i < 2 ^ k) :
    lane ((load k b).setWidth (maskType k).width) i = b.getD i 0 := by
  rw [lane_setWidth _ (le_width hk hi), load, lane_pack _ (by omega)]

theorem lane_broadcast (x : BitVec 8) {i : ℕ} (hi : i < 2 ^ k) :
    lane ((broadcast k x).setWidth (maskType k).width) i = x := by
  rw [lane_setWidth _ (le_width hk hi), broadcast]
  refine lane_fill k 0 _ (Nat.zero_le k) (by omega) (fun j hj => ?_) i hi
  rw [lane_setWidth _ (by omega)]
  cases j with
  | zero =>
      rw [if_pos (by simp)]
      refine BitVec.eq_of_getLsbD_eq fun b hb => ?_
      rw [getLsbD_lane, decide_eq_true hb]
      simp
  | succ j =>
      rw [if_neg (by simp), lane_of_ge _ (by omega)]

theorem lane_lsbs {i : ℕ} (hi : i < 2 ^ k) : lane (lsbs k) i = 1#8 := lane_broadcast hk _ hi

theorem lane_msbs {i : ℕ} (hi : i < 2 ^ k) : lane (msbs k) i = 0x80#8 := lane_broadcast hk _ hi

theorem lane_allBits {i : ℕ} (hi : i < 2 ^ k) : lane (allBits k) i = 0xff#8 :=
  lane_broadcast hk _ hi

theorem lane_not_mask (m : MaskRepr k) {i : ℕ} (hi : i < 2 ^ k) : lane (~~~m) i = ~~~lane m i :=
  lane_not m (le_width hk hi)

omit hk in
theorem getLsbD_bit (m : MaskRepr k) (i : ℕ) :
    m.getLsbD ((maskType k).bit i) = (lane m i).getLsbD 7 := by
  rw [bit_eq, getLsbD_eq_lane _ _ (by decide)]

/-- The bits of `msbs` mark all slots. -/
theorem isMask_msbs : (maskType k).IsMask (2 ^ k) (msbs k) := by
  intro p hp
  rw [← Nat.div_add_mod p 8] at hp ⊢
  have hmod := Nat.mod_lt p (show 0 < 8 by decide)
  rcases Nat.lt_or_ge (p / 8) (2 ^ k) with hi | hi
  · refine ⟨p / 8, hi, ?_⟩
    rw [getLsbD_eq_lane _ _ hmod, lane_msbs hk hi] at hp
    have hbit : ∀ j < 8, (0x80#8).getLsbD j = true → j = 7 := by decide
    rw [bit_eq, hbit _ hmod hp]
  · rw [msbs, BitVec.getLsbD_setWidth, BitVec.getLsbD_of_ge _ _ (by omega), Bool.and_false] at hp
    cases hp

theorem isMask_and (m : MaskRepr k) : (maskType k).IsMask (2 ^ k) (m &&& msbs k) := by
  intro p hp
  rw [BitVec.getLsbD_and, Bool.and_eq_true] at hp
  exact isMask_msbs hk p hp.2

theorem isMask_xor {m : MaskRepr k} (hm : (maskType k).IsMask (2 ^ k) m) :
    (maskType k).IsMask (2 ^ k) (m ^^^ msbs k) := by
  intro p hp
  rw [BitVec.getLsbD_xor] at hp
  cases hb : m.getLsbD p with
  | true => exact hm p hb
  | false =>
      rw [hb, Bool.false_xor] at hp
      exact isMask_msbs hk p hp

/-- A mask function, from its marks. -/
structure Marks (m : MaskRepr k) (c : ℕ → Bool) : Prop where
  isMask : (maskType k).IsMask (2 ^ k) m
  mark : ∀ i < 2 ^ k, (lane m i).getLsbD 7 = c i

variable {m : MaskRepr k} {c : ℕ → Bool}

theorem Marks.slots (h : Marks m c) : (maskType k).slots m = (List.range (2 ^ k)).filter c := by
  rw [(maskType k).slots_eq (width_le hk) h.isMask]
  refine List.filter_congr fun i hi => ?_
  rw [getLsbD_bit, h.mark i (List.mem_range.mp hi)]

theorem Marks.slots_above (h : Marks m c) {a : ℤ} (h1 : -1 ≤ a) (h2 : a < (2 ^ k : ℕ)) :
    (maskType k).slots ((maskType k).above m a) =
      ((List.range (2 ^ k)).filter c).filter fun i : ℕ => decide (a < (i : ℤ)) := by
  rw [(maskType k).slots_eq (width_le hk) (MaskType.IsMask.above _ h.isMask a), List.filter_filter]
  refine List.filter_congr fun i hi => ?_
  rw [List.mem_range] at hi
  rw [(maskType k).getLsbD_above (width_le hk) h1 h2 hi, getLsbD_bit, h.mark i hi, Bool.and_comm]

omit hk in
theorem Marks.hasNext (h : Marks m c) :
    (maskType k).hasNext m = true ↔ ∃ i < 2 ^ k, c i = true := by
  rw [(maskType k).hasNext_iff h.isMask]
  refine exists_congr fun i => and_congr_right fun hi => ?_
  rw [getLsbD_bit, h.mark i hi]

theorem Marks.count (h : Marks m c) :
    (maskType k).count m = ((List.range (2 ^ k)).filter c).length := by
  rw [(maskType k).count_eq (width_le hk) h.isMask, ← (maskType k).slots_eq (width_le hk) h.isMask,
    h.slots hk]

theorem Marks.xor (h : Marks m c) : Marks (m ^^^ msbs k) fun i => !c i where
  isMask := isMask_xor hk h.isMask
  mark i hi := by
    rw [lane_xor, BitVec.getLsbD_xor, h.mark i hi, lane_msbs hk hi]
    cases c i <;> rfl

/-- The marks of the slots that satisfy a condition, as a list of slots. -/
theorem Marks.slots_state {b : List State} (hb : b.length = 2 ^ k) {p : State → Bool}
    (h : Marks m fun i => p (b.getD i 0)) : (maskType k).slots m = Buffer.slots p b := by
  rw [h.slots hk, slots_eq_filter hb 0]

/-! ### The marks of the mask functions -/

section Marks
variable {b : List State}

theorem marks_hash : Marks (maskHash (load k b)) fun i => isHash (b.getD i 0) where
  isMask := isMask_and hk _
  mark i hi := by
    have hbyte : ∀ s : State, (~~~s &&& 0x80#8).getLsbD 7 = isHash s := by decide
    rw [maskHash, lane_and, lane_not_mask hk _ hi, lane_load hk hi, lane_msbs hk hi, hbyte]

theorem marks_notHash : Marks (maskNotHash (load k b)) fun i => !isHash (b.getD i 0) where
  isMask := isMask_and hk _
  mark i hi := by
    have hbyte : ∀ s : State, (s &&& 0x80#8).getLsbD 7 = !isHash s := by decide
    rw [maskNotHash, lane_and, lane_load hk hi, lane_msbs hk hi, hbyte]

/-- The lowest bit of a byte, moved to the highest one. -/
theorem getLsbD_shiftLeft_seven (m : MaskRepr k) {i : ℕ} (hi : i < 2 ^ k) :
    (lane (m <<< 7) i).getLsbD 7 = (lane m i).getLsbD 0 := by
  have hlt : 8 * i + 7 < (maskType k).width := by
    have := le_width hk hi
    omega
  rw [getLsbD_lane, getLsbD_lane, BitVec.getLsbD_shiftLeft, decide_eq_true hlt]
  simp

theorem marks_empty (hb : IsBucket (2 ^ k) b) :
    Marks (maskEmpty (load k b)) fun i => b.getD i 0 == empty where
  isMask := isMask_and hk _
  mark i hi := by
    have hbyte : ∀ s : State, validState s = true →
        (s.getLsbD 7 && (~~~s).getLsbD 0 && (0x80#8).getLsbD 7) = (s == empty) := by decide
    rw [maskEmpty, lane_and, lane_and, lane_load hk hi, lane_msbs hk hi, BitVec.getLsbD_and,
      BitVec.getLsbD_and, getLsbD_shiftLeft_seven hk _ hi, lane_not_mask hk _ hi, lane_load hk hi,
      hbyte _ (hb.valid_getD hi 0)]

theorem marks_tombstone (hb : IsBucket (2 ^ k) b) :
    Marks (maskTombstone (load k b)) fun i => b.getD i 0 == tombstone where
  isMask := isMask_and hk _
  mark i hi := by
    have hbyte : ∀ s : State, validState s = true →
        (s.getLsbD 7 && s.getLsbD 0 && (0x80#8).getLsbD 7) = (s == tombstone) := by decide
    rw [maskTombstone, lane_and, lane_and, lane_load hk hi, lane_msbs hk hi, BitVec.getLsbD_and,
      BitVec.getLsbD_and, getLsbD_shiftLeft_seven hk _ hi, lane_load hk hi,
      hbyte _ (hb.valid_getD hi 0)]

/-- The exact test for zero bytes: no byte overflows when one is added to its low bits. -/
theorem marks_zero (m : MaskRepr k) :
    Marks (((~~~m &&& ~~~msbs k) + lsbs k) &&& (~~~m &&& msbs k)) fun i => lane m i == 0 where
  isMask := by
    rw [← BitVec.and_assoc]
    exact isMask_and hk _
  mark i hi := by
    have hbyte : ∀ d : BitVec 8,
        (((~~~d &&& ~~~0x80#8) + 1#8) &&& (~~~d &&& 0x80#8)).getLsbD 7 = (d == 0) := by decide
    have hlow : ∀ j < 2 ^ k, lane (~~~m &&& ~~~msbs k) j = ~~~lane m j &&& ~~~0x80#8 := by
      intro j hj
      rw [lane_and, lane_not_mask hk _ hj, lane_not_mask hk _ hj, lane_msbs hk hj]
    have hcarry : ∀ d : BitVec 8, (~~~d &&& ~~~0x80#8).toNat + (1#8).toNat < 256 := by decide
    rw [lane_and, lane_add (le_width hk hi), hlow i hi, lane_lsbs hk hi, lane_and,
      lane_not_mask hk _ hi, lane_msbs hk hi, hbyte]
    intro j hj
    rw [hlow j (hj.trans hi), lane_lsbs hk (hj.trans hi)]
    exact hcarry _

/-- The byte of a slot, compared with a state. -/
theorem lane_xor_state {i : ℕ} (hi : i < 2 ^ k) (s : State) :
    lane ((load k b).setWidth (maskType k).width ^^^ (lsbs k * s.setWidth _)) i =
      b.getD i 0 ^^^ s := by
  rw [lane_xor, lane_load hk hi, lane_mul s (le_width hk hi), lane_lsbs hk hi, BitVec.one_mul]
  intro j hj
  rw [lane_lsbs hk (hj.trans hi)]
  have := s.isLt
  simpa using this

theorem marks_mask (s : State) :
    Marks (mask false (load k b) s) fun i => b.getD i 0 == s where
  isMask := (marks_zero hk _).isMask
  mark i hi := by
    refine ((marks_zero hk _).mark i hi).trans ?_
    rw [lane_xor_state hk hi, Bool.eq_iff_iff, beq_iff_eq, beq_iff_eq]
    exact BitVec.xor_eq_zero_iff

theorem marks_equal {b' : List State} :
    Marks (maskEqual (load k b) (load k b')) fun i => b.getD i 0 == b'.getD i 0 where
  isMask := (marks_zero hk _).isMask
  mark i hi := by
    refine ((marks_zero hk _).mark i hi).trans ?_
    rw [lane_xor, lane_load hk hi, lane_load hk hi, Bool.eq_iff_iff, beq_iff_eq, beq_iff_eq]
    exact BitVec.xor_eq_zero_iff

/-- What the fast mask marks: the slots that match, and behind a marked slot those that differ from
the state in the lowest bit alone. -/
def fastMarks (b : List State) (s : State) : ℕ → Bool
  | 0 => b.getD 0 0 == s
  | i + 1 => b.getD (i + 1) 0 == s || (b.getD (i + 1) 0 == s ^^^ 1 && fastMarks b s i)

/-- The bytes that are marked are those that lend one to the bytes below. -/
theorem borrows_fast (s : State) : ∀ {i : ℕ}, i < 2 ^ k →
    borrows ((load k b).setWidth (maskType k).width ^^^ (lsbs k * s.setWidth _)) (lsbs k) (i + 1) =
      fastMarks b s i := by
  have hbyte : ∀ (d : BitVec 8) (v : Bool), decide (d.toNat < (1#8).toNat + v.toNat) =
      (d == 0 || (d == 1 && v)) := by decide +kernel
  have hzero : ∀ x : State, (x ^^^ s == 0) = (x == s) := by
    intro x
    rw [Bool.eq_iff_iff, beq_iff_eq, beq_iff_eq]
    exact BitVec.xor_eq_zero_iff
  have hone : ∀ x : State, (x ^^^ s == 1) = (x == s ^^^ 1) := by
    intro x
    rw [Bool.eq_iff_iff, beq_iff_eq, beq_iff_eq]
    constructor
    · rintro h
      rw [← h, BitVec.xor_comm x, ← BitVec.xor_assoc, BitVec.xor_self, BitVec.zero_xor]
    · rintro rfl
      rw [BitVec.xor_comm s, BitVec.xor_assoc, BitVec.xor_self, BitVec.xor_zero]
  intro i
  induction i with
  | zero =>
      intro hi
      rw [borrows_succ, lane_xor_state hk hi, lane_lsbs hk hi, borrows_zero, hbyte, hzero, fastMarks,
        Bool.and_false, Bool.or_false]
  | succ i ih =>
      intro hi
      rw [borrows_succ, lane_xor_state hk hi, lane_lsbs hk hi, ih (by omega), hbyte, hzero, hone,
        fastMarks]

theorem marks_fastMarks (s : State) : Marks (mask true (load k b) s) (fastMarks b s) where
  isMask := by
    rw [mask, if_pos rfl, ← BitVec.and_assoc]
    exact isMask_and hk _
  mark i hi := by
    have hbyte : ∀ (d : BitVec 8) (v : Bool),
        ((d - 1#8 - (BitVec.ofBool v).setWidth 8) &&& (~~~d &&& 0x80#8)).getLsbD 7 =
          decide (d.toNat < (1#8).toNat + v.toNat) := by decide +kernel
    dsimp only [mask]
    rw [if_pos rfl, lane_and, lane_and, lane_not_mask hk _ hi, lane_sub (le_width hk hi),
      lane_lsbs hk hi, lane_msbs hk hi, hbyte, ← borrows_fast hk s hi, borrows_succ, lane_lsbs hk hi]

/-- The fast test for zero bytes marks all of them, and occupied slots only. -/
theorem marks_fast {s : State} (hs : isHash s = true) : ∃ c : ℕ → Bool,
    Marks (mask true (load k b) s) c ∧ ∀ i < 2 ^ k,
      (b.getD i 0 = s → c i = true) ∧ (c i = true → isHash (b.getD i 0) = true) := by
  have hflip : ∀ s : State, isHash s = true → isHash (s ^^^ 1) = true := by decide
  refine ⟨fastMarks b s, marks_fastMarks hk s, fun i _ => ?_⟩
  cases i with
  | zero =>
      refine ⟨beq_iff_eq.mpr, fun h => ?_⟩
      rw [eq_of_beq h]
      exact hs
  | succ i =>
      rw [fastMarks, Bool.or_eq_true, Bool.and_eq_true, beq_iff_eq, beq_iff_eq]
      refine ⟨Or.inl, ?_⟩
      rintro (h | ⟨h, -⟩)
      · rw [h]
        exact hs
      · rw [h]
        exact hflip s hs

end Marks

/-! ### Bytes -/

omit hk in
/-- The stored bytes are the lanes. -/
theorem store_eq {x : MaskRepr k} {l : List (BitVec 8)} (hl : l.length = 2 ^ k)
    (h : ∀ i < 2 ^ k, lane x i = l.getD i 0) : store (x.setWidth (8 * 2 ^ k)) = l := by
  rw [store]
  conv_rhs => rw [← map_range_getD hl 0]
  refine List.map_congr_left fun i hi => ?_
  rw [List.mem_range] at hi
  rw [stateAt_eq, lane_setWidth _ (by omega), h i hi]

omit hk in
theorem stateAt_load {l : List Lru} (hl : l.length = 2 ^ k) (i : ℕ) :
    stateAt (load k l) i = l.getD i 0 := by
  rw [stateAt_eq]
  rcases Nat.lt_or_ge i (2 ^ k) with hi | hi
  · rw [load, lane_pack _ (by omega)]
  · rw [lane_of_ge _ (by omega), List.getD_eq_default _ _ (by omega)]

omit hk in
/-- The highest bit of a byte, moved to the lowest one. -/
theorem getLsbD_ushiftRight_seven (m : MaskRepr k) (i : ℕ) :
    (lane (m >>> 7) i).getLsbD 0 = (lane m i).getLsbD 7 := by
  rw [getLsbD_lane, getLsbD_lane, BitVec.getLsbD_ushiftRight, Nat.add_comm 7]
  rfl

theorem notHashToEmpty_eq {b : List State} (hb : IsBucket (2 ^ k) b) :
    store (notHashToEmpty (load k b)) = ideal.notHashToEmpty b := by
  refine store_eq (by simp [ideal, hb.1]) fun i hi => ?_
  have hlow : ∀ z : BitVec 8, ~~~1#8 ||| z = if z.getLsbD 0 then 0xff#8 else 0xfe#8 := by decide
  have hbyte : ∀ s : State, validState s = true →
      (s &&& if (~~~s).getLsbD 7 then 0xff#8 else 0xfe#8) = if isHash s then s else empty := by
    decide
  have hi' : i < b.length := hb.1 ▸ hi
  rw [lane_and, lane_or, lane_not_mask hk _ hi, lane_lsbs hk hi, hlow, getLsbD_ushiftRight_seven,
    lane_not_mask hk _ hi, lane_load hk hi, hbyte _ (hb.valid_getD hi 0)]
  change _ = (b.map fun s => if isHash s then s else empty).getD i 0
  rw [List.getD_eq_getElem _ _ hi', List.getD_eq_getElem _ _ (by simpa using hi'),
    List.getElem_map]

omit hk in
/-- A mask, with its marks moved to the lowest bits. -/
theorem lane_ushiftRight_seven {m : MaskRepr k} {c : ℕ → Bool} (hm : Marks m c) {i : ℕ}
    (hi : i < 2 ^ k) : lane (m >>> 7) i = if c i then 1#8 else 0#8 := by
  have hbyte : ∀ (x : BitVec 8) (v : Bool), x.getLsbD 0 = v →
      (∀ j < 8, 0 < j → x.getLsbD j = false) → x = if v then 1#8 else 0#8 := by
    decide
  refine hbyte _ _ ((getLsbD_ushiftRight_seven m i).trans (hm.mark i hi)) fun j hj hpos => ?_
  rw [getLsbD_lane, BitVec.getLsbD_ushiftRight, decide_eq_true hj, Bool.true_and,
    Bool.eq_false_iff]
  intro hbit
  obtain ⟨i', -, hp⟩ := hm.isMask _ hbit
  rw [bit_eq] at hp
  omega

theorem toEmpty_eq {b : List State} {m : MaskRepr k} {c : ℕ → Bool} (hm : Marks m c)
    {l : List State} (hl : l.length = 2 ^ k)
    (h : ∀ i < 2 ^ k, l.getD i 0 = if c i then empty else b.getD i 0) :
    store (toEmpty (load k b) m) = l := by
  refine store_eq hl fun i hi => ?_
  have hbyte : ∀ s : State, s ^^^ ((s ^^^ 0x80#8) &&& 1#8 * 0xff#8) = empty ∧
      s ^^^ ((s ^^^ 0x80#8) &&& 0#8 * 0xff#8) = s := by decide
  rw [lane_xor, lane_and, lane_xor, lane_load hk hi, lane_msbs hk hi, lane_mul _ (le_width hk hi),
    lane_ushiftRight_seven hm hi, h i hi]
  · cases c i
    · exact (hbyte _).2
    · exact (hbyte _).1
  · intro j hj
    rw [lane_ushiftRight_seven hm (hj.trans hi)]
    cases c j <;> decide

theorem marks_lruBelow {l : List Lru} (hl : l.length = 2 ^ k) (t : Lru) :
    Marks (maskLruBelow (load k l) t) fun i => decide ((l.getD i 0).toNat < t.toNat) := by
  have hbit : ∀ p, (maskLruBelow (load k l) t).getLsbD p = true ↔
      ∃ i < 2 ^ k, (l.getD i 0).toNat < t.toNat ∧ p = 8 * i + 7 ∧ p < (maskType k).width := by
    intro p
    rw [maskLruBelow, BitVec.getLsbD_shiftLeft, MaskType.getLsbD_orBits _ fun i => i * 8]
    simp only [BitVec.getLsbD_zero, Bool.false_or, Bool.and_eq_true, List.any_eq_true,
      List.mem_range, decide_eq_true_eq, Bool.not_eq_true', decide_eq_false_iff_not,
      stateAt_load hl]
    constructor
    · rintro ⟨⟨hw, h7⟩, i, hi, hlt, hp, -⟩
      exact ⟨i, hi, hlt, by omega, hw⟩
    · rintro ⟨i, hi, hlt, rfl, hw⟩
      exact ⟨⟨hw, by omega⟩, i, hi, hlt, by omega, by omega⟩
  constructor
  · intro p hp
    obtain ⟨i, hi, -, rfl, -⟩ := (hbit p).mp hp
    exact ⟨i, hi, (bit_eq i).symm⟩
  · intro i hi
    have hw := le_width hk hi
    rw [← getLsbD_eq_lane _ _ (by decide), Bool.eq_iff_iff, hbit, decide_eq_true_iff]
    constructor
    · rintro ⟨i', -, hlt, hp, -⟩
      obtain rfl : i = i' := by omega
      exact hlt
    · exact fun hlt => ⟨i, hi, hlt, rfl, by omega⟩

/-- The counters of a bucket, halved byte by byte. -/
theorem lane_halve (x : MaskRepr k) {i : ℕ} (hi : i < 2 ^ k) :
    lane (x >>> 1 &&& ~~~msbs k) i = lane x i >>> 1 := by
  have hbyte : ∀ j < 8, (~~~0x80#8).getLsbD j = decide (1 + j < 8) := by decide
  refine BitVec.eq_of_getLsbD_eq fun j hj => ?_
  rw [lane_and, BitVec.getLsbD_and, lane_not_mask hk _ hi, lane_msbs hk hi, hbyte j hj,
    BitVec.getLsbD_ushiftRight, getLsbD_lane, getLsbD_lane, BitVec.getLsbD_ushiftRight,
    decide_eq_true hj, Bool.true_and, Bool.and_comm]
  congr 2
  omega

theorem lane_one {i j : ℕ} (hj : j < 2 ^ k) :
    lane ((1#(8 * 2 ^ k) <<< (i * 8)).setWidth (maskType k).width) j =
      if j = i then 1#8 else 0#8 := by
  rw [lane_setWidth _ (le_width hk hj), Nat.mul_comm i, lane_shiftLeft _ _ (by omega)]
  split_ifs with h1 h2 h2
  · omega
  · rfl
  · subst h2
    rw [Nat.sub_self]
    refine BitVec.eq_of_getLsbD_eq fun b hb => ?_
    rw [getLsbD_lane, decide_eq_true hb, BitVec.getLsbD_one, BitVec.getLsbD_one,
      decide_eq_true (by omega : 0 < 8 * 2 ^ k)]
    simp
  · refine BitVec.eq_of_getLsbD_eq fun b hb => ?_
    rw [getLsbD_lane, decide_eq_true hb, BitVec.getLsbD_one,
      decide_eq_false (by omega : ¬ 8 * (j - i) + b = 0)]
    simp

theorem updateLru_eq {l : List Lru} {i : ℕ} (hl : l.length = 2 ^ k) (hi : i < 2 ^ k) :
    store (updateLru (load k l) ((maskType k).single i true)) = bumpLru l i := by
  have hnext : (maskType k).next ((maskType k).single i true) = i :=
    (maskType k).next_single (width_le hk) hi
  have hbump : (bumpLru l i).length = 2 ^ k := by simp [bumpLru, hl]
  rw [updateLru, hnext, stateAt_load hl]
  refine store_eq hbump fun j hj => ?_
  have hj' : j < l.length := by rwa [hl]
  have hentry : (bumpLru l i).getD j 0 =
      (if decide (maxLru.toNat ≤ (l.getD i 0).toNat) then l.getD j 0 >>> 1 else l.getD j 0) +
        if j = i then 1#8 else 0#8 := by
    rw [List.getD_eq_getElem _ _ (by omega), List.getD_eq_getElem _ _ hj']
    simp [bumpLru]
  rw [hentry]
  cases hr : decide (maxLru.toNat ≤ (l.getD i 0).toNat) with
  | true =>
      have hhalf : ∀ x : BitVec 8, (x >>> 1).toNat + 1 < 256 := by decide
      simp only [if_true]
      rw [lane_add (le_width hk hj), lane_halve hk _ hj, lane_load hk hj, lane_one hk hj]
      intro j' hlt
      have := hhalf (l.getD j' 0)
      rw [lane_halve hk _ (hlt.trans hj), lane_load hk (hlt.trans hj), lane_one hk (hlt.trans hj)]
      split_ifs
      · exact this
      · exact (by omega : (l.getD j' 0 >>> 1).toNat + 0 < 256)
  | false =>
      have hkeep : ∀ {j' : ℕ}, j' < 2 ^ k →
          lane ((load k l).setWidth (maskType k).width >>> 0 &&& allBits k) j' = l.getD j' 0 := by
        intro j' hj'
        have hbyte : ∀ x : BitVec 8, x &&& 0xff#8 = x := by decide
        rw [BitVec.ushiftRight_zero, lane_and, lane_load hk hj', lane_allBits hk hj', hbyte]
      have hmax : (l.getD i 0).toNat < 255 := by
        rw [decide_eq_false_iff_not] at hr
        exact not_le.mp hr
      simp only [Bool.false_eq_true, if_false]
      rw [lane_add (le_width hk hj), hkeep hj, lane_one hk hj]
      intro j' hlt
      rw [hkeep (hlt.trans hj), lane_one hk (hlt.trans hj)]
      split_ifs with he
      · subst he
        exact (by omega : (l.getD j' 0).toNat + 1 < 256)
      · exact (l.getD j' 0).isLt

/-! ### The kernels are lawful -/

theorem toEmptyIfLruBelow_eq {b : List State} {l : List Lru} (hb : b.length = 2 ^ k)
    (hl : l.length = 2 ^ k) (t : Lru) :
    store (toEmptyIfLruBelow (load k b) (load k l) t) = ideal.toEmptyIfLruBelow b l t := by
  refine toEmpty_eq hk (marks_lruBelow hk hl t) (by simp [ideal, hb, hl]) fun i hi => ?_
  change (List.zipWith (fun s (x : Lru) => if x.toNat < t.toNat then empty else s) b l).getD i 0 = _
  rw [List.getD_eq_getElem _ _ (by simp [hb, hl, hi]), List.getElem_zipWith,
    List.getD_eq_getElem _ _ (by rwa [hl]), List.getD_eq_getElem _ _ (by rwa [hb])]
  simp only [decide_eq_true_eq]

theorem countNotEqual_eq {b b' : List State} (hb : b.length = 2 ^ k) (hb' : b'.length = 2 ^ k) :
    (maskType k).count (maskNotEqual (load k b) (load k b')) = ideal.countNotEqual b b' := by
  rw [maskNotEqual, ((marks_equal hk).xor hk).count hk, ideal_countNotEqual hb hb' 0]
  rfl

theorem hits_spec (fast : Bool) {b : List State} {s : State} (hs : isHash s = true) :
    ∃ c : ℕ → Bool, Marks (mask fast (load k b) s) c ∧ ∀ i < 2 ^ k,
      (b.getD i 0 = s → c i = true) ∧ (c i = true → isHash (b.getD i 0) = true) := by
  cases fast with
  | true => exact marks_fast hk hs
  | false =>
      refine ⟨_, marks_mask hk s, fun i hi => ⟨fun h => beq_iff_eq.mpr h, fun h => ?_⟩⟩
      rw [eq_of_beq h]
      exact hs

theorem lawful (fast : Bool) : (ops k fast).Lawful (2 ^ k) where
  hits b s hb hs := by
    obtain ⟨c, hc, hspec⟩ := hits_spec hk fast (b := b) hs
    refine ⟨c, hc.slots hk, fun i hi => ?_⟩
    rw [getD_default (hb.1 ▸ hi) tombstone 0]
    exact hspec i hi
  hitsAbove b s i hb hs h1 h2 := by
    obtain ⟨c, hc, -⟩ := hits_spec hk fast (b := b) hs
    refine (hc.slots_above hk h1 h2).trans ?_
    rw [← hc.slots hk]
    rfl
  hashes b hb := (marks_hash hk).slots_state hk hb.1
  notHashes b hb := (marks_notHash hk).slots_state hk hb.1 (p := fun s => !isHash s)
  empties b hb := (marks_empty hk hb).slots_state hk hb.1 (p := (· == empty))
  tombstones b hb := (marks_tombstone hk hb).slots_state hk hb.1 (p := (· == tombstone))
  hasEmpty b hb := by
    rw [Bool.eq_iff_iff]
    exact (marks_empty hk hb).hasNext.trans (any_iff_getD hb.1 0 (· == empty)).symm
  hasNotTombstone b hb := by
    rw [Bool.eq_iff_iff]
    exact ((marks_tombstone hk hb).xor hk).hasNext.trans
      (any_iff_getD hb.1 0 (· != tombstone)).symm
  notHashToEmpty b hb := notHashToEmpty_eq hk hb
  countNotEqual b b' hb hb' := countNotEqual_eq hk hb.1 hb'.1
  minLru l hl := minLruLoop_eq hl (stateAt_load hl)
  minLruSlot l hl := by
    change (maskType k).next ((maskType k).single _ true) = _
    rw [(maskType k).next_single (width_le hk) (minLruLoop_lt (Nat.two_pow_pos k) _),
      minLruLoop_eq hl (stateAt_load hl)]
    rfl
  updateLru l i hl hi := updateLru_eq hk hl hi
  toEmptyIfLruBelow b l t hb hl := toEmptyIfLruBelow_eq hk hb.1 hl t

end UintKernel

/-- `uint_kernel<Repr, fast>` of `2 ^ k` bytes. -/
def uintKernel (k : ℕ) (fast : Bool) (hk : k ≤ 4) : Kernel (2 ^ k) :=
  ⟨UintKernel.ops k fast, UintKernel.lawful hk fast⟩

end Nvhm
