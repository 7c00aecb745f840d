import NvHashMap.Bucket
import NvHashMap.Mask

/-! # The array kernel

`array_kernel` of `kernel.hpp`: every function is a loop over the slots of a bucket.  Its masks have
one bit per slot; an array of up to 128 slots has an integer mask.

The buckets are lists, as the containers hand them over, so `load` and `store` are the identity. -/

namespace Nvhm

open Buffer

/-- The loop of `min_lru`, over the counters of `K` slots. -/
def minLruLoop (K : ℕ) (lruAt : ℕ → Lru) : Lru × ℕ :=
  (List.range' 1 (K - 1)).foldl
    (fun best i => if (lruAt i).toNat < best.1.toNat then (lruAt i, i) else best) (lruAt 0, 0)

theorem minLruAux_eq_foldl (l : List Lru) : ∀ (ls : List Lru) (i : ℕ) (best : Lru × ℕ),
    ls = l.drop i → minLruAux ls i best = (List.range' i ls.length).foldl
      (fun best i => if (l.getD i 0).toNat < best.1.toNat then (l.getD i 0, i) else best) best
  | [], _, _, _ => rfl
  | x :: ls, i, best, h => by
      have hi : i < l.length := by
        by_contra hc
        rw [List.drop_of_length_le (by omega)] at h
        cases h
      rw [List.drop_eq_getElem_cons hi] at h
      obtain ⟨rfl, htail⟩ := List.cons.inj h
      rw [minLruAux, List.length_cons, List.range'_succ, List.foldl_cons,
        minLruAux_eq_foldl l ls (i + 1) _ htail, List.getD_eq_getElem _ _ hi]

theorem minLruLoop_eq {l : List Lru} {K : ℕ} (hl : l.length = K) {lruAt : ℕ → Lru}
    (h : ∀ i, lruAt i = l.getD i 0) :
    minLruLoop K lruAt = minLruAux l.tail 1 (l.getD 0 0, 0) := by
  obtain rfl : lruAt = fun i => l.getD i 0 := funext h
  rw [minLruLoop, minLruAux_eq_foldl l l.tail 1 _ List.drop_one.symm, List.length_tail, hl]

/-- The loop returns a slot. -/
theorem minLruLoop_lt {K : ℕ} (hK : 0 < K) (lruAt : ℕ → Lru) : (minLruLoop K lruAt).2 < K := by
  have hfold : ∀ (l : List ℕ) (best : Lru × ℕ), best.2 < K → (∀ i ∈ l, i < K) →
      (l.foldl (fun best i => if (lruAt i).toNat < best.1.toNat then (lruAt i, i) else best)
        best).2 < K := by
    intro l
    induction l with
    | nil => exact fun best hb _ => hb
    | cons i l ih =>
        intro best hb hl
        rw [List.foldl_cons]
        refine ih _ ?_ fun j hj => hl j (List.mem_cons_of_mem _ hj)
        split_ifs
        · exact hl i List.mem_cons_self
        · exact hb
  refine hfold _ _ hK fun i hi => ?_
  rw [List.mem_range'_1] at hi
  omega

namespace ArrayKernel
variable (K : ℕ)

/-- `mask_type`. -/
def maskType : MaskType where
  width := maskWidth K
  shift := 0
  left := false

/-- `at`. -/
def stateAt (k : List State) (i : ℕ) : State := k.getD i tombstone

def lruAt (l : List Lru) (i : ℕ) : Lru := l.getD i 0

/-- The loop that sets the mask bits of the slots that satisfy a condition. -/
def maskOf (p : ℕ → Bool) : BitVec (maskType K).width :=
  (List.range K).foldl (fun m i => m ||| (BitVec.ofBool (p i)).setWidth _ <<< i) 0#_

def mask (k : List State) (s : State) : BitVec (maskType K).width :=
  maskOf K fun i => stateAt k i == s

def maskHash (k : List State) : BitVec (maskType K).width := maskOf K fun i => isHash (stateAt k i)

def maskNotHash (k : List State) : BitVec (maskType K).width :=
  maskOf K fun i => !isHash (stateAt k i)

/-- The loop of `not_hash_to_empty`, with the states widened to words. -/
def notHashToEmpty (k : List State) : List State :=
  (List.range K).map fun i =>
    let ki := (stateAt k i).signExtend 64
    let e := empty.signExtend 64
    (if e < ki then e else ki).setWidth 8

def countNotEqual (k0 k1 : List State) : ℕ :=
  (List.range K).foldl (fun n i => n + if stateAt k0 i != stateAt k1 i then 1 else 0) 0

def maskMinLru (l : List Lru) : BitVec (maskType K).width :=
  (maskType K).single (minLruLoop K (lruAt l)).2 true

def updateLru (l : List Lru) (n : BitVec (maskType K).width) : List Lru :=
  let i := (maskType K).next n
  let rescaleShift := if maxLru.toNat ≤ (lruAt l i).toNat then 1 else 0
  (List.range K).map fun j =>
    BitVec.ofNat 8 (((lruAt l j).toNat >>> rescaleShift) + if j = i then 1 else 0)

def toEmptyIfLruBelow (k : List State) (l : List Lru) (t : Lru) : List State :=
  (List.range K).map fun i => if (lruAt l i).toNat < t.toNat then empty else stateAt k i

/-- What the containers use of the kernel. -/
def ops : BucketOps where
  hits k s := (maskType K).slots (mask K k s)
  hitsAbove k s i := (maskType K).slots ((maskType K).above (mask K k s) i)
  hashes k := (maskType K).slots (maskHash K k)
  notHashes k := (maskType K).slots (maskNotHash K k)
  empties k := (maskType K).slots (mask K k empty)
  tombstones k := (maskType K).slots (mask K k tombstone)
  hasEmpty k := k.any (· == empty)
  hasNotTombstone k := k.any (· != tombstone)
  notHashToEmpty k := notHashToEmpty K k
  countNotEqual k0 k1 := countNotEqual K k0 k1
  minLru l := minLruLoop K (lruAt l)
  minLruSlot l := (maskType K).next (maskMinLru K l)
  updateLru l i := updateLru K l ((maskType K).single i true)
  toEmptyIfLruBelow k l t := toEmptyIfLruBelow K k l t

/-! ### The functions mean what they should -/

variable {K} (hK : K ≤ 128)

theorem bit_eq (i : ℕ) : (maskType K).bit i = i := by
  simp [MaskType.bit, maskType, MaskType.bitsPerSlot]

include hK

omit hK in
theorem getLsbD_maskOf (p : ℕ → Bool) (j : ℕ) : (maskOf K p).getLsbD j =
    (decide (j < K) && p j && decide (j < (maskType K).width)) := by
  rw [maskOf, MaskType.getLsbD_orBits p (fun i => i), Bool.eq_iff_iff]
  simp only [BitVec.getLsbD_zero, Bool.false_or, List.any_eq_true, List.mem_range, Bool.and_eq_true,
    decide_eq_true_eq]
  constructor
  · rintro ⟨i, hi, hp, rfl, hw⟩
    exact ⟨⟨hi, hp⟩, hw⟩
  · rintro ⟨⟨hi, hp⟩, hw⟩
    exact ⟨j, hi, hp, rfl, hw⟩

theorem width_le : K * (maskType K).bitsPerSlot ≤ (maskType K).width := by
  simp only [MaskType.bitsPerSlot, maskType, pow_zero, Nat.mul_one, maskWidth]
  split_ifs <;> omega

omit hK in
theorem isMask_maskOf (p : ℕ → Bool) : (maskType K).IsMask K (maskOf K p) := by
  intro j hj
  rw [getLsbD_maskOf, Bool.and_eq_true, Bool.and_eq_true, decide_eq_true_iff] at hj
  exact ⟨j, hj.1.1, (bit_eq j).symm⟩

theorem getLsbD_maskOf_bit (p : ℕ → Bool) {i : ℕ} (hi : i < K) :
    (maskOf K p).getLsbD ((maskType K).bit i) = p i := by
  have hlt := (maskType K).bit_lt_width (width_le hK) hi
  rw [getLsbD_maskOf, decide_eq_true hlt, bit_eq, decide_eq_true hi, Bool.true_and, Bool.and_true]

/-- A loop over a mask visits the slots that satisfy its condition. -/
theorem slots_maskOf (p : ℕ → Bool) : (maskType K).slots (maskOf K p) = (List.range K).filter p := by
  rw [(maskType K).slots_eq (width_le hK) (isMask_maskOf p)]
  exact List.filter_congr fun i hi => getLsbD_maskOf_bit hK p (List.mem_range.mp hi)

theorem slots_above (p : ℕ → Bool) {a : ℤ} (h1 : -1 ≤ a) (h2 : a < K) :
    (maskType K).slots ((maskType K).above (maskOf K p) a) =
      ((List.range K).filter p).filter fun i : ℕ => decide (a < (i : ℤ)) := by
  rw [(maskType K).slots_eq (width_le hK) (MaskType.IsMask.above _ (isMask_maskOf p) a),
    List.filter_filter]
  refine List.filter_congr fun i hi => ?_
  rw [(maskType K).getLsbD_above (width_le hK) h1 h2 (List.mem_range.mp hi),
    getLsbD_maskOf_bit hK p (List.mem_range.mp hi), Bool.and_comm]

theorem slots_maskOf_state {k : List State} (hk : k.length = K) (p : State → Bool) :
    (maskType K).slots (maskOf K fun i => p (stateAt k i)) = slots p k := by
  rw [slots_maskOf hK, slots_eq_filter hk tombstone]
  rfl

omit hK in
theorem notHashToEmpty_eq {k : List State} (hk : IsBucket K k) :
    notHashToEmpty K k = ideal.notHashToEmpty k := by
  have hbyte : ∀ s : State, validState s = true →
      (if empty.signExtend 64 < s.signExtend 64 then empty.signExtend 64
        else s.signExtend 64).setWidth 8 = if isHash s then s else empty := by
    decide +kernel
  have hmap := map_range_eq_map hk.1 tombstone fun s =>
    (if empty.signExtend 64 < s.signExtend 64 then empty.signExtend 64
      else s.signExtend 64).setWidth 8
  exact hmap.trans (List.map_congr_left fun s hs => hbyte s (hk.2 s hs))

omit hK in
/-- The loop that counts the slots that satisfy a condition. -/
theorem countLoop_eq (p : ℕ → Bool) : ∀ (l : List ℕ) (n : ℕ),
    l.foldl (fun n i => n + if p i then 1 else 0) n = n + (l.filter p).length
  | [], _ => rfl
  | i :: l, n => by
      rw [List.foldl_cons, countLoop_eq p l, List.filter_cons]
      split_ifs
      · rw [List.length_cons]
        omega
      · rfl

omit hK in
theorem countNotEqual_eq {k0 k1 : List State} (h0 : k0.length = K) (h1 : k1.length = K) :
    countNotEqual K k0 k1 = ideal.countNotEqual k0 k1 := by
  rw [countNotEqual, countLoop_eq, Nat.zero_add, ideal_countNotEqual h0 h1 tombstone]
  rfl

omit hK in
/-- The loop of `update_lru`, for the slot `i`. -/
theorem updateLru_loop {l : List Lru} (hl : l.length = K) (i : ℕ) :
    ((List.range K).map fun j => BitVec.ofNat 8 (((lruAt l j).toNat >>>
      if maxLru.toNat ≤ (lruAt l i).toNat then 1 else 0) + if j = i then 1 else 0)) =
      bumpLru l i := by
  rw [bumpLru]
  refine ext_getD 0 (by simp [hl]) fun j hj => ?_
  rw [List.length_map, List.length_range] at hj
  have hj' : j < l.length := by omega
  simp only [List.getD_eq_getElem?_getD, List.getElem?_map, List.getElem?_mapIdx,
    List.getElem?_range hj, List.getElem?_eq_getElem hj', Option.map_some, Option.getD_some, lruAt,
    decide_eq_true_eq]
  have hlt : (l[j] : Lru).toNat >>> 1 < 256 := by
    have := l[j].isLt
    rw [Nat.shiftRight_eq_div_pow]
    omega
  apply BitVec.eq_of_toNat_eq
  split_ifs <;> simp [hlt]

theorem updateLru_eq {l : List Lru} {i : ℕ} (hl : l.length = K) (hi : i < K) :
    updateLru K l ((maskType K).single i true) = bumpLru l i := by
  rw [updateLru, (maskType K).next_single (width_le hK) hi]
  exact updateLru_loop hl i

omit hK in
theorem toEmptyIfLruBelow_eq {k : List State} {l : List Lru} (hk : k.length = K)
    (hl : l.length = K) (t : Lru) :
    toEmptyIfLruBelow K k l t = ideal.toEmptyIfLruBelow k l t :=
  map_range_eq_zipWith hk hl tombstone 0 fun s x => if x.toNat < t.toNat then empty else s

theorem lawful (hpos : 0 < K) : (ops K).Lawful K where
  hits b s hb hs := by
    refine ⟨fun i => stateAt b i == s, slots_maskOf hK _, fun i hi => ⟨fun h => ?_, fun h => ?_⟩⟩
    · exact beq_iff_eq.mpr h
    · rw [show b.getD i tombstone = s from eq_of_beq h]
      exact hs
  hitsAbove b s i hb hs h1 h2 := by
    change (maskType K).slots ((maskType K).above (mask K b s) i) =
      ((maskType K).slots (mask K b s)).filter _
    rw [mask, slots_above hK _ h1 h2, slots_maskOf hK]
  hashes b hb := slots_maskOf_state hK hb.1 isHash
  notHashes b hb := slots_maskOf_state hK hb.1 fun s => !isHash s
  empties b hb := slots_maskOf_state hK hb.1 (· == empty)
  tombstones b hb := slots_maskOf_state hK hb.1 (· == tombstone)
  hasEmpty b hb := rfl
  hasNotTombstone b hb := rfl
  notHashToEmpty b hb := notHashToEmpty_eq hb
  countNotEqual b b' hb hb' := countNotEqual_eq hb.1 hb'.1
  minLru l hl := minLruLoop_eq hl fun _ => rfl
  minLruSlot l hl := by
    change (maskType K).next ((maskType K).single _ true) = _
    rw [(maskType K).next_single (width_le hK) (minLruLoop_lt hpos _),
      show minLruLoop K (lruAt l) = _ from minLruLoop_eq hl fun _ => rfl]
    rfl
  updateLru l i hl hi := updateLru_eq hK hl hi
  toEmptyIfLruBelow b l t hb hl := toEmptyIfLruBelow_eq hb.1 hl t

end ArrayKernel

/-- `array_kernel<K>`. -/
def arrayKernel (K : ℕ) (hpos : 0 < K) (hK : K ≤ 128) : Kernel K :=
  ⟨ArrayKernel.ops K, ArrayKernel.lawful hK hpos⟩

end Nvhm
