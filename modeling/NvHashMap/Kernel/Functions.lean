import NvHashMap.Bucket
import NvHashMap.Lib.SlotSet

/-! # The functions of a kernel

The kernels of `kernel.hpp` have the same functions, on registers and masks of their own.

* `KernelFns` lists the functions, and `Correct` says what they compute: masks denote sets of slots,
  the other functions transform the bytes of a bucket.
* Two kernels agree (`Agrees`) if no program can tell them apart, on buckets of valid states.  Correct
  kernels do (`Correct.agrees`).  `mask_min_lru` may mark more slots than one; its first slot counts. -/

namespace Nvhm

open SlotSet

/-- The functions of a kernel.  `R` is `repr_type`, `L` is `lru_repr_type`, `M` is
`mask_repr_type`, and `maskType` has the functions of `mask_type`. -/
structure KernelFns (R L M : Type) where
  maskType : Ops M
  load : List State → R
  store : R → List State
  mask : R → State → M
  maskNot : R → State → M
  maskHash : R → M
  maskNotHash : R → M
  maskEmpty : R → M
  maskNotEmpty : R → M
  maskTombstone : R → M
  maskNotTombstone : R → M
  maskEqual : R → R → M
  maskNotEqual : R → R → M
  hasHash : R → Bool
  hasNotHash : R → Bool
  hasEmpty : R → Bool
  hasNotEmpty : R → Bool
  hasTombstone : R → Bool
  hasNotTombstone : R → Bool
  countEqual : R → R → ℤ
  countNotEqual : R → R → ℤ
  hashToTombstone : R → R
  notHashToEmpty : R → R
  toEmpty : R → M → R
  stateAt : R → ℕ → State
  loadLru : List Lru → L
  storeLru : L → List Lru
  minLru : L → Lru × ℕ
  maskMinLru : L → M
  maskLruBelow : L → Lru → M
  updateLru : L → M → L
  toEmptyIfLruBelow : R → L → Lru → R
  lruAt : L → ℕ → Lru

/-- The masks that occur, and the sets of slots that they denote. -/
structure MaskSets (M : Type) where
  valid : M → Prop
  toSet : M → Finset ℕ

variable {R L M R' L' M' : Type}

/-- A mask marks the slots that satisfy a condition, and no bit besides. -/
def MaskSets.Denotes (D : MaskSets M) (K : ℕ) (m : M) (p : ℕ → Bool) : Prop :=
  D.valid m ∧ D.toSet m = below K p

/-- Two masks mark the same slots, and no bit besides. -/
def MaskSets.Same (D : MaskSets M) (D' : MaskSets M') (m : M) (m' : M') : Prop :=
  D.valid m ∧ D'.valid m' ∧ D.toSet m = D'.toSet m'

theorem MaskSets.Denotes.same {D : MaskSets M} {D' : MaskSets M'} {K : ℕ} {m : M} {m' : M'}
    {p : ℕ → Bool} (h : D.Denotes K m p) (h' : D'.Denotes K m' p) : D.Same D' m m' :=
  ⟨h.1, h'.1, h.2.trans h'.2.symm⟩

theorem MaskSets.Denotes.congr {D : MaskSets M} {K : ℕ} {m : M} {p q : ℕ → Bool}
    (h : D.Denotes K m p) (heq : ∀ i < K, p i = q i) : D.Denotes K m q := by
  refine ⟨h.1, h.2.trans (Finset.ext fun i => ?_)⟩
  rw [mem_below, mem_below]
  exact and_congr_right fun hi => by rw [heq i hi]

theorem MaskSets.Denotes.hasNext {D : MaskSets M} {K : ℕ} {mt : Ops M} {m : M} {p : ℕ → Bool}
    (h : D.Denotes K m p) (hI : Implements mt K D.valid D.toSet) :
    mt.hasNext m = true ↔ ∃ i < K, p i = true := by
  rw [hI.hasNext m h.1, h.2]
  exact exists_congr fun i => mem_below

theorem MaskSets.Denotes.count {D : MaskSets M} {K : ℕ} {mt : Ops M} {m : M} {p : ℕ → Bool}
    (h : D.Denotes K m p) (hI : Implements mt K D.valid D.toSet) :
    (mt.count m : ℤ) = (below K p).card := by
  rw [hI.count m h.1, h.2]

/-- Some slot satisfies a condition on its state. -/
theorem exists_slot {K : ℕ} {b : List State} (hb : b.length = K) (p : State → Bool) :
    (∃ i < K, p (b.getD i 0) = true) ↔ ∃ s ∈ b, p s = true := by
  rw [← List.any_eq_true]
  exact (Buffer.any_iff_getD hb 0 p).symm

theorem exists_slot_not {K : ℕ} {b : List State} (hb : b.length = K) :
    (∃ i < K, (!isHash (b.getD i 0)) = true) ↔ ∃ s ∈ b, isHash s = false := by
  rw [exists_slot hb fun s => !isHash s]
  simp

theorem exists_slot_eq {K : ℕ} {b : List State} (hb : b.length = K) (x : State) :
    (∃ i < K, (b.getD i 0 == x) = true) ↔ x ∈ b := by
  rw [exists_slot hb (· == x)]
  simp

theorem exists_slot_ne {K : ℕ} {b : List State} (hb : b.length = K) (x : State) :
    (∃ i < K, (b.getD i 0 != x) = true) ↔ ∃ s ∈ b, s ≠ x := by
  rw [exists_slot hb (· != x)]
  simp

/-- The first slot with the least counter. -/
theorem minLru_eq {K : ℕ} {l : List Lru} (hl : l.length = K) {v : Lru} {i : ℕ} (hi : i < K)
    (hv : l.getD i 0 = v) (hle : ∀ j < K, v.toNat ≤ (l.getD j 0).toNat)
    (hfirst : ∀ j < i, l.getD j 0 ≠ v) : (v, i) = ideal.minLru l := by
  subst hl
  refine IsFirstMin.unique ⟨hi, hv.symm, hle, fun j hj => ?_⟩ (isFirstMin_minLru (by omega))
  refine lt_of_le_of_ne (hle j (hj.trans hi)) fun heq => hfirst j hj ?_
  exact (BitVec.eq_of_toNat_eq heq).symm

/-! ### What the functions compute -/

/-- The bucket with the slots of a set emptied. -/
def emptied (b : List State) (s : Finset ℕ) : List State :=
  b.mapIdx fun i x => if i ∈ s then empty else x

section Stored
variable {K : ℕ} {f : ℕ → BitVec 8} {b l : List (BitVec 8)}

/-- The stored bytes are the lanes of a register. -/
theorem stored_eq (hl : l.length = K) (h : ∀ i < K, f i = l.getD i 0) : (List.range K).map f = l :=
  (List.map_congr_left fun i hi => h i (List.mem_range.mp hi)).trans (Buffer.map_range_getD hl 0)

theorem stored_map (hb : b.length = K) {g : State → State} (h : ∀ i < K, f i = g (b.getD i 0)) :
    (List.range K).map f = b.map g :=
  (List.map_congr_left fun i hi => h i (List.mem_range.mp hi)).trans
    (Buffer.map_range_eq_map hb 0 g)

theorem stored_emptied (hb : b.length = K) {s : Finset ℕ}
    (h : ∀ i < K, f i = if i ∈ s then empty else b.getD i 0) :
    (List.range K).map f = emptied b s := by
  refine stored_eq (by simp [emptied, hb]) fun i hi => ?_
  have hi' : i < b.length := hb ▸ hi
  have hlen : i < (emptied b s).length := by simpa [emptied] using hi'
  rw [h i hi, List.getD_eq_getElem _ _ hi', List.getD_eq_getElem _ _ hlen]
  simp only [emptied, List.getElem_mapIdx]

theorem stored_lruBelow (hb : b.length = K) (hl : l.length = K) {t : Lru}
    (h : ∀ i < K, f i = if (l.getD i 0).toNat < t.toNat then empty else b.getD i 0) :
    (List.range K).map f = ideal.toEmptyIfLruBelow b l t :=
  (List.map_congr_left fun i hi => h i (List.mem_range.mp hi)).trans
    (Buffer.map_range_eq_zipWith hb hl 0 0 fun s x => if x.toNat < t.toNat then empty else s)

theorem stored_bumpLru (hl : l.length = K) {i : ℕ} (h : ∀ j < K, f j =
    (if maxLru.toNat ≤ (l.getD i 0).toNat then l.getD j 0 >>> 1 else l.getD j 0) +
      if j = i then (1 : Lru) else 0) :
    (List.range K).map f = bumpLru l i := by
  refine stored_eq (by simp [bumpLru, hl]) fun j hj => ?_
  rw [h j hj, getD_bumpLru l i (hl ▸ hj)]

end Stored

/-- The functions compute what they should, on buckets of `K` valid states. -/
structure KernelFns.Correct (F : KernelFns R L M) (D : MaskSets M) (K : ℕ) : Prop where
  maskType : Implements F.maskType K D.valid D.toSet
  store_load : ∀ b, IsBucket K b → F.store (F.load b) = b
  mask : ∀ b s, IsBucket K b → D.Denotes K (F.mask (F.load b) s) fun i => b.getD i 0 == s
  maskNot : ∀ b s, IsBucket K b → D.Denotes K (F.maskNot (F.load b) s) fun i => b.getD i 0 != s
  maskHash : ∀ b, IsBucket K b → D.Denotes K (F.maskHash (F.load b)) fun i => isHash (b.getD i 0)
  maskNotHash : ∀ b, IsBucket K b →
    D.Denotes K (F.maskNotHash (F.load b)) fun i => !isHash (b.getD i 0)
  maskEmpty : ∀ b, IsBucket K b →
    D.Denotes K (F.maskEmpty (F.load b)) fun i => b.getD i 0 == empty
  maskNotEmpty : ∀ b, IsBucket K b →
    D.Denotes K (F.maskNotEmpty (F.load b)) fun i => b.getD i 0 != empty
  maskTombstone : ∀ b, IsBucket K b →
    D.Denotes K (F.maskTombstone (F.load b)) fun i => b.getD i 0 == tombstone
  maskNotTombstone : ∀ b, IsBucket K b →
    D.Denotes K (F.maskNotTombstone (F.load b)) fun i => b.getD i 0 != tombstone
  maskEqual : ∀ b b', IsBucket K b → IsBucket K b' →
    D.Denotes K (F.maskEqual (F.load b) (F.load b')) fun i => b.getD i 0 == b'.getD i 0
  maskNotEqual : ∀ b b', IsBucket K b → IsBucket K b' →
    D.Denotes K (F.maskNotEqual (F.load b) (F.load b')) fun i => b.getD i 0 != b'.getD i 0
  hasHash : ∀ b, IsBucket K b → (F.hasHash (F.load b) = true ↔ ∃ s ∈ b, isHash s = true)
  hasNotHash : ∀ b, IsBucket K b → (F.hasNotHash (F.load b) = true ↔ ∃ s ∈ b, isHash s = false)
  hasEmpty : ∀ b, IsBucket K b → (F.hasEmpty (F.load b) = true ↔ empty ∈ b)
  hasNotEmpty : ∀ b, IsBucket K b → (F.hasNotEmpty (F.load b) = true ↔ ∃ s ∈ b, s ≠ empty)
  hasTombstone : ∀ b, IsBucket K b → (F.hasTombstone (F.load b) = true ↔ tombstone ∈ b)
  hasNotTombstone : ∀ b, IsBucket K b →
    (F.hasNotTombstone (F.load b) = true ↔ ∃ s ∈ b, s ≠ tombstone)
  countEqual : ∀ b b', IsBucket K b → IsBucket K b' → F.countEqual (F.load b) (F.load b') =
    (below K fun i => b.getD i 0 == b'.getD i 0).card
  countNotEqual : ∀ b b', IsBucket K b → IsBucket K b' → F.countNotEqual (F.load b) (F.load b') =
    (below K fun i => b.getD i 0 != b'.getD i 0).card
  hashToTombstone : ∀ b, IsBucket K b → F.store (F.hashToTombstone (F.load b)) =
    b.map fun s => if isHash s then tombstone else s
  notHashToEmpty : ∀ b, IsBucket K b → F.store (F.notHashToEmpty (F.load b)) =
    b.map fun s => if isHash s then s else empty
  toEmpty : ∀ b m, IsBucket K b → D.valid m →
    F.store (F.toEmpty (F.load b) m) = emptied b (D.toSet m)
  stateAt : ∀ b i, IsBucket K b → i < K → F.stateAt (F.load b) i = b.getD i 0
  storeLru_loadLru : ∀ l, l.length = K → F.storeLru (F.loadLru l) = l
  minLru : ∀ l, l.length = K → F.minLru (F.loadLru l) = ideal.minLru l
  minLruSlot : ∀ l, l.length = K → D.valid (F.maskMinLru (F.loadLru l)) ∧
    F.maskType.next (F.maskMinLru (F.loadLru l)) = ideal.minLruSlot l
  maskLruBelow : ∀ l (t : Lru), l.length = K →
    D.Denotes K (F.maskLruBelow (F.loadLru l) t) fun i => decide ((l.getD i 0).toNat < t.toNat)
  updateLru : ∀ l n, l.length = K → D.valid n → ∀ h : (D.toSet n).Nonempty,
    F.storeLru (F.updateLru (F.loadLru l) n) = bumpLru l ((D.toSet n).min' h)
  toEmptyIfLruBelow : ∀ b l t, IsBucket K b → l.length = K →
    F.store (F.toEmptyIfLruBelow (F.load b) (F.loadLru l) t) = ideal.toEmptyIfLruBelow b l t
  lruAt : ∀ l i, l.length = K → i < K → F.lruAt (F.loadLru l) i = l.getD i 0

/-! ### Agreement -/

/-- Two kernels agree on buckets of `K` valid states and their LRU counters: their masks denote
the same sets of slots, and the states and counters that they store are the same. -/
structure KernelFns.Agrees (F : KernelFns R L M) (D : MaskSets M) (F' : KernelFns R' L' M')
    (D' : MaskSets M') (K : ℕ) : Prop where
  store_load : ∀ b, IsBucket K b → F.store (F.load b) = F'.store (F'.load b)
  mask : ∀ b s, IsBucket K b → D.Same D' (F.mask (F.load b) s) (F'.mask (F'.load b) s)
  maskNot : ∀ b s, IsBucket K b → D.Same D' (F.maskNot (F.load b) s) (F'.maskNot (F'.load b) s)
  maskHash : ∀ b, IsBucket K b → D.Same D' (F.maskHash (F.load b)) (F'.maskHash (F'.load b))
  maskNotHash : ∀ b, IsBucket K b →
    D.Same D' (F.maskNotHash (F.load b)) (F'.maskNotHash (F'.load b))
  maskEmpty : ∀ b, IsBucket K b → D.Same D' (F.maskEmpty (F.load b)) (F'.maskEmpty (F'.load b))
  maskNotEmpty : ∀ b, IsBucket K b →
    D.Same D' (F.maskNotEmpty (F.load b)) (F'.maskNotEmpty (F'.load b))
  maskTombstone : ∀ b, IsBucket K b →
    D.Same D' (F.maskTombstone (F.load b)) (F'.maskTombstone (F'.load b))
  maskNotTombstone : ∀ b, IsBucket K b →
    D.Same D' (F.maskNotTombstone (F.load b)) (F'.maskNotTombstone (F'.load b))
  maskEqual : ∀ b c, IsBucket K b → IsBucket K c →
    D.Same D' (F.maskEqual (F.load b) (F.load c)) (F'.maskEqual (F'.load b) (F'.load c))
  maskNotEqual : ∀ b c, IsBucket K b → IsBucket K c →
    D.Same D' (F.maskNotEqual (F.load b) (F.load c)) (F'.maskNotEqual (F'.load b) (F'.load c))
  hasHash : ∀ b, IsBucket K b → F.hasHash (F.load b) = F'.hasHash (F'.load b)
  hasNotHash : ∀ b, IsBucket K b → F.hasNotHash (F.load b) = F'.hasNotHash (F'.load b)
  hasEmpty : ∀ b, IsBucket K b → F.hasEmpty (F.load b) = F'.hasEmpty (F'.load b)
  hasNotEmpty : ∀ b, IsBucket K b → F.hasNotEmpty (F.load b) = F'.hasNotEmpty (F'.load b)
  hasTombstone : ∀ b, IsBucket K b → F.hasTombstone (F.load b) = F'.hasTombstone (F'.load b)
  hasNotTombstone : ∀ b, IsBucket K b →
    F.hasNotTombstone (F.load b) = F'.hasNotTombstone (F'.load b)
  countEqual : ∀ b c, IsBucket K b → IsBucket K c →
    F.countEqual (F.load b) (F.load c) = F'.countEqual (F'.load b) (F'.load c)
  countNotEqual : ∀ b c, IsBucket K b → IsBucket K c →
    F.countNotEqual (F.load b) (F.load c) = F'.countNotEqual (F'.load b) (F'.load c)
  hashToTombstone : ∀ b, IsBucket K b →
    F.store (F.hashToTombstone (F.load b)) = F'.store (F'.hashToTombstone (F'.load b))
  notHashToEmpty : ∀ b, IsBucket K b →
    F.store (F.notHashToEmpty (F.load b)) = F'.store (F'.notHashToEmpty (F'.load b))
  toEmpty : ∀ b m m', IsBucket K b → D.Same D' m m' →
    F.store (F.toEmpty (F.load b) m) = F'.store (F'.toEmpty (F'.load b) m')
  stateAt : ∀ b i, IsBucket K b → i < K → F.stateAt (F.load b) i = F'.stateAt (F'.load b) i
  storeLru_loadLru : ∀ l, l.length = K → F.storeLru (F.loadLru l) = F'.storeLru (F'.loadLru l)
  minLru : ∀ l, l.length = K → F.minLru (F.loadLru l) = F'.minLru (F'.loadLru l)
  minLruSlot : ∀ l, l.length = K → F.maskType.next (F.maskMinLru (F.loadLru l)) =
    F'.maskType.next (F'.maskMinLru (F'.loadLru l))
  maskLruBelow : ∀ l t, l.length = K →
    D.Same D' (F.maskLruBelow (F.loadLru l) t) (F'.maskLruBelow (F'.loadLru l) t)
  updateLru : ∀ l n n', l.length = K → D.Same D' n n' → (D.toSet n).Nonempty →
    F.storeLru (F.updateLru (F.loadLru l) n) = F'.storeLru (F'.updateLru (F'.loadLru l) n')
  toEmptyIfLruBelow : ∀ b l t, IsBucket K b → l.length = K →
    F.store (F.toEmptyIfLruBelow (F.load b) (F.loadLru l) t) =
      F'.store (F'.toEmptyIfLruBelow (F'.load b) (F'.loadLru l) t)
  lruAt : ∀ l i, l.length = K → i < K → F.lruAt (F.loadLru l) i = F'.lruAt (F'.loadLru l) i

/-- Correct kernels agree. -/
theorem KernelFns.Correct.agrees {F : KernelFns R L M} {D : MaskSets M} {F' : KernelFns R' L' M'}
    {D' : MaskSets M'} {K : ℕ} (h : F.Correct D K) (h' : F'.Correct D' K) :
    F.Agrees D F' D' K where
  store_load b hb := (h.store_load b hb).trans (h'.store_load b hb).symm
  mask b s hb := (h.mask b s hb).same (h'.mask b s hb)
  maskNot b s hb := (h.maskNot b s hb).same (h'.maskNot b s hb)
  maskHash b hb := (h.maskHash b hb).same (h'.maskHash b hb)
  maskNotHash b hb := (h.maskNotHash b hb).same (h'.maskNotHash b hb)
  maskEmpty b hb := (h.maskEmpty b hb).same (h'.maskEmpty b hb)
  maskNotEmpty b hb := (h.maskNotEmpty b hb).same (h'.maskNotEmpty b hb)
  maskTombstone b hb := (h.maskTombstone b hb).same (h'.maskTombstone b hb)
  maskNotTombstone b hb := (h.maskNotTombstone b hb).same (h'.maskNotTombstone b hb)
  maskEqual b c hb hc := (h.maskEqual b c hb hc).same (h'.maskEqual b c hb hc)
  maskNotEqual b c hb hc := (h.maskNotEqual b c hb hc).same (h'.maskNotEqual b c hb hc)
  hasHash b hb := Bool.eq_iff_iff.mpr ((h.hasHash b hb).trans (h'.hasHash b hb).symm)
  hasNotHash b hb := Bool.eq_iff_iff.mpr ((h.hasNotHash b hb).trans (h'.hasNotHash b hb).symm)
  hasEmpty b hb := Bool.eq_iff_iff.mpr ((h.hasEmpty b hb).trans (h'.hasEmpty b hb).symm)
  hasNotEmpty b hb := Bool.eq_iff_iff.mpr ((h.hasNotEmpty b hb).trans (h'.hasNotEmpty b hb).symm)
  hasTombstone b hb := Bool.eq_iff_iff.mpr ((h.hasTombstone b hb).trans (h'.hasTombstone b hb).symm)
  hasNotTombstone b hb :=
    Bool.eq_iff_iff.mpr ((h.hasNotTombstone b hb).trans (h'.hasNotTombstone b hb).symm)
  countEqual b c hb hc := (h.countEqual b c hb hc).trans (h'.countEqual b c hb hc).symm
  countNotEqual b c hb hc := (h.countNotEqual b c hb hc).trans (h'.countNotEqual b c hb hc).symm
  hashToTombstone b hb := (h.hashToTombstone b hb).trans (h'.hashToTombstone b hb).symm
  notHashToEmpty b hb := (h.notHashToEmpty b hb).trans (h'.notHashToEmpty b hb).symm
  toEmpty b m m' hb hm := by
    obtain ⟨hv, hv', heq⟩ := hm
    rw [h.toEmpty b m hb hv, h'.toEmpty b m' hb hv', heq]
  stateAt b i hb hi := (h.stateAt b i hb hi).trans (h'.stateAt b i hb hi).symm
  storeLru_loadLru l hl := (h.storeLru_loadLru l hl).trans (h'.storeLru_loadLru l hl).symm
  minLru l hl := (h.minLru l hl).trans (h'.minLru l hl).symm
  minLruSlot l hl := (h.minLruSlot l hl).2.trans (h'.minLruSlot l hl).2.symm
  maskLruBelow l t hl := (h.maskLruBelow l t hl).same (h'.maskLruBelow l t hl)
  updateLru l n n' hl hn hne := by
    obtain ⟨hv, hv', heq⟩ := hn
    have hne' : (D'.toSet n').Nonempty := heq ▸ hne
    have hmin : (D.toSet n).min' hne = (D'.toSet n').min' hne' := by
      congr 1
    rw [h.updateLru l n hl hv hne, h'.updateLru l n' hl hv' hne', hmin]
  toEmptyIfLruBelow b l t hb hl :=
    (h.toEmptyIfLruBelow b l t hb hl).trans (h'.toEmptyIfLruBelow b l t hb hl).symm
  lruAt l i hl hi := (h.lruAt l i hl hi).trans (h'.lruAt l i hl hi).symm

end Nvhm
