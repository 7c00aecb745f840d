import NvHashMap.Kernel.ArrayKernel
import NvHashMap.Kernel.Functions
import NvHashMap.Mask.Sets

/-! # All functions of the array kernel

The masks of `array_kernel<K>` have a bit per slot: a word up to 128 slots, else a `std::bitset`.
The functions are the same loops for both, so they have the mask type as a parameter; the loops of
`ArrayKernel` are those with a word. -/

namespace Nvhm

open Buffer SlotSet

namespace ArrayKernel

/-! ### Definitions -/

section Definitions
variable (K : ℕ) {w : ℕ}

/-- The loop that sets the bits of the slots that satisfy a condition. -/
def orBits (w : ℕ) (p : ℕ → Bool) : BitVec w :=
  (List.range K).foldl (fun m i => m ||| (BitVec.ofBool (p i)).setWidth _ <<< i) 0#_

/-- The loop of `count_equal` and `count_not_equal`. -/
def countLoop (p : ℕ → Bool) : ℕ := (List.range K).foldl (fun n i => n + if p i then 1 else 0) 0

/-- The loop of `hash_to_tombstone`. -/
def hashToTombstone (k : List State) : List State :=
  (List.range K).map fun i =>
    if tombstone.toInt < (stateAt k i).toInt then tombstone else stateAt k i

def toEmpty (mt : Ops (BitVec w)) (k : List State) (m : BitVec w) : List State :=
  (List.range K).map fun i => if mt.at_ m i then empty else stateAt k i

def maskLruBelow (mt : Ops (BitVec w)) (l : List Lru) (t : Lru) : BitVec w :=
  (List.range K).foldl
    (fun m i => if (lruAt l i).toNat < t.toNat then m ||| mt.single i else m) 0#w

def has (k : List State) (s : State) : Bool := k.any (· == s)

def hasNot (k : List State) (s : State) : Bool := k.any (· != s)

/-- The functions of `array_kernel`, with the given `mask_type`. -/
def fns (mt : Ops (BitVec w)) : KernelFns (List State) (List Lru) (BitVec w) where
  maskType := mt
  load k := k
  store k := k
  mask k s := orBits K w fun i => stateAt k i == s
  maskNot k s := orBits K w fun i => stateAt k i != s
  maskHash k := orBits K w fun i => isHash (stateAt k i)
  maskNotHash k := orBits K w fun i => !isHash (stateAt k i)
  maskEmpty k := orBits K w fun i => stateAt k i == empty
  maskNotEmpty k := orBits K w fun i => stateAt k i != empty
  maskTombstone k := orBits K w fun i => stateAt k i == tombstone
  maskNotTombstone k := orBits K w fun i => stateAt k i != tombstone
  maskEqual k0 k1 := orBits K w fun i => stateAt k0 i == stateAt k1 i
  maskNotEqual k0 k1 := orBits K w fun i => stateAt k0 i != stateAt k1 i
  hasHash k := k.any isHash
  hasNotHash k := k.any fun s => !isHash s
  hasEmpty k := k.any (· == empty)
  hasNotEmpty k := k.any (· != empty)
  hasTombstone k := k.any (· == tombstone)
  hasNotTombstone k := k.any (· != tombstone)
  countEqual k0 k1 := countLoop K fun i => stateAt k0 i == stateAt k1 i
  countNotEqual k0 k1 := countLoop K fun i => stateAt k0 i != stateAt k1 i
  hashToTombstone := hashToTombstone K
  notHashToEmpty := notHashToEmpty K
  toEmpty := toEmpty K mt
  stateAt := stateAt
  loadLru l := l
  storeLru l := l
  minLru l := minLruLoop K (lruAt l)
  maskMinLru l := mt.single (minLruLoop K (lruAt l)).2
  maskLruBelow := maskLruBelow K mt
  updateLru l n :=
    let i := mt.next n
    let rescaleShift := if maxLru.toNat ≤ (lruAt l i).toNat then 1 else 0
    (List.range K).map fun j =>
      BitVec.ofNat 8 (((lruAt l j).toNat >>> rescaleShift) + if j = i then 1 else 0)
  toEmptyIfLruBelow := toEmptyIfLruBelow K
  lruAt := lruAt

/-- `array_kernel<K>` up to 128 slots. -/
def wordFns : KernelFns (List State) (List Lru) (BitVec (maskType K).width) :=
  fns K ((maskType K).ops K)

/-- `array_kernel<K>` from 129 slots on. -/
def bitsetFns : KernelFns (List State) (List Lru) (BitVec K) := fns K (BitsetMask.ops K)

end Definitions

/-- The sets that masks denote. -/
def wordSets (K : ℕ) : MaskSets (BitVec (maskType K).width) :=
  ⟨(maskType K).IsMask K, (maskType K).toSet K⟩

def bitsetSets (K : ℕ) : MaskSets (BitVec K) := ⟨fun _ => True, BitsetMask.toSet⟩

/-! ### Masks with a bit per slot -/

/-- A mask type with a bit per slot, of words of `w` bits. -/
structure BitPerSlot {w : ℕ} (mt : Ops (BitVec w)) (D : MaskSets (BitVec w)) (K : ℕ) : Prop where
  implements : Implements mt K D.valid D.toSet
  le : K ≤ w
  valid : ∀ m, D.valid m ↔ ∀ p, m.getLsbD p = true → p < K
  mem : ∀ m i, i ∈ D.toSet m ↔ i < K ∧ m.getLsbD i = true

/-- The masks of one bit per slot that fit in a word of `w` bits. -/
theorem bitPerSlot_of_le {K w : ℕ} (hw : w = 32 ∨ w = 64 ∨ w = 128) (hK : K ≤ w) :
    BitPerSlot ((⟨w, 0, false⟩ : MaskType).ops K)
      ⟨(⟨w, 0, false⟩ : MaskType).IsMask K, (⟨w, 0, false⟩ : MaskType).toSet K⟩ K := by
  have hbit : ∀ p, (⟨w, 0, false⟩ : MaskType).bit p = p := by
    intro p
    simp [MaskType.bit, MaskType.bitsPerSlot]
  refine ⟨MaskType.implements ⟨hw, Nat.zero_le 3, (Nat.mul_one K).trans_le hK⟩, hK, fun m => ?_,
    fun m i => ?_⟩
  · refine forall₂_congr fun p _ => ⟨?_, fun hp => ⟨p, hp, (hbit p).symm⟩⟩
    rintro ⟨i, hi, rfl⟩
    rwa [hbit]
  · refine mem_below.trans ?_
    rw [hbit]

theorem bitPerSlot_word {K : ℕ} (hK : K ≤ 128) :
    BitPerSlot ((maskType K).ops K) (wordSets K) K := by
  have hle := width_le hK
  rw [show (maskType K).bitsPerSlot = 1 from rfl, Nat.mul_one] at hle
  refine bitPerSlot_of_le ?_ hle
  unfold maskWidth
  split_ifs
  · exact Or.inl rfl
  · exact Or.inr (Or.inl rfl)
  · exact Or.inr (Or.inr rfl)

theorem bitPerSlot_bitset (K : ℕ) : BitPerSlot (BitsetMask.ops K) (bitsetSets K) K where
  implements := BitsetMask.implements
  le := le_rfl
  valid _ := iff_of_true trivial fun _ => BitVec.lt_of_getLsbD
  mem _ _ := mem_below

/-! ### The functions are correct -/

section Correct
variable {K w : ℕ} {mt : Ops (BitVec w)} {D : MaskSets (BitVec w)}

theorem getLsbD_orBits (hw : K ≤ w) (p : ℕ → Bool) (j : ℕ) :
    (orBits K w p).getLsbD j = true ↔ j < K ∧ p j = true := by
  rw [orBits, MaskType.getLsbD_orBits p (fun i => i)]
  simp only [BitVec.getLsbD_zero, Bool.false_or, List.any_eq_true, List.mem_range, Bool.and_eq_true,
    decide_eq_true_eq]
  constructor
  · rintro ⟨i, hi, hp, rfl, -⟩
    exact ⟨hi, hp⟩
  · rintro ⟨hj, hp⟩
    exact ⟨j, hj, hp, rfl, by omega⟩

/-- A mask, from its bits. -/
theorem BitPerSlot.denotes (h : BitPerSlot mt D K) {m : BitVec w} {p : ℕ → Bool}
    (hbit : ∀ j, m.getLsbD j = true ↔ j < K ∧ p j = true) : D.Denotes K m p := by
  refine ⟨(h.valid _).mpr fun j hj => ((hbit j).mp hj).1, Finset.ext fun i => ?_⟩
  rw [h.mem, hbit, mem_below]
  exact ⟨fun hi => hi.2, fun hi => ⟨hi.1, hi⟩⟩

theorem denotes_orBits (h : BitPerSlot mt D K) (p : ℕ → Bool) : D.Denotes K (orBits K w p) p :=
  h.denotes (getLsbD_orBits h.le p)

/-- The marks of the slots whose states satisfy a condition. -/
theorem denotes_states (h : BitPerSlot mt D K) {b : List State} (hb : b.length = K)
    (p : State → Bool) : D.Denotes K (orBits K w fun i => p (stateAt b i)) fun i => p (b.getD i 0) := by
  refine (denotes_orBits h _).congr fun i hi => ?_
  rw [stateAt, getD_default (hb ▸ hi) tombstone 0]

theorem denotes_states₂ (h : BitPerSlot mt D K) {b b' : List State} (hb : b.length = K)
    (hb' : b'.length = K) (p : State → State → Bool) :
    D.Denotes K (orBits K w fun i => p (stateAt b i) (stateAt b' i))
      fun i => p (b.getD i 0) (b'.getD i 0) := by
  refine (denotes_orBits h _).congr fun i hi => ?_
  rw [stateAt, stateAt, getD_default (hb ▸ hi) tombstone 0, getD_default (hb' ▸ hi) tombstone 0]

theorem countLoop_states {b b' : List State} (hb : b.length = K) (hb' : b'.length = K)
    (p : State → State → Bool) : (countLoop K fun i => p (stateAt b i) (stateAt b' i)) =
      (below K fun i => p (b.getD i 0) (b'.getD i 0)).card := by
  rw [countLoop, countLoop_eq, Nat.zero_add, card_below]
  refine congrArg List.length (List.filter_congr fun i hi => ?_)
  rw [List.mem_range] at hi
  rw [stateAt, stateAt, getD_default (hb ▸ hi) tombstone 0, getD_default (hb' ▸ hi) tombstone 0]

theorem hashToTombstone_eq {b : List State} (hb : IsBucket K b) :
    hashToTombstone K b = b.map fun s => if isHash s then tombstone else s := by
  have hbyte : ∀ s : State, validState s = true →
      (if tombstone.toInt < s.toInt then tombstone else s) = if isHash s then tombstone else s := by
    decide +kernel
  refine (map_range_eq_map hb.1 tombstone fun s =>
    if tombstone.toInt < s.toInt then tombstone else s).trans ?_
  exact List.map_congr_left fun s hs => hbyte s (hb.2 s hs)

theorem toEmpty_eq (h : BitPerSlot mt D K) {b : List State} (hb : b.length = K) {m : BitVec w}
    (hm : D.valid m) : toEmpty K mt b m = emptied b (D.toSet m) := by
  refine ext_getD 0 (by simp [toEmpty, emptied, hb]) fun i hi => ?_
  rw [toEmpty, List.length_map, List.length_range] at hi
  have hi' : i < b.length := by omega
  simp only [toEmpty, emptied, List.getD_eq_getElem?_getD, List.getElem?_map, List.getElem?_mapIdx,
    List.getElem?_range hi, List.getElem?_eq_getElem hi', Option.map_some, Option.getD_some, stateAt]
  exact ite_congr (propext (h.implements.at_ m i hm hi)) (fun _ => rfl) fun _ => rfl

theorem getLsbD_single (h : BitPerSlot mt D K) {n : ℕ} (hn : n < K) (j : ℕ) :
    (mt.single n).getLsbD j = true ↔ j = n := by
  obtain ⟨hv, hset⟩ := h.implements.single n hn
  have hmem := h.mem (mt.single n) j
  rw [hset, Finset.mem_singleton] at hmem
  rw [hmem]
  exact ⟨fun hb => ⟨(h.valid _).mp hv j hb, hb⟩, fun hb => hb.2⟩

theorem denotes_lruBelow (h : BitPerSlot mt D K) (l : List Lru) (t : Lru) :
    D.Denotes K (maskLruBelow K mt l t) fun i => decide ((l.getD i 0).toNat < t.toNat) := by
  -- the bits that the loop has set after `n` rounds
  have hbit : ∀ n, n ≤ K → ∀ j, ((List.range n).foldl (fun m i =>
      if (lruAt l i).toNat < t.toNat then m ||| mt.single i else m) 0#w).getLsbD j = true ↔
        j < n ∧ (lruAt l j).toNat < t.toNat := by
    intro n
    induction n with
    | zero => simp
    | succ n ih =>
        intro hn j
        rw [List.range_succ, List.foldl_append, List.foldl_cons, List.foldl_nil]
        split_ifs with hlt
        · rw [BitVec.getLsbD_or, Bool.or_eq_true, ih (by omega), getLsbD_single h hn,
            Nat.lt_succ_iff_lt_or_eq]
          constructor
          · rintro (⟨hj, hl⟩ | rfl)
            · exact ⟨Or.inl hj, hl⟩
            · exact ⟨Or.inr rfl, hlt⟩
          · rintro ⟨hj | rfl, hl⟩
            · exact Or.inl ⟨hj, hl⟩
            · exact Or.inr rfl
        · rw [ih (by omega), Nat.lt_succ_iff_lt_or_eq]
          constructor
          · exact fun hj => ⟨Or.inl hj.1, hj.2⟩
          · rintro ⟨hj | rfl, hl⟩
            · exact ⟨hj, hl⟩
            · exact absurd hl hlt
  refine h.denotes fun j => ?_
  rw [maskLruBelow, hbit K le_rfl, decide_eq_true_iff]
  rfl

/-- The least element of a set with one element. -/
theorem next_single (h : BitPerSlot mt D K) {n : ℕ} (hn : n < K) : mt.next (mt.single n) = n := by
  obtain ⟨hv, hset⟩ := h.implements.single n hn
  have hne : (D.toSet (mt.single n)).Nonempty := ⟨n, hset ▸ Finset.mem_singleton_self n⟩
  have hmem := (D.toSet (mt.single n)).min'_mem hne
  rw [h.implements.next _ hv hne]
  exact Finset.mem_singleton.mp (hset ▸ hmem)

/-- Every function of `array_kernel` is correct, for any number of slots. -/
theorem correct (h : BitPerSlot mt D K) (hpos : 0 < K) : (fns K mt).Correct D K where
  maskType := h.implements
  store_load _ _ := rfl
  mask b s hb := denotes_states h hb.1 (· == s)
  maskNot b s hb := denotes_states h hb.1 (· != s)
  maskHash b hb := denotes_states h hb.1 isHash
  maskNotHash b hb := denotes_states h hb.1 fun s => !isHash s
  maskEmpty b hb := denotes_states h hb.1 (· == empty)
  maskNotEmpty b hb := denotes_states h hb.1 (· != empty)
  maskTombstone b hb := denotes_states h hb.1 (· == tombstone)
  maskNotTombstone b hb := denotes_states h hb.1 (· != tombstone)
  maskEqual b b' hb hb' := denotes_states₂ h hb.1 hb'.1 fun s s' => s == s'
  maskNotEqual b b' hb hb' := denotes_states₂ h hb.1 hb'.1 fun s s' => s != s'
  hasHash b _ := List.any_eq_true
  hasNotHash b hb := (any_iff_getD hb.1 0 _).trans (exists_slot_not hb.1)
  hasEmpty b hb := (any_iff_getD hb.1 0 _).trans (exists_slot_eq hb.1 empty)
  hasNotEmpty b hb := (any_iff_getD hb.1 0 _).trans (exists_slot_ne hb.1 empty)
  hasTombstone b hb := (any_iff_getD hb.1 0 _).trans (exists_slot_eq hb.1 tombstone)
  hasNotTombstone b hb := (any_iff_getD hb.1 0 _).trans (exists_slot_ne hb.1 tombstone)
  countEqual b b' hb hb' :=
    congrArg Nat.cast (countLoop_states hb.1 hb'.1 fun s s' => s == s')
  countNotEqual b b' hb hb' :=
    congrArg Nat.cast (countLoop_states hb.1 hb'.1 fun s s' => s != s')
  hashToTombstone b hb := hashToTombstone_eq hb
  notHashToEmpty b hb := notHashToEmpty_eq hb
  toEmpty b m hb hm := toEmpty_eq h hb.1 hm
  stateAt b i hb hi := getD_default (hb.1 ▸ hi) tombstone 0
  storeLru_loadLru _ _ := rfl
  minLru l hl := minLruLoop_eq hl fun _ => rfl
  minLruSlot l hl := by
    have hlt := minLruLoop_lt hpos (lruAt l)
    refine ⟨(h.implements.single _ hlt).1, (next_single h hlt).trans ?_⟩
    exact congrArg Prod.snd (minLruLoop_eq hl fun _ => rfl)
  maskLruBelow l t _ := denotes_lruBelow h l t
  updateLru l n hl hn hne := by
    refine (updateLru_loop hl (mt.next n)).trans ?_
    rw [h.implements.next n hn hne]
  toEmptyIfLruBelow b l t hb hl := toEmptyIfLruBelow_eq hb.1 hl t
  lruAt _ _ _ _ := rfl

end Correct

end ArrayKernel

end Nvhm
