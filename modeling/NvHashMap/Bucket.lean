import NvHashMap.Common
import NvHashMap.Lib.Buffer

/-! # What the containers ask of a kernel

The containers never look at a kernel's registers: they load a bucket, build a mask, and walk
through its slots.  `BucketOps` lists these uses, on the bytes of a bucket.  Each field is one
kernel function followed by the mask functions that the containers apply to its result; `hits` for
example is the list of slots that `for (m = mask(k, s); has_next(m); m = step(m))` visits.

`ideal` is the meaning of each field, written without masks.  The kernels of the library are shown
to agree with it in the module on kernels; only `hits` may list slots that do not match. -/

namespace Nvhm

structure BucketOps where
  /-- `mask`. -/
  hits : List State → State → List ℕ
  /-- `above(mask(k, s), idx)`. -/
  hitsAbove : List State → State → ℤ → List ℕ
  /-- `mask_hash`. -/
  hashes : List State → List ℕ
  /-- `mask_not_hash`. -/
  notHashes : List State → List ℕ
  /-- `mask_empty`. -/
  empties : List State → List ℕ
  /-- `mask_tombstone`. -/
  tombstones : List State → List ℕ
  /-- `has_empty`. -/
  hasEmpty : List State → Bool
  /-- `has_not_tombstone`. -/
  hasNotTombstone : List State → Bool
  /-- `not_hash_to_empty`. -/
  notHashToEmpty : List State → List State
  /-- `count_not_equal`. -/
  countNotEqual : List State → List State → ℕ
  /-- `min_lru`. -/
  minLru : List Lru → Lru × ℕ
  /-- `next(mask_min_lru(l))`. -/
  minLruSlot : List Lru → ℕ
  /-- `update_lru`, at the next slot of its mask.  The containers pass the mask that is left of a
  search; of it the function reads `next` only (`KernelFns.Correct.updateLru`), so a slot stands for
  it here. -/
  updateLru : List Lru → ℕ → List Lru
  /-- `to_empty_if_lru_below`. -/
  toEmptyIfLruBelow : List State → List Lru → Lru → List State

open Buffer (slots)

/-- The first slot with the least counter. -/
def minLruAux : List Lru → ℕ → Lru × ℕ → Lru × ℕ
  | [], _, best => best
  | l :: ls, i, best => minLruAux ls (i + 1) (if l.toNat < best.1.toNat then (l, i) else best)

/-- Halve all counters of the bucket if the one at `i` is saturated, then increment that one. -/
def bumpLru (l : List Lru) (i : ℕ) : List Lru :=
  let rescale := decide (maxLru.toNat ≤ (l.getD i 0).toNat)
  l.mapIdx fun j (x : Lru) => (if rescale then x >>> 1 else x) + if j = i then (1 : Lru) else 0

/-- The meaning of the kernel functions. -/
def ideal : BucketOps where
  hits b s := slots (· == s) b
  hitsAbove b s i := (slots (· == s) b).filter fun j => decide (i < j)
  hashes b := slots isHash b
  notHashes b := slots (!isHash ·) b
  empties b := slots (· == empty) b
  tombstones b := slots (· == tombstone) b
  hasEmpty b := b.any (· == empty)
  hasNotTombstone b := b.any (· != tombstone)
  notHashToEmpty b := b.map fun s => if isHash s then s else empty
  countNotEqual b b' := ((b.zip b').filter fun p => p.1 != p.2).length
  minLru l := minLruAux l.tail 1 (l.getD 0 0, 0)
  minLruSlot l := (minLruAux l.tail 1 (l.getD 0 0, 0)).2
  updateLru l i := bumpLru l i
  toEmptyIfLruBelow b l t := List.zipWith (fun s x => if x.toNat < t.toNat then empty else s) b l

/-- The slots at which two buckets differ. -/
theorem ideal_countNotEqual {K : ℕ} {b b' : List State} (hb : b.length = K) (hb' : b'.length = K)
    (d : State) : ideal.countNotEqual b b' =
      ((List.range K).filter fun i => b.getD i d != b'.getD i d).length := by
  have hzip : b.zip b' = (List.range K).map fun i => (b.getD i d, b'.getD i d) :=
    (Buffer.map_range_eq_zipWith hb hb' d d Prod.mk).symm
  change ((b.zip b').filter fun p => p.1 != p.2).length = _
  rw [hzip, List.filter_map, List.length_map]
  rfl

/-! ### Buckets of counters -/

/-- The first least counter among the first `n`. -/
structure IsFirstMin (l : List Lru) (n : ℕ) (r : Lru × ℕ) : Prop where
  lt : r.2 < n
  eq : r.1 = l.getD r.2 0
  le : ∀ j < n, r.1.toNat ≤ (l.getD j 0).toNat
  first : ∀ j < r.2, r.1.toNat < (l.getD j 0).toNat

theorem IsFirstMin.succ {l : List Lru} {n : ℕ} {r : Lru × ℕ} (h : IsFirstMin l n r) :
    IsFirstMin l (n + 1) (if (l.getD n 0).toNat < r.1.toNat then (l.getD n 0, n) else r) := by
  split_ifs with hlt
  · refine ⟨n.lt_succ_self, rfl, fun j hj => ?_, fun j hj => ?_⟩
    · rcases Nat.lt_succ_iff_lt_or_eq.mp hj with hj | rfl
      · exact hlt.le.trans (h.le j hj)
      · exact le_rfl
    · exact lt_of_lt_of_le hlt (h.le j hj)
  · refine ⟨h.lt.trans n.lt_succ_self, h.eq, fun j hj => ?_, h.first⟩
    rcases Nat.lt_succ_iff_lt_or_eq.mp hj with hj | rfl
    · exact h.le j hj
    · exact Nat.le_of_not_lt hlt

theorem IsFirstMin.loop {l : List Lru} : ∀ (ls : List Lru) {n : ℕ} {r : Lru × ℕ},
    ls = l.drop n → n ≤ l.length → IsFirstMin l n r →
    IsFirstMin l l.length (minLruAux ls n r)
  | [], n, r, hls, hn, h => by
      have hlen : l.length ≤ n := List.drop_eq_nil_iff.mp hls.symm
      rw [minLruAux, le_antisymm hlen hn]
      exact h
  | x :: ls, n, r, hls, hn, h => by
      have hlt : n < l.length := by
        by_contra hc
        rw [List.drop_eq_nil_iff.mpr (not_lt.mp hc)] at hls
        cases hls
      rw [List.drop_eq_getElem_cons hlt] at hls
      obtain ⟨rfl, htail⟩ := List.cons.inj hls
      rw [minLruAux, ← List.getD_eq_getElem _ 0 hlt]
      exact IsFirstMin.loop ls htail hlt h.succ

/-- The slot that `min_lru` picks. -/
theorem isFirstMin_minLru {l : List Lru} (hl : 0 < l.length) :
    IsFirstMin l l.length (ideal.minLru l) := by
  refine IsFirstMin.loop l.tail List.drop_one.symm hl ⟨one_pos, rfl, fun j hj => ?_, nofun⟩
  obtain rfl : j = 0 := by omega
  exact le_rfl

theorem IsFirstMin.unique {l : List Lru} {n : ℕ} {r r' : Lru × ℕ} (h : IsFirstMin l n r)
    (h' : IsFirstMin l n r') : r = r' := by
  have hle := h.le _ h'.lt
  have hle' := h'.le _ h.lt
  rw [← h'.eq] at hle
  rw [← h.eq] at hle'
  have hslot : r.2 = r'.2 := by
    rcases lt_trichotomy r.2 r'.2 with hlt | heq | hgt
    · have := h'.first _ hlt
      rw [← h.eq] at this
      omega
    · exact heq
    · have := h.first _ hgt
      rw [← h'.eq] at this
      omega
  refine Prod.ext ?_ hslot
  rw [h.eq, h'.eq, hslot]

theorem getD_bumpLru (l : List Lru) (i : ℕ) {j : ℕ} (hj : j < l.length) :
    (bumpLru l i).getD j 0 = (if maxLru.toNat ≤ (l.getD i 0).toNat then l.getD j 0 >>> 1
      else l.getD j 0) + if j = i then (1 : Lru) else 0 := by
  unfold bumpLru
  rw [List.getD_eq_getElem _ _ (by rwa [List.length_mapIdx]), List.getElem_mapIdx,
    List.getD_eq_getElem _ _ hj]
  simp only [decide_eq_true_eq]

/-! ### Lawful kernels -/

/-- The states that the containers load: a bucket of `K` valid states. -/
def IsBucket (K : ℕ) (b : List State) : Prop := b.length = K ∧ ∀ s ∈ b, validState s = true

theorem IsBucket.valid_getD {K : ℕ} {b : List State} (h : IsBucket K b) {i : ℕ} (hi : i < K)
    (d : State) : validState (b.getD i d) = true := by
  have hlt : i < b.length := by rwa [h.1]
  rw [List.getD_eq_getElem _ _ hlt]
  exact h.2 _ (List.getElem_mem hlt)

/-- The functions mean what `ideal` says, on the buckets that the containers load.  The slots that
`hits` lists include all that match, and are all occupied. -/
structure BucketOps.Lawful (B : BucketOps) (K : ℕ) : Prop where
  hits : ∀ b s, IsBucket K b → isHash s = true → ∃ c : ℕ → Bool,
    B.hits b s = (List.range K).filter c ∧ ∀ i < K,
      (b.getD i tombstone = s → c i = true) ∧ (c i = true → isHash (b.getD i tombstone) = true)
  hitsAbove : ∀ b s (i : ℤ), IsBucket K b → isHash s = true → -1 ≤ i → i < (K : ℤ) →
    B.hitsAbove b s i = (B.hits b s).filter fun (j : ℕ) => decide (i < (j : ℤ))
  hashes : ∀ b, IsBucket K b → B.hashes b = ideal.hashes b
  notHashes : ∀ b, IsBucket K b → B.notHashes b = ideal.notHashes b
  empties : ∀ b, IsBucket K b → B.empties b = ideal.empties b
  tombstones : ∀ b, IsBucket K b → B.tombstones b = ideal.tombstones b
  hasEmpty : ∀ b, IsBucket K b → B.hasEmpty b = ideal.hasEmpty b
  hasNotTombstone : ∀ b, IsBucket K b → B.hasNotTombstone b = ideal.hasNotTombstone b
  notHashToEmpty : ∀ b, IsBucket K b → B.notHashToEmpty b = ideal.notHashToEmpty b
  countNotEqual : ∀ b b', IsBucket K b → IsBucket K b' →
    B.countNotEqual b b' = ideal.countNotEqual b b'
  minLru : ∀ l, l.length = K → B.minLru l = ideal.minLru l
  minLruSlot : ∀ l, l.length = K → B.minLruSlot l = ideal.minLruSlot l
  updateLru : ∀ l i, l.length = K → i < K → B.updateLru l i = ideal.updateLru l i
  toEmptyIfLruBelow : ∀ b l t, IsBucket K b → l.length = K →
    B.toEmptyIfLruBelow b l t = ideal.toEmptyIfLruBelow b l t

theorem lawful_ideal {K : ℕ} : ideal.Lawful K where
  hits b s hb hs := by
    refine ⟨fun i => b.getD i tombstone == s, ?_, fun i _ => ⟨beq_iff_eq.mpr, fun hc => ?_⟩⟩
    · change slots (· == s) b = _
      rw [slots, hb.1]
      refine List.filter_congr fun i hi => ?_
      have hlt : i < b.length := by rwa [hb.1, ← List.mem_range]
      rw [List.getElem?_eq_getElem hlt, List.getD_eq_getElem _ _ hlt]
      rfl
    · rw [eq_of_beq hc]
      exact hs
  hitsAbove b s i _ _ _ _ := rfl
  hashes _ _ := rfl
  notHashes _ _ := rfl
  empties _ _ := rfl
  tombstones _ _ := rfl
  hasEmpty _ _ := rfl
  hasNotTombstone _ _ := rfl
  notHashToEmpty _ _ := rfl
  countNotEqual _ _ _ _ := rfl
  minLru _ _ := rfl
  minLruSlot _ _ := rfl
  updateLru _ _ _ _ := rfl
  toEmptyIfLruBelow _ _ _ _ _ := rfl

/-- A kernel of `K` slots. -/
structure Kernel (K : ℕ) where
  ops : BucketOps
  lawful : ops.Lawful K

end Nvhm
