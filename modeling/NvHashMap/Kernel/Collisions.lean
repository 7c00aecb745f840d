import NvHashMap.Kernel.UintFunctions
import NvHashMap.Lib.Histogram
import NvHashMap.Map.Change

/-! # Counting collisions

`count_collisions` of `kernel.hpp`, and `count_state_collisions` of `map.hpp`, which runs it over all
buckets.

The number of slots with a fingerprint is taken from `mask(k, s)`.  That of the fast kernels may mark
other slots: behind a marked slot, one that differs from the state in the lowest bit alone.  So the
counts are right if no fingerprint is followed by its `Twins`, and wrong in every other bucket of a
fast kernel (`collisions_iff`). -/

namespace Nvhm

open Buffer SlotSet SlotCount Histogram

/-! ### Definitions -/

section Definitions
variable {R L M : Type}

/-- The order in which `std::sort` puts states. -/
def stateLe (s t : State) : Prop := s.toInt ≤ t.toInt

instance : DecidableRel stateLe := fun s t => inferInstanceAs (Decidable (s.toInt ≤ t.toInt))

/-- `count_collisions`. -/
def countCollisions (F : KernelFns R L M) (K : ℕ) (states : List State) (acc : List ℕ) : List ℕ :=
  let k := F.load states
  let tmp := (F.maskType.scan K (F.maskHash k)).map (F.stateAt k)
  tally (fun s => F.maskType.count (F.mask k s)) (distinct stateLe tmp).reverse acc

/-- The kernels that have no intrinsics. -/
inductive PlainKernel where
  | array (K : ℕ)
  | uint (k : ℕ) (fast : Bool)
deriving DecidableEq, Repr

namespace PlainKernel

def size : PlainKernel → ℕ
  | array K => K
  | uint k _ => 2 ^ k

/-- The sizes that exist. -/
def Exists : PlainKernel → Prop
  | array K => 0 < K
  | uint k _ => k ≤ 4

/-- `produces_false_positives`. -/
def producesFalsePositives : PlainKernel → Bool
  | array _ => false
  | uint _ fast => fast

/-- `count_collisions` with this kernel. -/
def countCollisions : PlainKernel → List State → List ℕ → List ℕ
  | array K =>
      if K ≤ 128 then Nvhm.countCollisions (ArrayKernel.wordFns K) K
      else Nvhm.countCollisions (ArrayKernel.bitsetFns K) K
  | uint k fast => Nvhm.countCollisions (UintKernel.fns k fast) (2 ^ k)

end PlainKernel

/-- `count_state_collisions_`. -/
def Map.countStateCollisions {κ ν : Type} {T : MapType κ} (c : PlainKernel) (m : Map T ν)
    (counts : List ℕ) : List ℕ :=
  (offsets T.kernelSize m.capacity).foldl (fun counts off => c.countCollisions (m.bucket off) counts)
    counts

/-- The fingerprints that occur in exactly `n` slots of a bucket. -/
def fingerprints (b : List State) (n : ℕ) : Finset State :=
  (b.filter isHash).toFinset.filter fun s => b.count s = n

/-- A fingerprint is followed by one that differs from it in the lowest bit alone. -/
def Twins (b : List State) : Prop :=
  ∃ i, i + 1 < b.length ∧ isHash (b.getD i 0) = true ∧ b.getD (i + 1) 0 = b.getD i 0 ^^^ 1

end Definitions

/-! ### The fingerprints of a bucket -/

section Bucket
variable {b : List State} {K : ℕ}

instance : Std.Total stateLe := ⟨fun s t => le_total s.toInt t.toInt⟩

instance : IsTrans State stateLe := ⟨fun _ _ _ h h' => le_trans (α := ℤ) h h'⟩

instance : Std.Antisymm stateLe := ⟨fun _ _ h h' => BitVec.eq_of_toInt_eq (le_antisymm h h')⟩

/-- The distinct fingerprints, in the order of the loop. -/
def hashesOf (b : List State) : List State := (distinct stateLe (b.filter isHash)).reverse

theorem mem_hashesOf {s : State} : s ∈ hashesOf b ↔ s ∈ b ∧ isHash s = true := by
  rw [hashesOf, List.mem_reverse, mem_distinct, List.mem_filter]

theorem nodup_hashesOf : (hashesOf b).Nodup := List.nodup_reverse.mpr (nodup_distinct _)

/-- The fingerprints with a number of slots. -/
theorem countP_hashesOf (n : ℕ) :
    ((hashesOf b).countP fun s => b.count s == n) = (fingerprints b n).card := by
  have hfilter : fingerprints b n = ((hashesOf b).filter fun s => b.count s == n).toFinset := by
    refine Finset.ext fun s => ?_
    simp only [fingerprints, Finset.mem_filter, List.mem_toFinset, List.mem_filter, mem_hashesOf,
      beq_iff_eq]
  rw [hfilter, List.toFinset_card_of_nodup (nodup_hashesOf.filter _), List.countP_eq_length_filter]

/-- The slots of all fingerprints. -/
theorem sum_count_hashesOf (b : List State) :
    ((hashesOf b).map fun s => b.count s).sum = b.countP isHash := by
  rw [← List.sum_map_count_dedup_filter_eq_countP]
  refine (List.Perm.map _ ?_).sum_eq
  refine (List.perm_ext_iff_of_nodup nodup_hashesOf ((List.nodup_dedup b).filter _)).mpr ?_
  intro s
  rw [mem_hashesOf, List.mem_filter, List.mem_dedup]

theorem count_eq_card (hb : b.length = K) (s : State) :
    b.count s = (below K fun i => b.getD i 0 == s).card := by
  rw [card_below]
  conv_lhs => rw [← map_range_getD hb 0, List.count, List.countP_map]
  rw [List.countP_eq_length_filter]
  rfl

theorem filter_isHash (hb : b.length = K) :
    ((List.range K).filter fun i => isHash (b.getD i 0)).map (fun i => b.getD i 0) =
      b.filter isHash := by
  conv_rhs => rw [← map_range_getD hb 0, List.filter_map]
  rfl

end Bucket

/-! ### One bucket -/

/-- What `count_collisions` asks of a kernel, on one bucket: `mask(k, s)` marks the slots in `e s`,
and those that match are among them. -/
structure Counting {R L M : Type} (F : KernelFns R L M) (D : MaskSets M) (K : ℕ) (b : List State)
    (e : State → ℕ → Bool) : Prop where
  implements : Implements F.maskType K D.valid D.toSet
  length : b.length = K
  maskHash : D.Denotes K (F.maskHash (F.load b)) fun i => isHash (b.getD i 0)
  stateAt : ∀ i < K, F.stateAt (F.load b) i = b.getD i 0
  mask : ∀ s, D.Denotes K (F.mask (F.load b) s) (e s)
  covers : ∀ i < K, e (b.getD i 0) i = true

namespace Counting
variable {R L M : Type} {F : KernelFns R L M} {D : MaskSets M} {K : ℕ} {b : List State}
  {e : State → ℕ → Bool} (h : Counting F D K b e)
include h

theorem countCollisions_eq (acc : List ℕ) :
    countCollisions F K b acc = tally (fun s => (below K (e s)).card) (hashesOf b) acc := by
  have hsort : (below K fun i => isHash (b.getD i 0)).sort (· ≤ ·) =
      (List.range K).filter fun i => isHash (b.getD i 0) := by
    refine List.Pairwise.eq_of_mem_iff (r := (· < ·)) (Finset.sortedLT_sort _).pairwise
      (List.pairwise_lt_range.filter _) fun i => ?_
    rw [Finset.mem_sort, mem_below, List.mem_filter, List.mem_range]
  have hcard := h.implements.card_le (F.maskHash (F.load b))
  have hscan := h.implements.scan_eq K h.maskHash.1 hcard
  rw [h.maskHash.2, hsort] at hscan
  have hcount : ∀ s, F.maskType.count (F.mask (F.load b) s) = (below K (e s)).card := by
    intro s
    rw [h.implements.count _ (h.mask s).1, (h.mask s).2]
  have htmp : ((List.range K).filter fun i => isHash (b.getD i 0)).map (F.stateAt (F.load b)) =
      b.filter isHash := by
    rw [← filter_isHash h.length]
    refine List.map_congr_left fun i hi => h.stateAt i ?_
    exact List.mem_range.mp (List.mem_filter.mp hi).1
  rw [countCollisions, hscan, htmp, funext hcount]
  rfl

/-- The slots that are marked are at least those that match, and at most all. -/
theorem count_le {s : State} (hs : s ∈ hashesOf b) :
    1 ≤ b.count s ∧ b.count s ≤ (below K (e s)).card ∧ (below K (e s)).card ≤ K := by
  refine ⟨List.one_le_count_iff.mpr (mem_hashesOf.mp hs).1, ?_, ?_⟩
  · rw [count_eq_card h.length]
    refine Finset.card_le_card fun i hi => ?_
    obtain ⟨hlt, heq⟩ := mem_below.mp hi
    exact mem_below.mpr ⟨hlt, eq_of_beq heq ▸ h.covers i hlt⟩
  · rw [card_below]
    exact (List.length_filter_le _ _).trans_eq List.length_range

/-- No other slot is marked. -/
theorem card_eq_iff (s : State) : (below K (e s)).card = b.count s ↔
    ∀ i < K, e s i = true → b.getD i 0 = s := by
  rw [count_eq_card h.length]
  have hsub : (below K fun i => b.getD i 0 == s) ⊆ below K (e s) := by
    intro i hi
    obtain ⟨hlt, heq⟩ := mem_below.mp hi
    exact mem_below.mpr ⟨hlt, eq_of_beq heq ▸ h.covers i hlt⟩
  constructor
  · intro hcard i hi hmark
    have heq := Finset.eq_of_subset_of_card_le hsub hcard.le
    have hmem : i ∈ below K fun i => b.getD i 0 == s := heq ▸ mem_below.mpr ⟨hi, hmark⟩
    exact eq_of_beq (mem_below.mp hmem).2
  · intro hall
    refine congrArg Finset.card (Finset.Subset.antisymm (fun i hi => ?_) hsub)
    obtain ⟨hlt, hmark⟩ := mem_below.mp hi
    exact mem_below.mpr ⟨hlt, beq_iff_eq.mpr (hall i hlt hmark)⟩

/-- The counts are right if and only if no fingerprint of the bucket has a false positive. -/
theorem exact_iff {acc : List ℕ} (hacc : acc.length = K) :
    (∀ n, 1 ≤ n → n ≤ K → (countCollisions F K b acc).getD (n - 1) 0 =
        acc.getD (n - 1) 0 + (fingerprints b n).card) ↔
      ∀ s ∈ hashesOf b, (below K (e s)).card = b.count s := by
  rw [← countP_eq_iff fun s hs => h.count_le hs, h.countCollisions_eq]
  have htally : ∀ j < K, (tally (fun s => (below K (e s)).card) (hashesOf b) acc).getD j 0 =
      acc.getD j 0 + (hashesOf b).countP fun s => (below K (e s)).card == j + 1 :=
    fun j hj => getD_tally _ _ _ (hacc ▸ hj) fun s hs => by
      have := h.count_le hs
      omega
  constructor
  · intro heq j hj
    have hj' := heq (j + 1) (by omega) (by omega)
    rw [Nat.add_sub_cancel, htally j hj] at hj'
    rw [countP_hashesOf]
    exact Nat.add_left_cancel hj'
  · intro heq n h1 hn
    rw [htally (n - 1) (by omega), heq (n - 1) (by omega), countP_hashesOf, Nat.sub_add_cancel h1]

/-- All slots that are marked for the fingerprints of the bucket. -/
theorem weight_eq {acc : List ℕ} (hacc : acc.length = K) : weight (countCollisions F K b acc) =
    weight acc + ((hashesOf b).map fun s => (below K (e s)).card).sum := by
  rw [h.countCollisions_eq]
  refine weight_tally _ _ _ fun s hs => ?_
  have := h.count_le hs
  omega

theorem le_sum : b.countP isHash ≤ ((hashesOf b).map fun s => (below K (e s)).card).sum := by
  rw [← sum_count_hashesOf]
  exact List.sum_le_sum fun s hs => (h.count_le hs).2.1

theorem sum_eq_iff : ((hashesOf b).map fun s => (below K (e s)).card).sum = b.countP isHash ↔
    ∀ s ∈ hashesOf b, (below K (e s)).card = b.count s := by
  rw [← sum_count_hashesOf]
  exact sum_map_eq_iff fun s hs => (h.count_le hs).2.1

end Counting

/-! ### The kernels -/

namespace PlainKernel

/-- The slots that `mask(k, s)` marks. -/
def marks (c : PlainKernel) (b : List State) (s : State) : ℕ → Bool :=
  if c.producesFalsePositives then UintKernel.fastMarks b s else fun i => b.getD i 0 == s

variable {c : PlainKernel} {b : List State}

theorem marks_self (c : PlainKernel) (b : List State) (i : ℕ) : c.marks b (b.getD i 0) i = true := by
  unfold marks
  split_ifs
  · cases i <;> simp [UintKernel.fastMarks]
  · simp

theorem exists_counting (hc : c.Exists) (hb : IsBucket c.size b) :
    ∃ (R L M : Type) (F : KernelFns R L M) (D : MaskSets M), Counting F D c.size b (c.marks b) ∧
      c.countCollisions = Nvhm.countCollisions F c.size := by
  cases c with
  | array K =>
      have hcorrect : ∀ {w : ℕ} {mt : Ops (BitVec w)} {D : MaskSets (BitVec w)},
          ArrayKernel.BitPerSlot mt D K → Counting (ArrayKernel.fns K mt) D K b
            ((array K).marks b) := by
        intro w mt D h
        have hf := ArrayKernel.correct h hc
        exact ⟨hf.maskType, hb.1, hf.maskHash b hb, fun i hi => hf.stateAt b i hb hi,
          fun s => hf.mask b s hb, fun i _ => marks_self _ b i⟩
      by_cases hK : K ≤ 128
      · refine ⟨_, _, _, _, _, hcorrect (ArrayKernel.bitPerSlot_word hK), ?_⟩
        rw [countCollisions, if_pos hK]
        rfl
      · refine ⟨_, _, _, _, _, hcorrect (ArrayKernel.bitPerSlot_bitset K), ?_⟩
        rw [countCollisions, if_neg hK]
        rfl
  | uint k fast =>
      have hk : k ≤ 4 := hc
      refine ⟨_, _, _, UintKernel.fns k fast, UintKernel.sets k, ⟨?_, hb.1, ?_, ?_, ?_, ?_⟩, rfl⟩
      · exact MaskType.implements (UintKernel.isRepr hk)
      · exact (UintKernel.marks_hash hk).denotes
      · exact fun i _ => UintKernel.stateAt_load hb.1 i
      · intro s
        cases fast with
        | true => exact (UintKernel.marks_fastMarks hk s).denotes
        | false => exact (UintKernel.marks_mask hk s).denotes
      · exact fun i _ => marks_self _ b i

/-- The fast mask has no false positive if no fingerprint is followed by its twin. -/
theorem fastMarks_iff {K : ℕ} (hb : b.length = K) :
    (∀ s ∈ hashesOf b, ∀ i < K, UintKernel.fastMarks b s i = true → b.getD i 0 = s) ↔ ¬ Twins b := by
  have hne : ∀ s : State, s ^^^ 1 ≠ s := by decide
  constructor
  · rintro hall ⟨i, hi, hs, htwin⟩
    have hmem : b.getD i 0 ∈ b := by
      rw [List.getD_eq_getElem _ _ (by omega : i < b.length)]
      exact List.getElem_mem _
    have hi' : UintKernel.fastMarks b (b.getD i 0) i = true := by
      cases i <;> simp [UintKernel.fastMarks]
    refine hne (b.getD i 0) (htwin.symm.trans (hall _ (mem_hashesOf.mpr ⟨hmem, hs⟩) (i + 1) (by omega)
      ?_))
    rw [UintKernel.fastMarks, htwin, hi', beq_self_eq_true, Bool.and_true, Bool.or_true]
  · intro hno s hs i
    induction i with
    | zero => exact fun _ hmark => eq_of_beq hmark
    | succ i ih =>
        intro hi hmark
        rw [UintKernel.fastMarks, Bool.or_eq_true, Bool.and_eq_true, beq_iff_eq, beq_iff_eq] at hmark
        refine hmark.elim id fun htwin => absurd ?_ hno
        have hs' := ih (by omega) htwin.2
        exact ⟨i, hb ▸ hi, hs' ▸ (mem_hashesOf.mp hs).2, by rw [htwin.1, hs']⟩

/-- Every fingerprint has the right number of slots. -/
theorem exact_iff {R L M : Type} {F : KernelFns R L M} {D : MaskSets M}
    (h : Counting F D c.size b (c.marks b)) :
    (∀ s ∈ hashesOf b, (below c.size (c.marks b s)).card = b.count s) ↔
      (c.producesFalsePositives = true → ¬ Twins b) := by
  rw [← fastMarks_iff h.length]
  refine (forall₂_congr fun s _ => h.card_eq_iff s).trans ?_
  unfold marks
  split_ifs with hf
  · exact ⟨fun hall _ => hall, fun hall => hall hf⟩
  · refine iff_of_true (fun s _ i _ hi => eq_of_beq hi) fun hc => absurd hc hf

end PlainKernel

/-! ### A whole map -/

namespace Map
variable {κ ν : Type} {T : MapType κ} {c : PlainKernel}

/-- The weight that a bucket adds. -/
def marked (c : PlainKernel) (b : List State) : ℕ :=
  ((hashesOf b).map fun s => (below c.size (c.marks b s)).card).sum

theorem length_countCollisions (c : PlainKernel) (b : List State) (acc : List ℕ) :
    (c.countCollisions b acc).length = acc.length := by
  cases c with
  | array K =>
      rw [PlainKernel.countCollisions]
      split_ifs
      · exact length_tally _ _ _
      · exact length_tally _ _ _
  | uint k fast => exact length_tally _ _ _

theorem weight_fold (hc : c.Exists) {m : Map T ν} : ∀ (offs : List ℕ) (counts : List ℕ),
    counts.length = c.size → (∀ o ∈ offs, IsBucket c.size (m.bucket o)) →
    Histogram.weight
        (offs.foldl (fun counts off => c.countCollisions (m.bucket off) counts) counts) =
      Histogram.weight counts + (offs.map fun o => marked c (m.bucket o)).sum
  | [], _, _, _ => rfl
  | o :: offs, counts, hlen, hb => by
      obtain ⟨R, L, M, F, D, h, heq⟩ := PlainKernel.exists_counting hc (hb o List.mem_cons_self)
      have hlen' := (length_countCollisions c (m.bucket o) counts).trans hlen
      rw [List.foldl_cons, weight_fold hc offs _ hlen' fun o ho => hb o (List.mem_cons_of_mem _ ho),
        List.map_cons, List.sum_cons, ← Nat.add_assoc, marked, ← h.weight_eq hlen, heq]

/-- The buckets hold all entries. -/
theorem Sound.sum_countP [Inhabited κ] [Inhabited ν] {m : Map T ν} (h : Sound m) :
    ((offsets T.kernelSize m.capacity).map fun o => (m.bucket o).countP isHash).sum =
      m.entries.card := by
  rw [h.toShape.entries_eq, Multiset.coe_card, List.length_map, positions, List.length_flatMap]
  refine congrArg List.sum (List.map_congr_left fun o ho => ?_)
  obtain ⟨hd, hlt⟩ := h.mem_offsets.mp ho
  have hlen := (h.isBucket hd hlt).1
  rw [List.length_map]
  change _ = (slots isHash (m.bucket o)).length
  rw [slots_eq_filter hlen 0]
  conv_lhs => rw [← map_range_getD hlen 0, List.countP_map, List.countP_eq_length_filter]
  rfl

theorem length_countStateCollisions (c : PlainKernel) (m : Map T ν) (counts : List ℕ) :
    (m.countStateCollisions c counts).length = counts.length := by
  have hfold : ∀ (offs counts : List ℕ),
      (offs.foldl (fun counts off => c.countCollisions (m.bucket off) counts) counts).length =
        counts.length := by
    intro offs
    induction offs with
    | nil => exact fun _ => rfl
    | cons o offs ih => exact fun counts => (ih _).trans (length_countCollisions c _ counts)
  exact hfold _ _

/-- The counts of a map add up to its size if and only if they are right for every bucket. -/
theorem Exact.weight_iff [Inhabited κ] [Inhabited ν] {m : Map T ν} (h : Exact m) (hc : c.Exists)
    (hsize : c.size = T.kernelSize) :
    (Histogram.weight (m.countStateCollisions c (List.replicate c.size 0)) : ℤ) = m.size ↔
      (c.producesFalsePositives = true →
        ∀ o ∈ offsets T.kernelSize m.capacity, ¬ Twins (m.bucket o)) := by
  have hbucket : ∀ o ∈ offsets T.kernelSize m.capacity, IsBucket c.size (m.bucket o) := by
    intro o ho
    obtain ⟨hd, hlt⟩ := h.mem_offsets.mp ho
    exact hsize ▸ h.toSound.isBucket hd hlt
  have hzero : Histogram.weight (List.replicate c.size 0) = 0 := by
    refine Finset.sum_eq_zero fun j hj => ?_
    rw [List.length_replicate, Finset.mem_range] at hj
    simp [hj]
  rw [countStateCollisions, weight_fold hc _ _ List.length_replicate hbucket, hzero, Nat.zero_add,
    h.size_eq, ← h.toSound.sum_countP, Nat.cast_inj, sum_map_eq_iff]
  · have hpoint : ∀ o ∈ offsets T.kernelSize m.capacity,
        (marked c (m.bucket o) = (m.bucket o).countP isHash ↔
          (c.producesFalsePositives = true → ¬ Twins (m.bucket o))) := by
      intro o ho
      obtain ⟨R, L, M, F, D, hcount, -⟩ := PlainKernel.exists_counting hc (hbucket o ho)
      exact hcount.sum_eq_iff.trans (PlainKernel.exact_iff hcount)
    exact ⟨fun hall hf o ho => (hpoint o ho).mp (hall o ho) hf,
      fun hall o ho => (hpoint o ho).mpr fun hf => hall hf o ho⟩
  · intro o ho
    obtain ⟨R, L, M, F, D, hcount, -⟩ := PlainKernel.exists_counting hc (hbucket o ho)
    exact hcount.le_sum

end Map

/-! ### Main result -/

/-- `count_collisions` counts the fingerprints of a bucket right, and the counts of a map add up to
its size, if and only if the kernel has no false positives or no fingerprint is followed by its
twin. -/
theorem collisions_iff (c : PlainKernel) (hc : c.Exists) :
    (∀ b acc, IsBucket c.size b → acc.length = c.size →
      ((∀ n, 1 ≤ n → n ≤ c.size → (c.countCollisions b acc).getD (n - 1) 0 =
          acc.getD (n - 1) 0 + (fingerprints b n).card) ↔
        (c.producesFalsePositives = true → ¬ Twins b))) ∧
    ∀ (κ ν : Type) [Inhabited κ] [Inhabited ν] (T : MapType κ) (B : Kernel T.kernelSize)
      (conf : Conf T.conf) (m : Map T ν), c.size = T.kernelSize →
      (Map.runs B conf fun _ _ => True).Reachable m →
      (((∑ i ∈ Finset.range c.size, (i + 1) *
          (m.countStateCollisions c (List.replicate c.size 0)).getD i 0 : ℕ) : ℤ) = m.size ↔
        (c.producesFalsePositives = true →
          ∀ o ∈ offsets T.kernelSize m.capacity, ¬ Twins (m.bucket o))) := by
  refine ⟨fun b acc hb hacc => ?_, fun κ ν _ _ T B conf m hsize hm => ?_⟩
  · obtain ⟨R, L, M, F, D, hcount, heq⟩ := PlainKernel.exists_counting hc hb
    rw [heq]
    exact (hcount.exact_iff hacc).trans (PlainKernel.exact_iff hcount)
  · refine Iff.trans ?_ ((Map.exact_of_reachable B conf hm).1.weight_iff hc hsize)
    rw [weight, Map.length_countStateCollisions, List.length_replicate]

/-- A bucket of two bytes with the fast mask and no twins, and a map with two entries. -/
theorem collisions_iff_words :
    ((PlainKernel.uint 1 true).countCollisions [0x02, 0x02] [0, 0]).getD 1 0 =
        0 + (fingerprints [0x02, 0x02] 2).card ∧
      ∃ rs m, Map.wordExec 1 true [.insert 0, .insert 1] = .ok (rs, m) ∧
        ((∑ i ∈ Finset.range 2, (i + 1) *
          (m.countStateCollisions (.uint 1 false) (List.replicate 2 0)).getD i 0 : ℕ) : ℤ) =
            m.size := by
  have hb : IsBucket 2 [0x02, 0x02] := ⟨rfl, by decide⟩
  have hno : ¬ Twins [0x02, 0x02] := by
    rintro ⟨i, hi, -, htwin⟩
    obtain rfl : i = 0 := Nat.lt_one_iff.mp (Nat.lt_of_succ_lt_succ hi)
    revert htwin
    decide
  have hcount := ((collisions_iff (.uint 1 true) (by decide : 1 ≤ 4)).1 _ [0, 0] hb rfl).mpr
    (fun _ => hno) 2 (by decide) le_rfl
  obtain ⟨rs, m, hr, -, -⟩ := Map.exists_wordExec 1 true [.insert 0, .insert 1]
    (fun _ => ()) () (by decide +kernel)
  have hm := Map.reachable_of_exec (P := fun _ _ => True) _ _ (fun _ _ _ => trivial) hr
  refine ⟨hcount, rs, m, hr, ?_⟩
  exact ((collisions_iff (.uint 1 false) (by decide : 1 ≤ 4)).2 _ _ _ _ _ m rfl hm).mpr
    fun hf => absurd hf Bool.false_ne_true

/-- The fingerprints 2 and 3 in a bucket of two bytes with the fast mask: each occurs once, but 2 is
counted as one that occurs twice. -/
theorem collisions_twins : ¬ ∀ (c : PlainKernel), c.Exists → ∀ b acc, IsBucket c.size b →
    acc.length = c.size → ∀ n, 1 ≤ n → n ≤ c.size → (c.countCollisions b acc).getD (n - 1) 0 =
      acc.getD (n - 1) 0 + (fingerprints b n).card := by
  intro h
  have hb : IsBucket 2 [0x02, 0x03] := ⟨rfl, by decide⟩
  have hcount := h (.uint 1 true) (by decide : 1 ≤ 4) [0x02, 0x03] [0, 0] hb rfl 2 (by decide) le_rfl
  revert hcount
  decide +kernel

end Nvhm
