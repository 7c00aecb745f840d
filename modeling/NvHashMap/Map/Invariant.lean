import NvHashMap.Map
import NvHashMap.Lib.SlotCount
import Mathlib.Tactic.Linarith

/-! # The invariant of a map

* `Sound` is the invariant of the state bytes, and `Table` that of the arrays: it adds the probe
  chains.  A chain says that the bucket of a stored key comes, on the key's probe sequence, before or at the
  first bucket with an empty slot.
* `Inv` adds the counters, the uniqueness of the keys and one empty slot.
* The operations change one slot at a time: `Table.put` and `Table.release` say when the table
  survives that, for any new table that differs in the slot alone. -/

namespace Nvhm

open Buffer SlotCount

variable {κ ν : Type} {T : MapType κ}

namespace MapType

theorem kernelSize_pos (T : MapType κ) : 0 < T.kernelSize := T.conf.kernelSize_pos

/-- The offset of the bucket of a slot. -/
def off (T : MapType κ) (pos : ℕ) : ℕ := T.kernelSize * (pos / T.kernelSize)

/-- The line of a bucket.  A line is as long as the alignment of the sequence, or as a bucket if this
is longer. -/
def line (T : MapType κ) (off : ℕ) : ℕ := off / max T.seq.alignment T.kernelSize

theorem off_le (T : MapType κ) (pos : ℕ) : T.off pos ≤ pos := Nat.mul_div_le pos _

theorem lt_off_add (T : MapType κ) (pos : ℕ) : pos < T.off pos + T.kernelSize := by
  have h := Nat.div_add_mod pos T.kernelSize
  have := Nat.mod_lt pos T.kernelSize_pos
  unfold off
  omega

theorem dvd_off (T : MapType κ) (pos : ℕ) : T.kernelSize ∣ T.off pos := Dvd.intro _ rfl

theorem off_add {o i : ℕ} (ho : T.kernelSize ∣ o) (hi : i < T.kernelSize) : T.off (o + i) = o := by
  obtain ⟨b, rfl⟩ := ho
  rw [off, Nat.mul_add_div T.kernelSize_pos, Nat.div_eq_of_lt hi, Nat.add_zero]

/-- A slot is an offset and an index. -/
theorem exists_add_of_off_eq {pos o : ℕ} (h : T.off pos = o) :
    ∃ i < T.kernelSize, pos = o + i := by
  have h1 := T.off_le pos
  have h2 := T.lt_off_add pos
  exact ⟨pos - o, by omega, by omega⟩

/-- The slots of a bucket. -/
theorem off_eq_iff {o : ℕ} (ho : T.kernelSize ∣ o) (p : ℕ) :
    T.off p = o ↔ o ≤ p ∧ p < o + T.kernelSize := by
  constructor
  · rintro rfl
    exact ⟨T.off_le p, T.lt_off_add p⟩
  · rintro ⟨h1, h2⟩
    have := off_add (T := T) ho (i := p - o) (by omega)
    rwa [Nat.add_sub_cancel' h1] at this

/-- `splice_pos`. -/
theorem alignPos_off {pos : ℕ} (hk : T.conf.kernelBits ≤ 64) (h : pos < 2 ^ 64) :
    alignPos pos (notMask (T.kernelSize - 1)) = T.off pos := by
  rw [MapType.kernelSize, ConfType.kernelSize, alignPos_notMask hk]
  exact Nat.mod_eq_of_lt (lt_of_le_of_lt (Nat.mul_div_le pos _) h)

end MapType

namespace Map

/-! ### Shapes -/

/-- The lengths of the arrays; the capacity is a power of two. -/
structure Shape (m : Map T ν) : Prop where
  pow : ∃ c, T.conf.kernelBits ≤ c ∧ c ≤ 62 ∧ m.bucketMask = 2 ^ c - 2 ^ T.conf.kernelBits
  states_length : m.states.length = m.capacity
  keys_length : m.keys.length = m.capacity
  values_length : m.values.length = m.capacity
  blobs_length : m.blobs.length = m.capacity * m.conf.blobStride

/-- What an update of slots keeps. -/
structure Frame (m m' : Map T ν) : Prop where
  conf : m'.conf = m.conf
  bucketMask : m'.bucketMask = m.bucketMask
  growThreshold : m'.growThreshold = m.growThreshold

theorem Frame.refl (m : Map T ν) : Frame m m := ⟨rfl, rfl, rfl⟩

theorem Frame.trans {m m' m'' : Map T ν} (h : Frame m m') (h' : Frame m' m'') : Frame m m'' :=
  ⟨h'.conf.trans h.conf, h'.bucketMask.trans h.bucketMask,
    h'.growThreshold.trans h.growThreshold⟩

theorem Frame.capacity {m m' : Map T ν} (h : Frame m m') : m'.capacity = m.capacity := by
  simp [Map.capacity, h.bucketMask]

namespace Shape
variable {m : Map T ν} (h : Shape m)
include h

theorem exists_pow : ∃ c, T.conf.kernelBits ≤ c ∧ c ≤ 62 ∧
    m.bucketMask = 2 ^ c - 2 ^ T.conf.kernelBits ∧ m.capacity = 2 ^ c ∧
    m.capacity / T.kernelSize = 2 ^ (c - T.conf.kernelBits) := by
  obtain ⟨c, hk, hc, hmask⟩ := h.pow
  have hle := PowTwo.pow_le_pow hk
  have hcap : m.capacity = 2 ^ c := by
    rw [Map.capacity, hmask, alignedMaskToCapacity, MapType.kernelSize, ConfType.kernelSize]
    omega
  refine ⟨c, hk, hc, hmask, hcap, ?_⟩
  rw [hcap, MapType.kernelSize, ConfType.kernelSize, PowTwo.pow_div hk]

theorem capacity_le : m.capacity ≤ 2 ^ 62 := by
  obtain ⟨c, -, hc, -, hcap, -⟩ := h.exists_pow
  rw [hcap]
  exact PowTwo.pow_le_pow hc

theorem isCapacity : IsCapacity m.capacity := by
  obtain ⟨c, -, hc, -, hcap, -⟩ := h.exists_pow
  exact ⟨c, hc, hcap⟩

theorem kernelSize_mul : T.kernelSize * (m.capacity / T.kernelSize) = m.capacity := by
  obtain ⟨c, hk, -, -, hcap, hdiv⟩ := h.exists_pow
  rw [hdiv, hcap, mul_comm]
  exact PowTwo.pow_sub_mul hk

theorem kernelSize_le : T.kernelSize ≤ m.capacity := by
  obtain ⟨c, hk, -, -, hcap, -⟩ := h.exists_pow
  rw [hcap]
  exact PowTwo.pow_le_pow hk

theorem capacity_pos : 0 < m.capacity := lt_of_lt_of_le T.kernelSize_pos h.kernelSize_le

/-- A bucket lies in the table. -/
theorem off_add_le {pos : ℕ} (hp : pos < m.capacity) : T.off pos + T.kernelSize ≤ m.capacity := by
  have hmul := h.kernelSize_mul
  have hlt : pos / T.kernelSize < m.capacity / T.kernelSize := by
    rw [Nat.div_lt_iff_lt_mul T.kernelSize_pos, mul_comm, hmul]
    exact hp
  have := Nat.mul_le_mul_left T.kernelSize (Nat.succ_le_of_lt hlt)
  rw [hmul] at this
  rw [MapType.off, ← Nat.mul_succ]
  exact this

theorem off_eq {pos : ℕ} (hp : pos < m.capacity) :
    alignPos pos (notMask (T.kernelSize - 1)) = T.off pos := by
  have hcap := h.capacity_le
  obtain ⟨c, hk, hc, -⟩ := h.pow
  exact MapType.alignPos_off (by omega) (by omega)

theorem bucket_length {o : ℕ} (ho : o + T.kernelSize ≤ m.capacity) :
    (m.bucket o).length = T.kernelSize := by
  rw [Map.bucket, length_readAt]
  rw [h.states_length]
  exact ho

theorem mem_slots_bucket {p : State → Bool} {o i : ℕ} (ho : o + T.kernelSize ≤ m.capacity) :
    i ∈ slots p (m.bucket o) ↔ i < T.kernelSize ∧ p (m.stateAt (o + i)) = true := by
  rw [mem_slots_getD tombstone, h.bucket_length ho]
  refine and_congr_right fun hi => ?_
  rw [Map.bucket, getD_readAt _ _ _ _ _ hi, Map.stateAt]

theorem slots_bucket_eq_nil {p : State → Bool} {o : ℕ} (ho : o + T.kernelSize ≤ m.capacity) :
    slots p (m.bucket o) = [] ↔ ∀ i < T.kernelSize, p (m.stateAt (o + i)) = false := by
  rw [List.eq_nil_iff_forall_not_mem]
  refine forall_congr' fun i => ?_
  rw [h.mem_slots_bucket ho, not_and, Bool.not_eq_true]

theorem mem_offsets {o : ℕ} :
    o ∈ offsets T.kernelSize m.capacity ↔ T.kernelSize ∣ o ∧ o < m.capacity := by
  have hmul := h.kernelSize_mul
  simp only [offsets, List.mem_map, List.mem_range]
  constructor
  · rintro ⟨b, hb, rfl⟩
    refine ⟨Dvd.intro _ rfl, ?_⟩
    rw [← hmul]
    exact Nat.mul_lt_mul_of_pos_left hb T.kernelSize_pos
  · rintro ⟨⟨b, rfl⟩, hlt⟩
    refine ⟨b, ?_, rfl⟩
    rw [← hmul] at hlt
    exact Nat.lt_of_mul_lt_mul_left hlt

theorem offset_add_le {o : ℕ} (ho : T.kernelSize ∣ o) (hlt : o < m.capacity) :
    o + T.kernelSize ≤ m.capacity := by
  have := h.off_add_le hlt
  have hoff := MapType.off_add (i := 0) ho T.kernelSize_pos
  rw [Nat.add_zero] at hoff
  rwa [hoff] at this

/-- Every word that is masked gives a bucket of the table. -/
theorem alignPos_mem (x : ℕ) :
    T.kernelSize ∣ alignPos x m.bucketMask ∧ alignPos x m.bucketMask < m.capacity := by
  obtain ⟨c, hk, -, hmask, hcap, -⟩ := h.exists_pow
  rw [hmask, alignPos, PowTwo.land_two_pow_sub x hk, hcap]
  refine ⟨Dvd.intro _ rfl, ?_⟩
  rw [← PowTwo.pow_sub_mul hk, mul_comm]
  exact Nat.mul_lt_mul_of_pos_right (Nat.mod_lt _ (Nat.two_pow_pos _)) (Nat.two_pow_pos _)

theorem frame {m' : Map T ν} (hf : Frame m m') (hs : m'.states.length = m.states.length)
    (hk : m'.keys.length = m.keys.length) (hv : m'.values.length = m.values.length)
    (hb : m'.blobs.length = m.blobs.length) : Shape m' where
  pow := by
    rw [hf.bucketMask]
    exact h.pow
  states_length := by rw [hs, hf.capacity, h.states_length]
  keys_length := by rw [hk, hf.capacity, h.keys_length]
  values_length := by rw [hv, hf.capacity, h.values_length]
  blobs_length := by rw [hb, hf.capacity, hf.conf, h.blobs_length]

end Shape

theorem offsets_nodup (T : MapType κ) (n : ℕ) : (offsets T.kernelSize n).Nodup :=
  List.Nodup.map (fun _ _ h => Nat.eq_of_mul_eq_mul_left T.kernelSize_pos h) List.nodup_range

/-! ### Probe chains -/

/-- The position that the probe sequence of a key starts from. -/
def keyPos (T : MapType κ) (key : κ) : ℕ :=
  hashToPos T.layout T.conf.kernelBits (T.key.hash key)

theorem keyPos_lt (T : MapType κ) (key : κ) : keyPos T key < 2 ^ 64 :=
  hashToPos_lt _ _ (T.key.hash_lt key)

theorem keyPos_congr {a b : κ} (h : T.key.eq a b = true) : keyPos T a = keyPos T b := by
  rw [keyPos, keyPos, T.key.hash_congr h]

theorem keyState_congr {a b : κ} (h : T.key.eq a b = true) : keyState T a = keyState T b := by
  rw [keyState, keyState, T.key.hash_congr h]

theorem isHash_keyState (T : MapType κ) (key : κ) : isHash (keyState T key) = true :=
  isHash_hashToState _ (T.key.hash_lt key)

/-- The probe sequence of a key after `j` steps. -/
def seqAt (T : MapType κ) (key : κ) (j : ℕ) : ProbeSeq :=
  ProbeSeq.iter T.seq T.kernelSize (keyPos T key) j

/-- The bucket that the probe sequence of a key visits at step `j`. -/
def visit (m : Map T ν) (key : κ) (j : ℕ) : ℕ :=
  seqBucket T.seq T.conf.kernelBits m.bucketMask (keyPos T key) j

theorem visit_congr {m : Map T ν} {a b : κ} (h : T.key.eq a b = true) (j : ℕ) :
    m.visit a j = m.visit b j := by
  rw [visit, visit, keyPos_congr h]

theorem Frame.visit {m m' : Map T ν} (h : Frame m m') (key : κ) (j : ℕ) :
    m'.visit key j = m.visit key j := by
  rw [Map.visit, Map.visit, h.bucketMask]

/-- The number of buckets. -/
def numBuckets (m : Map T ν) : ℕ := m.capacity / T.kernelSize

theorem Frame.numBuckets {m m' : Map T ν} (h : Frame m m') : m'.numBuckets = m.numBuckets := by
  rw [Map.numBuckets, Map.numBuckets, h.capacity]

namespace Shape
variable {m : Map T ν} (h : Shape m)
include h

theorem dvd_visit (key : κ) (j : ℕ) : T.kernelSize ∣ m.visit key j := by
  obtain ⟨c, hk, hc, hmask, -, -⟩ := h.exists_pow
  obtain ⟨b, -, hb⟩ := seqBucket_mem T.seq hk (by omega) (keyPos_lt T key) j
  rw [visit, hmask, hb]
  exact Dvd.intro _ rfl

theorem visit_lt (key : κ) (j : ℕ) : m.visit key j < m.capacity := by
  obtain ⟨c, hk, hc, hmask, hcap, -⟩ := h.exists_pow
  obtain ⟨b, hlt, hb⟩ := seqBucket_mem T.seq hk (by omega) (keyPos_lt T key) j
  rw [visit, hmask, hb, hcap, ← PowTwo.pow_sub_mul hk, mul_comm]
  exact Nat.mul_lt_mul_of_pos_right hlt (Nat.two_pow_pos _)

theorem visit_add_le (key : κ) (j : ℕ) : m.visit key j + T.kernelSize ≤ m.capacity :=
  h.offset_add_le (h.dvd_visit key j) (h.visit_lt key j)

theorem visit_inj {key : κ} {i j : ℕ} (hi : i < m.numBuckets) (hj : j < m.numBuckets)
    (hv : m.visit key i = m.visit key j) : i = j := by
  obtain ⟨c, hk, hc, hmask, -, hdiv⟩ := h.exists_pow
  rw [numBuckets, hdiv] at hi hj
  rw [visit, visit, hmask] at hv
  exact seqBucket_injOn T.seq hk (by omega) (keyPos_lt T key) hi hj hv

/-- A probe sequence visits every bucket. -/
theorem exists_visit (key : κ) {o : ℕ} (ho : T.kernelSize ∣ o) (hlt : o < m.capacity) :
    ∃ j < m.numBuckets, m.visit key j = o := by
  obtain ⟨c, hk, hc, hmask, hcap, hdiv⟩ := h.exists_pow
  obtain ⟨b, rfl⟩ := ho
  have hb : b < 2 ^ (c - T.conf.kernelBits) := by
    rw [hcap, ← PowTwo.pow_sub_mul hk, mul_comm] at hlt
    exact Nat.lt_of_mul_lt_mul_right hlt
  simp only [numBuckets, hdiv, visit, hmask]
  exact exists_seqBucket_eq T.seq hk (by omega) (keyPos_lt T key) hb

/-- A probe sequence walks around each line. -/
theorem exists_visit_between {key : κ} {i j o : ℕ} (hij : i < j) (hj : j < m.numBuckets)
    (ho : T.kernelSize ∣ o) (hlt : o < m.capacity)
    (hline : T.line (m.visit key i) = T.line (m.visit key j))
    (holine : T.line o = T.line (m.visit key i)) (hlow : m.visit key j < m.visit key i)
    (hhigh : m.visit key i < o) : ∃ l, i < l ∧ l < j ∧ m.visit key l = o := by
  obtain ⟨c, hk, hc, hmask, hcap, hdiv⟩ := h.exists_pow
  rw [numBuckets, hdiv] at hj
  rw [hcap] at hlt
  simp only [visit, hmask] at hline holine hlow hhigh ⊢
  exact exists_seqBucket_between T.seq hk (by omega) (keyPos_lt T key) hij hj ho hlt hline holine
    hlow hhigh

end Shape

/-- The bucket at `off` has an empty slot. -/
def HasEmpty (m : Map T ν) (off : ℕ) : Prop := ∃ i < T.kernelSize, m.stateAt (off + i) = empty

instance (m : Map T ν) (off : ℕ) : Decidable (m.HasEmpty off) :=
  inferInstanceAs (Decidable (∃ i, i < T.kernelSize ∧ m.stateAt (off + i) = empty))

/-- The probe sequence of `key` reaches the bucket at `off` before it passes an empty slot. -/
def Reaches (m : Map T ν) (key : κ) (off : ℕ) : Prop :=
  ∃ j < m.numBuckets, m.visit key j = off ∧ ∀ i < j, ¬ m.HasEmpty (m.visit key i)

/-- A slot of the table that holds a key. -/
def Occupied (m : Map T ν) (pos : ℕ) : Prop := pos < m.capacity ∧ m.containsAt pos = true

theorem Occupied.isHash {m : Map T ν} {pos : ℕ} (h : m.Occupied pos) :
    isHash (m.stateAt pos) = true := h.2

section Keys
variable [Inhabited κ]

/-- The invariant of the state bytes; it holds for all probe sequences, and during a scrub. -/
structure Sound (m : Map T ν) : Prop extends Shape m where
  conf_valid : m.conf.isValid = true
  state_valid : ∀ pos < m.capacity, validState (m.stateAt pos) = true
  state_eq : ∀ pos, m.Occupied pos → m.stateAt pos = keyState T (m.keyAt pos)

/-- The invariant of the arrays. -/
structure Table (m : Map T ν) : Prop extends Sound m where
  minCapacity_le : m.conf.minCapacity ≤ m.capacity
  growThreshold_eq : m.growThreshold = m.conf.growThreshold m.capacity
  /-- No bucket holds both an empty and a tombstone slot. -/
  pure : ∀ p < m.capacity, ∀ q < m.capacity, T.off p = T.off q → m.stateAt p = empty →
    m.stateAt q ≠ tombstone
  chain : ∀ pos, m.Occupied pos → m.Reaches (m.keyAt pos) (T.off pos)

/-- The invariant of a map. -/
structure Inv (m : Map T ν) : Prop extends Table m where
  numEmpty_eq : m.numEmpty = countSlots m.capacity (· == empty) m.stateAt
  numTombstone_eq : m.numTombstone = countSlots m.capacity (· == tombstone) m.stateAt
  unique : T.duplicates = false → ∀ p q, m.Occupied p → m.Occupied q →
    T.key.eq (m.keyAt p) (m.keyAt q) = true → p = q
  numEmpty_pos : 1 ≤ m.numEmpty

/-- What holds of a map whatever its flags are, also after a scrub that cuts a chain. -/
structure Exact (m : Map T ν) : Prop extends Sound m where
  minCapacity_le : m.conf.minCapacity ≤ m.capacity
  growThreshold_eq : m.growThreshold = m.conf.growThreshold m.capacity
  /-- No bucket holds both an empty and a tombstone slot. -/
  pure : ∀ p < m.capacity, ∀ q < m.capacity, T.off p = T.off q → m.stateAt p = empty →
    m.stateAt q ≠ tombstone
  numEmpty_eq : m.numEmpty = countSlots m.capacity (· == empty) m.stateAt
  numTombstone_eq : m.numTombstone = countSlots m.capacity (· == tombstone) m.stateAt
  numEmpty_pos : 1 ≤ m.numEmpty

theorem Inv.exact {m : Map T ν} (h : Inv m) : Exact m :=
  { h.toSound with
    minCapacity_le := h.minCapacity_le
    growThreshold_eq := h.growThreshold_eq
    pure := h.pure
    numEmpty_eq := h.numEmpty_eq
    numTombstone_eq := h.numTombstone_eq
    numEmpty_pos := h.numEmpty_pos }

/-- The counters are right. -/
structure Counted (m : Map T ν) : Prop where
  numEmpty_eq : m.numEmpty = countSlots m.capacity (· == empty) m.stateAt
  numTombstone_eq : m.numTombstone = countSlots m.capacity (· == tombstone) m.stateAt

theorem Exact.counted {m : Map T ν} (h : Exact m) : Counted m :=
  ⟨h.numEmpty_eq, h.numTombstone_eq⟩

/-- A slot that holds `key`. -/
def Stores (m : Map T ν) (key : κ) (pos : ℕ) : Prop :=
  m.Occupied pos ∧ T.key.eq (m.keyAt pos) key = true

namespace Sound
variable {m : Map T ν} (h : Sound m)
include h

/-- A slot of the table is empty, a tombstone or occupied. -/
theorem cases_state {pos : ℕ} (hp : pos < m.capacity) :
    m.stateAt pos = empty ∨ m.stateAt pos = tombstone ∨ m.Occupied pos := by
  cases hs : isHash (m.stateAt pos) with
  | true => exact Or.inr (Or.inr ⟨hp, hs⟩)
  | false => exact (eq_of_validState (h.state_valid pos hp) hs).imp_right Or.inl

theorem state_of_stores {key : κ} {pos : ℕ} (hst : m.Stores key pos) :
    m.stateAt pos = keyState T key := by
  rw [h.state_eq pos hst.1, keyState_congr hst.2]

end Sound

omit [Inhabited κ] in
/-- Where no bucket holds both an empty and a tombstone slot, one with an empty slot has no
tombstone. -/
theorem Shape.ne_tombstone {m : Map T ν} (h : Shape m) (hpure : ∀ p < m.capacity, ∀ q < m.capacity,
      T.off p = T.off q → m.stateAt p = empty → m.stateAt q ≠ tombstone) {pos : ℕ}
    (hp : pos < m.capacity) (he : m.HasEmpty (T.off pos)) : m.stateAt pos ≠ tombstone := by
  obtain ⟨i, hi, hs⟩ := he
  have := h.off_add_le hp
  exact hpure _ (by omega) pos hp (MapType.off_add (T.dvd_off pos) hi) hs

theorem Exact.ne_tombstone {m : Map T ν} (h : Exact m) {pos : ℕ} (hp : pos < m.capacity)
    (he : m.HasEmpty (T.off pos)) : m.stateAt pos ≠ tombstone :=
  h.toShape.ne_tombstone h.pure hp he

namespace Table
variable {m : Map T ν} (h : Table m)
include h

theorem ne_tombstone {pos : ℕ} (hp : pos < m.capacity) (he : m.HasEmpty (T.off pos)) :
    m.stateAt pos ≠ tombstone := h.toShape.ne_tombstone h.pure hp he

/-- The chain of a slot, for a key equal to the stored one. -/
theorem chain_of_stores {key : κ} {pos : ℕ} (hst : m.Stores key pos) :
    m.Reaches key (T.off pos) := by
  obtain ⟨j, hj, hv, hne⟩ := h.chain pos hst.1
  refine ⟨j, hj, ?_, fun i hi => ?_⟩
  · rw [← visit_congr hst.2, hv]
  · rw [← visit_congr hst.2]
    exact hne i hi

end Table

end Keys

end Map

end Nvhm
