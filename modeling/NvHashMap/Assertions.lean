import NvHashMap.Map.Contents
import NvHashMap.Map.Probes
import NvHashMap.Cache.Run
import NvHashMap.Cache.Lru

/-! # The assertions of the probe loops

Which assertions can fail while a key is searched, inserted or erased.

* A probe sequence without alignment asserts that its position is not negative.  `hash_to_pos`
  shifts the hash as an unsigned number and reads the result as a signed one, so this depends on
  one bit of the hash (`hashToPos_lt_iff`).
* The searches assert that `psl` is below the capacity; these are the errors `tableFull`,
  `stillFull` and `insertError` of the model.
* A call also starts the sequences of the stored keys when it rebuilds the table.
* A call of a cache starts the sequence of its key only, and gets its slots from the masks of one
  bucket (`findFirst_probes`, `eraseFirst_probes`, `insert_probes`). -/

namespace Nvhm

open Buffer SlotCount

/-! ### Positions -/

/-- `static_cast<raw_pos_t>`. -/
def toRawPos (pos : ℕ) : ℤ := (BitVec.ofNat 64 pos).toInt

theorem toRawPos_nonneg_iff {pos : ℕ} (h : pos < 2 ^ 64) : 0 ≤ toRawPos pos ↔ pos < 2 ^ 63 := by
  unfold toRawPos
  rw [BitVec.toInt_eq_toNat_cond, BitVec.toNat_ofNat, Nat.mod_eq_of_lt h]
  split_ifs <;> omega

/-- A shifted hash is not negative if the bit that gets to the top is zero. -/
theorem shl_lt_iff {k : ℕ} (hk : k ≤ 62) (h : ℕ) :
    h * 2 ^ k % 2 ^ 64 < 2 ^ 63 ↔ h.testBit (63 - k) = false := by
  have hlt : h * 2 ^ k % 2 ^ 64 < 2 ^ 64 := Nat.mod_lt _ (by decide)
  have htop : (h * 2 ^ k % 2 ^ 64).testBit 63 = h.testBit (63 - k) := by
    rw [Nat.testBit_mod_two_pow, Nat.testBit_mul_two_pow]
    simp only [show 63 < 64 by decide, decide_true, Bool.true_and]
    rw [decide_eq_true (by omega : k ≤ 63), Bool.true_and]
  rw [← htop, Nat.testBit_eq_decide_div_mod_eq, decide_eq_false_iff_not]
  omega

/-- The hashes whose positions are not negative. -/
theorem hashToPos_lt_iff (layout : HashLayout) {k : ℕ} (hk : k ≤ 62) {h : ℕ} (hh : h < 2 ^ 64) :
    hashToPos layout k h < 2 ^ 63 ↔ match layout with
      | .traditional => k < numStateBits ∨ h.testBit (63 - (k - numStateBits)) = false
      | .monkeyWrench => h.testBit (63 - k) = false := by
  cases layout with
  | traditional =>
      simp only [hashToPos]
      split_ifs with hle
      · rw [or_iff_right (not_lt.mpr hle)]
        exact shl_lt_iff (by omega) h
      · refine iff_of_true ?_ (Or.inl (not_le.mp hle))
        have hpow : 2 ^ 1 ≤ 2 ^ (numStateBits - k) := Nat.pow_le_pow_right (by decide) (by omega)
        refine lt_of_le_of_lt (Nat.div_le_div_left hpow (by decide)) ?_
        omega
  | monkeyWrench => exact shl_lt_iff hk h

/-! ### Maps -/

namespace Map
variable {κ ν : Type} {T : MapType κ}

/-- `NVHM_ASSERT_(pos >= 0)` of `unaligned_probe_seq`, for the sequence of a key. -/
def PosAsserts (T : MapType κ) (key : κ) : Prop :=
  T.seq.alignment = 0 → 0 ≤ toRawPos (keyPos T key)

/-- The errors that stand for failed assertions of the probe loops. -/
def assertErrors : List Err := [.tableFull, .stillFull, .insertError]

/-- No assertion fails in a call that starts the sequences of these keys. -/
structure Asserts {α : Type} (T : MapType κ) (keys : List κ) (r : Except Err α) : Prop where
  pos : ∀ key ∈ keys, PosAsserts T key
  psl : ∀ e ∈ assertErrors, r ≠ .error e

/-- The offsets of the visited buckets and the slots of their masks lie in the table. -/
structure InBounds (B : BucketOps) (m : Map T ν) : Prop where
  off : ∀ key j, m.visit key j ≤ m.bucketMask
  slot : ∀ key j, ∀ i ∈ B.hits (m.bucket (m.visit key j)) (keyState T key) ++
      B.notHashes (m.bucket (m.visit key j)) ++ B.tombstones (m.bucket (m.visit key j)) ++
      B.empties (m.bucket (m.visit key j)), i < T.kernelSize ∧ m.visit key j + i < m.capacity

/-! ### The sequences of a call -/

section Keys
variable [Inhabited κ] [Inhabited ν] (B : BucketOps)

theorem mem_startsReinsertAll {old : Map T ν} {k : κ} : ∀ (ps : List ℕ) {m : Map T ν},
    k ∈ startsReinsertAll B old ps m → ∃ p ∈ ps, old.keyAt p = k
  | [], _, hk => absurd hk List.not_mem_nil
  | p :: ps, m, hk => by
      rw [startsReinsertAll] at hk
      rcases List.mem_cons.mp hk with rfl | hk
      · exact ⟨p, List.mem_cons_self, rfl⟩
      · split at hk
        · obtain ⟨q, hq, heq⟩ := mem_startsReinsertAll ps hk
          exact ⟨q, List.mem_cons_of_mem p hq, heq⟩
        · exact absurd hk List.not_mem_nil

theorem mem_startsRehash {old : Map T ν} {k : κ} : ∀ (d : ℕ) {n : ℕ},
    k ∈ startsRehash B old d n → ∃ p ∈ old.positions B, old.keyAt p = k
  | 0, _, hk => absurd hk List.not_mem_nil
  | d + 1, n, hk => by
      rw [startsRehash] at hk
      rcases List.mem_append.mp hk with hk | hk
      · exact mem_startsReinsertAll B _ hk
      · split at hk
        · split_ifs at hk
          · exact absurd hk List.not_mem_nil
          · exact mem_startsRehash d hk
        · exact absurd hk List.not_mem_nil

variable {B} (hB : B.Lawful T.kernelSize) {Q : κ → Prop} {m : Map T ν}
include hB

/-- A rebuild starts the sequences of stored keys. -/
theorem KeysIn.startsResize (hq : KeysIn Q m) (h : Exact m) {end_ : ℕ} {k : κ}
    (hk : k ∈ startsResize B m end_) : Q k := by
  unfold Map.startsResize at hk
  split at hk
  · split_ifs at hk
    · exact absurd hk List.not_mem_nil
    · obtain ⟨p, hp, rfl⟩ := mem_startsRehash B 64 hk
      rw [positions_eq hB h.toSound] at hp
      exact hq p (h.toShape.mem_positions.mp hp)
  · exact absurd hk List.not_mem_nil

theorem KeysIn.startsGrow (hq : KeysIn Q m) (h : Exact m) {next : Map T ν → List κ}
    (hnext : ∀ m', Exact m' → KeysIn Q m' → ∀ k ∈ next m', Q k) {k : κ}
    (hk : k ∈ startsGrow B m next) : Q k := by
  unfold Map.startsGrow at hk
  split at hk
  · next end_ hend =>
      rcases List.mem_append.mp hk with hk | hk
      · exact hq.startsResize hB h hk
      · split at hk
        · next n m' hres =>
            have hcap := (isCapacity_shl1 h.toShape.isCapacity hend).1
            rw [(resize_agree hB h.toSound (Or.inr hcap)).1] at hres
            obtain ⟨hb, -⟩ := grown_spec h hend hres
            exact hnext m' hb.exact (hq.of_entries_eq hb.entries_eq) k hk
        · exact absurd hk List.not_mem_nil
  · exact absurd hk List.not_mem_nil

theorem KeysIn.startsInsertLoop {key : κ} (hkey : Q key) : ∀ (d : ℕ) {m : Map T ν}, Exact m →
    KeysIn Q m → ∀ k ∈ startsInsertLoop B key d m, Q k
  | 0, _, _, _, k, hk => absurd hk List.not_mem_nil
  | d + 1, m, h, hq, k, hk => by
      rw [Map.startsInsertLoop] at hk
      rcases List.mem_cons.mp hk with rfl | hk
      · exact hkey
      · split at hk
        · split_ifs at hk
          · exact absurd hk List.not_mem_nil
          · exact hq.startsGrow hB h (fun m' h' hq' => startsInsertLoop hkey d h' hq') hk
        · exact absurd hk List.not_mem_nil

theorem KeysIn.startsInsert (hq : KeysIn Q m) (h : Exact m) {key : κ} (hkey : Q key) {k : κ}
    (hk : k ∈ m.startsInsert B key) : Q k := by
  unfold Map.startsInsert at hk
  split_ifs at hk
  · refine hq.startsGrow hB h (fun m' h' hq' k hk => ?_) hk
    split_ifs at hk
    · exact absurd hk List.not_mem_nil
    · exact KeysIn.startsInsertLoop hB hkey 64 h' hq' k hk
  · exact KeysIn.startsInsertLoop hB hkey 64 h hq k hk

theorem KeysIn.startsErase (hq : KeysIn Q m) (h : Exact m) {key : κ} (hkey : Q key) {k : κ}
    (hk : k ∈ m.startsErase B key) : Q k := by
  unfold Map.startsErase at hk
  rcases List.mem_cons.mp hk with rfl | hk
  · exact hkey
  · rw [locateFirst_eq hB h.toSound] at hk
    split at hk
    · next pos b q hloc =>
        obtain ⟨hst, hb⟩ := locateFirst_stores h.toSound hloc pos b rfl
        dsimp only at hk
        split_ifs at hk
        · exact (hq.free h.toShape hst.1 b).startsResize hB (h.free hst.1 hb) hk
        · exact absurd hk List.not_mem_nil
    · exact absurd hk List.not_mem_nil

end Keys

/-! ### The results of a call -/

section Results
variable [Inhabited κ] [Inhabited ν] {m m' : Map T ν} (h : Exact m)
include h

omit [Inhabited ν] in
theorem locateFirst_ok (key : κ) : ∃ r, m.locateFirst ideal key = .ok r := by
  obtain ⟨e, he, hemp⟩ := h.exists_empty
  unfold locateFirst
  refine ((probe_cases h.toShape (fun j _ => m.FullUpTo key j) (fun _ => True)
    (fullUpTo_zero m key) (fun j s _ _ hfull => ?_) fun _ _ _ _ _ => trivial).resolve_right
      fun ⟨_, _, hfull⟩ => h.not_all_full he hemp key hfull).imp fun _ hr => hr.1
  dsimp only
  split
  · exact trivial
  · split_ifs with hb
    · exact trivial
    · exact hfull.succ fun hc => hb ((h.hasEmpty_iff (h.visit_add_le key j)).mpr hc)

/-- `resize_` fails only when the capacity leaves the range of `int_t`. -/
theorem resize_error {end_ : ℕ} (hend : end_ ≤ m.conf.minCapacity ∨ IsCapacity end_) {e : Err}
    (hr : m.resize_ ideal end_ = .error e) : e = .overflow := by
  rcases resize_cases h hend with ⟨he, -⟩ | ⟨n, m', hr', -⟩
  · exact Except.error.inj (hr.symm.trans he)
  · cases hr.symm.trans hr'

/-- After a growth the table is not full, whatever its probe sequence. -/
theorem not_isFull_of_grown {end_ n : ℕ} (hend : shl1 m.capacity = .ok end_)
    (hr : m.resize_ ideal end_ = .ok (n, m')) : m'.isFull = false := by
  obtain ⟨hb, hle, -⟩ := grown_spec h hend hr
  have hlt := h.card_entries_lt
  have hthr := m'.conf.two_mul_growThreshold hb.exact.minCapacity_le
  have hgrow := hb.exact.growThreshold_eq
  have hempty := hb.numEmpty_eq
  have hcap := hb.capacity_eq
  rw [isFull, Conf.shouldGrowPrecalc, decide_eq_false_iff_not]
  omega

/-- Growing fails only when the capacity leaves the range of `int_t`. -/
theorem grow_error {e : Err} {α : Type} {f : ℕ × Map T ν → Except Err α}
    (hr : (do f (← resize_ ideal m (← shl1 m.capacity))) = Except.error e) :
    e = .overflow ∨ ∃ end_ r, shl1 m.capacity = .ok end_ ∧ m.resize_ ideal end_ = .ok r ∧
      f r = .error e := by
  rcases bind_eq_error.mp hr with hend | ⟨end_, hend, hr⟩
  · exact Or.inl (shl1_error hend).1
  · rcases bind_eq_error.mp hr with hres | ⟨r, hres, hr⟩
    · exact Or.inl
        (resize_error h (Or.inr (isCapacity_shl1 h.toShape.isCapacity hend).1) hres)
    · exact Or.inr ⟨end_, r, hend, hres, hr⟩

omit h in
theorem insertLoop_error {key : κ} {e : Err} : ∀ (d : ℕ) {m : Map T ν}, Exact m →
    insertLoop ideal key d m = .error e → e ∉ assertErrors
  | 0, _, _, hr => by
      obtain rfl := Except.error.inj hr
      decide
  | d + 1, m, h, hr => by
      obtain ⟨r, hplaced, heq⟩ := insertLoop_succ h key d
      rw [heq] at hr
      cases r with
      | some r => cases hr
      | none =>
          dsimp only at hr
          split_ifs at hr with hS
          · -- an unbounded sequence does not end
            obtain ⟨j, -, hn, -⟩ := hplaced
            rw [ProbeSeq.hasNext_of_unbounded _ hS] at hn
            cases hn
          · rcases grow_error h hr with rfl | ⟨end_, r, hend, hres, hr⟩
            · decide
            · exact insertLoop_error d (grown_spec h hend hres).1.exact hr

theorem insert_error {key : κ} {e : Err} (hr : m.insert ideal key = .error e) :
    e ∉ assertErrors := by
  unfold insert at hr
  split_ifs at hr
  · rcases grow_error h hr with rfl | ⟨end_, r, hend, hres, hr⟩
    · decide
    · dsimp only at hr
      rw [not_isFull_of_grown h hend hres, if_neg Bool.false_ne_true] at hr
      exact insertLoop_error 64 (grown_spec h hend hres).1.exact hr
  · exact insertLoop_error 64 h hr

theorem autoShrinkAndScub_error {n : ℤ} (hno : m.wouldScrub n = false) {e : Err}
    (hr : autoShrinkAndScub ideal m n = .error e) : e = .overflow := by
  unfold autoShrinkAndScub at hr
  split_ifs at hr with hshrink hscrub
  · rcases bind_eq_error.mp hr with hres | ⟨r, -, hr⟩
    · exact resize_error h h.toShape.half_capacity hres
    · cases hr
  · rw [wouldScrub, Bool.eq_false_of_not_eq_true hshrink, hscrub] at hno
    cases hno

/-- An erase that does not scrub. -/
theorem eraseFirst_error {key : κ} (hs : m.scrubArg ideal (.eraseFirst key : Op κ ν) = none)
    {e : Err} (hr : m.eraseFirst ideal key = .error e) : e ∉ assertErrors := by
  obtain ⟨⟨r, q⟩, hloc⟩ := locateFirst_ok h key
  unfold eraseFirst at hr
  rw [hloc, ok_bind] at hr
  rcases r with _ | ⟨pos, b⟩
  · cases hr
  · obtain ⟨hst, hb⟩ := locateFirst_stores h.toSound hloc pos b rfl
    have hno : (m.free b pos).wouldScrub (burried b) = false := by
      rw [scrubArg, hloc, onFree, onScrub] at hs
      by_contra hc
      rw [if_pos (Bool.not_eq_false _ ▸ hc)] at hs
      cases hs
    dsimp only at hr
    unfold eraseSlot resetSlot at hr
    rcases bind_eq_error.mp hr with hr | ⟨r, -, hr⟩
    · rcases bind_eq_error.mp hr with hr | ⟨r, -, hr⟩
      · rw [autoShrinkAndScub_error (h.free hst.1 hb) hno hr]
        decide
      · cases hr
    · cases hr

omit [Inhabited ν] in
theorem inBounds {B : BucketOps} (hB : B.Lawful T.kernelSize) : InBounds B m where
  off _ _ := Nat.and_le_right
  slot key j i hi := by
    have ho := h.visit_add_le key j
    have hK := T.kernelSize_pos
    have hb := h.toSound.isBucket (h.dvd_visit key j) (by omega)
    suffices hlt : i < T.kernelSize from ⟨hlt, by omega⟩
    simp only [List.mem_append] at hi
    rcases hi with ((hi | hi) | hi) | hi
    · obtain ⟨c, hc, -⟩ := hB.hits _ (keyState T key) hb (isHash_keyState T key)
      rw [hc] at hi
      exact List.mem_range.mp (List.mem_of_mem_filter hi)
    · rw [hB.notHashes _ hb] at hi
      exact hb.1 ▸ (mem_slots.mp hi).1
    · rw [hB.tombstones _ hb] at hi
      exact hb.1 ▸ (mem_slots.mp hi).1
    · rw [hB.empties _ hb] at hi
      exact hb.1 ▸ (mem_slots.mp hi).1

end Results

/-! ### Runs -/

section Runs
variable [Inhabited κ] [Inhabited ν] (B : Kernel T.kernelSize) (conf : Conf T.conf)

/-- The key has a position that is not negative. -/
def FitsPos (T : MapType κ) (key : κ) : Prop := keyPos T key < 2 ^ 63

instance (T : MapType κ) (key : κ) : Decidable (FitsPos T key) :=
  inferInstanceAs (Decidable (_ < _))

/-- The calls of a program that does not scrub, and whose keys have positions that are not
negative. -/
def FitsRun (m : Map T ν) (op : Op κ ν) : Prop :=
  NoScrub B m op ∧ ∀ key ∈ op.keys, FitsPos T key

omit [Inhabited κ] [Inhabited ν] in
theorem posAsserts_iff (hal : T.seq.alignment = 0) (key : κ) :
    PosAsserts T key ↔ FitsPos T key := by
  rw [PosAsserts, toRawPos_nonneg_iff (keyPos_lt T key)]
  exact ⟨fun hp => hp hal, fun hp _ => hp⟩

/-- Searching, inserting and erasing a key in a reached map. -/
theorem asserts_iff (hal : T.seq.alignment = 0) {m : Map T ν}
    (hm : (runs B conf (FitsRun B)).Reachable m) :
    InBounds B.ops m ∧ ∀ key,
      (Asserts T [key] (m.findFirst B.ops key) ∧
        Asserts T (m.startsInsert B.ops key) (m.insert B.ops key) ∧
        (NoScrub B m (.eraseFirst key) →
          Asserts T (m.startsErase B.ops key) (m.eraseFirst B.ops key))) ↔ FitsPos T key := by
  obtain ⟨h, -⟩ := exact_of_reachable B conf hm
  have hq := keysIn_of_reachable B conf (fun m op hop => hop.2) hm
  refine ⟨inBounds h B.lawful, fun key => ⟨fun hall => ?_, fun hkey => ⟨?_, ?_, ?_⟩⟩⟩
  · have hfind := hall.1
    exact (posAsserts_iff hal key).mp (hfind.pos key List.mem_cons_self)
  · refine ⟨fun k hk => ?_, fun e he hr => ?_⟩
    · rw [List.mem_singleton.mp hk]
      exact (posAsserts_iff hal key).mpr hkey
    · obtain ⟨r, hloc⟩ := locateFirst_ok h key
      rw [findFirst_eq B.lawful h.toSound, findFirst, hloc] at hr
      cases hr
  · refine ⟨fun k hk => ?_, fun e he hr => ?_⟩
    · exact (posAsserts_iff hal k).mpr (hq.startsInsert B.lawful h hkey hk)
    · rw [(insert_agree B.lawful h.toSound key).1] at hr
      exact insert_error h hr he
  · refine fun hno => ⟨fun k hk => ?_, fun e he hr => ?_⟩
    · exact (posAsserts_iff hal k).mpr (hq.startsErase B.lawful h hkey hk)
    · rw [(eraseFirst_agree B.lawful h.toSound key).1] at hr
      rw [NoScrub, scrubArg_eq B.lawful h.toSound] at hno
      exact eraseFirst_error h hno hr he

end Runs

end Map

/-! ### Caches -/

namespace Cache
variable {κ ν : Type} {T : CacheType κ} [Inhabited κ]

/-- The slots that a call can get from the masks of the bucket of a key. -/
def probedSlots (B : BucketOps) (c : Cache T ν) (key : κ) : List ℕ :=
  B.hits (c.bucket (c.home key)) (keyState T key) ++ B.notHashes (c.bucket (c.home key)) ++
    [B.minLruSlot (c.lrus (c.home key))]

/-- No assertion fails while a key is searched, inserted or erased: these calls start the sequence
of the key and stay in its bucket. -/
structure Asserts (B : BucketOps) (c : Cache T ν) (key : κ) : Prop where
  pos : Map.PosAsserts T.toMapType key
  psl : (initSeq T key).psl < c.capacity
  off : c.home key ≤ c.bucketMask
  slot : ∀ i ∈ c.probedSlots B key, i < T.kernelSize ∧ c.home key + i < c.capacity

/-- A call has started the sequence of `key` only, and its position is a slot that it probes. -/
def Probes (B : BucketOps) (c : Cache T ν) (key : κ) (pos : Option ℕ) (seq : ProbeSeq) : Prop :=
  seq = initSeq T key ∧ ∀ p ∈ pos, ∃ i ∈ c.probedSlots B key, p = c.home key + i

theorem firstMatch_mem {c : Cache T ν} {off i : ℕ} {key : κ} {l : List ℕ}
    (h : c.firstMatch off key l = some i) : i ∈ l := List.mem_of_find?_eq_some h

theorem findFirst_probes (B : BucketOps) (c : Cache T ν) (key : κ) :
    c.Probes B key (c.findFirst B key).1.1 (c.findFirst B key).1.2 := by
  unfold findFirst
  dsimp only
  split
  · next i hi =>
      refine ⟨rfl, ?_⟩
      rintro p ⟨⟩
      exact ⟨i, by simp [probedSlots, firstMatch_mem hi], rfl⟩
  · exact ⟨rfl, fun p hp => by cases hp⟩

theorem eraseFirst_probes (B : BucketOps) (c : Cache T ν) (key : κ) :
    c.Probes B key (c.eraseFirst B key).1.2.1 (c.eraseFirst B key).1.2.2 := by
  unfold eraseFirst
  dsimp only
  split
  · next i hi =>
      refine ⟨rfl, ?_⟩
      rintro p ⟨⟩
      exact ⟨i, by simp [probedSlots, firstMatch_mem hi], rfl⟩
  · exact ⟨rfl, fun p hp => by cases hp⟩

theorem insert_probes (B : BucketOps) (c : Cache T ν) (key : κ) :
    c.Probes B key (some (c.insert B key).1.1) (c.insert B key).1.2.2 := by
  unfold insert
  dsimp only
  split
  · next i hi =>
      refine ⟨rfl, ?_⟩
      rintro p ⟨⟩
      unfold findInBucket at hi
      split_ifs at hi
      exact ⟨i, by simp [probedSlots, firstMatch_mem hi], rfl⟩
  · split
    · next i hi =>
        refine ⟨rfl, ?_⟩
        rintro p ⟨⟩
        exact ⟨i, by simp [probedSlots, List.mem_of_mem_head? hi], rfl⟩
    · refine ⟨rfl, ?_⟩
      rintro p ⟨⟩
      exact ⟨_, by simp [probedSlots], rfl⟩

theorem Inv.asserts_iff {c : Cache T ν} (h : Inv c) {B : BucketOps} (hB : B.Lawful T.kernelSize)
    (key : κ) : Asserts B c key ↔ Map.FitsPos T.toMapType key := by
  have hs := h.shape.isSlot_home key (kernelSize_pos T)
  have hle := h.shape.add_le hs
  have hK := kernelSize_pos T
  have hb := h.isBucket hs.dvd hs.lt
  have hl := length_lrus h.shape hs.dvd hs.lt
  refine ⟨fun hc => (Map.posAsserts_iff rfl key).mp hc.pos, fun hkey =>
    ⟨(Map.posAsserts_iff rfl key).mpr hkey, ?_, Nat.and_le_right, fun i hi => ?_⟩⟩
  · have hpsl : (initSeq T key).psl = 0 := ProbeSeq.init_psl T.seq _
    omega
  · suffices hlt : i < T.kernelSize from ⟨hlt, by omega⟩
    simp only [probedSlots, List.mem_append, List.mem_singleton] at hi
    rcases hi with (hi | hi) | rfl
    · obtain ⟨c, hc, -⟩ := hB.hits _ (keyState T key) hb (Map.isHash_keyState T.toMapType key)
      rw [hc] at hi
      exact List.mem_range.mp (List.mem_of_mem_filter hi)
    · rw [hB.notHashes _ hb] at hi
      exact hb.1 ▸ (mem_slots.mp hi).1
    · rw [hB.minLruSlot _ hl]
      have hmin := (isFirstMin_minLru (l := c.lrus (c.home key)) (by omega)).lt
      rwa [hl] at hmin

end Cache

/-! ### Main result -/

section Main
variable {κ ν : Type} [Inhabited κ] [Inhabited ν]
  {T : MapType κ} (B : Kernel T.kernelSize) (conf : Conf T.conf)
  {C : CacheType κ} (B' : Kernel C.kernelSize) (conf' : Conf C.conf)

/-- Searching, inserting and erasing a key fails no assertion of the probe machinery exactly if
`hash_to_pos` of its hash is below `2 ^ 63`: in every cache, and in every map with a sequence
without alignment that a program reaches without scrubbing and with such keys only. -/
theorem probe_asserts_iff (hal : T.seq.alignment = 0) {m : Map T ν}
    (hm : (Map.runs B conf (Map.FitsRun B)).Reachable m) {c : Cache C ν}
    (hc : (Cache.runs B' conf').Reachable c) :
    (Map.InBounds B.ops m ∧ ∀ key,
      (Map.Asserts T [key] (m.findFirst B.ops key) ∧
        Map.Asserts T (m.startsInsert B.ops key) (m.insert B.ops key) ∧
        (Map.NoScrub B m (.eraseFirst key) →
          Map.Asserts T (m.startsErase B.ops key) (m.eraseFirst B.ops key))) ↔
        hashToPos T.layout T.conf.kernelBits (T.key.hash key) < 2 ^ 63) ∧
      ∀ key, Cache.Asserts B'.ops c key ↔
        hashToPos C.layout C.conf.kernelBits (C.key.hash key) < 2 ^ 63 :=
  ⟨Map.asserts_iff B conf hal hm,
    (Cache.inv_of_reachable B' conf' hc).asserts_iff B'.lawful⟩

/-- A new cache and a new map, and keys whose hashes make the position negative. -/
theorem probe_assert_fails :
    (∃ rs c, Cache.wordExec 1 false [] = .ok (rs, c) ∧
      ¬ Cache.Asserts (Map.wordKernel 1 false).ops c (2 ^ 62 : Fin (2 ^ 64))) ∧
    ∃ rs m, Map.shortExec false [] = .ok (rs, m) ∧
      ¬ Map.Asserts (Map.shortMap false) [(2 ^ 63 : Fin (2 ^ 64))]
        (m.findFirst (Map.wordKernel 0 false).ops (2 ^ 63 : Fin (2 ^ 64))) := by
  obtain ⟨rs, c, hr, -, -⟩ := Cache.exists_wordExec 1 false [] (fun _ => ()) ()
    (by decide +kernel)
  obtain ⟨rs', m, hr', -, -⟩ := Map.exists_exec (T := Map.shortMap false)
    (Map.wordKernel 0 false) (Map.wordConf 0 false) []
    (fun _ : List Map.Result × Map (Map.shortMap false) ℕ => ()) () (by decide +kernel)
  refine ⟨⟨rs, c, hr, fun hc => ?_⟩, rs', m, hr', fun hm => ?_⟩
  · have hpos := (Map.posAsserts_iff rfl _).mp hc.pos
    exact absurd hpos (by decide)
  · have hpos := (Map.posAsserts_iff (T := Map.shortMap false) rfl _).mp
      (hm.pos _ List.mem_cons_self)
    exact absurd hpos (by decide)

/-- Entries 0 and 8. -/
theorem probe_asserts_words : ∃ rs m rs' c,
    Map.shortExec false [.insert 0, .insert 8] = .ok (rs, m) ∧
      Cache.wordExec 1 false [.insert 0, .insert 8] = .ok (rs', c) ∧ m.size = 2 ∧
      Map.Asserts (Map.shortMap false) (m.startsInsert (Map.wordKernel 0 false).ops 16)
        (m.insert (Map.wordKernel 0 false).ops 16) ∧
      Cache.Asserts (Map.wordKernel 1 false).ops c 16 := by
  obtain ⟨rs, m, hr, -, hsize⟩ := Map.exists_exec (T := Map.shortMap false)
    (Map.wordKernel 0 false) (Map.wordConf 0 false) [.insert 0, .insert 8]
    (fun x : List Map.Result × Map (Map.shortMap false) ℕ => x.2.size) 2 (by decide +kernel)
  obtain ⟨rs', c, hr', -, -⟩ := Cache.exists_wordExec 1 false [.insert 0, .insert 8]
    (fun _ => ()) () (by decide +kernel)
  have hm : (Map.runs (T := Map.shortMap false) (Map.wordKernel 0 false) (Map.wordConf 0 false)
      (Map.FitsRun (Map.wordKernel 0 false))).Reachable m := by
    refine Map.reachable_of_exec _ _ (fun op hop m => ⟨?_, ?_⟩) hr
    · exact Map.noScrub_of_isScrub _ rfl (by simp [Map.Op.isScrub]) op hop m
    · intro key hkey
      simp only [List.mem_cons, List.not_mem_nil, or_false] at hop
      rcases hop with rfl | rfl <;> rw [List.mem_singleton.mp hkey] <;> decide
  obtain ⟨hmap, hcache⟩ := probe_asserts_iff (T := Map.shortMap false) (Map.wordKernel 0 false)
    (Map.wordConf 0 false) (C := Cache.wordCache 1 false) (Map.wordKernel 1 false)
    (Map.wordConf 1 false) rfl hm (Cache.reachable_of_exec _ _ hr')
  exact ⟨rs, m, rs', c, hr, hr', hsize, ((hmap.2 16).mpr (by decide)).2.1,
    (hcache 16).mpr (by decide)⟩

end Main

end Nvhm
