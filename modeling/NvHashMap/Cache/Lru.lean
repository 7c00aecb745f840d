import NvHashMap.Cache.Run

/-! # The counters of a cache

What the calls do to the LRU counters: an access increments the counter of its slot, and halves all
counters of the bucket before if that one is saturated; an insert into a full bucket takes the
first slot of the least counter. -/

namespace Nvhm

open Buffer SlotCount
open Map (Result)

/-! ### Buckets of counters -/

/-- The counter of the slot `i` is incremented: on its own if it is not saturated, and otherwise
after all counters were halved.  The other counters keep their order, and a counter that was not
above that of `i` is below it. -/
structure Bumped (l l' : ℕ → ℕ) (K i : ℕ) : Prop where
  alone : l i < maxLru.toNat → l' i = l i + 1 ∧ ∀ j < K, j ≠ i → l' j = l j
  halved : l i = maxLru.toNat → ∀ j < K, l' j = l j / 2 + if j = i then 1 else 0
  mono : ∀ a < K, ∀ b < K, a ≠ i → b ≠ i → l a ≤ l b → l' a ≤ l' b
  top : ∀ j < K, j ≠ i → l j ≤ l i → l' j < l' i

theorem Bumped.congr {l l' k k' : ℕ → ℕ} {K i : ℕ} (h : Bumped l l' K i) (hi : i < K)
    (hl : ∀ j < K, k j = l j) (hl' : ∀ j < K, k' j = l' j) : Bumped k k' K i := by
  refine ⟨fun hk => ⟨?_, fun j hj hne => ?_⟩, fun hk j hj => ?_, fun a ha b hb hai hbi hab => ?_,
    fun j hj hne hle => ?_⟩
  · rw [hl' i hi, hl i hi]
    exact (h.alone (hl i hi ▸ hk)).1
  · rw [hl' j hj, hl j hj]
    exact (h.alone (hl i hi ▸ hk)).2 j hj hne
  · rw [hl' j hj, hl j hj]
    exact h.halved (hl i hi ▸ hk) j hj
  · rw [hl' a ha, hl' b hb]
    rw [hl a ha, hl b hb] at hab
    exact h.mono a ha b hb hai hbi hab
  · rw [hl' j hj, hl' i hi]
    rw [hl j hj, hl i hi] at hle
    exact h.top j hj hne hle

/-- No counter wraps around. -/
theorem toNat_bumpLru {l : List Lru} {i j : ℕ} (hj : j < l.length) :
    ((bumpLru l i).getD j 0).toNat = (if maxLru.toNat ≤ (l.getD i 0).toNat
      then (l.getD j 0).toNat / 2 else (l.getD j 0).toNat) + if j = i then 1 else 0 := by
  have hmax : maxLru.toNat = 255 := rfl
  have hlt := (l.getD j 0).isLt
  rw [getD_bumpLru l i hj]
  split_ifs with hr hji hji
  · rw [BitVec.toNat_add, BitVec.toNat_ushiftRight, Nat.shiftRight_eq_div_pow]
    change (_ / 2 + 1) % 256 = _ / 2 + 1
    omega
  · rw [add_zero, BitVec.toNat_ushiftRight, Nat.shiftRight_eq_div_pow]
    rfl
  · rw [BitVec.toNat_add]
    change (_ + 1) % 256 = _ + 1
    rw [← hji] at hr
    omega
  · rw [add_zero]
    rfl

theorem bumped_bumpLru {l : List Lru} {i : ℕ} (hi : i < l.length) :
    Bumped (fun j => (l.getD j 0).toNat) (fun j => ((bumpLru l i).getD j 0).toNat) l.length i := by
  have hmax : maxLru.toNat = 255 := rfl
  have hlt := (l.getD i 0).isLt
  refine ⟨fun h => ⟨?_, fun j hj hne => ?_⟩, fun h j hj => ?_, fun a ha b hb hai hbi hab => ?_,
    fun j hj hne hle => ?_⟩
  · rw [toNat_bumpLru hi, if_neg (by omega), if_pos rfl]
  · rw [toNat_bumpLru hj, if_neg (by omega), if_neg hne, add_zero]
  · rw [toNat_bumpLru hj, if_pos h.ge]
  · rw [toNat_bumpLru ha, toNat_bumpLru hb, if_neg hai, if_neg hbi]
    split_ifs <;> omega
  · rw [toNat_bumpLru hj, toNat_bumpLru hi, if_neg hne, if_pos rfl]
    split_ifs <;> omega

/-! ### Counters by slot -/

variable {κ ν : Type} {T : CacheType κ} [Inhabited κ]

namespace Cache

section Slots
variable {m : Cache T ν} (h : Shape m)
include h

omit [Inhabited κ] in
theorem lruAt_add {o i : ℕ} (hs : m.IsSlot o i) (m' : Cache T ν) :
    m'.lruAt (o + i) = m'.lruAtIdx (o * 2 + i) := by
  unfold lruAt
  rw [posToPos2_add h hs]

omit [Inhabited κ] h in
theorem lrus_getD {o i : ℕ} (hi : i < T.kernelSize) :
    (m.lrus o).getD i 0 = m.lruAtIdx (o * 2 + i) := by
  unfold lrus lruAtIdx
  rw [getD_readAt _ _ _ _ _ hi, add_assoc]

omit [Inhabited κ] in
/-- A bucket of counters is stored. -/
theorem lruAtIdx_storeLru {o o' i' : ℕ} (hd : T.kernelSize ∣ o) (ho : o < m.capacity)
    {l : List Lru} (hl : l.length = T.kernelSize) (hs : m.IsSlot o' i') :
    (m.storeLru o l).lruAtIdx (o' * 2 + i') =
      if o' = o then l.getD i' 0 else m.lruAtIdx (o' * 2 + i') := by
  have hi := hs.idx_lt
  have hlen : T.kernelSize + o * 2 + l.length ≤ m.statesAndLrus.length := by
    have hle := h.add_le (⟨hd, ho, kernelSize_pos T⟩ : m.IsSlot o 0)
    rw [hl, h.length]
    omega
  unfold lruAtIdx storeLru
  dsimp only
  rw [getD_writeAt hlen]
  by_cases heq : o' = o
  · subst heq
    rw [if_pos ⟨by omega, by omega⟩, if_pos rfl]
    congr 1
    omega
  · rw [if_neg heq, if_neg]
    rintro ⟨h1, h2⟩
    refine heq (index_inj hs (⟨hd, ho, ?_⟩ : m.IsSlot o (o' * 2 + i' - o * 2)) ?_).1
    · omega
    · omega

omit [Inhabited κ] h in
/-- A state is written. -/
theorem lruAtIdx_setState {o i o' i' : ℕ} (hs : m.IsSlot o i) (hs' : m.IsSlot o' i') (s : State) :
    (m.setState (o * 2 + i) s).lruAtIdx (o' * 2 + i') = m.lruAtIdx (o' * 2 + i') := by
  unfold lruAtIdx setState
  exact getD_set_ne (index_ne hs hs') _ _

omit [Inhabited κ] in
/-- A counter is written. -/
theorem lruAtIdx_setLru {o i o' i' : ℕ} (hs : m.IsSlot o i) (hs' : m.IsSlot o' i') (l : Lru) :
    (m.setLru (o * 2 + i) l).lruAtIdx (o' * 2 + i') =
      if o' = o ∧ i' = i then l else m.lruAtIdx (o' * 2 + i') := by
  unfold lruAtIdx setLru
  dsimp only
  by_cases heq : o' = o ∧ i' = i
  · obtain ⟨rfl, rfl⟩ := heq
    rw [if_pos ⟨rfl, rfl⟩]
    exact getD_set_self (by rw [h.length]; exact h.index_lt hs) _ _
  · rw [if_neg heq]
    refine getD_set_ne (fun hc => heq ?_) _ _
    exact index_inj hs' hs (by omega)

omit [Inhabited κ] in
/-- A state and its counter are written. -/
theorem lruAt_put {o i : ℕ} (hs : m.IsSlot o i) (s : State) (l : Lru) {p : ℕ}
    (hp : p < m.capacity) :
    ((m.setState (o * 2 + i) s).setLru (o * 2 + i) l).lruAt p =
      if p = o + i then l else m.lruAt p := by
  obtain ⟨j, hs', heq⟩ := exists_isSlot hp
  have hset := (h.setState hs s).1
  have hput := lruAtIdx_setLru hset (o := o) (i := i) ⟨hs.dvd, hs.lt, hs.idx_lt⟩
    ⟨hs'.dvd, hs'.lt, hs'.idx_lt⟩ l
  rw [lruAtIdx_setState hs hs'] at hput
  rw [heq, lruAt_add h hs', lruAt_add h hs', hput]
  have hoff := MapType.off_add (T := T.toMapType) hs.dvd hs.idx_lt
  by_cases hpo : T.toMapType.off p = o ∧ j = i
  · rw [if_pos hpo, if_pos (by rw [hpo.1, hpo.2])]
  · rw [if_neg hpo, if_neg]
    intro hc
    rw [← hc, ← heq] at hoff
    exact hpo ⟨hoff, by omega⟩

omit [Inhabited κ] in
/-- The states of a bucket are stored. -/
theorem lruAtIdx_storeBucket {o o' i' : ℕ} (hd : T.kernelSize ∣ o) (ho : o < m.capacity)
    {k : List State} (hk : k.length = T.kernelSize) (hs : m.IsSlot o' i') :
    (m.storeBucket o k).lruAtIdx (o' * 2 + i') = m.lruAtIdx (o' * 2 + i') := by
  have hlen : o * 2 + k.length ≤ m.statesAndLrus.length := by
    have hle := h.add_le (⟨hd, ho, kernelSize_pos T⟩ : m.IsSlot o 0)
    rw [hk, h.length]
    omega
  unfold lruAtIdx storeBucket
  dsimp only
  rw [getD_writeAt hlen, if_neg]
  rintro ⟨h1, h2⟩
  refine index_ne (⟨hd, ho, ?_⟩ : m.IsSlot o (T.kernelSize + (o' * 2 + i') - o * 2)) hs ?_
  · omega
  · omega

end Slots

/-! ### Accesses and replacements -/

/-- An access to the slot `i` of a bucket: only counters of this bucket change. -/
structure Touched (m m' : Cache T ν) (o i : ℕ) : Prop where
  isSlot : m.IsSlot o i
  conf : m'.conf = m.conf
  bucketMask : m'.bucketMask = m.bucketMask
  keys : m'.keys = m.keys
  values : m'.values = m.values
  blobs : m'.blobs = m.blobs
  numEmpty : m'.numEmpty = m.numEmpty
  stateAt : ∀ p < m.capacity, m'.stateAt p = m.stateAt p
  lruAt : ∀ p < m.capacity, T.toMapType.off p ≠ o → m'.lruAt p = m.lruAt p
  bumped : Bumped (fun j => (m.lruAt (o + j)).toNat) (fun j => (m'.lruAt (o + j)).toNat)
    T.kernelSize i

omit [Inhabited κ] in
theorem Shape.touched {m : Cache T ν} (h : Shape m) {o i : ℕ} (hs : m.IsSlot o i) :
    Touched m (m.touch ideal o i) o i := by
  have hlen := length_lrus h hs.dvd hs.lt
  have hbump : (bumpLru (m.lrus o) i).length = T.kernelSize := (length_bumpLru _ _).trans hlen
  have hlru : ∀ o' j, m.IsSlot o' j → (m.touch ideal o i).lruAt (o' + j) =
      if o' = o then (bumpLru (m.lrus o) i).getD j 0 else m.lruAt (o' + j) := by
    intro o' j hs'
    rw [lruAt_add h hs', lruAt_add h hs']
    exact lruAtIdx_storeLru h hs.dvd hs.lt hbump hs'
  refine ⟨hs, rfl, rfl, rfl, rfl, rfl, rfl, fun p hp => ?_, fun p hp hne => ?_, ?_⟩
  · have ht := (h.touch hs).2
    rw [← table_stateAt m hp, ← ht]
    exact (table_stateAt (m.touch ideal o i) hp).symm
  · obtain ⟨j, hs', heq⟩ := exists_isSlot hp
    rw [heq, hlru _ _ hs', if_neg hne]
  · have hb := bumped_bumpLru (l := m.lrus o) (i := i) (by rw [hlen]; exact hs.idx_lt)
    rw [hlen] at hb
    have hold : ∀ j < T.kernelSize, (m.lruAt (o + j)).toNat = ((m.lrus o).getD j 0).toNat := by
      intro j hj
      rw [lrus_getD hj, lruAt_add h ⟨hs.dvd, hs.lt, hj⟩]
    have hnew : ∀ j < T.kernelSize, ((m.touch ideal o i).lruAt (o + j)).toNat =
        ((bumpLru (m.lrus o) i).getD j 0).toNat := by
      intro j hj
      rw [hlru o j ⟨hs.dvd, hs.lt, hj⟩, if_pos rfl]
    exact hb.congr hs.idx_lt hold hnew

/-- The slot `i` of a bucket is overwritten with a key. -/
structure Replaced (m m' : Cache T ν) (o i : ℕ) (key : κ) : Prop where
  isSlot : m.IsSlot o i
  conf : m'.conf = m.conf
  bucketMask : m'.bucketMask = m.bucketMask
  values : m'.values = m.values
  blobs : m'.blobs = m.blobs
  stored : m'.keyAt (o + i) = key
  state : m'.stateAt (o + i) = keyState T key
  lru : m'.lruAt (o + i) = defaultLru
  keyAt : ∀ p < m.capacity, p ≠ o + i → m'.keyAt p = m.keyAt p
  stateAt : ∀ p < m.capacity, p ≠ o + i → m'.stateAt p = m.stateAt p
  lruAt : ∀ p < m.capacity, p ≠ o + i → m'.lruAt p = m.lruAt p

theorem Inv.replaced {m : Cache T ν} (h : Inv m) {o i : ℕ} (hs : m.IsSlot o i) (key : κ)
    (op : InsertOp) : Replaced m (m.place o i key op) o i key := by
  have hlt := h.shape.add_lt hs
  obtain ⟨hshape, ht⟩ := h.shape.place hs key op
  have hst : (m.place o i key op).table.stateAt =
      Function.update m.table.stateAt (o + i) (keyState T key) := by
    rw [ht]
    exact Map.occupy_stateAt h.sound.toShape hlt key 1
  have hk : (m.place o i key op).keyAt = Function.update m.keyAt (o + i) key := by
    change (m.place o i key op).table.keyAt = _
    rw [ht]
    exact Map.occupy_keyAt h.sound.toShape hlt key 1
  have hlru : ∀ p < m.capacity, (m.place o i key op).lruAt p =
      if p = o + i then defaultLru else m.lruAt p :=
    fun p hp => lruAt_put h.shape hs (keyState T key) defaultLru hp
  refine ⟨hs, rfl, rfl, rfl, rfl, ?_, ?_, ?_, fun p hp hne => ?_, fun p hp hne => ?_,
    fun p hp hne => ?_⟩
  · rw [hk, Function.update_self]
  · rw [← table_stateAt (m.place o i key op) hlt, hst, Function.update_self]
  · rw [hlru _ hlt, if_pos rfl]
  · rw [hk, Function.update_of_ne hne]
  · rw [← table_stateAt (m.place o i key op) hp, hst, Function.update_of_ne hne,
      table_stateAt m hp]
  · rw [hlru p hp, if_neg hne]

section Policy
variable [Inhabited ν] (B : Kernel T.kernelSize) (conf : Conf T.conf)

/-- Whatever was called on a cache: an insert of an absent key into a full bucket overwrites the
first slot of the least counter; and an insert or a search that finds the key touches its slot. -/
theorem replacement_policy {m : Cache T ν} (hm : (runs B conf).Reachable m) (key : κ) :
    (¬ m.Contains key → (∀ i < T.kernelSize, m.stateAt (m.home key + i) ≠ empty) →
      ∃ i, (∀ j < T.kernelSize,
          (m.lruAt (m.home key + i)).toNat ≤ (m.lruAt (m.home key + j)).toNat) ∧
        (∀ j < i, (m.lruAt (m.home key + i)).toNat < (m.lruAt (m.home key + j)).toNat) ∧
        (m.insert B.ops key).1 = (m.home key + i, .replace, initSeq T key) ∧
        (m.insert B.ops key).2.numEmpty = m.numEmpty ∧
        Replaced m (m.insert B.ops key).2 (m.home key) i key) ∧
      (T.duplicates = false → m.Contains key → (m.insert B.ops key).1.2.1 = .found) ∧
      ((m.insert B.ops key).1.2.1 = .found → ∃ i, (m.insert B.ops key).1.1 = m.home key + i ∧
        T.key.eq (m.keyAt (m.home key + i)) key = true ∧
        Touched m (m.insert B.ops key).2 (m.home key) i) ∧
      (m.Contains key → ∃ i, (m.findFirst B.ops key).1.1 = some (m.home key + i) ∧
        T.key.eq (m.keyAt (m.home key + i)) key = true ∧
        Touched m (m.findFirst B.ops key).2 (m.home key) i) := by
  have h := inv_of_reachable B conf hm
  have hs := h.shape.isSlot_home key (kernelSize_pos T)
  rw [(insert_agree B.lawful h key).1, (findFirst_agree B.lawful h key).1]
  refine ⟨fun hn hfull => ?_, fun hd hc => ?_, fun hop => ?_, fun hc => ?_⟩
  · have hlen := length_lrus h.shape hs.dvd hs.lt
    have hmin := isFirstMin_minLru (l := m.lrus (m.home key)) (hlen ▸ kernelSize_pos T)
    rw [hlen] at hmin
    have hlru : ∀ j < T.kernelSize, m.lruAt (m.home key + j) = (m.lrus (m.home key)).getD j 0 :=
      fun j hj => by rw [lrus_getD hj, lruAt_add h.shape (h.shape.isSlot_home key hj)]
    rcases h.insert_cases key with ⟨i, -, -, -, hst⟩ | ⟨-, i, op, heq, hsi, hcase⟩
    · exact absurd (.of_stores hst) hn
    · rcases hcase with ⟨-, he⟩ | ⟨rfl, -, rfl⟩
      · rw [table_stateAt m (h.shape.add_lt hsi)] at he
        exact absurd he (hfull i hsi.idx_lt)
      · rw [heq]
        refine ⟨_, fun j hj => ?_, fun j hj => ?_, rfl, sub_zero _, h.replaced hsi key _⟩
        · rw [hlru _ hsi.idx_lt, hlru j hj]
          exact hmin.eq ▸ hmin.le j hj
        · rw [hlru _ hsi.idx_lt, hlru j (hj.trans hsi.idx_lt)]
          exact hmin.eq ▸ hmin.first j hj
  · rcases h.insert_cases key with ⟨i, heq, -⟩ | ⟨hnew, -⟩
    · rw [heq]
    · exact absurd hc (hnew hd)
  · rcases h.insert_cases key with ⟨i, heq, hsi, -, hst⟩ | ⟨-, i, op, heq, hsi, hcase⟩
    · rw [heq]
      exact ⟨i, rfl, hst.2, h.shape.touched hsi⟩
    · rw [heq] at hop
      obtain rfl : op = .found := hop
      rcases hcase with ⟨hc, -⟩ | ⟨hc, -⟩ <;> cases hc
  · rcases h.findFirst_spec key with ⟨i, heq, hsi, hst⟩ | ⟨-, hn⟩
    · rw [heq]
      exact ⟨i, rfl, hst.2, h.shape.touched hsi⟩
    · exact absurd hc hn

/-- A full bucket with an older and a younger entry. -/
theorem replacement_policy_words : ∃ rs m,
    wordExec 1 false [.insert 0, .insert 8, .findFirst 0] = .ok (rs, m) ∧
      (∃ i, (m.insert (Map.wordKernel 1 false).ops 16).1.2.1 = .replace ∧
        Replaced m (m.insert (Map.wordKernel 1 false).ops 16).2 (m.home 16) i 16) ∧
      ∃ i, (m.findFirst (Map.wordKernel 1 false).ops 8).1.1 = some (m.home 8 + i) ∧
        Touched m (m.findFirst (Map.wordKernel 1 false).ops 8).2 (m.home 8) i := by
  obtain ⟨rs, m, hr, hinv, hf⟩ := exists_wordExec 1 false [.insert 0, .insert 8, .findFirst 0]
    (fun r => ((r.2.findFirst ideal 16).1.1.isSome, (r.2.findFirst ideal 8).1.1.isSome,
      (List.range 2).all fun i => r.2.stateAt (r.2.home 16 + i) != empty)) (false, true, true)
    (by decide +kernel)
  simp only [Prod.mk.injEq, List.all_eq_true, List.mem_range, bne_iff_ne] at hf
  obtain ⟨habsent, hpresent, hfull⟩ := hf
  have hm := reachable_of_exec (T := wordCache 1 false) (Map.wordKernel 1 false)
    (Map.wordConf 1 false) hr
  have hpolicy := replacement_policy (T := wordCache 1 false) (Map.wordKernel 1 false)
    (Map.wordConf 1 false) hm
  refine ⟨rs, m, hr, ?_, ?_⟩
  · have hn : ¬ m.Contains 16 := by
      rw [← hinv.findFirst_isSome_iff, habsent]
      decide
    obtain ⟨i, -, -, hres, -, hrep⟩ := (hpolicy 16).1 hn hfull
    exact ⟨i, by rw [hres], hrep⟩
  · obtain ⟨i, hres, -, ht⟩ := (hpolicy 8).2.2.2 ((hinv.findFirst_isSome_iff 8).mp hpresent)
    exact ⟨i, hres, ht⟩

end Policy

end Cache

end Nvhm
