import NvHashMap.Cache.Table

/-! # The invariant of a cache

Every entry lies in the home bucket of its key, under its fingerprint; without duplicates no key is
stored twice; there are no tombstones; and `num_empty_` is exact.

`Inv.put` is the step in which a slot gets a key, whether the slot was empty (`insert_`, `resize_`)
or held another key (the replacement of both), `Inv.free` the one in which a slot is freed. -/

namespace Nvhm

open Buffer SlotCount

variable {κ ν : Type} {T : CacheType κ} [Inhabited κ]

namespace Cache

structure Inv (m : Cache T ν) : Prop where
  sound : Map.Sound m.table
  length : m.statesAndLrus.length = m.capacity * 2
  minCapacity_le : m.conf.minCapacity ≤ m.capacity
  noTombstone : ∀ p < m.capacity, m.table.stateAt p ≠ tombstone
  numEmpty_eq : m.numEmpty = countSlots m.capacity (· == empty) m.table.stateAt
  home : ∀ p, m.table.Occupied p → T.toMapType.off p = m.home (m.keyAt p)
  unique : T.duplicates = false → ∀ p q, m.table.Occupied p → m.table.Occupied q →
    T.key.eq (m.keyAt p) (m.keyAt q) = true → p = q

section Inv
variable {m m' : Cache T ν}

theorem Inv.shape (h : Inv m) : Shape m := ⟨h.sound.toShape, h.length⟩

theorem Inv.kernelSize_le (h : Inv m) : T.kernelSize ≤ m.conf.minCapacity :=
  Conf.kernelSize_le h.sound.conf_valid

omit [Inhabited κ] in
theorem home_congr (m : Cache T ν) {a b : κ} (h : T.key.eq a b = true) : m.home a = m.home b := by
  unfold home initSeq
  rw [T.key.hash_congr h]

/-- A slot is empty or occupied. -/
theorem Inv.eq_empty (h : Inv m) {p : ℕ} (hp : p < m.capacity) (hn : ¬ m.table.Occupied p) :
    m.table.stateAt p = empty := by
  rcases h.sound.cases_state hp with he | ht | ho
  · exact he
  · exact absurd ht (h.noTombstone p hp)
  · exact absurd ho hn

/-- The bucket of a key that is stored is its home bucket. -/
theorem Inv.off_of_stores (h : Inv m) {key : κ} {p : ℕ} (hs : m.table.Stores key p) :
    T.toMapType.off p = m.home key :=
  (h.home p hs.1).trans (home_congr m hs.2)

/-! ### Steps -/

/-- A cache with the same table. -/
theorem Inv.same (h : Inv m) (hshape : Shape m') (ht : m'.table = m.table) : Inv m' := by
  have hcap : m'.capacity = m.capacity := congrArg Map.capacity ht
  have hkey : m'.keyAt = m.keyAt := congrArg Map.keyAt ht
  have hhome : ∀ key, m'.home key = m.home key := fun key => congrArg (fun t => t.visit key 0) ht
  have hconf : m'.conf = m.conf := congrArg Map.conf ht
  refine ⟨ht ▸ h.sound, hshape.length, ?_, ?_, ?_, ?_, ?_⟩
  · rw [hconf, hcap]
    exact h.minCapacity_le
  · rw [hcap, ht]
    exact h.noTombstone
  · rw [hcap, ht, ← h.numEmpty_eq]
    exact congrArg Map.numEmpty ht
  · intro p hp
    rw [ht] at hp
    rw [hkey, hhome]
    exact h.home p hp
  · rw [ht, hkey]
    exact h.unique

/-- A slot of the home bucket gets a key that is not stored. -/
theorem Inv.put (h : Inv m) (hshape : Shape m') (hf : Map.Frame m.table m'.table) {pos : ℕ}
    {key : κ} (hp : pos < m.capacity)
    (hst : m'.table.stateAt = Function.update m.table.stateAt pos (keyState T key))
    (hk : m'.table.keyAt = Function.update m.table.keyAt pos key)
    (hhome : T.toMapType.off pos = m.home key)
    (hnew : T.duplicates = false → ∀ q, ¬ m.table.Stores key q)
    (hnum : m'.numEmpty = m.numEmpty - if m.table.stateAt pos = empty then 1 else 0) : Inv m' := by
  have hcap : m'.capacity = m.capacity := hf.capacity
  have hconf : m'.conf = m.conf := hf.conf
  have hhash : isHash (keyState T key) = true := Map.isHash_keyState T.toMapType key
  have hhome' : ∀ k, m'.home k = m.home k := fun k => hf.visit k 0
  have hocc : ∀ {q}, q ≠ pos → (m'.table.Occupied q ↔ m.table.Occupied q) :=
    fun hq => Map.occupied_put hf hst hq
  have hkeyAt : m'.keyAt = Function.update m.keyAt pos key := hk
  refine ⟨h.sound.put hf hshape.table hst hk, hshape.length, ?_, ?_, ?_, ?_, ?_⟩
  · rw [hconf, hcap]
    exact h.minCapacity_le
  · intro q hq
    rw [hcap] at hq
    rw [hst]
    by_cases hqp : q = pos
    · rw [hqp, Function.update_self]
      exact ne_tombstone_of_isHash hhash
    · rw [Function.update_of_ne hqp]
      exact h.noTombstone q hq
  · have hcount := countSlots_update hp (· == empty) m.table.stateAt (keyState T key)
    have hne : (keyState T key == empty) = false := beq_false_of_ne (ne_empty_of_isHash hhash)
    simp only [hne, Bool.false_eq_true, if_false, beq_iff_eq] at hcount
    rw [hcap, hst, hnum, h.numEmpty_eq]
    split_ifs at hcount ⊢ <;> omega
  · intro q hq
    rw [hhome', hkeyAt]
    by_cases hqp : q = pos
    · rw [hqp, Function.update_self]
      exact hhome
    · rw [Function.update_of_ne hqp]
      exact h.home q ((hocc hqp).mp hq)
  · intro hd p q hp' hq heq
    have hno := hnew hd
    rw [hkeyAt] at heq
    by_cases hpp : p = pos <;> by_cases hqp : q = pos
    · rw [hpp, hqp]
    · rw [hpp, Function.update_self, Function.update_of_ne hqp] at heq
      exact absurd ⟨(hocc hqp).mp hq, T.key.eq_symm heq⟩ (hno q)
    · rw [hqp, Function.update_self, Function.update_of_ne hpp] at heq
      exact absurd ⟨(hocc hpp).mp hp', heq⟩ (hno p)
    · rw [Function.update_of_ne hpp, Function.update_of_ne hqp] at heq
      exact h.unique hd p q ((hocc hpp).mp hp') ((hocc hqp).mp hq) heq

/-- States that turn into empty ones. -/
theorem Inv.emptied (h : Inv m) (hshape : Shape m') (hf : Map.Frame m.table m'.table)
    (hst : ∀ p < m.capacity,
      m'.table.stateAt p = m.table.stateAt p ∨ m'.table.stateAt p = empty)
    (hk : m'.table.keyAt = m.table.keyAt)
    (hnum : m'.numEmpty = countSlots m.capacity (· == empty) m'.table.stateAt) : Inv m' := by
  have hcap : m'.capacity = m.capacity := hf.capacity
  have hconf : m'.conf = m.conf := hf.conf
  have hhome' : ∀ k, m'.home k = m.home k := fun k => hf.visit k 0
  have hkeyAt : m'.keyAt = m.keyAt := hk
  have hocc : ∀ q, m'.table.Occupied q → m.table.Occupied q := by
    rintro q ⟨hq, hc⟩
    have hlt : q < m.capacity := hcap ▸ hq
    refine ⟨hlt, ?_⟩
    rcases hst q hlt with he | he
    · unfold Map.containsAt at hc ⊢
      rwa [he] at hc
    · unfold Map.containsAt at hc
      rw [he] at hc
      cases hc
  refine ⟨h.sound.storeStates hf hshape.table hst hk, hshape.length, ?_, ?_, ?_, ?_, ?_⟩
  · rw [hconf, hcap]
    exact h.minCapacity_le
  · intro p hp
    rw [hcap] at hp
    rcases hst p hp with he | he <;> rw [he]
    · exact h.noTombstone p hp
    · exact empty_ne_tombstone
  · rw [hcap, hnum]
  · intro p hp
    rw [hhome', hkeyAt]
    exact h.home p (hocc p hp)
  · intro hd p q hp hq heq
    rw [hkeyAt] at heq
    exact h.unique hd p q (hocc p hp) (hocc q hq) heq

/-- An entry is freed. -/
theorem Inv.free (h : Inv m) {o i : ℕ} (hs : m.IsSlot o i) (ho : m.table.Occupied (o + i)) :
    Inv (m.resetSlot (o * 2 + i)) := by
  obtain ⟨hshape, ht⟩ := h.shape.resetSlot hs
  have hst := Map.free_stateAt h.sound.toShape true ho.1
  have hlt := h.shape.add_lt hs
  refine h.emptied hshape (ht ▸ Map.free_frame m.table true _) (fun p _ => ?_) ?_ ?_
  · rw [ht, hst]
    by_cases hp : p = o + i
    · rw [hp, Function.update_self]
      exact Or.inr rfl
    · rw [Function.update_of_ne hp]
      exact Or.inl rfl
  · rw [ht]
    exact Map.free_keyAt m.table true _
  · have hcount := countSlots_update hlt (· == empty) m.table.stateAt (Map.freed true)
    have hne : (m.table.stateAt (o + i) == empty) = false :=
      beq_false_of_ne (ne_empty_of_isHash ho.isHash)
    simp only [hne, Bool.false_eq_true, if_false, Map.freed, if_true, beq_self_eq_true] at hcount
    have hnum : (m.resetSlot (o * 2 + i)).numEmpty = m.numEmpty + 1 := rfl
    have := h.numEmpty_eq
    rw [ht, hst, hnum]
    simp only [Map.freed, if_true]
    omega

/-! ### Buckets -/

omit [Inhabited κ] in
theorem bucket_eq (h : Shape m) {o : ℕ} (hd : T.kernelSize ∣ o) (ho : o < m.capacity) :
    m.bucket o = m.table.bucket o := by
  have hle : o + T.kernelSize ≤ m.capacity := h.table.offset_add_le hd ho
  have hlen : (m.bucket o).length = T.kernelSize := by
    unfold bucket
    rw [length_readAt]
    rw [h.length]
    omega
  refine ext_getD tombstone (hlen.trans (h.table.bucket_length hle).symm) fun i hi => ?_
  rw [hlen] at hi
  have hs : m.IsSlot o i := ⟨hd, ho, hi⟩
  rw [Map.bucket_getD m.table o hi, table_stateAt m (h.add_lt hs), stateAt_add h hs]
  exact getD_readAt _ _ _ _ _ hi

omit [Inhabited κ] in
theorem bucket_getD (h : Shape m) {o i : ℕ} (hs : m.IsSlot o i) :
    (m.bucket o).getD i tombstone = m.table.stateAt (o + i) := by
  rw [bucket_eq h hs.dvd hs.lt]
  exact Map.bucket_getD m.table o hs.idx_lt

/-- Counted apart. -/
def credit (m : Cache T ν) (n : ℤ) : Cache T ν := { m with numEmpty := m.numEmpty + n }

omit [Inhabited κ] in
theorem Shape.credit (h : Shape m) (n : ℤ) : Shape (m.credit n) :=
  ⟨⟨h.table.pow, h.table.states_length, h.table.keys_length, h.table.values_length,
    h.table.blobs_length⟩, h.length⟩

/-- Some entries of a bucket are freed at once. -/
theorem Inv.storeBucket (h : Inv m) {o : ℕ} (hd : T.kernelSize ∣ o) (ho : o < m.capacity)
    {k : List State} (hk : k.length = T.kernelSize)
    (hst : ∀ i < T.kernelSize, k.getD i tombstone = m.table.stateAt (o + i) ∨
      k.getD i tombstone = empty) :
    Inv ((m.storeBucket o k).credit (ideal.countNotEqual (m.bucket o) k)) := by
  have hle : o + T.kernelSize ≤ m.capacity := h.sound.offset_add_le hd ho
  obtain ⟨hshape, ht⟩ := h.shape.storeBucket hd ho hk
  have hstore : ∀ p, (m.table.storeBucket o k).stateAt p =
      if o ≤ p ∧ p < o + T.kernelSize then k.getD (p - o) tombstone else m.table.stateAt p :=
    Map.storeBucket_stateAt h.sound.toShape hle hk
  have hlen : (m.bucket o).length = T.kernelSize := by
    rw [bucket_eq h.shape hd ho]
    exact h.sound.bucket_length hle
  have hchange : ∀ p < m.capacity, (m.storeBucket o k).table.stateAt p = m.table.stateAt p ∨
      (m.storeBucket o k).table.stateAt p = empty := by
    intro p _
    rw [ht, hstore]
    split_ifs with hp
    · have := hst (p - o) (Nat.sub_lt_left_of_lt_add hp.1 hp.2)
      rwa [Nat.add_sub_cancel' hp.1] at this
    · exact Or.inl rfl
  refine h.emptied ⟨⟨hshape.table.pow, length_states _, hshape.table.keys_length,
    hshape.table.values_length, hshape.table.blobs_length⟩, hshape.length⟩ ⟨rfl, rfl, rfl⟩ hchange
      ?_ ?_
  · change (m.storeBucket o k).table.keyAt = _
    rw [ht]
    rfl
  · change m.numEmpty + _ = (countSlots m.capacity (· == empty) (m.storeBucket o k).table.stateAt : ℤ)
    have hout : ∀ x, ¬ (o ≤ x ∧ x < o + T.kernelSize) →
        (m.storeBucket o k).table.stateAt x = m.table.stateAt x := by
      intro x hx
      rw [ht, hstore, if_neg hx]
    have hcount := countSlots_changed (p := (· == empty)) hle hout fun d hd' => ?_
    · rw [hcount, h.numEmpty_eq, ideal_countNotEqual hlen hk tombstone]
      push_cast
      congr 3
      refine List.filter_congr fun d hd' => ?_
      rw [List.mem_range] at hd'
      rw [bucket_getD h.shape ⟨hd, ho, hd'⟩, ht, hstore, if_pos ⟨by omega, by omega⟩,
        Nat.add_sub_cancel_left]
    · rw [ht, hstore, if_pos ⟨by omega, by omega⟩, Nat.add_sub_cancel_left]
      rcases hst d hd' with heq | heq
      · exact Or.inl heq
      · rw [heq]
        by_cases he : m.table.stateAt (o + d) = empty
        · exact Or.inl he.symm
        · exact Or.inr ⟨beq_self_eq_true _, beq_false_of_ne he⟩

/-! ### Scrubbing -/

omit [Inhabited κ] in
theorem credit_credit (m : Cache T ν) (a b : ℤ) : (m.credit a).credit b = m.credit (a + b) := by
  unfold credit
  rw [add_assoc]

omit [Inhabited κ] in
theorem credit_zero (m : Cache T ν) : m.credit 0 = m := by
  unfold credit
  rw [add_zero]

theorem toEmpty_getD {b l : List (BitVec 8)} {K : ℕ} (hb : b.length = K) (hl : l.length = K)
    (t : Lru) {i : ℕ} (hi : i < K) : (ideal.toEmptyIfLruBelow b l t).getD i tombstone =
      if (l.getD i 0).toNat < t.toNat then empty else b.getD i tombstone := by
  change (List.zipWith _ b l).getD i tombstone = _
  rw [List.getD_eq_getElem _ _ (by rw [List.length_zipWith]; omega), List.getElem_zipWith,
    List.getD_eq_getElem _ _ (by omega), List.getD_eq_getElem _ _ (by omega)]

/-- One bucket of the loop of `scrub_`; `n` slots were emptied before. -/
theorem Inv.scrubBucket (t : Lru) {n : ℕ} (h : Inv (m.credit n)) {o : ℕ} (hd : T.kernelSize ∣ o)
    (hlt : o < m.capacity) :
    Inv ((m.storeBucket o (ideal.toEmptyIfLruBelow (m.bucket o) (m.lrus o) t)).credit
      ((n + ideal.countNotEqual (m.bucket o)
        (ideal.toEmptyIfLruBelow (m.bucket o) (m.lrus o) t) : ℕ))) := by
  have hlen : (m.bucket o).length = T.kernelSize :=
    (congrArg List.length (bucket_eq h.shape hd hlt)).trans
      (h.sound.bucket_length (h.sound.offset_add_le hd hlt))
  have hlru : (m.lrus o).length = T.kernelSize := length_lrus h.shape hd hlt
  rw [Nat.cast_add, ← credit_credit]
  refine h.storeBucket (k := ideal.toEmptyIfLruBelow (m.bucket o) (m.lrus o) t) hd hlt ?_
    fun i hi => ?_
  · change (List.zipWith _ (m.bucket o) (m.lrus o)).length = _
    rw [List.length_zipWith]
    exact (congrArg₂ min hlen hlru).trans (Nat.min_self _)
  · have hget : (m.bucket o).getD i tombstone = (m.credit n).table.stateAt (o + i) :=
      bucket_getD h.shape ⟨hd, hlt, hi⟩
    rw [toEmpty_getD hlen hlru t hi, ← hget]
    split_ifs
    · exact Or.inr rfl
    · exact Or.inl rfl

/-- The loop of `scrub_`, with its count. -/
theorem Inv.scrubLoop (t : Lru) : ∀ (offs : List ℕ) {m : Cache T ν} {n : ℕ}, Inv (m.credit n) →
    (∀ o ∈ offs, T.kernelSize ∣ o ∧ o < m.capacity) →
    Inv ((scrubLoop ideal t offs (m, n)).1.credit (scrubLoop ideal t offs (m, n)).2)
  | [], _, _, h, _ => h
  | o :: offs, m, n, h, ho => by
      obtain ⟨hd, hlt⟩ := ho o List.mem_cons_self
      rw [Cache.scrubLoop]
      exact (h.scrubBucket t hd hlt).scrubLoop t offs
        fun o' ho' => ho o' (List.mem_cons_of_mem _ ho')

theorem Inv.scrub_ (h : Inv m) (t : Lru) : Inv (m.scrub_ ideal t).2 := by
  unfold Cache.scrub_
  split_ifs
  · exact h
  · refine Inv.scrubLoop (m := m) t _ ?_ fun o ho => h.sound.mem_offsets.mp ho
    rw [Nat.cast_zero, credit_zero]
    exact h

/-! ### Fresh caches -/

/-- A reset table. -/
theorem inv_of_reset (hshape : Shape m) {t : Map T.toMapType ν} (ht : m.table = t.reset)
    (hs : Map.Shape t) (hv : t.conf.isValid = true) (hmin : t.conf.minCapacity ≤ t.capacity) :
    Inv m := by
  have hcap : m.capacity = t.capacity := congrArg Map.capacity ht
  have hnot : ∀ p, ¬ m.table.Occupied p := by
    rw [ht]
    exact Map.reset_not_occupied t
  have hst : ∀ p < m.capacity, m.table.stateAt p = empty := by
    intro p hp
    rw [ht]
    exact Map.reset_stateAt t (hcap ▸ hp)
  refine ⟨?_, hshape.length, ?_, ?_, ?_, fun p hp => absurd hp (hnot p),
    fun _ p _ hp => absurd hp (hnot p)⟩
  · rw [ht]
    exact hs.sound_reset hv
  · rw [hcap]
    exact (congrArg (fun t : Map T.toMapType ν => t.conf.minCapacity) ht).trans_le hmin
  · intro p hp
    rw [hst p hp]
    exact empty_ne_tombstone
  · rw [countSlots_congr (g := fun _ => empty) hst, countSlots_const, if_pos (beq_self_eq_true _),
      hcap]
    exact congrArg Map.numEmpty ht

theorem Inv.reset (h : Inv m) : Inv m.reset := by
  obtain ⟨hshape, ht⟩ := h.shape.reset
  exact inv_of_reset hshape ht h.sound.toShape h.sound.conf_valid h.minCapacity_le

theorem Inv.alloc [Inhabited ν] (h : Inv m) {n : ℕ} (hcap : IsCapacity n)
    (hmin : m.conf.minCapacity ≤ n) : Inv (m.alloc n).reset := by
  have hK := h.kernelSize_le.trans hmin
  obtain ⟨hshape, ht⟩ := Shape.alloc m hcap hK
  refine inv_of_reset hshape ht (Map.alloc_shape m.table hcap hK) h.sound.conf_valid ?_
  rw [Map.alloc_capacity m.table hK]
  exact hmin

theorem new_inv [Inhabited ν] {conf : Conf T.conf} (hm : Cache.new T ν conf = .ok m) :
    Inv m ∧ m.conf = conf := by
  unfold Cache.new at hm
  split_ifs at hm with hv
  obtain rfl := Except.ok.inj hm
  have hK := (Conf.kernelSize_le hv).trans conf.min_le_init
  refine ⟨?_, rfl⟩
  -- the constructor allocates and resets
  generalize hm₀ : Cache.reset (T := T) _ = m at hm
  have heq : (m.alloc conf.initCapacity).reset = m := by
    subst hm₀
    rfl
  have hconf : m.conf = conf := by
    subst hm₀
    rfl
  rw [← heq]
  obtain ⟨hshape, ht⟩ := Shape.alloc m conf.init_isCapacity hK
  refine inv_of_reset hshape ht (Map.alloc_shape m.table conf.init_isCapacity hK) ?_ ?_
  · exact (congrArg Conf.isValid hconf).trans hv
  · rw [Map.alloc_capacity m.table hK]
    exact (congrArg Conf.minCapacity hconf).trans_le conf.min_le_init

end Inv

end Cache

end Nvhm
