import NvHashMap.Cache.Lru

/-! # Scrubbing a cache

`scrub_` frees the slots whose counter is below a threshold, bucket by bucket, and counts the slots
whose state changes. -/

namespace Nvhm

open Buffer SlotCount
open Map (Result)

variable {κ ν : Type} {T : CacheType κ} [Inhabited κ]

namespace Cache

/-- The slots in `P` are emptied, and everything else stays. -/
structure Emptied (m m' : Cache T ν) (P : ℕ → Prop) : Prop where
  conf : m'.conf = m.conf
  bucketMask : m'.bucketMask = m.bucketMask
  keys : m'.keys = m.keys
  values : m'.values = m.values
  blobs : m'.blobs = m.blobs
  lruAt : ∀ p < m.capacity, m'.lruAt p = m.lruAt p
  emptied : ∀ p < m.capacity, P p → m'.stateAt p = empty
  kept : ∀ p < m.capacity, ¬ P p → m'.stateAt p = m.stateAt p

section Emptied
variable {m m' m'' : Cache T ν} {P P' : ℕ → Prop}

omit [Inhabited κ] in
theorem Emptied.capacity (h : Emptied m m' P) : m'.capacity = m.capacity := by
  unfold Cache.capacity
  rw [h.bucketMask]

omit [Inhabited κ] in
theorem Emptied.trans (h : Emptied m m' P) (h' : Emptied m' m'' P') :
    Emptied m m'' fun p => P p ∨ P' p where
  conf := h'.conf.trans h.conf
  bucketMask := h'.bucketMask.trans h.bucketMask
  keys := h'.keys.trans h.keys
  values := h'.values.trans h.values
  blobs := h'.blobs.trans h.blobs
  lruAt p hp := (h'.lruAt p (h.capacity.symm ▸ hp)).trans (h.lruAt p hp)
  emptied p hp hP := by
    have hp' : p < m'.capacity := h.capacity.symm ▸ hp
    by_cases hP' : P' p
    · exact h'.emptied p hp' hP'
    · rw [h'.kept p hp' hP']
      exact h.emptied p hp (hP.resolve_right hP')
  kept p hp hP := by
    obtain ⟨hP, hP'⟩ := not_or.mp hP
    exact (h'.kept p (h.capacity.symm ▸ hp) hP').trans (h.kept p hp hP)

omit [Inhabited κ] in
theorem Emptied.congr (h : Emptied m m' P)
    (hP : ∀ p < m.capacity, (P p ↔ P' p) ∨ m.stateAt p = empty) : Emptied m m' P' where
  conf := h.conf
  bucketMask := h.bucketMask
  keys := h.keys
  values := h.values
  blobs := h.blobs
  lruAt := h.lruAt
  emptied p hp hp' := by
    by_cases hc : P p
    · exact h.emptied p hp hc
    · rcases hP p hp with hiff | he
      · exact absurd (hiff.mpr hp') hc
      · rw [h.kept p hp hc, he]
  kept p hp hp' := by
    by_cases hc : P p
    · rcases hP p hp with hiff | he
      · exact absurd (hiff.mp hc) hp'
      · rw [h.emptied p hp hc, he]
    · exact h.kept p hp hc

omit [Inhabited κ] in
theorem Emptied.credit (h : Emptied m m' P) (n : ℤ) : Emptied m (m'.credit n) P := { h with }

end Emptied

section Scrub
variable {m : Cache T ν}

/-- One bucket of the loop. -/
theorem Inv.emptied_storeBucket (h : Inv m) (t : Lru) {o : ℕ} (hd : T.kernelSize ∣ o)
    (ho : o < m.capacity) :
    Emptied m (m.storeBucket o (ideal.toEmptyIfLruBelow (m.bucket o) (m.lrus o) t))
      fun p => T.toMapType.off p = o ∧ (m.lruAt p).toNat < t.toNat := by
  have hb := h.isBucket hd ho
  have hl := length_lrus h.shape hd ho
  have hk := (isBucket_toEmpty hb hl t).1
  have hle : o + T.kernelSize ≤ m.capacity := h.sound.offset_add_le hd ho
  have hstore : ∀ p < m.capacity,
      (m.storeBucket o (ideal.toEmptyIfLruBelow (m.bucket o) (m.lrus o) t)).stateAt p =
      if T.toMapType.off p = o ∧ (m.lruAt p).toNat < t.toNat then empty else m.stateAt p := by
    intro p hp
    obtain ⟨-, ht⟩ := h.shape.storeBucket hd ho hk
    have hst := Map.storeBucket_stateAt (m := m.table) h.sound.toShape hle hk p
    rw [← ht, table_stateAt m hp, table_stateAt (m.storeBucket o _) hp] at hst
    rw [hst]
    obtain ⟨i, hs, heq⟩ := exists_isSlot hp
    have hi := hs.idx_lt
    have hoff := MapType.off_eq_iff (T := T.toMapType) hd p
    by_cases hpo : T.toMapType.off p = o
    · rw [hpo] at heq hs
      rw [if_pos (hoff.mp hpo), heq, Nat.add_sub_cancel_left, toEmpty_getD hb.1 hl t hi,
        lrus_getD hi, ← lruAt_add h.shape hs, bucket_getD h.shape hs, ← heq, table_stateAt m hp]
      exact if_congr (and_iff_right hpo).symm rfl rfl
    · rw [if_neg fun hc => hpo (hoff.mpr hc), if_neg fun hc => hpo hc.1]
  refine ⟨rfl, rfl, rfl, rfl, rfl, fun p hp => ?_, fun p hp hP => ?_, fun p hp hP => ?_⟩
  · obtain ⟨i, hs, heq⟩ := exists_isSlot hp
    rw [heq, lruAt_add h.shape hs, lruAt_add h.shape hs]
    exact lruAtIdx_storeBucket h.shape hd ho hk hs
  · rw [hstore p hp, if_pos hP]
  · rw [hstore p hp, if_neg hP]

theorem scrubLoop_emptied (t : Lru) : ∀ (offs : List ℕ) {m : Cache T ν} {n : ℕ},
    Inv (m.credit n) → (∀ o ∈ offs, T.kernelSize ∣ o ∧ o < m.capacity) →
    Emptied m (scrubLoop ideal t offs (m, n)).1
      fun p => T.toMapType.off p ∈ offs ∧ (m.lruAt p).toNat < t.toNat
  | [], m, n, _, _ => ⟨rfl, rfl, rfl, rfl, rfl, fun _ _ => rfl,
      fun p _ hP => absurd hP.1 List.not_mem_nil, fun _ _ _ => rfl⟩
  | o :: offs, m, n, h, ho => by
      obtain ⟨hd, hlt⟩ := ho o List.mem_cons_self
      have hfirst : Emptied m (m.storeBucket o
          (ideal.toEmptyIfLruBelow (m.bucket o) (m.lrus o) t)) _ :=
        { h.emptied_storeBucket t hd hlt with }
      have hrest := scrubLoop_emptied t offs (h.scrubBucket t hd hlt)
        fun o' ho' => ho o' (List.mem_cons_of_mem _ ho')
      rw [Cache.scrubLoop]
      refine (hfirst.trans hrest).congr fun p hp => Or.inl ?_
      rw [hfirst.lruAt p hp, List.mem_cons]
      tauto

theorem Inv.emptied_scrub (h : Inv m) {t : Lru} (ht : t.toNat < maxLru.toNat) :
    Emptied m (m.scrub_ ideal t).2
      fun p => m.containsAt p = true ∧ (m.lruAt p).toNat < t.toNat := by
  have hloop := scrubLoop_emptied t (offsets T.kernelSize m.capacity) (m := m) (n := 0)
    (by rwa [Nat.cast_zero, credit_zero]) fun o ho => h.sound.mem_offsets.mp ho
  unfold Cache.scrub_
  rw [if_neg (by omega)]
  refine (hloop.credit _).congr fun p hp => ?_
  have hmem : T.toMapType.off p ∈ offsets T.kernelSize m.capacity :=
    h.sound.mem_offsets.mpr ⟨T.toMapType.dvd_off p, lt_of_le_of_lt (T.toMapType.off_le p) hp⟩
  by_cases hc : m.containsAt p = true
  · exact Or.inl ⟨fun hP => ⟨hc, hP.2⟩, fun hP => ⟨hmem, hP.2⟩⟩
  · right
    rw [← table_stateAt m hp]
    exact h.eq_empty hp fun hocc => hc (occupied_iff.mp hocc).2

omit [Inhabited κ] in
theorem scrubLoop_numEmpty (B : BucketOps) (t : Lru) : ∀ (offs : List ℕ) (s : Cache T ν × ℕ),
    (scrubLoop B t offs s).1.numEmpty = s.1.numEmpty
  | [], _ => rfl
  | _ :: offs, (_, _) => scrubLoop_numEmpty B t offs _

omit [Inhabited κ] in
theorem scrub_numEmpty (B : BucketOps) (m : Cache T ν) (t : Lru) :
    (m.scrub_ B t).2.numEmpty = m.numEmpty + (m.scrub_ B t).1 := by
  unfold Cache.scrub_
  split_ifs
  · exact (add_zero _).symm
  · change (Cache.scrubLoop B t _ (m, 0)).1.numEmpty + _ = _
    rw [scrubLoop_numEmpty]

section Reached
variable [Inhabited ν] (B : Kernel T.kernelSize) (conf : Conf T.conf)

/-- A scrub frees exactly the entries whose counter is below the threshold, and returns their
number. -/
theorem scrub_erases {m : Cache T ν} (hm : (runs B conf).Reachable m) {t : Lru}
    (ht : t.toNat < maxLru.toNat) :
    Emptied m (m.scrub_ B.ops t).2
        (fun p => m.containsAt p = true ∧ (m.lruAt p).toNat < t.toNat) ∧
      (m.scrub_ B.ops t).1 = ((Finset.range m.capacity).filter fun p =>
        m.containsAt p = true ∧ (m.lruAt p).toNat < t.toNat).card ∧
      (m.scrub_ B.ops t).2.numEmpty = countSlots (m.scrub_ B.ops t).2.capacity (· == empty)
        (m.scrub_ B.ops t).2.stateAt := by
  have h := inv_of_reachable B conf hm
  rw [(scrub_agree B.lawful h t).1]
  have hinv := h.scrub_ t
  have he := h.emptied_scrub ht
  have hnum : (m.scrub_ ideal t).2.numEmpty = countSlots m.capacity (· == empty)
      (m.scrub_ ideal t).2.stateAt := by
    rw [hinv.numEmpty_eq, countSlots_congr fun q hq => table_stateAt _ hq, he.capacity]
  refine ⟨he, ?_, by rw [hnum, he.capacity]⟩
  have hold : m.numEmpty = countSlots m.capacity (· == empty) m.stateAt := by
    rw [h.numEmpty_eq, countSlots_congr fun q hq => table_stateAt m hq]
  have hcount := scrub_numEmpty ideal m t
  -- the empty slots after the scrub are those of before and the freed ones
  have hunion : countSlots m.capacity (· == empty) (m.scrub_ ideal t).2.stateAt =
      countSlots m.capacity (· == empty) m.stateAt + ((Finset.range m.capacity).filter fun p =>
        m.containsAt p = true ∧ (m.lruAt p).toNat < t.toNat).card := by
    unfold countSlots
    rw [← Finset.card_union_of_disjoint, ← Finset.filter_or]
    · congr 1
      refine Finset.filter_congr fun p hp => ?_
      have hp := Finset.mem_range.mp hp
      by_cases hP : m.containsAt p = true ∧ (m.lruAt p).toNat < t.toNat
      · rw [he.emptied p hp hP]
        exact iff_of_true (beq_self_eq_true _) (Or.inr hP)
      · rw [he.kept p hp hP, or_iff_left hP]
    · rw [Finset.disjoint_filter]
      rintro p - hemp ⟨hc, -⟩
      exact ne_empty_of_isHash hc (beq_iff_eq.mp hemp)
  omega

/-- Of two entries, one was accessed later. -/
theorem scrub_erases_words : ∃ rs m,
    wordExec 1 false [.insert 0, .insert 8, .findFirst 0] = .ok (rs, m) ∧
      (m.scrub_ (Map.wordKernel 1 false).ops 128).1 = 1 ∧
      Emptied m (m.scrub_ (Map.wordKernel 1 false).ops 128).2
        fun p => m.containsAt p = true ∧ (m.lruAt p).toNat < 128 := by
  obtain ⟨rs, m, hr, hinv, hf⟩ := exists_wordExec 1 false [.insert 0, .insert 8, .findFirst 0]
    (fun r => (r.2.scrub_ ideal 128).1) 1 (by decide +kernel)
  have hm := reachable_of_exec (T := wordCache 1 false) (Map.wordKernel 1 false)
    (Map.wordConf 1 false) hr
  have he := scrub_erases (T := wordCache 1 false) (Map.wordKernel 1 false)
    (Map.wordConf 1 false) hm (t := 128) (by decide)
  refine ⟨rs, m, hr, ?_, he.1⟩
  rw [(scrub_agree (T := wordCache 1 false) (Map.wordKernel 1 false).lawful hinv 128).1]
  exact hf

end Reached

end Scrub

end Cache

end Nvhm
