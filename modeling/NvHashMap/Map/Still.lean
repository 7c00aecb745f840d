import NvHashMap.Map.Change

/-! # Scrubs that move nothing

A pass leaves an entry where it is if its probe sequence passes no free slot before it comes to the
bucket of the entry (`Stays`).  A scrub moves nothing if and only if this holds of all entries
(`scrub_still`, `allStay_of_scrub`), whatever the chains of the table are. -/

namespace Nvhm

open Buffer SlotCount

variable {κ ν : Type} {T : MapType κ} [Inhabited κ] [Inhabited ν]

namespace Map

section Table
variable (m : Map T ν) (S : ℕ → Prop)

/-- The probe sequence of the entry at `pos` comes to its bucket and passes slots of `S` only. -/
def Stays (pos : ℕ) : Prop :=
  ∃ j < m.numBuckets, m.visit (m.keyAt pos) j = T.off pos ∧
    (seqAt T (m.keyAt pos) j).hasNext T.seq = true ∧
    ∀ i < j, ∀ d < T.kernelSize, S (m.visit (m.keyAt pos) i + d)

/-- No entry has a free slot upstream, if `S` are the slots with entries. -/
def AllStay : Prop := ∀ pos, S pos → m.Stays S pos

end Table

section Slot
variable {m : Map T ν}

omit [Inhabited ν] in
theorem AllStay.congr {m' : Map T ν} {S S' : ℕ → Prop} (hf : Frame m m') (hk : m'.keyAt = m.keyAt)
    (hS : ∀ pos, S' pos ↔ S pos) : m'.AllStay S' ↔ m.AllStay S := by
  obtain rfl : S' = S := funext fun pos => propext (hS pos)
  unfold AllStay Stays
  simp only [hf.numBuckets, hf.visit, hk]

omit [Inhabited ν] in
theorem upstream_stay (h : Shape m) {pos : ℕ} (hs : m.Stays m.Occupied pos) :
    ∃ q, upstream ideal m (T.off pos) pos = .ok (.stay, q) := by
  obtain ⟨j, hj, hv, hn, hocc⟩ := hs
  suffices hspec : ∃ r, upstream ideal m (T.off pos) pos = .ok r ∧ r.1 = .stay by
    obtain ⟨⟨u, q⟩, hr, rfl⟩ := hspec
    exact ⟨q, hr⟩
  refine probe_total h (fun i _ => i ≤ j) (fun r : Upstream × ProbeSeq => r.1 = .stay)
    (Nat.zero_le j) ?_ (fun i _ hij => hasNext_mono hij hn) fun _ hI => by omega
  intro i _ hi hij
  by_cases hoff : m.visit (m.keyAt pos) i = T.off pos
  · rw [if_pos hoff]
    rfl
  · rw [if_neg hoff]
    have hlt : i < j := by
      refine lt_of_le_of_ne hij ?_
      rintro rfl
      exact hoff hv
    have hnil : ideal.notHashes (m.bucket (m.visit (m.keyAt pos) i)) = [] :=
      (h.slots_bucket_eq_nil (h.visit_add_le _ i)).mpr fun d hd => by
        rw [(hocc i hlt d hd).isHash]
        rfl
    rw [hnil]
    exact hlt

omit [Inhabited ν] in
theorem stays_of_upstream (h : Shape m) {pos : ℕ} {q : ProbeSeq}
    (hr : upstream ideal m (T.off pos) pos = .ok (.stay, q)) : m.Stays m.Occupied pos := by
  have hspec : (∃ r, upstream ideal m (T.off pos) pos = .ok r ∧
      (r.1 = .stay → m.Stays m.Occupied pos)) ∨
      upstream ideal m (T.off pos) pos = .error .tableFull ∧ ∃ _ : Unit, ∀ i < m.numBuckets,
        ∀ d < T.kernelSize, m.Occupied (m.visit (m.keyAt pos) i + d) := by
    refine probe_cases h
      (fun j _ => ∀ i < j, ∀ d < T.kernelSize, m.Occupied (m.visit (m.keyAt pos) i + d)) _
      (fun _ hi => absurd hi (Nat.not_lt_zero _)) ?_ fun _ _ _ _ _ hc => by cases hc
    intro j _ hj hn hI
    have ho := h.visit_add_le (m.keyAt pos) j
    by_cases hoff : m.visit (m.keyAt pos) j = T.off pos
    · rw [if_pos hoff]
      exact fun _ => ⟨j, hj, hoff, hn, hI⟩
    · rw [if_neg hoff]
      cases hhead : (ideal.notHashes (m.bucket (m.visit (m.keyAt pos) j))).head? with
      | some d => exact fun hc => by cases hc
      | none =>
          have hnil : slots (!isHash ·) (m.bucket (m.visit (m.keyAt pos) j)) = [] :=
            List.head?_eq_none_iff.mp hhead
          intro i hi d hd
          rcases Nat.lt_succ_iff_lt_or_eq.mp hi with hlt | rfl
          · exact hI i hlt d hd
          · have hhash := (h.slots_bucket_eq_nil ho).mp hnil d hd
            rw [Bool.not_eq_false'] at hhash
            exact ⟨by omega, hhash⟩
  rcases hspec with ⟨r, hr', hc⟩ | ⟨he, -⟩
  · obtain rfl := Except.ok.inj (hr.symm.trans hr')
    exact hc rfl
  · cases hr.symm.trans he

end Slot

/-! ### Passes -/

section Passes

/-- The scrub has made no move since `s`. -/
structure Still (s s' : Scrub T ν) : Prop where
  map : s'.map = s.map
  numMoves : s'.numMoves = s.numMoves

omit [Inhabited κ] [Inhabited ν] in
theorem Still.trans {s s' s'' : Scrub T ν} (h : Still s s') (h' : Still s' s'') : Still s s'' :=
  ⟨h'.map.trans h.map, h'.numMoves.trans h.numMoves⟩

theorem scrubSlot_still {s : Scrub T ν} (h : Shape s.map) {pos : ℕ} (b : Bool)
    (hs : s.map.Stays s.map.Occupied pos) :
    ∃ s', scrubSlot ideal (T.off pos) b pos s = .ok s' ∧ Still s s' := by
  obtain ⟨q, hr⟩ := upstream_stay h hs
  rw [scrubSlot, hr, ok_bind]
  exact ⟨_, rfl, rfl, rfl⟩

/-- An entry stays, or the pass counts a move. -/
theorem scrubSlot_moves {s s' : Scrub T ν} (h : Shape s.map) {pos : ℕ} {b : Bool}
    (hr : scrubSlot ideal (T.off pos) b pos s = .ok s') :
    Still s s' ∧ s.map.Stays s.map.Occupied pos ∨ s.numMoves < s'.numMoves := by
  unfold scrubSlot at hr
  obtain ⟨⟨u, q⟩, hu, hr⟩ := bind_eq_ok.mp hr
  cases u with
  | stay =>
      obtain rfl := Except.ok.inj hr
      exact Or.inl ⟨⟨rfl, rfl⟩, stays_of_upstream h hu⟩
  | exhausted => cases hr
  | move dst =>
      dsimp only at hr
      split_ifs at hr
      obtain rfl := Except.ok.inj hr
      exact Or.inr (Nat.lt_succ_self _)

theorem scrubSlots_still {o : ℕ} (ho : T.kernelSize ∣ o) (b : Bool) : ∀ (l : List ℕ)
    {s : Scrub T ν}, Shape s.map →
    (∀ i ∈ l, i < T.kernelSize ∧ s.map.Stays s.map.Occupied (o + i)) →
    ∃ s', scrubSlots ideal o b l s = .ok s' ∧ Still s s'
  | [], s, _, _ => ⟨s, rfl, rfl, rfl⟩
  | i :: l, s, h, hl => by
      obtain ⟨hi, hs⟩ := hl i List.mem_cons_self
      obtain ⟨s₁, hr₁, h₁⟩ := scrubSlot_still h b hs
      rw [MapType.off_add ho hi] at hr₁
      obtain ⟨s₂, hr₂, h₂⟩ := scrubSlots_still ho b l (s := s₁) (by rwa [h₁.map]) fun i' hi' => by
        rw [h₁.map]
        exact hl i' (List.mem_cons_of_mem i hi')
      rw [scrubSlots, hr₁, ok_bind]
      exact ⟨s₂, hr₂, h₁.trans h₂⟩

theorem scrubSlots_moves {o : ℕ} (ho : T.kernelSize ∣ o) {b : Bool} : ∀ (l : List ℕ)
    {s s' : Scrub T ν}, Exact s.map → l.Nodup →
    (∀ i ∈ l, i < T.kernelSize ∧ s.map.Occupied (o + i)) → (b = true ↔ s.map.HasEmpty o) →
    scrubSlots ideal o b l s = .ok s' →
    Still s s' ∧ (∀ i ∈ l, s.map.Stays s.map.Occupied (o + i)) ∨ s.numMoves < s'.numMoves
  | [], s, s', _, _, _, _, hr => by
      obtain rfl := Except.ok.inj hr
      exact Or.inl ⟨⟨rfl, rfl⟩, fun _ hi => absurd hi List.not_mem_nil⟩
  | i :: l, s, s', h, hn, hl, hb, hr => by
      obtain ⟨hi, hocc⟩ := hl i List.mem_cons_self
      obtain ⟨hni, hn⟩ := List.nodup_cons.mp hn
      have hoff := MapType.off_add ho hi
      rw [scrubSlots] at hr
      obtain ⟨s₁, h₁, hr⟩ := bind_eq_ok.mp hr
      obtain ⟨hm, hocc₁⟩ := scrubSlot_moved h hocc (b := b) (by rwa [hoff]) (by rwa [hoff])
      have hrest := scrubSlots_moves ho l hm.exact hn (fun i' hi' => by
        obtain ⟨hk, hocc'⟩ := hl i' (List.mem_cons_of_mem i hi')
        refine ⟨hk, hocc₁ _ hocc' fun hc => ?_⟩
        obtain rfl := Nat.add_left_cancel hc
        exact hni hi') (hb.trans (hm.hasEmpty_iff o ho).symm) hr
      have hslot : Still s s₁ ∧ s.map.Stays s.map.Occupied (o + i) ∨ s.numMoves < s₁.numMoves :=
        scrubSlot_moves h.toShape (b := b) (by rwa [hoff])
      rcases hslot with ⟨hs, hstay⟩ | hlt
      · rcases hrest with ⟨hs', hall⟩ | hlt
        · refine Or.inl ⟨hs.trans hs', fun i' hi' => ?_⟩
          rcases List.mem_cons.mp hi' with rfl | hi'
          · exact hstay
          · rw [← hs.map]
            exact hall i' hi'
        · rw [hs.numMoves] at hlt
          exact Or.inr hlt
      · refine Or.inr ?_
        rcases hrest with ⟨hs', -⟩ | hlt'
        · rwa [hs'.numMoves]
        · exact hlt.trans hlt'

theorem scrubPass_still : ∀ (offs : List ℕ) {s : Scrub T ν}, Shape s.map →
    (∀ o ∈ offs, T.kernelSize ∣ o ∧ o < s.map.capacity) → s.map.AllStay s.map.Occupied →
    ∃ s', scrubPass ideal offs s = .ok s' ∧ Still s s'
  | [], s, _, _, _ => ⟨s, rfl, rfl, rfl⟩
  | o :: offs, s, h, hoffs, hall => by
      obtain ⟨hd, hlt⟩ := hoffs o List.mem_cons_self
      obtain ⟨s₁, hr₁, h₁⟩ := scrubSlots_still hd (ideal.hasEmpty (s.map.bucket o))
        (ideal.hashes (s.map.bucket o)) h fun i hi => by
          obtain ⟨hi, hocc⟩ := (h.mem_hashes hd hlt i).mp hi
          exact ⟨hi, hall _ hocc⟩
      obtain ⟨s₂, hr₂, h₂⟩ := scrubPass_still offs (s := s₁) (by rwa [h₁.map])
        (fun o' ho' => by rw [h₁.map]; exact hoffs o' (List.mem_cons_of_mem o ho'))
        (by rwa [h₁.map])
      rw [scrubPass, hr₁, ok_bind]
      exact ⟨s₂, hr₂, h₁.trans h₂⟩

theorem scrubPass_moves : ∀ (offs : List ℕ) {s s' : Scrub T ν}, Exact s.map →
    (∀ o ∈ offs, T.kernelSize ∣ o ∧ o < s.map.capacity) → scrubPass ideal offs s = .ok s' →
    Still s s' ∧ (∀ o ∈ offs, ∀ i < T.kernelSize, s.map.Occupied (o + i) →
      s.map.Stays s.map.Occupied (o + i)) ∨ s.numMoves < s'.numMoves
  | [], s, s', _, _, hr => by
      obtain rfl := Except.ok.inj hr
      exact Or.inl ⟨⟨rfl, rfl⟩, fun _ ho => absurd ho List.not_mem_nil⟩
  | o :: offs, s, s', h, hoffs, hr => by
      obtain ⟨hd, hlt⟩ := hoffs o List.mem_cons_self
      rw [scrubPass] at hr
      obtain ⟨s₁, h₁, hr⟩ := bind_eq_ok.mp hr
      have hhashes := fun i => h.mem_hashes hd hlt i
      have hempty := h.hasEmpty_iff (h.offset_add_le hd hlt)
      have hm := scrubSlots_moved hd _ h (slots_nodup _ _) (fun i hi => (hhashes i).mp hi) hempty h₁
      have hslots := scrubSlots_moves hd _ h (slots_nodup _ _) (fun i hi => (hhashes i).mp hi)
        hempty h₁
      have hrest := scrubPass_moves offs hm.exact (fun o' ho' => by
        rw [hm.frame.capacity]
        exact hoffs o' (List.mem_cons_of_mem o ho')) hr
      rcases hslots with ⟨hs, hstay⟩ | hlt₁
      · rcases hrest with ⟨hs', hall⟩ | hlt'
        · refine Or.inl ⟨hs.trans hs', fun o' ho' i hi hocc => ?_⟩
          rcases List.mem_cons.mp ho' with rfl | ho'
          · exact hstay i ((hhashes i).mpr ⟨hi, hocc⟩)
          · rw [hs.map] at hall
            exact hall o' ho' i hi hocc
        · rw [hs.numMoves] at hlt'
          exact Or.inr hlt'
      · refine Or.inr ?_
        rcases hrest with ⟨hs', -⟩ | hlt'
        · rwa [hs'.numMoves]
        · exact hlt₁.trans hlt'

theorem scrubPasses_le : ∀ (d : ℕ) {s s' : Scrub T ν}, Exact s.map →
    scrubPasses ideal d s = .ok s' → s.numMoves ≤ s'.numMoves
  | 0, s, s', _, hr => by cases hr
  | d + 1, s, s', h, hr => by
      rw [scrubPasses] at hr
      obtain ⟨s₁, h₁, hr⟩ := bind_eq_ok.mp hr
      have hoffs : ∀ o ∈ offsets T.kernelSize s.map.capacity, T.kernelSize ∣ o ∧ o < s.map.capacity :=
        fun o ho => h.toShape.mem_offsets.mp ho
      have hle : s.numMoves ≤ s₁.numMoves := by
        rcases scrubPass_moves _ (s := { s with pslBits := 0 }) h hoffs h₁ with ⟨hs, -⟩ | hlt
        · exact hs.numMoves.ge
        · exact hlt.le
      split_ifs at hr
      · obtain rfl := Except.ok.inj hr
        exact hle
      · exact hle.trans
          (scrubPasses_le d (scrubPass_moved _ (s := { s with pslBits := 0 }) h hoffs h₁).exact hr)

end Passes

/-! ### Scrubs -/

section Scrub
variable {m m' : Map T ν}

/-- If all entries stay, then the map does. -/
theorem scrub_still (h : Exact m) (hall : m.AllStay m.Occupied) : m.scrub_ ideal = .ok (0, m) := by
  rw [scrub_]
  split_ifs
  · rfl
  · obtain ⟨s, hr, hs⟩ := scrubPass_still (offsets T.kernelSize m.capacity) (s := ⟨m, 0, 0⟩)
      h.toShape (fun o ho => h.toShape.mem_offsets.mp ho) hall
    have hmoves := hs.numMoves
    dsimp only at hmoves
    rw [scrubPasses, hr, ok_bind, if_pos (by omega), ok_bind, prune, hmoves, if_pos rfl, hs.map]

/-- A scrub that has tombstones and counts no move has found that all entries stay. -/
theorem allStay_of_scrub (h : Exact m) (ht : m.numTombstone ≠ 0)
    (hr : m.scrub_ ideal = .ok (0, m')) : m.AllStay m.Occupied := by
  rw [scrub_, if_neg ht] at hr
  obtain ⟨s, hs, hr⟩ := bind_eq_ok.mp hr
  have hzero : s.numMoves = 0 := (Prod.mk.inj (Except.ok.inj hr)).1
  rw [scrubPasses] at hs
  obtain ⟨s₁, h₁, hs⟩ := bind_eq_ok.mp hs
  have hoffs : ∀ o ∈ offsets T.kernelSize m.capacity, T.kernelSize ∣ o ∧ o < m.capacity :=
    fun o ho => h.toShape.mem_offsets.mp ho
  have hle : s₁.numMoves ≤ s.numMoves := by
    split_ifs at hs
    · obtain rfl := Except.ok.inj hs
      exact le_rfl
    · exact scrubPasses_le _ (scrubPass_moved _ (s := ⟨m, 0, 0⟩) h hoffs h₁).exact hs
  rcases scrubPass_moves _ (s := ⟨m, 0, 0⟩) h hoffs h₁ with ⟨-, hall⟩ | hlt
  · intro pos hp
    have hadd := MapType.lt_off_add T pos
    have hoff := T.off_le pos
    have hslot := hall (T.off pos) (h.toShape.mem_offsets.mpr
      ⟨T.dvd_off pos, lt_of_le_of_lt hoff hp.1⟩) (pos - T.off pos) (by omega)
    rw [Nat.add_sub_cancel' hoff] at hslot
    exact hslot hp
  · dsimp only at hlt
    omega

/-- A scrub keeps what the moves keep, up to tombstones that become empty slots. -/
theorem scrub_inv {I : Map T ν → Prop} (hI : MoveInv I) (hx : ∀ {m}, I m → Exact m) (h : I m) :
    ∃ n m₁ m₂ D, m.scrub_ ideal = .ok (n, m₂) ∧ I m₁ ∧ Pruned D m₁ m₂ := by
  have hrefl : ∀ {m : Map T ν}, I m → Pruned (fun _ => False) m m := fun h =>
    ⟨(hx h).toShape, Frame.refl _, rfl, rfl, fun _ _ _ hc => hc.elim, fun _ _ _ => rfl⟩
  rw [scrub_]
  split_ifs
  · exact ⟨0, m, m, _, rfl, h, hrefl h⟩
  · obtain ⟨s, hr, hs⟩ := scrubPasses_total hI h
    rw [hr, ok_bind]
    have he := hx hs.inv
    suffices hp : ∃ D, Pruned D s.map (prune ideal s) by
      obtain ⟨D, hp⟩ := hp
      exact ⟨_, _, _, D, rfl, hs.inv, hp⟩
    unfold prune
    split_ifs
    · exact ⟨_, hrefl hs.inv⟩
    · exact ⟨_, pruneAll_spec he.toSound⟩
    · exact ⟨_, (pruneDead_spec _ he.toShape he.counted fun o ho => he.mem_offsets.mp ho).1⟩

end Scrub

end Map

end Nvhm
