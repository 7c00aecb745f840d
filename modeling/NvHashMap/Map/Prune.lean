import NvHashMap.Map.Scrub

/-! # Pruning

After its passes `scrub_` turns tombstones into empty slots: all of them if every entry is at the
start of its probe sequence, else those in buckets of tombstones only.  The first is always right.
The second is right exactly when the table is settled: a key behind such a bucket is not found any
more (`scrub_spec`).

So a scrub keeps the map if it moves nothing, if all entries come to lie at the start of their
sequences, or if its passes leave a settled table (`ScrubSafe`).  Tables with two slots per bucket
or more are always safe.  In a table with one slot per bucket the last move can lose a key. -/

namespace Nvhm

open Buffer SlotCount

variable {κ ν : Type} {T : MapType κ} [Inhabited κ] [Inhabited ν]

namespace Map

/-! ### Turning tombstones into empty slots -/

section Prune
variable {m m' : Map T ν}

/-- `m'` is `m` with the tombstones in the buckets of `D` turned into empty slots. -/
structure Pruned (D : ℕ → Prop) (m m' : Map T ν) : Prop where
  shape : Shape m'
  frame : Frame m m'
  keyAt_eq : m'.keyAt = m.keyAt
  entryAt_eq : m'.entryAt = m.entryAt
  stateAt_of : ∀ p < m.capacity, m.stateAt p = tombstone → D (T.off p) → m'.stateAt p = empty
  stateAt_else : ∀ p < m.capacity, (m.stateAt p = tombstone → ¬ D (T.off p)) →
    m'.stateAt p = m.stateAt p

/-- Every stored key is reached before its sequence passes an empty slot. -/
def Chained (m : Map T ν) : Prop :=
  ∀ pos, m.Occupied pos → m.Reaches (m.keyAt pos) (T.off pos)

namespace Pruned
variable {D : ℕ → Prop} (hp : Pruned D m m')
include hp

theorem stateAt_eq_or (p : ℕ) (hlt : p < m.capacity) :
    m'.stateAt p = m.stateAt p ∨ m'.stateAt p = empty := by
  by_cases hc : m.stateAt p = tombstone ∧ D (T.off p)
  · exact Or.inr (hp.stateAt_of p hlt hc.1 hc.2)
  · exact Or.inl (hp.stateAt_else p hlt fun ht hD => hc ⟨ht, hD⟩)

theorem sound (h : Sound m) : Sound m' :=
  h.storeStates hp.frame hp.shape hp.stateAt_eq_or hp.keyAt_eq

theorem occupied_iff (q : ℕ) : m'.Occupied q ↔ m.Occupied q := by
  rw [Occupied, Occupied, hp.frame.capacity]
  refine and_congr_right fun hq => ?_
  rw [containsAt, containsAt]
  by_cases hc : m.stateAt q = tombstone ∧ D (T.off q)
  · rw [hp.stateAt_of q hq hc.1 hc.2, hc.1]
    rfl
  · rw [hp.stateAt_else q hq fun ht hD => hc ⟨ht, hD⟩]

theorem entries_eq : m'.entries = m.entries := by
  rw [entries, entries, hp.frame.capacity]
  refine collect_congr (fun p hlt => ?_) fun p _ _ => by rw [hp.entryAt_eq]
  have := hp.occupied_iff p
  rw [Occupied, Occupied, hp.frame.capacity] at this
  exact Bool.eq_iff_iff.mpr (by simpa [hlt] using this)

/-- The buckets that get an empty slot. -/
theorem hasEmpty (h : Shape m) {o : ℕ} (ho : T.kernelSize ∣ o) (hlt : o < m.capacity)
    (he : m'.HasEmpty o) : m.HasEmpty o ∨ D o ∧ ∃ d < T.kernelSize, m.stateAt (o + d) = tombstone := by
  obtain ⟨d, hd, hs⟩ := he
  have hle := h.offset_add_le ho hlt
  have hoff := MapType.off_add ho hd
  by_cases hc : m.stateAt (o + d) = tombstone ∧ D (T.off (o + d))
  · exact Or.inr ⟨hoff ▸ hc.2, d, hd, hc.1⟩
  · rw [hp.stateAt_else (o + d) (by omega) fun ht hD => hc ⟨ht, hD⟩] at hs
    exact Or.inl ⟨d, hd, hs⟩

/-- What holds of a map whatever its flags are survives, if the counters are right. -/
theorem exact (h : Exact m) (hc : Counted m') (hle : m.numEmpty ≤ m'.numEmpty) : Exact m' := by
  refine { hp.sound h.toSound with
    minCapacity_le := ?_, growThreshold_eq := ?_, pure := ?_,
    numEmpty_eq := hc.numEmpty_eq, numTombstone_eq := hc.numTombstone_eq,
    numEmpty_pos := h.numEmpty_pos.trans hle }
  · rw [hp.frame.conf, hp.frame.capacity]
    exact h.minCapacity_le
  · rw [hp.frame.growThreshold, hp.frame.conf, hp.frame.capacity]
    exact h.growThreshold_eq
  · intro p hlt q hqlt hoff he ht
    rw [hp.frame.capacity] at hlt hqlt
    have htq : m.stateAt q = tombstone := by
      rcases hp.stateAt_eq_or q hqlt with hs | hs <;> rw [hs] at ht
      · exact ht
      · exact absurd ht empty_ne_tombstone
    have hDq : ¬ D (T.off q) := fun hD =>
      empty_ne_tombstone ((hp.stateAt_of q hqlt htq hD).symm.trans ht)
    rw [hp.stateAt_else p hlt fun _ => by rwa [hoff]] at he
    exact h.pure p hlt q hqlt hoff he htq

/-- The invariant survives if no pruned bucket is upstream of a key. -/
theorem valid (h : Valid m) (hc : Counted m') (hle : m.numEmpty ≤ m'.numEmpty)
    (hup : ∀ pos, m.Occupied pos → ∀ i j, i < j → j < m.numBuckets →
      m.visit (m.keyAt pos) j = T.off pos → ¬ (D (m.visit (m.keyAt pos) i) ∧
        ∃ d < T.kernelSize, m.stateAt (m.visit (m.keyAt pos) i + d) = tombstone)) : Valid m' := by
  have hnear : ∀ pos, m'.Occupied pos → m'.Near (m'.keyAt pos) (T.off pos) := by
    intro pos hocc
    obtain ⟨j, hj, hv, hn, hne⟩ := h.near pos ((hp.occupied_iff pos).mp hocc)
    rw [hp.keyAt_eq]
    refine ⟨j, by rwa [hp.frame.numBuckets], by rwa [hp.frame.visit], hn, fun i hi he => ?_⟩
    rw [hp.frame.visit] at he
    rcases hp.hasEmpty h.toShape (h.dvd_visit _ i) (h.visit_lt _ i) he with he | hc
    · exact hne i hi he
    · exact hup pos ((hp.occupied_iff pos).mp hocc) i j hi hj hv hc
  refine { hp.exact h.exact hc hle with
    chain := fun pos hocc => (hnear pos hocc).reaches, unique := ?_, near := hnear }
  intro hd p q ho ho' heq
  rw [hp.keyAt_eq] at heq
  exact h.unique hd p q ((hp.occupied_iff p).mp ho) ((hp.occupied_iff q).mp ho') heq

/-- If the chains hold after the pruning, no pruned bucket was upstream of a key. -/
theorem upstream (h : Sound m) (hm' : m'.Chained) {pos : ℕ} (hocc : m.Occupied pos) {i j d : ℕ}
    (hij : i < j) (hj : j < m.numBuckets) (hv : m.visit (m.keyAt pos) j = T.off pos)
    (hd : d < T.kernelSize) (hD : D (m.visit (m.keyAt pos) i)) :
    m.stateAt (m.visit (m.keyAt pos) i + d) ≠ tombstone := by
  intro ht
  obtain ⟨j', hj', hv', hne⟩ := hm' pos ((hp.occupied_iff pos).mpr hocc)
  rw [hp.frame.numBuckets] at hj'
  rw [hp.frame.visit, hp.keyAt_eq] at hv'
  obtain rfl := h.visit_inj hj hj' (hv.trans hv'.symm)
  refine hne i hij ⟨d, hd, ?_⟩
  have hle := h.visit_add_le (m.keyAt pos) i
  rw [hp.frame.visit, hp.keyAt_eq]
  refine hp.stateAt_of _ (by omega) ht ?_
  rwa [MapType.off_add (h.dvd_visit _ i) hd]

end Pruned

/-- The states of the table while `pruneBuckets` works. -/
theorem pruneBuckets_spec : ∀ (offs : List ℕ) {m : Map T ν}, Shape m →
    (∀ o ∈ offs, T.kernelSize ∣ o ∧ o < m.capacity) →
    Shape (pruneBuckets ideal offs m) ∧ Frame m (pruneBuckets ideal offs m) ∧
      (pruneBuckets ideal offs m).keyAt = m.keyAt ∧
      (pruneBuckets ideal offs m).entryAt = m.entryAt ∧
      ∀ p, (pruneBuckets ideal offs m).stateAt p =
        if T.off p ∈ offs ∧ isHash (m.stateAt p) = false then empty else m.stateAt p
  | [], m, h, _ => ⟨h, Frame.refl m, rfl, rfl, fun p => by simp [pruneBuckets]⟩
  | o :: offs, m, h, ho => by
      obtain ⟨hd, hlt⟩ := ho o List.mem_cons_self
      have hle := h.offset_add_le hd hlt
      have hshape := storeBucket_shape h hle (k := ideal.notHashToEmpty (m.bucket o))
        (by rw [length_notHashToEmpty, h.bucket_length hle])
      obtain ⟨hs, hf, hk, he, hst⟩ := pruneBuckets_spec offs hshape fun o' ho' =>
        ho o' (List.mem_cons_of_mem o ho')
      refine ⟨hs, (storeBucket_frame m o _).trans hf, hk, he, fun p => (hst p).trans ?_⟩
      rw [storeEmpty_stateAt h hd hle]
      by_cases hc : T.off p = o ∧ isHash (m.stateAt p) = false
      · have hr : T.off p ∈ o :: offs ∧ isHash (m.stateAt p) = false :=
          ⟨List.mem_cons.mpr (Or.inl hc.1), hc.2⟩
        rw [if_pos hc, if_pos hr]
        split_ifs <;> rfl
      · rw [if_neg hc]
        refine if_congr (and_congr_left fun hn => ?_) rfl rfl
        rw [List.mem_cons]
        exact ⟨Or.inr, fun hm => hm.resolve_left fun hoff => hc ⟨hoff, hn⟩⟩

/-- Turning all tombstones into empty slots. -/
theorem pruneAll_spec (h : Sound m) : Pruned (fun _ => True) m (pruneAll ideal m) := by
  obtain ⟨hs, hf, hk, he, hst⟩ := pruneBuckets_spec (offsets T.kernelSize m.capacity) h.toShape
    fun o ho => h.mem_offsets.mp ho
  have hmem : ∀ p < m.capacity, T.off p ∈ offsets T.kernelSize m.capacity := fun p hp =>
    h.mem_offsets.mpr ⟨T.dvd_off p, lt_of_le_of_lt (T.off_le p) hp⟩
  refine ⟨{ hs with }, { hf with }, hk, he, fun p hp ht _ => (hst p).trans ?_,
    fun p hp hne => (hst p).trans ?_⟩
  · rw [if_pos ⟨hmem p hp, by rw [ht]; rfl⟩]
  · split_ifs with hc
    · exact ((eq_of_validState (h.state_valid p hp) hc.2).resolve_right
        fun ht => hne ht trivial).symm
    · rfl

theorem pruneAll_counted (h : Sound m) (hc : Counted m) : Counted (pruneAll ideal m) := by
  have hp := pruneAll_spec h
  have hcap := hp.frame.capacity
  have hz : countSlots (pruneAll ideal m).capacity (· == tombstone) (pruneAll ideal m).stateAt = 0 := by
    refine countSlots_eq_zero.mpr fun p hlt => beq_false_of_ne fun ht => ?_
    rw [hcap] at hlt
    by_cases hc : m.stateAt p = tombstone
    · rw [hp.stateAt_of p hlt hc trivial] at ht
      cases ht
    · rw [hp.stateAt_else p hlt fun hc' => absurd hc' hc] at ht
      exact hc ht
  refine ⟨?_, ?_⟩
  · have hcount := (hp.sound h).count_states
    have hcount₀ := h.count_states
    rw [hp.entries_eq, hz, hcap] at hcount
    rw [hcap]
    change m.numEmpty + m.numTombstone = _
    have h1 := hc.numEmpty_eq
    have h2 := hc.numTombstone_eq
    omega
  · change (0 : ℤ) = _
    rw [hz]
    rfl

omit [Inhabited κ] [Inhabited ν] in
theorem Shape.hasNotTombstone_iff (h : Shape m) {o : ℕ} (ho : o + T.kernelSize ≤ m.capacity) :
    ideal.hasNotTombstone (m.bucket o) = false ↔ m.Dead o := by
  change (m.bucket o).any (· != tombstone) = false ↔ _
  rw [List.any_eq_false]
  constructor
  · intro hall d hd
    have hmem : (m.bucket o).getD d tombstone ∈ m.bucket o := by
      rw [List.getD_eq_getElem _ _ (by rwa [h.bucket_length ho])]
      exact List.getElem_mem _
    have := hall _ hmem
    rw [bucket_getD m o hd] at this
    simpa using this
  · intro hdead s hs
    obtain ⟨d, hd, rfl⟩ := List.getElem_of_mem hs
    rw [h.bucket_length ho] at hd
    rw [← List.getD_eq_getElem _ tombstone, bucket_getD m o hd, hdead d hd]
    decide

omit [Inhabited κ] [Inhabited ν] in
/-- Pruning one dead bucket keeps the counters right. -/
theorem Counted.pruneBucket (hc : Counted m) (h : Shape m) {o : ℕ} (hd : T.kernelSize ∣ o)
    (hle : o + T.kernelSize ≤ m.capacity) (hdead : m.Dead o) : Counted (m.pruneBucket o) := by
  have hcap := (pruneBucket_frame m o).capacity
  have hst : (m.pruneBucket o).stateAt =
      fun p => if o ≤ p ∧ p < o + T.kernelSize then empty else m.stateAt p := by
    funext p
    rw [pruneBucket_stateAt h hd hle]
    exact if_congr (MapType.off_eq_iff hd p) rfl rfl
  have h1 := hc.numEmpty_eq
  have h2 := hc.numTombstone_eq
  have hfill := fun (p : State → Bool) => countSlots_fill (p := p) (f := m.stateAt) empty hle
    fun d hdk => congrArg p (hdead d hdk)
  have he := hfill (· == empty)
  have ht := hfill (· == tombstone)
  simp only [beq_self_eq_true, if_true, beq_iff_eq, tombstone_ne_empty, empty_ne_tombstone,
    if_false] at he ht
  refine ⟨?_, ?_⟩
  · rw [hcap, hst]
    change m.numEmpty + T.kernelSize = _
    omega
  · rw [hcap, hst]
    change m.numTombstone - T.kernelSize = _
    omega

/-- Pruning the dead buckets of a list. -/
theorem pruneDead_spec : ∀ (offs : List ℕ) {m : Map T ν}, Shape m → Counted m →
    (∀ o ∈ offs, T.kernelSize ∣ o ∧ o < m.capacity) →
    Pruned (fun o => o ∈ offs ∧ m.Dead o) m (pruneDead ideal offs m) ∧
      Counted (pruneDead ideal offs m) ∧ m.numEmpty ≤ (pruneDead ideal offs m).numEmpty
  | [], m, h, hc, _ => ⟨⟨h, Frame.refl m, rfl, rfl, fun p _ _ hD => absurd hD.1 List.not_mem_nil,
      fun p _ _ => rfl⟩, hc, le_rfl⟩
  | o :: offs, m, h, hc, ho => by
      obtain ⟨hd, hlt⟩ := ho o List.mem_cons_self
      have hle := h.offset_add_le hd hlt
      have hoffs : ∀ o ∈ offs, T.kernelSize ∣ o ∧ o < m.capacity :=
        fun o' ho' => ho o' (List.mem_cons_of_mem o ho')
      rw [pruneDead]
      split_ifs with hb
      · have hdead : ¬ m.Dead o := by
          rw [← h.hasNotTombstone_iff hle, hb]
          decide
        obtain ⟨hp, hc', hle'⟩ := pruneDead_spec offs h hc hoffs
        refine ⟨⟨hp.shape, hp.frame, hp.keyAt_eq, hp.entryAt_eq, fun p hlt ht hD => ?_,
          fun p hlt hne => ?_⟩, hc', hle'⟩
        · refine hp.stateAt_of p hlt ht ⟨?_, hD.2⟩
          exact (List.mem_cons.mp hD.1).resolve_left fun hoff => hdead (hoff ▸ hD.2)
        · exact hp.stateAt_else p hlt fun ht hD => hne ht ⟨List.mem_cons_of_mem o hD.1, hD.2⟩
      · have hdead : m.Dead o := (h.hasNotTombstone_iff hle).mp (by simpa using hb)
        have hst := pruneBucket_stateAt h hd hle
        obtain ⟨hp, hc', hle'⟩ := pruneDead_spec offs (pruneBucket_shape h hle)
          (hc.pruneBucket h hd hle hdead) hoffs
        have hother : ∀ p, T.off p ≠ o →
            ((m.pruneBucket o).Dead (T.off p) ↔ m.Dead (T.off p)) := by
          intro p hne
          refine forall₂_congr fun d hdk => ?_
          rw [hst, if_neg]
          rwa [MapType.off_add (T.dvd_off p) hdk]
        refine ⟨⟨hp.shape, (pruneBucket_frame m o).trans hp.frame, hp.keyAt_eq, hp.entryAt_eq,
          fun p hlt ht hD => ?_, fun p hlt hne => ?_⟩, hc', ?_⟩
        · by_cases hoff : T.off p = o
          · have he : (m.pruneBucket o).stateAt p = empty := by rw [hst, if_pos hoff]
            rw [hp.stateAt_else p hlt fun ht' => absurd (he.symm.trans ht') empty_ne_tombstone, he]
          · refine hp.stateAt_of p hlt (by rwa [hst, if_neg hoff]) ⟨?_, (hother p hoff).mpr hD.2⟩
            exact (List.mem_cons.mp hD.1).resolve_left hoff
        · have hoff : T.off p ≠ o := by
            intro hoff
            obtain ⟨d, hdk, rfl⟩ := MapType.exists_add_of_off_eq hoff
            refine hne (hdead d hdk) ⟨List.mem_cons.mpr (Or.inl hoff), ?_⟩
            rwa [hoff]
          have hs : (m.pruneBucket o).stateAt p = m.stateAt p := by rw [hst, if_neg hoff]
          rw [← hs]
          refine hp.stateAt_else p hlt fun ht hD => hne (hs ▸ ht) ?_
          exact ⟨List.mem_cons_of_mem o hD.1, (hother p hoff).mp hD.2⟩
        · refine le_trans ?_ hle'
          change m.numEmpty ≤ m.numEmpty + T.kernelSize
          omega

end Prune

/-! ### `scrub_` -/

section Scrub
variable {m : Map T ν}

/-- What `scrub_` has to meet in the table, for the keys to be found afterwards: there is nothing
to scrub, or the passes move no entry, or they leave all entries at the start of their sequences,
or they leave no entry behind a bucket of tombstones. -/
def ScrubSafe (m : Map T ν) : Prop := m.numTombstone = 0 ∨
  ∀ s, scrubPasses ideal (m.capacity * m.capacity + 2) ⟨m, 0, 0⟩ = .ok s →
    s.numMoves = 0 ∨ s.pslBits = 0 ∨ s.map.Settled

/-- After the last pass of a table with all its entries at home. -/
theorem atHome_of_swept {I : Map T ν → Prop} {m₀ : Map T ν} {n : ℕ} {b : Prop}
    (h : Swept I (fun _ => True) m₀ m n b) (hb : b) {pos : ℕ} (hp : m.Occupied pos) :
    m.AtHome pos := by
  by_contra hn
  exact (h.home hb pos hp hn).2.2 trivial

omit [Inhabited κ] [Inhabited ν] in
theorem pruneAll_numEmpty_le (hc : Counted m) : m.numEmpty ≤ (pruneAll ideal m).numEmpty := by
  change m.numEmpty ≤ m.numEmpty + m.numTombstone
  have := hc.numTombstone_eq
  omega

theorem pruneAll_valid (h : Valid m) (hhome : ∀ pos, m.Occupied pos → m.AtHome pos) :
    Valid (pruneAll ideal m) := by
  have hc := h.exact.counted
  refine (pruneAll_spec h.toSound).valid h (pruneAll_counted h.toSound hc)
    (pruneAll_numEmpty_le hc) fun pos hp i j hij hj hv _ => ?_
  have hz := h.visit_inj (by omega : 0 < m.numBuckets) hj ((hhome pos hp).trans hv.symm)
  omega

/-- Pruning the dead buckets keeps the chains exactly when the table is settled. -/
theorem pruneDead_valid (h : Valid m) :
    (m.Settled → Valid (pruneDead ideal (offsets T.kernelSize m.capacity) m)) ∧
      ((pruneDead ideal (offsets T.kernelSize m.capacity) m).Chained → m.Settled) := by
  obtain ⟨hp, hc, hle⟩ := pruneDead_spec (offsets T.kernelSize m.capacity) h.toShape
    h.exact.counted fun o ho => h.mem_offsets.mp ho
  constructor
  · exact fun hs => hp.valid h hc hle fun pos hocc i j hij hj hv hD =>
      hs pos hocc i j hij hj hv hD.1.2
  · intro hch pos hocc i j hij hj hv hdead
    refine hp.upstream h.toSound hch hocc hij hj hv T.kernelSize_pos ⟨?_, hdead⟩
      (hdead 0 T.kernelSize_pos)
    exact h.mem_offsets.mpr ⟨h.dvd_visit _ i, h.visit_lt _ i⟩

/-- The passes of `scrub_` end before its fuel does. -/
theorem scrubPasses_total {I : Map T ν → Prop} (hI : MoveInv I) (h : I m) :
    ∃ s, scrubPasses ideal (m.capacity * m.capacity + 2) ⟨m, 0, 0⟩ = .ok s ∧
      Scrubbed I ⟨m, 0, 0⟩ s := by
  have hw := (hI.linked h).weight_le
  refine scrubPasses_spec hI (m.capacity * m.capacity + 2) (s := ⟨m, 0, 0⟩) h ?_
  change m.weight < _
  omega

/-- `scrub_` always returns, and keeps the entries; it keeps the invariant exactly when the table
is safe to scrub. -/
theorem scrub_valid (h : Valid m) :
    ∃ n m', m.scrub_ ideal = .ok (n, m') ∧ m'.entries = m.entries ∧ m'.conf = m.conf ∧
      Counted m' ∧ (m.ScrubSafe → Valid m') ∧ (m'.Chained → m.ScrubSafe) := by
  rw [scrub_]
  split_ifs with ht
  · exact ⟨0, m, rfl, rfl, rfl, h.exact.counted, fun _ => h, fun _ => Or.inl ht⟩
  obtain ⟨s, hr, hs⟩ := scrubPasses_total moveInv_valid h
  have hv : Valid s.map := hs.inv
  have hsafe : m.ScrubSafe ↔ s.numMoves = 0 ∨ s.pslBits = 0 ∨ s.map.Settled := by
    constructor
    · rintro (hz | hall)
      · exact absurd hz ht
      · exact hall s hr
    · refine fun hc => Or.inr fun s' hs' => ?_
      obtain rfl := Except.ok.inj (hr.symm.trans hs')
      exact hc
  rw [hr, ok_bind, hsafe]
  refine ⟨s.numMoves, prune ideal s, rfl, ?_⟩
  rw [prune]
  split_ifs with hm hb
  · obtain hsame : s.map = m := hs.same hm
    rw [hsame]
    exact ⟨rfl, rfl, h.exact.counted, fun _ => h, fun _ => Or.inl hm⟩
  · obtain ⟨m₀, n, -, -, hlast, -⟩ := hs.last
    have hp := pruneAll_spec hv.toSound
    exact ⟨hp.entries_eq.trans hs.entries_eq, hp.frame.conf.trans hs.frame.conf,
      pruneAll_counted hv.toSound hv.exact.counted,
      fun _ => pruneAll_valid hv fun pos hpos => atHome_of_swept hlast hb hpos,
      fun _ => Or.inr (Or.inl hb)⟩
  · obtain ⟨hp, hc, -⟩ := pruneDead_spec (offsets T.kernelSize s.map.capacity) hv.toShape
      hv.exact.counted fun o ho => hv.mem_offsets.mp ho
    obtain ⟨hvalid, hsettled⟩ := pruneDead_valid hv
    refine ⟨hp.entries_eq.trans hs.entries_eq, hp.frame.conf.trans hs.frame.conf, hc,
      fun hcase => hvalid ?_, fun hch => Or.inr (Or.inr (hsettled hch))⟩
    exact (hcase.resolve_left hm).resolve_left hb

/-- `scrub_` on a map with an unbounded sequence. -/
theorem scrub_spec (hS : T.seq.isUnbounded = true) (h : Inv m) :
    ∃ n m', m.scrub_ ideal = .ok (n, m') ∧ m'.entries = m.entries ∧ m'.conf = m.conf ∧
      Counted m' ∧ (m.ScrubSafe → Inv m') ∧ (m'.Chained → m.ScrubSafe) := by
  obtain ⟨n, m', hr, he, hconf, hc, hvalid, hsafe⟩ := scrub_valid (h.valid hS)
  exact ⟨n, m', hr, he, hconf, hc, fun hs => (hvalid hs).toInv, hsafe⟩

theorem scrubOk_iff (hS : T.seq.isUnbounded = true) (h : Inv m) : m.ScrubOk ↔ m.ScrubSafe := by
  obtain ⟨n, m', hr, hentries, hconf, -, hinv, hsafe⟩ := scrub_spec hS h
  constructor
  · rintro ⟨n', m'', hr', ht⟩
    obtain ⟨rfl, rfl⟩ := Prod.mk.inj (Except.ok.inj (hr.symm.trans hr'))
    exact hsafe ht.inv.chain
  · exact fun hs => ⟨n, m', hr, hinv hs, hentries, hconf⟩

/-- With two slots per bucket every table is safe to scrub. -/
theorem scrubSafe_of_two_le (hK : 2 ≤ T.kernelSize) (h : Linked m) : m.ScrubSafe := by
  refine Or.inr fun s hr => Or.inr (Or.inr ?_)
  obtain ⟨s', hr', hs⟩ := scrubPasses_total moveInv_linked h
  obtain rfl := Except.ok.inj (hr.symm.trans hr')
  obtain ⟨m₀, n, h₀, hn, hlast, -⟩ := hs.last
  exact settled_of_swept moveInv_linked hK h₀.toSound hn hlast

end Scrub

/-! ### The calls that scrub -/

section Calls
variable {m m₁ : Map T ν}

omit [Inhabited κ] [Inhabited ν] in
theorem onScrub_eq {n : ℤ} (h : m.onScrub n = some m₁) : m₁ = m ∧ m.wouldScrub n = true := by
  rw [onScrub] at h
  split_ifs at h with hw
  exact ⟨(Option.some.inj h).symm, hw⟩

/-- `auto_shrink_and_scub_` returns the scrubbed table. -/
theorem autoShrinkAndScub_scrub {B : BucketOps} {n : ℤ} {n' : ℕ} {m' : Map T ν}
    (hw : m.wouldScrub n = true) (hr : m.scrub_ B = .ok (n', m')) :
    autoShrinkAndScub B m n = .ok (false, m') := by
  rw [wouldScrub, Bool.and_eq_true, Bool.not_eq_true'] at hw
  rw [autoShrinkAndScub, hw.1, if_neg Bool.false_ne_true, if_pos hw.2, hr, ok_bind]

/-- The table that a call scrubs is the given one without the freed slots, and the call leaves the
scrubbed table. -/
theorem scrubArg_spec (h : Exact m) {op : Op κ ν} (hop : m.scrubArg ideal op = some m₁) :
    (∃ l, Frees m m₁ l) ∧
      ∀ n m', m₁.scrub_ ideal = .ok (n, m') → ∃ r, m.step ideal op = .ok (r, m') := by
  have hslot : ∀ {p : ℕ} {b : Bool}, m.Occupied p → (b = true ↔ m.HasEmpty (T.off p)) →
      (m.free b p).onScrub (burried b) = some m₁ → (∃ l, Frees m m₁ l) ∧
        ∀ n m', m₁.scrub_ ideal = .ok (n, m') → eraseSlot ideal m b p = .ok (none, m') := by
    intro p b hp hb hon
    obtain ⟨rfl, hw⟩ := onScrub_eq hon
    refine ⟨⟨_, (h.freed hp hb).frees⟩, fun n m' hr => ?_⟩
    rw [eraseSlot, resetSlot]
    change autoShrinkAndScub ideal (m.free b p) (burried b) >>= _ = _
    rw [autoShrinkAndScub_scrub hw hr, ok_bind]
    rfl
  have hmany : ∀ {m' : Map T ν} {l : List ℕ}, Freed m m' l →
      m'.onScrub (m'.numTombstone - m.numTombstone) = some m₁ → (∃ l, Frees m m₁ l) ∧
        ∀ n m'', m₁.scrub_ ideal = .ok (n, m'') →
          ∃ k, finishErase ideal m m' = .ok (k, m'') := by
    intro m' l hf hon
    obtain ⟨rfl, hw⟩ := onScrub_eq hon
    refine ⟨⟨l, hf.frees⟩, fun n m'' hr => ?_⟩
    have hne : m₁.numTombstone - m.numTombstone ≠ 0 := by
      intro hz
      simp [wouldScrub, hz] at hw
    have h1 := hf.numEmpty_le
    have h2 := hf.numTombstone_le
    rw [finishErase, if_neg (by omega)]
    dsimp only
    rw [autoShrinkAndScub_scrub hw hr, ok_bind]
    exact ⟨_, rfl⟩
  have hfirst : ∀ {key : κ}, m.onFree (m.locateFirst ideal key) = some m₁ →
      (∃ l, Frees m m₁ l) ∧
      ∀ n m', m₁.scrub_ ideal = .ok (n, m') → ∃ r, m.eraseFirst ideal key = .ok (r, m') := by
    intro key hon
    cases hloc : m.locateFirst ideal key with
    | error e =>
        rw [hloc] at hon
        cases hon
    | ok r =>
        obtain ⟨r, q⟩ := r
        rw [hloc] at hon
        rcases r with _ | ⟨p, b⟩
        · cases hon
        · obtain ⟨hp, hb⟩ := locateFirst_stores h.toSound hloc p b rfl
          obtain ⟨hl, hscrub⟩ := hslot hp.1 hb hon
          refine ⟨hl, fun n m' hr => ?_⟩
          rw [eraseFirst, hloc, ok_bind]
          change ∃ r, eraseSlot ideal m b p >>= _ = _
          rw [hscrub n m' hr, ok_bind]
          exact ⟨_, rfl⟩
  cases op with
  | scrub =>
      obtain rfl := Option.some.inj hop
      refine ⟨⟨[], .nil m⟩, fun n m' hr => ?_⟩
      rw [step, hr, ok_bind]
      exact ⟨_, rfl⟩
  | eraseFirst key =>
      obtain ⟨hinv, hscrub⟩ := hfirst hop
      refine ⟨hinv, fun n m' hr => ?_⟩
      obtain ⟨r, hr'⟩ := hscrub n m' hr
      rw [step, hr', ok_bind]
      exact ⟨_, rfl⟩
  | eraseNext pos seq key =>
      rw [scrubArg] at hop
      split_ifs at hop with hc
      rcases locateNext_spec h.toSound pos seq key with ⟨e, hr, -⟩ | ⟨r, q, hloc, hst⟩
      · rw [hr] at hop
        cases hop
      · rw [hloc] at hop
        rcases r with _ | ⟨p, b⟩
        · cases hop
        · obtain ⟨hp, hb⟩ := hst p b rfl
          obtain ⟨hinv, hscrub⟩ := hslot hp.1 hb hop
          refine ⟨hinv, fun n m' hr => ?_⟩
          rw [step, eraseNext, if_pos hc.1, if_pos hc.2, hloc, ok_bind]
          change ∃ r, (eraseSlot ideal m b p >>= _) >>= _ = _
          rw [hscrub n m' hr, ok_bind, ok_bind]
          exact ⟨_, rfl⟩
  | eraseAt pos =>
      rw [scrubArg] at hop
      split_ifs at hop with hc
      rw [h.off_eq hc.1] at hop
      obtain ⟨hinv, hscrub⟩ := hslot hc (h.hasEmpty_iff (h.off_add_le hc.1)) hop
      refine ⟨hinv, fun n m' hr => ?_⟩
      rw [step, eraseAt, if_pos hc.1, if_pos hc.2, h.off_eq hc.1]
      dsimp only
      rw [hscrub n m' hr, ok_bind, ok_bind]
      exact ⟨_, rfl⟩
  | eraseIf pred =>
      obtain ⟨l, hf, -⟩ := freeIf_spec pred (offsets T.kernelSize m.capacity) h
        fun o ho => h.mem_offsets.mp ho
      obtain ⟨hinv, hscrub⟩ := hmany hf hop
      refine ⟨hinv, fun n m' hr => ?_⟩
      obtain ⟨k, hk⟩ := hscrub n m' hr
      rw [step, eraseIf, hk, ok_bind]
      exact ⟨_, rfl⟩
  | eraseAll key =>
      rw [scrubArg] at hop
      cases hd : T.duplicates with
      | true =>
          rw [if_pos hd] at hop
          cases hloop : eraseAllLoop ideal m key with
          | error e =>
              rw [hloop] at hop
              cases hop
          | ok m' =>
              rw [hloop] at hop
              obtain ⟨l, hf, -⟩ := eraseAllLoop_freed h hloop
              obtain ⟨hl, hscrub⟩ := hmany hf hop
              refine ⟨hl, fun n m'' hr => ?_⟩
              obtain ⟨k, hk⟩ := hscrub n m'' hr
              rw [step, eraseAll, if_pos hd, hloop, ok_bind, hk, ok_bind]
              exact ⟨_, rfl⟩
      | false =>
          have hnd : ¬ T.duplicates = true := by simp [hd]
          rw [if_neg hnd] at hop
          obtain ⟨hinv, hscrub⟩ := hfirst hop
          refine ⟨hinv, fun n m' hr => ?_⟩
          obtain ⟨r, hr'⟩ := hscrub n m' hr
          rw [step, eraseAll, if_neg hnd, hr', ok_bind, ok_bind]
          exact ⟨_, rfl⟩
  | _ => cases hop

end Calls

/-! ### Runs with scrubs -/

section Runs
variable (B : Kernel T.kernelSize) (conf : Conf T.conf)

/-- What a scrub is to keep: the entries, the keys that are found, the counters, the chains. -/
structure ScrubKeeps (m m' : Map T ν) : Prop where
  entries_eq : m'.entries = m.entries
  found : ∀ key p q, m.findFirst B.ops key = .ok (some p, q) →
    ∃ p' q', m'.findFirst B.ops key = .ok (some p', q')
  counted : Counted m'
  chained : Chained m'

/-- Every table that the call scrubs is safe. -/
def ScrubsSafe (m : Map T ν) (op : Op κ ν) : Prop :=
  ∀ m₁, m.scrubArg B.ops op = some m₁ → m₁.ScrubSafe

theorem NoScrub.scrubsSafe {m : Map T ν} {op : Op κ ν} (h : NoScrub B m op) : ScrubsSafe B m op := by
  intro m₁ hm₁
  rw [NoScrub] at h
  rw [h] at hm₁
  cases hm₁

variable (hS : T.seq.isUnbounded = true)
include hS

theorem ScrubsSafe.scrubsOk {m : Map T ν} (h : Inv m) {op : Op κ ν} (hop : ScrubsSafe B m op) :
    ScrubsOk B m op := by
  intro m₁ hm₁
  have hsafe := hop m₁ hm₁
  rw [scrubArg_eq B.lawful h.toSound] at hm₁
  obtain ⟨⟨l, hf⟩, -⟩ := scrubArg_spec h.exact hm₁
  exact (scrubOk_iff hS (hf.inv h)).mpr hsafe

/-- `scrub_` keeps what it is to keep exactly when the table is safe to scrub. -/
theorem scrubKeeps_iff {m : Map T ν} (h : Inv m) :
    ∃ n m', m.scrub_ B.ops = .ok (n, m') ∧ (ScrubKeeps B m m' ↔ m.ScrubSafe) := by
  obtain ⟨n, m', hr, hentries, -, hcounted, hinv, hsafe⟩ := scrub_spec hS h
  refine ⟨n, m', (scrub_agree B.lawful h.toSound).1.trans hr, fun hk => hsafe hk.chained,
    fun hs => ⟨hentries, fun key p q hp => ?_, hcounted, (hinv hs).chain⟩⟩
  have hm' := hinv hs
  obtain ⟨e, he, hemp⟩ := h.exists_empty
  obtain ⟨e', he', hemp'⟩ := hm'.exists_empty
  rw [findFirst_eq B.lawful h.toSound] at hp
  have hc : m'.Contains key := by
    rw [contains_congr hentries, contains_iff]
    exact (findFirst_isSome_iff h.toTable hS he hemp hp).mp rfl
  obtain ⟨r, q', hr', -⟩ := findFirst_spec hm'.toTable hS he' hemp' key
  have hsome := (findFirst_isSome_iff hm'.toTable hS he' hemp' hr').mpr (contains_iff.mp hc)
  obtain ⟨p', rfl⟩ := Option.isSome_iff_exists.mp hsome
  exact ⟨p', q', (findFirst_eq B.lawful hm'.toSound key).trans hr'⟩

end Runs

end Map

end Nvhm
