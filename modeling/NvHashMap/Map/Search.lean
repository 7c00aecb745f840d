import NvHashMap.Map.Update

/-! # The probe loops

`probe_cases` is the rule for a probe loop; `probe_spec` is its form for an unbounded sequence: an
invariant that every step keeps, and that cannot hold after all buckets, makes the loop leave
through its body.  The invariants below say that no bucket so far had an empty slot; such a loop
ends because the table has an empty slot and the sequence visits every bucket (`not_all_full`).  The
other half is `not_stores_of_stop`: where a lookup stops, the chains say that the key is not stored
further on. -/

namespace Nvhm

open Buffer SlotCount

variable {κ ν : Type} {T : MapType κ}

/-- What holds after a step: `Q` of the next state, or `P` of the result. -/
def Flow.Sat {σ α : Type} (r : Flow σ α) (Q : σ → Prop) (P : α → Prop) : Prop :=
  match r with
  | .cont s => Q s
  | .done a => P a

namespace Map

/-! ### The rule for probe loops -/

theorem seqAt_psl (T : MapType κ) (key : κ) (j : ℕ) :
    (seqAt T key j).psl = T.kernelSize * j :=
  ProbeSeq.iter_psl _ _ _ _

theorem seqAt_succ (T : MapType κ) (key : κ) (j : ℕ) :
    (seqAt T key j).advance T.seq T.kernelSize = seqAt T key (j + 1) := rfl

theorem visit_eq (m : Map T ν) (key : κ) (j : ℕ) :
    alignPos ((seqAt T key j).next T.seq) m.bucketMask = m.visit key j := rfl

theorem Shape.psl_lt {m : Map T ν} (h : Shape m) (key : κ) {j : ℕ} :
    (seqAt T key j).psl < m.capacity ↔ j < m.numBuckets := by
  rw [seqAt_psl, ← h.kernelSize_mul]
  exact Nat.mul_lt_mul_left T.kernelSize_pos

/-- A bounded sequence goes on for at most as many steps as a longer one. -/
theorem hasNext_mono {key : κ} {i j : ℕ} (hij : i ≤ j)
    (h : (seqAt T key j).hasNext T.seq = true) : (seqAt T key i).hasNext T.seq = true := by
  unfold ProbeSeq.hasNext at h ⊢
  cases hn : T.seq.maxLength with
  | none => rfl
  | some n =>
      rw [hn] at h
      have hlt := of_decide_eq_true h
      have hle := Nat.mul_le_mul_left T.kernelSize hij
      rw [seqAt_psl] at hlt
      refine decide_eq_true ?_
      rw [seqAt_psl]
      omega

/-- The rule for probe loops.  The loop leaves through its body, or its sequence ends, or it has
visited all buckets and runs into the assertion. -/
theorem probe_cases {σ α : Type} {m : Map T ν} (hm : Shape m) {full : Err} {key : κ}
    {body : ProbeSeq → ℕ → σ → Flow σ α} {exhausted : ProbeSeq → σ → α} {s : σ}
    (I : ℕ → σ → Prop) (P : α → Prop) (h0 : I 0 s)
    (hstep : ∀ j s, j < m.numBuckets → (seqAt T key j).hasNext T.seq = true → I j s →
      (body (seqAt T key j) (m.visit key j) s).Sat (I (j + 1)) P)
    (hexh : ∀ j s, j ≤ m.numBuckets → (seqAt T key j).hasNext T.seq = false → I j s →
      P (exhausted (seqAt T key j) s)) :
    (∃ a, m.probe full key body exhausted s = .ok a ∧ P a) ∨
      m.probe full key body exhausted s = .error full ∧ ∃ s, I m.numBuckets s := by
  -- induction on the number of buckets that are left
  have hloop : ∀ d j s, j + d = m.numBuckets → I j s →
      (∃ a, probeLoop T.seq T.kernelSize m.bucketMask m.capacity full body exhausted (d + 1)
        (seqAt T key j) s = .ok a ∧ P a) ∨
      probeLoop T.seq T.kernelSize m.bucketMask m.capacity full body exhausted (d + 1)
        (seqAt T key j) s = .error full ∧ ∃ s, I m.numBuckets s := by
    intro d
    induction d with
    | zero =>
        intro j s hj hI
        obtain rfl : j = m.numBuckets := hj
        rw [probeLoop]
        cases hn : (seqAt T key m.numBuckets).hasNext T.seq with
        | false =>
            rw [if_neg Bool.false_ne_true]
            exact Or.inl ⟨_, rfl, hexh _ s le_rfl hn hI⟩
        | true =>
            rw [if_pos rfl, if_neg fun hc => absurd ((hm.psl_lt key).mp hc) (lt_irrefl _)]
            exact Or.inr ⟨rfl, s, hI⟩
    | succ d ih =>
        intro j s hj hI
        have hlt : j < m.numBuckets := by omega
        rw [probeLoop]
        cases hn : (seqAt T key j).hasNext T.seq with
        | false =>
            rw [if_neg Bool.false_ne_true]
            exact Or.inl ⟨_, rfl, hexh j s hlt.le hn hI⟩
        | true =>
            have hsat := hstep j s hlt hn hI
            rw [if_pos rfl, if_pos ((hm.psl_lt key).mpr hlt), visit_eq]
            cases hb : body (seqAt T key j) (m.visit key j) s with
            | cont s' =>
                rw [hb] at hsat
                rw [seqAt_succ]
                exact ih (j + 1) s' (by omega) hsat
            | done a =>
                rw [hb] at hsat
                exact Or.inl ⟨a, rfl, hsat⟩
  exact hloop m.numBuckets 0 s (by omega) h0

/-- The rule for an invariant under which the sequence goes on, and that cannot hold after all
buckets. -/
theorem probe_total {σ α : Type} {m : Map T ν} (hm : Shape m) {full : Err} {key : κ}
    {body : ProbeSeq → ℕ → σ → Flow σ α} {exhausted : ProbeSeq → σ → α} {s : σ}
    (I : ℕ → σ → Prop) (P : α → Prop) (h0 : I 0 s)
    (hstep : ∀ j s, j < m.numBuckets → I j s →
      (body (seqAt T key j) (m.visit key j) s).Sat (I (j + 1)) P)
    (hnext : ∀ j s, I j s → (seqAt T key j).hasNext T.seq = true)
    (hend : ∀ s, ¬ I m.numBuckets s) :
    ∃ a, m.probe full key body exhausted s = .ok a ∧ P a := by
  have hexh : ∀ j s, j ≤ m.numBuckets → (seqAt T key j).hasNext T.seq = false → I j s →
      P (exhausted (seqAt T key j) s) := by
    intro j s _ hn hI
    rw [hnext j s hI] at hn
    cases hn
  rcases probe_cases hm I P h0 (fun j s hj _ hI => hstep j s hj hI) hexh with hr | ⟨-, s, hI⟩
  · exact hr
  · exact absurd hI (hend s)

/-- The rule for an unbounded sequence. -/
theorem probe_spec {σ α : Type} {m : Map T ν} (hm : Shape m) (hS : T.seq.isUnbounded = true)
    {full : Err} {key : κ} {body : ProbeSeq → ℕ → σ → Flow σ α} {exhausted : ProbeSeq → σ → α}
    {s : σ} (I : ℕ → σ → Prop) (P : α → Prop) (h0 : I 0 s)
    (hstep : ∀ j s, j < m.numBuckets → I j s →
      (body (seqAt T key j) (m.visit key j) s).Sat (I (j + 1)) P)
    (hend : ∀ s, ¬ I m.numBuckets s) :
    ∃ a, m.probe full key body exhausted s = .ok a ∧ P a :=
  probe_total hm I P h0 hstep (fun _ _ _ => ProbeSeq.hasNext_of_unbounded _ hS _) hend

/-- A loop that returns has visited every bucket at most once. -/
theorem probe_within {σ α : Type} {m : Map T ν} (hm : Shape m) (hS : T.seq.isUnbounded = true)
    {full : Err} {key : κ} {body : ProbeSeq → ℕ → σ → Flow σ α} {exhausted : ProbeSeq → σ → α}
    {s : σ} {a : α} (h : m.probe full key body exhausted s = .ok a) :
    probeLoop T.seq T.kernelSize m.bucketMask m.capacity full body exhausted
      (m.capacity / T.kernelSize) (initSeq T key) s = .ok a := by
  have hloop : ∀ d j s, j + d = m.numBuckets →
      probeLoop T.seq T.kernelSize m.bucketMask m.capacity full body exhausted (d + 1)
        (seqAt T key j) s = .ok a →
      probeLoop T.seq T.kernelSize m.bucketMask m.capacity full body exhausted d
        (seqAt T key j) s = .ok a := by
    intro d
    induction d with
    | zero =>
        intro j s hj hr
        rw [probeLoop, if_pos (ProbeSeq.hasNext_of_unbounded _ hS _),
          if_neg fun hc => absurd ((hm.psl_lt key).mp hc) (by omega)] at hr
        cases hr
    | succ d ih =>
        intro j s hj hr
        rw [probeLoop, if_pos (ProbeSeq.hasNext_of_unbounded _ hS _),
          if_pos ((hm.psl_lt key).mpr (by omega))] at hr ⊢
        cases hb : body (seqAt T key j) (alignPos ((seqAt T key j).next T.seq) m.bucketMask) s with
        | cont s' =>
            rw [hb] at hr
            exact ih (j + 1) s' (by omega) hr
        | done b =>
            rw [hb] at hr
            exact hr
  exact hloop m.numBuckets 0 s (by omega) h

/-! ### Stopping -/

section Keys
variable [Inhabited κ]

/-- The bucket at `o` holds no key equal to `key`. -/
def NoMatch (m : Map T ν) (key : κ) (o : ℕ) : Prop := ∀ i < T.kernelSize, ¬ m.Stores key (o + i)

/-- The first `j` buckets have no empty slot. -/
def FullUpTo (m : Map T ν) (key : κ) (j : ℕ) : Prop := ∀ i < j, ¬ m.HasEmpty (m.visit key i)

/-- The first `j` buckets do not hold the key. -/
def NoMatchUpTo (m : Map T ν) (key : κ) (j : ℕ) : Prop := ∀ i < j, m.NoMatch key (m.visit key i)

omit [Inhabited κ] in
theorem FullUpTo.succ {m : Map T ν} {key : κ} {j : ℕ} (h : m.FullUpTo key j)
    (hj : ¬ m.HasEmpty (m.visit key j)) : m.FullUpTo key (j + 1) := by
  intro i hi
  rcases Nat.lt_succ_iff_lt_or_eq.mp hi with hlt | rfl
  · exact h i hlt
  · exact hj

theorem NoMatchUpTo.succ {m : Map T ν} {key : κ} {j : ℕ} (h : m.NoMatchUpTo key j)
    (hj : m.NoMatch key (m.visit key j)) : m.NoMatchUpTo key (j + 1) := by
  intro i hi
  rcases Nat.lt_succ_iff_lt_or_eq.mp hi with hlt | rfl
  · exact h i hlt
  · exact hj

omit [Inhabited κ] in
theorem fullUpTo_zero (m : Map T ν) (key : κ) : m.FullUpTo key 0 :=
  fun _ hi => absurd hi (Nat.not_lt_zero _)

/-- The probe sequence of `key` reaches the bucket at `o` before it ends and before it passes an
empty slot. -/
def Near (m : Map T ν) (key : κ) (o : ℕ) : Prop :=
  ∃ j < m.numBuckets, m.visit key j = o ∧ (seqAt T key j).hasNext T.seq = true ∧ m.FullUpTo key j

omit [Inhabited κ] in
theorem Near.reaches {m : Map T ν} {key : κ} {o : ℕ} (h : m.Near key o) : m.Reaches key o := by
  obtain ⟨j, hj, hv, -, hfull⟩ := h
  exact ⟨j, hj, hv, hfull⟩

omit [Inhabited κ] in
theorem Reaches.near {m : Map T ν} {key : κ} {o : ℕ} (h : m.Reaches key o)
    (hS : T.seq.isUnbounded = true) : m.Near key o := by
  obtain ⟨j, hj, hv, hfull⟩ := h
  exact ⟨j, hj, hv, ProbeSeq.hasNext_of_unbounded _ hS _, hfull⟩

omit [Inhabited κ] in
theorem FullUpTo.reaches {m : Map T ν} {key : κ} {j : ℕ} (h : m.FullUpTo key j)
    (hj : j < m.numBuckets) : m.Reaches key (m.visit key j) := ⟨j, hj, rfl, h⟩

omit [Inhabited κ] in
/-- The bucket of an empty slot. -/
theorem hasEmpty_of_eq {m : Map T ν} {p : ℕ} (h : m.stateAt p = empty) : m.HasEmpty (T.off p) := by
  have h1 := T.off_le p
  have h2 := T.lt_off_add p
  exact ⟨p - T.off p, by omega, by rwa [Nat.add_sub_cancel' h1]⟩

omit [Inhabited κ] in
/-- A table with an empty slot is not full on the whole probe sequence of a key. -/
theorem Shape.not_all_full {m : Map T ν} (hm : Shape m) {p : ℕ} (hp : p < m.capacity)
    (he : m.stateAt p = empty) (key : κ) : ¬ m.FullUpTo key m.numBuckets := by
  intro hfull
  obtain ⟨j, hj, hv⟩ := hm.exists_visit key (T.dvd_off p) (lt_of_le_of_lt (T.off_le p) hp)
  apply hfull j hj
  rw [hv]
  exact hasEmpty_of_eq he

/-- A stored key lies in no bucket after the first one with an empty slot. -/
theorem Table.visit_of_stores {m : Map T ν} (h : Table m) {key : κ} {j : ℕ}
    (he : m.HasEmpty (m.visit key j)) {p : ℕ} (hp : m.Stores key p) :
    ∃ i ≤ j, m.visit key i = T.off p := by
  obtain ⟨j', -, hv, hne⟩ := h.chain_of_stores hp
  refine ⟨j', ?_, hv⟩
  by_contra hlt
  exact hne j (by omega) he

/-- Where a lookup stops at an empty slot, the key is not stored at all. -/
theorem Table.not_stores_of_stop {m : Map T ν} (h : Table m) {key : κ} {j : ℕ}
    (he : m.HasEmpty (m.visit key j)) (hn : m.NoMatchUpTo key (j + 1)) (p : ℕ) :
    ¬ m.Stores key p := by
  intro hp
  obtain ⟨i, hi, hv⟩ := h.visit_of_stores he hp
  obtain ⟨d, hd, hpd⟩ := MapType.exists_add_of_off_eq hv.symm
  exact hn i (by omega) d hd (hpd ▸ hp)

/-! ### Chains within a sequence -/

omit [Inhabited κ] in
/-- A key stays near a bucket if no bucket gets an empty slot that had none. -/
theorem Near.mono {m m' : Map T ν} (hm : Shape m) (hf : Frame m m')
    (he : ∀ o, T.kernelSize ∣ o → m'.HasEmpty o → m.HasEmpty o) {key : κ} {o : ℕ}
    (h : m.Near key o) : m'.Near key o := by
  obtain ⟨j, hj, hv, hn, hfull⟩ := h
  refine ⟨j, ?_, ?_, hn, fun i hi hemp => ?_⟩
  · rw [hf.numBuckets]
    exact hj
  · rw [hf.visit, hv]
  · rw [hf.visit] at hemp
    exact hfull i hi (he _ (hm.dvd_visit key i) hemp)

/-- The invariant of the state bytes, with the chains; also for a sequence that ends. -/
structure Linked (m : Map T ν) : Prop extends Sound m where
  near : ∀ pos, m.Occupied pos → m.Near (m.keyAt pos) (T.off pos)

theorem Table.linked {m : Map T ν} (h : Table m) (hS : T.seq.isUnbounded = true) : Linked m :=
  { h.toSound with near := fun pos hp => (h.chain pos hp).near hS }

/-- Filling a slot that the key is near keeps the chains. -/
theorem Linked.put {m m' : Map T ν} (h : Linked m) (hf : Frame m m') (hshape : Shape m') {pos : ℕ}
    {key : κ} (hst : m'.stateAt = Function.update m.stateAt pos (keyState T key))
    (hk : m'.keyAt = Function.update m.keyAt pos key) (hr : m.Near key (T.off pos)) :
    Linked m' := by
  have hmono : ∀ {key : κ} {o : ℕ}, m.Near key o → m'.Near key o :=
    Near.mono h.toShape hf fun o _ => HasEmpty.of_put (ne_empty_of_isHash (isHash_keyState T key)) hst
  refine { h.toSound.put hf hshape hst hk with near := fun q hq => ?_ }
  rw [hk]
  by_cases hqp : q = pos
  · rw [hqp, Function.update_self]
    exact hmono hr
  · rw [Function.update_of_ne hqp]
    exact hmono (h.near q ((occupied_put hf hst hqp).mp hq))

/-- Freeing a slot keeps the chains, if it becomes empty only next to an empty slot. -/
theorem Linked.release {m m' : Map T ν} (h : Linked m) (hf : Frame m m') (hshape : Shape m')
    {pos : ℕ} {b : Bool} (hb : b = true → m.HasEmpty (T.off pos))
    (hst : m'.stateAt = Function.update m.stateAt pos (freed b)) (hk : m'.keyAt = m.keyAt) :
    Linked m' := by
  have hemp : freed b = empty → m.HasEmpty (T.off pos) := by
    cases b with
    | true => exact fun _ => hb rfl
    | false => exact fun hc => absurd hc tombstone_ne_empty
  refine { h.toSound.release hf hshape (by cases b <;> decide) (isHash_freed b) hst hk with
    near := fun q hq => ?_ }
  obtain ⟨-, hq⟩ := occupied_of_release hf (isHash_freed b) hst hq
  rw [hk]
  exact Near.mono h.toShape hf (fun o ho => HasEmpty.of_release hemp hst ho) (h.near q hq)

theorem Linked.free {m : Map T ν} (h : Linked m) {pos : ℕ} (hp : pos < m.capacity) {b : Bool}
    (hb : b = true → m.HasEmpty (T.off pos)) : Linked (m.free b pos) :=
  h.release (free_frame m b pos) (free_shape h.toShape b pos) hb (free_stateAt h.toShape b hp)
    (free_keyAt m b pos)

theorem Linked.occupy {m : Map T ν} (h : Linked m) {pos : ℕ} (hp : pos < m.capacity) {key : κ}
    (hr : m.Near key (T.off pos)) (e : ℤ) : Linked (m.occupy pos key e) :=
  h.put (occupy_frame m pos key e) (occupy_shape h.toShape pos key e)
    (occupy_stateAt h.toShape hp key e) (occupy_keyAt h.toShape hp key e) hr

/-- The invariant of a map, with chains that end before the sequences do. -/
structure Valid (m : Map T ν) : Prop extends Inv m where
  near : ∀ pos, m.Occupied pos → m.Near (m.keyAt pos) (T.off pos)

theorem Valid.linked {m : Map T ν} (h : Valid m) : Linked m := { h.toSound with near := h.near }

theorem Inv.valid {m : Map T ν} (h : Inv m) (hS : T.seq.isUnbounded = true) : Valid m :=
  { h with near := fun pos hp => (h.chain pos hp).near hS }

/-! ### Buckets -/

omit [Inhabited κ] in
theorem Shape.hasEmpty_iff {m : Map T ν} (h : Shape m) {o : ℕ} (ho : o + T.kernelSize ≤ m.capacity) :
    ideal.hasEmpty (m.bucket o) = true ↔ m.HasEmpty o := by
  change (m.bucket o).any (· == empty) = true ↔ _
  rw [List.any_eq_true]
  constructor
  · rintro ⟨s, hs, he⟩
    obtain ⟨i, hi, rfl⟩ := List.getElem_of_mem hs
    have hmem := (h.mem_slots_bucket (p := (· == empty)) ho).mp (mem_slots.mpr ⟨hi, he⟩)
    exact ⟨i, hmem.1, eq_of_beq hmem.2⟩
  · rintro ⟨i, hi, he⟩
    have hmem := (h.mem_slots_bucket (p := (· == empty)) ho).mpr ⟨hi, beq_iff_eq.mpr he⟩
    obtain ⟨hlt, hs⟩ := mem_slots.mp hmem
    exact ⟨_, List.getElem_mem hlt, hs⟩

/-- A candidate whose key is `key`, and the slot stores `key`. -/
theorem Sound.stores_iff {m : Map T ν} (h : Sound m) {o i : ℕ} (ho : o + T.kernelSize ≤ m.capacity)
    (hi : i < T.kernelSize) (key : κ) : m.Stores key (o + i) ↔
      m.stateAt (o + i) = keyState T key ∧ T.key.eq (m.keyAt (o + i)) key = true := by
  constructor
  · exact fun hs => ⟨h.state_of_stores hs, hs.2⟩
  · rintro ⟨hs, heq⟩
    refine ⟨⟨by omega, ?_⟩, heq⟩
    rw [containsAt, hs]
    exact isHash_keyState T key

/-- The slots of a bucket that store `key`, in ascending order. -/
theorem Sound.mem_matches {m : Map T ν} (h : Sound m) {o i : ℕ}
    (ho : o + T.kernelSize ≤ m.capacity) (key : κ) :
    i ∈ (ideal.hits (m.bucket o) (keyState T key)).filter
        (fun i => T.key.eq (m.keyAt (o + i)) key) ↔ i < T.kernelSize ∧ m.Stores key (o + i) := by
  rw [List.mem_filter]
  change i ∈ slots _ _ ∧ _ ↔ _
  rw [h.mem_slots_bucket ho, beq_iff_eq, and_assoc]
  exact and_congr_right fun hi => (h.stores_iff ho hi key).symm

/-- What the search of one bucket finds. -/
theorem Sound.firstMatch_spec {m : Map T ν} (h : Sound m) {o : ℕ}
    (ho : o + T.kernelSize ≤ m.capacity) (key : κ) :
    match m.firstMatch o key (ideal.hits (m.bucket o) (keyState T key)) with
    | some i => i < T.kernelSize ∧ m.Stores key (o + i)
    | none => m.NoMatch key o := by
  cases hf : m.firstMatch o key (ideal.hits (m.bucket o) (keyState T key)) with
  | some i =>
      exact (h.mem_matches ho key).mp (List.mem_filter.mpr
        ⟨List.mem_of_find?_eq_some hf, List.find?_some (p := fun i => T.key.eq (m.keyAt (o + i)) key) hf⟩)
  | none =>
      intro i hi hs
      obtain ⟨hmem, heq⟩ := List.mem_filter.mp ((h.mem_matches ho key).mpr ⟨hi, hs⟩)
      exact List.find?_eq_none.mp hf i hmem heq

/-! ### `find_first_` -/

/-- What a lookup returns: a slot that stores the key, or the step at which it stopped. -/
def Located (m : Map T ν) (key : κ) (r : Option ℕ) (q : ProbeSeq) : Prop :=
  ∃ j < m.numBuckets, q = seqAt T key j ∧ m.FullUpTo key j ∧ m.NoMatchUpTo key j ∧
    match r with
    | some p => m.Stores key p ∧ T.off p = m.visit key j
    | none => m.HasEmpty (m.visit key j) ∧ m.NoMatch key (m.visit key j)

theorem Located.stores {m : Map T ν} {key : κ} {p : ℕ} {q : ProbeSeq}
    (h : m.Located key (some p) q) : m.Stores key p := by
  obtain ⟨j, -, -, -, -, hs, -⟩ := h
  exact hs

theorem Located.not_stores {m : Map T ν} (hm : Table m) {key : κ} {q : ProbeSeq}
    (h : m.Located key none q) (p : ℕ) : ¬ m.Stores key p := by
  obtain ⟨j, -, -, -, hn, he, hj⟩ := h
  exact hm.not_stores_of_stop he (hn.succ hj) p

variable {m : Map T ν} (h : Table m) (hS : T.seq.isUnbounded = true) {e : ℕ} (he : e < m.capacity)
  (hempty : m.stateAt e = empty)
include h hS he hempty

theorem locateFirst_spec (key : κ) : ∃ r q, m.locateFirst ideal key = .ok (r, q) ∧
    m.Located key (r.map Prod.fst) q ∧
    ∀ p b, r = some (p, b) → (b = true ↔ m.HasEmpty (T.off p)) := by
  suffices hspec : ∃ a, m.locateFirst ideal key = .ok a ∧ m.Located key (a.1.map Prod.fst) a.2 ∧
      ∀ p b, a.1 = some (p, b) → (b = true ↔ m.HasEmpty (T.off p)) by
    obtain ⟨⟨r, q⟩, ha, hl⟩ := hspec
    exact ⟨r, q, ha, hl⟩
  refine probe_spec h.toShape hS (fun j _ => m.FullUpTo key j ∧ m.NoMatchUpTo key j) _
    ⟨fun _ hi => absurd hi (Nat.not_lt_zero _), fun _ hi => absurd hi (Nat.not_lt_zero _)⟩ ?_
    fun _ hI => h.not_all_full he hempty key hI.1
  rintro j - hj ⟨hfull, hno⟩
  have ho := h.visit_add_le key j
  have hmatch := h.firstMatch_spec ho key
  dsimp only
  split
  · next i hi =>
      rw [hi] at hmatch
      have hoff := MapType.off_add (h.dvd_visit key j) hmatch.1
      refine ⟨⟨j, hj, rfl, hfull, hno, hmatch.2, hoff⟩, ?_⟩
      rintro p b hpb
      obtain ⟨rfl, rfl⟩ := Prod.mk.inj (Option.some.inj hpb)
      rw [hoff]
      exact h.hasEmpty_iff ho
  · next hi =>
      rw [hi] at hmatch
      split_ifs with hb
      · exact ⟨⟨j, hj, rfl, hfull, hno, (h.hasEmpty_iff ho).mp hb, hmatch⟩, by simp⟩
      · exact ⟨hfull.succ fun hc => hb ((h.hasEmpty_iff ho).mpr hc), hno.succ hmatch⟩

theorem findFirst_spec (key : κ) :
    ∃ r q, m.findFirst ideal key = .ok (r, q) ∧ m.Located key r q := by
  obtain ⟨r, q, hr, hl, -⟩ := locateFirst_spec h hS he hempty key
  refine ⟨r.map Prod.fst, q, ?_, hl⟩
  rw [findFirst, hr]
  rfl

/-- `find_first_` returns the slot of a stored key. -/
theorem findFirst_isSome_iff {key : κ} {r : Option ℕ} {q : ProbeSeq}
    (hr : m.findFirst ideal key = .ok (r, q)) : r.isSome = true ↔ ∃ p, m.Stores key p := by
  obtain ⟨r', q', hr', hl⟩ := findFirst_spec h hS he hempty key
  obtain ⟨rfl, rfl⟩ := Prod.mk.inj (Except.ok.inj (hr'.symm.trans hr))
  cases r' with
  | some p => exact ⟨fun _ => ⟨p, hl.stores⟩, fun _ => rfl⟩
  | none =>
      refine ⟨fun hc => absurd hc (by simp), fun ⟨p, hp⟩ => absurd hp (hl.not_stores h p)⟩

end Keys

end Map

end Nvhm
