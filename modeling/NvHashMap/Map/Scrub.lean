import NvHashMap.Map.Refinement

/-! # Scrubbing

`scrub_` works in passes.  A pass moves every entry to the first free slot upstream on its probe
sequence, if there is one.  A move keeps the invariant and the entries (`moveEntry_inv`) and brings
the entry nearer to the start of its sequence, so the passes end (`weight`).

Passes go on until one makes at most one move.  A table is `Settled` if no key is stored behind a
bucket of tombstones.  After a pass without moves it is.  After one move it is if a bucket has two
slots or more: a bucket that a single move leaves without keys had a free slot before that move,
so it was not upstream of any key (`settled_of_swept`).  With one slot per bucket the move can free
a bucket that the pass had found occupied upstream of another key. -/

namespace Nvhm

open Buffer SlotCount

variable {κ ν : Type} {T : MapType κ} [Inhabited κ] [Inhabited ν]

namespace Map

/-! ### Upstream -/

section Upstream
variable {m : Map T ν}

/-- The first `j` buckets hold keys in all their slots. -/
def Blocked (m : Map T ν) (key : κ) (j : ℕ) : Prop :=
  ∀ i < j, ∀ d < T.kernelSize, isHash (m.stateAt (m.visit key i + d)) = true

/-- The entry at `pos` has no free slot upstream. -/
def Tight (m : Map T ν) (pos : ℕ) : Prop :=
  ∃ j < m.numBuckets, m.visit (m.keyAt pos) j = T.off pos ∧ m.Blocked (m.keyAt pos) j

/-- The probe sequence of the entry at `pos` passes the bucket of the slot `d`, before it comes to
the bucket of the entry. -/
def Precedes (m : Map T ν) (d pos : ℕ) : Prop := ∃ i j, i < j ∧ j < m.numBuckets ∧
  m.visit (m.keyAt pos) j = T.off pos ∧ m.visit (m.keyAt pos) i = T.off d

/-- A move from `src` to `dst` replaces a tombstone. -/
structure Movable (m : Map T ν) (src dst : ℕ) : Prop where
  occupied : m.Occupied src
  lt : dst < m.capacity
  tomb : m.stateAt dst = tombstone

/-- The entry at `pos` can move to `dst`: a tombstone upstream, the first free slot there. -/
structure CanMove (m : Map T ν) (src dst : ℕ) : Prop extends Movable m src dst where
  upstream : ∃ i j, i < j ∧ j < m.numBuckets ∧ m.visit (m.keyAt src) j = T.off src ∧
    m.visit (m.keyAt src) i = T.off dst ∧ m.Blocked (m.keyAt src) i
  first : ∀ q < dst, T.off q = T.off dst → m.Occupied q

omit [Inhabited κ] [Inhabited ν] in
theorem Blocked.succ {key : κ} {j : ℕ} (h : m.Blocked key j)
    (hj : ∀ d < T.kernelSize, isHash (m.stateAt (m.visit key j + d)) = true) :
    m.Blocked key (j + 1) := by
  intro i hi
  rcases Nat.lt_succ_iff_lt_or_eq.mp hi with hlt | rfl
  · exact h i hlt
  · exact hj

omit [Inhabited ν] in
/-- Where `scrub_` leaves an entry. -/
theorem upstream_spec (h : Linked m) {pos : ℕ} (hp : m.Occupied pos) :
    ∃ u q, upstream ideal m (T.off pos) pos = .ok (u, q) ∧
      ((u = .stay ∧ ∃ j < m.numBuckets, q = seqAt T (m.keyAt pos) j ∧
          m.visit (m.keyAt pos) j = T.off pos ∧ m.Blocked (m.keyAt pos) j) ∨
        ∃ dst, ∃ i < m.numBuckets, u = .move dst ∧ m.CanMove pos dst ∧ q = seqAt T (m.keyAt pos) i ∧
          m.visit (m.keyAt pos) i = T.off dst) := by
  obtain ⟨j, hj, hv, hn, hne⟩ := h.near pos hp
  suffices hspec : ∃ r, upstream ideal m (T.off pos) pos = .ok r ∧
      ((r.1 = .stay ∧ ∃ j < m.numBuckets, r.2 = seqAt T (m.keyAt pos) j ∧
          m.visit (m.keyAt pos) j = T.off pos ∧ m.Blocked (m.keyAt pos) j) ∨
        ∃ dst, ∃ i < m.numBuckets, r.1 = .move dst ∧ m.CanMove pos dst ∧
          r.2 = seqAt T (m.keyAt pos) i ∧
          m.visit (m.keyAt pos) i = T.off dst) by
    obtain ⟨⟨u, q⟩, hr, hc⟩ := hspec
    exact ⟨u, q, hr, hc⟩
  -- the loop stops at the bucket of the entry, at the latest
  refine probe_total h.toShape (fun i _ => i ≤ j ∧ m.Blocked (m.keyAt pos) i) _
    ⟨Nat.zero_le j, fun _ hi => absurd hi (Nat.not_lt_zero _)⟩ ?_
    (fun i _ hI => hasNext_mono hI.1 hn) fun _ hI => by omega
  rintro i - hi ⟨hij, hblocked⟩
  have ho := h.visit_add_le (m.keyAt pos) i
  by_cases hoff : m.visit (m.keyAt pos) i = T.off pos
  · rw [if_pos hoff]
    exact Or.inl ⟨rfl, i, hi, rfl, hoff, hblocked⟩
  rw [if_neg hoff]
  have hlt : i < j := by
    refine lt_of_le_of_ne hij ?_
    rintro rfl
    exact hoff hv
  cases hhead : (ideal.notHashes (m.bucket (m.visit (m.keyAt pos) i))).head? with
  | some d =>
      have hmem : d ∈ slots (!isHash ·) (m.bucket (m.visit (m.keyAt pos) i)) :=
        List.mem_of_mem_head? hhead
      obtain ⟨hdk, hs⟩ := (h.mem_slots_bucket ho).mp hmem
      have hdst : m.visit (m.keyAt pos) i + d < m.capacity := by omega
      -- there is no empty slot before the bucket of the entry
      have htomb : m.stateAt (m.visit (m.keyAt pos) i + d) = tombstone :=
        (eq_of_validState (h.state_valid _ hdst) (by simpa using hs)).resolve_left
          fun he => hne i hlt ⟨d, hdk, he⟩
      have hoffd := MapType.off_add (h.dvd_visit (m.keyAt pos) i) hdk
      refine Or.inr ⟨_, i, hi, rfl, ⟨⟨hp, hdst, htomb⟩, ⟨i, j, hlt, hj, hv, hoffd.symm, hblocked⟩,
        fun q hq hoff => ?_⟩, rfl, hoffd.symm⟩
      obtain ⟨e, -, rfl⟩ := MapType.exists_add_of_off_eq (hoff.trans hoffd)
      have hs := h.not_mask_of_head (p := (!isHash ·)) ho hhead e (Nat.lt_of_add_lt_add_left hq)
      rw [Bool.not_eq_false'] at hs
      exact ⟨by omega, hs⟩
  | none =>
      have hnil : slots (!isHash ·) (m.bucket (m.visit (m.keyAt pos) i)) = [] :=
        List.head?_eq_none_iff.mp hhead
      refine ⟨hlt, hblocked.succ fun d hd => ?_⟩
      simpa using (h.slots_bucket_eq_nil ho).mp hnil d hd

omit [Inhabited ν] in
/-- A tight entry has keys in all slots that precede it. -/
theorem Tight.occupied (h : Shape m) {pos d : ℕ} (ht : m.Tight pos) (hd : d < m.capacity)
    (hp : m.Precedes d pos) : m.Occupied d := by
  obtain ⟨j', hj', hv', hblocked⟩ := ht
  obtain ⟨i, j, hij, hj, hvj, hvi⟩ := hp
  obtain rfl := h.visit_inj hj hj' (hvj.trans hv'.symm)
  obtain ⟨e, he, hde⟩ := MapType.exists_add_of_off_eq (rfl : T.off d = T.off d)
  refine ⟨hd, ?_⟩
  rw [containsAt, hde, ← hvi]
  exact hblocked i hij e he

omit [Inhabited ν] in
theorem Linked.tight_iff (h : Linked m) {pos : ℕ} (hp : m.Occupied pos) :
    m.Tight pos ↔ ∀ d < m.capacity, m.Precedes d pos → m.Occupied d := by
  refine ⟨fun ht d hd => ht.occupied h.toShape hd, fun hall => ?_⟩
  obtain ⟨j, hj, hv, -⟩ := h.near pos hp
  refine ⟨j, hj, hv, fun i hi e he => ?_⟩
  have hoff := MapType.off_add (h.dvd_visit (m.keyAt pos) i) he
  have hle := h.visit_add_le (m.keyAt pos) i
  exact (hall _ (by omega) ⟨i, j, hi, hj, hv, hoff.symm⟩).2

omit [Inhabited ν] in
theorem CanMove.precedes {src dst : ℕ} (h : m.CanMove src dst) : m.Precedes dst src := by
  obtain ⟨i, j, hij, hj, hvj, hvi, -⟩ := h.upstream
  exact ⟨i, j, hij, hj, hvj, hvi⟩

omit [Inhabited ν] in
theorem CanMove.not_tight (hm : Shape m) {src dst : ℕ} (h : m.CanMove src dst) :
    ¬ m.Tight src := fun ht =>
  ne_tombstone_of_isHash (ht.occupied hm h.lt h.precedes).isHash h.tomb

omit [Inhabited ν] in
/-- A slot precedes an entry of another bucket. -/
theorem Precedes.off_ne (h : Shape m) {d pos : ℕ} (hp : m.Precedes d pos) :
    T.off d ≠ T.off pos := by
  obtain ⟨i, j, hij, hj, hvj, hvi⟩ := hp
  intro heq
  have := h.visit_inj (hij.trans hj) hj (hvi.trans (heq.trans hvj.symm))
  omega

end Upstream

/-! ### Moves -/

section Move
variable {m : Map T ν} {src dst : ℕ}

omit [Inhabited κ] [Inhabited ν] in
theorem Movable.ne (h : m.Movable src dst) : src ≠ dst := by
  rintro rfl
  exact ne_tombstone_of_isHash h.occupied.isHash h.tomb

theorem move_stateAt (h : Sound m) (hm : m.Movable src dst) (b : Bool) :
    (m.moveEntry b src dst).stateAt =
      Function.update (Function.update m.stateAt dst (m.stateAt src)) src (freed b) := by
  rw [moveEntry_stateAt b h.toShape hm.occupied.1 hm.lt, copyEntry_stateAt h.toShape hm.lt m src,
    h.state_eq src hm.occupied]

theorem move_keyAt (h : Sound m) (hm : m.Movable src dst) (b : Bool) :
    (m.moveEntry b src dst).keyAt = Function.update m.keyAt dst (m.keyAt src) := by
  rw [moveEntry_keyAt, copyEntry_keyAt h.toShape hm.lt m src]

theorem move_occupied (h : Sound m) (hm : m.Movable src dst) (b : Bool) (q : ℕ) :
    (m.moveEntry b src dst).Occupied q ↔ q = dst ∨ q ≠ src ∧ m.Occupied q := by
  rw [Occupied, (moveEntry_frame m b src dst).capacity, containsAt, move_stateAt h hm]
  by_cases hqs : q = src
  · rw [hqs, Function.update_self, isHash_freed]
    simp [hm.ne]
  · rw [Function.update_of_ne hqs]
    by_cases hqd : q = dst
    · rw [hqd, Function.update_self]
      simp [hm.lt, hm.occupied.isHash]
    · rw [Function.update_of_ne hqd]
      simp [hqs, hqd, Occupied, containsAt]

/-- The entries that stay have the same slots before them. -/
theorem move_precedes (h : Sound m) (hm : m.Movable src dst) (b : Bool) (d : ℕ) {pos : ℕ}
    (hpos : pos ≠ dst) : (m.moveEntry b src dst).Precedes d pos ↔ m.Precedes d pos := by
  have hf := moveEntry_frame m b src dst
  unfold Precedes
  rw [hf.numBuckets, move_keyAt h hm, Function.update_of_ne hpos]
  simp only [hf.visit]

/-- The entry that moves keeps some of the slots before it, and all of these hold keys. -/
theorem move_precedes_self (h : Sound m) (hm : m.CanMove src dst) (b : Bool) {d : ℕ}
    (hd : d < m.capacity) (hp : (m.moveEntry b src dst).Precedes d dst) :
    m.Precedes d src ∧ m.Occupied d ∧ d ≠ src := by
  have hf := moveEntry_frame m b src dst
  obtain ⟨i, j, hij, hj, hvj, hvi⟩ := hp
  rw [hf.numBuckets] at hj
  rw [hf.visit, move_keyAt h hm.toMovable, Function.update_self] at hvj hvi
  obtain ⟨i', j', hij', hj', hvj', hvi', hblocked⟩ := hm.upstream
  obtain rfl := h.visit_inj hj (by omega) (hvj.trans hvi'.symm)
  have hpre : m.Precedes d src := ⟨i, j', by omega, hj', hvj', hvi⟩
  obtain ⟨e, he, hde⟩ := MapType.exists_add_of_off_eq (rfl : T.off d = T.off d)
  refine ⟨hpre, ⟨hd, ?_⟩, fun hc => hpre.off_ne h.toShape (by rw [hc])⟩
  rw [containsAt, hde, ← hvi]
  exact hblocked i hij e he

/-- A move creates no empty slot but next to one. -/
theorem move_hasEmpty (h : Sound m) (hm : m.Movable src dst) {b : Bool}
    (hb : b = true ↔ m.HasEmpty (T.off src)) {o : ℕ} (ho : T.kernelSize ∣ o) :
    (m.moveEntry b src dst).HasEmpty o ↔ m.HasEmpty o := by
  have hst := move_stateAt h hm b
  constructor
  · rintro ⟨d, hd, he⟩
    rw [hst] at he
    by_cases hs : o + d = src
    · rw [hs, Function.update_self] at he
      have hbt : b = true := by
        cases b with
        | true => rfl
        | false => cases he
      have hoff := MapType.off_add ho hd
      rw [hs] at hoff
      rw [← hoff]
      exact hb.mp hbt
    · rw [Function.update_of_ne hs] at he
      by_cases hdst : o + d = dst
      · rw [hdst, Function.update_self] at he
        exact absurd he (ne_empty_of_isHash hm.occupied.isHash)
      · rw [Function.update_of_ne hdst] at he
        exact ⟨d, hd, he⟩
  · rintro ⟨d, hd, he⟩
    refine ⟨d, hd, ?_⟩
    rw [hst, Function.update_of_ne, Function.update_of_ne, he]
    · intro hdst
      rw [hdst, hm.tomb] at he
      exact tombstone_ne_empty he
    · intro hs
      rw [hs] at he
      exact ne_empty_of_isHash hm.occupied.isHash he

/-- The bucket of the slot that is filled, after the copy and before the slot of the entry is freed. -/
theorem copy_hasEmpty (h : Sound m) (hm : m.Movable src dst) (o : ℕ) :
    (m.copyEntry m src dst).HasEmpty o ↔ m.HasEmpty o := by
  have hcst := copyEntry_stateAt h.toShape hm.lt m src
  constructor
  · exact HasEmpty.of_put (ne_empty_of_isHash (isHash_keyState T _)) hcst
  · rintro ⟨d, hd, he⟩
    refine ⟨d, hd, ?_⟩
    rw [hcst, Function.update_of_ne, he]
    intro hdst
    rw [hdst, hm.tomb] at he
    exact tombstone_ne_empty he

omit [Inhabited κ] [Inhabited ν] in
/-- The first `j` buckets have no empty slot if they hold keys in all slots. -/
theorem Blocked.fullUpTo {key : κ} {j : ℕ} (h : m.Blocked key j) : m.FullUpTo key j := by
  rintro i hi ⟨d, hd, he⟩
  have := h i hi d hd
  rw [he] at this
  cases this

/-- A move keeps the chains. -/
theorem move_linked (h : Linked m) (hm : m.CanMove src dst) {b : Bool}
    (hb : b = true ↔ m.HasEmpty (T.off src)) : Linked (m.moveEntry b src dst) := by
  have hframe : Frame (m.copyEntry m src dst) (m.moveEntry b src dst) := by
    cases b <;> exact ⟨rfl, rfl, rfl⟩
  obtain ⟨i, j, hij, hj, hvj, hvi, hblocked⟩ := hm.upstream
  obtain ⟨j', hj', hv', hn, -⟩ := h.near src hm.occupied
  obtain rfl := h.visit_inj hj hj' (hvj.trans hv'.symm)
  have hnear : m.Near (m.keyAt src) (T.off dst) :=
    ⟨i, by omega, hvi, hasNext_mono hij.le hn, hblocked.fullUpTo⟩
  have hcopy : Linked (m.copyEntry m src dst) :=
    h.copyEntry h.toShape rfl hm.occupied.1 hm.lt hnear
  refine hcopy.release hframe (moveEntry_shape b h.toShape hm.occupied.1 hm.lt) (fun hbt => ?_)
    (moveEntry_stateAt b h.toShape hm.occupied.1 hm.lt) (moveEntry_keyAt b)
  rw [copy_hasEmpty h.toSound hm.toMovable]
  exact hb.mp hbt

/-- Which entries are tight after a move. -/
theorem move_tight_iff (h : Linked m) (hm : m.CanMove src dst) {b : Bool}
    (hb : b = true ↔ m.HasEmpty (T.off src)) {pos : ℕ} (hp : m.Occupied pos) (hne : pos ≠ src) :
    (m.moveEntry b src dst).Tight pos ↔
      ∀ d < m.capacity, m.Precedes d pos → d ≠ src ∧ (m.Occupied d ∨ d = dst) := by
  have hmv := hm.toMovable
  have hdst : pos ≠ dst := by
    rintro rfl
    exact ne_tombstone_of_isHash hp.isHash hm.tomb
  have hp' := (move_occupied h.toSound hmv b pos).mpr (Or.inr ⟨hne, hp⟩)
  rw [(move_linked h hm hb).tight_iff hp', (moveEntry_frame m b src dst).capacity]
  refine forall₂_congr fun d _ => ?_
  rw [move_precedes h.toSound hmv b d hdst, move_occupied h.toSound hmv]
  refine imp_congr_right fun _ => ?_
  have := hmv.ne
  constructor
  · rintro (rfl | ⟨hd, ho⟩)
    · exact ⟨this.symm, Or.inr rfl⟩
    · exact ⟨hd, Or.inl ho⟩
  · rintro ⟨hd, ho | rfl⟩
    · exact Or.inr ⟨hd, ho⟩
    · exact Or.inl rfl

/-- The entry that moves is tight after it. -/
theorem move_tight_self (h : Linked m) (hm : m.CanMove src dst) {b : Bool}
    (hb : b = true ↔ m.HasEmpty (T.off src)) : (m.moveEntry b src dst).Tight dst := by
  have hmv := hm.toMovable
  have hp' := (move_occupied h.toSound hmv b dst).mpr (Or.inl rfl)
  rw [(move_linked h hm hb).tight_iff hp', (moveEntry_frame m b src dst).capacity]
  intro d hd hp
  obtain ⟨-, ho, hne⟩ := move_precedes_self h.toSound hm b hd hp
  exact (move_occupied h.toSound hmv b d).mpr (Or.inr ⟨hne, ho⟩)

/-- A move keeps empty slots and tombstones apart. -/
theorem move_pure (h : Sound m) (hpure : ∀ p < m.capacity, ∀ q < m.capacity, T.off p = T.off q →
      m.stateAt p = empty → m.stateAt q ≠ tombstone) (hm : m.Movable src dst) {b : Bool}
    (hb : b = true ↔ m.HasEmpty (T.off src)) : ∀ p < (m.moveEntry b src dst).capacity,
      ∀ q < (m.moveEntry b src dst).capacity, T.off p = T.off q →
      (m.moveEntry b src dst).stateAt p = empty → (m.moveEntry b src dst).stateAt q ≠ tombstone := by
  have hframe : Frame (m.copyEntry m src dst) (m.moveEntry b src dst) := by
    cases b <;> exact ⟨rfl, rfl, rfl⟩
  have hcopy := copyEntry_frame m m src dst
  have hiff := copy_hasEmpty h hm (T.off src)
  refine pure_release (copyEntry_shape h.toShape h.toShape rfl hm.occupied.1 hm.lt) hframe ?_ ?_
    (moveEntry_stateAt b h.toShape hm.occupied.1 hm.lt)
    (pure_put hcopy (isHash_keyState T _) (copyEntry_stateAt h.toShape hm.lt m src) hpure)
  · rw [hiff, ← hb]
    cases b with
    | true => exact fun _ => rfl
    | false => exact fun hc => absurd hc tombstone_ne_empty
  · rw [hiff, ← hb]
    cases b with
    | true => exact fun hc => absurd hc empty_ne_tombstone
    | false => exact fun _ => Bool.false_ne_true

theorem move_entries (h : Sound m) (hm : m.Movable src dst) (b : Bool) :
    (m.moveEntry b src dst).entries = m.entries := by
  have hcopy := copyEntry_frame m m src dst
  have hcst := copyEntry_stateAt h.toShape hm.lt m src
  have hce := copyEntry_entryAt h.toShape h.toShape rfl hm.occupied.1 hm.lt
  have hframe : Frame (m.copyEntry m src dst) (m.moveEntry b src dst) := by
    cases b <;> exact ⟨rfl, rfl, rfl⟩
  have hhash := isHash_keyState T (m.keyAt src)
  have hfree : ¬ m.Occupied dst := fun ho => ne_tombstone_of_isHash ho.isHash hm.tomb
  have hocc : (m.copyEntry m src dst).Occupied src :=
    (occupied_put hcopy hcst hm.ne).mpr hm.occupied
  have hput := entries_put hcopy hm.lt hfree hhash hcst fun q _ hq => by
    rw [hce, Function.update_of_ne hq]
  have hrel := entries_release hframe hocc (isHash_freed b)
    (moveEntry_stateAt b h.toShape hm.occupied.1 hm.lt) fun q _ => by rw [moveEntry_entryAt]
  rw [hput, hce, Function.update_self, Function.update_of_ne hm.ne] at hrel
  exact ((Multiset.cons_inj_right _).mp hrel).symm

/-- A move keeps the counters right. -/
theorem move_counted (h : Sound m) (hm : m.Movable src dst) (b : Bool)
    (hc : Counted m) : Counted (m.moveEntry b src dst) := by
  have hf := moveEntry_frame m b src dst
  have hst := move_stateAt h hm b
  have hhash := hm.occupied.isHash
  have hsrc : Function.update m.stateAt dst (m.stateAt src) src = m.stateAt src :=
    Function.update_of_ne hm.ne _ _
  have hne : (m.stateAt src == empty) = false := beq_false_of_ne (ne_empty_of_isHash hhash)
  have hnt : (m.stateAt src == tombstone) = false := beq_false_of_ne (ne_tombstone_of_isHash hhash)
  have hcount : ∀ p : State → Bool, p (m.stateAt src) = false →
      countSlots m.capacity p (m.moveEntry b src dst).stateAt +
        (if p tombstone = true then 1 else 0) =
      countSlots m.capacity p m.stateAt + if p (freed b) = true then 1 else 0 := by
    intro p hp
    have h1 := countSlots_update hm.lt p m.stateAt (m.stateAt src)
    have h2 := countSlots_update hm.occupied.1 p
      (Function.update m.stateAt dst (m.stateAt src)) (freed b)
    rw [hsrc, hp] at h2
    rw [hm.tomb, hp] at h1
    rw [hst]
    simp only [Bool.false_eq_true, if_false] at h1 h2
    omega
  have h1 := hc.numEmpty_eq
  have h2 := hc.numTombstone_eq
  refine ⟨?_, ?_⟩
  · have hc := hcount (· == empty) hne
    rw [hf.capacity]
    cases b with
    | true =>
        change m.numEmpty + 1 = _
        simp [freed] at hc
        omega
    | false =>
        change m.numEmpty = _
        simp [freed] at hc
        omega
  · have hc := hcount (· == tombstone) hnt
    rw [hf.capacity]
    cases b with
    | true =>
        change m.numTombstone - 1 = _
        simp [freed] at hc
        omega
    | false =>
        change m.numTombstone = _
        simp [freed] at hc
        omega

theorem move_numEmpty_le (m : Map T ν) (b : Bool) (src dst : ℕ) :
    m.numEmpty ≤ (m.moveEntry b src dst).numEmpty := by
  cases b with
  | true =>
      change m.numEmpty ≤ m.numEmpty + 1
      omega
  | false => exact le_rfl

/-- A move of any entry into a tombstone keeps what holds of a map whatever its flags are. -/
theorem move_exact (h : Exact m) (hm : m.Movable src dst) {b : Bool}
    (hb : b = true ↔ m.HasEmpty (T.off src)) : Exact (m.moveEntry b src dst) := by
  have hf := moveEntry_frame m b src dst
  have hc := move_counted h.toSound hm b h.counted
  refine { h.toSound.moveEntry b hm.occupied.1 hm.lt with
    minCapacity_le := ?_, growThreshold_eq := ?_, pure := move_pure h.toSound h.pure hm hb,
    numEmpty_eq := hc.numEmpty_eq, numTombstone_eq := hc.numTombstone_eq,
    numEmpty_pos := h.numEmpty_pos.trans (move_numEmpty_le m b src dst) }
  · rw [hf.conf, hf.capacity]
    exact h.minCapacity_le
  · rw [hf.growThreshold, hf.conf, hf.capacity]
    exact h.growThreshold_eq

/-- A move upstream keeps the invariant. -/
theorem move_valid (h : Valid m) (hm : m.CanMove src dst) {b : Bool}
    (hb : b = true ↔ m.HasEmpty (T.off src)) : Valid (m.moveEntry b src dst) := by
  have hlinked := move_linked h.linked hm hb
  exact { move_exact h.exact hm.toMovable hb with
    chain := fun pos hp => (hlinked.near pos hp).reaches
    unique := fun hd => by
      have hu : m.Unique := h.unique hd
      exact hu.of_entries_eq (move_entries h.toSound hm.toMovable b)
    near := hlinked.near }

end Move

/-! ### The weight of a table -/

section Weight
variable {m : Map T ν} {src dst : ℕ}

/-- The step at which the probe sequence of a key visits a bucket. -/
noncomputable def rank (m : Map T ν) (key : κ) (o : ℕ) : ℕ := sInf {j | m.visit key j = o}

omit [Inhabited κ] [Inhabited ν] in
theorem rank_visit (h : Shape m) (key : κ) {j : ℕ} (hj : j < m.numBuckets) :
    m.rank key (m.visit key j) = j := by
  have hle : m.rank key (m.visit key j) ≤ j := Nat.sInf_le rfl
  have hmem : m.visit key (m.rank key (m.visit key j)) = m.visit key j :=
    Nat.sInf_mem (s := {i | m.visit key i = m.visit key j}) ⟨j, rfl⟩
  exact h.visit_inj (by omega) hj hmem

/-- How far the entries lie from the start of their sequences. -/
noncomputable def slotWeight (m : Map T ν) (pos : ℕ) : ℕ :=
  if m.containsAt pos then m.rank (m.keyAt pos) (T.off pos) else 0

noncomputable def weight (m : Map T ν) : ℕ := ∑ pos ∈ Finset.range m.capacity, m.slotWeight pos

omit [Inhabited ν] in
theorem Linked.slotWeight_le (h : Linked m) {pos : ℕ} (hp : pos < m.capacity) :
    m.slotWeight pos ≤ m.capacity := by
  rw [slotWeight]
  split_ifs with ho
  · obtain ⟨j, hj, hv, -⟩ := h.near pos ⟨hp, ho⟩
    rw [← hv, rank_visit h.toShape _ hj]
    exact hj.le.trans (Nat.div_le_self _ _)
  · exact Nat.zero_le _

omit [Inhabited ν] in
theorem Linked.weight_le (h : Linked m) : m.weight ≤ m.capacity * m.capacity := by
  refine (Finset.sum_le_card_nsmul _ _ m.capacity fun pos hp => ?_).trans ?_
  · exact h.slotWeight_le (Finset.mem_range.mp hp)
  · rw [Finset.card_range, smul_eq_mul]

/-- A move makes the table lighter. -/
theorem move_weight (h : Sound m) (hm : m.CanMove src dst) (b : Bool) :
    (m.moveEntry b src dst).weight + 1 ≤ m.weight := by
  have hf := moveEntry_frame m b src dst
  obtain ⟨i, j, hij, hj, hvj, hvi, -⟩ := hm.upstream
  have hrank : ∀ key o, (m.moveEntry b src dst).rank key o = m.rank key o := by
    intro key o
    simp only [rank, hf.visit]
  have hsrc : m.slotWeight src = j := by
    rw [slotWeight, if_pos hm.occupied.2, ← hvj, rank_visit h.toShape _ hj]
  have hdst : m.slotWeight dst = 0 := by
    rw [slotWeight, containsAt, hm.tomb]
    rfl
  have hw : (m.moveEntry b src dst).slotWeight =
      Function.update (Function.update m.slotWeight dst i) src 0 := by
    funext q
    rw [slotWeight, hrank, containsAt, move_stateAt h hm.toMovable, move_keyAt h hm.toMovable]
    by_cases hqs : q = src
    · rw [hqs, Function.update_self, Function.update_self, isHash_freed]
      rfl
    · rw [Function.update_of_ne hqs, Function.update_of_ne hqs]
      by_cases hqd : q = dst
      · rw [hqd, Function.update_self, Function.update_self, Function.update_self,
          if_pos hm.occupied.isHash, ← hvi, rank_visit h.toShape _ (by omega)]
      · rw [Function.update_of_ne hqd, Function.update_of_ne hqd, Function.update_of_ne hqd]
        rfl
  have h1 := sum_update hm.lt m.slotWeight i
  have h2 := sum_update hm.occupied.1 (Function.update m.slotWeight dst i) 0
  rw [Function.update_of_ne hm.ne, hsrc] at h2
  rw [hdst] at h1
  rw [weight, weight, hf.capacity, hw]
  omega

end Weight

/-! ### What a part of a pass does -/

section Swept

/-- The entry at `pos` lies in the first bucket of its sequence. -/
def AtHome (m : Map T ν) (pos : ℕ) : Prop := m.visit (m.keyAt pos) 0 = T.off pos

/-- An invariant of the passes: it implies the chains, and a move upstream keeps it. -/
structure MoveInv (I : Map T ν → Prop) : Prop where
  linked : ∀ {m}, I m → Linked m
  move : ∀ {m src dst b}, I m → m.CanMove src dst → (b = true ↔ m.HasEmpty (T.off src)) →
    I (m.moveEntry b src dst)

theorem moveInv_linked : MoveInv fun m : Map T ν => Linked m :=
  ⟨id, fun h hm hb => move_linked h hm hb⟩

theorem moveInv_valid : MoveInv fun m : Map T ν => Valid m :=
  ⟨Valid.linked, fun h hm hb => move_valid h hm hb⟩

/-- The first move of the entries of the slots in `S`, and when it is the only one. -/
structure FirstMove (S : ℕ → Prop) (m m' : Map T ν) (moves src dst : ℕ) (b : Bool) : Prop where
  mem : S src
  hadEmpty : b = true ↔ m.HasEmpty (T.off src)
  canMove : m.CanMove src dst
  before : ∀ pos < src, S pos → m.Occupied pos → m.Tight pos
  after : moves = 1 ↔
    ∀ pos, src < pos → S pos → m.Occupied pos → (m.moveEntry b src dst).Tight pos
  eq : moves = 1 → m' = m.moveEntry b src dst

/-- What the entries of the slots in `S` do: `moves` of them move.  A single move is kept apart
from many, because a pass that makes it is the last one.  `home` says that all of them came to lie
at the start of their sequences. -/
structure Swept (I : Map T ν → Prop) (S : ℕ → Prop) (m m' : Map T ν) (moves : ℕ) (home : Prop) :
    Prop where
  inv : I m'
  frame : Frame m m'
  entries_eq : m'.entries = m.entries
  occupied : ∀ pos, m.Occupied pos → ¬ S pos → m'.Occupied pos
  hasEmpty_iff : ∀ o, T.kernelSize ∣ o → (m'.HasEmpty o ↔ m.HasEmpty o)
  weight_le : m'.weight + moves ≤ m.weight
  same : moves = 0 → m' = m
  none : moves = 0 ↔ ∀ pos, S pos → m.Occupied pos → m.Tight pos
  some : moves ≠ 0 → ∃ src dst b, FirstMove S m m' moves src dst b
  home : home → ∀ pos, m'.Occupied pos → ¬ m'.AtHome pos →
    m.Occupied pos ∧ ¬ m.AtHome pos ∧ ¬ S pos

variable {I : Map T ν → Prop} {m m' m'' : Map T ν} {S S' : ℕ → Prop} {n n' : ℕ} {b b' : Prop}

theorem swept_nil (h : I m) (b : Prop) : Swept I (fun _ => False) m m 0 b where
  inv := h
  frame := Frame.refl m
  entries_eq := rfl
  occupied _ ho _ := ho
  hasEmpty_iff _ _ := Iff.rfl
  weight_le := le_rfl
  same _ := rfl
  none := iff_of_true rfl fun _ hc => hc.elim
  some hc := absurd rfl hc
  home _ _ ho hn := ⟨ho, hn, id⟩

/-- The first move of the first part, if there is one. -/
theorem FirstMove.trans (hl : Linked m) (hlt : ∀ p q, S p → S' q → p < q) {src dst : ℕ} {e : Bool}
    (h : FirstMove S m m' n src dst e) (hn : n ≠ 0) (h' : Swept I S' m' m'' n' b') :
    FirstMove (fun pos => S pos ∨ S' pos) m m'' (n + n') src dst e := by
  have hmv := h.canMove.toMovable
  refine ⟨Or.inl h.mem, h.hadEmpty, h.canMove, fun pos hlt' hs ho => ?_, ?_, fun hone => ?_⟩
  · refine hs.elim (fun hs => h.before pos hlt' hs ho) fun hs => ?_
    exact absurd (hlt src pos h.mem hs) (by omega)
  · -- the second part makes no move exactly if its entries are tight after the first move
    have hrest : n = 1 → (n' = 0 ↔
        ∀ pos, S' pos → m.Occupied pos → (m.moveEntry e src dst).Tight pos) := by
      intro hone
      rw [h'.none, h.eq hone]
      refine forall₂_congr fun pos hs => ?_
      rw [move_occupied hl.toSound hmv]
      constructor
      · intro ht ho
        exact ht (Or.inr ⟨(hlt src pos h.mem hs).ne', ho⟩)
      · rintro ht (rfl | ⟨-, ho⟩)
        · exact move_tight_self hl h.canMove h.hadEmpty
        · exact ht ho
    constructor
    · intro hone pos hlt' hs ho
      rcases hs with hs | hs
      · exact h.after.mp (by omega) pos hlt' hs ho
      · exact (hrest (by omega)).mp (by omega) pos hs ho
    · intro hall
      have hone := h.after.mpr fun pos hlt' hs ho => hall pos hlt' (Or.inl hs) ho
      have hzero := (hrest hone).mpr fun pos hs ho =>
        hall pos (hlt src pos h.mem hs) (Or.inr hs) ho
      omega
  · rw [h'.same (by omega)]
    exact h.eq (by omega)

/-- One part after the other; the slots of the second part lie behind those of the first. -/
theorem Swept.trans (hl : Linked m) (hlt : ∀ p q, S p → S' q → p < q) (h : Swept I S m m' n b)
    (h' : Swept I S' m' m'' n' b') :
    Swept I (fun pos => S pos ∨ S' pos) m m'' (n + n') (b ∧ b') where
  inv := h'.inv
  frame := h.frame.trans h'.frame
  entries_eq := h'.entries_eq.trans h.entries_eq
  occupied pos ho hs := h'.occupied pos (h.occupied pos ho fun hc => hs (Or.inl hc))
    fun hc => hs (Or.inr hc)
  hasEmpty_iff o ho := (h'.hasEmpty_iff o ho).trans (h.hasEmpty_iff o ho)
  weight_le := by
    have := h.weight_le
    have := h'.weight_le
    omega
  same hz := (h'.same (by omega)).trans (h.same (by omega))
  none := by
    constructor
    · intro hz pos hs ho
      obtain rfl := h.same (by omega)
      exact hs.elim (fun hs => h.none.mp (by omega) pos hs ho)
        fun hs => h'.none.mp (by omega) pos hs ho
    · intro hall
      have hz := h.none.mpr fun pos hs ho => hall pos (Or.inl hs) ho
      obtain rfl := h.same hz
      have hz' := h'.none.mpr fun pos hs ho => hall pos (Or.inr hs) ho
      omega
  some hne := by
    by_cases hn : n = 0
    · obtain rfl := h.same hn
      obtain ⟨src, dst, e, hf⟩ := h'.some (by omega)
      rw [hn, Nat.zero_add]
      refine ⟨src, dst, e, Or.inr hf.mem, hf.hadEmpty, hf.canMove, fun pos hp hs ho => ?_, ?_, hf.eq⟩
      · exact hs.elim (fun hs => h.none.mp hn pos hs ho) fun hs => hf.before pos hp hs ho
      · refine hf.after.trans (forall₂_congr fun pos hp => ?_)
        refine ⟨fun ht hs ho => ht (hs.resolve_left fun hs => ?_) ho, fun ht hs => ht (Or.inr hs)⟩
        exact absurd (hlt pos src hs hf.mem) (by omega)
    · obtain ⟨src, dst, e, hf⟩ := h.some hn
      exact ⟨src, dst, e, hf.trans hl hlt hn h'⟩
  home hb pos ho hn := by
    obtain ⟨ho', hn', hs'⟩ := h'.home hb.2 pos ho hn
    obtain ⟨ho, hn, hs⟩ := h.home hb.1 pos ho' hn'
    exact ⟨ho, hn, fun hc => hc.elim hs hs'⟩

theorem Swept.congr (h : Swept I S m m' n b) (hS : ∀ pos, m.Occupied pos → (S' pos ↔ S pos))
    (hb : b' → b) : Swept I S' m m' n b' where
  inv := h.inv
  frame := h.frame
  entries_eq := h.entries_eq
  occupied pos ho hs := h.occupied pos ho fun hc => hs ((hS pos ho).mpr hc)
  hasEmpty_iff := h.hasEmpty_iff
  weight_le := h.weight_le
  same := h.same
  none := h.none.trans (forall_congr' fun pos =>
    ⟨fun ht hs ho => ht ((hS pos ho).mp hs) ho, fun ht hs ho => ht ((hS pos ho).mpr hs) ho⟩)
  some hn := by
    obtain ⟨src, dst, e, hf⟩ := h.some hn
    refine ⟨src, dst, e, (hS src hf.canMove.occupied).mpr hf.mem, hf.hadEmpty, hf.canMove,
      fun pos hp hs ho => hf.before pos hp ((hS pos ho).mp hs) ho, hf.after.trans ?_, hf.eq⟩
    refine forall₂_congr fun pos _ => ?_
    exact ⟨fun ht hs ho => ht ((hS pos ho).mp hs) ho, fun ht hs ho => ht ((hS pos ho).mpr hs) ho⟩
  home hb' pos ho hn := by
    obtain ⟨ho, hn, hs⟩ := h.home (hb hb') pos ho hn
    exact ⟨ho, hn, fun hc => hs ((hS pos ho).mp hc)⟩

/-- A single move; the other entries are tight, before it or after it. -/
theorem Swept.one (h : Swept I S m m' n b) (hn : n = 1) : ∃ src dst e, m.CanMove src dst ∧
    m' = m.moveEntry e src dst ∧
      ∀ pos, S pos → m.Occupied pos → pos ≠ src → m.Tight pos ∨ m'.Tight pos := by
  obtain ⟨src, dst, e, hf⟩ := h.some (by omega)
  refine ⟨src, dst, e, hf.canMove, hf.eq hn, fun pos hs ho hne => ?_⟩
  rcases Nat.lt_or_gt_of_ne hne with hlt | hgt
  · exact Or.inl (hf.before pos hlt hs ho)
  · rw [hf.eq hn]
    exact Or.inr (hf.after.mp hn pos hgt hs ho)

end Swept

/-! ### What waits for what -/

section Forward
variable {m m' : Map T ν}

/-- The entries in the slots of `D` wait for later buckets only. -/
def Forward (m : Map T ν) (D : ℕ → Prop) : Prop := ∀ pos, m.Occupied pos → D pos →
  ∀ d < m.capacity, m.Precedes d pos → T.off d ≤ T.off pos → m.Occupied d

/-- A pass that is in the bucket at `o`, with the slots of `l` to come, has scanned the slot. -/
def Scanned (T : MapType κ) (o : ℕ) (l : List ℕ) (pos : ℕ) : Prop :=
  T.off pos < o ∨ T.off pos = o ∧ ∀ i ∈ l, pos ≠ o + i

omit [Inhabited ν] in
/-- An entry that stays is tight. -/
theorem Forward.stay {o i : ℕ} {l : List ℕ} (h : Linked m) (hf : m.Forward (Scanned T o (i :: l)))
    (ht : m.Tight (o + i)) : m.Forward (Scanned T o l) := by
  intro pos ho hs d hd hp hle
  by_cases hpos : pos = o + i
  · subst hpos
    exact (h.tight_iff ho).mp ht d hd hp
  · refine hf pos ho (hs.imp_right fun hs => ⟨hs.1, fun j hj => ?_⟩) d hd hp hle
    rcases List.mem_cons.mp hj with rfl | hj
    · exact hpos
    · exact hs.2 j hj

/-- A move vacates a slot of the bucket that is scanned. -/
theorem Forward.move {o i dst : ℕ} {l : List ℕ} (h : Linked m)
    (hf : m.Forward (Scanned T o (i :: l))) (hoff : T.off (o + i) = o)
    (hm : m.CanMove (o + i) dst) (b : Bool) :
    (m.moveEntry b (o + i) dst).Forward (Scanned T o l) := by
  have hmv := hm.toMovable
  intro pos ho hs d hd hp hle
  rw [(moveEntry_frame m b (o + i) dst).capacity] at hd
  rw [move_occupied h.toSound hmv]
  rcases (move_occupied h.toSound hmv b pos).mp ho with rfl | ⟨hne, hocc⟩
  · obtain ⟨-, hocc, hne⟩ := move_precedes_self h.toSound hm b hd hp
    exact Or.inr ⟨hne, hocc⟩
  · have hdst : pos ≠ dst := by
      rintro rfl
      exact ne_tombstone_of_isHash hocc.isHash hm.tomb
    rw [move_precedes h.toSound hmv b d hdst] at hp
    refine Or.inr ⟨?_, hf pos hocc (hs.imp_right fun hs => ⟨hs.1, fun j hj => ?_⟩) d hd hp hle⟩
    · rintro rfl
      have hne := hp.off_ne h.toShape
      rcases hs with hs | hs <;> omega
    · rcases List.mem_cons.mp hj with rfl | hj
      · exact hne
      · exact hs.2 j hj

end Forward

/-! ### Passes -/

section Passes
variable {I : Map T ν → Prop} (hI : MoveInv I)
include hI

theorem scrubSlot_spec {s : Scrub T ν} (h : I s.map) {o i : ℕ} (hoff : T.off (o + i) = o)
    (hp : s.map.Occupied (o + i)) {b : Bool} (hb : b = true ↔ s.map.HasEmpty o) :
    ∃ s' n, scrubSlot ideal o b (o + i) s = .ok s' ∧ s'.numMoves = s.numMoves + n ∧
      (s'.pslBits = 0 → s.pslBits = 0) ∧
      Swept I (· = o + i) s.map s'.map n (s'.pslBits = 0) ∧
      ∀ l, s.map.Forward (Scanned T o (i :: l)) → s'.map.Forward (Scanned T o l) := by
  have hl := hI.linked h
  have hpsl : ∀ {j : ℕ}, s.pslBits ||| (seqAt T (s.map.keyAt (o + i)) j).psl = 0 →
      s.pslBits = 0 ∧ j = 0 := by
    intro j hz
    obtain ⟨hz, hj⟩ := Nat.or_eq_zero_iff.mp hz
    rw [seqAt_psl] at hj
    exact ⟨hz, (Nat.mul_eq_zero.mp hj).resolve_left (Nat.pos_iff_ne_zero.mp T.kernelSize_pos)⟩
  obtain ⟨u, q, hr, hc⟩ := upstream_spec hl hp
  rw [hoff] at hr hc
  rw [scrubSlot, hr, ok_bind]
  rcases hc with ⟨rfl, j, hj, rfl, hv, hblocked⟩ | ⟨dst, i', -, rfl, hm, rfl, hv⟩
  · have ht : s.map.Tight (o + i) := ⟨j, hj, by rw [hoff]; exact hv, hblocked⟩
    refine ⟨_, 0, rfl, rfl, fun hz => (hpsl hz).1, ⟨h, Frame.refl _, rfl, fun _ ho _ => ho,
      fun _ _ => Iff.rfl, le_rfl, fun _ => rfl, iff_of_true rfl ?_, fun hc => absurd rfl hc,
      fun hz q ho hn => ⟨ho, hn, ?_⟩⟩, fun l hf => hf.stay hl ht⟩
    · rintro _ rfl -
      exact ht
    · rintro rfl
      obtain ⟨-, rfl⟩ := hpsl hz
      rw [AtHome, hoff] at hn
      exact hn hv
  · have hmv := hm.toMovable
    have hb' : b = true ↔ s.map.HasEmpty (T.off (o + i)) := by rwa [hoff]
    dsimp only
    rw [if_pos hm.tomb]
    refine ⟨_, 1, rfl, rfl, fun hz => (hpsl hz).1, ⟨hI.move h hm hb',
      moveEntry_frame _ b (o + i) dst, move_entries hl.toSound hmv b,
      fun q ho hq => (move_occupied hl.toSound hmv b q).mpr (Or.inr ⟨hq, ho⟩),
      fun o' ho => move_hasEmpty hl.toSound hmv hb' ho, move_weight hl.toSound hm b,
      fun hc => absurd hc one_ne_zero, iff_of_false one_ne_zero fun hall =>
        hm.not_tight hl.toShape (hall _ rfl hp), fun _ => ⟨o + i, dst, b, rfl, hb', hm,
        fun q hq hs => absurd hs hq.ne, iff_of_true rfl fun q hq hs => absurd hs hq.ne',
        fun _ => rfl⟩, fun hz q ho hn => ?_⟩, fun l hf => hf.move hl hoff hm b⟩
    rw [AtHome, (moveEntry_frame _ b (o + i) dst).visit, move_keyAt hl.toSound hmv] at hn
    rcases (move_occupied hl.toSound hmv b q).mp ho with rfl | ⟨hq, ho⟩
    · obtain ⟨-, rfl⟩ := hpsl hz
      rw [Function.update_self] at hn
      exact absurd hv hn
    · refine ⟨ho, ?_, hq⟩
      by_cases hqd : q = dst
      · exact absurd hm.tomb (ne_tombstone_of_isHash (hqd ▸ ho.isHash))
      · rwa [Function.update_of_ne hqd] at hn

theorem scrubSlots_spec {o : ℕ} (ho : T.kernelSize ∣ o) {b : Bool} : ∀ (l : List ℕ)
    {s : Scrub T ν}, I s.map → l.Pairwise (· < ·) →
    (∀ i ∈ l, i < T.kernelSize ∧ s.map.Occupied (o + i)) → (b = true ↔ s.map.HasEmpty o) →
    ∃ s' n, scrubSlots ideal o b l s = .ok s' ∧ s'.numMoves = s.numMoves + n ∧
      (s'.pslBits = 0 → s.pslBits = 0) ∧
      Swept I (fun pos => ∃ i ∈ l, pos = o + i) s.map s'.map n (s'.pslBits = 0) ∧
      (s.map.Forward (Scanned T o l) → s'.map.Forward (Scanned T o []))
  | [], s, h, _, _, _ => ⟨s, 0, rfl, rfl, id, (swept_nil h _).congr (by simp) id, id⟩
  | i :: l, s, h, hn, hl, hb => by
      obtain ⟨hi, hocc⟩ := hl i List.mem_cons_self
      obtain ⟨hni, hn⟩ := List.pairwise_cons.mp hn
      obtain ⟨s₁, n₁, h₁, hm₁, hz₁, hs₁, hf₁⟩ :=
        scrubSlot_spec hI h (MapType.off_add ho hi) hocc hb
      obtain ⟨s₂, n₂, h₂, hm₂, hz₂, hs₂, hf₂⟩ := scrubSlots_spec ho l hs₁.inv hn (fun i' hi' => by
        obtain ⟨hk, hocc'⟩ := hl i' (List.mem_cons_of_mem i hi')
        refine ⟨hk, hs₁.occupied _ hocc' fun hc => ?_⟩
        obtain rfl := Nat.add_left_cancel hc
        exact lt_irrefl _ (hni _ hi')) (hb.trans (hs₁.hasEmpty_iff o ho).symm)
      refine ⟨s₂, n₁ + n₂, ?_, by omega, fun hz => hz₁ (hz₂ hz), ?_, fun hf => hf₂ (hf₁ l hf)⟩
      · rw [scrubSlots, h₁]
        exact h₂
      · refine (hs₁.trans (hI.linked h) ?_ hs₂).congr (fun pos _ => ?_) fun hz => ⟨hz₂ hz, hz⟩
        · rintro _ _ rfl ⟨i', hi', rfl⟩
          exact Nat.add_lt_add_left (hni i' hi') o
        · simp only [List.mem_cons, exists_eq_or_imp]

omit hI in
omit [Inhabited κ] [Inhabited ν] in
/-- The keys of a bucket, as the pass over the bucket lists them. -/
theorem Shape.mem_hashes {m : Map T ν} (h : Shape m) {o : ℕ} (hd : T.kernelSize ∣ o)
    (hlt : o < m.capacity) (i : ℕ) :
    i ∈ ideal.hashes (m.bucket o) ↔ i < T.kernelSize ∧ m.Occupied (o + i) := by
  have hle := h.offset_add_le hd hlt
  refine (h.mem_slots_bucket hle).trans (and_congr_right fun hi => ⟨fun hs => ⟨?_, hs⟩, And.right⟩)
  omega

/-- The pass over `k` buckets, from the bucket `a` on. -/
theorem scrubPass_spec : ∀ (k a : ℕ) {s : Scrub T ν}, I s.map →
    T.kernelSize * (a + k) ≤ s.map.capacity →
    ∃ s' n, scrubPass ideal ((List.range' a k).map (T.kernelSize * ·)) s = .ok s' ∧
      s'.numMoves = s.numMoves + n ∧ (s'.pslBits = 0 → s.pslBits = 0) ∧
      Swept I (fun pos => a ≤ pos / T.kernelSize ∧ pos / T.kernelSize < a + k) s.map s'.map n
        (s'.pslBits = 0) ∧
      (s.map.Forward (fun pos => pos / T.kernelSize < a) →
        s'.map.Forward fun pos => pos / T.kernelSize < a + k)
  | 0, a, s, h, _ => ⟨s, 0, rfl, rfl, id, (swept_nil h _).congr
      (fun _ _ => ⟨fun hs => absurd hs.1 (not_le.mpr hs.2), False.elim⟩) id, id⟩
  | k + 1, a, s, h, hcap => by
      have hK := T.kernelSize_pos
      have hd : T.kernelSize ∣ T.kernelSize * a := Dvd.intro _ rfl
      have hlt : T.kernelSize * a < s.map.capacity :=
        lt_of_lt_of_le (Nat.mul_lt_mul_of_pos_left (by omega) hK) hcap
      have hl := hI.linked h
      have hmem := hl.toShape.mem_hashes hd hlt
      have hoff : ∀ pos, T.off pos = T.kernelSize * a ↔ pos / T.kernelSize = a := fun pos =>
        ⟨Nat.eq_of_mul_eq_mul_left hK, congrArg _⟩
      obtain ⟨s₁, n₁, h₁, hm₁, hz₁, hs₁, hf₁⟩ := scrubSlots_spec hI hd
        (ideal.hashes (s.map.bucket (T.kernelSize * a))) h (slots_sorted _ _)
        (fun i hi => (hmem i).mp hi) (hl.hasEmpty_iff (hl.offset_add_le hd hlt))
      obtain ⟨s₂, n₂, h₂, hm₂, hz₂, hs₂, hf₂⟩ := scrubPass_spec k (a + 1) hs₁.inv (by
        rw [hs₁.frame.capacity, Nat.add_right_comm]
        exact hcap)
      refine ⟨s₂, n₁ + n₂, ?_, by omega, fun hz => hz₁ (hz₂ hz), ?_, fun hf => ?_⟩
      · rw [List.range'_succ, List.map_cons, scrubPass]
        exact (congrArg (· >>= scrubPass ideal _) h₁).trans h₂
      · refine (hs₁.trans hl ?_ hs₂).congr (fun pos hp => ?_) fun hz => ⟨hz₂ hz, hz⟩
        · rintro _ q ⟨i, hi, rfl⟩ ⟨hq, -⟩
          refine lt_of_lt_of_le (Nat.add_lt_add_left ((hmem i).mp hi).1 _) ?_
          rw [← Nat.mul_succ]
          exact (Nat.mul_le_mul_left _ hq).trans (Nat.mul_div_le q _)
        · have hbucket : (∃ i ∈ ideal.hashes (s.map.bucket (T.kernelSize * a)),
              pos = T.kernelSize * a + i) ↔ pos / T.kernelSize = a := by
            rw [← hoff]
            constructor
            · rintro ⟨i, hi, rfl⟩
              exact MapType.off_add hd ((hmem i).mp hi).1
            · intro hpos
              obtain ⟨i, hi, rfl⟩ := MapType.exists_add_of_off_eq hpos
              exact ⟨i, (hmem i).mpr ⟨hi, hp⟩, rfl⟩
          rw [hbucket]
          omega
      · -- the bucket is scanned when no slot of it is left
        have hlower : ∀ pos, T.off pos < T.kernelSize * a ↔ pos / T.kernelSize < a := fun pos =>
          Nat.mul_lt_mul_left hK
        have hstart : s.map.Forward (Scanned T (T.kernelSize * a)
            (ideal.hashes (s.map.bucket (T.kernelSize * a)))) := by
          intro pos ho hs
          refine hf pos ho (hs.elim (hlower pos).mp fun hs => ?_)
          obtain ⟨i, hi, rfl⟩ := MapType.exists_add_of_off_eq hs.1
          exact absurd rfl (hs.2 i ((hmem i).mpr ⟨hi, ho⟩))
        have hend := hf₂ fun pos ho hs => hf₁ hstart pos ho ?_
        · intro pos ho hs
          exact hend pos ho (by omega)
        · rcases Nat.lt_succ_iff_lt_or_eq.mp hs with hs | hs
          · exact Or.inl ((hlower pos).mpr hs)
          · exact Or.inr ⟨(hoff pos).mpr hs, fun i hi => absurd hi List.not_mem_nil⟩

/-- A pass over the whole table. -/
theorem fullPass_spec {s : Scrub T ν} (h : I s.map) :
    ∃ s' n, scrubPass ideal (offsets T.kernelSize s.map.capacity) { s with pslBits := 0 } = .ok s' ∧
      s'.numMoves = s.numMoves + n ∧ Swept I (fun _ => True) s.map s'.map n (s'.pslBits = 0) ∧
      s'.map.Forward fun _ => True := by
  have hl := hI.linked h
  have hcap := hl.kernelSize_mul
  obtain ⟨s', n, hr, hm, -, hs, hf⟩ := scrubPass_spec hI (s.map.capacity / T.kernelSize) 0
    (s := { s with pslBits := 0 }) h (by rw [Nat.zero_add]; exact hcap.le)
  have hall : ∀ {pos}, pos < s.map.capacity →
      pos / T.kernelSize < 0 + s.map.capacity / T.kernelSize := fun {pos} hp => by
    rw [Nat.zero_add, Nat.div_lt_iff_lt_mul T.kernelSize_pos, mul_comm, hcap]
    exact hp
  refine ⟨s', n, ?_, hm, hs.congr (fun pos hp => iff_of_true trivial ⟨Nat.zero_le _, hall hp.1⟩) id,
    fun pos ho _ => hf (fun _ _ hc => absurd hc (Nat.not_lt_zero _)) pos ho ?_⟩
  · rw [offsets, List.range_eq_range']
    exact hr
  · refine hall ?_
    rw [← hs.frame.capacity]
    exact ho.1

/-- What the passes do; `last` is the last of them. -/
structure Scrubbed (I : Map T ν → Prop) (s s' : Scrub T ν) : Prop where
  inv : I s'.map
  frame : Frame s.map s'.map
  entries_eq : s'.map.entries = s.map.entries
  le : s.numMoves ≤ s'.numMoves
  same : s'.numMoves = s.numMoves → s'.map = s.map
  last : ∃ m₀ n, I m₀ ∧ n ≤ 1 ∧ Swept I (fun _ => True) m₀ s'.map n (s'.pslBits = 0) ∧
    (m₀ = s.map ∨ m₀.Forward fun _ => True)

/-- The passes end. -/
theorem scrubPasses_spec : ∀ (d : ℕ) {s : Scrub T ν}, I s.map → s.map.weight < d →
    ∃ s', scrubPasses ideal d s = .ok s' ∧ Scrubbed I s s'
  | 0, _, _, hd => absurd hd (Nat.not_lt_zero _)
  | d + 1, s, h, hd => by
      obtain ⟨s₁, n, h₁, hm₁, hall, hf⟩ := fullPass_spec hI h
      rw [scrubPasses, h₁, ok_bind]
      split_ifs with hn
      · refine ⟨s₁, rfl, hall.inv, hall.frame, hall.entries_eq, by omega, fun hz => ?_,
          s.map, n, h, by omega, hall, Or.inl rfl⟩
        exact hall.same (by omega)
      · have hw := hall.weight_le
        obtain ⟨s₂, h₂, hs₂⟩ := scrubPasses_spec d (s := s₁) hall.inv (by omega)
        have hle := hs₂.le
        refine ⟨s₂, h₂, hs₂.inv, hall.frame.trans hs₂.frame,
          hs₂.entries_eq.trans hall.entries_eq, by omega, fun hz => ?_, ?_⟩
        · omega
        · obtain ⟨m₀, n₀, h₀, hn₀, hlast, hstart⟩ := hs₂.last
          refine ⟨m₀, n₀, h₀, hn₀, hlast, Or.inr (hstart.elim (fun heq => ?_) id)⟩
          rw [heq]
          exact hf

end Passes

/-! ### Settled tables -/

section Settled
variable {m m' : Map T ν}

/-- The bucket at `o` consists of tombstones. -/
def Dead (m : Map T ν) (o : ℕ) : Prop := ∀ d < T.kernelSize, m.stateAt (o + d) = tombstone

/-- No key is stored behind a dead bucket. -/
def Settled (m : Map T ν) : Prop := ∀ pos, m.Occupied pos → ∀ i j, i < j → j < m.numBuckets →
  m.visit (m.keyAt pos) j = T.off pos → ¬ m.Dead (m.visit (m.keyAt pos) i)

omit [Inhabited ν] in
/-- A bucket upstream of a tight entry has no free slot. -/
theorem Tight.isHash (h : Shape m) {pos i j d : ℕ} (ht : m.Tight pos) (hij : i < j)
    (hj : j < m.numBuckets) (hv : m.visit (m.keyAt pos) j = T.off pos) (hd : d < T.kernelSize) :
    isHash (m.stateAt (m.visit (m.keyAt pos) i + d)) = true := by
  obtain ⟨j', hj', hv', hblocked⟩ := ht
  obtain rfl := h.visit_inj hj hj' (hv.trans hv'.symm)
  exact hblocked i hij d hd

/-- A table is settled after a pass with at most one move, if a bucket has two slots. -/
theorem settled_of_swept {I : Map T ν → Prop} (hI : MoveInv I) (hK : 2 ≤ T.kernelSize) (h : Sound m)
    {n : ℕ} (hn : n ≤ 1) {b : Prop} (hs : Swept I (fun _ => True) m m' n b) : m'.Settled := by
  intro pos hp i j hij hj hv hdead
  rcases Nat.eq_zero_or_pos n with hz | hpos
  · obtain rfl := hs.same hz
    have hhash := (hs.none.mp hz pos trivial hp).isHash h.toShape hij hj hv T.kernelSize_pos
    rw [hdead 0 T.kernelSize_pos] at hhash
    cases hhash
  · obtain ⟨src, dst, b, hm, rfl, ht⟩ := hs.one (by omega)
    have hf := moveEntry_frame m b src dst
    -- of the slots that hold a key before the move, only `src` holds none after it
    have hsrc : ∀ o d, isHash (m.stateAt (o + d)) = true →
        (m.moveEntry b src dst).stateAt (o + d) = tombstone → o + d = src := by
      intro o d hhash htomb
      by_contra hne
      rw [move_stateAt h hm.toMovable, Function.update_of_ne hne] at htomb
      by_cases hdst : o + d = dst
      · rw [hdst, Function.update_self] at htomb
        exact ne_tombstone_of_isHash hm.occupied.isHash htomb
      · rw [Function.update_of_ne hdst] at htomb
        exact ne_tombstone_of_isHash hhash htomb
    have hfull : ∀ o, (m.moveEntry b src dst).Dead o →
        ¬ ∀ d < T.kernelSize, isHash (m.stateAt (o + d)) = true := by
      intro o hdead hall
      have h0 := hsrc o 0 (hall 0 (by omega)) (hdead 0 (by omega))
      have h1 := hsrc o 1 (hall 1 (by omega)) (hdead 1 (by omega))
      omega
    rw [hf.numBuckets] at hj
    rw [hf.visit] at hv hdead
    rw [move_keyAt h hm.toMovable] at hv hdead
    rcases (move_occupied h hm.toMovable b pos).mp hp with rfl | ⟨hne, hocc⟩
    · obtain ⟨i', j', hij', hj', -, hvi', hblocked⟩ := hm.upstream
      rw [Function.update_self] at hv hdead
      obtain rfl := h.visit_inj hj (by omega) (hv.trans hvi'.symm)
      exact hfull _ hdead (hblocked i hij)
    · have hposd : pos ≠ dst := by
        rintro rfl
        exact ne_tombstone_of_isHash hocc.isHash hm.tomb
      rcases ht pos trivial hocc hne with ht | ht
      · rw [Function.update_of_ne hposd] at hv hdead
        exact hfull _ hdead fun d hd => ht.isHash h.toShape hij hj hv hd
      · have hhash := ht.isHash (hI.linked hs.inv).toShape hij (by rwa [hf.numBuckets])
          (by rw [hf.visit, move_keyAt h hm.toMovable]; exact hv) T.kernelSize_pos
        rw [hf.visit, move_keyAt h hm.toMovable, hdead 0 T.kernelSize_pos] at hhash
        cases hhash

end Settled

end Map

end Nvhm
