import NvHashMap.Map.Resize

/-! # Inserting

The two loops of `insert_` end in an empty slot, or in a tombstone of an earlier bucket.  Either
way no bucket before that slot has an empty one, so the new entry lies on its key's chain; and the
loop has passed the place where the key would be stored.  Before them the table may grow, and then
it is not full any more (`not_isFull_of_resized`). -/

namespace Nvhm

open Buffer SlotCount

variable {κ ν : Type} {T : MapType κ}

namespace Map

/-! ### Stored keys -/

section Contains
variable [Inhabited κ] [Inhabited ν]

/-- A key equal to `key` is stored. -/
def Contains (m : Map T ν) (key : κ) : Prop := ∃ e ∈ m.entries, T.key.eq e.1 key = true

theorem contains_iff {m : Map T ν} {key : κ} : m.Contains key ↔ ∃ p, m.Stores key p := by
  simp only [Contains, mem_entries]
  constructor
  · rintro ⟨_, ⟨p, hp, rfl⟩, heq⟩
    exact ⟨p, hp, heq⟩
  · rintro ⟨p, hp, heq⟩
    exact ⟨_, ⟨p, hp, rfl⟩, heq⟩

theorem contains_congr {m m' : Map T ν} (h : m'.entries = m.entries) (key : κ) :
    m'.Contains key ↔ m.Contains key := by
  rw [Contains, Contains, h]

end Contains

section Insert
variable [Inhabited κ] [Inhabited ν]

/-- What `insert_` does: it finds the key, or it adds an entry for it. -/
structure Inserted (m m' : Map T ν) (key : κ) (pos : ℕ) (op : InsertOp) : Prop where
  inv : Inv m'
  stores : m'.Stores key pos
  conf_eq : m'.conf = m.conf
  cases : (op = .found ∧ T.duplicates = false ∧ m'.entries = m.entries) ∨
    (op = .insert ∧ (T.duplicates = false → ¬ m.Contains key) ∧ m'.keyAt pos = key ∧
      m'.entries = m'.entryAt pos ::ₘ m.entries)

variable {m : Map T ν}

omit [Inhabited ν] in
theorem Sound.findInBucket_spec (h : Sound m) {o : ℕ} (ho : o + T.kernelSize ≤ m.capacity)
    (key : κ) :
    match m.findInBucket ideal o key with
    | some i => T.duplicates = false ∧ i < T.kernelSize ∧ m.Stores key (o + i)
    | none => T.duplicates = false → m.NoMatch key o := by
  cases hd : T.duplicates with
  | true => simp [findInBucket, hd]
  | false =>
      have := h.firstMatch_spec ho key
      simp only [findInBucket, hd, Bool.false_eq_true, if_false, true_and, true_implies]
      exact this

theorem Inv.inserted_found (h : Inv m) {key : κ} {pos : ℕ} (hd : T.duplicates = false)
    (hs : m.Stores key pos) : Inserted m m key pos .found :=
  ⟨h, hs, rfl, Or.inl ⟨rfl, hd, rfl⟩⟩

omit [Inhabited ν] in
theorem stores_occupy (h : Shape m) {pos : ℕ} (hp : pos < m.capacity) (key : κ) (e : ℤ) :
    (m.occupy pos key e).Stores key pos := by
  refine ⟨⟨hp, ?_⟩, ?_⟩
  · rw [containsAt, occupy_stateAt h hp, Function.update_self]
    exact isHash_keyState T key
  · rw [occupy_keyAt h hp, Function.update_self]
    exact T.key.eq_refl key

theorem Inv.inserted_occupy (h : Inv m) {key : κ} {pos : ℕ} {e : ℤ} (hp : pos < m.capacity)
    (hs : m.stateAt pos = empty ∧ e = 1 ∨ m.stateAt pos = tombstone ∧ e = 0)
    (hr : m.Reaches key (T.off pos)) (hu : T.duplicates = false → ∀ q, ¬ m.Stores key q)
    (he : 1 ≤ m.numEmpty - e) : Inserted m (m.occupy pos key e) key pos .insert := by
  have hst := occupy_stateAt h.toShape hp key e
  have hk := occupy_keyAt h.toShape hp key e
  have hf := occupy_frame m pos key e
  have hfree : ¬ m.Occupied pos := by
    intro ho
    have := ho.isHash
    rcases hs with ⟨hs, -⟩ | ⟨hs, -⟩ <;> rw [hs] at this <;> cases this
  have hkey : (m.occupy pos key e).keyAt pos = key := by rw [hk, Function.update_self]
  refine ⟨h.occupy hp hs hr hu he, stores_occupy h.toShape hp key e, rfl,
    Or.inr ⟨rfl, fun hd hc => ?_, hkey, ?_⟩⟩
  · obtain ⟨q, hq⟩ := contains_iff.mp hc
    exact hu hd q hq
  · exact entries_put hf hp hfree (isHash_keyState T key) hst fun q _ hq =>
      occupy_entryAt_ne h.toShape hp key e hq

/-- A free slot in which `insert_` may store `key`: its sequence reaches the slot, and stops without
having found the key.  `e` is one for an empty slot and zero for a tombstone. -/
structure Vacant (m : Map T ν) (key : κ) (pos : ℕ) (e : ℤ) : Prop where
  lt : pos < m.capacity
  state : m.stateAt pos = empty ∧ e = 1 ∨ m.stateAt pos = tombstone ∧ e = 0
  near : m.Near key (T.off pos)
  stop : T.duplicates = false → ∃ j, m.HasEmpty (m.visit key j) ∧ m.NoMatchUpTo key (j + 1)

omit [Inhabited ν] in
/-- One of two empty slots is left. -/
theorem Vacant.room {key : κ} {pos : ℕ} {e : ℤ} (hv : m.Vacant key pos e) (he : 2 ≤ m.numEmpty) :
    1 ≤ m.numEmpty - e := by
  rcases hv.state with ⟨-, rfl⟩ | ⟨-, rfl⟩ <;> omega

omit [Inhabited ν] in
theorem Vacant.not_stores (h : Table m) {key : κ} {pos : ℕ} {e : ℤ} (hv : m.Vacant key pos e)
    (hd : T.duplicates = false) (q : ℕ) : ¬ m.Stores key q := by
  obtain ⟨j, hemp, hno⟩ := hv.stop hd
  exact h.not_stores_of_stop hemp hno q

/-- What a loop of `insert_` does: its sequence ends, or it finds the key, or it fills a slot. -/
def Placed (m : Map T ν) (key : κ) : Option (InsertResult T ν) → Prop
  | none => ∃ j ≤ m.numBuckets, (seqAt T key j).hasNext T.seq = false ∧ m.FullUpTo key j
  | some ((pos, op, _), m') =>
      (op = .found ∧ T.duplicates = false ∧ m.Stores key pos ∧ m' = m) ∨
        (op = .insert ∧ ∃ e, m.Vacant key pos e ∧ m' = m.occupy pos key e)

theorem Placed.inserted (h : Inv m) (he : 2 ≤ m.numEmpty) {key : κ} {pos : ℕ} {op : InsertOp}
    {q : ProbeSeq} {m' : Map T ν} (hp : m.Placed key (some ((pos, op, q), m'))) :
    Inserted m m' key pos op := by
  rcases hp with ⟨rfl, hd, hs, rfl⟩ | ⟨rfl, e, hv, rfl⟩
  · exact h.inserted_found hd hs
  · exact h.inserted_occupy hv.lt hv.state hv.near.reaches (hv.not_stores h.toTable) (hv.room he)

/-- What the loops of `insert_` keep: no empty slot and no match so far. -/
def Searching (m : Map T ν) (key : κ) (j : ℕ) : Prop :=
  m.FullUpTo key j ∧ (T.duplicates = false → m.NoMatchUpTo key j)

omit [Inhabited ν] in
theorem searching_zero (m : Map T ν) (key : κ) : m.Searching key 0 :=
  ⟨fun _ hi => absurd hi (Nat.not_lt_zero _), fun _ _ hi => absurd hi (Nat.not_lt_zero _)⟩

omit [Inhabited ν] in
theorem Searching.succ {key : κ} {j : ℕ} (h : m.Searching key j)
    (hfull : ¬ m.HasEmpty (m.visit key j))
    (hno : T.duplicates = false → m.NoMatch key (m.visit key j)) : m.Searching key (j + 1) :=
  ⟨h.1.succ hfull, fun hd => (h.2 hd).succ (hno hd)⟩

omit [Inhabited ν] in
/-- At an empty slot the search is over. -/
theorem Searching.stop {key : κ} {j : ℕ} (hs : m.Searching key j)
    (hemp : m.HasEmpty (m.visit key j))
    (hno : T.duplicates = false → m.NoMatch key (m.visit key j)) (hd : T.duplicates = false) :
    ∃ j, m.HasEmpty (m.visit key j) ∧ m.NoMatchUpTo key (j + 1) :=
  ⟨j, hemp, (hs.2 hd).succ (hno hd)⟩

omit [Inhabited κ] [Inhabited ν] in
/-- The first slot of a mask. -/
theorem Shape.head_spec (h : Shape m) {p : State → Bool} {o i : ℕ}
    (ho : o + T.kernelSize ≤ m.capacity) (hi : (slots p (m.bucket o)).head? = some i) :
    i < T.kernelSize ∧ o + i < m.capacity ∧ p (m.stateAt (o + i)) = true := by
  obtain ⟨hik, hs⟩ := (h.mem_slots_bucket ho).mp (List.mem_of_mem_head? hi)
  exact ⟨hik, by omega, hs⟩

omit [Inhabited κ] [Inhabited ν] in
/-- The slots of a bucket before the first one in a mask. -/
theorem Shape.not_mask_of_head (h : Shape m) {p : State → Bool} {o i : ℕ}
    (ho : o + T.kernelSize ≤ m.capacity) (hi : (slots p (m.bucket o)).head? = some i) :
    ∀ d < i, p (m.stateAt (o + d)) = false := by
  intro d hd
  obtain ⟨hik, -⟩ := (h.mem_slots_bucket ho).mp (List.mem_of_mem_head? hi)
  by_contra hp
  have hmem := (h.mem_slots_bucket (p := p) ho).mpr ⟨hd.trans hik, Bool.not_eq_false _ ▸ hp⟩
  exact absurd ((head?_slots hi).2 d hmem) (not_le.mpr hd)

omit [Inhabited κ] [Inhabited ν] in
/-- A bucket without a slot in a mask that holds the empty slots has no empty slot. -/
theorem Shape.not_hasEmpty (h : Shape m) {p : State → Bool} {o : ℕ} (hp : p empty = true)
    (ho : o + T.kernelSize ≤ m.capacity) (hnone : (slots p (m.bucket o)).head? = none) :
    ¬ m.HasEmpty o := by
  rintro ⟨i, hik, hie⟩
  have := (h.slots_bucket_eq_nil ho).mp (List.head?_eq_none_iff.mp hnone) i hik
  rw [hie, hp] at this
  cases this

section Loops
variable (h : Exact m)
include h

omit [Inhabited ν] in
theorem Exact.no_tombstone (ht : m.numTombstone = 0) {p : ℕ} (hp : p < m.capacity) :
    m.stateAt p ≠ tombstone := by
  have hz : countSlots m.capacity (· == tombstone) m.stateAt = 0 := by
    have := h.numTombstone_eq
    omega
  exact ne_of_beq_false (countSlots_eq_zero.mp hz p hp)

omit [Inhabited ν] in
/-- The loop over a table without tombstones. -/
theorem insertFresh_cases (ht : m.numTombstone = 0) (key : κ) :
    (∃ r, insertFresh ideal m key = .ok r ∧ m.Placed key r) ∨
      insertFresh ideal m key = .error .tableFull ∧ m.FullUpTo key m.numBuckets := by
  refine Or.imp id (fun ⟨hx, _, hs⟩ => ⟨hx, hs.1⟩) (probe_cases h.toShape
    (fun j _ => m.Searching key j) (m.Placed key) (searching_zero m key) ?_
    fun j _ hj hn hsearch => ⟨j, hj, hn, hsearch.1⟩)
  rintro j - hj hn hsearch
  have ho := h.visit_add_le key j
  have hbucket := h.findInBucket_spec ho key
  dsimp only
  split
  · next i hi =>
      rw [hi] at hbucket
      exact Or.inl ⟨rfl, hbucket.1, hbucket.2.2, rfl⟩
  · next hi =>
      rw [hi] at hbucket
      split
      · next hnone =>
          exact hsearch.succ (h.not_hasEmpty (p := (!isHash ·)) rfl ho hnone) hbucket
      · next i hsome =>
          obtain ⟨hik, hp, hs⟩ := h.head_spec (p := (!isHash ·)) ho hsome
          have hoff := MapType.off_add (h.dvd_visit key j) hik
          have hstate : m.stateAt (m.visit key j + i) = empty :=
            (eq_of_validState (h.state_valid _ hp) (by simpa using hs)).resolve_right
              (h.no_tombstone ht hp)
          refine Or.inr ⟨rfl, 1, ⟨hp, Or.inl ⟨hstate, rfl⟩, ?_,
            hsearch.stop ⟨i, hik, hstate⟩ hbucket⟩, rfl⟩
          exact ⟨j, hj, hoff.symm, hn, hsearch.1⟩

omit [Inhabited ν] in
/-- The loop over a table with tombstones. -/
theorem insertReusing_cases (key : κ) :
    (∃ r, insertReusing ideal m key = .ok r ∧ m.Placed key r) ∨
      insertReusing ideal m key = .error .tableFull ∧ m.FullUpTo key m.numBuckets := by
  -- the remembered slot is a tombstone that the sequence of the key reaches
  refine Or.imp id (fun ⟨hx, _, hs⟩ => ⟨hx, hs.1.1⟩) (probe_cases h.toShape
    (fun j insPos => m.Searching key j ∧ ∀ p, insPos = some p →
      p < m.capacity ∧ m.stateAt p = tombstone ∧ m.Near key (T.off p)) (m.Placed key)
    ⟨searching_zero m key, fun _ hc => by cases hc⟩ ?_
    fun j _ hj hn hsearch => ⟨j, hj, hn, hsearch.1.1⟩)
  rintro j insPos hj hn ⟨hsearch, hpos⟩
  have ho := h.visit_add_le key j
  have hbucket := h.findInBucket_spec ho key
  dsimp only
  split
  · next i hi =>
      rw [hi] at hbucket
      exact Or.inl ⟨rfl, hbucket.1, hbucket.2.2, rfl⟩
  next hi =>
  rw [hi] at hbucket
  cases insPos with
  | none =>
      dsimp only
      split
      · next i hsome =>
          obtain ⟨hik, hp, hs⟩ := h.head_spec (p := (· == tombstone)) ho hsome
          have hoff := MapType.off_add (h.dvd_visit key j) hik
          have hstate : m.stateAt (m.visit key j + i) = tombstone := eq_of_beq hs
          refine ⟨hsearch.succ (fun hc => ?_) hbucket, ?_⟩
          · exact h.ne_tombstone hp (by rwa [hoff]) hstate
          · rintro p hp'
            obtain rfl := Option.some.inj hp'
            exact ⟨hp, hstate, j, hj, hoff.symm, hn, hsearch.1⟩
      · next htomb =>
          have hnil : slots (· == tombstone) (m.bucket (m.visit key j)) = [] :=
            List.head?_eq_none_iff.mp htomb
          split
          · next hnone =>
              exact ⟨hsearch.succ (h.not_hasEmpty (p := (!isHash ·)) rfl ho hnone) hbucket,
                fun _ hc => by cases hc⟩
          · next i hsome =>
              obtain ⟨hik, hp, hs⟩ := h.head_spec (p := (!isHash ·)) ho hsome
              have hoff := MapType.off_add (h.dvd_visit key j) hik
              have hnt := (h.slots_bucket_eq_nil ho).mp hnil i hik
              have hstate : m.stateAt (m.visit key j + i) = empty :=
                (eq_of_validState (h.state_valid _ hp) (by simpa using hs)).resolve_right
                  (ne_of_beq_false hnt)
              refine Or.inr ⟨rfl, 1, ⟨hp, Or.inl ⟨hstate, rfl⟩, ?_,
                hsearch.stop ⟨i, hik, hstate⟩ hbucket⟩, rfl⟩
              exact ⟨j, hj, hoff.symm, hn, hsearch.1⟩
  | some p =>
      obtain ⟨hp, hstate, hr⟩ := hpos p rfl
      dsimp only
      split
      · next hnone =>
          exact ⟨hsearch.succ (h.not_hasEmpty (p := (· == empty)) (by decide) ho hnone) hbucket,
            hpos⟩
      · next i hsome =>
          obtain ⟨hik, -, hs⟩ := h.head_spec (p := (· == empty)) ho hsome
          exact Or.inr ⟨rfl, 0, ⟨hp, Or.inr ⟨hstate, rfl⟩, hr,
            hsearch.stop ⟨i, hik, eq_of_beq hs⟩ hbucket⟩, rfl⟩

end Loops

variable (hS : T.seq.isUnbounded = true) (h : Inv m)
include hS h

/-- With an unbounded sequence a loop places the key, or it runs through all buckets; the table has
an empty slot. -/
theorem Inv.placed (he : 2 ≤ m.numEmpty) {key : κ}
    {x : Except Err (Option (InsertResult T ν))}
    (hx : (∃ r, x = .ok r ∧ m.Placed key r) ∨
      x = .error .tableFull ∧ m.FullUpTo key m.numBuckets) :
    ∃ pos op q m', x = .ok (some ((pos, op, q), m')) ∧ Inserted m m' key pos op := by
  rcases hx with ⟨r, hr, hp⟩ | ⟨-, hfull⟩
  · cases r with
    | none =>
        obtain ⟨j, -, hn, -⟩ := hp
        rw [ProbeSeq.hasNext_of_unbounded _ hS] at hn
        cases hn
    | some r =>
        obtain ⟨⟨pos, op, q⟩, m'⟩ := r
        exact ⟨pos, op, q, m', hr, hp.inserted h he⟩
  · obtain ⟨e, hlt, hemp⟩ := h.exists_empty
    exact absurd hfull (h.not_all_full hlt hemp key)

/-- The loops of `insert_` on a table that is not full. -/
theorem insertLoop_spec (hfull : m.isFull = false) (key : κ) (d : ℕ) :
    ∃ pos op q m', insertLoop ideal key (d + 1) m = .ok ((pos, op, q), m') ∧
      Inserted m m' key pos op := by
  have hlt : (m.growThreshold : ℤ) < m.numEmpty := by
    simpa [isFull, Conf.shouldGrowPrecalc] using hfull
  have he : 2 ≤ m.numEmpty := by
    have := Conf.growThreshold_pos h.conf_valid m.capacity
    have := h.growThreshold_eq
    omega
  rw [insertLoop]
  by_cases ht : m.numTombstone = 0
  · obtain ⟨pos, op, q, m', hr, hi⟩ := Inv.placed hS h he (insertFresh_cases h.exact ht key)
    refine ⟨pos, op, q, m', ?_, hi⟩
    rw [if_neg (not_not.mpr ht), hr]
    rfl
  · obtain ⟨pos, op, q, m', hr, hi⟩ := Inv.placed hS h he (insertReusing_cases h.exact key)
    refine ⟨pos, op, q, m', ?_, hi⟩
    rw [if_pos ht, hr]
    rfl

omit hS h in
/-- After a growth the table is not full: at least half of the slots are empty, and one more. -/
theorem not_isFull_of_resized (h : Inv m) {m' : Map T ν} {n : ℕ}
    (hr : Resized m m' (2 * m.capacity) n) : m'.isFull = false := by
  have hlt : m'.growThreshold < m'.numEmpty := by
    have hcap := hr.capacity_eq
    have hle := hr.le_capacity
    have hcard := h.exact.card_entries_lt
    have hpos := h.capacity_pos
    have ht : m'.numTombstone = 0 := hr.noTombstone (by omega)
    have hsize := hr.inv.size_eq
    have hthr := m'.conf.two_mul_growThreshold hr.inv.minCapacity_le
    have heq := hr.inv.growThreshold_eq
    rw [hr.entries_eq, size, numNotHashSlots, ht] at hsize
    omega
  simp [isFull, Conf.shouldGrowPrecalc, hlt]

/-- `insert_` finds or adds the key, or it has to grow the table beyond the range of `int_t`. -/
theorem insert_spec (key : κ) :
    (m.insert ideal key = .error .overflow ∧ m.isFull = true ∧ 2 ^ 62 < 2 * m.capacity) ∨
    ∃ pos op q m', m.insert ideal key = .ok ((pos, op, q), m') ∧ Inserted m m' key pos op := by
  unfold insert
  cases hfull : m.isFull with
  | false =>
      right
      rw [if_neg Bool.false_ne_true]
      exact insertLoop_spec hS h hfull key 63
  | true =>
      rw [if_pos rfl]
      cases hshl : shl1 m.capacity with
      | error e =>
          left
          obtain ⟨rfl, hlt⟩ := shl1_error hshl
          exact ⟨rfl, rfl, hlt⟩
      | ok c =>
          have hcap := (isCapacity_shl1 h.isCapacity hshl).1
          obtain ⟨rfl, hle⟩ := shl1_ok hshl
          rw [ok_bind]
          rcases resize_spec hS h (Or.inr hcap) with ⟨-, hcrowd⟩ | ⟨n, m₁, hr, hres⟩
          · have := h.exact.card_entries_lt
            exact absurd hcrowd (h.exact.not_crowded (by omega))
          · right
            have hfull₁ := not_isFull_of_resized h hres
            obtain ⟨pos, op, q, m', hm', hi⟩ := insertLoop_spec hS hres.inv hfull₁ key 63
            refine ⟨pos, op, q, m', ?_, hi.inv, hi.stores, hi.conf_eq.trans hres.conf_eq, ?_⟩
            · rw [hr, ok_bind]
              dsimp only
              rw [hfull₁, if_neg Bool.false_ne_true]
              exact hm'
            · rcases hi.cases with ⟨rfl, hd, he⟩ | ⟨rfl, hno, hk, he⟩
              · exact Or.inl ⟨rfl, hd, he.trans hres.entries_eq⟩
              · refine Or.inr ⟨rfl, fun hd hc => hno hd ?_, hk, by rw [he, hres.entries_eq]⟩
                exact (contains_congr hres.entries_eq key).mpr hc

end Insert

end Map

end Nvhm
