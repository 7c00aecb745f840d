import NvHashMap.Cache
import NvHashMap.Map.Transport

/-! # The table of a cache

A cache is a map whose probe sequences have one bucket, with its states and counters interleaved.

* `posToPos2_add` gives the index of a state in the array.  The states and the counters lie apart
  (`index_ne`).
* `table` takes the states out of the array.  What a cache writes to its array is what a map writes
  to its states (`table_resetSlot`, `table_place`, `table_copyEntry`, …), and the counters do not
  show (`table_storeLru`).  So the facts on the states, keys and entries of a map hold of a cache. -/

namespace Nvhm

open Buffer SlotCount

variable {κ ν : Type} {T : CacheType κ}

/-- The map with the states, keys and entries of a cache. -/
def CacheType.toMapType (T : CacheType κ) : MapType κ where
  key := T.key
  layout := T.layout
  conf := T.conf
  seq := T.seq
  duplicates := T.duplicates
  autoShrink := false
  autoScrub := false

namespace Cache

/-- The states of a cache, without the counters. -/
def states (m : Cache T ν) : List State := (List.range m.capacity).map m.stateAt

/-- The table of a cache. -/
def table (m : Cache T ν) : Map T.toMapType ν where
  conf := m.conf
  bucketMask := m.bucketMask
  growThreshold := m.conf.growThreshold m.capacity
  values := m.values
  blobs := m.blobs
  keys := m.keys
  states := m.states
  numEmpty := m.numEmpty
  numTombstone := 0

theorem kernelSize_pos (T : CacheType κ) : 0 < T.kernelSize := T.conf.kernelSize_pos

theorem table_capacity (m : Cache T ν) : m.table.capacity = m.capacity := rfl

/-! ### The array -/

/-- The array has a state and a counter for every slot. -/
structure Shape (m : Cache T ν) : Prop where
  table : Map.Shape m.table
  length : m.statesAndLrus.length = m.capacity * 2

/-- The slot `i` of the bucket at `o`. -/
structure IsSlot (m : Cache T ν) (o i : ℕ) : Prop where
  dvd : T.kernelSize ∣ o
  lt : o < m.capacity
  idx_lt : i < T.kernelSize

section Index
variable {m : Cache T ν}

theorem Shape.isSlot_home (h : Shape m) (key : κ) {i : ℕ} (hi : i < T.kernelSize) :
    m.IsSlot (m.home key) i :=
  ⟨(h.table.alignPos_mem _).1, (h.table.alignPos_mem _).2, hi⟩

theorem Shape.add_le (h : Shape m) {o i : ℕ} (hs : m.IsSlot o i) : o + T.kernelSize ≤ m.capacity :=
  h.table.offset_add_le hs.dvd hs.lt

theorem Shape.add_lt (h : Shape m) {o i : ℕ} (hs : m.IsSlot o i) : o + i < m.capacity := by
  have := h.add_le hs
  have := hs.idx_lt
  omega

/-- Every position is a slot of its bucket. -/
theorem exists_isSlot {pos : ℕ} (hp : pos < m.capacity) :
    ∃ i, m.IsSlot (T.toMapType.off pos) i ∧ pos = T.toMapType.off pos + i := by
  obtain ⟨i, hi, heq⟩ := MapType.exists_add_of_off_eq (rfl : T.toMapType.off pos = _)
  exact ⟨i, ⟨T.toMapType.dvd_off pos, lt_of_le_of_lt (T.toMapType.off_le pos) hp, hi⟩, heq⟩

/-- Where the state of a slot lies. -/
theorem posToPos2_add (h : Shape m) {o i : ℕ} (hs : m.IsSlot o i) :
    posToPos2 T.kernelSize (o + i) = o * 2 + i := by
  have hoff := h.table.off_eq (h.add_lt hs)
  rw [MapType.off_add hs.dvd hs.idx_lt] at hoff
  unfold posToPos2
  rw [show alignPos (o + i) (notMask (T.kernelSize - 1)) = o from hoff]
  omega

/-- The number of the half bucket at an index. -/
theorem index_div (T : CacheType κ) (c : ℕ) {i : ℕ} (hi : i < T.kernelSize) :
    (T.kernelSize * c + i) / T.kernelSize = c := by
  rw [Nat.mul_add_div (kernelSize_pos T), Nat.div_eq_of_lt hi, add_zero]

theorem index_inj {o i o' i' : ℕ} (hs : m.IsSlot o i) (hs' : m.IsSlot o' i')
    (he : o * 2 + i = o' * 2 + i') : o = o' ∧ i = i' := by
  obtain ⟨a, rfl⟩ := hs.dvd
  obtain ⟨b, rfl⟩ := hs'.dvd
  have hdiv := index_div T (a * 2) hs.idx_lt
  rw [← mul_assoc, he, mul_assoc, index_div T (b * 2) hs'.idx_lt] at hdiv
  obtain rfl : a = b := by omega
  exact ⟨rfl, by omega⟩

/-- No state lies where a counter lies. -/
theorem index_ne {o i o' i' : ℕ} (hs : m.IsSlot o i) (hs' : m.IsSlot o' i') :
    o * 2 + i ≠ T.kernelSize + (o' * 2 + i') := by
  obtain ⟨a, rfl⟩ := hs.dvd
  obtain ⟨b, rfl⟩ := hs'.dvd
  have hdiv := index_div T (a * 2) hs.idx_lt
  have heq : T.kernelSize + (T.kernelSize * b * 2 + i') = T.kernelSize * (b * 2 + 1) + i' := by
    ring
  intro he
  rw [← mul_assoc, he, heq, index_div T (b * 2 + 1) hs'.idx_lt] at hdiv
  omega

theorem Shape.index_lt (h : Shape m) {o i : ℕ} (hs : m.IsSlot o i) :
    T.kernelSize + (o * 2 + i) < m.capacity * 2 := by
  have := h.add_le hs
  have := hs.idx_lt
  omega

end Index

/-! ### Writing to the array -/

section Write
variable {m : Cache T ν}

theorem stateAt_add (h : Shape m) {o i : ℕ} (hs : m.IsSlot o i) :
    m.stateAt (o + i) = m.statesAndLrus.getD (o * 2 + i) tombstone := by
  unfold stateAt stateAtIdx
  rw [posToPos2_add h hs]

theorem length_states (m : Cache T ν) : m.states.length = m.capacity := by
  unfold states
  rw [List.length_map, List.length_range]

theorem table_stateAt (m : Cache T ν) {pos : ℕ} (hp : pos < m.capacity) :
    m.table.stateAt pos = m.stateAt pos := by
  change m.states.getD pos tombstone = _
  rw [List.getD_eq_getElem _ _ (by rwa [length_states])]
  unfold states
  rw [List.getElem_map, List.getElem_range]

/-- The states of a table, slot by slot. -/
theorem states_eq (h : Shape m) {l : List State} (hl : l.length = m.capacity)
    (hst : ∀ o i, m.IsSlot o i → m.statesAndLrus.getD (o * 2 + i) tombstone =
      l.getD (o + i) tombstone) : m.states = l := by
  refine ext_getD tombstone ((length_states m).trans hl.symm) fun p hp => ?_
  rw [length_states] at hp
  obtain ⟨i, hs, heq⟩ := exists_isSlot hp
  change m.table.stateAt p = l.getD p tombstone
  rw [table_stateAt m hp, heq, stateAt_add h hs]
  exact hst _ i hs

/-- The cache with another array. -/
def withArray (m : Cache T ν) (a : List Byte) : Cache T ν := { m with statesAndLrus := a }

/-- An array of the same length gives a table that differs in its states only. -/
theorem Shape.withArray (h : Shape m) {a : List Byte} (ha : a.length = m.capacity * 2)
    {l : List State} (hl : l.length = m.capacity)
    (hst : ∀ o i, m.IsSlot o i → a.getD (o * 2 + i) tombstone = l.getD (o + i) tombstone) :
    Shape (m.withArray a) ∧ (m.withArray a).table = { m.table with states := l } := by
  have hshape : Shape (m.withArray a) :=
    ⟨⟨h.table.pow, length_states _, h.table.keys_length, h.table.values_length,
      h.table.blobs_length⟩, ha⟩
  have hstates : (m.withArray a).states = l :=
    states_eq hshape hl fun o i hs => hst o i ⟨hs.dvd, hs.lt, hs.idx_lt⟩
  refine ⟨hshape, ?_⟩
  subst hstates
  rfl

theorem getD_states (h : Shape m) {o i : ℕ} (hs : m.IsSlot o i) :
    m.states.getD (o + i) tombstone = m.statesAndLrus.getD (o * 2 + i) tombstone := by
  rw [← stateAt_add h hs, ← table_stateAt m (h.add_lt hs)]
  rfl

/-- `states[off * 2 + idx] = s` sets the state of the slot. -/
theorem Shape.setState (h : Shape m) {o i : ℕ} (hs : m.IsSlot o i) (s : State) :
    Shape (m.setState (o * 2 + i) s) ∧
      (m.setState (o * 2 + i) s).table = { m.table with states := m.states.set (o + i) s } := by
  refine h.withArray ?_ ?_ fun o' i' hs' => ?_
  · rw [List.length_set]
    exact h.length
  · rw [List.length_set]
    exact length_states m
  · have hidx := h.index_lt hs
    by_cases heq : o * 2 + i = o' * 2 + i'
    · obtain ⟨rfl, rfl⟩ := index_inj hs hs' heq
      rw [getD_set_self (by rw [h.length]; omega),
        getD_set_self (by rw [length_states]; exact h.add_lt hs)]
    · have hne : o + i ≠ o' + i' := fun hc => heq (by
        have h1 := MapType.off_add (T := T.toMapType) hs.dvd hs.idx_lt
        have h2 := MapType.off_add (T := T.toMapType) hs'.dvd hs'.idx_lt
        rw [hc, h2] at h1
        omega)
      rw [getD_set_ne heq, getD_set_ne hne, getD_states h hs']

/-- A counter does not show. -/
theorem Shape.setLru (h : Shape m) {o i : ℕ} (hs : m.IsSlot o i) (l : Lru) :
    Shape (m.setLru (o * 2 + i) l) ∧ (m.setLru (o * 2 + i) l).table = m.table := by
  refine h.withArray ?_ (length_states m) fun o' i' hs' => ?_
  · rw [List.length_set]
    exact h.length
  · rw [getD_set_ne (index_ne hs' hs).symm, getD_states h hs']

theorem Shape.storeLru (h : Shape m) {o : ℕ} (hd : T.kernelSize ∣ o) (ho : o < m.capacity)
    {l : List Lru} (hl : l.length = T.kernelSize) :
    Shape (m.storeLru o l) ∧ (m.storeLru o l).table = m.table := by
  have hle := h.table.offset_add_le hd ho
  have hlen : T.kernelSize + o * 2 + l.length ≤ m.statesAndLrus.length := by
    rw [hl, h.length]
    change o + T.kernelSize ≤ m.capacity at hle
    omega
  refine h.withArray ?_ (length_states m) fun o' i' hs' => ?_
  · rw [length_writeAt hlen]
    exact h.length
  · rw [getD_writeAt hlen, if_neg, getD_states h hs']
    rintro ⟨h1, h2⟩
    refine index_ne hs' (⟨hd, ho, ?_⟩ : m.IsSlot o (o' * 2 + i' - (T.kernelSize + o * 2))) ?_
    · omega
    · omega

theorem Shape.storeBucket (h : Shape m) {o : ℕ} (hd : T.kernelSize ∣ o) (ho : o < m.capacity)
    {k : List State} (hk : k.length = T.kernelSize) :
    Shape (m.storeBucket o k) ∧ (m.storeBucket o k).table = m.table.storeBucket o k := by
  have hle := h.table.offset_add_le hd ho
  have hlen : o * 2 + k.length ≤ m.statesAndLrus.length := by
    rw [hk, h.length]
    change o + T.kernelSize ≤ m.capacity at hle
    omega
  have hlen' : o + k.length ≤ m.states.length := by
    rw [hk, length_states]
    exact hle
  refine h.withArray (l := writeAt m.states o k) ?_ ?_ fun o' i' hs' => ?_
  · rw [length_writeAt hlen]
    exact h.length
  · rw [length_writeAt hlen', length_states]
  · rw [getD_writeAt hlen, getD_writeAt hlen', getD_states h hs']
    have hoff := MapType.off_eq_iff (T := T.toMapType) hd
    by_cases heq : o' = o
    · subst heq
      have hi := hs'.idx_lt
      rw [if_pos ⟨by omega, by omega⟩, if_pos ⟨by omega, by omega⟩]
      congr 1
      omega
    · have hne : ¬ (o ≤ o' + i' ∧ o' + i' < o + k.length) := fun hc => heq (by
        have := (hoff (o' + i')).mpr ⟨hc.1, by rw [hk] at hc; exact hc.2⟩
        rwa [MapType.off_add (T := T.toMapType) hs'.dvd hs'.idx_lt] at this)
      rw [if_neg hne, if_neg]
      rintro ⟨h1, h2⟩
      refine heq (index_inj hs' (⟨hd, ho, ?_⟩ : m.IsSlot o (o' * 2 + i' - o * 2)) ?_).1
      · omega
      · omega

end Write

/-! ### Writing entries -/

section Entries
variable {m : Cache T ν}

theorem length_lrus (h : Shape m) {o : ℕ} (hd : T.kernelSize ∣ o) (ho : o < m.capacity) :
    (m.lrus o).length = T.kernelSize := by
  have hle := h.table.offset_add_le hd ho
  change o + T.kernelSize ≤ m.capacity at hle
  unfold lrus
  rw [length_readAt]
  rw [h.length]
  omega

theorem length_bumpLru (l : List Lru) (i : ℕ) : (ideal.updateLru l i).length = l.length := by
  change (bumpLru l i).length = _
  unfold bumpLru
  rw [List.length_mapIdx]

theorem Shape.touch (h : Shape m) {o i : ℕ} (hs : m.IsSlot o i) :
    Shape (m.touch ideal o i) ∧ (m.touch ideal o i).table = m.table :=
  h.storeLru hs.dvd hs.lt (by rw [length_bumpLru, length_lrus h hs.dvd hs.lt])

/-- A cache is in shape if its table is, and its array is as long as before. -/
theorem Shape.of_table (h : Shape m) {m' : Cache T ν} {t : Map T.toMapType ν}
    (ht : m'.table = t) (hcap : m'.capacity = m.capacity)
    (hlen : m'.statesAndLrus.length = m.statesAndLrus.length) (hshape : Map.Shape t) :
    Shape m' := by
  subst ht
  exact ⟨hshape, by rw [hlen, hcap, h.length]⟩

theorem Shape.resetSlot (h : Shape m) {o i : ℕ} (hs : m.IsSlot o i) :
    Shape (m.resetSlot (o * 2 + i)) ∧
      (m.resetSlot (o * 2 + i)).table = m.table.free true (o + i) := by
  have htable : (m.resetSlot (o * 2 + i)).table = m.table.free true (o + i) := by
    change { (m.setState (o * 2 + i) empty).table with numEmpty := m.numEmpty + 1 } = _
    rw [(h.setState hs empty).2]
    rfl
  refine ⟨h.of_table htable rfl ?_ (Map.free_shape h.table true _), htable⟩
  exact List.length_set

variable [Inhabited κ]

omit [Inhabited κ] in
/-- The table after `place`; an empty slot is used up only by an insert. -/
theorem Shape.place (h : Shape m) {o i : ℕ} (hs : m.IsSlot o i) (key : κ) (op : InsertOp) :
    Shape (m.place o i key op) ∧ (m.place o i key op).table =
      { m.table.occupy (o + i) key 1 with
        numEmpty := m.numEmpty - if op = .insert then 1 else 0 } := by
  let m₁ : Cache T ν := { m with keys := m.keys.set (o + i) key }
  have h₁ : Shape m₁ := by
    refine ⟨⟨h.table.pow, length_states _, ?_, h.table.values_length, h.table.blobs_length⟩,
      h.length⟩
    exact List.length_set.trans h.table.keys_length
  have hs₁ : m₁.IsSlot o i := ⟨hs.dvd, hs.lt, hs.idx_lt⟩
  obtain ⟨h₂, ht₂⟩ := h₁.setState hs₁ (keyState T key)
  have hs₂ : (m₁.setState (o * 2 + i) (keyState T key)).IsSlot o i := ⟨hs.dvd, hs.lt, hs.idx_lt⟩
  obtain ⟨h₃, ht₃⟩ := h₂.setLru hs₂ defaultLru
  refine ⟨⟨⟨h₃.table.pow, length_states _, h₃.table.keys_length, h₃.table.values_length,
    h₃.table.blobs_length⟩, h₃.length⟩, ?_⟩
  change { ((m₁.setState (o * 2 + i) (keyState T key)).setLru (o * 2 + i) defaultLru).table with
    numEmpty := m.numEmpty - if op = InsertOp.insert then 1 else 0 } = _
  rw [ht₃, ht₂]
  rfl

variable [Inhabited ν]

theorem Shape.copyEntry (h : Shape m) {old : Cache T ν} (hold : Shape old)
    (hconf : old.conf = m.conf) {o i o' i' : ℕ} (hs : m.IsSlot o i) (hs' : old.IsSlot o' i') :
    Shape (m.copyEntry old o' i' o i) ∧ (m.copyEntry old o' i' o i).table =
      m.table.copyEntry old.table (o' + i') (o + i) := by
  let m₁ : Cache T ν := { m with
    values := m.values.set (o + i) (old.valueAt (o' + i'))
    blobs := writeAt m.blobs ((o + i) * m.conf.blobStride) (old.blobAt (o' + i'))
    keys := m.keys.set (o + i) (old.keyAt (o' + i')) }
  have hcopy := Map.copyEntry_shape h.table hold.table hconf (hold.add_lt hs') (h.add_lt hs)
  have h₁ : Shape m₁ :=
    ⟨⟨h.table.pow, length_states _, hcopy.keys_length, hcopy.values_length, hcopy.blobs_length⟩,
      h.length⟩
  have hs₁ : m₁.IsSlot o i := ⟨hs.dvd, hs.lt, hs.idx_lt⟩
  obtain ⟨h₂, ht₂⟩ := h₁.setState hs₁ (keyState T (old.keyAt (o' + i')))
  have hs₂ : (m₁.setState (o * 2 + i) (keyState T (old.keyAt (o' + i')))).IsSlot o i :=
    ⟨hs.dvd, hs.lt, hs.idx_lt⟩
  obtain ⟨h₃, ht₃⟩ := h₂.setLru hs₂ (old.lruAtIdx (o' * 2 + i'))
  refine ⟨h₃, ?_⟩
  change ((m₁.setState (o * 2 + i) (keyState T (old.keyAt (o' + i')))).setLru (o * 2 + i)
    (old.lruAtIdx (o' * 2 + i'))).table = _
  rw [ht₃, ht₂]
  rfl

end Entries

/-! ### Fresh tables -/

section Fresh
variable {m : Cache T ν}

/-- The loop of `reset_` empties the given buckets. -/
theorem resetBuckets_spec : ∀ (offs : List ℕ) {m : Cache T ν}, Shape m →
    (∀ o ∈ offs, T.kernelSize ∣ o ∧ o < m.capacity) →
    Shape (m.withArray (resetBuckets T.kernelSize offs m.statesAndLrus)) ∧
      ∀ p < m.capacity, (m.withArray (resetBuckets T.kernelSize offs m.statesAndLrus)).table.stateAt
        p = if T.toMapType.off p ∈ offs then empty else m.table.stateAt p
  | [], m, h, _ => ⟨h, fun p _ => (if_neg List.not_mem_nil).symm⟩
  | o :: offs, m, h, ho => by
      obtain ⟨hd, hlt⟩ := ho o List.mem_cons_self
      obtain ⟨h₁, ht₁⟩ := h.storeBucket hd hlt (k := List.replicate T.kernelSize empty)
        List.length_replicate
      obtain ⟨h₂, ht₂⟩ := h₁.storeLru hd hlt (l := List.replicate T.kernelSize maxLru)
        List.length_replicate
      obtain ⟨h₃, hst⟩ := resetBuckets_spec offs h₂
        fun o' ho' => ho o' (List.mem_cons_of_mem _ ho')
      refine ⟨h₃, fun p hp => (hst p hp).trans ?_⟩
      have hle := h.table.offset_add_le hd hlt
      have hk : (List.replicate T.kernelSize empty).length = T.toMapType.kernelSize :=
        List.length_replicate
      rw [ht₂, ht₁, Map.storeBucket_stateAt h.table hle hk]
      have hoff := MapType.off_eq_iff (T := T.toMapType) hd p
      by_cases hmem : T.toMapType.off p ∈ offs
      · rw [if_pos hmem, if_pos (List.mem_cons_of_mem _ hmem)]
      · rw [if_neg hmem]
        by_cases heq : T.toMapType.off p = o
        · have hin := hoff.mp heq
          have hlen : p - o < (List.replicate T.kernelSize empty).length := by
            rw [List.length_replicate]
            exact Nat.sub_lt_left_of_lt_add hin.1 hin.2
          rw [if_pos hin, if_pos (by rw [heq]; exact List.mem_cons_self),
            List.getD_eq_getElem _ _ hlen, List.getElem_replicate]
        · rw [if_neg fun hc => heq (hoff.mpr hc), if_neg]
          exact fun hc => (List.mem_cons.mp hc).elim heq hmem

theorem Shape.reset (h : Shape m) : Shape m.reset ∧ m.reset.table = m.table.reset := by
  obtain ⟨hshape, hst⟩ := resetBuckets_spec (offsets T.kernelSize m.capacity) h
    fun o ho => h.table.mem_offsets.mp ho
  have hshape' : Shape m.reset :=
    ⟨⟨h.table.pow, length_states _, h.table.keys_length, h.table.values_length,
      h.table.blobs_length⟩, hshape.length⟩
  refine ⟨hshape', ?_⟩
  have hstates : m.reset.states = List.replicate m.capacity empty := by
    refine ext_getD tombstone ?_ fun p hp => ?_
    · rw [length_states, List.length_replicate]
      rfl
    · rw [length_states] at hp
      change m.reset.table.stateAt p = _
      have hlt : T.toMapType.off p < m.capacity := lt_of_le_of_lt (T.toMapType.off_le p) hp
      have hmem : T.toMapType.off p ∈ offsets T.kernelSize m.capacity :=
        h.table.mem_offsets.mpr ⟨T.toMapType.dvd_off p, hlt⟩
      refine (hst p hp).trans ?_
      rw [if_pos hmem, List.getD_eq_getElem _ _ (by rw [List.length_replicate]; exact hp),
        List.getElem_replicate]
  change Map.mk _ _ _ _ _ _ m.reset.states _ _ = _
  rw [hstates]
  rfl

variable [Inhabited κ] [Inhabited ν]

theorem capacity_alloc (m : Cache T ν) {n : ℕ} (hn : T.kernelSize ≤ n) :
    (m.alloc n).capacity = n := Map.alloc_capacity m.table hn

theorem Shape.alloc (m : Cache T ν) {n : ℕ} (hcap : IsCapacity n) (hn : T.kernelSize ≤ n) :
    Shape (m.alloc n).reset ∧ (m.alloc n).reset.table = (m.table.alloc n).reset := by
  have hmap := Map.alloc_shape m.table hcap hn
  have hcapacity := capacity_alloc m hn
  have hshape : Shape (m.alloc n) := by
    refine ⟨⟨hmap.pow, length_states _, hmap.keys_length, hmap.values_length, hmap.blobs_length⟩,
      ?_⟩
    rw [hcapacity]
    exact List.length_replicate
  obtain ⟨h, ht⟩ := hshape.reset
  refine ⟨h, ht.trans ?_⟩
  change Map.mk _ _ (m.conf.growThreshold (m.alloc n).capacity) _ _ _ _ _ _ = _
  rw [hcapacity]
  rfl

end Fresh

end Cache

end Nvhm
