import NvHashMap.Map.Invariant

/-! # Updates of one slot

`Table.put` and `Table.release` say what happens to the invariant of the arrays when one slot is
filled or freed.  The functions of the map that write to the arrays are instances: `occupy`,
`free` and `copyEntry`.  For each of them the entries of the table are described as a multiset. -/

namespace Nvhm

open Buffer SlotCount

variable {κ ν : Type} {T : MapType κ}

namespace Map

/-! ### Chains after an update -/

/-- A chain survives if no bucket gets an empty slot that had none. -/
theorem Reaches.mono {m m' : Map T ν} (hm : Shape m) (hf : Frame m m')
    (he : ∀ o, T.kernelSize ∣ o → m'.HasEmpty o → m.HasEmpty o) {key : κ} {o : ℕ}
    (h : m.Reaches key o) : m'.Reaches key o := by
  obtain ⟨j, hj, hv, hne⟩ := h
  refine ⟨j, ?_, ?_, fun i hi hemp => ?_⟩
  · rw [hf.numBuckets]
    exact hj
  · rw [hf.visit, hv]
  · rw [hf.visit] at hemp
    exact hne i hi (he _ (hm.dvd_visit key i) hemp)

/-- Filling a slot makes no slot empty. -/
theorem HasEmpty.of_put {m m' : Map T ν} {pos : ℕ} {s : State} (hs : s ≠ empty)
    (hst : m'.stateAt = Function.update m.stateAt pos s) {o : ℕ} (h : m'.HasEmpty o) :
    m.HasEmpty o := by
  obtain ⟨i, hi, he⟩ := h
  rw [hst] at he
  by_cases hp : o + i = pos
  · rw [hp, Function.update_self] at he
    exact absurd he hs
  · rw [Function.update_of_ne hp] at he
    exact ⟨i, hi, he⟩

/-- A slot is emptied only next to an empty slot. -/
theorem HasEmpty.of_release {m m' : Map T ν} {pos : ℕ} {s : State}
    (hs : s = empty → m.HasEmpty (T.off pos))
    (hst : m'.stateAt = Function.update m.stateAt pos s) {o : ℕ} (ho : T.kernelSize ∣ o)
    (h : m'.HasEmpty o) : m.HasEmpty o := by
  obtain ⟨i, hi, he⟩ := h
  rw [hst] at he
  by_cases hp : o + i = pos
  · rw [hp, Function.update_self] at he
    have := hs he
    rwa [← hp, MapType.off_add ho hi] at this
  · rw [Function.update_of_ne hp] at he
    exact ⟨i, hi, he⟩

theorem occupied_put {m m' : Map T ν} (hf : Frame m m') {pos : ℕ} {s : State}
    (hst : m'.stateAt = Function.update m.stateAt pos s) {q : ℕ} (hq : q ≠ pos) :
    m'.Occupied q ↔ m.Occupied q := by
  rw [Occupied, Occupied, hf.capacity, containsAt, containsAt, hst, Function.update_of_ne hq]

section Keys
variable [Inhabited κ]

/-- Filling a slot with a key and its fingerprint keeps the state bytes right. -/
theorem Sound.put {m m' : Map T ν} (h : Sound m) (hf : Frame m m') (hshape : Shape m') {pos : ℕ}
    {key : κ} (hst : m'.stateAt = Function.update m.stateAt pos (keyState T key))
    (hk : m'.keyAt = Function.update m.keyAt pos key) : Sound m' := by
  refine { hshape with conf_valid := ?_, state_valid := ?_, state_eq := ?_ }
  · rw [hf.conf]
    exact h.conf_valid
  · intro q hq
    rw [hf.capacity] at hq
    rw [hst]
    by_cases hqp : q = pos
    · rw [hqp, Function.update_self]
      exact validState_of_isHash (isHash_keyState T key)
    · rw [Function.update_of_ne hqp]
      exact h.state_valid q hq
  · intro q hq
    rw [hst, hk]
    by_cases hqp : q = pos
    · rw [hqp, Function.update_self, Function.update_self]
    · rw [Function.update_of_ne hqp, Function.update_of_ne hqp]
      exact h.state_eq q ((occupied_put hf hst hqp).mp hq)

omit [Inhabited κ] in
/-- A freed slot is not occupied. -/
theorem occupied_of_release {m m' : Map T ν} (hf : Frame m m') {pos : ℕ} {s : State}
    (hnot : isHash s = false) (hst : m'.stateAt = Function.update m.stateAt pos s) {q : ℕ}
    (hq : m'.Occupied q) : q ≠ pos ∧ m.Occupied q := by
  have hqp : q ≠ pos := by
    rintro rfl
    have := hq.isHash
    rw [hst, Function.update_self, hnot] at this
    cases this
  exact ⟨hqp, (occupied_put hf hst hqp).mp hq⟩

/-- Freeing a slot keeps the state bytes right. -/
theorem Sound.release {m m' : Map T ν} (h : Sound m) (hf : Frame m m') (hshape : Shape m')
    {pos : ℕ} {s : State} (hvalid : validState s = true) (hnot : isHash s = false)
    (hst : m'.stateAt = Function.update m.stateAt pos s) (hk : m'.keyAt = m.keyAt) :
    Sound m' := by
  refine { hshape with conf_valid := ?_, state_valid := ?_, state_eq := ?_ }
  · rw [hf.conf]
    exact h.conf_valid
  · intro q hq
    rw [hf.capacity] at hq
    rw [hst]
    by_cases hqp : q = pos
    · rw [hqp, Function.update_self]
      exact hvalid
    · rw [Function.update_of_ne hqp]
      exact h.state_valid q hq
  · intro q hq
    obtain ⟨hqp, hq⟩ := occupied_of_release hf hnot hst hq
    rw [hst, hk, Function.update_of_ne hqp]
    exact h.state_eq q hq

omit [Inhabited κ] in
/-- Filling a slot with a fingerprint keeps empty slots and tombstones apart. -/
theorem pure_put {m m' : Map T ν} (hf : Frame m m') {pos : ℕ} {s : State} (hs : isHash s = true)
    (hst : m'.stateAt = Function.update m.stateAt pos s)
    (h : ∀ p < m.capacity, ∀ q < m.capacity, T.off p = T.off q → m.stateAt p = empty →
      m.stateAt q ≠ tombstone) : ∀ p < m'.capacity, ∀ q < m'.capacity, T.off p = T.off q →
      m'.stateAt p = empty → m'.stateAt q ≠ tombstone := by
  intro p hp q hq hoff he ht
  rw [hf.capacity] at hp hq
  rw [hst] at he ht
  by_cases hpp : p = pos
  · rw [hpp, Function.update_self] at he
    exact ne_empty_of_isHash hs he
  by_cases hqp : q = pos
  · rw [hqp, Function.update_self] at ht
    exact ne_tombstone_of_isHash hs ht
  · rw [Function.update_of_ne hpp] at he
    rw [Function.update_of_ne hqp] at ht
    exact h p hp q hq hoff he ht

omit [Inhabited κ] in
/-- So does freeing a slot, if it becomes empty exactly when its bucket has an empty slot. -/
theorem pure_release {m m' : Map T ν} (hm : Shape m) (hf : Frame m m') {pos : ℕ} {s : State}
    (hemp : s = empty → m.HasEmpty (T.off pos)) (htomb : s = tombstone → ¬ m.HasEmpty (T.off pos))
    (hst : m'.stateAt = Function.update m.stateAt pos s)
    (h : ∀ p < m.capacity, ∀ q < m.capacity, T.off p = T.off q → m.stateAt p = empty →
      m.stateAt q ≠ tombstone) : ∀ p < m'.capacity, ∀ q < m'.capacity, T.off p = T.off q →
      m'.stateAt p = empty → m'.stateAt q ≠ tombstone := by
  intro p hp' q hq hoff he ht
  rw [hf.capacity] at hp' hq
  -- the bucket of `p` had an empty slot, so the freed slot is not a tombstone in it
  have hbucket : m.HasEmpty (T.off p) := by
    refine HasEmpty.of_release hemp hst (T.dvd_off p) ⟨p - T.off p, ?_, ?_⟩
    · have := T.off_le p
      have := T.lt_off_add p
      omega
    · rwa [Nat.add_sub_cancel' (T.off_le p)]
  rw [hst] at ht
  by_cases hqp : q = pos
  · subst hqp
    rw [Function.update_self] at ht
    rw [hoff] at hbucket
    exact htomb ht hbucket
  · rw [Function.update_of_ne hqp] at ht
    rw [hoff] at hbucket
    exact hm.ne_tombstone h hq hbucket ht

/-- Filling a free slot on the chain of its key keeps the invariant of the arrays. -/
theorem Table.put {m m' : Map T ν} (h : Table m) (hf : Frame m m') (hshape : Shape m') {pos : ℕ}
    {key : κ} (hst : m'.stateAt = Function.update m.stateAt pos (keyState T key))
    (hk : m'.keyAt = Function.update m.keyAt pos key) (hr : m.Reaches key (T.off pos)) :
    Table m' := by
  have hhash := isHash_keyState T key
  have hne := ne_empty_of_isHash hhash
  refine { h.toSound.put hf hshape hst hk with
    minCapacity_le := ?_, growThreshold_eq := ?_, pure := pure_put hf hhash hst h.pure,
    chain := ?_ }
  · rw [hf.conf, hf.capacity]
    exact h.minCapacity_le
  · rw [hf.growThreshold, hf.conf, hf.capacity]
    exact h.growThreshold_eq
  · intro q hq
    have hmono : ∀ {key : κ} {o : ℕ}, m.Reaches key o → m'.Reaches key o :=
      Reaches.mono h.toShape hf fun o _ => HasEmpty.of_put hne hst
    rw [hk]
    by_cases hqp : q = pos
    · rw [hqp, Function.update_self]
      exact hmono hr
    · rw [Function.update_of_ne hqp]
      exact hmono (h.chain q ((occupied_put hf hst hqp).mp hq))

/-- Freeing a slot keeps the invariant of the arrays, if it becomes empty exactly when its bucket
has an empty slot. -/
theorem Table.release {m m' : Map T ν} (h : Table m) (hf : Frame m m') (hshape : Shape m')
    {pos : ℕ} {s : State}
    (hs : s = empty ∧ m.HasEmpty (T.off pos) ∨ s = tombstone ∧ ¬ m.HasEmpty (T.off pos))
    (hst : m'.stateAt = Function.update m.stateAt pos s) (hk : m'.keyAt = m.keyAt) :
    Table m' := by
  have hvalid : validState s = true := by
    rcases hs with ⟨rfl, -⟩ | ⟨rfl, -⟩ <;> simp
  have hnot : isHash s = false := by
    rcases hs with ⟨rfl, -⟩ | ⟨rfl, -⟩ <;> simp
  have hemp : s = empty → m.HasEmpty (T.off pos) := by
    rcases hs with ⟨rfl, he⟩ | ⟨rfl, -⟩
    · exact fun _ => he
    · exact fun hc => absurd hc tombstone_ne_empty
  have htomb : s = tombstone → ¬ m.HasEmpty (T.off pos) := by
    rcases hs with ⟨rfl, -⟩ | ⟨rfl, he⟩
    · exact fun hc => absurd hc empty_ne_tombstone
    · exact fun _ => he
  refine { h.toSound.release hf hshape hvalid hnot hst hk with
    minCapacity_le := ?_, growThreshold_eq := ?_,
    pure := pure_release h.toShape hf hemp htomb hst h.pure, chain := ?_ }
  · rw [hf.conf, hf.capacity]
    exact h.minCapacity_le
  · rw [hf.growThreshold, hf.conf, hf.capacity]
    exact h.growThreshold_eq
  · intro q hq
    obtain ⟨-, hq⟩ := occupied_of_release hf hnot hst hq
    rw [hk]
    exact Reaches.mono h.toShape hf (fun o ho => HasEmpty.of_release hemp hst ho) (h.chain q hq)

end Keys

/-! ### The entries of a table -/

section Entries
variable [Inhabited κ] [Inhabited ν]

/-- The key, the value and the blob of a slot. -/
def entryAt (m : Map T ν) (pos : ℕ) : κ × ν × List Byte :=
  (m.keyAt pos, m.valueAt pos, m.blobAt pos)

/-- The entries that a map holds. -/
def entries (m : Map T ν) : Multiset (κ × ν × List Byte) :=
  collect m.capacity m.containsAt m.entryAt

theorem mem_entries {m : Map T ν} {e : κ × ν × List Byte} :
    e ∈ m.entries ↔ ∃ pos, m.Occupied pos ∧ m.entryAt pos = e := by
  rw [entries, mem_collect]
  exact ⟨fun ⟨p, hp, ho, he⟩ => ⟨p, ⟨hp, ho⟩, he⟩, fun ⟨p, ⟨hp, ho⟩, he⟩ => ⟨p, hp, ho, he⟩⟩

/-- Filling a free slot adds its entry. -/
theorem entries_put {m m' : Map T ν} (hf : Frame m m') {pos : ℕ} {s : State}
    (hp : pos < m.capacity) (hfree : ¬ m.Occupied pos) (hs : isHash s = true)
    (hst : m'.stateAt = Function.update m.stateAt pos s)
    (he : ∀ q < m.capacity, q ≠ pos → m'.entryAt q = m.entryAt q) :
    m'.entries = m'.entryAt pos ::ₘ m.entries := by
  have hnot : m.containsAt pos = false := by
    rw [Bool.eq_false_iff]
    exact fun hc => hfree ⟨hp, hc⟩
  rw [entries, hf.capacity]
  refine collect_insert hp hnot ?_ (fun q hq => ?_) fun q hq ho => he q hq ?_
  · rw [containsAt, hst, Function.update_self, hs]
  · rw [containsAt, containsAt, hst, Function.update_of_ne hq]
  · rintro rfl
    rw [hnot] at ho
    cases ho

/-- Freeing a slot removes its entry. -/
theorem entries_release {m m' : Map T ν} (hf : Frame m m') {pos : ℕ} {s : State}
    (hocc : m.Occupied pos) (hs : isHash s = false)
    (hst : m'.stateAt = Function.update m.stateAt pos s)
    (he : ∀ q < m.capacity, m'.entryAt q = m.entryAt q) :
    m.entries = m.entryAt pos ::ₘ m'.entries := by
  rw [entries, entries, hf.capacity]
  refine collect_insert hocc.1 ?_ hocc.2 (fun q hq => ?_) fun q hq _ => (he q hq).symm
  · rw [containsAt, hst, Function.update_self, hs]
  · rw [containsAt, containsAt, hst, Function.update_of_ne hq]

end Entries

/-! ### `free` -/

section Free

@[simp] theorem free_numEmpty (m : Map T ν) (b : Bool) (pos : ℕ) :
    (m.free b pos).numEmpty = m.numEmpty + if b then 1 else 0 := by
  cases b <;> simp [free]

@[simp] theorem free_numTombstone (m : Map T ν) (b : Bool) (pos : ℕ) :
    (m.free b pos).numTombstone = m.numTombstone + if b then 0 else 1 := by
  cases b <;> simp [free]

theorem free_frame (m : Map T ν) (b : Bool) (pos : ℕ) : Frame m (m.free b pos) := by
  cases b <;> exact ⟨rfl, rfl, rfl⟩

/-- The state that `free` writes. -/
def freed (b : Bool) : State := if b then empty else tombstone

theorem free_states (m : Map T ν) (b : Bool) (pos : ℕ) :
    (m.free b pos).states = m.states.set pos (freed b) := by
  cases b <;> rfl

theorem isHash_freed (b : Bool) : isHash (freed b) = false := by cases b <;> simp [freed]

theorem free_shape {m : Map T ν} (h : Shape m) (b : Bool) (pos : ℕ) : Shape (m.free b pos) :=
  h.frame (free_frame m b pos) (by simp [free_states]) (by cases b <;> rfl) (by cases b <;> rfl)
    (by cases b <;> rfl)

theorem free_stateAt {m : Map T ν} (h : Shape m) (b : Bool) {pos : ℕ} (hp : pos < m.capacity) :
    (m.free b pos).stateAt = Function.update m.stateAt pos (freed b) := by
  unfold stateAt
  rw [free_states, getD_set_eq_update (by rw [h.states_length]; exact hp)]

theorem free_keyAt [Inhabited κ] (m : Map T ν) (b : Bool) (pos : ℕ) :
    (m.free b pos).keyAt = m.keyAt := by
  cases b <;> rfl

theorem free_entryAt [Inhabited κ] [Inhabited ν] (m : Map T ν) (b : Bool) (pos : ℕ) :
    (m.free b pos).entryAt = m.entryAt := by
  cases b <;> rfl

theorem entries_free [Inhabited κ] [Inhabited ν] {m : Map T ν} (h : Shape m) {pos : ℕ}
    (ho : m.Occupied pos) (b : Bool) : m.entries = m.entryAt pos ::ₘ (m.free b pos).entries :=
  entries_release (free_frame m b pos) ho (isHash_freed b) (free_stateAt h b ho.1)
    fun q _ => by rw [free_entryAt]

variable [Inhabited κ]

theorem Sound.free {m : Map T ν} (h : Sound m) {pos : ℕ} (hp : pos < m.capacity) (b : Bool) :
    Sound (m.free b pos) :=
  h.release (free_frame m b pos) (free_shape h.toShape b pos) (by cases b <;> decide)
    (isHash_freed b) (free_stateAt h.toShape b hp) (free_keyAt m b pos)

theorem Table.free {m : Map T ν} (h : Table m) {pos : ℕ} (hp : pos < m.capacity) {b : Bool}
    (hb : b = true ↔ m.HasEmpty (T.off pos)) : Table (m.free b pos) := by
  refine h.release (free_frame m b pos) (free_shape h.toShape b pos) ?_
    (free_stateAt h.toShape b hp) (free_keyAt m b pos)
  cases b with
  | true => exact Or.inl ⟨rfl, hb.mp rfl⟩
  | false => exact Or.inr ⟨rfl, fun hc => absurd (hb.mpr hc) (by decide)⟩

/-- Freeing an occupied slot keeps the counters exact. -/
theorem Exact.free {m : Map T ν} (h : Exact m) {pos : ℕ} (ho : m.Occupied pos) {b : Bool}
    (hb : b = true ↔ m.HasEmpty (T.off pos)) : Exact (m.free b pos) := by
  have hf := free_frame m b pos
  have hst := free_stateAt h.toShape b ho.1
  have hne : m.stateAt pos ≠ empty := ne_empty_of_isHash ho.isHash
  have hnt : m.stateAt pos ≠ tombstone := ne_tombstone_of_isHash ho.isHash
  have hemp : freed b = empty → m.HasEmpty (T.off pos) := by
    cases b with
    | true => exact fun _ => hb.mp rfl
    | false => exact fun hc => absurd hc tombstone_ne_empty
  have htomb : freed b = tombstone → ¬ m.HasEmpty (T.off pos) := by
    cases b with
    | true => exact fun hc => absurd hc empty_ne_tombstone
    | false => exact fun _ hc => absurd (hb.mpr hc) Bool.false_ne_true
  refine { h.toSound.free ho.1 b with
    minCapacity_le := ?_, growThreshold_eq := ?_,
    pure := pure_release h.toShape hf hemp htomb hst h.pure,
    numEmpty_eq := ?_, numTombstone_eq := ?_, numEmpty_pos := ?_ }
  · rw [hf.conf, hf.capacity]
    exact h.minCapacity_le
  · rw [hf.growThreshold, hf.conf, hf.capacity]
    exact h.growThreshold_eq
  · have hc := countSlots_update ho.1 (· == empty) m.stateAt (freed b)
    rw [hf.capacity, hst, free_numEmpty, h.numEmpty_eq]
    cases b <;> simp_all [freed]
  · have hc := countSlots_update ho.1 (· == tombstone) m.stateAt (freed b)
    rw [hf.capacity, hst, free_numTombstone, h.numTombstone_eq]
    cases b <;> simp_all [freed]
  · rw [free_numEmpty]
    have := h.numEmpty_pos
    split_ifs <;> omega

/-- Freeing an occupied slot keeps the invariant. -/
theorem Inv.free {m : Map T ν} (h : Inv m) {pos : ℕ} (ho : m.Occupied pos) {b : Bool}
    (hb : b = true ↔ m.HasEmpty (T.off pos)) : Inv (m.free b pos) := by
  have hst := free_stateAt h.toShape b ho.1
  refine { h.exact.free ho hb with chain := (h.toTable.free ho.1 hb).chain, unique := ?_ }
  intro hd p q hp hq heq
  rw [free_keyAt] at heq
  have hocc : ∀ r, (m.free b pos).Occupied r → m.Occupied r := fun r hr =>
    (occupied_of_release (free_frame m b pos) (isHash_freed b) hst hr).2
  exact h.unique hd p q (hocc p hp) (hocc q hq) heq

end Free

/-! ### `occupy` -/

section Occupy

theorem occupy_frame (m : Map T ν) (pos : ℕ) (key : κ) (e : ℤ) :
    Frame m (m.occupy pos key e) := ⟨rfl, rfl, rfl⟩

theorem occupy_shape {m : Map T ν} (h : Shape m) (pos : ℕ) (key : κ) (e : ℤ) :
    Shape (m.occupy pos key e) :=
  h.frame (occupy_frame m pos key e) (by simp [occupy]) (by simp [occupy]) rfl rfl

theorem occupy_stateAt {m : Map T ν} (h : Shape m) {pos : ℕ} (hp : pos < m.capacity) (key : κ)
    (e : ℤ) : (m.occupy pos key e).stateAt = Function.update m.stateAt pos (keyState T key) :=
  getD_set_eq_update (by rw [h.states_length]; exact hp) _ _

theorem occupy_keyAt [Inhabited κ] {m : Map T ν} (h : Shape m) {pos : ℕ} (hp : pos < m.capacity)
    (key : κ) (e : ℤ) : (m.occupy pos key e).keyAt = Function.update m.keyAt pos key :=
  getD_set_eq_update (by rw [h.keys_length]; exact hp) _ _

theorem occupy_entryAt_ne [Inhabited κ] [Inhabited ν] {m : Map T ν} (h : Shape m) {pos : ℕ}
    (hp : pos < m.capacity) (key : κ) (e : ℤ) {q : ℕ} (hq : q ≠ pos) :
    (m.occupy pos key e).entryAt q = m.entryAt q := by
  rw [entryAt, occupy_keyAt h hp, Function.update_of_ne hq]
  rfl

theorem occupy_entryAt_self [Inhabited κ] [Inhabited ν] {m : Map T ν} (h : Shape m) {pos : ℕ}
    (hp : pos < m.capacity) (key : κ) (e : ℤ) :
    (m.occupy pos key e).entryAt pos = (key, m.valueAt pos, m.blobAt pos) := by
  rw [entryAt, occupy_keyAt h hp, Function.update_self]
  rfl

variable [Inhabited κ]

theorem Sound.occupy {m : Map T ν} (h : Sound m) {pos : ℕ} (hp : pos < m.capacity) (key : κ)
    (e : ℤ) : Sound (m.occupy pos key e) :=
  h.put (occupy_frame m pos key e) (occupy_shape h.toShape pos key e)
    (occupy_stateAt h.toShape hp key e) (occupy_keyAt h.toShape hp key e)

/-- Storing a key in a free slot keeps the counters exact; `e` is one for an empty slot and zero for
a tombstone. -/
theorem Exact.occupy {m : Map T ν} (h : Exact m) {pos : ℕ} (key : κ) {e : ℤ} (hp : pos < m.capacity)
    (hs : m.stateAt pos = empty ∧ e = 1 ∨ m.stateAt pos = tombstone ∧ e = 0)
    (he : 1 ≤ m.numEmpty - e) : Exact (m.occupy pos key e) := by
  have hst := occupy_stateAt h.toShape hp key e
  have hf := occupy_frame m pos key e
  have hhash := isHash_keyState T key
  have hne : (keyState T key == empty) = false := beq_false_of_ne (ne_empty_of_isHash hhash)
  have hnt : (keyState T key == tombstone) = false :=
    beq_false_of_ne (ne_tombstone_of_isHash hhash)
  refine { h.toSound.occupy hp key e with
    minCapacity_le := ?_, growThreshold_eq := ?_, pure := pure_put hf hhash hst h.pure,
    numEmpty_eq := ?_, numTombstone_eq := ?_, numEmpty_pos := he }
  · rw [hf.conf, hf.capacity]
    exact h.minCapacity_le
  · rw [hf.growThreshold, hf.conf, hf.capacity]
    exact h.growThreshold_eq
  · have hc := countSlots_update hp (· == empty) m.stateAt (keyState T key)
    rw [hf.capacity, hst]
    change m.numEmpty - e = _
    rw [h.numEmpty_eq]
    rcases hs with ⟨hs, rfl⟩ | ⟨hs, rfl⟩ <;> simp [hs, hne] at hc ⊢ <;> omega
  · have hc := countSlots_update hp (· == tombstone) m.stateAt (keyState T key)
    rw [hf.capacity, hst]
    change m.numTombstone - (1 - e) = _
    rw [h.numTombstone_eq]
    rcases hs with ⟨hs, rfl⟩ | ⟨hs, rfl⟩ <;> simp [hs, hnt] at hc ⊢ <;> omega

/-- Storing a key in a free slot on its chain keeps the invariant. -/
theorem Inv.occupy {m : Map T ν} (h : Inv m) {pos : ℕ} {key : κ} {e : ℤ} (hp : pos < m.capacity)
    (hs : m.stateAt pos = empty ∧ e = 1 ∨ m.stateAt pos = tombstone ∧ e = 0)
    (hr : m.Reaches key (T.off pos)) (hu : T.duplicates = false → ∀ q, ¬ m.Stores key q)
    (he : 1 ≤ m.numEmpty - e) : Inv (m.occupy pos key e) := by
  have hst := occupy_stateAt h.toShape hp key e
  have hk := occupy_keyAt h.toShape hp key e
  have hf := occupy_frame m pos key e
  have htable := h.toTable.put hf (occupy_shape h.toShape pos key e) hst hk hr
  refine { h.exact.occupy key hp hs he with chain := htable.chain, unique := ?_ }
  intro hd p q hp' hq' heq
  rw [hk] at heq
  by_cases hpp : p = pos
  · by_cases hqp : q = pos
    · rw [hpp, hqp]
    · rw [hpp, Function.update_self, Function.update_of_ne hqp] at heq
      exact absurd ⟨(occupied_put hf hst hqp).mp hq', T.key.eq_symm heq⟩ (hu hd q)
  · by_cases hqp : q = pos
    · rw [hqp, Function.update_self, Function.update_of_ne hpp] at heq
      exact absurd ⟨(occupied_put hf hst hpp).mp hp', heq⟩ (hu hd p)
    · rw [Function.update_of_ne hpp, Function.update_of_ne hqp] at heq
      exact h.unique hd p q ((occupied_put hf hst hpp).mp hp')
        ((occupied_put hf hst hqp).mp hq') heq

end Occupy

/-! ### `copyEntry` -/

section Copy

/-- The bytes of a blob lie in the array. -/
theorem Shape.blob_le {m : Map T ν} (h : Shape m) {pos : ℕ} (hp : pos < m.capacity) :
    pos * m.conf.blobStride + m.conf.blobStride ≤ m.blobs.length := by
  rw [h.blobs_length, ← Nat.succ_mul]
  exact Nat.mul_le_mul_right _ hp

theorem Shape.blobAt_length {m : Map T ν} (h : Shape m) {pos : ℕ} (hp : pos < m.capacity) :
    (m.blobAt pos).length = m.conf.blobSize := by
  have := h.blob_le hp
  have := m.conf.blobSize_le
  exact length_readAt (by omega)

/-- Two blobs do not overlap. -/
theorem blob_disjoint {stride size p q : ℕ} (hs : size ≤ stride) (h : p ≠ q) :
    q * stride + size ≤ p * stride ∨ p * stride + size ≤ q * stride := by
  rcases Nat.lt_or_gt_of_ne h with hlt | hlt
  · have := Nat.mul_le_mul_right stride (Nat.succ_le_of_lt hlt)
    rw [Nat.succ_mul] at this
    omega
  · have := Nat.mul_le_mul_right stride (Nat.succ_le_of_lt hlt)
    rw [Nat.succ_mul] at this
    omega

variable [Inhabited κ] [Inhabited ν]

theorem copyEntry_frame (m old : Map T ν) (src dst : ℕ) : Frame m (m.copyEntry old src dst) :=
  ⟨rfl, rfl, rfl⟩

variable {m old : Map T ν} (h : Shape m) (hold : Shape old) (hconf : old.conf = m.conf)
  {src dst : ℕ} (hsrc : src < old.capacity) (hdst : dst < m.capacity)
include h hdst

theorem copyEntry_stateAt (old : Map T ν) (src : ℕ) : (m.copyEntry old src dst).stateAt =
    Function.update m.stateAt dst (keyState T (old.keyAt src)) :=
  getD_set_eq_update (by rw [h.states_length]; exact hdst) _ _

theorem copyEntry_keyAt (old : Map T ν) (src : ℕ) : (m.copyEntry old src dst).keyAt =
    Function.update m.keyAt dst (old.keyAt src) :=
  getD_set_eq_update (by rw [h.keys_length]; exact hdst) _ _

theorem copyEntry_valueAt : (m.copyEntry old src dst).valueAt =
    Function.update m.valueAt dst (old.valueAt src) :=
  getD_set_eq_update (by rw [h.values_length]; exact hdst) _ _

include hold hconf hsrc

theorem copyEntry_shape : Shape (m.copyEntry old src dst) := by
  refine h.frame (copyEntry_frame m old src dst) (by simp [copyEntry]) (by simp [copyEntry])
    (by simp [copyEntry]) ?_
  have := h.blob_le hdst
  have := m.conf.blobSize_le
  exact length_writeAt (by rw [hold.blobAt_length hsrc, hconf]; omega)

theorem copyEntry_blobAt : (m.copyEntry old src dst).blobAt =
    Function.update m.blobAt dst (old.blobAt src) := by
  have hlen := hold.blobAt_length hsrc
  rw [hconf] at hlen
  have hle := h.blob_le hdst
  have hsize := m.conf.blobSize_le
  funext q
  by_cases hq : q = dst
  · rw [hq, Function.update_self]
    change readAt (writeAt m.blobs (dst * m.conf.blobStride) (old.blobAt src))
      (dst * m.conf.blobStride) m.conf.blobSize = _
    rw [← hlen]
    exact readAt_writeAt_self (by omega)
  · rw [Function.update_of_ne hq]
    refine readAt_writeAt_of_disjoint (by omega) ?_
    rw [hlen]
    exact blob_disjoint hsize (Ne.symm hq)

theorem copyEntry_entryAt : (m.copyEntry old src dst).entryAt =
    Function.update m.entryAt dst (old.entryAt src) := by
  funext q
  rw [entryAt, copyEntry_keyAt h hdst old src, copyEntry_valueAt h hdst,
    copyEntry_blobAt h hold hconf hsrc hdst]
  by_cases hq : q = dst
  · subst hq
    simp [entryAt]
  · simp [hq, entryAt]

theorem Sound.copyEntry (hm : Sound m) : Sound (m.copyEntry old src dst) :=
  hm.put (copyEntry_frame m old src dst) (copyEntry_shape h hold hconf hsrc hdst)
    (copyEntry_stateAt h hdst old src) (copyEntry_keyAt h hdst old src)

end Copy

/-! ### `moveEntry` -/

section Move
variable [Inhabited κ] [Inhabited ν]

theorem moveEntry_frame (m : Map T ν) (b : Bool) (src dst : ℕ) :
    Frame m (m.moveEntry b src dst) := by
  cases b <;> exact ⟨rfl, rfl, rfl⟩

theorem moveEntry_states (m : Map T ν) (b : Bool) (src dst : ℕ) : (m.moveEntry b src dst).states =
    (m.copyEntry m src dst).states.set src (freed b) := by
  cases b <;> rfl

variable {m : Map T ν} (b : Bool) {src dst : ℕ}

theorem moveEntry_shape (h : Shape m) (hsrc : src < m.capacity) (hdst : dst < m.capacity) :
    Shape (m.moveEntry b src dst) := by
  have hcopy := copyEntry_shape h h rfl hsrc hdst
  have hf : Frame (m.copyEntry m src dst) (m.moveEntry b src dst) := by
    cases b <;> exact ⟨rfl, rfl, rfl⟩
  exact hcopy.frame hf (by rw [moveEntry_states, List.length_set]) (by cases b <;> rfl)
    (by cases b <;> rfl) (by cases b <;> rfl)

theorem moveEntry_stateAt (h : Shape m) (hsrc : src < m.capacity) (hdst : dst < m.capacity) :
    (m.moveEntry b src dst).stateAt =
      Function.update (m.copyEntry m src dst).stateAt src (freed b) := by
  have hcopy := copyEntry_shape h h rfl hsrc hdst
  unfold stateAt
  rw [moveEntry_states]
  refine getD_set_eq_update ?_ _ _
  rw [hcopy.states_length, (copyEntry_frame m m src dst).capacity]
  exact hsrc

theorem moveEntry_keyAt : (m.moveEntry b src dst).keyAt = (m.copyEntry m src dst).keyAt := by
  cases b <;> rfl

theorem moveEntry_entryAt :
    (m.moveEntry b src dst).entryAt = (m.copyEntry m src dst).entryAt := by
  cases b <;> rfl

theorem Sound.moveEntry (h : Sound m) (hsrc : src < m.capacity) (hdst : dst < m.capacity) :
    Sound (m.moveEntry b src dst) := by
  have hcopy : Sound (m.copyEntry m src dst) :=
    Sound.copyEntry h.toShape h.toShape rfl hsrc hdst h
  have hf : Frame (m.copyEntry m src dst) (m.moveEntry b src dst) := by
    cases b <;> exact ⟨rfl, rfl, rfl⟩
  exact hcopy.release hf (moveEntry_shape b h.toShape hsrc hdst) (by cases b <;> decide)
    (isHash_freed b) (moveEntry_stateAt b h.toShape hsrc hdst) (moveEntry_keyAt b)

end Move

/-! ### `storeBucket` -/

section Store

theorem storeBucket_frame (m : Map T ν) (o : ℕ) (k : List State) :
    Frame m (m.storeBucket o k) := ⟨rfl, rfl, rfl⟩

variable {m : Map T ν} {o : ℕ}

theorem storeBucket_shape (h : Shape m) (ho : o + T.kernelSize ≤ m.capacity) {k : List State}
    (hk : k.length = T.kernelSize) : Shape (m.storeBucket o k) :=
  h.frame (storeBucket_frame m o k)
    (length_writeAt (by rw [hk, h.states_length]; exact ho)) rfl rfl rfl

theorem storeBucket_stateAt (h : Shape m) (ho : o + T.kernelSize ≤ m.capacity) {k : List State}
    (hk : k.length = T.kernelSize) (p : ℕ) : (m.storeBucket o k).stateAt p =
      if o ≤ p ∧ p < o + T.kernelSize then k.getD (p - o) tombstone else m.stateAt p := by
  rw [← hk]
  exact getD_writeAt (by rw [hk, h.states_length]; exact ho) p tombstone

theorem bucket_getD (m : Map T ν) (o : ℕ) {i : ℕ} (hi : i < T.kernelSize) :
    (m.bucket o).getD i tombstone = m.stateAt (o + i) := by
  rw [Map.bucket, getD_readAt _ _ _ _ _ hi]
  rfl

theorem length_notHashToEmpty (k : List State) : (ideal.notHashToEmpty k).length = k.length :=
  List.length_map _

theorem notHashToEmpty_getD {k : List State} {i : ℕ} (hi : i < k.length) :
    (ideal.notHashToEmpty k).getD i tombstone =
      if isHash (k.getD i tombstone) then k.getD i tombstone else empty := by
  have hi' : i < (ideal.notHashToEmpty k).length := by rwa [length_notHashToEmpty]
  rw [List.getD_eq_getElem _ _ hi', List.getD_eq_getElem _ _ hi]
  exact List.getElem_map _

/-- The states of a bucket after `not_hash_to_empty`. -/
theorem storeEmpty_stateAt (h : Shape m) (hd : T.kernelSize ∣ o)
    (ho : o + T.kernelSize ≤ m.capacity) (p : ℕ) :
    (m.storeBucket o (ideal.notHashToEmpty (m.bucket o))).stateAt p =
      if T.off p = o ∧ isHash (m.stateAt p) = false then empty else m.stateAt p := by
  have hlen := h.bucket_length ho
  rw [storeBucket_stateAt h ho (by rw [length_notHashToEmpty, hlen])]
  by_cases hp : T.off p = o
  · have hblock := (MapType.off_eq_iff hd p).mp hp
    have hi : p - o < T.kernelSize := by omega
    rw [if_pos hblock, notHashToEmpty_getD (by rwa [hlen]), bucket_getD m o hi,
      Nat.add_sub_cancel' hblock.1]
    cases hs : isHash (m.stateAt p) <;> simp [hp]
  · rw [if_neg (mt (MapType.off_eq_iff hd p).mpr hp), if_neg fun hc => hp hc.1]

/-- The states of a table after a dead bucket was pruned. -/
theorem pruneBucket_stateAt (h : Shape m) (hd : T.kernelSize ∣ o)
    (ho : o + T.kernelSize ≤ m.capacity) (p : ℕ) :
    (m.pruneBucket o).stateAt p = if T.off p = o then empty else m.stateAt p := by
  refine (storeBucket_stateAt h ho List.length_replicate p).trans ?_
  by_cases hp : T.off p = o
  · have hblock := (MapType.off_eq_iff hd p).mp hp
    have hi : p - o < T.kernelSize := by omega
    rw [if_pos hblock, if_pos hp, List.getD_eq_getElem _ _ (by rwa [List.length_replicate]),
      List.getElem_replicate]
  · rw [if_neg (mt (MapType.off_eq_iff hd p).mpr hp), if_neg hp]

theorem pruneBucket_frame (m : Map T ν) (o : ℕ) : Frame m (m.pruneBucket o) := ⟨rfl, rfl, rfl⟩

theorem pruneBucket_shape (h : Shape m) (ho : o + T.kernelSize ≤ m.capacity) :
    Shape (m.pruneBucket o) :=
  { storeBucket_shape h ho List.length_replicate with }

/-- Replacing states by free ones keeps the state bytes right. -/
theorem Sound.storeStates [Inhabited κ] {m' : Map T ν} (h : Sound m) (hf : Frame m m')
    (hshape : Shape m')
    (hst : ∀ p < m.capacity, m'.stateAt p = m.stateAt p ∨ m'.stateAt p = empty)
    (hk : m'.keyAt = m.keyAt) : Sound m' := by
  refine { hshape with conf_valid := ?_, state_valid := ?_, state_eq := ?_ }
  · rw [hf.conf]
    exact h.conf_valid
  · intro p hp
    rw [hf.capacity] at hp
    rcases hst p hp with hs | hs <;> rw [hs]
    · exact h.state_valid p hp
    · exact validState_empty
  · rintro p ⟨hp, ho⟩
    rw [hf.capacity] at hp
    rcases hst p hp with hs | hs <;> rw [containsAt, hs] at ho
    · rw [hs, hk]
      exact h.state_eq p ⟨hp, ho⟩
    · cases ho

theorem Sound.storeEmpty [Inhabited κ] (h : Sound m) (hd : T.kernelSize ∣ o)
    (ho : o + T.kernelSize ≤ m.capacity) :
    Sound (m.storeBucket o (ideal.notHashToEmpty (m.bucket o))) := by
  refine h.storeStates (storeBucket_frame m o _) (storeBucket_shape h.toShape ho ?_)
    (fun p _ => ?_) rfl
  · rw [length_notHashToEmpty, h.bucket_length ho]
  · rw [storeEmpty_stateAt h.toShape hd ho]
    split_ifs
    · exact Or.inr rfl
    · exact Or.inl rfl

theorem Sound.pruneBucket [Inhabited κ] (h : Sound m) (hd : T.kernelSize ∣ o)
    (ho : o + T.kernelSize ≤ m.capacity) :
    Sound (m.pruneBucket o) := by
  refine h.storeStates (pruneBucket_frame m o) (pruneBucket_shape h.toShape ho)
    (fun p _ => ?_) rfl
  rw [pruneBucket_stateAt h.toShape hd ho]
  split_ifs
  · exact Or.inr rfl
  · exact Or.inl rfl

end Store

/-! ### Values and blobs -/

section Values
variable [Inhabited κ] {m : Map T ν}

theorem Sound.setValue (h : Sound m) (pos : ℕ) (value : ν) :
    Sound { m with values := m.values.set pos value } :=
  { h with values_length := List.length_set.trans h.values_length }

theorem Inv.setValue (h : Inv m) (pos : ℕ) (value : ν) :
    Inv { m with values := m.values.set pos value } :=
  { h with values_length := List.length_set.trans h.values_length }

omit [Inhabited κ] in
theorem Shape.length_writeBlob (h : Shape m) {pos : ℕ} (hp : pos < m.capacity) {src : List Byte}
    (hs : src.length ≤ m.conf.blobSize) :
    (writeAt m.blobs (pos * m.conf.blobStride) src).length = m.blobs.length := by
  have := h.blob_le hp
  have := m.conf.blobSize_le
  exact length_writeAt (by omega)

theorem Sound.setBlob (h : Sound m) {pos : ℕ} (hp : pos < m.capacity) {src : List Byte}
    (hs : src.length ≤ m.conf.blobSize) :
    Sound { m with blobs := writeAt m.blobs (pos * m.conf.blobStride) src } :=
  { h with blobs_length := (h.length_writeBlob hp hs).trans h.blobs_length }

theorem Inv.setBlob (h : Inv m) {pos : ℕ} (hp : pos < m.capacity) {src : List Byte}
    (hs : src.length ≤ m.conf.blobSize) :
    Inv { m with blobs := writeAt m.blobs (pos * m.conf.blobStride) src } :=
  { h with blobs_length := (h.length_writeBlob hp hs).trans h.blobs_length }

end Values

end Map

end Nvhm
