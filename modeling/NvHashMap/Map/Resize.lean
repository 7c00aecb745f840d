import NvHashMap.Map.Search

/-! # Rehashing

`resize_` re-inserts every entry of the old table into a fresh one.  While it does, the new table
is `Fresh`: it has no tombstones, and holds the entries that were processed so far.  There is
always an empty slot left, because the new capacity exceeds the number of entries by at least the
growth threshold, which is positive.  So no re-insertion fails, and the new table has the entries
of the old one (`resize_spec`). -/

namespace Nvhm

open Buffer SlotCount

variable {κ ν : Type} {T : MapType κ}

namespace Map

/-! ### Counting entries -/

section Count
variable [Inhabited κ] [Inhabited ν] {m : Map T ν}

theorem card_entries (m : Map T ν) : m.entries.card = countSlots m.capacity isHash m.stateAt :=
  card_collect _ _ _

/-- Every slot is empty, a tombstone or occupied. -/
theorem Sound.count_states (h : Sound m) : countSlots m.capacity (· == empty) m.stateAt +
    countSlots m.capacity (· == tombstone) m.stateAt + m.entries.card = m.capacity := by
  rw [card_entries]
  refine countSlots_add_add fun p hp => ?_
  rcases h.cases_state hp with hs | hs | hs
  · rw [hs]
    decide
  · rw [hs]
    decide
  · have hhash := hs.isHash
    have hne : (m.stateAt p == empty) = false := beq_false_of_ne (ne_empty_of_isHash hhash)
    have hnt : (m.stateAt p == tombstone) = false :=
      beq_false_of_ne (ne_tombstone_of_isHash hhash)
    rw [hhash, hne, hnt]
    rfl

/-- `size` is the number of entries. -/
theorem Exact.size_eq (h : Exact m) : m.size = m.entries.card := by
  have := h.count_states
  rw [size, numNotHashSlots, h.numEmpty_eq, h.numTombstone_eq]
  omega

theorem Inv.size_eq (h : Inv m) : m.size = m.entries.card := h.exact.size_eq

theorem Exact.card_entries_lt (h : Exact m) : m.entries.card < m.capacity := by
  have hcount := h.count_states
  have h1 := h.numEmpty_eq
  have h2 := h.numEmpty_pos
  omega

omit [Inhabited ν] in
theorem Exact.exists_empty (h : Exact m) : ∃ p < m.capacity, m.stateAt p = empty := by
  have hpos : 0 < countSlots m.capacity (· == empty) m.stateAt := by
    have h1 := h.numEmpty_pos
    have h2 := h.numEmpty_eq
    omega
  obtain ⟨p, hp, he⟩ := countSlots_pos.mp hpos
  exact ⟨p, hp, eq_of_beq he⟩

omit [Inhabited ν] in
theorem Inv.exists_empty (h : Inv m) : ∃ p < m.capacity, m.stateAt p = empty :=
  h.exact.exists_empty

/-- No two entries with equal keys. -/
def Unique (m : Map T ν) : Prop := ∀ p q, m.Occupied p → m.Occupied q →
  T.key.eq (m.keyAt p) (m.keyAt q) = true → p = q

theorem unique_iff : m.Unique ↔
    ∀ key, m.entries.countP (fun e => T.key.eq e.1 key = true) ≤ 1 := by
  simp only [entries, countP_collect_le_one]
  constructor
  · intro h key i hi j hj oi oj ki kj
    exact h i j ⟨hi, oi⟩ ⟨hj, oj⟩ (T.key.eq_trans ki (T.key.eq_symm kj))
  · intro h p q hp hq heq
    exact h (m.keyAt q) p hp.1 q hq.1 hp.2 hq.2 heq (T.key.eq_refl _)

/-- Uniqueness depends on the entries alone. -/
theorem Unique.of_entries_eq {m' : Map T ν} (h : m.Unique) (he : m'.entries = m.entries) :
    m'.Unique := by
  rw [unique_iff] at h ⊢
  rwa [he]

end Count

/-! ### Enumerating the entries -/

theorem Shape.mem_positions {m : Map T ν} (h : Shape m) {p : ℕ} :
    p ∈ m.positions ideal ↔ m.Occupied p := by
  simp only [positions, List.mem_flatMap, List.mem_map, h.mem_offsets]
  constructor
  · rintro ⟨o, ⟨hd, hlt⟩, i, hi, rfl⟩
    have hle := h.offset_add_le hd hlt
    obtain ⟨hik, hs⟩ := (h.mem_slots_bucket hle).mp hi
    exact ⟨by omega, hs⟩
  · intro hp
    have hle := h.off_add_le hp.1
    have h1 := T.off_le p
    have h2 := T.lt_off_add p
    have := T.kernelSize_pos
    refine ⟨T.off p, ⟨T.dvd_off p, by omega⟩, p - T.off p, ?_, by omega⟩
    refine (h.mem_slots_bucket hle).mpr ⟨by omega, ?_⟩
    rw [Nat.add_sub_cancel' h1]
    exact hp.2

theorem offsets_sorted (T : MapType κ) (n : ℕ) : (offsets T.kernelSize n).Pairwise (· < ·) :=
  List.pairwise_map.mpr
    (List.pairwise_lt_range.imp fun hlt => Nat.mul_lt_mul_of_pos_left hlt T.kernelSize_pos)

/-- The positions come in ascending order. -/
theorem Shape.positions_sorted {m : Map T ν} (h : Shape m) :
    (m.positions ideal).Pairwise (· < ·) := by
  refine List.pairwise_flatMap.mpr ⟨fun o ho => ?_, ?_⟩
  · exact List.pairwise_map.mpr ((slots_sorted _ _).imp fun hlt => Nat.add_lt_add_left hlt o)
  · refine List.Pairwise.imp_of_mem ?_ (offsets_sorted T m.capacity)
    intro a b ha hb hab p hp q hq
    obtain ⟨hda, hlta⟩ := h.mem_offsets.mp ha
    obtain ⟨hdb, -⟩ := h.mem_offsets.mp hb
    obtain ⟨i, hi, rfl⟩ := List.mem_map.mp hp
    obtain ⟨j, -, rfl⟩ := List.mem_map.mp hq
    have hik := ((h.mem_slots_bucket (h.offset_add_le hda hlta)).mp hi).1
    -- the next bucket starts behind the last slot of this one
    obtain ⟨x, rfl⟩ := hda
    obtain ⟨y, rfl⟩ := hdb
    have hxy : x + 1 ≤ y := Nat.lt_of_mul_lt_mul_left hab
    have hle := Nat.mul_le_mul_left T.kernelSize hxy
    rw [Nat.mul_succ] at hle
    omega

theorem Shape.positions_nodup {m : Map T ν} (h : Shape m) : (m.positions ideal).Nodup :=
  h.positions_sorted.imp Nat.ne_of_lt

theorem Shape.entries_eq [Inhabited κ] [Inhabited ν] {m : Map T ν} (h : Shape m) :
    m.entries = ((m.positions ideal).map m.entryAt : Multiset (κ × ν × List Byte)) :=
  collect_eq_map h.positions_nodup fun _ => h.mem_positions

/-! ### Fresh tables -/

section Fresh

theorem reset_frame (m : Map T ν) : Frame m m.reset := ⟨rfl, rfl, rfl⟩

theorem Shape.reset {m : Map T ν} (h : Shape m) : Shape m.reset :=
  h.frame (reset_frame m) (by simp [Map.reset, h.states_length]) rfl rfl rfl

theorem reset_stateAt (m : Map T ν) {p : ℕ} (hp : p < m.capacity) : m.reset.stateAt p = empty := by
  change (List.replicate m.capacity empty).getD p tombstone = empty
  rw [List.getD_eq_getElem _ _ (by simpa using hp)]
  simp

theorem reset_not_occupied (m : Map T ν) (p : ℕ) : ¬ m.reset.Occupied p := by
  rintro ⟨hp, ho⟩
  rw [(reset_frame m).capacity] at hp
  rw [containsAt, reset_stateAt m hp] at ho
  cases ho

variable [Inhabited κ]

theorem Shape.sound_reset {m : Map T ν} (h : Shape m) (hv : m.conf.isValid = true) :
    Sound m.reset :=
  { h.reset with
    conf_valid := hv
    state_valid := fun p hp => by
      rw [(reset_frame m).capacity] at hp
      rw [reset_stateAt m hp]
      decide
    state_eq := fun p hp => absurd hp (reset_not_occupied m p) }

theorem Shape.table_reset {m : Map T ν} (h : Shape m) (hv : m.conf.isValid = true)
    (hmin : m.conf.minCapacity ≤ m.capacity)
    (hthr : m.growThreshold = m.conf.growThreshold m.capacity) : Table m.reset :=
  { h.sound_reset hv with
    minCapacity_le := hmin
    growThreshold_eq := hthr
    pure := fun p _ q hq _ _ => by
      rw [(reset_frame m).capacity] at hq
      rw [reset_stateAt m hq]
      exact empty_ne_tombstone
    chain := fun p hp => absurd hp (reset_not_occupied m p) }

variable [Inhabited ν]

theorem entries_reset (m : Map T ν) : m.reset.entries = 0 := by
  refine collect_eq_zero fun p hp => ?_
  rw [(reset_frame m).capacity] at hp
  rw [containsAt, reset_stateAt m hp]
  rfl

theorem Shape.inv_reset {m : Map T ν} (h : Shape m) (hv : m.conf.isValid = true)
    (hmin : m.conf.minCapacity ≤ m.capacity)
    (hthr : m.growThreshold = m.conf.growThreshold m.capacity) : Inv m.reset := by
  have ht := h.table_reset hv hmin hthr
  have hcount := ht.count_states
  have hzero : countSlots m.reset.capacity (· == tombstone) m.reset.stateAt = 0 := by
    refine countSlots_eq_zero.mpr fun p hp => ?_
    rw [(reset_frame m).capacity] at hp
    rw [reset_stateAt m hp]
    decide
  rw [entries_reset, Multiset.card_zero, hzero, Nat.add_zero] at hcount
  refine { ht with
    numEmpty_eq := ?_, numTombstone_eq := ?_,
    unique := fun _ p _ hp => absurd hp (reset_not_occupied m p), numEmpty_pos := ?_ }
  · change (m.capacity : ℤ) = _
    rw [hcount, (reset_frame m).capacity]
  · change (0 : ℤ) = _
    rw [hzero]
    rfl
  · change (1 : ℤ) ≤ (m.capacity : ℤ)
    have := h.capacity_pos
    omega

theorem alloc_capacity (m : Map T ν) {n : ℕ} (hn : T.kernelSize ≤ n) :
    (m.alloc n).capacity = n := by
  change (n - T.kernelSize) + T.kernelSize = n
  omega

theorem alloc_shape (m : Map T ν) {n : ℕ} (hcap : IsCapacity n) (hn : T.kernelSize ≤ n) :
    Shape (m.alloc n) where
  pow := by
    obtain ⟨a, ha, rfl⟩ := hcap
    exact ⟨a, (Nat.pow_le_pow_iff_right (by decide)).mp hn, ha, rfl⟩
  states_length := by
    rw [alloc_capacity m hn]
    simp [alloc]
  keys_length := by
    rw [alloc_capacity m hn]
    simp [alloc]
  values_length := by
    rw [alloc_capacity m hn]
    simp [alloc]
  blobs_length := by
    rw [alloc_capacity m hn]
    simp [alloc]

/-- A table that `resize_` fills: `E` are the entries that were re-inserted so far. -/
structure Fresh (old m : Map T ν) (n : ℕ) (E : Multiset (κ × ν × List Byte)) : Prop extends
    Table m where
  conf_eq : m.conf = old.conf
  capacity_eq : m.capacity = n
  noTombstone : ∀ p < m.capacity, m.stateAt p ≠ tombstone
  numEmpty_eq : m.numEmpty = n
  numTombstone_eq : m.numTombstone = 0
  entries_eq : m.entries = E

/-- The table that `resize_` starts from. -/
theorem fresh_alloc {m : Map T ν} (hv : m.conf.isValid = true) {n : ℕ} (hcap : IsCapacity n)
    (hmin : m.conf.minCapacity ≤ n) : Fresh m (m.alloc n).reset n 0 := by
  have hK : T.kernelSize ≤ n := (Conf.kernelSize_le hv).trans hmin
  have hc := alloc_capacity m hK
  have hf := reset_frame (m.alloc n)
  refine { (alloc_shape m hcap hK).table_reset hv (by rw [hc]; exact hmin) (by rw [hc]; rfl) with
    conf_eq := rfl, capacity_eq := hf.capacity.trans hc, noTombstone := fun p hp => ?_,
    numEmpty_eq := congrArg _ hc, numTombstone_eq := rfl, entries_eq := entries_reset _ }
  rw [hf.capacity] at hp
  rw [reset_stateAt _ hp]
  exact empty_ne_tombstone

variable {old m : Map T ν} {n : ℕ} {E : Multiset (κ × ν × List Byte)}

/-- A fresh table that is not full has an empty slot. -/
theorem Fresh.exists_empty (h : Fresh old m n E) (hE : E.card < n) :
    ∃ p < m.capacity, m.stateAt p = empty := by
  have hcount := h.count_states
  have hzero : countSlots m.capacity (· == tombstone) m.stateAt = 0 :=
    countSlots_eq_zero.mpr fun p hp => beq_false_of_ne (h.noTombstone p hp)
  have hpos : 0 < countSlots m.capacity (· == empty) m.stateAt := by
    have := h.entries_eq
    have := h.capacity_eq
    subst E
    omega
  obtain ⟨p, hp, he⟩ := countSlots_pos.mp hpos
  exact ⟨p, hp, eq_of_beq he⟩

/-- A slot of a fresh table that holds no key is empty. -/
theorem Fresh.notHash (h : Fresh old m n E) {p : ℕ} (hp : p < m.capacity)
    (hs : (!isHash (m.stateAt p)) = true) : m.stateAt p = empty := by
  rcases h.cases_state hp with he | ht | ho
  · exact he
  · exact absurd ht (h.noTombstone p hp)
  · rw [ho.isHash] at hs
    cases hs

/-- The copy of one entry into an empty slot on its chain. -/
theorem Fresh.copyEntry (hold : Shape old) (h : Fresh old m n E) {src dst : ℕ}
    (hsrc : src < old.capacity) (hdst : dst < m.capacity) (hs : m.stateAt dst = empty)
    (hr : m.Reaches (old.keyAt src) (T.off dst)) :
    Fresh old (m.copyEntry old src dst) n (old.entryAt src ::ₘ E) := by
  have hf := copyEntry_frame m old src dst
  have hst := copyEntry_stateAt h.toShape hdst old src
  have hk := copyEntry_keyAt h.toShape hdst old src
  have he := copyEntry_entryAt h.toShape hold h.conf_eq.symm hsrc hdst
  have hhash := isHash_keyState T (old.keyAt src)
  refine { h.toTable.put hf (copyEntry_shape h.toShape hold h.conf_eq.symm hsrc hdst) hst hk hr with
    conf_eq := h.conf_eq, capacity_eq := hf.capacity.trans h.capacity_eq, noTombstone := ?_,
    numEmpty_eq := h.numEmpty_eq, numTombstone_eq := h.numTombstone_eq, entries_eq := ?_ }
  · intro p hp
    rw [hf.capacity] at hp
    rw [hst]
    by_cases hpd : p = dst
    · rw [hpd, Function.update_self]
      exact ne_tombstone_of_isHash hhash
    · rw [Function.update_of_ne hpd]
      exact h.noTombstone p hp
  · rw [entries_put hf hdst ?_ hhash hst fun q _ hq => by rw [he, Function.update_of_ne hq], he,
      Function.update_self, h.entries_eq]
    intro ho
    have := ho.isHash
    rw [hs] at this
    cases this

theorem Linked.copyEntry (hold : Shape old) (hconf : old.conf = m.conf) (h : Linked m)
    {src dst : ℕ} (hsrc : src < old.capacity) (hdst : dst < m.capacity)
    (hr : m.Near (old.keyAt src) (T.off dst)) : Linked (m.copyEntry old src dst) :=
  h.put (copyEntry_frame m old src dst) (copyEntry_shape h.toShape hold hconf hsrc hdst)
    (copyEntry_stateAt h.toShape hdst old src) (copyEntry_keyAt h.toShape hdst old src) hr

/-- What re-inserting does: the entries in `E'` are added, or some entry finds its sequence to
end after full buckets. -/
def Refilled (old : Map T ν) (n : ℕ) (E : Multiset (κ × ν × List Byte)) :
    Option (Map T ν) → Prop
  | some m => Fresh old m n E ∧ Linked m
  | none => T.seq.isUnbounded = false

/-- Re-inserting one entry: there is room for it. -/
theorem reinsert_spec (hold : Shape old) (h : Fresh old m n E) (hl : Linked m) (hE : E.card < n)
    {pos : ℕ} (hpos : pos < old.capacity) :
    ∃ r, reinsert ideal old m pos = .ok r ∧ Refilled old n (old.entryAt pos ::ₘ E) r := by
  suffices hspec : (∃ r, reinsert ideal old m pos = .ok r ∧
      Refilled old n (old.entryAt pos ::ₘ E) r) ∨
        reinsert ideal old m pos = .error .tableFull ∧
          ∃ _ : Unit, m.FullUpTo (old.keyAt pos) m.numBuckets by
    rcases hspec with hr | ⟨-, -, hfull⟩
    · exact hr
    · obtain ⟨e, he, hemp⟩ := h.exists_empty hE
      exact absurd hfull (h.not_all_full he hemp (old.keyAt pos))
  refine probe_cases h.toShape (fun j _ => m.FullUpTo (old.keyAt pos) j) _
    (fullUpTo_zero m _) ?_ fun j _ _ hn _ => ?_
  · rintro j - hj hn hfull
    have ho := h.visit_add_le (old.keyAt pos) j
    split
    · next i hi =>
        have hmem : i ∈ slots (!isHash ·) (m.bucket (m.visit (old.keyAt pos) j)) :=
          List.mem_of_mem_head? hi
        obtain ⟨hik, hs⟩ := (h.mem_slots_bucket ho).mp hmem
        have hdst : m.visit (old.keyAt pos) j + i < m.capacity := by omega
        have hoff := MapType.off_add (h.dvd_visit (old.keyAt pos) j) hik
        have hnear : m.Near (old.keyAt pos) (T.off (m.visit (old.keyAt pos) j + i)) :=
          ⟨j, hj, hoff.symm, hn, hfull⟩
        exact ⟨h.copyEntry hold hpos hdst (h.notHash hdst hs) hnear.reaches,
          hl.copyEntry hold h.conf_eq.symm hpos hdst hnear⟩
    · next hnone =>
        refine hfull.succ ?_
        rintro ⟨i, hi, hie⟩
        have hnil : slots (!isHash ·) (m.bucket (m.visit (old.keyAt pos) j)) = [] :=
          List.head?_eq_none_iff.mp hnone
        have := (h.slots_bucket_eq_nil ho).mp hnil i hi
        rw [hie] at this
        cases this
  · cases hS : T.seq.isUnbounded with
    | true =>
        rw [ProbeSeq.hasNext_of_unbounded _ hS] at hn
        cases hn
    | false => exact hS

/-- Re-inserting a list of entries, while there is room. -/
theorem reinsertAll_spec (hold : Shape old) :
    ∀ (l : List ℕ) {m : Map T ν} {E : Multiset (κ × ν × List Byte)}, Fresh old m n E → Linked m →
      (∀ p ∈ l, p < old.capacity) → l.length + E.card < n →
      ∃ r, reinsertAll ideal old l m = .ok r ∧
        Refilled old n (E + (l.map old.entryAt : Multiset (κ × ν × List Byte))) r
  | [], m, E, h, hl, _, _ => ⟨some m, rfl, by simpa using h, hl⟩
  | p :: l, m, E, h, hlink, hl, hlen => by
      rw [List.length_cons] at hlen
      obtain ⟨r, hr, hf⟩ := reinsert_spec hold h hlink (by omega) (hl p List.mem_cons_self)
      rw [reinsertAll, hr, ok_bind]
      cases r with
      | none => exact ⟨none, rfl, hf⟩
      | some m₁ =>
          have hsum : (old.entryAt p ::ₘ E) + (l.map old.entryAt : Multiset (κ × ν × List Byte)) =
              E + ((p :: l).map old.entryAt : Multiset (κ × ν × List Byte)) := by
            rw [List.map_cons, ← Multiset.cons_coe, Multiset.cons_add, Multiset.add_cons]
          rw [← hsum]
          exact reinsertAll_spec hold l hf.1 hf.2 (fun q hq => hl q (List.mem_cons_of_mem p hq))
            (by rw [Multiset.card_cons]; omega)

theorem linked_alloc {m : Map T ν} (hv : m.conf.isValid = true) {n : ℕ} (hcap : IsCapacity n)
    (hmin : m.conf.minCapacity ≤ n) : Linked (m.alloc n).reset :=
  { (fresh_alloc hv hcap hmin).toSound with
    near := fun p hp => absurd hp (reset_not_occupied (m.alloc n) p) }

/-- A full re-insertion at one capacity. -/
theorem refill_spec (hold : Sound old) (hcap : IsCapacity n) (hmin : old.conf.minCapacity ≤ n)
    (hroom : old.entries.card < n) :
    ∃ r, reinsertAll ideal old (old.positions ideal) (old.alloc n).reset = .ok r ∧
      Refilled old n old.entries r := by
  have hlen : (old.positions ideal).length = old.entries.card := by
    rw [hold.entries_eq]
    simp
  obtain ⟨r, hr, hf⟩ := reinsertAll_spec hold.toShape (old.positions ideal)
    (fresh_alloc hold.conf_valid hcap hmin) (linked_alloc hold.conf_valid hcap hmin)
    (fun p hp => (hold.mem_positions.mp hp).1) (by rw [hlen]; simpa using hroom)
  rw [zero_add, ← hold.entries_eq] at hf
  exact ⟨r, hr, hf⟩

/-- The loop over the capacity: the new table has the entries of the old one.  Each attempt that
fails doubles the capacity, until it leaves the range of `int_t`. -/
theorem rehash_spec (hold : Sound old) : ∀ (d : ℕ) {n : ℕ}, IsCapacity n →
    old.conf.minCapacity ≤ n → old.entries.card < n → 2 ^ 62 < n * 2 ^ d →
    (rehash ideal old d n = .error .overflow ∧ T.seq.isUnbounded = false) ∨
      ∃ n' m, rehash ideal old d n = .ok (n', m) ∧ n ≤ n' ∧
        (T.seq.isUnbounded = true → n' = n) ∧ Fresh old m n' old.entries ∧ Linked m
  | 0, n, hcap, _, _, hd => by
      obtain ⟨a, ha, rfl⟩ := hcap
      have := PowTwo.pow_le_pow ha
      omega
  | d + 1, n, hcap, hmin, hroom, hd => by
      obtain ⟨r, hr, hf⟩ := refill_spec hold hcap hmin hroom
      rw [rehash, hr, ok_bind]
      cases r with
      | some m => exact Or.inr ⟨n, m, rfl, le_rfl, fun _ => rfl, hf.1, hf.2⟩
      | none =>
          have hS : T.seq.isUnbounded = false := hf
          dsimp only
          rw [hS, if_neg Bool.false_ne_true]
          cases hn : shl1 n with
          | error e =>
              left
              rw [(shl1_error hn).1, error_bind]
              exact ⟨rfl, rfl⟩
          | ok n₂ =>
              obtain ⟨hcap₂, hle⟩ := isCapacity_shl1 hcap hn
              obtain ⟨rfl, -⟩ := shl1_ok hn
              rw [ok_bind]
              have hd₂ : 2 ^ 62 < 2 * n * 2 ^ d := by
                rw [pow_succ] at hd
                rwa [mul_comm 2 n, mul_assoc, mul_comm 2 (2 ^ d)]
              rcases rehash_spec hold d hcap₂ (by omega) (by omega) hd₂ with
                ⟨hr', -⟩ | ⟨n', m, hr', hn', -, hm⟩
              · exact Or.inl ⟨hr', rfl⟩
              · exact Or.inr ⟨n', m, hr', hle.trans hn', fun hc => absurd hc Bool.false_ne_true, hm⟩

end Fresh

/-! ### `resize_` -/

section Resize
variable [Inhabited κ] [Inhabited ν]

/-- What `resize_` returns: the same entries in a table of the returned capacity. -/
structure Resized (m m' : Map T ν) (end_ n : ℕ) : Prop where
  inv : Inv m'
  entries_eq : m'.entries = m.entries
  conf_eq : m'.conf = m.conf
  capacity_eq : m'.capacity = n
  le_capacity : end_ ≤ n
  room : m.entries.card + m.conf.growThreshold (PowTwo.ceilPow m.entries.card) ≤ n
  same : n = m.capacity → m' = m
  noTombstone : n ≠ m.capacity → m'.numTombstone = 0

/-- What `resize_` builds when the capacity is to change: a table without tombstones. -/
structure Rebuilt (m m' : Map T ν) (n : ℕ) : Prop where
  exact : Exact m'
  linked : Linked m'
  entries_eq : m'.entries = m.entries
  conf_eq : m'.conf = m.conf
  capacity_eq : m'.capacity = n
  numTombstone_eq : m'.numTombstone = 0

theorem Fresh.rebuilt {m m' : Map T ν} {n : ℕ} (h : Exact m) (hf : Fresh m m' n m.entries)
    (hl : Linked m') (hroom : m.entries.card < n) : Rebuilt m (m'.subEmpty m.size) n := by
  have hzero : countSlots m'.capacity (· == tombstone) m'.stateAt = 0 :=
    countSlots_eq_zero.mpr fun p hp => beq_false_of_ne (hf.noTombstone p hp)
  have hcount := hf.count_states
  have hcard : m'.entries.card = m.entries.card := by rw [hf.entries_eq]
  have hcap := hf.capacity_eq
  have hsound : Sound (m'.subEmpty m.size) :=
    { pow := hf.pow, states_length := hf.states_length, keys_length := hf.keys_length,
      values_length := hf.values_length, blobs_length := hf.blobs_length,
      conf_valid := hf.conf_valid, state_valid := hf.state_valid, state_eq := hf.state_eq }
  refine ⟨{ hsound with
    minCapacity_le := hf.minCapacity_le, growThreshold_eq := hf.growThreshold_eq, pure := hf.pure,
    numEmpty_eq := ?_, numTombstone_eq := ?_, numEmpty_pos := ?_ },
    { hsound with near := hl.near }, hf.entries_eq, hf.conf_eq, hf.capacity_eq, hf.numTombstone_eq⟩
  · change m'.numEmpty - m.size = countSlots m'.capacity (· == empty) m'.stateAt
    rw [hf.numEmpty_eq, h.size_eq]
    omega
  · change m'.numTombstone = countSlots m'.capacity (· == tombstone) m'.stateAt
    rw [hf.numTombstone_eq, hzero]
    rfl
  · change 1 ≤ m'.numEmpty - m.size
    rw [hf.numEmpty_eq, h.size_eq]
    omega

/-- A rebuilt table has as many empty slots as the entries leave. -/
theorem Rebuilt.numEmpty_eq {m m' : Map T ν} {n : ℕ} (h : Rebuilt m m' n) :
    m'.numEmpty = n - m.entries.card := by
  have hsize := h.exact.size_eq
  rw [size, numNotHashSlots, h.capacity_eq, h.numTombstone_eq, h.entries_eq] at hsize
  omega

/-- A map with the invariant keeps it. -/
theorem Rebuilt.inv {m m' : Map T ν} {n : ℕ} (h : Inv m) (hr : Rebuilt m m' n) : Inv m' :=
  { hr.exact with
    chain := fun pos hp => (hr.linked.near pos hp).reaches
    unique := fun hd => by
      have hu : m.Unique := h.unique hd
      exact hu.of_entries_eq hr.entries_eq }

/-- The entries and the reserve above them need more than the largest capacity. -/
def Crowded (m : Map T ν) : Prop :=
  2 ^ 62 < m.size + m.conf.growThreshold (PowTwo.ceilPow m.size.toNat)

/-- The reserve above the entries is at most half of the capacity. -/
theorem Exact.not_crowded {m : Map T ν} (h : Exact m) (hroom : 2 * m.entries.card ≤ 2 ^ 62) :
    ¬ m.Crowded := by
  obtain ⟨a, ha, hcap⟩ := h.toShape.isCapacity
  have hpow := PowTwo.pow_le_pow ha
  have hlt := h.card_entries_lt
  have hmin := h.minCapacity_le
  have hhalf := Nat.mul_le_mul_right (m.conf.growThreshold (PowTwo.ceilPow m.entries.card))
    m.conf.growBias_mem.1
  have hthr : m.conf.growBias * m.conf.growThreshold (PowTwo.ceilPow m.entries.card) ≤ 2 ^ a := by
    refine (Nat.mul_div_le _ _).trans (max_le (PowTwo.ceilPow_le ?_) ?_) <;> omega
  rw [Crowded, h.size_eq, Int.toNat_natCast]
  omega

/-- The chosen capacity is a power of two that leaves room, or it leaves the range of `int_t`. -/
theorem resizeTarget_spec {m : Map T ν} (h : Exact m) {end_ : ℕ}
    (hend : end_ ≤ m.conf.minCapacity ∨ IsCapacity end_) :
    (m.resizeTarget end_ = .error .overflow ∧ m.Crowded) ∨
      ∃ n, m.resizeTarget end_ = .ok n ∧ IsCapacity n ∧ end_ ≤ n ∧ m.conf.minCapacity ≤ n ∧
        m.entries.card + m.conf.growThreshold (PowTwo.ceilPow m.entries.card) ≤ n := by
  have hle := h.card_entries_lt
  have hcapacity := h.capacity_le
  have hslots : bitCeil m.size = .ok (PowTwo.ceilPow m.entries.card) := by
    rw [h.size_eq]
    exact bitCeil_eq (by omega)
  rw [resizeTarget, hslots, ok_bind, h.size_eq]
  cases hneed : bitCeil ((m.entries.card : ℤ) +
      m.conf.growThreshold (PowTwo.ceilPow m.entries.card)) with
  | error e =>
      left
      obtain ⟨rfl, hlt⟩ := bitCeil_error hneed
      refine ⟨rfl, ?_⟩
      rw [Crowded, h.size_eq, Int.toNat_natCast]
      omega
  | ok c =>
      right
      obtain ⟨-, -, hc⟩ := bitCeil_ok hneed
      have hroom : m.entries.card + m.conf.growThreshold (PowTwo.ceilPow m.entries.card) ≤ c := by
        rw [hc]
        exact le_trans (by omega) (PowTwo.le_ceilPow _)
      set e₁ := if end_ < m.conf.minCapacity then m.conf.minCapacity else end_ with he₁
      have hend₁ : end_ ≤ e₁ ∧ m.conf.minCapacity ≤ e₁ ∧ IsCapacity e₁ := by
        rw [he₁]
        split_ifs with hlt
        · exact ⟨hlt.le, le_rfl, m.conf.min_isCapacity⟩
        · refine ⟨le_rfl, not_lt.mp hlt, ?_⟩
          rcases hend with hend | hend
          · rw [show end_ = m.conf.minCapacity by omega]
            exact m.conf.min_isCapacity
          · exact hend
      refine ⟨max e₁ c, ?_, hend₁.2.2.max (isCapacity_bitCeil hneed),
        hend₁.1.trans (le_max_left _ _), hend₁.2.1.trans (le_max_left _ _),
        hroom.trans (le_max_right _ _)⟩
      rw [ok_bind]

/-- `resize_` on a map with any flags: it keeps the map, or rebuilds it at a capacity that leaves
room, or the new capacity leaves the range of `int_t`; with an unbounded sequence this happens to
crowded tables only. -/
theorem resize_cases {m : Map T ν} (h : Exact m) {end_ : ℕ}
    (hend : end_ ≤ m.conf.minCapacity ∨ IsCapacity end_) :
    (m.resize_ ideal end_ = .error .overflow ∧ (T.seq.isUnbounded = true → m.Crowded)) ∨
      ∃ n m', m.resize_ ideal end_ = .ok (n, m') ∧ end_ ≤ n ∧
        m.entries.card + m.conf.growThreshold (PowTwo.ceilPow m.entries.card) ≤ n ∧
        ((n = m.capacity ∧ m' = m) ∨
          Rebuilt m m' n ∧ (T.seq.isUnbounded = true → n ≠ m.capacity)) := by
  rcases resizeTarget_spec h hend with ⟨htarget, hcrowd⟩ | ⟨n, htarget, hcap, hle, hmin, hroom⟩
  · left
    rw [resize_, htarget, error_bind]
    exact ⟨rfl, fun _ => hcrowd⟩
  have hthr := Conf.growThreshold_pos h.conf_valid (PowTwo.ceilPow m.entries.card)
  rw [resize_, htarget, ok_bind]
  by_cases hsame : n = m.capacity
  · rw [if_pos hsame]
    exact Or.inr ⟨n, m, rfl, hle, hroom, Or.inl ⟨hsame, rfl⟩⟩
  · rw [if_neg hsame]
    have hfuel : 2 ^ 62 < n * 2 ^ 64 := by omega
    rcases rehash_spec h.toSound 64 hcap hmin (by omega) hfuel with
      ⟨hr, hS⟩ | ⟨n', m', hr, hn, hS, hf, hl⟩
    · left
      rw [hr, error_bind, hS]
      exact ⟨rfl, fun hc => by cases hc⟩
    · right
      rw [hr, ok_bind]
      refine ⟨n', m'.subEmpty m.size, rfl, hle.trans hn, hroom.trans hn,
        Or.inr ⟨hf.rebuilt h hl (by omega), fun hu => ?_⟩⟩
      rw [hS hu]
      exact hsame

/-- With an unbounded sequence `resize_` keeps the entries and the invariant, or the table is too
crowded for a new capacity in the range of `int_t`. -/
theorem resize_spec (hS : T.seq.isUnbounded = true) {m : Map T ν} (h : Inv m) {end_ : ℕ}
    (hend : end_ ≤ m.conf.minCapacity ∨ IsCapacity end_) :
    (m.resize_ ideal end_ = .error .overflow ∧ m.Crowded) ∨
      ∃ n m', m.resize_ ideal end_ = .ok (n, m') ∧ Resized m m' end_ n := by
  rcases resize_cases h.exact hend with ⟨hr, hcrowd⟩ | ⟨n, m', hr, hle, hroom, hcase⟩
  · exact Or.inl ⟨hr, hcrowd hS⟩
  refine Or.inr ⟨n, m', hr, ?_⟩
  rcases hcase with ⟨rfl, rfl⟩ | ⟨hb, hne⟩
  · exact ⟨h, rfl, rfl, rfl, hle, hroom, fun _ => rfl, fun hc => absurd rfl hc⟩
  · exact ⟨hb.inv h, hb.entries_eq, hb.conf_eq, hb.capacity_eq, hle, hroom,
      fun hc => absurd hc (hne hS), fun _ => hb.numTombstone_eq⟩

end Resize

/-! ### `clear` -/

section Clear
variable [Inhabited κ] [Inhabited ν] {m : Map T ν}

theorem clear_cases (m : Map T ν) :
    m.clear.2 = m.reset ∨ m.clear.2 = (m.alloc m.conf.initCapacity).reset := by
  unfold clear
  dsimp only
  split_ifs
  · exact Or.inr rfl
  · exact Or.inl rfl

theorem clearTo_cases {n : ℤ} {r : ℕ × Map T ν} (hr : m.clearTo n = .ok r) :
    r.2 = m.reset ∨
      ∃ c, IsCapacity c ∧ m.conf.minCapacity ≤ c ∧ r.2 = (m.alloc c).reset := by
  obtain ⟨c, hc, hr⟩ := bind_eq_ok.mp hr
  obtain rfl := Except.ok.inj hr
  dsimp only
  split_ifs
  · obtain ⟨-, -, heq⟩ := bitCeil_ok hc
    have hle : (max n m.conf.minCapacity).toNat ≤ c := heq ▸ PowTwo.le_ceilPow _
    exact Or.inr ⟨c, isCapacity_bitCeil hc, by omega, rfl⟩
  · exact Or.inl rfl

theorem clearTo_error {n : ℤ} {e : Err} (hr : m.clearTo n = .error e) :
    e = .overflow ∧ 2 ^ 62 < n := by
  rw [clearTo] at hr
  cases hc : bitCeil (max n m.conf.minCapacity) with
  | error e' =>
      rw [hc, error_bind] at hr
      obtain rfl := Except.error.inj hr
      obtain ⟨rfl, hn⟩ := bitCeil_error hc
      obtain ⟨a, ha, hmin⟩ := m.conf.min_isCapacity
      have := PowTwo.pow_le_pow ha
      exact ⟨rfl, by omega⟩
  | ok c =>
      rw [hc, ok_bind] at hr
      cases hr

/-- What `clear` leaves: a map without entries. -/
structure Cleared (m m' : Map T ν) : Prop where
  inv : Inv m'
  entries_eq : m'.entries = 0
  conf_eq : m'.conf = m.conf

theorem Exact.cleared_reset (h : Exact m) : Cleared m m.reset :=
  ⟨h.inv_reset h.conf_valid h.minCapacity_le h.growThreshold_eq, entries_reset m, rfl⟩

theorem Sound.cleared_alloc (h : Sound m) {c : ℕ} (hcap : IsCapacity c)
    (hmin : m.conf.minCapacity ≤ c) : Cleared m (m.alloc c).reset := by
  have hK := (Conf.kernelSize_le h.conf_valid).trans hmin
  have hc := alloc_capacity m hK
  refine ⟨(alloc_shape m hcap hK).inv_reset h.conf_valid ?_ ?_, entries_reset _, rfl⟩
  · rw [hc]
    exact hmin
  · rw [hc]
    rfl

theorem clear_spec (h : Inv m) : Cleared m m.clear.2 := by
  rcases clear_cases m with hc | hc <;> rw [hc]
  · exact h.exact.cleared_reset
  · exact h.toSound.cleared_alloc m.conf.init_isCapacity m.conf.min_le_init

theorem clearTo_spec (h : Inv m) {n : ℤ} {r : ℕ × Map T ν} (hr : m.clearTo n = .ok r) :
    Cleared m r.2 := by
  rcases clearTo_cases hr with hc | ⟨c, hcap, hmin, hc⟩ <;> rw [hc]
  · exact h.exact.cleared_reset
  · exact h.toSound.cleared_alloc hcap hmin

end Clear

end Map

end Nvhm
