import NvHashMap.Map.Insert

/-! # Erasing

Every erase function first frees slots and then calls `auto_shrink_and_scub_`.  `Freed m m' l` says
that `m'` is `m` without the slots in `l`; it is closed under composition, and one `free` is the
step (`Exact.freed`).  The searches before it say which slots these are: the one that `erase_first_`
locates, all slots of a key for `erase_all_`, the slots that satisfy the predicate for
`erase_if_`.

`Tidied m m'` is what the second part may do: the entries stay the same.  When it would scrub, the
lemmas of this module assume that of the scrub (`wouldScrub`). -/

namespace Nvhm

open Buffer SlotCount

variable {κ ν : Type} {T : MapType κ} [Inhabited κ] [Inhabited ν]

namespace Map

/-! ### Freeing slots -/

/-- Free one slot after the other. -/
inductive Frees : Map T ν → Map T ν → List ℕ → Prop where
  | nil (m : Map T ν) : Frees m m []
  | cons {m m' : Map T ν} {pos : ℕ} {b : Bool} {l : List ℕ} (ho : m.Occupied pos)
      (hb : b = true ↔ m.HasEmpty (T.off pos)) (h : Frees (m.free b pos) m' l) :
      Frees m m' (pos :: l)

omit [Inhabited κ] [Inhabited ν] in
theorem Frees.trans {m m' m'' : Map T ν} {l l' : List ℕ} (h : Frees m m' l)
    (h' : Frees m' m'' l') : Frees m m'' (l ++ l') := by
  induction h with
  | nil m => exact h'
  | cons ho hb _ ih => exact .cons ho hb (ih h')

omit [Inhabited ν] in
theorem Frees.inv {m m' : Map T ν} {l : List ℕ} (hf : Frees m m' l) (h : Inv m) : Inv m' := by
  induction hf with
  | nil m => exact h
  | cons ho hb _ ih => exact ih (h.free ho hb)

/-- `m'` is `m` after the slots in `l` were freed. -/
structure Freed (m m' : Map T ν) (l : List ℕ) : Prop where
  frees : Frees m m' l
  exact : Exact m'
  frame : Frame m m'
  keyAt_eq : m'.keyAt = m.keyAt
  entryAt_eq : m'.entryAt = m.entryAt
  hasEmpty_iff : ∀ o, T.kernelSize ∣ o → (m'.HasEmpty o ↔ m.HasEmpty o)
  occupied_iff : ∀ q, m'.Occupied q ↔ m.Occupied q ∧ q ∉ l
  nodup : l.Nodup
  subset : ∀ q ∈ l, m.Occupied q
  entries_eq : m.entries = (l.map m.entryAt : Multiset (κ × ν × List Byte)) + m'.entries
  numEmpty_le : m.numEmpty ≤ m'.numEmpty
  numTombstone_le : m.numTombstone ≤ m'.numTombstone

theorem Exact.freed_nil {m : Map T ν} (h : Exact m) : Freed m m [] :=
  ⟨.nil m, h, Frame.refl m, rfl, rfl, fun _ _ => Iff.rfl, fun q => by simp, List.nodup_nil, by simp,
    by simp, le_rfl, le_rfl⟩

theorem Freed.trans {m m' m'' : Map T ν} {l l' : List ℕ} (h : Freed m m' l)
    (h' : Freed m' m'' l') : Freed m m'' (l ++ l') := by
  have hdisj : ∀ q ∈ l', q ∉ l := fun q hq => ((h.occupied_iff q).mp (h'.subset q hq)).2
  refine ⟨h.frees.trans h'.frees, h'.exact, h.frame.trans h'.frame, h'.keyAt_eq.trans h.keyAt_eq,
    h'.entryAt_eq.trans h.entryAt_eq, fun o ho => (h'.hasEmpty_iff o ho).trans (h.hasEmpty_iff o ho),
    fun q => ?_, ?_, fun q hq => ?_, ?_, h.numEmpty_le.trans h'.numEmpty_le,
    h.numTombstone_le.trans h'.numTombstone_le⟩
  · rw [h'.occupied_iff, h.occupied_iff, List.mem_append, not_or, and_assoc]
  · exact List.nodup_append'.mpr ⟨h.nodup, h'.nodup, fun q hl hl' => hdisj q hl' hl⟩
  · rcases List.mem_append.mp hq with hq | hq
    · exact h.subset q hq
    · exact ((h.occupied_iff q).mp (h'.subset q hq)).1
  · rw [h.entries_eq, h'.entries_eq, List.map_append, ← Multiset.coe_add, h.entryAt_eq, add_assoc]

theorem Freed.stores_iff {m m' : Map T ν} {l : List ℕ} (h : Freed m m' l) (key : κ) (q : ℕ) :
    m'.Stores key q ↔ m.Stores key q ∧ q ∉ l := by
  rw [Stores, Stores, h.occupied_iff, h.keyAt_eq]
  exact and_right_comm

/-- The number of slots that were freed. -/
theorem Freed.numErased {m m' : Map T ν} {l : List ℕ} (hm : Exact m) (h : Freed m m' l) :
    m'.numEmpty - m.numEmpty + (m'.numTombstone - m.numTombstone) = l.length := by
  have h1 := hm.size_eq
  have h2 := h.exact.size_eq
  have hcard : m.entries.card = l.length + m'.entries.card := by
    rw [h.entries_eq]
    simp
  rw [size, numNotHashSlots] at h1 h2
  rw [h.frame.capacity] at h2
  omega

/-- Freeing one slot. -/
theorem Exact.freed {m : Map T ν} (h : Exact m) {pos : ℕ} (ho : m.Occupied pos) {b : Bool}
    (hb : b = true ↔ m.HasEmpty (T.off pos)) : Freed m (m.free b pos) [pos] := by
  have hf := free_frame m b pos
  have hst := free_stateAt h.toShape b ho.1
  refine ⟨.cons ho hb (.nil _), h.free ho hb, hf, free_keyAt m b pos, free_entryAt m b pos,
    fun o hd => ⟨?_, ?_⟩, fun q => ?_, List.nodup_singleton pos, fun q hq => ?_, ?_, ?_, ?_⟩
  · refine HasEmpty.of_release (fun hs => ?_) hst hd
    cases b with
    | true => exact hb.mp rfl
    | false => cases hs
  · rintro ⟨i, hi, he⟩
    refine ⟨i, hi, ?_⟩
    rw [hst, Function.update_of_ne, he]
    rintro rfl
    exact ne_empty_of_isHash ho.isHash he
  · by_cases hq : q = pos
    · subst hq
      simp only [List.mem_singleton, not_true_eq_false, and_false, iff_false]
      intro hc
      have := hc.isHash
      rw [hst, Function.update_self, isHash_freed] at this
      cases this
    · rw [occupied_put hf hst hq]
      simp [hq]
  · rw [List.mem_singleton] at hq
    exact hq ▸ ho
  · rw [entries_free h.toShape ho b]
    simp
  · rw [free_numEmpty]
    split_ifs <;> omega
  · rw [free_numTombstone]
    split_ifs <;> omega

/-- Freeing slots of one bucket, all with what its snapshot said. -/
theorem Exact.freeSlots {o : ℕ} {b : Bool} (hd : T.kernelSize ∣ o) :
    ∀ {l : List ℕ} {m : Map T ν}, Exact m → l.Nodup → (∀ q ∈ l, m.Occupied q ∧ T.off q = o) →
      (b = true ↔ m.HasEmpty o) → Freed m (m.freeSlots b l) l
  | [], m, h, _, _, _ => h.freed_nil
  | q :: l, m, h, hn, hl, hb => by
      obtain ⟨hq, hoff⟩ := hl q List.mem_cons_self
      obtain ⟨hnq, hn⟩ := List.nodup_cons.mp hn
      have h₁ : Freed m (m.free b q) [q] := h.freed hq (by rw [hoff]; exact hb)
      have h₂ : Freed (m.free b q) ((m.free b q).freeSlots b l) l := by
        refine Exact.freeSlots hd h₁.exact hn (fun r hr => ?_)
          (hb.trans (h₁.hasEmpty_iff o hd).symm)
        obtain ⟨hocc, hroff⟩ := hl r (List.mem_cons_of_mem q hr)
        refine ⟨(h₁.occupied_iff r).mpr ⟨hocc, ?_⟩, hroff⟩
        rw [List.mem_singleton]
        rintro rfl
        exact hnq hr
      exact h₁.trans h₂

/-- Freeing the slots of a key in one bucket. -/
theorem Exact.freeMatches {m : Map T ν} (h : Exact m) {o : ℕ} (hd : T.kernelSize ∣ o)
    (ho : o + T.kernelSize ≤ m.capacity) (key : κ) {l : List ℕ}
    (hl : l = ((ideal.hits (m.bucket o) (keyState T key)).filter
      fun i => T.key.eq (m.keyAt (o + i)) key).map (o + ·)) :
    Freed m (m.freeSlots (ideal.hasEmpty (m.bucket o)) l) l ∧
      ∀ q, q ∈ l ↔ m.Stores key q ∧ T.off q = o := by
  have hmem : ∀ q, q ∈ l ↔ m.Stores key q ∧ T.off q = o := by
    intro q
    rw [hl, List.mem_map]
    constructor
    · rintro ⟨i, hi, rfl⟩
      obtain ⟨hik, hs⟩ := (h.mem_matches ho key).mp hi
      exact ⟨hs, MapType.off_add hd hik⟩
    · rintro ⟨hs, hoff⟩
      obtain ⟨i, hi, rfl⟩ := MapType.exists_add_of_off_eq hoff
      exact ⟨i, (h.mem_matches ho key).mpr ⟨hi, hs⟩, rfl⟩
  have hnodup : l.Nodup := by
    rw [hl]
    exact List.Nodup.map (fun _ _ he => Nat.add_left_cancel he) ((slots_nodup _ _).filter _)
  exact ⟨h.freeSlots hd hnodup (fun q hq => ⟨((hmem q).mp hq).1.1, ((hmem q).mp hq).2⟩)
    (h.hasEmpty_iff ho), hmem⟩

/-! ### `auto_shrink_and_scub_` -/

/-- What a rehash or a scrub may do to a map. -/
structure Tidied (m m' : Map T ν) : Prop where
  inv : Inv m'
  entries_eq : m'.entries = m.entries
  conf_eq : m'.conf = m.conf

theorem Inv.tidied {m : Map T ν} (h : Inv m) : Tidied m m := ⟨h, rfl, rfl⟩

theorem Resized.tidied {m m' : Map T ν} {end_ n : ℕ} (h : Resized m m' end_ n) : Tidied m m' :=
  ⟨h.inv, h.entries_eq, h.conf_eq⟩

/-- A scrub of this table succeeds and keeps its entries. -/
def ScrubOk (m : Map T ν) : Prop := ∃ n m', m.scrub_ ideal = .ok (n, m') ∧ Tidied m m'

/-- `auto_shrink_and_scub_` would call `scrub_`. -/
def wouldScrub (m : Map T ν) (numBurried : ℤ) : Bool :=
  !(T.autoShrink && m.conf.shouldShrink m.capacity m.numEmpty m.numTombstone) &&
    (T.autoScrub && (numBurried != 0) && m.conf.shouldScrub m.capacity m.numTombstone)

omit [Inhabited κ] [Inhabited ν] in
theorem wouldScrub_of_noScrub (h : T.autoScrub = false) (m : Map T ν) (n : ℤ) :
    m.wouldScrub n = false := by
  simp [wouldScrub, h]

omit [Inhabited κ] [Inhabited ν] in
theorem Shape.half_capacity {m : Map T ν} (h : Shape m) :
    m.capacity / 2 ≤ m.conf.minCapacity ∨ IsCapacity (m.capacity / 2) := by
  obtain ⟨c, -, hc, -, hcap, -⟩ := h.exists_pow
  rw [hcap]
  cases c with
  | zero => exact Or.inl (Nat.zero_le _)
  | succ c =>
      right
      rw [pow_succ, Nat.mul_div_cancel _ (by decide)]
      exact isCapacity_pow (by omega)

/-- A table that is to shrink is not crowded. -/
theorem Exact.not_crowded_of_shouldShrink {m : Map T ν} (h : Exact m)
    (hs : m.conf.shouldShrink m.capacity m.numEmpty m.numTombstone = true) : ¬ m.Crowded := by
  obtain ⟨-, hle⟩ := Bool.and_eq_true_iff.mp hs
  have hle := of_decide_eq_true hle
  have hsize := h.size_eq
  rw [size, numNotHashSlots] at hsize
  rw [hsize] at hle
  have hbias := Nat.mul_le_mul_left m.entries.card m.conf.shrinkBias_mem.1
  have hcap := h.capacity_le
  refine h.not_crowded ?_
  omega

/-- `auto_shrink_and_scub_` keeps the map. -/
theorem autoShrinkAndScub_spec (hS : T.seq.isUnbounded = true) {m : Map T ν} (h : Inv m) {n : ℤ}
    (hscrub : m.wouldScrub n = true → m.ScrubOk) :
    ∃ b m', autoShrinkAndScub ideal m n = .ok (b, m') ∧ Tidied m m' ∧ (b = true → m' = m) := by
  unfold autoShrinkAndScub
  cases hshrink : T.autoShrink && m.conf.shouldShrink m.capacity m.numEmpty m.numTombstone with
  | true =>
      rw [if_pos rfl]
      rcases resize_spec hS h h.half_capacity with ⟨-, hcrowd⟩ | ⟨n', m', hr, hres⟩
      · exact absurd hcrowd (h.exact.not_crowded_of_shouldShrink (Bool.and_eq_true_iff.mp hshrink).2)
      · rw [hr, ok_bind]
        exact ⟨false, m', rfl, hres.tidied, fun hc => by cases hc⟩
  | false =>
      rw [if_neg Bool.false_ne_true]
      cases hs : T.autoScrub && (n != 0) && m.conf.shouldScrub m.capacity m.numTombstone with
      | true =>
          obtain ⟨n', m', hr, ht⟩ := hscrub (by rw [wouldScrub, hshrink, hs]; rfl)
          rw [if_pos rfl, hr, ok_bind]
          exact ⟨false, m', rfl, ht, fun hc => by cases hc⟩
      | false =>
          rw [if_neg Bool.false_ne_true]
          exact ⟨true, m, rfl, h.tidied, fun _ => rfl⟩

/-! ### `find_next_` -/

section Next
variable {m : Map T ν} (h : Sound m)
include h

omit [Inhabited ν] in
/-- What the search of one bucket of `find_next_` finds. -/
theorem firstMatch_above {o : ℕ} (ho : o + T.kernelSize ≤ m.capacity) {key : κ} {above : ℤ} {i : ℕ}
    (hi : m.firstMatch o key (ideal.hitsAbove (m.bucket o) (keyState T key) above) = some i) :
    i < T.kernelSize ∧ m.Stores key (o + i) := by
  have hmem : i ∈ ideal.hits (m.bucket o) (keyState T key) :=
    List.mem_of_mem_filter (List.mem_of_find?_eq_some hi)
  exact (h.mem_matches ho key).mp (List.mem_filter.mpr
    ⟨hmem, List.find?_some (p := fun i => T.key.eq (m.keyAt (o + i)) key) hi⟩)

omit [Inhabited ν] in
/-- Whatever the sequence, a slot that the search of `find_next_` returns stores the key. -/
theorem nextLoop_spec (key : κ) : ∀ (n : ℕ) (q : ProbeSeq) (above : ℤ), q.psl < m.capacity →
    m.capacity ≤ q.psl + T.kernelSize * n →
    nextLoop ideal m key n q above = .error .nextFull ∨
      ∃ r q', nextLoop ideal m key n q above = .ok (r, q') ∧
        ∀ p b, r = some (p, b) → m.Stores key p ∧ (b = true ↔ m.HasEmpty (T.off p)) := by
  intro n
  induction n with
  | zero =>
      intro q above hlt hle
      omega
  | succ n ih =>
      intro q above hlt hle
      obtain ⟨hd, ho⟩ := h.alignPos_mem (q.next T.seq)
      have hle' := h.offset_add_le hd ho
      rw [nextLoop]
      split
      · next i hi =>
          obtain ⟨hik, hs⟩ := firstMatch_above h hle' hi
          refine Or.inr ⟨_, _, rfl, ?_⟩
          rintro p b hpb
          obtain ⟨rfl, rfl⟩ := Prod.mk.inj (Option.some.inj hpb)
          rw [MapType.off_add hd hik]
          exact ⟨hs, h.hasEmpty_iff hle'⟩
      · dsimp only
        split_ifs with hb hn hpsl
        · exact Or.inr ⟨none, q, rfl, fun _ _ hc => by cases hc⟩
        · refine ih _ _ hpsl ?_
          rw [ProbeSeq.advance_psl]
          rw [Nat.mul_succ] at hle
          omega
        · exact Or.inl rfl
        · exact Or.inr ⟨none, _, rfl, fun _ _ hc => by cases hc⟩

omit [Inhabited ν] in
theorem locateNext_spec (pos : ℕ) (seq : ProbeSeq) (key : κ) :
    (∃ e, m.locateNext ideal pos seq key = .error e ∧
      (e = .badPos ∨ e = .badSeq ∨ e = .nextFull)) ∨
      ∃ r q', m.locateNext ideal pos seq key = .ok (r, q') ∧
        ∀ p b, r = some (p, b) → m.Stores key p ∧ (b = true ↔ m.HasEmpty (T.off p)) := by
  have hfuel : ∀ q : ProbeSeq,
      m.capacity ≤ q.psl + T.kernelSize * (m.capacity / T.kernelSize + 1) := by
    intro q
    rw [Nat.mul_succ, h.kernelSize_mul]
    omega
  unfold locateNext
  dsimp only
  split_ifs with hpos hseq hidx hn hpsl
  · rcases nextLoop_spec h key _ (seq.advance T.seq T.kernelSize) (-1) hpsl (hfuel _) with hr | hr
    · exact Or.inl ⟨_, hr, Or.inr (Or.inr rfl)⟩
    · exact Or.inr hr
  · exact Or.inl ⟨_, rfl, Or.inr (Or.inr rfl)⟩
  · exact Or.inr ⟨none, _, rfl, fun _ _ hc => by cases hc⟩
  · rcases nextLoop_spec h key _ seq _ hseq.2.2 (hfuel _) with hr | hr
    · exact Or.inl ⟨_, hr, Or.inr (Or.inr rfl)⟩
    · exact Or.inr hr
  · exact Or.inl ⟨_, rfl, Or.inr (Or.inl rfl)⟩
  · exact Or.inl ⟨_, rfl, Or.inl rfl⟩

end Next

/-! ### Single slots -/

/-- What an erase function leaves: the map without the entries of the slots in `l`. -/
structure Erased (m m' : Map T ν) (l : List ℕ) : Prop where
  inv : Inv m'
  conf_eq : m'.conf = m.conf
  nodup : l.Nodup
  entries_eq : m.entries = (l.map m.entryAt : Multiset (κ × ν × List Byte)) + m'.entries

theorem Freed.erased {m m₁ m' : Map T ν} {l : List ℕ} (h : Freed m m₁ l) (ht : Tidied m₁ m') :
    Erased m m' l :=
  ⟨ht.inv, ht.conf_eq.trans h.frame.conf, h.nodup, by rw [ht.entries_eq, ← h.entries_eq]⟩

/-- The number that `reset_slot_` passes to `auto_shrink_and_scub_`. -/
def burried (b : Bool) : ℤ := if b then 0 else 1

variable (hS : T.seq.isUnbounded = true) {m : Map T ν} (h : Inv m)
include hS h

theorem eraseSlot_spec {pos : ℕ} (ho : m.Occupied pos) {b : Bool}
    (hb : b = true ↔ m.HasEmpty (T.off pos))
    (hscrub : (m.free b pos).wouldScrub (burried b) = true → (m.free b pos).ScrubOk) :
    ∃ r m', eraseSlot ideal m b pos = .ok (r, m') ∧ Erased m m' [pos] := by
  have hf := h.exact.freed ho hb
  rw [eraseSlot, resetSlot]
  obtain ⟨keep, m', hr, ht, -⟩ := autoShrinkAndScub_spec hS (hf.frees.inv h) hscrub
  refine ⟨if keep then some pos else none, m', ?_, hf.erased ht⟩
  change autoShrinkAndScub ideal (m.free b pos) (burried b) >>= _ = _
  rw [hr, ok_bind]

/-- `erase_first_`. -/
theorem eraseFirst_spec (key : κ)
    (hscrub : ∀ p b q, m.locateFirst ideal key = .ok (some (p, b), q) →
      (m.free b p).wouldScrub (burried b) = true → (m.free b p).ScrubOk) :
    ∃ found r q m', m.eraseFirst ideal key = .ok ((found, r, q), m') ∧
      ((found = true ∧ ∃ p, m.Stores key p ∧ Erased m m' [p]) ∨
        (found = false ∧ ¬ m.Contains key ∧ m' = m)) := by
  obtain ⟨e, he, hemp⟩ := h.exists_empty
  obtain ⟨r, q, hloc, hl, hb⟩ := locateFirst_spec h.toTable hS he hemp key
  rw [eraseFirst, hloc, ok_bind]
  cases r with
  | none =>
      refine ⟨false, none, q, m, rfl, Or.inr ⟨rfl, fun hc => ?_, rfl⟩⟩
      obtain ⟨p, hp⟩ := contains_iff.mp hc
      exact hl.not_stores h.toTable p hp
  | some pb =>
      obtain ⟨p, b⟩ := pb
      have hst : m.Stores key p := hl.stores
      obtain ⟨r, m', hr, he⟩ := eraseSlot_spec hS h hst.1 (hb p b rfl) (hscrub p b q hloc)
      refine ⟨true, r, q, m', ?_, Or.inl ⟨rfl, p, hst, he⟩⟩
      change eraseSlot ideal m b p >>= _ = _
      rw [hr, ok_bind]

/-- `erase_at_`. -/
theorem eraseAt_spec (pos : ℕ)
    (hscrub : m.Occupied pos → ∀ b, b = ideal.hasEmpty (m.bucket (T.off pos)) →
      (m.free b pos).wouldScrub (burried b) = true → (m.free b pos).ScrubOk) :
    (m.eraseAt ideal pos = .error .badPos ∧ m.capacity ≤ pos) ∨
      ∃ found r m', m.eraseAt ideal pos = .ok ((found, r), m') ∧
        ((found = true ∧ m.Occupied pos ∧ Erased m m' [pos]) ∨
          (found = false ∧ ¬ m.Occupied pos ∧ m' = m)) := by
  unfold eraseAt
  by_cases hp : pos < m.capacity
  · rw [if_pos hp]
    by_cases hc : m.containsAt pos = true
    · have hb := h.hasEmpty_iff (h.off_add_le hp)
      rw [if_pos hc, h.off_eq hp]
      dsimp only
      obtain ⟨r, m', hr, he⟩ := eraseSlot_spec hS h ⟨hp, hc⟩ hb (hscrub ⟨hp, hc⟩ _ rfl)
      rw [hr, ok_bind]
      exact Or.inr ⟨true, r, m', rfl, Or.inl ⟨rfl, ⟨hp, hc⟩, he⟩⟩
    · rw [if_neg hc]
      exact Or.inr ⟨false, some pos, m, rfl, Or.inr ⟨rfl, fun ho => hc ho.2, rfl⟩⟩
  · rw [if_neg hp]
    exact Or.inl ⟨rfl, not_lt.mp hp⟩

/-! ### Many slots -/

theorem finishErase_spec {m' : Map T ν} {l : List ℕ} (hf : Freed m m' l)
    (hscrub : m'.wouldScrub (m'.numTombstone - m.numTombstone) = true → m'.ScrubOk) :
    ∃ m'', finishErase ideal m m' = .ok ((l.length : ℤ), m'') ∧ Erased m m'' l := by
  rw [finishErase, hf.numErased h.exact]
  by_cases hl : (l.length : ℤ) = 0
  · simp only [hl, if_true]
    exact ⟨m', rfl, hf.erased (hf.frees.inv h).tidied⟩
  · simp only [hl, if_false]
    obtain ⟨b, m'', hr, ht, -⟩ := autoShrinkAndScub_spec hS (hf.frees.inv h) hscrub
    rw [hr, ok_bind]
    exact ⟨m'', rfl, hf.erased ht⟩

omit hS h in
/-- The loop of `erase_if_` frees the slots that satisfy the predicate. -/
theorem freeIf_spec (pred : ℕ → Bool) :
    ∀ (offs : List ℕ) {m : Map T ν}, Exact m → (∀ o ∈ offs, T.kernelSize ∣ o ∧ o < m.capacity) →
      ∃ l, Freed m (freeIf ideal pred offs m) l ∧
        ∀ q, q ∈ l ↔ m.Occupied q ∧ T.off q ∈ offs ∧ pred q = true
  | [], m, h, _ => ⟨[], h.freed_nil, by simp⟩
  | o :: offs, m, h, ho => by
      obtain ⟨hd, hlt⟩ := ho o List.mem_cons_self
      have hle := h.offset_add_le hd hlt
      set l₁ := ((ideal.hashes (m.bucket o)).map (o + ·)).filter pred with hl₁
      have hmem : ∀ q, q ∈ l₁ ↔ m.Occupied q ∧ T.off q = o ∧ pred q = true := by
        intro q
        rw [hl₁, List.mem_filter, List.mem_map]
        constructor
        · rintro ⟨⟨i, hi, rfl⟩, hp⟩
          obtain ⟨hik, hs⟩ := (h.mem_slots_bucket hle).mp hi
          exact ⟨⟨by omega, hs⟩, MapType.off_add hd hik, hp⟩
        · rintro ⟨hq, hoff, hp⟩
          obtain ⟨i, hi, rfl⟩ := MapType.exists_add_of_off_eq hoff
          exact ⟨⟨i, (h.mem_slots_bucket hle).mpr ⟨hi, hq.2⟩, rfl⟩, hp⟩
      have hnodup : l₁.Nodup :=
        (List.Nodup.map (fun _ _ he => Nat.add_left_cancel he) (slots_nodup _ _)).filter _
      have hf : Freed m (m.freeSlots (ideal.hasEmpty (m.bucket o)) l₁) l₁ :=
        h.freeSlots hd hnodup
          (fun q hq => ⟨((hmem q).mp hq).1, ((hmem q).mp hq).2.1⟩) (h.hasEmpty_iff hle)
      obtain ⟨l₂, hf₂, hmem₂⟩ := freeIf_spec pred offs hf.exact fun o' ho' => by
        rw [hf.frame.capacity]
        exact ho o' (List.mem_cons_of_mem o ho')
      refine ⟨l₁ ++ l₂, hf.trans hf₂, fun q => ?_⟩
      rw [List.mem_append, hmem₂, hf.occupied_iff, hmem, List.mem_cons]
      by_cases hq : T.off q = o
      · simp only [hq, true_or, true_and]
        tauto
      · simp only [hq, false_or, false_and, and_false]
        tauto

/-- `erase_if_`. -/
theorem eraseIf_spec (pred : ℕ → Bool)
    (hscrub : ∀ m', m' = freeIf ideal pred (offsets T.kernelSize m.capacity) m →
      m'.wouldScrub (m'.numTombstone - m.numTombstone) = true → m'.ScrubOk) :
    ∃ l m', m.eraseIf ideal pred = .ok ((l.length : ℤ), m') ∧ Erased m m' l ∧
      ∀ q, q ∈ l ↔ m.Occupied q ∧ pred q = true := by
  obtain ⟨l, hf, hl⟩ := freeIf_spec pred (offsets T.kernelSize m.capacity) h.exact
    fun o ho => h.mem_offsets.mp ho
  have hmem : ∀ q, q ∈ l ↔ m.Occupied q ∧ pred q = true := by
    intro q
    rw [hl]
    refine and_congr_right fun hq => and_iff_right ?_
    exact h.mem_offsets.mpr ⟨T.dvd_off q, lt_of_le_of_lt (T.off_le q) hq.1⟩
  obtain ⟨m', hr, he⟩ := finishErase_spec hS h hf (hscrub _ rfl)
  exact ⟨l, m', hr, he, hmem⟩

omit hS h in
/-- The slots that the loop of `erase_all_` frees, if it returns. -/
theorem eraseAllLoop_freed (h : Exact m) {key : κ} {m' : Map T ν}
    (hr : eraseAllLoop ideal m key = .ok m') :
    ∃ l, Freed m m' l ∧ ∀ q ∈ l, m.Stores key q := by
  have hcases : (∃ m', eraseAllLoop ideal m key = .ok m' ∧
      ∃ l, Freed m m' l ∧ ∀ q ∈ l, m.Stores key q) ∨
      eraseAllLoop ideal m key = .error .tableFull ∧
        ∃ m', ∃ l, Freed m m' l ∧ ∀ q ∈ l, m.Stores key q := by
    refine probe_cases h.toShape (fun _ m' => ∃ l, Freed m m' l ∧ ∀ q ∈ l, m.Stores key q) _
      ⟨[], h.freed_nil, by simp⟩ ?_ fun _ _ _ _ hI => hI
    rintro j m' hj - ⟨l, hf, hl⟩
    have ho := h.visit_add_le key j
    set found := ((ideal.hits (m'.bucket (m.visit key j)) (keyState T key)).filter
      (fun i => T.key.eq (m'.keyAt (m.visit key j + i)) key)).map (m.visit key j + ·) with hfound
    obtain ⟨hf', hmem⟩ := hf.exact.freeMatches (h.dvd_visit key j)
      (by rwa [hf.frame.capacity]) key hfound
    have hnew : ∀ q ∈ l ++ found, m.Stores key q := fun q hq => by
      rcases List.mem_append.mp hq with hq | hq
      · exact hl q hq
      · exact ((hf.stores_iff key q).mp ((hmem q).mp hq).1).1
    dsimp only
    split_ifs
    · exact ⟨_, hf.trans hf', hnew⟩
    · exact ⟨_, hf.trans hf', hnew⟩
  rcases hcases with ⟨m'', hr', hl⟩ | ⟨he, -⟩
  · obtain rfl := Except.ok.inj (hr.symm.trans hr')
    exact hl
  · cases hr.symm.trans he

/-- The loop of `erase_all_` frees all slots of the key. -/
theorem eraseAllLoop_spec (key : κ) :
    ∃ m' l, eraseAllLoop ideal m key = .ok m' ∧ Freed m m' l ∧ ∀ q, q ∈ l ↔ m.Stores key q := by
  obtain ⟨e, he, hemp⟩ := h.exists_empty
  suffices hspec : ∃ m', eraseAllLoop ideal m key = .ok m' ∧
      ∃ l, Freed m m' l ∧ ∀ q, q ∈ l ↔ m.Stores key q by
    obtain ⟨m', hr, l, hf⟩ := hspec
    exact ⟨m', l, hr, hf⟩
  -- after `j` steps the slots of the key in the first `j` buckets are free
  refine probe_spec h.toShape hS (fun j m' => m.FullUpTo key j ∧ ∃ l, Freed m m' l ∧
      ∀ q, q ∈ l ↔ m.Stores key q ∧ ∃ i < j, m.visit key i = T.off q) _
    ⟨fun _ hi => absurd hi (Nat.not_lt_zero _), [], h.exact.freed_nil, by simp⟩ ?_
    fun _ hI => h.not_all_full he hemp key hI.1
  rintro j m' hj ⟨hfull, l, hf, hl⟩
  have ho := h.visit_add_le key j
  have hd := h.dvd_visit key j
  have ho' : m.visit key j + T.kernelSize ≤ m'.capacity := by rwa [hf.frame.capacity]
  set found := ((ideal.hits (m'.bucket (m.visit key j)) (keyState T key)).filter
    (fun i => T.key.eq (m'.keyAt (m.visit key j + i)) key)).map (m.visit key j + ·) with hfound
  have hb := hf.exact.hasEmpty_iff ho'
  obtain ⟨hf', hmem⟩ := hf.exact.freeMatches hd ho' key hfound
  have hmem' : ∀ q, q ∈ l ++ found ↔
      m.Stores key q ∧ ∃ i < j + 1, m.visit key i = T.off q := by
    intro q
    rw [List.mem_append, hmem, hf.stores_iff]
    constructor
    · rintro (hq | ⟨⟨hs, -⟩, hoff⟩)
      · obtain ⟨hs, i, hi, hv⟩ := (hl q).mp hq
        exact ⟨hs, i, by omega, hv⟩
      · exact ⟨hs, j, by omega, hoff.symm⟩
    · rintro ⟨hs, i, hi, hv⟩
      by_cases hq : q ∈ l
      · exact Or.inl hq
      · rcases Nat.lt_succ_iff_lt_or_eq.mp hi with hlt | rfl
        · exact absurd ((hl q).mpr ⟨hs, i, hlt, hv⟩) hq
        · exact Or.inr ⟨⟨hs, hq⟩, hv.symm⟩
  dsimp only
  split_ifs with hbe
  · refine ⟨_, hf.trans hf', fun q => (hmem' q).trans ⟨fun hq => hq.1, fun hs => ⟨hs, ?_⟩⟩⟩
    have hemp' : m.HasEmpty (m.visit key j) := (hf.hasEmpty_iff _ hd).mp (hb.mp hbe)
    obtain ⟨i, hi, hv⟩ := h.visit_of_stores hemp' hs
    exact ⟨i, by omega, hv⟩
  · refine ⟨hfull.succ fun hc => hbe (hb.mpr ((hf.hasEmpty_iff _ hd).mpr hc)), _,
      hf.trans hf', hmem'⟩

/-- `erase_all_`. -/
theorem eraseAll_spec (key : κ)
    (hall : T.duplicates = true → ∀ m', eraseAllLoop ideal m key = .ok m' →
      m'.wouldScrub (m'.numTombstone - m.numTombstone) = true → m'.ScrubOk)
    (hfirst : T.duplicates = false → ∀ p b q, m.locateFirst ideal key = .ok (some (p, b), q) →
      (m.free b p).wouldScrub (burried b) = true → (m.free b p).ScrubOk) :
    ∃ l m', m.eraseAll ideal key = .ok ((l.length : ℤ), m') ∧ Erased m m' l ∧
      ∀ q, q ∈ l ↔ m.Stores key q := by
  unfold eraseAll
  cases hd : T.duplicates with
  | true =>
      obtain ⟨m', l, hr, hf, hl⟩ := eraseAllLoop_spec hS h key
      rw [if_pos rfl, hr, ok_bind]
      obtain ⟨m'', hr', he⟩ := finishErase_spec hS h hf (hall hd m' hr)
      exact ⟨l, m'', hr', he, hl⟩
  | false =>
      rw [if_neg Bool.false_ne_true]
      obtain ⟨found, r, q, m', hr, hc⟩ := eraseFirst_spec hS h key (hfirst hd)
      rw [hr, ok_bind]
      rcases hc with ⟨rfl, p, hp, he⟩ | ⟨rfl, hno, rfl⟩
      · refine ⟨[p], m', rfl, he, fun q => ?_⟩
        rw [List.mem_singleton]
        constructor
        · rintro rfl
          exact hp
        · intro hq
          exact h.unique hd q p hq.1 hp.1 (T.key.eq_trans hq.2 (T.key.eq_symm hp.2))
      · refine ⟨[], m', rfl, ⟨h, rfl, List.nodup_nil, by simp⟩, fun q => ?_⟩
        simp only [List.not_mem_nil, false_iff]
        exact fun hq => hno (contains_iff.mpr ⟨q, hq⟩)

/-! ### `erase_next_` -/

/-- `erase_next_`. -/
theorem eraseNext_spec (pos : ℕ) (seq : ProbeSeq) (key : κ)
    (hscrub : T.duplicates = true → alignPos seq.psl m.bucketMask = seq.psl →
      ∀ p b q, m.locateNext ideal pos seq key = .ok (some (p, b), q) →
      (m.free b p).wouldScrub (burried b) = true → (m.free b p).ScrubOk) :
    (∃ e, m.eraseNext ideal pos seq key = .error e ∧
      (e = .badPos ∨ e = .badSeq ∨ e = .nextFull)) ∨
      ∃ found r q m', m.eraseNext ideal pos seq key = .ok ((found, r, q), m') ∧
        ((found = true ∧ T.duplicates = true ∧ ∃ p, m.Stores key p ∧ Erased m m' [p]) ∨
          (found = false ∧ m' = m)) := by
  unfold eraseNext
  split_ifs with hd hpsl
  · rcases locateNext_spec h.toSound pos seq key with ⟨e, hr, he⟩ | ⟨r, q, hr, hst⟩
    · exact Or.inl ⟨e, by rw [hr, error_bind], he⟩
    · cases r with
      | none =>
          right
          rw [hr, ok_bind]
          exact ⟨false, none, q, m, rfl, Or.inr ⟨rfl, rfl⟩⟩
      | some pb =>
          obtain ⟨p, b⟩ := pb
          obtain ⟨hp, hb⟩ := hst p b rfl
          obtain ⟨r, m', hr', he⟩ := eraseSlot_spec hS h hp.1 hb (hscrub hd hpsl p b q hr)
          refine Or.inr ⟨true, r, q, m', ?_, Or.inl ⟨rfl, hd, p, hp, he⟩⟩
          rw [hr, ok_bind]
          change eraseSlot ideal m b p >>= _ = _
          rw [hr', ok_bind]
  · exact Or.inl ⟨_, rfl, Or.inr (Or.inl rfl)⟩
  · exact Or.inr ⟨false, none, seq, m, rfl, Or.inr ⟨rfl, rfl⟩⟩

end Map

end Nvhm
