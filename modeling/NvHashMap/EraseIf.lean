import NvHashMap.Lib.Sweep
import NvHashMap.Iteration

/-! # `erase_if` with a predicate that throws

`erase_if_` of `map.hpp` and of `cache.hpp`, where the predicate may throw in any of its calls.

* The loops write the states at once, but count in local variables; an exception leaves the states
  that were written and the old counters.
* `Map.eraseIfSweep_eq` and `Cache.eraseIfSweep_eq` turn the two nested loops into one sweep over the
  positions of the table.  If the predicate does not throw these are the `erase_if_` of the other
  modules (`Map.eraseIfThrowing_eq`, `Cache.eraseIfThrowing_eq`). -/

namespace Nvhm

open Buffer SlotCount Sweep

/-! ### Maps -/

namespace Map
variable {κ ν : Type} {T : MapType κ}

/-- The table and the local counters of the loop. -/
structure EraseIf (T : MapType κ) (ν : Type) where
  map : Map T ν
  numEmpty : ℤ
  numTombstone : ℤ

/-- Free a slot. -/
def EraseIf.reset (haveEmpty : Bool) (s : EraseIf T ν) (pos : ℕ) : EraseIf T ν :=
  if haveEmpty then
    { s with
      map := { s.map with states := s.map.states.set pos empty }
      numEmpty := s.numEmpty + 1 }
  else
    { s with
      map := { s.map with states := s.map.states.set pos tombstone }
      numTombstone := s.numTombstone + 1 }

/-- The table with the counters of the loop. -/
def EraseIf.full (s : EraseIf T ν) : Map T ν :=
  { s.map with numEmpty := s.numEmpty, numTombstone := s.numTombstone }

/-- The loop over the buckets. -/
def eraseIfSweep (B : BucketOps) (pred : ℕ → ℕ → Option Bool) :
    List ℕ → ℕ → EraseIf T ν → Except (EraseIf T ν) (ℕ × EraseIf T ν)
  | [], k, s => .ok (k, s)
  | off :: offs, k, s => do
      let b := s.map.bucket off
      let (k, s) ← sweep pred (EraseIf.reset (B.hasEmpty b)) ((B.hashes b).map (off + ·)) k s
      eraseIfSweep B pred offs k s

/-- `erase_if_`; if the predicate throws, the map that is left. -/
def eraseIfThrowing [Inhabited κ] [Inhabited ν] (B : BucketOps) (m : Map T ν)
    (pred : ℕ → ℕ → Option Bool) : Except (Map T ν) (Except Err (ℤ × Map T ν)) :=
  match eraseIfSweep B pred (offsets T.kernelSize m.capacity) 0
      ⟨m, m.numEmpty, m.numTombstone⟩ with
  | .error s => .error s.map
  | .ok (_, s) =>
      let numEmptied := s.numEmpty - m.numEmpty
      let numBurried := s.numTombstone - m.numTombstone
      let numErased := numEmptied + numBurried
      .ok (if numErased = 0 then .ok (numErased, s.map)
        else do
          let (_, m) ← autoShrinkAndScub B s.full numBurried
          .ok (numErased, m))

section Sweep
variable {B : BucketOps}

@[simp] theorem full_reset (b : Bool) (s : EraseIf T ν) (pos : ℕ) :
    (s.reset b pos).full = s.full.free b pos := by
  cases b <;> rfl

@[simp] theorem reset_numEmpty (b : Bool) (s : EraseIf T ν) (pos : ℕ) :
    (s.reset b pos).map.numEmpty = s.map.numEmpty := by
  cases b <;> rfl

@[simp] theorem reset_numTombstone (b : Bool) (s : EraseIf T ν) (pos : ℕ) :
    (s.reset b pos).map.numTombstone = s.map.numTombstone := by
  cases b <;> rfl

theorem reset_states (b : Bool) (s : EraseIf T ν) (pos : ℕ) :
    (s.reset b pos).map.states = s.map.states.set pos (freed b) := by
  cases b <;> rfl

/-- The slots of other buckets are not read. -/
theorem reset_bucket (b : Bool) (s : EraseIf T ν) {pos o : ℕ} (ho : T.kernelSize ∣ o)
    (hne : T.off pos ≠ o) : (s.reset b pos).map.bucket o = s.map.bucket o := by
  unfold bucket
  rw [reset_states]
  refine readAt_set_of_disjoint _ _ ?_
  by_contra hc
  obtain ⟨i, rfl⟩ : ∃ i, pos = o + i := ⟨pos - o, by omega⟩
  exact hne (MapType.off_add ho (by omega))

theorem foldl_reset (b : ℕ → Bool) : ∀ (l : List ℕ) (s : EraseIf T ν),
    (l.foldl (fun s pos => s.reset (b pos) pos) s).full =
        l.foldl (fun m pos => m.free (b pos) pos) s.full ∧
      (l.foldl (fun s pos => s.reset (b pos) pos) s).map.numEmpty = s.map.numEmpty ∧
      (l.foldl (fun s pos => s.reset (b pos) pos) s).map.numTombstone = s.map.numTombstone
  | [], _ => ⟨rfl, rfl, rfl⟩
  | pos :: l, s => by
      obtain ⟨hfull, hempty, htomb⟩ := foldl_reset b l (s.reset (b pos) pos)
      rw [List.foldl_cons, List.foldl_cons, hfull, hempty, htomb]
      simp

/-- The nested loops are one sweep over the positions of the table. -/
theorem eraseIfSweep_eq [Inhabited κ] (hB : B.Lawful T.kernelSize) {m : Map T ν} (h : Sound m)
    (pred : ℕ → ℕ → Option Bool) : ∀ (offs : List ℕ) (k : ℕ) (s : EraseIf T ν), offs.Nodup →
    (∀ o ∈ offs, T.kernelSize ∣ o ∧ o < m.capacity) →
    (∀ o ∈ offs, s.map.bucket o = m.bucket o) →
    eraseIfSweep B pred offs k s =
      sweep pred (fun s pos => s.reset (ideal.hasEmpty (m.bucket (T.off pos))) pos)
        (offs.flatMap fun o => (ideal.hashes (m.bucket o)).map (o + ·)) k s
  | [], _, _, _, _, _ => rfl
  | o :: offs, k, s, hnodup, ho, hs => by
      obtain ⟨hnot, hnodup⟩ := List.nodup_cons.mp hnodup
      obtain ⟨hd, hlt⟩ := ho o List.mem_cons_self
      have hb := h.isBucket hd hlt
      have hoff : ∀ pos ∈ (ideal.hashes (m.bucket o)).map (o + ·), T.off pos = o := by
        intro pos hpos
        obtain ⟨i, hi, rfl⟩ := List.mem_map.mp hpos
        exact MapType.off_add hd (hb.1 ▸ (mem_slots.mp hi).1)
      rw [eraseIfSweep, List.flatMap_cons, sweep_append]
      dsimp only
      rw [hs o List.mem_cons_self, hB.hashes _ hb, hB.hasEmpty _ hb,
        sweep_congr (g := fun s pos => s.reset (ideal.hasEmpty (m.bucket (T.off pos))) pos) _ _ _
          fun pos hpos s => by rw [hoff pos hpos]]
      cases hr : sweep pred (fun s pos => s.reset (ideal.hasEmpty (m.bucket (T.off pos))) pos)
        ((ideal.hashes (m.bucket o)).map (o + ·)) k s with
      | error s' => rfl
      | ok r =>
          refine eraseIfSweep_eq hB h pred offs r.1 r.2 hnodup
            (fun o' ho' => ho o' (List.mem_cons_of_mem o ho')) fun o' ho' => ?_
          refine sweep_inv (I := fun s => s.map.bucket o' = m.bucket o') _ (fun pos hpos s hI => ?_)
            (hs o' (List.mem_cons_of_mem o ho')) hr
          rw [reset_bucket _ s (ho o' (List.mem_cons_of_mem o ho')).1, hI]
          rintro rfl
          exact hnot (hoff pos hpos ▸ ho')

/-- With a predicate that does not throw the loops free what `freeIf` frees. -/
theorem eraseIfSweep_pure (p : ℕ → Bool) : ∀ (offs : List ℕ) (k : ℕ) (s : EraseIf T ν),
    ∃ k' s', eraseIfSweep B (fun _ pos => some (p pos)) offs k s = .ok (k', s') ∧
      s'.full = freeIf B p offs s.full ∧ s'.map.numEmpty = s.map.numEmpty ∧
      s'.map.numTombstone = s.map.numTombstone
  | [], k, s => ⟨k, s, rfl, rfl, rfl, rfl⟩
  | o :: offs, k, s => by
      obtain ⟨hfull, hempty, htomb⟩ := foldl_reset (fun _ => B.hasEmpty (s.map.bucket o))
        (((B.hashes (s.map.bucket o)).map (o + ·)).filter p) s
      obtain ⟨k', s', hr, hfull', hempty', htomb'⟩ := eraseIfSweep_pure p offs
        (k + ((B.hashes (s.map.bucket o)).map (o + ·)).length) _
      refine ⟨k', s', ?_, hfull'.trans ?_, hempty'.trans hempty, htomb'.trans htomb⟩
      · rw [eraseIfSweep]
        dsimp only
        rw [sweep_returns]
        exact hr
      · rw [hfull, freeIf]
        rfl

end Sweep

/-! ### What is freed -/

section Freed
variable [Inhabited κ] [Inhabited ν]

/-- Freeing slots, each with what was said about its bucket at the start. -/
theorem Exact.freedAll (b : ℕ → Bool) : ∀ {l : List ℕ} {m : Map T ν}, Exact m → l.Nodup →
    (∀ q ∈ l, m.Occupied q) → (∀ q ∈ l, b q = true ↔ m.HasEmpty (T.off q)) →
    Freed m (l.foldl (fun m pos => m.free (b pos) pos) m) l
  | [], _, h, _, _, _ => h.freed_nil
  | q :: l, m, h, hnodup, hl, hb => by
      obtain ⟨hnot, hnodup⟩ := List.nodup_cons.mp hnodup
      have hfirst := h.freed (hl q List.mem_cons_self) (hb q List.mem_cons_self)
      refine hfirst.trans (Exact.freedAll b hfirst.exact hnodup (fun p hp => ?_) fun p hp => ?_)
      · refine (hfirst.occupied_iff p).mpr ⟨hl p (List.mem_cons_of_mem q hp), fun hc => ?_⟩
        exact hnot (List.mem_singleton.mp hc ▸ hp)
      · rw [hb p (List.mem_cons_of_mem q hp)]
        exact (hfirst.hasEmpty_iff _ (T.dvd_off p)).symm

/-- What an exception should leave: a consistent map, without the entries at `l`. -/
structure AfterThrow (m m' : Map T ν) (l : List ℕ) : Prop where
  exact : Exact m'
  size_eq : m'.size = m'.entries.card
  entries_eq : m.entries = (l.map m.entryAt : Multiset (κ × ν × List Byte)) + m'.entries

variable {B : BucketOps} (hB : B.Lawful T.kernelSize) {m : Map T ν} (h : Exact m)
include hB h

/-- If the predicate throws, the map that is left has the states without the freed slots, and the
counters of before. -/
theorem Exact.eraseIf_throws {pred : ℕ → ℕ → Option Bool} {n : ℕ}
    (ht : ThrowsAt pred 0 (m.forEach B) n) : ∃ m₁,
    Freed m m₁ (taken pred 0 (m.forEach B) n) ∧ m.eraseIfThrowing B pred =
      .error { m₁ with numEmpty := m.numEmpty, numTombstone := m.numTombstone } := by
  have hpos : m.forEach B = m.positions ideal := positions_eq hB h.toSound
  rw [hpos] at ht ⊢
  set l := taken pred 0 (m.positions ideal) n with hl
  have hsub : l.Sublist (m.positions ideal) := taken_sublist pred n 0 _
  have hocc : ∀ q ∈ l, m.Occupied q := fun q hq => h.toShape.mem_positions.mp (hsub.subset hq)
  have hb : ∀ q ∈ l, ideal.hasEmpty (m.bucket (T.off q)) = true ↔ m.HasEmpty (T.off q) :=
    fun q hq => h.hasEmpty_iff (h.off_add_le (hocc q hq).1)
  refine ⟨_, h.freedAll (fun q => ideal.hasEmpty (m.bucket (T.off q)))
    (hsub.nodup h.toShape.positions_nodup) hocc hb, ?_⟩
  obtain ⟨hfull, hempty, htomb⟩ := foldl_reset (fun q => ideal.hasEmpty (m.bucket (T.off q))) l
    ⟨m, m.numEmpty, m.numTombstone⟩
  have hsweep : eraseIfSweep B pred (offsets T.kernelSize m.capacity) 0
      ⟨m, m.numEmpty, m.numTombstone⟩ =
      sweep pred (fun s pos => s.reset (ideal.hasEmpty (m.bucket (T.off pos))) pos)
        (m.positions ideal) 0 ⟨m, m.numEmpty, m.numTombstone⟩ :=
    eraseIfSweep_eq hB h.toSound pred _ 0 _ (offsets_nodup T m.capacity)
      (fun o ho => h.mem_offsets.mp ho) fun _ _ => rfl
  rw [sweep_throws ht, ← hl] at hsweep
  unfold eraseIfThrowing
  rw [hsweep]
  generalize l.foldl _ (⟨m, m.numEmpty, m.numTombstone⟩ : EraseIf T ν) = s at hfull hempty htomb
  dsimp only at hempty htomb ⊢
  have hfreed : l.foldl (fun m' pos => m'.free (ideal.hasEmpty (m.bucket (T.off pos))) pos) m =
      s.full := hfull.symm
  rw [← hempty, ← htomb, hfreed]
  rfl

/-- Without a throw it is `erase_if_`. -/
theorem Exact.eraseIfThrowing_eq (p : ℕ → Bool) :
    m.eraseIfThrowing B (fun _ pos => some (p pos)) = .ok (m.eraseIf B p) := by
  obtain ⟨k, s, hr, hfull, hempty, htomb⟩ := eraseIfSweep_pure (B := B) p
    (offsets T.kernelSize m.capacity) 0 ⟨m, m.numEmpty, m.numTombstone⟩
  have hoffs : ∀ o ∈ offsets T.kernelSize m.capacity, T.kernelSize ∣ o ∧ o < m.capacity :=
    fun o ho => h.mem_offsets.mp ho
  have hfreed : freeIf B p (offsets T.kernelSize m.capacity) m = s.full := hfull.symm
  obtain ⟨l, hf, -⟩ := freeIf_spec p _ h hoffs
  rw [← (freeIf_agree hB p _ h.toSound hoffs).1, hfreed] at hf
  have hnum := hf.numErased h
  unfold eraseIfThrowing eraseIf finishErase
  rw [hr, hfreed]
  dsimp only
  change s.numEmpty - m.numEmpty + (s.numTombstone - m.numTombstone) = l.length at hnum
  change Except.ok (if s.numEmpty - m.numEmpty + (s.numTombstone - m.numTombstone) = 0
    then _ else _) = Except.ok (if s.numEmpty - m.numEmpty + (s.numTombstone - m.numTombstone) = 0
    then _ else _)
  split_ifs with hzero
  · -- nothing was freed, so the counters of the loop are those of the table
    obtain rfl : l = [] := List.length_eq_zero_iff.mp (by omega)
    have hsame : s.full = m := by
      cases hf.frees
      rfl
    have hempty' : s.numEmpty = s.map.numEmpty := (congrArg Map.numEmpty hsame).trans hempty.symm
    have htomb' : s.numTombstone = s.map.numTombstone :=
      (congrArg Map.numTombstone hsame).trans htomb.symm
    have hmap : s.full = s.map := by
      unfold EraseIf.full
      rw [hempty', htomb']
    rw [hmap, hempty', htomb']
  · rfl

omit hB in
/-- The counters are right only if nothing was freed. -/
theorem Exact.afterThrow_iff {m₁ : Map T ν} {l : List ℕ} (hf : Freed m m₁ l) :
    AfterThrow m { m₁ with numEmpty := m.numEmpty, numTombstone := m.numTombstone } l ↔ l = [] := by
  constructor
  · intro ha
    have hnum := hf.numErased h
    have hempty : m.numEmpty = m₁.numEmpty := ha.exact.numEmpty_eq.trans hf.exact.numEmpty_eq.symm
    have htomb : m.numTombstone = m₁.numTombstone :=
      ha.exact.numTombstone_eq.trans hf.exact.numTombstone_eq.symm
    exact List.length_eq_zero_iff.mp (by omega)
  · rintro rfl
    have hsame : { m₁ with numEmpty := m.numEmpty, numTombstone := m.numTombstone } = m := by
      cases hf.frees
      rfl
    rw [hsame]
    exact ⟨h, h.size_eq, by simp⟩

end Freed

end Map

/-! ### Caches -/

namespace Cache
variable {κ ν : Type} {T : CacheType κ}

/-- The cache and the local counter of the loop. -/
structure EraseIf (T : CacheType κ) (ν : Type) where
  cache : Cache T ν
  numEmpty : ℤ

/-- Free a slot of the bucket at `off`. -/
def EraseIf.reset (off : ℕ) (s : EraseIf T ν) (idx : ℕ) : EraseIf T ν :=
  ⟨s.cache.setState (off * 2 + idx) empty, s.numEmpty + 1⟩

/-- Free the slot at a position. -/
def EraseIf.resetAt (s : EraseIf T ν) (pos : ℕ) : EraseIf T ν :=
  s.reset (T.toMapType.off pos) (pos - T.toMapType.off pos)

/-- The cache with the counter of the loop. -/
def EraseIf.full (s : EraseIf T ν) : Cache T ν := { s.cache with numEmpty := s.numEmpty }

/-- The loop over the buckets. -/
def eraseIfSweep (B : BucketOps) (pred : ℕ → ℕ → Option Bool) :
    List ℕ → ℕ → EraseIf T ν → Except (EraseIf T ν) (ℕ × EraseIf T ν)
  | [], k, s => .ok (k, s)
  | off :: offs, k, s => do
      let (k, s) ← sweep (fun k idx => pred k (off + idx)) (EraseIf.reset off)
        (B.hashes (s.cache.bucket off)) k s
      eraseIfSweep B pred offs k s

/-- `erase_if_`; if the predicate throws, the cache that is left. -/
def eraseIfThrowing (B : BucketOps) (m : Cache T ν) (pred : ℕ → ℕ → Option Bool) :
    Except (Cache T ν) (ℤ × Cache T ν) :=
  match eraseIfSweep B pred (offsets T.kernelSize m.capacity) 0 ⟨m, m.numEmpty⟩ with
  | .error s => .error s.cache
  | .ok (_, s) => .ok (s.numEmpty - m.numEmpty, s.full)

/-- Free the slot at a position of the cache. -/
def resetAt (m : Cache T ν) (pos : ℕ) : Cache T ν :=
  m.resetSlot (T.toMapType.off pos * 2 + (pos - T.toMapType.off pos))

section Sweep
variable {B : BucketOps}

theorem resetAt_add (s : EraseIf T ν) {o i : ℕ} (hd : T.kernelSize ∣ o) (hi : i < T.kernelSize) :
    s.resetAt (o + i) = s.reset o i := by
  unfold EraseIf.resetAt
  rw [MapType.off_add (T := T.toMapType) hd hi, Nat.add_sub_cancel_left]

/-- The slots of other buckets are not read. -/
theorem reset_bucket (s : EraseIf T ν) {pos o : ℕ} (ho : T.kernelSize ∣ o)
    (hne : T.toMapType.off pos ≠ o) : (s.resetAt pos).cache.bucket o = s.cache.bucket o := by
  have hlt : pos < T.toMapType.off pos + T.kernelSize := T.toMapType.lt_off_add pos
  refine readAt_set_of_disjoint _ _ ?_
  rcases Nat.lt_or_gt_of_ne hne with hless | hgreater
  · have hK : T.kernelSize ≤ o - T.toMapType.off pos :=
      Nat.le_of_dvd (Nat.sub_pos_of_lt hless) (Nat.dvd_sub ho (T.toMapType.dvd_off pos))
    omega
  · have hK : T.kernelSize ≤ T.toMapType.off pos - o :=
      Nat.le_of_dvd (Nat.sub_pos_of_lt hgreater) (Nat.dvd_sub (T.toMapType.dvd_off pos) ho)
    omega

theorem foldl_resetAt : ∀ (l : List ℕ) (s : EraseIf T ν),
    (l.foldl EraseIf.resetAt s).full = l.foldl resetAt s.full ∧
      (l.foldl EraseIf.resetAt s).cache.numEmpty = s.cache.numEmpty
  | [], _ => ⟨rfl, rfl⟩
  | pos :: l, s => foldl_resetAt l (s.resetAt pos)

/-- The nested loops are one sweep over the positions of the table. -/
theorem eraseIfSweep_eq [Inhabited κ] (hB : B.Lawful T.kernelSize) {m : Cache T ν} (h : Inv m)
    (pred : ℕ → ℕ → Option Bool) : ∀ (offs : List ℕ) (k : ℕ) (s : EraseIf T ν), offs.Nodup →
    (∀ o ∈ offs, T.kernelSize ∣ o ∧ o < m.capacity) →
    (∀ o ∈ offs, s.cache.bucket o = m.bucket o) →
    eraseIfSweep B pred offs k s =
      sweep pred EraseIf.resetAt
        (offs.flatMap fun o => (ideal.hashes (m.bucket o)).map (o + ·)) k s
  | [], _, _, _, _, _ => rfl
  | o :: offs, k, s, hnodup, ho, hs => by
      obtain ⟨hnot, hnodup⟩ := List.nodup_cons.mp hnodup
      obtain ⟨hd, hlt⟩ := ho o List.mem_cons_self
      have hlt' : ∀ i ∈ ideal.hashes (m.bucket o), i < T.kernelSize := fun i hi =>
        ((h.mem_hashes hd hlt).mp hi).1
      rw [eraseIfSweep, List.flatMap_cons, sweep_append, ← sweep_map, hs o List.mem_cons_self,
        hB.hashes _ (h.isBucket hd hlt), sweep_congr (g := fun s i => s.resetAt (o + i)) _ _ _
          fun i hi s => (resetAt_add s hd (hlt' i hi)).symm]
      cases hr : sweep (fun k i => pred k (o + i)) (fun s i => EraseIf.resetAt s (o + i))
        (ideal.hashes (m.bucket o)) k s with
      | error s' => rfl
      | ok r =>
          refine eraseIfSweep_eq hB h pred offs r.1 r.2 hnodup
            (fun o' ho' => ho o' (List.mem_cons_of_mem o ho')) fun o' ho' => ?_
          refine sweep_inv (I := fun s => s.cache.bucket o' = m.bucket o') _
            (fun i hi s hI => ?_) (hs o' (List.mem_cons_of_mem o ho')) hr
          rw [reset_bucket s (ho o' (List.mem_cons_of_mem o ho')).1, hI]
          rw [MapType.off_add (T := T.toMapType) hd (hlt' i hi)]
          rintro rfl
          exact hnot ho'

/-- With a predicate that does not throw the loops free what `eraseIfLoop` frees. -/
theorem eraseIfSweep_pure (p : ℕ → Bool) : ∀ (offs : List ℕ) (k : ℕ) (s : EraseIf T ν),
    ∃ k' s', eraseIfSweep B (fun _ pos => some (p pos)) offs k s = .ok (k', s') ∧
      s'.full = eraseIfLoop B p offs s.full
  | [], k, s => ⟨k, s, rfl, rfl⟩
  | o :: offs, k, s => by
      have hfull : ∀ (l : List ℕ) (s : EraseIf T ν),
          (l.foldl (EraseIf.reset o) s).full = s.full.resetSlots o l := by
        intro l
        induction l with
        | nil => exact fun _ => rfl
        | cons i l ih => exact fun s => ih (s.reset o i)
      obtain ⟨k', s', hr, hfull'⟩ := eraseIfSweep_pure p offs
        (k + (B.hashes (s.cache.bucket o)).length)
        (((B.hashes (s.cache.bucket o)).filter fun i => p (o + i)).foldl (EraseIf.reset o) s)
      refine ⟨k', s', ?_, hfull'.trans ?_⟩
      · rw [eraseIfSweep, sweep_returns]
        exact hr
      · rw [hfull, eraseIfLoop]
        rfl

/-- Without a throw it is `erase_if_`. -/
theorem eraseIfThrowing_eq (B : BucketOps) (m : Cache T ν) (p : ℕ → Bool) :
    m.eraseIfThrowing B (fun _ pos => some (p pos)) = .ok (m.eraseIf B p) := by
  obtain ⟨k, s, hr, hfull⟩ := eraseIfSweep_pure (B := B) p (offsets T.kernelSize m.capacity) 0
    ⟨m, m.numEmpty⟩
  have hfreed : eraseIfLoop B p (offsets T.kernelSize m.capacity) m = s.full := hfull.symm
  unfold eraseIfThrowing eraseIf
  rw [hr, hfreed]
  rfl

end Sweep

/-! ### What is freed -/

section Freed
variable [Inhabited κ] [Inhabited ν]

/-- Freeing slots, and the entries that are left. -/
theorem Inv.freedAll : ∀ {l : List ℕ} {m : Cache T ν}, Inv m → l.Nodup →
    (∀ q ∈ l, m.table.Occupied q) → Freed m (l.foldl resetAt m) l ∧
      m.table.entries = (l.map m.table.entryAt : Multiset (κ × ν × List Byte)) +
        (l.foldl resetAt m).table.entries
  | [], m, h, _, _ => ⟨h.freed_nil, by simp⟩
  | q :: l, m, h, hnodup, hl => by
      obtain ⟨hnot, hnodup⟩ := List.nodup_cons.mp hnodup
      have hq := hl q List.mem_cons_self
      have hlt := T.toMapType.lt_off_add q
      have hle := T.toMapType.off_le q
      have hs : m.IsSlot (T.toMapType.off q) (q - T.toMapType.off q) :=
        ⟨T.toMapType.dvd_off q, lt_of_le_of_lt hle hq.1, by
          change q < T.toMapType.off q + T.kernelSize at hlt
          omega⟩
      have hpos : T.toMapType.off q + (q - T.toMapType.off q) = q := by omega
      have hfirst : Freed m (m.resetAt q) [q] := by
        have hf := h.freed hs (hpos.symm ▸ hq)
        rwa [hpos] at hf
      have htable : (m.resetAt q).table = m.table.free true q := by
        have ht := (h.shape.resetSlot hs).2
        rwa [hpos] at ht
      obtain ⟨hrest, hentries⟩ := Inv.freedAll (l := l) hfirst.inv hnodup fun p hp => by
        refine (hfirst.occupied p).mpr ⟨hl p (List.mem_cons_of_mem q hp), fun hc => ?_⟩
        exact hnot (List.mem_singleton.mp hc ▸ hp)
      refine ⟨hfirst.trans hrest, ?_⟩
      rw [Map.entries_free h.sound.toShape hq true, ← htable, hentries, htable,
        Map.free_entryAt]
      rfl

/-- What an exception should leave: a consistent cache, without the entries at `l`. -/
structure AfterThrow (m m' : Cache T ν) (l : List ℕ) : Prop where
  inv : Inv m'
  size_eq : m'.size = m'.table.entries.card
  entries_eq : m.table.entries =
    (l.map m.table.entryAt : Multiset (κ × ν × List Byte)) + m'.table.entries

omit [Inhabited ν] in
/-- If the predicate throws, the cache that is left has the states without the freed slots, and the
counter of before. -/
theorem Inv.eraseIf_throws {B : BucketOps} (hB : B.Lawful T.kernelSize) {m : Cache T ν} (h : Inv m)
    {pred : ℕ → ℕ → Option Bool} {n : ℕ} (ht : ThrowsAt pred 0 (m.forEach B) n) :
    m.eraseIfThrowing B pred =
      .error { (taken pred 0 (m.forEach B) n).foldl resetAt m with numEmpty := m.numEmpty } := by
  have hpos : m.forEach B = m.positions ideal := positions_eq hB h
  rw [hpos] at ht ⊢
  set l := taken pred 0 (m.positions ideal) n with hl
  obtain ⟨hfull, hempty⟩ := foldl_resetAt l ⟨m, m.numEmpty⟩
  have hsweep : eraseIfSweep B pred (offsets T.kernelSize m.capacity) 0 ⟨m, m.numEmpty⟩ =
      sweep pred EraseIf.resetAt (m.positions ideal) 0 ⟨m, m.numEmpty⟩ :=
    eraseIfSweep_eq hB h pred _ 0 _ (Map.offsets_nodup T.toMapType m.capacity)
      (fun o ho => h.sound.mem_offsets.mp ho) fun _ _ => rfl
  rw [sweep_throws ht, ← hl] at hsweep
  unfold eraseIfThrowing
  rw [hsweep]
  generalize l.foldl _ (⟨m, m.numEmpty⟩ : EraseIf T ν) = s at hfull hempty
  dsimp only at hempty ⊢
  have hfreed : l.foldl resetAt m = s.full := hfull.symm
  rw [← hempty, hfreed]
  rfl

/-- The counter is right only if nothing was freed. -/
theorem Inv.afterThrow_iff {m : Cache T ν} (h : Inv m) {l : List ℕ}
    (hl : l.Sublist (m.positions ideal)) :
    AfterThrow m { l.foldl resetAt m with numEmpty := m.numEmpty } l ↔ l = [] := by
  have hpos := h.positions_table
  rw [hpos] at hl
  have hf := (h.freedAll (hl.nodup h.sound.positions_nodup) fun q hq =>
    h.sound.mem_positions.mp (hl.subset hq)).1
  constructor
  · intro ha
    have hempty : m.numEmpty = (l.foldl resetAt m).numEmpty :=
      ha.inv.numEmpty_eq.trans hf.inv.numEmpty_eq.symm
    have hnum := hf.numEmpty
    exact List.length_eq_zero_iff.mp (by omega)
  · rintro rfl
    refine ⟨h, ?_, by simp⟩
    change m.size = _
    rw [h.size_eq_length, hpos, List.foldl_nil]
    exact congrArg Nat.cast (by rw [h.sound.entries_eq, Multiset.coe_card, List.length_map])

end Freed

end Cache

/-! ### Main result -/

section Main
variable {κ ν : Type} [Inhabited κ] [Inhabited ν]
  {T : MapType κ} (B : Kernel T.kernelSize) (conf : Conf T.conf)
  {C : CacheType κ} (B' : Kernel C.kernelSize) (conf' : Conf C.conf)

/-- `erase_if` on a reached map and on a reached cache, with a predicate that throws behind its first
`n` calls: it leaves a consistent container without the entries for which the predicate returned
true if and only if it returned true for none. -/
theorem erase_if_throws_iff {P : Map T ν → Map.Op κ ν → Prop} {m : Map T ν}
    (hm : (Map.runs B conf P).Reachable m) {c : Cache C ν}
    (hc : (Cache.runs B' conf').Reachable c) (pred : ℕ → ℕ → Option Bool) (n : ℕ) :
    (ThrowsAt pred 0 (m.forEach B.ops) n → ∃ m', m.eraseIfThrowing B.ops pred = .error m' ∧
      (Map.AfterThrow m m' (taken pred 0 (m.forEach B.ops) n) ↔
        ∀ i < n, ∀ pos, (m.forEach B.ops)[i]? = some pos → pred i pos = some false)) ∧
    (ThrowsAt pred 0 (c.forEach B'.ops) n → ∃ c', c.eraseIfThrowing B'.ops pred = .error c' ∧
      (Cache.AfterThrow c c' (taken pred 0 (c.forEach B'.ops) n) ↔
        ∀ i < n, ∀ pos, (c.forEach B'.ops)[i]? = some pos → pred i pos = some false)) := by
  obtain ⟨h, -⟩ := Map.exact_of_reachable B conf hm
  have h' := Cache.inv_of_reachable B' conf' hc
  constructor
  · intro ht
    obtain ⟨m₁, hf, hr⟩ := h.eraseIf_throws B.lawful ht
    refine ⟨_, hr, (h.afterThrow_iff hf).trans ((taken_eq_nil ht).trans ?_)⟩
    simp only [Nat.zero_add]
  · intro ht
    have hsub := taken_sublist pred n 0 (c.forEach B'.ops)
    rw [Cache.forEach, Cache.positions_eq B'.lawful h'] at hsub
    refine ⟨_, h'.eraseIf_throws B'.lawful ht, ?_⟩
    rw [Cache.forEach, Cache.positions_eq B'.lawful h'] at ht ⊢
    refine (h'.afterThrow_iff hsub).trans ((taken_eq_nil ht).trans ?_)
    simp only [Nat.zero_add]

end Main

/-- A predicate that returns true once and then throws. -/
def onceThenThrow (k : ℕ) (_ : ℕ) : Option Bool := if k = 0 then some true else none

/-- Two entries: the first one is erased, but both are still counted. -/
theorem erase_if_miscounts :
    (∃ rs m m', Map.wordExec 1 false [.insert 0, .insert 1] = .ok (rs, m) ∧
      m.eraseIfThrowing (Map.wordKernel 1 false).ops onceThenThrow = .error m' ∧
      m'.size = 2 ∧ m'.entries.card = 1) ∧
    ∃ rs c c', Cache.wordExec 1 false [.insert 0, .insert 1] = .ok (rs, c) ∧
      c.eraseIfThrowing (Map.wordKernel 1 false).ops onceThenThrow = .error c' ∧
      c'.size = 2 ∧ c'.table.entries.card = 1 := by
  have hB := (Map.wordKernel 1 false).lawful
  have ht : ThrowsAt onceThenThrow 0 [0, 2] 1 := by
    refine ⟨fun i hi _ _ hnone => ?_, 2, rfl, rfl⟩
    obtain rfl : i = 0 := by omega
    cases hnone
  constructor
  · obtain ⟨rs, m, hr, hsound, hf⟩ := Map.exists_wordExec 1 false [.insert 0, .insert 1]
      (fun r => (r.2.positions ideal, r.2.size)) ([0, 2], 2) (by decide +kernel)
    obtain ⟨hpos, hsize⟩ := Prod.mk.inj hf
    obtain ⟨h, -⟩ := Map.exact_of_reachable (Map.wordKernel 1 false) (Map.wordConf 1 false)
      (Map.reachable_of_wordExec 1 false (by simp [Map.Op.isScrub]) hr)
    have hfor : m.forEach (Map.wordKernel 1 false).ops = [0, 2] :=
      (Map.positions_eq hB hsound).trans hpos
    obtain ⟨m₁, hfreed, herr⟩ := h.eraseIf_throws hB (hfor.symm ▸ ht)
    refine ⟨rs, m, _, hr, herr, ?_, ?_⟩
    · change (m₁.capacity : ℤ) - (m.numEmpty + m.numTombstone) = 2
      rw [hfreed.frame.capacity]
      exact hsize
    · have hcard := h.size_eq
      rw [hfreed.entries_eq, hfor, hsize] at hcard
      change (2 : ℤ) = ((([m.entryAt 0] : Multiset _) + m₁.entries).card : ℕ) at hcard
      rw [Multiset.card_add, Multiset.coe_card, List.length_singleton] at hcard
      have hone : m₁.entries.card = 1 := by omega
      exact hone
  · obtain ⟨rs, c, hr, hinv, hf⟩ := Cache.exists_wordExec 1 false [.insert 0, .insert 1]
      (fun r => (r.2.positions ideal, r.2.size)) ([0, 2], 2) (by decide +kernel)
    obtain ⟨hpos, hsize⟩ := Prod.mk.inj hf
    have hfor : c.forEach (Map.wordKernel 1 false).ops = [0, 2] :=
      (Cache.positions_eq (T := Cache.wordCache 1 false) hB hinv).trans hpos
    have herr := hinv.eraseIf_throws hB (hfor.symm ▸ ht)
    rw [hfor] at herr
    change c.eraseIfThrowing _ _ = .error { c.resetAt 0 with numEmpty := c.numEmpty } at herr
    have hocc : c.table.Occupied 0 := by
      have hmem := hinv.sound.mem_positions (p := 0)
      rw [← hinv.positions_table, show c.positions ideal = [0, 2] from hpos] at hmem
      exact hmem.mp List.mem_cons_self
    obtain ⟨-, hentries⟩ := hinv.freedAll (l := [0]) (List.nodup_singleton 0) fun q hq =>
      List.mem_singleton.mp hq ▸ hocc
    refine ⟨rs, c, _, hr, herr, hsize, ?_⟩
    have hcard : c.table.entries.card = 2 := by
      rw [hinv.sound.entries_eq, Multiset.coe_card, List.length_map, ← hinv.positions_table,
        show c.positions ideal = [0, 2] from hpos]
      rfl
    rw [hentries, Multiset.card_add, Multiset.coe_card, List.length_map,
      List.length_singleton] at hcard
    have hone : (c.resetAt 0).table.entries.card = 1 := by
      change ([0].foldl Cache.resetAt c).table.entries.card = 1
      omega
    exact hone

/-- The predicate throws in its third call, and returns false before. -/
theorem erase_if_throws_words :
    (∃ rs m m', Map.wordExec 1 false [.insert 0, .insert 1, .insert 2] = .ok (rs, m) ∧
      m.eraseIfThrowing (Map.wordKernel 1 false).ops
        (fun k _ => if k < 2 then some false else none) = .error m' ∧
      Map.AfterThrow m m' []) ∧
    ∃ rs c c', Cache.wordExec 1 false [.insert 0, .insert 1, .insert 2] = .ok (rs, c) ∧
      c.eraseIfThrowing (Map.wordKernel 1 false).ops
        (fun k _ => if k < 2 then some false else none) = .error c' ∧
      Cache.AfterThrow c c' [] := by
  obtain ⟨rs, m, hr, hsound, hm⟩ := Map.exists_wordExec 1 false [.insert 0, .insert 1, .insert 2]
    (fun r => r.2.positions ideal) [0, 2, 4] (by decide +kernel)
  obtain ⟨rs', c, hr', hinv, hc⟩ := Cache.exists_wordExec 1 false
    [.insert 0, .insert 1, .insert 2] (fun r => r.2.positions ideal) [0, 2, 4] (by decide +kernel)
  obtain ⟨hmap, hcache⟩ := erase_if_throws_iff (Map.wordKernel 1 false) (Map.wordConf 1 false)
    (C := Cache.wordCache 1 false) (Map.wordKernel 1 false) (Map.wordConf 1 false)
    (Map.reachable_of_wordExec 1 false (by simp [Map.Op.isScrub]) hr)
    (Cache.reachable_of_exec (T := Cache.wordCache 1 false) (Map.wordKernel 1 false)
      (Map.wordConf 1 false) hr') (fun k _ => if k < 2 then some false else none) 2
  have hfor : m.forEach (Map.wordKernel 1 false).ops = [0, 2, 4] :=
    (Map.positions_eq (Map.wordKernel 1 false).lawful hsound).trans hm
  have hfor' : c.forEach (Map.wordKernel 1 false).ops = [0, 2, 4] :=
    (Cache.positions_eq (T := Cache.wordCache 1 false) (Map.wordKernel 1 false).lawful hinv).trans
      hc
  have ht : ThrowsAt (fun k (_ : ℕ) => if k < 2 then some false else none) 0 [0, 2, 4] 2 := by
    refine ⟨fun i hi a _ => ?_, 4, rfl, rfl⟩
    rw [Nat.zero_add, if_pos hi]
    decide
  rw [hfor] at hmap
  rw [hfor'] at hcache
  obtain ⟨m', herr, hiff⟩ := hmap ht
  obtain ⟨c', herr', hiff'⟩ := hcache ht
  exact ⟨⟨rs, m, m', hr, herr, hiff.mpr fun i hi _ _ => if_pos hi⟩, rs', c, c', hr', herr',
    hiff'.mpr fun i hi _ _ => if_pos hi⟩

end Nvhm
