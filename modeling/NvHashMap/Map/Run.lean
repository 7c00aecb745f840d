import NvHashMap.Lib.Transition
import NvHashMap.Kernel.ArrayKernel
import NvHashMap.Map.Transport

/-! # Runs

`Outcome` says what a call returns and what it does to the entries; `Op.Rejects` lists the errors
that it can end in instead.  `step_spec` is the step lemma: it holds for every call on a map with
the invariant, as long as the table that the call scrubs, if it scrubs one (`scrubArg`), comes out
of the scrub with its entries.  The lemma for runs follows: in a run that scrubs no table, or only
such tables, every state has the invariant. -/

namespace Nvhm

open Buffer SlotCount

variable {κ ν : Type} {T : MapType κ} [Inhabited κ] [Inhabited ν]

namespace Map

/-! ### Visiting the entries of a key -/

/-- The slots of the bucket at step `j` that store `key`, with their sequence. -/
def matchesAt (m : Map T ν) (key : κ) (j : ℕ) : List (ℕ × ProbeSeq) :=
  ((ideal.hits (m.bucket (m.visit key j)) (keyState T key)).filter
    fun i => T.key.eq (m.keyAt (m.visit key j + i)) key).map
      fun i => (m.visit key j + i, seqAt T key j)

/-- The slots that store `key` in the first `j` buckets. -/
def matchesUpTo (m : Map T ν) (key : κ) (j : ℕ) : List (ℕ × ProbeSeq) :=
  (List.range j).flatMap (m.matchesAt key)

omit [Inhabited ν] in
theorem matchesUpTo_succ (m : Map T ν) (key : κ) (j : ℕ) :
    m.matchesUpTo key (j + 1) = m.matchesUpTo key j ++ m.matchesAt key j := by
  simp [matchesUpTo, List.range_succ, List.flatMap_append]

section Visit
variable {m : Map T ν}

omit [Inhabited ν] in
theorem Sound.mem_matchesAt (h : Sound m) {key : κ} {j : ℕ} {p : ℕ} {q : ProbeSeq} :
    (p, q) ∈ m.matchesAt key j ↔
      m.Stores key p ∧ T.off p = m.visit key j ∧ q = seqAt T key j := by
  have ho := h.visit_add_le key j
  have hd := h.dvd_visit key j
  rw [matchesAt, List.mem_map]
  constructor
  · rintro ⟨i, hi, hpq⟩
    obtain ⟨rfl, rfl⟩ := Prod.mk.inj hpq
    obtain ⟨hik, hs⟩ := (h.mem_matches ho key).mp hi
    exact ⟨hs, MapType.off_add hd hik, rfl⟩
  · rintro ⟨hs, hoff, rfl⟩
    obtain ⟨i, hi, rfl⟩ := MapType.exists_add_of_off_eq hoff
    exact ⟨i, (h.mem_matches ho key).mpr ⟨hi, hs⟩, rfl⟩

omit [Inhabited ν] in
theorem Sound.mem_matchesUpTo (h : Sound m) {key : κ} {j p : ℕ} :
    p ∈ (m.matchesUpTo key j).map Prod.fst ↔
      m.Stores key p ∧ ∃ i < j, m.visit key i = T.off p := by
  simp only [List.mem_map, matchesUpTo, List.mem_flatMap, List.mem_range]
  constructor
  · rintro ⟨⟨p, q⟩, ⟨i, hi, hpq⟩, rfl⟩
    obtain ⟨hs, hoff, -⟩ := h.mem_matchesAt.mp hpq
    exact ⟨hs, i, hi, hoff.symm⟩
  · rintro ⟨hs, i, hi, hv⟩
    exact ⟨(p, seqAt T key i), ⟨i, hi, h.mem_matchesAt.mpr ⟨hs, hv.symm, rfl⟩⟩, rfl⟩

omit [Inhabited ν] in
theorem Sound.matchesUpTo_nodup (h : Sound m) (key : κ) {j : ℕ} (hj : j ≤ m.numBuckets) :
    ((m.matchesUpTo key j).map Prod.fst).Nodup := by
  rw [matchesUpTo, List.map_flatMap]
  refine List.nodup_flatMap.mpr ⟨fun i _ => ?_, ?_⟩
  · rw [matchesAt, List.map_map]
    exact List.Nodup.map (fun _ _ he => Nat.add_left_cancel he) ((slots_nodup _ _).filter _)
  · refine List.Pairwise.imp_of_mem ?_ List.nodup_range
    intro a b ha hb hab p hpa hpb
    rw [List.mem_range] at ha hb
    obtain ⟨⟨_, qa⟩, hpqa, rfl⟩ := List.mem_map.mp hpa
    obtain ⟨⟨_, qb⟩, hpqb, rfl⟩ := List.mem_map.mp hpb
    obtain ⟨-, hoa, -⟩ := h.mem_matchesAt.mp hpqa
    obtain ⟨-, hob, -⟩ := h.mem_matchesAt.mp hpqb
    exact hab (h.visit_inj (by omega) (by omega) (hoa.symm.trans hob))

/-- What `for_each_(key)` visits, when it stops at step `j`. -/
structure Visited (m : Map T ν) (key : κ) (l : List (ℕ × ProbeSeq)) (j : ℕ) : Prop where
  lt : j < m.numBuckets
  full : m.FullUpTo key j
  eq : l = m.matchesUpTo key (j + 1)
  stop : m.HasEmpty (m.visit key j) ∨ T.duplicates = false ∧ l ≠ []

variable (hS : T.seq.isUnbounded = true) (h : Inv m)
include h

omit [Inhabited ν] in
/-- A key without duplicates has at most one slot. -/
theorem Inv.matchesUpTo_le_one (hd : T.duplicates = false) {key : κ} {j : ℕ}
    (hj : j ≤ m.numBuckets) : (m.matchesUpTo key j).length ≤ 1 := by
  have hn := h.matchesUpTo_nodup key hj
  rw [← List.length_map (f := Prod.fst)]
  by_contra hlt
  have h0 : 0 < ((m.matchesUpTo key j).map Prod.fst).length := by omega
  have h1 : 1 < ((m.matchesUpTo key j).map Prod.fst).length := by omega
  have hs0 := (h.mem_matchesUpTo.mp (List.getElem_mem h0)).1
  have hs1 := (h.mem_matchesUpTo.mp (List.getElem_mem h1)).1
  have heq := h.unique hd _ _ hs0.1 hs1.1 (T.key.eq_trans hs0.2 (T.key.eq_symm hs1.2))
  exact absurd ((List.Nodup.getElem_inj_iff hn).mp heq) (by decide)

omit [Inhabited ν] in
include hS in
theorem forEachKey_spec (key : κ) : ∃ l j, m.forEachKey ideal key = .ok l ∧ Visited m key l j := by
  obtain ⟨e, he, hemp⟩ := h.exists_empty
  suffices hspec : ∃ l, m.forEachKey ideal key = .ok l ∧ ∃ j, Visited m key l j by
    obtain ⟨l, hr, j, hv⟩ := hspec
    exact ⟨l, j, hr, hv⟩
  refine probe_spec h.toShape hS (fun j acc => m.FullUpTo key j ∧ acc = m.matchesUpTo key j ∧
    (T.duplicates = false → acc = [])) _
    ⟨fun _ hi => absurd hi (Nat.not_lt_zero _), rfl, fun _ => rfl⟩ ?_
    fun _ hI => h.not_all_full he hemp key hI.1
  rintro j acc hj ⟨hfull, rfl, hacc⟩
  have ho := h.visit_add_le key j
  have hsucc := m.matchesUpTo_succ key j
  dsimp only
  rw [← matchesAt]
  cases hd : T.duplicates with
  | true =>
      rw [if_pos rfl]
      split_ifs with hb
      · exact ⟨j, hj, hfull, hsucc.symm, Or.inl ((h.hasEmpty_iff ho).mp hb)⟩
      · exact ⟨hfull.succ fun hc => hb ((h.hasEmpty_iff ho).mpr hc), hsucc.symm,
          fun hd' => by cases hd'⟩
  | false =>
      have hone : (m.matchesUpTo key (j + 1)).length ≤ 1 := h.matchesUpTo_le_one hd hj
      rw [hsucc, hacc hd, List.nil_append] at hone
      rw [hacc hd] at hsucc ⊢
      rw [if_neg Bool.false_ne_true]
      cases hl : m.matchesAt key j with
      | cons p l =>
          rw [hl] at hone hsucc
          obtain rfl : l = [] := List.length_eq_zero_iff.mp (by simpa using hone)
          exact ⟨j, hj, hfull, hsucc.symm, Or.inr ⟨hd, by simp⟩⟩
      | nil =>
          rw [hl] at hsucc
          dsimp only
          split_ifs with hb
          · exact ⟨j, hj, hfull, hsucc.symm, Or.inl ((h.hasEmpty_iff ho).mp hb)⟩
          · exact ⟨hfull.succ fun hc => hb ((h.hasEmpty_iff ho).mpr hc), hsucc.symm,
              fun _ => rfl⟩

omit [Inhabited ν] in
/-- `for_each_(key)` visits the slots of the key, each once. -/
theorem Visited.mem_iff {key : κ} {l : List (ℕ × ProbeSeq)} {j : ℕ} (hv : Visited m key l j)
    (p : ℕ) : p ∈ l.map Prod.fst ↔ m.Stores key p := by
  rw [hv.eq, h.mem_matchesUpTo]
  refine ⟨fun hp => hp.1, fun hp => ⟨hp, ?_⟩⟩
  rcases hv.stop with he | ⟨hd, hne⟩
  · obtain ⟨i, hi, hvi⟩ := h.visit_of_stores he hp
    exact ⟨i, by omega, hvi⟩
  · obtain ⟨⟨p', q'⟩, hmem⟩ := List.exists_mem_of_ne_nil l hne
    have hp' := h.mem_matchesUpTo.mp (hv.eq ▸ List.mem_map_of_mem (f := Prod.fst) hmem)
    obtain rfl := h.unique hd p p' hp.1 hp'.1.1 (T.key.eq_trans hp.2 (T.key.eq_symm hp'.1.2))
    exact hp'.2

omit [Inhabited ν] in
theorem Visited.nodup {key : κ} {l : List (ℕ × ProbeSeq)} {j : ℕ} (hv : Visited m key l j) :
    (l.map Prod.fst).Nodup := by
  rw [hv.eq]
  exact h.matchesUpTo_nodup key hv.lt

end Visit

/-! ### Capacity -/

section Capacity
variable (hS : T.seq.isUnbounded = true) {m : Map T ν} (h : Inv m)
include hS h

/-- A function that rehashes keeps the entries, or it fails because the table is crowded. -/
theorem resizeTo_spec {n : ℕ} (hn : n ≤ m.conf.minCapacity ∨ IsCapacity n) :
    (m.resize_ ideal n = .error .overflow ∧ m.Crowded) ∨
      ∃ r, m.resize_ ideal n = .ok r ∧ Tidied m r.2 := by
  rcases resize_spec hS h hn with hr | ⟨n', m', hr, hres⟩
  · exact Or.inl hr
  · exact Or.inr ⟨_, hr, hres.tidied⟩

theorem grow_spec : (m.grow ideal = .error .overflow ∧ 2 ^ 62 < 2 * m.capacity) ∨
    ∃ r, m.grow ideal = .ok r ∧ Tidied m r.2 := by
  rw [grow]
  cases hn : shl1 m.capacity with
  | error e =>
      obtain ⟨rfl, hlt⟩ := shl1_error hn
      exact Or.inl ⟨rfl, hlt⟩
  | ok n =>
      obtain ⟨-, hle⟩ := shl1_ok hn
      rcases resizeTo_spec hS h (Or.inr (isCapacity_shl1 h.isCapacity hn).1) with ⟨-, hc⟩ | hr
      · have := h.exact.card_entries_lt
        exact absurd hc (h.exact.not_crowded (by omega))
      · exact Or.inr hr

theorem resizeCall_spec (n : ℤ) :
    (m.resize ideal n = .error .overflow ∧ (n < 0 ∨ 2 ^ 62 < n ∨ m.Crowded)) ∨
      ∃ r, m.resize ideal n = .ok r ∧ Tidied m r.2 := by
  rw [resize]
  cases hn : bitCeil n with
  | error e =>
      obtain ⟨rfl, hlt⟩ := bitCeil_error hn
      exact Or.inl ⟨rfl, hlt.imp_right Or.inl⟩
  | ok c =>
      rcases resizeTo_spec hS h (Or.inr ((isCapacity_bitCeil hn).max m.conf.min_isCapacity)) with
        ⟨hr, hc⟩ | hr
      · exact Or.inl ⟨hr, Or.inr (Or.inr hc)⟩
      · exact Or.inr hr

theorem reserve_spec (n : ℤ) : (m.reserve ideal n = .error .overflow ∧ 2 ^ 62 < n) ∨
    ∃ r, m.reserve ideal n = .ok r ∧ Tidied m r.2 := by
  rw [reserve]
  split_ifs with hle
  · exact Or.inr ⟨_, rfl, h.tidied⟩
  · rcases resizeCall_spec hS h n with ⟨hr, hc⟩ | hr
    · refine Or.inl ⟨hr, ?_⟩
      -- the table is smaller than the requested capacity, so it is not crowded
      by_contra hn
      obtain ⟨a, ha, hcap⟩ := h.isCapacity
      have hlt : a < 62 := by
        refine lt_of_le_of_ne ha fun hc => ?_
        rw [hcap, hc] at hle
        omega
      have hpow := PowTwo.pow_le_pow (Nat.succ_le_of_lt hlt)
      rw [pow_succ] at hpow
      have hcard := h.exact.card_entries_lt
      rcases hc with hc | hc | hc
      · omega
      · exact hn hc
      · exact h.exact.not_crowded (by omega) hc
    · exact Or.inr hr

/-- `shrink` finds a capacity for the entries. -/
theorem shrink_spec : ∃ r, m.shrink ideal = .ok r ∧ Tidied m r.2 := by
  have hsize : bitCeil m.size = .ok (PowTwo.ceilPow m.entries.card) := by
    have := h.exact.card_entries_lt
    have := h.capacity_le
    rw [h.size_eq]
    exact bitCeil_eq (by omega)
  have hn : m.shrinkTarget = .ok (shrinkTargetLoop m
      (max (PowTwo.ceilPow m.entries.card) m.conf.minCapacity) 64 m.capacity) := by
    rw [shrinkTarget, hsize]
    rfl
  rw [shrink, hn, ok_bind]
  split_ifs with hsame
  · exact ⟨_, rfl, h.tidied⟩
  · rcases resizeTo_spec hS h (Or.inr (shrinkTarget_isCapacity h.toSound hn)) with ⟨-, hc⟩ | hr
    · -- the loop halves the capacity if the table is to shrink, else it returns it
      refine absurd hc (h.exact.not_crowded_of_shouldShrink ?_)
      by_contra hs
      refine hsame ?_
      rw [shrinkTargetLoop, if_neg hs, ite_self]
    · exact hr

end Capacity

/-! ### What a call scrubs -/

/-- The table, if `auto_shrink_and_scub_` would scrub it. -/
def onScrub (m : Map T ν) (numBurried : ℤ) : Option (Map T ν) :=
  if m.wouldScrub numBurried then some m else none

/-- The table after a search, if freeing the slot that was found ends in a scrub. -/
def onFree (m : Map T ν) : Except Err (Option (ℕ × Bool) × ProbeSeq) → Option (Map T ν)
  | .ok (some (p, b), _) => (m.free b p).onScrub (burried b)
  | _ => none

/-- The table that a call passes to `scrub_`, if it does. -/
def scrubArg (B : BucketOps) (m : Map T ν) : Op κ ν → Option (Map T ν)
  | .scrub => some m
  | .eraseFirst key => m.onFree (m.locateFirst B key)
  | .eraseNext pos seq key =>
      if T.duplicates ∧ alignPos seq.psl m.bucketMask = seq.psl then
        m.onFree (m.locateNext B pos seq key)
      else none
  | .eraseAt pos =>
      if pos < m.capacity ∧ m.containsAt pos then
        let b := B.hasEmpty (m.bucket (alignPos pos (notMask (T.kernelSize - 1))))
        (m.free b pos).onScrub (burried b)
      else none
  | .eraseIf pred =>
      let m' := freeIf B pred (offsets T.kernelSize m.capacity) m
      m'.onScrub (m'.numTombstone - m.numTombstone)
  | .eraseAll key =>
      if T.duplicates then
        match eraseAllLoop B m key with
        | .ok m' => m'.onScrub (m'.numTombstone - m.numTombstone)
        | .error _ => none
      else m.onFree (m.locateFirst B key)
  | _ => none

omit [Inhabited ν] in
/-- The calls that never scrub, if the map does not do it by itself. -/
theorem scrubArg_of_noScrub (hT : T.autoScrub = false) (B : BucketOps) (m : Map T ν) {op : Op κ ν}
    (hop : op ≠ .scrub) : m.scrubArg B op = none := by
  have hon : ∀ (m : Map T ν) (n : ℤ), m.onScrub n = none := by
    intro m n
    rw [onScrub, wouldScrub_of_noScrub hT]
    rfl
  have hfree : ∀ r, m.onFree r = none := by
    rintro (_ | ⟨_ | ⟨p, b⟩, q⟩)
    · rfl
    · rfl
    · exact hon _ _
  cases op with
  | scrub => exact absurd rfl hop
  | eraseFirst key => exact hfree _
  | eraseNext pos seq key =>
      rw [scrubArg]
      split_ifs
      · exact hfree _
      · rfl
  | eraseAt pos =>
      rw [scrubArg]
      split_ifs
      · exact hon _ _
      · rfl
  | eraseIf pred => exact hon _ _
  | eraseAll key =>
      rw [scrubArg]
      split_ifs
      · split
        · exact hon _ _
        · rfl
      · exact hfree _
  | _ => rfl

omit [Inhabited ν] in
/-- Which table is scrubbed does not depend on the kernel. -/
theorem scrubArg_eq {B : BucketOps} (hB : B.Lawful T.kernelSize) {m : Map T ν} (h : Sound m)
    (op : Op κ ν) : m.scrubArg B op = m.scrubArg ideal op := by
  cases op with
  | eraseFirst key => rw [scrubArg, scrubArg, locateFirst_eq hB h]
  | eraseNext pos seq key => rw [scrubArg, scrubArg, locateNext_eq hB h]
  | eraseAt pos =>
      rw [scrubArg, scrubArg]
      split_ifs with hp
      · rw [h.off_eq hp.1,
          hasEmpty_eq hB h (T.dvd_off pos) (lt_of_le_of_lt (T.off_le pos) hp.1)]
      · rfl
  | eraseIf pred =>
      rw [scrubArg, scrubArg, (freeIf_agree hB pred (offsets T.kernelSize m.capacity) h
        fun o ho => h.mem_offsets.mp ho).1]
  | eraseAll key =>
      rw [scrubArg, scrubArg, (eraseAllLoop_agree hB h key).1, locateFirst_eq hB h]
  | _ => rfl

/-! ### Calls -/

/-- The capacity that the call aims at leaves the range of `int_t`: no other call can overflow. -/
def Op.Overflows (m : Map T ν) : Op κ ν → Prop
  | .insert _ => m.isFull = true ∧ 2 ^ 62 < 2 * m.capacity
  | .grow => 2 ^ 62 < 2 * m.capacity
  | .resize n => n < 0 ∨ 2 ^ 62 < n ∨ m.Crowded
  | .reserve n | .clearTo n => 2 ^ 62 < n
  | _ => False

/-- The call refuses a position, a sequence or a blob that it was given. -/
def Op.Refuses : Op κ ν → Err → Prop
  | .findNext _ _ _, e | .eraseNext _ _ _, e => e = .badPos ∨ e = .badSeq ∨ e = .nextFull
  | .eraseAt _, e | .setValueAt _ _, e => e = .badPos
  | .setBlobAt _ _, e => e = .badPos ∨ e = .invalidArgument
  | _, _ => False

/-- The errors of a call. -/
def Op.Rejects (m : Map T ν) (op : Op κ ν) (e : Err) : Prop :=
  e = .overflow ∧ op.Overflows m ∨ op.Refuses e

omit [Inhabited κ] [Inhabited ν] in
theorem Op.not_rejects {m : Map T ν} {op : Op κ ν} (ho : ¬ op.Overflows m)
    (hr : ∀ e, ¬ op.Refuses e) (e : Err) : ¬ op.Rejects m e :=
  fun h => h.elim (fun h => ho h.2) (hr e)

/-- The errors that mean that a table is full. -/
def fullErrors : List Err := [.tableFull, .stillFull, .insertError, .resizeError, .outOfFuel]

omit [Inhabited κ] [Inhabited ν] in
theorem Op.Rejects.not_mem {m : Map T ν} {op : Op κ ν} {e : Err} (h : op.Rejects m e) :
    e ∉ fullErrors := by
  rcases h with ⟨rfl, -⟩ | h
  · decide
  · cases op <;> simp only [Op.Refuses] at h <;> rcases h with rfl | rfl | rfl <;> decide

/-- What a call returns, and what it does to the map. -/
def Outcome (m : Map T ν) : Op κ ν → Result → Map T ν → Prop
  | .insert key, .inserted pos op _, m' => Inserted m m' key pos op
  | .findFirst key, .found pos seq, m' => m' = m ∧ m.Located key pos seq
  | .findNext _ _ _, .found pos _, m' => m' = m ∧ (T.duplicates = false → pos = none)
  | .findIf pred, .position pos, m' => m' = m ∧
      match pos with
      | some p => m.Occupied p ∧ pred p = true
      | none => ∀ p, m.Occupied p → pred p = false
  | .forEach, .positions l, m' => m' = m ∧ l.Nodup ∧ ∀ p, p ∈ l ↔ m.Occupied p
  | .forEachKey key, .visited l, m' => m' = m ∧ ∃ j, Visited m key l j
  | .count key, .number n, m' => m' = m ∧ ∃ l j, Visited m key l j ∧ n = l.length
  | .eraseFirst key, .erased found _ _, m' =>
      (found = true ∧ ∃ p, m.Stores key p ∧ Erased m m' [p]) ∨
        (found = false ∧ ¬ m.Contains key ∧ m' = m)
  | .eraseNext _ _ key, .erased found _ _, m' =>
      (found = true ∧ T.duplicates = true ∧ ∃ p, m.Stores key p ∧ Erased m m' [p]) ∨
        (found = false ∧ m' = m)
  | .eraseAt pos, .erasedAt found _, m' =>
      (found = true ∧ m.Occupied pos ∧ Erased m m' [pos]) ∨
        (found = false ∧ ¬ m.Occupied pos ∧ m' = m)
  | .eraseIf pred, .number n, m' => ∃ l : List ℕ, n = l.length ∧ Erased m m' l ∧
      ∀ q, q ∈ l ↔ m.Occupied q ∧ pred q = true
  | .eraseAll key, .number n, m' => ∃ l : List ℕ, n = l.length ∧ Erased m m' l ∧
      ∀ q, q ∈ l ↔ m.Stores key q
  | .grow, .number _, m' => Tidied m m'
  | .shrink, .number _, m' => Tidied m m'
  | .resize _, .number _, m' => Tidied m m'
  | .reserve _, .number _, m' => Tidied m m'
  | .scrub, .number _, m' => Tidied m m'
  | .clear, .number _, m' => Cleared m m'
  | .clearTo _, .number _, m' => Cleared m m'
  | .setValueAt pos value, .done, m' =>
      m.Occupied pos ∧ m' = { m with values := m.values.set pos value }
  | .setBlobAt pos src, .done, m' =>
      m.Occupied pos ∧ src.length ≤ m.conf.blobSize ∧
        m' = { m with blobs := writeAt m.blobs (pos * m.conf.blobStride) src }
  | _, _, _ => False

/-- Every outcome has the invariant. -/
theorem Outcome.inv {m m' : Map T ν} (h : Inv m) {op : Op κ ν} {r : Result}
    (ho : m.Outcome op r m') : Inv m' ∧ m'.conf = m.conf := by
  have same : m' = m → Inv m' ∧ m'.conf = m.conf := by
    rintro rfl
    exact ⟨h, rfl⟩
  cases op with
  | insert key => cases r with
    | inserted pos op q => exact ⟨Inserted.inv ho, Inserted.conf_eq ho⟩
    | _ => exact ho.elim
  | findFirst key => cases r with
    | found pos q => exact same ho.1
    | _ => exact ho.elim
  | findNext pos seq key => cases r with
    | found pos q => exact same ho.1
    | _ => exact ho.elim
  | findIf pred => cases r with
    | position pos => exact same ho.1
    | _ => exact ho.elim
  | forEach => cases r with
    | positions l => exact same ho.1
    | _ => exact ho.elim
  | forEachKey key => cases r with
    | visited l => exact same ho.1
    | _ => exact ho.elim
  | count key => cases r with
    | number n => exact same ho.1
    | _ => exact ho.elim
  | eraseFirst key => cases r with
    | erased found pos q =>
        rcases ho with ⟨-, p, -, he⟩ | ⟨-, -, heq⟩
        · exact ⟨he.inv, he.conf_eq⟩
        · exact same heq
    | _ => exact ho.elim
  | eraseNext pos seq key => cases r with
    | erased found pos q =>
        rcases ho with ⟨-, -, p, -, he⟩ | ⟨-, heq⟩
        · exact ⟨he.inv, he.conf_eq⟩
        · exact same heq
    | _ => exact ho.elim
  | eraseAt pos => cases r with
    | erasedAt found r =>
        rcases ho with ⟨-, -, he⟩ | ⟨-, -, heq⟩
        · exact ⟨he.inv, he.conf_eq⟩
        · exact same heq
    | _ => exact ho.elim
  | eraseIf pred => cases r with
    | number n =>
        obtain ⟨l, -, he, -⟩ := ho
        exact ⟨he.inv, he.conf_eq⟩
    | _ => exact ho.elim
  | eraseAll key => cases r with
    | number n =>
        obtain ⟨l, -, he, -⟩ := ho
        exact ⟨he.inv, he.conf_eq⟩
    | _ => exact ho.elim
  | grow => cases r with
    | number n => exact ⟨Tidied.inv ho, Tidied.conf_eq ho⟩
    | _ => exact ho.elim
  | shrink => cases r with
    | number n => exact ⟨Tidied.inv ho, Tidied.conf_eq ho⟩
    | _ => exact ho.elim
  | resize n => cases r with
    | number n => exact ⟨Tidied.inv ho, Tidied.conf_eq ho⟩
    | _ => exact ho.elim
  | reserve n => cases r with
    | number n => exact ⟨Tidied.inv ho, Tidied.conf_eq ho⟩
    | _ => exact ho.elim
  | scrub => cases r with
    | number n => exact ⟨Tidied.inv ho, Tidied.conf_eq ho⟩
    | _ => exact ho.elim
  | clear => cases r with
    | number n => exact ⟨Cleared.inv ho, Cleared.conf_eq ho⟩
    | _ => exact ho.elim
  | clearTo n => cases r with
    | number n => exact ⟨Cleared.inv ho, Cleared.conf_eq ho⟩
    | _ => exact ho.elim
  | setValueAt pos value => cases r with
    | done =>
        obtain ⟨-, rfl⟩ := ho
        exact ⟨h.setValue pos value, rfl⟩
    | _ => exact ho.elim
  | setBlobAt pos src => cases r with
    | done =>
        obtain ⟨hp, hlen, rfl⟩ := ho
        exact ⟨h.setBlob hp.1 hlen, rfl⟩
    | _ => exact ho.elim

/-! ### The step lemma -/

section Step
variable (hS : T.seq.isUnbounded = true) {m : Map T ν} (h : Inv m)
include hS h

omit hS [Inhabited ν] in
theorem findNext_spec (pos : ℕ) (seq : ProbeSeq) (key : κ) :
    (∃ e, m.findNext ideal pos seq key = .error e ∧
      (e = .badPos ∨ e = .badSeq ∨ e = .nextFull)) ∨
      ∃ r q, m.findNext ideal pos seq key = .ok (r, q) ∧ (T.duplicates = false → r = none) := by
  rw [findNext]
  split_ifs with hd
  · rcases locateNext_spec h.toSound pos seq key with ⟨e, hr, he⟩ | ⟨r, q, hr, -⟩
    · exact Or.inl ⟨e, by rw [hr, error_bind], he⟩
    · refine Or.inr ⟨_, _, by rw [hr, ok_bind], fun hd' => ?_⟩
      rw [hd] at hd'
      cases hd'
  · exact Or.inr ⟨none, seq, rfl, fun _ => rfl⟩

omit hS [Inhabited ν] in
theorem findIf_spec (pred : ℕ → Bool) :
    match m.findIf ideal pred with
    | some p => m.Occupied p ∧ pred p = true
    | none => ∀ p, m.Occupied p → pred p = false := by
  cases hf : m.findIf ideal pred with
  | some p =>
      exact ⟨h.mem_positions.mp (List.mem_of_find?_eq_some hf), List.find?_some hf⟩
  | none =>
      intro p hp
      simpa using List.find?_eq_none.mp hf p (h.mem_positions.mpr hp)

/-- The step lemma. -/
theorem step_spec (op : Op κ ν)
    (hscrub : ∀ m₁, m.scrubArg ideal op = some m₁ → m₁.ScrubOk) :
    (∃ e, m.step ideal op = .error e ∧ op.Rejects m e) ∨
      ∃ r m', m.step ideal op = .ok (r, m') ∧ m.Outcome op r m' := by
  have hon : ∀ {m₁ : Map T ν} {n : ℤ}, (∀ m₂, m₁.onScrub n = some m₂ → m₂.ScrubOk) →
      m₁.wouldScrub n = true → m₁.ScrubOk := by
    intro m₁ n hs hw
    exact hs m₁ (by rw [onScrub, if_pos hw])
  cases op with
  | insert key =>
      rcases insert_spec hS h key with ⟨hr, hover⟩ | ⟨pos, op, q, m', hr, hi⟩
      · rw [step, hr, error_bind]
        exact Or.inl ⟨_, rfl, Or.inl ⟨rfl, hover⟩⟩
      · rw [step, hr, ok_bind]
        exact Or.inr ⟨_, _, rfl, hi⟩
  | findFirst key =>
      obtain ⟨e, he, hemp⟩ := h.exists_empty
      obtain ⟨r, q, hr, hl⟩ := findFirst_spec h.toTable hS he hemp key
      rw [step, hr, ok_bind]
      exact Or.inr ⟨_, _, rfl, rfl, hl⟩
  | findNext pos seq key =>
      rcases findNext_spec h pos seq key with ⟨e, hr, he⟩ | ⟨r, q, hr, hn⟩
      · rw [step, hr, error_bind]
        exact Or.inl ⟨e, rfl, Or.inr he⟩
      · rw [step, hr, ok_bind]
        exact Or.inr ⟨_, _, rfl, rfl, hn⟩
  | findIf pred => exact Or.inr ⟨_, m, rfl, rfl, findIf_spec h pred⟩
  | forEach =>
      exact Or.inr ⟨_, m, rfl, rfl, h.positions_nodup, fun p => h.mem_positions⟩
  | forEachKey key =>
      obtain ⟨l, j, hr, hv⟩ := forEachKey_spec hS h key
      rw [step, hr, ok_bind]
      exact Or.inr ⟨_, _, rfl, rfl, j, hv⟩
  | count key =>
      obtain ⟨l, j, hr, hv⟩ := forEachKey_spec hS h key
      rw [step, count, hr, ok_bind, ok_bind]
      exact Or.inr ⟨_, _, rfl, rfl, l, j, hv, rfl⟩
  | eraseFirst key =>
      obtain ⟨found, r, q, m', hr, he⟩ := eraseFirst_spec hS h key fun p b q hloc =>
        hon fun m₂ hm₂ => hscrub m₂ (by rw [scrubArg, hloc]; exact hm₂)
      rw [step, hr, ok_bind]
      exact Or.inr ⟨_, _, rfl, he⟩
  | eraseNext pos seq key =>
      rcases eraseNext_spec hS h pos seq key fun hd hpsl p b q hloc => hon fun m₂ hm₂ =>
        hscrub m₂ (by rw [scrubArg, if_pos ⟨hd, hpsl⟩, hloc]; exact hm₂)
        with ⟨e, hr, he⟩ | ⟨found, r, q, m', hr, he⟩
      · rw [step, hr, error_bind]
        exact Or.inl ⟨e, rfl, Or.inr he⟩
      · rw [step, hr, ok_bind]
        exact Or.inr ⟨_, _, rfl, he⟩
  | eraseAt pos =>
      have hat : m.Occupied pos → ∀ b, b = ideal.hasEmpty (m.bucket (T.off pos)) →
          (m.free b pos).wouldScrub (burried b) = true → (m.free b pos).ScrubOk := by
        rintro ⟨hp, hc⟩ b rfl
        refine hon fun m₂ hm₂ => hscrub m₂ ?_
        rw [scrubArg, if_pos ⟨hp, hc⟩, h.off_eq hp]
        exact hm₂
      rcases eraseAt_spec hS h pos hat with ⟨hr, -⟩ | ⟨found, r, m', hr, he⟩
      · rw [step, hr, error_bind]
        exact Or.inl ⟨_, rfl, Or.inr rfl⟩
      · rw [step, hr, ok_bind]
        exact Or.inr ⟨_, _, rfl, he⟩
  | eraseIf pred =>
      obtain ⟨l, m', hr, he, hl⟩ := eraseIf_spec hS h pred fun m' hm' => hon fun m₂ hm₂ =>
        hscrub m₂ (by rw [scrubArg, ← hm']; exact hm₂)
      rw [step, hr, ok_bind]
      exact Or.inr ⟨_, _, rfl, l, rfl, he, hl⟩
  | eraseAll key =>
      obtain ⟨l, m', hr, he, hl⟩ := eraseAll_spec hS h key (fun hd m' hm' => hon fun m₂ hm₂ =>
          hscrub m₂ (by rw [scrubArg, if_pos hd, hm']; exact hm₂))
        (fun hd p b q hloc => hon fun m₂ hm₂ =>
          hscrub m₂ (by rw [scrubArg, if_neg (by simp [hd]), hloc]; exact hm₂))
      rw [step, hr, ok_bind]
      exact Or.inr ⟨_, _, rfl, l, rfl, he, hl⟩
  | grow =>
      rcases grow_spec hS h with ⟨hr, hover⟩ | ⟨r, hr, ht⟩
      · rw [step, hr, error_bind]
        exact Or.inl ⟨_, rfl, Or.inl ⟨rfl, hover⟩⟩
      · rw [step, hr, ok_bind]
        exact Or.inr ⟨_, _, rfl, ht⟩
  | shrink =>
      obtain ⟨r, hr, ht⟩ := shrink_spec hS h
      rw [step, hr, ok_bind]
      exact Or.inr ⟨_, _, rfl, ht⟩
  | resize n =>
      rcases resizeCall_spec hS h n with ⟨hr, hover⟩ | ⟨r, hr, ht⟩
      · rw [step, hr, error_bind]
        exact Or.inl ⟨_, rfl, Or.inl ⟨rfl, hover⟩⟩
      · rw [step, hr, ok_bind]
        exact Or.inr ⟨_, _, rfl, ht⟩
  | reserve n =>
      rcases reserve_spec hS h n with ⟨hr, hover⟩ | ⟨r, hr, ht⟩
      · rw [step, hr, error_bind]
        exact Or.inl ⟨_, rfl, Or.inl ⟨rfl, hover⟩⟩
      · rw [step, hr, ok_bind]
        exact Or.inr ⟨_, _, rfl, ht⟩
  | clear => exact Or.inr ⟨_, _, rfl, clear_spec h⟩
  | clearTo n =>
      cases hr : m.clearTo n with
      | error e =>
          rw [step, hr, error_bind]
          exact Or.inl ⟨e, rfl, Or.inl (clearTo_error hr)⟩
      | ok r =>
          rw [step, hr, ok_bind]
          exact Or.inr ⟨_, _, rfl, clearTo_spec h hr⟩
  | scrub =>
      obtain ⟨n, m', hr, ht⟩ := hscrub m rfl
      rw [step, hr, ok_bind]
      exact Or.inr ⟨_, _, rfl, ht⟩
  | setValueAt pos value =>
      rw [step, setValueAt]
      split_ifs with hp
      · exact Or.inr ⟨_, _, rfl, hp, rfl⟩
      · exact Or.inl ⟨_, rfl, Or.inr rfl⟩
  | setBlobAt pos src =>
      rw [step, setBlobAt]
      split_ifs with hp hlen
      · exact Or.inr ⟨_, _, rfl, hp, hlen, rfl⟩
      · exact Or.inl ⟨_, rfl, Or.inr (Or.inr rfl)⟩
      · exact Or.inl ⟨_, rfl, Or.inr (Or.inl rfl)⟩

end Step

/-! ### Runs -/

/-- A new map is an allocated and reset one. -/
theorem new_eq {conf : Conf T.conf} {m : Map T ν} (hm : Map.new T ν conf = .ok m) :
    m.conf = conf ∧ conf.isValid = true ∧ m = (m.alloc conf.initCapacity).reset := by
  unfold Map.new at hm
  split_ifs at hm with hv
  obtain rfl := Except.ok.inj hm
  have hcap := fun m : Map T ν =>
    alloc_capacity m ((Conf.kernelSize_le hv).trans conf.min_le_init)
  refine ⟨rfl, hv, ?_⟩
  rw [reset, hcap]
  rfl

theorem new_spec {conf : Conf T.conf} {m : Map T ν} (hm : Map.new T ν conf = .ok m) :
    Inv m ∧ m.entries = 0 ∧ m.conf = conf := by
  obtain ⟨rfl, hv, heq⟩ := new_eq hm
  have hK := (Conf.kernelSize_le hv).trans m.conf.min_le_init
  have hcap := alloc_capacity m hK
  have hinv : Inv (m.alloc m.conf.initCapacity).reset := by
    refine (alloc_shape m m.conf.init_isCapacity hK).inv_reset hv ?_ ?_
    · rw [hcap]
      exact m.conf.min_le_init
    · rw [hcap]
      rfl
  have hentries := entries_reset (m.alloc m.conf.initCapacity)
  rw [← heq] at hinv hentries
  exact ⟨hinv, hentries, rfl⟩

/-- A sequence of calls on a new map gives the same results with any lawful kernel. -/
theorem exec_agree {B : BucketOps} (hB : B.Lawful T.kernelSize) (conf : Conf T.conf)
    (ops : List (Op κ ν)) :
    Agree (exec T B conf ops) (exec T ideal conf ops) fun r => Sound r.2 :=
  (Agree.of_error_or fun _ hm => (new_spec hm).1.toSound).bind fun _ hm =>
    (run_agree hB ops hm).mono fun _ hr => hr.sound

section Runs
variable (B : Kernel T.kernelSize) (conf : Conf T.conf)

/-- What a sequence of calls gives, from the same calls with the ideal kernel. -/
theorem exists_exec (ops : List (Op κ ν)) {β : Type} (f : List Result × Map T ν → β) (b : β)
    (h : (exec T ideal conf ops).map f = .ok b) :
    ∃ rs m, exec T B.ops conf ops = .ok (rs, m) ∧ Sound m ∧ f (rs, m) = b := by
  obtain ⟨heq, hsound⟩ := exec_agree B.lawful conf ops
  cases hr : exec T ideal conf ops with
  | error e =>
      rw [hr] at h
      cases h
  | ok r =>
      rw [hr] at h
      exact ⟨r.1, r.2, heq.trans hr, hsound r hr, Except.ok.inj h⟩

/-- The runs of a map from its construction, through calls that satisfy `P`. -/
def runs (P : Map T ν → Op κ ν → Prop) : System (Map T ν) where
  init m := Map.new T ν conf = .ok m
  next m m' := ∃ op r, P m op ∧ m.step B.ops op = .ok (r, m')

/-- The call scrubs no table. -/
def NoScrub (m : Map T ν) (op : Op κ ν) : Prop := m.scrubArg B.ops op = none

/-- The call scrubs no table, or one that comes out of the scrub with its entries. -/
def ScrubsOk (m : Map T ν) (op : Op κ ν) : Prop :=
  ∀ m₁, m.scrubArg B.ops op = some m₁ → m₁.ScrubOk

theorem NoScrub.scrubsOk {m : Map T ν} {op : Op κ ν} (h : NoScrub B m op) : ScrubsOk B m op := by
  intro m₁ hm₁
  rw [NoScrub] at h
  rw [h] at hm₁
  cases hm₁

/-- The step lemma, for every kernel. -/
theorem step_outcome (hS : T.seq.isUnbounded = true) {m : Map T ν} (h : Inv m) {op : Op κ ν}
    (hop : ScrubsOk B m op) :
    (∃ e, m.step B.ops op = .error e ∧ op.Rejects m e) ∨
      ∃ r m', m.step B.ops op = .ok (r, m') ∧ m.Outcome op r m' := by
  rw [(step_agree B.lawful h.toSound op).1]
  refine step_spec hS h op fun m₁ hm₁ => hop m₁ ?_
  rw [scrubArg_eq B.lawful h.toSound]
  exact hm₁

theorem outcome_of_step (hS : T.seq.isUnbounded = true) {m m' : Map T ν} (h : Inv m)
    {op : Op κ ν} (hop : ScrubsOk B m op) {r : Result} (hr : m.step B.ops op = .ok (r, m')) :
    m.Outcome op r m' := by
  rcases step_outcome B hS h hop with ⟨e, he, -⟩ | ⟨r', m'', hr', ho⟩
  · rw [hr] at he
    cases he
  · obtain ⟨rfl, rfl⟩ := Prod.mk.inj (Except.ok.inj (hr.symm.trans hr'))
    exact ho

/-- The run lemma. -/
theorem inv_of_reachable (hS : T.seq.isUnbounded = true) {P : Map T ν → Op κ ν → Prop}
    (hP : ∀ m op, Inv m → P m op → ScrubsOk B m op) {m : Map T ν}
    (hm : (runs B conf P).Reachable m) : Inv m ∧ m.conf = conf := by
  refine hm.invariant (I := fun m => Inv m ∧ m.conf = conf) (fun m hm => ?_) fun m m' hi hn => ?_
  · obtain ⟨hinv, -, hconf⟩ := new_spec hm
    exact ⟨hinv, hconf⟩
  · obtain ⟨op, r, hop, hr⟩ := hn
    obtain ⟨hinv, hconf⟩ := (outcome_of_step B hS hi.1 (hP m op hi.1 hop) hr).inv hi.1
    exact ⟨hinv, hconf.trans hi.2⟩

theorem reachable_mono {P Q : Map T ν → Op κ ν → Prop} (hPQ : ∀ m op, P m op → Q m op)
    {m : Map T ν} (hm : (runs B conf P).Reachable m) : (runs B conf Q).Reachable m := by
  induction hm with
  | init h => exact .init h
  | next _ hn ih =>
      obtain ⟨op, r, hop, hr⟩ := hn
      exact ih.next ⟨op, r, hPQ _ _ hop, hr⟩

/-! ### Runs of given calls -/

def Op.isScrub : Op κ ν → Bool
  | .scrub => true
  | _ => false

omit [Inhabited κ] [Inhabited ν] in
theorem Op.ne_scrub {op : Op κ ν} (h : op.isScrub = false) : op ≠ .scrub := by
  rintro rfl
  cases h

/-- A sequence of calls is a run. -/
theorem reachable_of_run {P : Map T ν → Op κ ν → Prop} : ∀ (ops : List (Op κ ν))
    {m m' : Map T ν} {rs : List Result}, (∀ op ∈ ops, ∀ m, P m op) → (runs B conf P).Reachable m →
    run B.ops ops m = .ok (rs, m') → (runs B conf P).Reachable m'
  | [], m, m', rs, _, hm, hr => by
      obtain ⟨-, rfl⟩ := Prod.mk.inj (Except.ok.inj hr)
      exact hm
  | op :: ops, m, m', rs, hP, hm, hr => by
      rw [run] at hr
      obtain ⟨⟨r, m₁⟩, hstep, hr⟩ := bind_eq_ok.mp hr
      obtain ⟨⟨rs', m₂⟩, hrun, hr⟩ := bind_eq_ok.mp hr
      obtain ⟨-, rfl⟩ := Prod.mk.inj (Except.ok.inj hr)
      exact reachable_of_run ops (fun op' hop => hP op' (List.mem_cons_of_mem _ hop))
        (hm.next ⟨op, r, hP op List.mem_cons_self m, hstep⟩) hrun

theorem reachable_of_exec {P : Map T ν → Op κ ν → Prop} {ops : List (Op κ ν)} {m : Map T ν}
    {rs : List Result} (hP : ∀ op ∈ ops, ∀ m, P m op)
    (hr : exec T B.ops conf ops = .ok (rs, m)) : (runs B conf P).Reachable m := by
  obtain ⟨m₀, hm₀, hrun⟩ := bind_eq_ok.mp hr
  exact reachable_of_run B conf ops hP (.init hm₀) hrun

omit [Inhabited ν] in
/-- Without `auto_scrub`, and without calls of `scrub`, a sequence of calls scrubs nothing. -/
theorem noScrub_of_isScrub (hT : T.autoScrub = false) {ops : List (Op κ ν)}
    (h : ∀ op ∈ ops, op.isScrub = false) (op : Op κ ν) (hop : op ∈ ops) (m : Map T ν) :
    NoScrub B m op := scrubArg_of_noScrub hT B.ops m (Op.ne_scrub (h op hop))

end Runs

/-! ### Maps of words -/

section Words

instance : Inhabited (Fin (2 ^ 64)) := ⟨0⟩

instance neZero_four : NeZero 4 := ⟨by decide⟩

/-- A map from words, that are their own hash, with `2 ^ k` slots per bucket and the default probe
sequence. -/
def wordMap (k : Fin 4) (duplicates : Bool) : MapType (Fin (2 ^ 64)) where
  key := wordKey
  layout := .monkeyWrench
  conf := {
    kernelBits := k
    cacheLineSize := 64
    pageSize := 4096
    numBytes := 8
    kernelBits_le := by omega
    cacheLineSize_mem := by decide
    pageSize_le := by decide }
  seq := { kind := .quadratic, alignment := 64, maxLength := none,
           alignment_eq := Or.inr ⟨6, by decide, rfl⟩ }
  duplicates := duplicates
  autoShrink := false
  autoScrub := false

variable (k : Fin 4) (duplicates : Bool)

/-- A configuration with eight slots, of which one may not be used. -/
def wordConf : Conf (wordMap k duplicates).conf where
  minCapacity := 8
  initCapacity := 8
  blobSize := 0
  blobStride := 0
  scrubBias := 4
  growBias := 8
  shrinkBias := 4
  min_isCapacity := ⟨3, by decide, rfl⟩
  init_isCapacity := ⟨3, by decide, rfl⟩
  min_le_init := le_rfl
  blobSize_le := Nat.le_refl 0
  scrubBias_mem := by
    change 2 ≤ 4 ∧ 4 ≤ 64
    decide
  growBias_mem := by
    change 2 ≤ 8 ∧ 8 ≤ 64
    decide
  shrinkBias_mem := by
    change 3 ≤ 4 ∧ 4 ≤ 64
    decide

/-- The kernel of a map of words. -/
def wordKernel : Kernel (wordMap k duplicates).kernelSize :=
  arrayKernel (2 ^ (k : ℕ)) (Nat.two_pow_pos k)
    ((Nat.pow_le_pow_right two_pos (by omega : (k : ℕ) ≤ 3)).trans (by decide : 2 ^ 3 ≤ 128))

/-- A sequence of calls on a new map of words. -/
def wordExec (ops : List (Op (Fin (2 ^ 64)) ℕ)) :
    Except Err (List Result × Map (wordMap k duplicates) ℕ) :=
  exec _ (wordKernel k duplicates).ops (wordConf k duplicates) ops

/-- What the calls give, from a run with the ideal kernel. -/
theorem exists_wordExec (ops : List (Op (Fin (2 ^ 64)) ℕ)) {β : Type}
    (f : List Result × Map (wordMap k duplicates) ℕ → β) (b : β)
    (h : (exec _ ideal (wordConf k duplicates) ops).map f = .ok b) :
    ∃ rs m, wordExec k duplicates ops = .ok (rs, m) ∧ Sound m ∧ f (rs, m) = b :=
  exists_exec (wordKernel k duplicates) (wordConf k duplicates) ops f b h

theorem reachable_of_wordExec {ops : List (Op (Fin (2 ^ 64)) ℕ)} {rs : List Result}
    {m : Map (wordMap k duplicates) ℕ} (h : ∀ op ∈ ops, op.isScrub = false)
    (hr : wordExec k duplicates ops = .ok (rs, m)) :
    (runs (wordKernel k duplicates) (wordConf k duplicates)
      (NoScrub (wordKernel k duplicates))).Reachable m :=
  reachable_of_exec _ _ (noScrub_of_isScrub _ rfl h) hr

/-- The same maps with one slot per bucket and probe sequences of one slot. -/
def shortMap : MapType (Fin (2 ^ 64)) where
  key := wordKey
  layout := .monkeyWrench
  conf := (wordMap 0 duplicates).conf
  seq := { kind := .linear, alignment := 0, maxLength := some 1, alignment_eq := alignment_zero }
  duplicates := duplicates
  autoShrink := false
  autoScrub := false

/-- A sequence of calls on a new map with short probe sequences. -/
def shortExec (ops : List (Op (Fin (2 ^ 64)) ℕ)) :
    Except Err (List Result × Map (shortMap duplicates) ℕ) :=
  exec (shortMap duplicates) (wordKernel 0 duplicates).ops (wordConf 0 duplicates) ops

end Words

/-! ### No table gets full -/

section Full
variable (B : Kernel T.kernelSize) (conf : Conf T.conf)

/-- A run that never scrubs does not fill a table: an empty slot is left in every state, no call
runs into the bound of a probe loop or the checks behind it, and the loops that return have
visited at most `capacity / kernel_size` buckets. -/
theorem never_full (hS : T.seq.isUnbounded = true) {m : Map T ν}
    (hm : (runs B conf (NoScrub B)).Reachable m) :
    1 ≤ m.numEmpty ∧
      (∀ op : Op κ ν, NoScrub B m op →
        ((∃ r m', m.step B.ops op = .ok (r, m')) ∨
            ∃ e, m.step B.ops op = .error e ∧ op.Rejects m e) ∧
          ∀ e ∈ fullErrors, m.step B.ops op ≠ .error e) ∧
      ∀ (σ α : Type) (full : Err) (key : κ) (body : ProbeSeq → ℕ → σ → Flow σ α)
        (exhausted : ProbeSeq → σ → α) (s : σ) (a : α),
        m.probe full key body exhausted s = .ok a →
          probeLoop T.seq T.kernelSize m.bucketMask m.capacity full body exhausted
            (m.capacity / T.kernelSize) (initSeq T key) s = .ok a := by
  have hinv := (inv_of_reachable B conf hS (fun _ _ _ => NoScrub.scrubsOk B) hm).1
  refine ⟨hinv.numEmpty_pos, fun op hop => ?_, fun _ _ _ _ _ _ _ _ hr =>
    probe_within hinv.toShape hS hr⟩
  rcases step_outcome B hS hinv hop.scrubsOk with ⟨e, hr, he⟩ | ⟨r, m', hr, -⟩
  · refine ⟨Or.inr ⟨e, hr, he⟩, fun e' he' hc => ?_⟩
    obtain rfl := Except.error.inj (hr.symm.trans hc)
    exact he.not_mem he'
  · refine ⟨Or.inl ⟨r, m', hr⟩, fun e' _ hc => ?_⟩
    rw [hr] at hc
    cases hc

end Full

/-- A run that grows once. -/
theorem never_full_words : ∃ rs m,
    wordExec 1 false [.insert 0, .insert 1, .insert 2, .insert 3, .insert 4, .insert 5, .insert 6,
        .insert 7, .eraseFirst 0] = .ok (rs, m) ∧
      m.capacity = 16 ∧ m.numEmpty = 9 ∧ 1 ≤ m.numEmpty ∧
      ∀ op : Op (Fin (2 ^ 64)) ℕ, NoScrub (wordKernel 1 false) m op →
        ∀ e ∈ fullErrors, m.step (wordKernel 1 false).ops op ≠ .error e := by
  obtain ⟨rs, m, hr, -, hm⟩ := exists_wordExec 1 false
    [.insert 0, .insert 1, .insert 2, .insert 3, .insert 4, .insert 5, .insert 6,
      .insert 7, .eraseFirst 0]
    (fun r => (r.2.capacity, r.2.numEmpty)) (16, 9) (by decide +kernel)
  obtain ⟨hcap, hn⟩ := Prod.mk.inj hm
  have hfull := never_full (wordKernel 1 false) (wordConf 1 false) rfl
    (reachable_of_wordExec 1 false (by simp [Op.isScrub]) hr)
  exact ⟨rs, m, hr, hcap, hn, hfull.1, fun op hop => (hfull.2.1 op hop).2⟩

end Map

end Nvhm
