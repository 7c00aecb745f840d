import NvHashMap.Map.Change

/-! # Enumerating the entries of a key

A map with duplicates lists the entries of a key by `find_first` and repeated `find_next`
(`enumerate`).  Both walk along the probe sequence of the key.  `find_first` and `for_each` stop at
the first bucket with an empty slot.  Unless a scrub has cut a chain, all entries of the key lie up
to there (`Reached`), and the list is `matchesUpTo` that bucket.

`find_next` from the last slot of a bucket goes on to the next bucket without a look at the empty
slots of the one that it leaves.  If that was the stop, no further entry comes, and the search ends
at the next bucket with an empty slot.  If there is none, it runs past the end of the sequence: the
enumeration of a key whose entries are all reached fails exactly when the last slot of the only
bucket with empty slots holds the key (`enumerate_iff`). -/

namespace Nvhm

open Buffer SlotCount

variable {κ ν : Type} {T : MapType κ} [Inhabited κ]

namespace Map

/-- `find_next`, until it finds no entry. -/
def enumerateNext (B : BucketOps) (m : Map T ν) (key : κ) :
    ℕ → ℕ → ProbeSeq → Except Err (List (ℕ × ProbeSeq))
  | 0, _, _ => .error .outOfFuel
  | n + 1, pos, seq => do
      match ← m.findNext B pos seq key with
      | (some pos, seq) => do
          let l ← enumerateNext B m key n pos seq
          .ok ((pos, seq) :: l)
      | (none, _) => .ok []

/-- `find_first`, then `find_next` until it finds no entry. -/
def enumerate (B : BucketOps) (m : Map T ν) (key : κ) : Except Err (List (ℕ × ProbeSeq)) := do
  match ← m.findFirst B key with
  | (some pos, seq) => do
      let l ← enumerateNext B m key (m.capacity + 1) pos seq
      .ok ((pos, seq) :: l)
  | (none, _) => .ok []

/-! ### The entries behind a slot -/

section Behind
variable {m : Map T ν}

/-- The entries of the bucket at step `i`, from the slot after `a` on. -/
def matchesAbove (m : Map T ν) (key : κ) (i : ℕ) (a : ℤ) : List (ℕ × ProbeSeq) :=
  (m.matchesAt key i).filter fun x => decide ((m.visit key i : ℤ) + a < x.1)

/-- The entries of the buckets at the steps from `i` to `j`. -/
def matchesFrom (m : Map T ν) (key : κ) (i j : ℕ) : List (ℕ × ProbeSeq) :=
  (List.range' i (j + 1 - i)).flatMap (m.matchesAt key)

/-- The first entry of a list, or the sequence at which a search without a result stops. -/
def firstOr (l : List (ℕ × ProbeSeq)) (q : ProbeSeq) : Option ℕ × ProbeSeq :=
  match l with
  | x :: _ => (some x.1, x.2)
  | [] => (none, q)

theorem matchesFrom_succ (m : Map T ν) (key : κ) {i j : ℕ} (h : i ≤ j) :
    m.matchesFrom key i j = m.matchesAt key i ++ m.matchesFrom key (i + 1) j := by
  rw [matchesFrom, matchesFrom, show j + 1 - i = j + 1 - (i + 1) + 1 by omega, List.range'_succ,
    List.flatMap_cons]

theorem matchesFrom_nil (m : Map T ν) (key : κ) (j : ℕ) : m.matchesFrom key (j + 1) j = [] := by
  simp [matchesFrom]

theorem matchesUpTo_eq (m : Map T ν) (key : κ) (j : ℕ) :
    m.matchesUpTo key (j + 1) = m.matchesFrom key 0 j := by
  rw [matchesUpTo, matchesFrom, List.range_eq_range', Nat.sub_zero]

theorem matchesAt_sorted (m : Map T ν) (key : κ) (i : ℕ) :
    (m.matchesAt key i).Pairwise fun x y => x.1 < y.1 := by
  rw [matchesAt, List.pairwise_map]
  exact ((slots_sorted _ _).filter _).imp fun h => Nat.add_lt_add_left h _

theorem matchesAbove_neg_one (m : Map T ν) (key : κ) (i : ℕ) :
    m.matchesAbove key i (-1) = m.matchesAt key i := by
  refine List.filter_eq_self.mpr fun x hx => ?_
  obtain ⟨d, -, rfl⟩ := List.mem_map.mp hx
  rw [decide_eq_true_iff]
  push_cast
  omega

/-- The entries behind the first one. -/
theorem matchesAbove_tail {key : κ} {i d : ℕ} {a : ℤ} {q : ProbeSeq} {l : List (ℕ × ProbeSeq)}
    (h : m.matchesAbove key i a = (m.visit key i + d, q) :: l) : m.matchesAbove key i d = l := by
  have hmem : (m.visit key i + d, q) ∈ m.matchesAbove key i a := by
    rw [h]
    exact List.mem_cons_self
  have hlt := of_decide_eq_true (List.mem_filter.mp hmem).2
  have hsorted : (m.matchesAbove key i a).Pairwise fun x y => x.1 < y.1 :=
    (m.matchesAt_sorted key i).filter _
  rw [h, List.pairwise_cons] at hsorted
  have hfilter : m.matchesAbove key i d =
      (m.matchesAbove key i a).filter fun x => decide ((m.visit key i : ℤ) + d < x.1) := by
    rw [matchesAbove, matchesAbove, List.filter_filter]
    refine List.filter_congr fun x _ => ?_
    rw [Bool.eq_iff_iff, Bool.and_eq_true, decide_eq_true_iff, decide_eq_true_iff]
    push_cast at hlt
    omega
  rw [hfilter, h, List.filter_cons_of_neg (by simp), List.filter_eq_self]
  intro x hx
  have := hsorted.1 x hx
  rw [decide_eq_true_iff]
  omega

theorem matchesAbove_last (h : Shape m) (key : κ) {i : ℕ} :
    m.matchesAbove key i ((T.kernelSize : ℤ) - 1) = [] := by
  refine List.filter_eq_nil_iff.mpr fun x hx => ?_
  obtain ⟨d, hd, rfl⟩ := List.mem_map.mp hx
  have hdk := ((h.mem_slots_bucket (h.visit_add_le key i)).mp (List.mem_of_mem_filter hd)).1
  rw [decide_eq_true_iff]
  push_cast
  omega

/-- What the search of one bucket returns. -/
theorem firstMatch_above_eq_head (m : Map T ν) (key : κ) (i : ℕ) (a : ℤ) :
    m.matchesAbove key i a = [] ∧ m.firstMatch (m.visit key i) key
        (ideal.hitsAbove (m.bucket (m.visit key i)) (keyState T key) a) = none ∨
      ∃ d l, m.matchesAbove key i a = (m.visit key i + d, seqAt T key i) :: l ∧
        m.firstMatch (m.visit key i) key
          (ideal.hitsAbove (m.bucket (m.visit key i)) (keyState T key) a) = some d := by
  have heq : m.matchesAbove key i a =
      (((ideal.hitsAbove (m.bucket (m.visit key i)) (keyState T key) a).filter
        fun d => T.key.eq (m.keyAt (m.visit key i + d)) key).map
          fun d => (m.visit key i + d, seqAt T key i)) := by
    rw [matchesAbove, matchesAt, List.filter_map]
    change List.map _ (List.filter _ (List.filter _ _)) = List.map _ (List.filter _ (List.filter _ _))
    rw [List.filter_filter, List.filter_filter]
    refine congrArg _ (List.filter_congr fun d _ => ?_)
    rw [Bool.and_comm]
    congr 1
    simp only [Function.comp_apply]
    rw [decide_eq_decide]
    push_cast
    omega
  rw [firstMatch, ← List.head?_filter, heq]
  cases (ideal.hitsAbove (m.bucket (m.visit key i)) (keyState T key) a).filter
      fun d => T.key.eq (m.keyAt (m.visit key i + d)) key with
  | nil => exact Or.inl ⟨rfl, rfl⟩
  | cons d l => exact Or.inr ⟨d, _, rfl, rfl⟩

end Behind

/-! ### `find_next_` -/

section Next
variable {m : Map T ν}

/-- The entries that follow a slot, as far as step `j`. -/
def matchesBehind (m : Map T ν) (key : κ) (i : ℕ) (a : ℤ) (j : ℕ) : List (ℕ × ProbeSeq) :=
  m.matchesAbove key i a ++ m.matchesFrom key (i + 1) j

/-- The entries behind the first one that follows a slot. -/
theorem matchesBehind_cons {key : κ} {j : ℕ} {x : ℕ × ProbeSeq} {l : List (ℕ × ProbeSeq)} :
    ∀ (n : ℕ) {i : ℕ} {a : ℤ}, j - i = n → i ≤ j → m.matchesBehind key i a j = x :: l →
      ∃ i' d, i ≤ i' ∧ i' ≤ j ∧ x = (m.visit key i' + d, seqAt T key i') ∧
        (m.visit key i' + d, seqAt T key i') ∈ m.matchesAt key i' ∧
        l = m.matchesBehind key i' d j
  | n, i, a, hn, hij, h => by
      rw [matchesBehind] at h
      rcases m.firstMatch_above_eq_head key i a with ⟨hnil, -⟩ | ⟨d, l', hcons, -⟩
      · rw [hnil, List.nil_append] at h
        cases n with
        | zero =>
            obtain rfl : i = j := by omega
            rw [matchesFrom_nil] at h
            cases h
        | succ n =>
            rw [matchesFrom_succ m key (by omega : i + 1 ≤ j), ← matchesAbove_neg_one] at h
            obtain ⟨i', d, hi', hj', hx, hmem, hl⟩ :=
              matchesBehind_cons n (i := i + 1) (a := -1) (by omega) (by omega) h
            exact ⟨i', d, by omega, hj', hx, hmem, hl⟩
      · rw [hcons, List.cons_append] at h
        obtain ⟨rfl, rfl⟩ := List.cons.inj h
        refine ⟨i, d, le_rfl, hij, rfl, ?_, ?_⟩
        · exact List.mem_of_mem_filter (hcons ▸ List.mem_cons_self :
            (m.visit key i + d, seqAt T key i) ∈ m.matchesAbove key i a)
        · rw [matchesBehind, matchesAbove_tail hcons]

/-- The searches for `key` stop at step `j`: no bucket before it has an empty slot, and it has one,
or the sequence ends behind it. -/
structure StopsAt (m : Map T ν) (key : κ) (j : ℕ) : Prop where
  lt : j < m.numBuckets
  next : (seqAt T key j).hasNext T.seq = true
  full : m.FullUpTo key j
  stop : m.HasEmpty (m.visit key j) ∨ (seqAt T key (j + 1)).hasNext T.seq = false

omit [Inhabited κ] in
/-- A search that goes on at step `i` has not passed the stop. -/
theorem StopsAt.le_of_next {key : κ} {i j : ℕ} (hs : m.StopsAt key j)
    (hn : (seqAt T key i).hasNext T.seq = true) (hfull : m.FullUpTo key i) : i ≤ j := by
  by_contra hlt
  rcases hs.stop with he | he
  · exact hfull j (by omega) he
  · rw [hasNext_mono (by omega : j + 1 ≤ i) hn] at he
    cases he

omit [Inhabited κ] in
/-- Some bucket is the stop, if the sequence has one at all. -/
theorem Shape.exists_stopsAt (h : Shape m) {e : ℕ} (he : e < m.capacity)
    (hempty : m.stateAt e = empty) (key : κ) :
    (seqAt T key 0).hasNext T.seq = false ∨ ∃ j, m.StopsAt key j := by
  have hloop : ∀ n ≤ m.numBuckets, (seqAt T key 0).hasNext T.seq = true →
      (∃ j, m.StopsAt key j) ∨ m.FullUpTo key n ∧ (seqAt T key n).hasNext T.seq = true := by
    intro n
    induction n with
    | zero => exact fun _ h0 => Or.inr ⟨fullUpTo_zero m key, h0⟩
    | succ n ih =>
        intro hn h0
        rcases ih (by omega) h0 with hstop | ⟨hfull, hnext⟩
        · exact Or.inl hstop
        by_cases hemp : m.HasEmpty (m.visit key n)
        · exact Or.inl ⟨n, hn, hnext, hfull, Or.inl hemp⟩
        cases hend : (seqAt T key (n + 1)).hasNext T.seq with
        | false => exact Or.inl ⟨n, hn, hnext, hfull, Or.inr hend⟩
        | true => exact Or.inr ⟨hfull.succ hemp, rfl⟩
  cases h0 : (seqAt T key 0).hasNext T.seq with
  | false => exact Or.inl rfl
  | true =>
      refine Or.inr ((hloop m.numBuckets le_rfl h0).resolve_right fun hc => ?_)
      exact h.not_all_full he hempty key hc.1

section Stop
variable (h : Sound m) {key : κ} {j : ℕ} (hs : m.StopsAt key j)
include h hs

/-- The search from a bucket up to the stop. -/
theorem nextLoop_firstOr : ∀ (n : ℕ) {i : ℕ} {a : ℤ}, i ≤ j → j - i < n →
    ∃ r q, nextLoop ideal m key n (seqAt T key i) a = .ok r ∧
      (r.1.map Prod.fst, r.2) = firstOr (m.matchesBehind key i a j) q
  | 0, _, _, _, hn => absurd hn (Nat.not_lt_zero _)
  | n + 1, i, a, hij, hn => by
      have ho := h.visit_add_le key i
      rw [nextLoop, visit_eq, matchesBehind]
      rcases m.firstMatch_above_eq_head key i a with ⟨hnil, hm⟩ | ⟨d, l, hcons, hm⟩
      · rw [hnil, List.nil_append, hm]
        dsimp only
        by_cases hb : ideal.hasEmpty (m.bucket (m.visit key i)) = true
        · rw [if_pos hb]
          obtain rfl : i = j := by
            by_contra hne
            exact hs.full i (by omega) ((h.hasEmpty_iff ho).mp hb)
          rw [matchesFrom_nil]
          exact ⟨_, _, rfl, rfl⟩
        · rw [if_neg hb, seqAt_succ]
          have hlt := hs.lt
          by_cases hij' : i < j
          · rw [if_pos (hasNext_mono (by omega : i + 1 ≤ j) hs.next),
              if_pos ((h.psl_lt key).mpr (by omega)),
              matchesFrom_succ m key (by omega : i + 1 ≤ j), ← matchesAbove_neg_one]
            exact nextLoop_firstOr n (by omega) (by omega)
          · -- the stop has no empty slot, so the sequence ends behind it
            obtain rfl : i = j := by omega
            have hend := hs.stop.resolve_left fun hc => hb ((h.hasEmpty_iff ho).mpr hc)
            rw [hend, if_neg Bool.false_ne_true, matchesFrom_nil]
            exact ⟨_, _, rfl, rfl⟩
      · rw [hcons, hm]
        exact ⟨_, default, rfl, rfl⟩

omit hs in
/-- `splice_pos` of a slot on the probe sequence. -/
theorem splice_visit (i : ℕ) {s : ℕ} (hs : s < T.kernelSize) :
    alignPos (m.visit key i + s) (notMask (T.kernelSize - 1)) = m.visit key i ∧
      alignPos (m.visit key i + s) (T.kernelSize - 1) = s := by
  have hlt : m.visit key i + s < m.capacity := by
    have := h.visit_add_le key i
    omega
  rw [h.off_eq hlt]
  refine ⟨MapType.off_add (h.dvd_visit key i) hs, ?_⟩
  rw [MapType.kernelSize, ConfType.kernelSize, alignPos_sub_one]
  obtain ⟨b, hb⟩ := h.dvd_visit key i
  rw [hb, MapType.kernelSize, ConfType.kernelSize, Nat.mul_add_mod]
  exact Nat.mod_eq_of_lt hs

/-- The checks of `find_next_` hold for a slot on the probe sequence. -/
theorem locateNext_visit {i s : ℕ} (hij : i ≤ j) (hsK : s < T.kernelSize) :
    m.locateNext ideal (m.visit key i + s) (seqAt T key i) key =
      if T.kernelSize - 1 ≤ s then
        if (seqAt T key (i + 1)).hasNext T.seq then
          if i + 1 < m.numBuckets then
            nextLoop ideal m key (m.numBuckets + 1) (seqAt T key (i + 1)) (-1)
          else .error .nextFull
        else .ok (none, seqAt T key (i + 1))
      else nextLoop ideal m key (m.numBuckets + 1) (seqAt T key i) s := by
  have hoff := (splice_visit h i hsK : alignPos (m.visit key i + s) _ = _ ∧ _).1
  have hidx := (splice_visit h i hsK : alignPos (m.visit key i + s) _ = _ ∧ _).2
  have hj := hs.lt
  have hlt : m.visit key i + s < m.capacity := by
    have := h.visit_add_le key i
    omega
  rw [locateNext]
  dsimp only
  rw [hoff, hidx, if_pos hlt, if_pos ⟨hasNext_mono hij hs.next, visit_eq m key i,
    (h.psl_lt key).mpr (by omega)⟩, seqAt_succ]
  simp only [h.psl_lt key, numBuckets]
  rfl

/-- `find_next_` returns the next entry.  Behind the last slot of the stop there is none, if the
search from there returns. -/
theorem findNext_visit (hd : T.duplicates = true) {i s : ℕ} (hij : i ≤ j) (hsK : s < T.kernelSize)
    (hlast : i = j → s = T.kernelSize - 1 → ∃ q, m.locateNext ideal
      (m.visit key j + (T.kernelSize - 1)) (seqAt T key j) key = .ok (none, q)) :
    ∃ q, m.findNext ideal (m.visit key i + s) (seqAt T key i) key =
      .ok (firstOr (m.matchesBehind key i s j) q) := by
  suffices hloc : ∃ r q, m.locateNext ideal (m.visit key i + s) (seqAt T key i) key = .ok r ∧
      (r.1.map Prod.fst, r.2) = firstOr (m.matchesBehind key i s j) q by
    obtain ⟨r, q, hr, hf⟩ := hloc
    refine ⟨q, ?_⟩
    rw [findNext, if_pos hd, hr, ok_bind, ← hf]
  have hj := hs.lt
  by_cases hend : T.kernelSize - 1 ≤ s
  · obtain rfl : s = T.kernelSize - 1 := by omega
    have hnil : m.matchesAbove key i ((T.kernelSize - 1 : ℕ) : ℤ) = [] := by
      rw [Nat.cast_sub T.kernelSize_pos]
      exact matchesAbove_last h.toShape key
    rw [matchesBehind, hnil, List.nil_append]
    by_cases hlt : i < j
    · rw [locateNext_visit h hs hij hsK, if_pos hend,
        if_pos (hasNext_mono (by omega : i + 1 ≤ j) hs.next), if_pos (by omega),
        matchesFrom_succ m key (by omega : i + 1 ≤ j), ← matchesAbove_neg_one]
      obtain ⟨r, q, hr, hf⟩ := nextLoop_firstOr h hs (m.numBuckets + 1)
        (i := i + 1) (a := -1) (by omega) (by omega)
      exact ⟨r, q, hr, hf⟩
    · obtain rfl : i = j := by omega
      obtain ⟨q, hr⟩ := hlast rfl rfl
      rw [matchesFrom_nil]
      exact ⟨_, q, hr, rfl⟩
  · rw [locateNext_visit h hs hij hsK, if_neg hend]
    obtain ⟨r, q, hr, hf⟩ := nextLoop_firstOr h hs (m.numBuckets + 1) (a := s) hij (by omega)
    exact ⟨r, q, hr, hf⟩

omit hs in
theorem mem_matchesBehind {i i' d : ℕ} {a : ℤ} (hle : i' ≤ j) (hd : d < T.kernelSize)
    (hst : m.Stores key (m.visit key i' + d)) (hlt : i < i' ∨ i = i' ∧ a < d) :
    (m.visit key i' + d, seqAt T key i') ∈ m.matchesBehind key i a j := by
  have hat := h.mem_matchesAt.mpr ⟨hst, MapType.off_add (h.dvd_visit key i') hd, rfl⟩
  rw [matchesBehind, List.mem_append]
  rcases hlt with hlt | ⟨rfl, hlt⟩
  · refine Or.inr (List.mem_flatMap.mpr ⟨i', List.mem_range'_1.mpr ?_, hat⟩)
    omega
  · refine Or.inl (List.mem_filter.mpr ⟨hat, ?_⟩)
    rw [decide_eq_true_iff]
    push_cast
    omega

/-! ### Enumeration -/

omit hs in
/-- A first entry that follows a slot is a slot of the key, up to the stop. -/
theorem matchesBehind_head {i : ℕ} {a : ℤ} {x : ℕ × ProbeSeq} {l : List (ℕ × ProbeSeq)}
    (hij : i ≤ j) (hl : m.matchesBehind key i a j = x :: l) :
    ∃ i' d, i' ≤ j ∧ d < T.kernelSize ∧ x = (m.visit key i' + d, seqAt T key i') ∧
      m.Stores key (m.visit key i' + d) ∧ l = m.matchesBehind key i' d j := by
  obtain ⟨i', d, -, hj', rfl, hmem, rfl⟩ := matchesBehind_cons _ rfl hij hl
  obtain ⟨hst, hoff, -⟩ := h.mem_matchesAt.mp hmem
  have := T.lt_off_add (m.visit key i' + d)
  exact ⟨i', d, hj', by omega, rfl, hst, rfl⟩

/-- The repeated `find_next` lists what lies behind a slot of the key, if the search behind the last
slot of the stop returns. -/
theorem enumerateNext_ok (hd : T.duplicates = true)
    (hlast : m.Stores key (m.visit key j + (T.kernelSize - 1)) → ∃ q, m.locateNext ideal
      (m.visit key j + (T.kernelSize - 1)) (seqAt T key j) key = .ok (none, q)) :
    ∀ (n : ℕ) {i s : ℕ}, i ≤ j → s < T.kernelSize → m.Stores key (m.visit key i + s) →
    (m.matchesBehind key i s j).length < n →
    enumerateNext ideal m key n (m.visit key i + s) (seqAt T key i) =
      .ok (m.matchesBehind key i s j)
  | 0, _, _, _, _, _, hn => absurd hn (Nat.not_lt_zero _)
  | n + 1, i, s, hij, hsK, hst, hn => by
      obtain ⟨q, hr⟩ := findNext_visit h hs hd hij hsK fun h1 h2 => hlast (by rwa [h1, h2] at hst)
      rw [enumerateNext, hr, ok_bind]
      cases hl : m.matchesBehind key i s j with
      | nil => rfl
      | cons x l =>
          obtain ⟨i', d, hj', hdK, rfl, hst', rfl⟩ := matchesBehind_head h hij hl
          rw [hl, List.length_cons] at hn
          change enumerateNext ideal m key n _ _ >>= _ = _
          rw [enumerateNext_ok hd hlast n hj' hdK hst' (by omega), ok_bind]

/-- It fails, if that search does. -/
theorem enumerateNext_error (hd : T.duplicates = true)
    (hst' : m.Stores key (m.visit key j + (T.kernelSize - 1))) {e : Err}
    (he : m.locateNext ideal (m.visit key j + (T.kernelSize - 1)) (seqAt T key j) key = .error e) :
    ∀ (n : ℕ) {i s : ℕ}, i ≤ j → s < T.kernelSize →
    (m.matchesBehind key i s j).length < n →
    enumerateNext ideal m key n (m.visit key i + s) (seqAt T key i) = .error e
  | 0, _, _, _, _, hn => absurd hn (Nat.not_lt_zero _)
  | n + 1, i, s, hij, hsK, hn => by
      rw [enumerateNext]
      by_cases hend : i = j ∧ s = T.kernelSize - 1
      · obtain ⟨rfl, rfl⟩ := hend
        rw [findNext, if_pos hd, he, error_bind, error_bind]
      obtain ⟨q, hr⟩ := findNext_visit h hs hd hij hsK fun h1 h2 => absurd ⟨h1, h2⟩ hend
      rw [hr, ok_bind]
      -- the last slot of the stop is behind this one
      have hmem := mem_matchesBehind h (i := i) (a := s) le_rfl (by omega) hst' (by omega)
      cases hl : m.matchesBehind key i s j with
      | nil =>
          rw [hl] at hmem
          cases hmem
      | cons x l =>
          obtain ⟨i', d, hj', hdK, rfl, -, rfl⟩ := matchesBehind_head h hij hl
          rw [hl, List.length_cons] at hn
          change enumerateNext ideal m key n _ _ >>= _ = _
          rw [enumerateNext_error hd hst' he n hj' hdK (by omega), error_bind]

omit h hs in
theorem matchesUpTo_split (m : Map T ν) (key : κ) {i : ℕ} (hij : i ≤ j) :
    m.matchesUpTo key (j + 1) =
      m.matchesUpTo key i ++ (m.matchesAt key i ++ m.matchesFrom key (i + 1) j) := by
  rw [← matchesFrom_succ m key hij, matchesUpTo, matchesUpTo, matchesFrom, ← List.flatMap_append,
    List.range_eq_range', List.range_eq_range', show j + 1 = i + (j + 1 - i) by omega,
    ← List.range'_append_1, Nat.zero_add, Nat.add_sub_cancel_left]

variable {e : ℕ} (he : e < m.capacity) (hempty : m.stateAt e = empty)
include he hempty

/-- `find_first` returns the first entry. -/
theorem findFirst_firstOr :
    ∃ q, m.findFirst ideal key = .ok (firstOr (m.matchesUpTo key (j + 1)) q) := by
  suffices hloc : ∃ r, m.locateFirst ideal key = .ok r ∧
      ∃ q, (r.1.map Prod.fst, r.2) = firstOr (m.matchesUpTo key (j + 1)) q by
    obtain ⟨r, hr, q, hf⟩ := hloc
    refine ⟨q, ?_⟩
    rw [findFirst, hr, ok_bind, ← hf]
  refine (probe_cases h.toShape (fun i _ => i ≤ j + 1 ∧ m.FullUpTo key i ∧
    m.matchesUpTo key i = []) _ ⟨Nat.zero_le _, fullUpTo_zero m key, rfl⟩ ?_ ?_).resolve_right
      fun hc => ?_
  · rintro i - hi hn ⟨-, hfull, hnil⟩
    have ho := h.visit_add_le key i
    have hij := hs.le_of_next hn hfull
    rw [matchesUpTo_split m key hij, hnil, List.nil_append]
    dsimp only
    rw [firstMatch, ← List.head?_filter, matchesAt]
    cases hf : (ideal.hits (m.bucket (m.visit key i)) (keyState T key)).filter
        fun d => T.key.eq (m.keyAt (m.visit key i + d)) key with
    | cons d l => exact ⟨default, rfl⟩
    | nil =>
        have hat : m.matchesAt key i = [] := by rw [matchesAt, hf, List.map_nil]
        rw [List.map_nil, List.nil_append]
        dsimp only [List.head?_nil]
        split_ifs with hb
        · obtain rfl : i = j := by
            by_contra hne
            exact hs.full i (by omega) ((h.hasEmpty_iff ho).mp hb)
          rw [matchesFrom_nil]
          exact ⟨_, rfl⟩
        · exact ⟨by omega, hfull.succ fun hc => hb ((h.hasEmpty_iff ho).mpr hc),
            by rw [matchesUpTo_succ, hnil, hat, List.nil_append]⟩
  · rintro i - - hn ⟨hle, -, hnil⟩
    obtain rfl : i = j + 1 := by
      by_contra hne
      rw [hasNext_mono (by omega : i ≤ j) hs.next] at hn
      cases hn
    rw [hnil]
    exact ⟨_, rfl⟩
  · obtain ⟨-, _, -, hfull, -⟩ := hc
    exact h.not_all_full he hempty key hfull

/-- `for_each_(key)` visits the entries up to the stop. -/
theorem forEachKey_stop (hd : T.duplicates = true) :
    m.forEachKey ideal key = .ok (m.matchesUpTo key (j + 1)) := by
  suffices hspec : ∃ l, m.forEachKey ideal key = .ok l ∧ l = m.matchesUpTo key (j + 1) by
    obtain ⟨l, hr, rfl⟩ := hspec
    exact hr
  refine (probe_cases h.toShape (fun i acc => i ≤ j + 1 ∧ m.FullUpTo key i ∧
    acc = m.matchesUpTo key i) _ ⟨Nat.zero_le _, fullUpTo_zero m key, rfl⟩ ?_ ?_).resolve_right
      fun hc => ?_
  · rintro i acc hi hn ⟨-, hfull, rfl⟩
    have ho := h.visit_add_le key i
    have hij := hs.le_of_next hn hfull
    have hsucc := m.matchesUpTo_succ key i
    dsimp only
    rw [if_pos hd]
    split_ifs with hb
    · obtain rfl : i = j := by
        by_contra hne
        exact hs.full i (by omega) ((h.hasEmpty_iff ho).mp hb)
      exact hsucc.symm
    · exact ⟨by omega, hfull.succ fun hc => hb ((h.hasEmpty_iff ho).mpr hc), hsucc.symm⟩
  · rintro i acc - hn ⟨hle, -, rfl⟩
    obtain rfl : i = j + 1 := by
      by_contra hne
      rw [hasNext_mono (by omega : i ≤ j) hs.next] at hn
      cases hn
    rfl
  · obtain ⟨-, _, -, hfull, -⟩ := hc
    exact h.not_all_full he hempty key hfull

omit hs he hempty in
theorem matchesUpTo_length (hj : j < m.numBuckets) :
    (m.matchesUpTo key (j + 1)).length ≤ m.capacity := by
  have hsub := List.Nodup.subperm (h.matchesUpTo_nodup key (Nat.succ_le_of_lt hj))
    fun p hp => List.mem_range.mpr (h.mem_matchesUpTo.mp hp).1.1.1
  have := hsub.length_le
  rwa [List.length_map, List.length_range] at this

/-- The enumeration, in terms of the step at which the searches stop. -/
theorem enumerate_spec (hd : T.duplicates = true) :
    ((m.Stores key (m.visit key j + (T.kernelSize - 1)) → ∃ q, m.locateNext ideal
        (m.visit key j + (T.kernelSize - 1)) (seqAt T key j) key = .ok (none, q)) →
      m.enumerate ideal key = .ok (m.matchesUpTo key (j + 1))) ∧
    ∀ err, m.Stores key (m.visit key j + (T.kernelSize - 1)) →
      m.locateNext ideal (m.visit key j + (T.kernelSize - 1)) (seqAt T key j) key = .error err →
      m.enumerate ideal key = .error err := by
  obtain ⟨q, hr⟩ := findFirst_firstOr h hs he hempty
  have hlength : (m.matchesUpTo key (j + 1)).length ≤ m.capacity := matchesUpTo_length h hs.lt
  have hbehind : m.matchesBehind key 0 (-1) j = m.matchesUpTo key (j + 1) := by
    rw [matchesBehind, matchesAbove_neg_one, matchesUpTo_eq, ← matchesFrom_succ _ _ (Nat.zero_le j)]
  rw [enumerate, hr, ok_bind]
  cases hl : m.matchesUpTo key (j + 1) with
  | nil =>
      refine ⟨fun _ => rfl, fun _ hlast _ => ?_⟩
      have hmem := h.mem_matchesUpTo.mpr ⟨hlast, j, Nat.lt_succ_self j,
        (MapType.off_add (h.dvd_visit key j) (Nat.sub_lt T.kernelSize_pos one_pos)).symm⟩
      rw [hl] at hmem
      cases hmem
  | cons x l =>
      rw [hl, List.length_cons] at hlength
      obtain ⟨i', d, hj', hdK, rfl, hst', rfl⟩ :=
        matchesBehind_head h (Nat.zero_le j) (hbehind.trans hl)
      constructor
      · intro hlast
        change enumerateNext ideal m key _ _ _ >>= _ = _
        rw [enumerateNext_ok h hs hd hlast (m.capacity + 1) hj' hdK hst' (by omega), ok_bind]
      · intro err hlast herr
        change enumerateNext ideal m key _ _ _ >>= _ = _
        rw [enumerateNext_error h hs hd hlast herr (m.capacity + 1) hj' hdK (by omega), error_bind]

end Stop

end Next

/-! ### Behind the stop -/

/-- No bucket with an empty slot lies before an entry of `key` on its probe sequence. -/
def Reached (m : Map T ν) (key : κ) : Prop := ∀ p, m.Stores key p → m.Reaches key (T.off p)

/-- No entry of the key lies in a bucket after the first one with an empty slot. -/
theorem Reached.visit_of_stores {m : Map T ν} {key : κ} (hr : m.Reached key) {j : ℕ}
    (he : m.HasEmpty (m.visit key j)) {p : ℕ} (hp : m.Stores key p) :
    ∃ i ≤ j, m.visit key i = T.off p := by
  obtain ⟨i, -, hv, hfull⟩ := hr p hp
  refine ⟨i, ?_, hv⟩
  by_contra hlt
  exact hfull j (by omega) he

section Beyond
variable {m : Map T ν} (hS : T.seq.isUnbounded = true) (h : Sound m) {key : κ}
  (hreach : m.Reached key) {j : ℕ} (hstop : m.HasEmpty (m.visit key j))
include h hreach hstop

/-- No entry of the key lies behind the stop. -/
theorem matchesAt_beyond {i : ℕ} (hi : j < i) (hlt : i < m.numBuckets) :
    m.matchesAt key i = [] := by
  rw [List.eq_nil_iff_forall_not_mem]
  rintro ⟨p, q⟩ hpq
  obtain ⟨hst, hoff, -⟩ := h.mem_matchesAt.mp hpq
  obtain ⟨i', hi', hv⟩ := hreach.visit_of_stores hstop hst
  have := h.visit_inj (by omega) hlt (hv.trans hoff)
  omega

include hS

/-- The search beyond the stop ends at the next bucket with an empty slot, or not at all. -/
theorem nextLoop_beyond : ∀ (n : ℕ) {i : ℕ}, j < i → i < m.numBuckets → m.numBuckets - i ≤ n →
    ((∃ i' < m.numBuckets, i ≤ i' ∧ m.HasEmpty (m.visit key i')) →
      ∃ q, nextLoop ideal m key n (seqAt T key i) (-1) = .ok (none, q)) ∧
    ((∀ i' < m.numBuckets, i ≤ i' → ¬ m.HasEmpty (m.visit key i')) →
      nextLoop ideal m key n (seqAt T key i) (-1) = .error .nextFull)
  | 0, _, _, hlt, hn => by omega
  | n + 1, i, hi, hlt, hn => by
      have ho := h.visit_add_le key i
      have hnil : m.matchesAbove key i (-1) = [] := by
        rw [matchesAbove_neg_one]
        exact matchesAt_beyond h hreach hstop hi hlt
      rw [nextLoop, visit_eq]
      rcases m.firstMatch_above_eq_head key i (-1) with ⟨-, hm⟩ | ⟨d, l, hcons, -⟩
      · rw [hm]
        dsimp only
        by_cases hb : ideal.hasEmpty (m.bucket (m.visit key i)) = true
        · rw [if_pos hb]
          exact ⟨fun _ => ⟨_, rfl⟩, fun hall =>
            absurd ((h.hasEmpty_iff ho).mp hb) (hall i hlt le_rfl)⟩
        · rw [if_neg hb, seqAt_succ, if_pos (ProbeSeq.hasNext_of_unbounded _ hS _)]
          have hnot : ¬ m.HasEmpty (m.visit key i) := fun hc => hb ((h.hasEmpty_iff ho).mpr hc)
          by_cases hnext : i + 1 < m.numBuckets
          · rw [if_pos ((h.psl_lt key).mpr hnext)]
            obtain ⟨hsome, hnone⟩ := nextLoop_beyond n (i := i + 1) (by omega) hnext (by omega)
            constructor
            · rintro ⟨i', hlt', hle, he⟩
              refine hsome ⟨i', hlt', ?_, he⟩
              rcases Nat.eq_or_lt_of_le hle with rfl | hlt
              · exact absurd he hnot
              · exact hlt
            · exact fun hall => hnone fun i' hlt' hle => hall i' hlt' (by omega)
          · rw [if_neg (mt (h.psl_lt key).mp hnext)]
            refine ⟨?_, fun _ => rfl⟩
            rintro ⟨i', hlt', hle, he⟩
            obtain rfl : i' = i := by omega
            exact absurd he hnot
      · rw [hnil] at hcons
        cases hcons

/-- No bucket after step `j` has an empty slot. -/
def NoEmptyBeyond (m : Map T ν) (key : κ) (j : ℕ) : Prop :=
  ∀ i < m.numBuckets, j < i → ¬ m.HasEmpty (m.visit key i)

/-- The search behind the last slot of the stop returns if some later bucket has an empty slot, and
else runs past the end. -/
theorem locateNext_last (hs : m.StopsAt key j) :
    (¬ m.NoEmptyBeyond key j → ∃ q, m.locateNext ideal (m.visit key j + (T.kernelSize - 1))
      (seqAt T key j) key = .ok (none, q)) ∧
    (m.NoEmptyBeyond key j → m.locateNext ideal (m.visit key j + (T.kernelSize - 1))
      (seqAt T key j) key = .error .nextFull) := by
  have hK := T.kernelSize_pos
  rw [locateNext_visit h hs le_rfl (by omega), if_pos le_rfl,
    if_pos (ProbeSeq.hasNext_of_unbounded _ hS _)]
  constructor
  · intro hmore
    rw [NoEmptyBeyond] at hmore
    push Not at hmore
    obtain ⟨i', hi', hlt', he⟩ := hmore
    rw [if_pos (by omega)]
    exact (nextLoop_beyond hS h hreach hstop (m.numBuckets + 1) (i := j + 1) (by omega)
      (by omega) (by omega)).1 ⟨i', hi', hlt', he⟩
  · intro hbeyond
    split_ifs with hlt
    · exact (nextLoop_beyond hS h hreach hstop (m.numBuckets + 1) (i := j + 1) (by omega) hlt
        (by omega)).2 fun i' hi' hle => hbeyond i' hi' (by omega)
    · rfl

end Beyond

/-! ### The exact condition -/

/-- The last slot of the only bucket with empty slots holds the key. -/
def Alone (m : Map T ν) (key : κ) : Prop :=
  ∃ pos, m.Stores key pos ∧ pos = T.off pos + (T.kernelSize - 1) ∧ m.HasEmpty (T.off pos) ∧
    ∀ p < m.capacity, m.stateAt p = empty → T.off p = T.off pos

theorem alone_iff {m : Map T ν} (h : Sound m) {key : κ} (hreach : m.Reached key) {j : ℕ}
    (hj : j < m.numBuckets) (hfull : m.FullUpTo key j) (hstop : m.HasEmpty (m.visit key j)) :
    m.Alone key ↔
      m.Stores key (m.visit key j + (T.kernelSize - 1)) ∧ m.NoEmptyBeyond key j := by
  have hK := T.kernelSize_pos
  have hoff : T.off (m.visit key j + (T.kernelSize - 1)) = m.visit key j :=
    MapType.off_add (h.dvd_visit key j) (by omega)
  constructor
  · rintro ⟨pos, hst, hlast, he, hall⟩
    obtain ⟨i, hi, hv⟩ := hreach.visit_of_stores hstop hst
    obtain rfl : i = j := by
      by_contra hne
      exact hfull i (by omega) (hv ▸ he)
    rw [hv, ← hlast]
    refine ⟨hst, fun i' hi' hlt hc => ?_⟩
    obtain ⟨d, hd, hs⟩ := hc
    have hle := h.visit_add_le key i'
    have hsame := hall _ (by omega) hs
    rw [MapType.off_add (h.dvd_visit key i') hd, ← hv] at hsame
    have := h.visit_inj hi' hj hsame
    omega
  · rintro ⟨hst, hbeyond⟩
    refine ⟨_, hst, by rw [hoff], by rwa [hoff], fun p hp hs => ?_⟩
    obtain ⟨i, hi, hv⟩ := h.exists_visit key (T.dvd_off p) (lt_of_le_of_lt (T.off_le p) hp)
    have he : m.HasEmpty (m.visit key i) := by
      rw [hv]
      exact hasEmpty_of_eq hs
    rcases lt_trichotomy i j with hlt | rfl | hlt
    · exact absurd he (hfull i hlt)
    · rw [hoff, hv]
    · exact absurd he (hbeyond i hi hlt)

section Enumerate
variable {m : Map T ν}

theorem enumerateNext_eq {B : BucketOps} (hB : B.Lawful T.kernelSize) (h : Sound m) (key : κ) :
    ∀ (n pos : ℕ) (seq : ProbeSeq),
      m.enumerateNext B key n pos seq = m.enumerateNext ideal key n pos seq
  | 0, _, _ => rfl
  | n + 1, pos, seq => by
      rw [enumerateNext, enumerateNext, findNext_eq hB h]
      simp only [enumerateNext_eq hB h key n]

theorem enumerate_eq {B : BucketOps} (hB : B.Lawful T.kernelSize) (h : Sound m) (key : κ) :
    m.enumerate B key = m.enumerate ideal key := by
  rw [enumerate, enumerate, findFirst_eq hB h]
  simp only [enumerateNext_eq hB h key]

variable [Inhabited ν] (B : Kernel T.kernelSize) (conf : Conf T.conf)

/-- The enumeration of a key: the calls return, and list each entry of the key once, in the order
of `for_each_(key)`. -/
def Enumerates (B : BucketOps) (m : Map T ν) (key : κ) : Prop :=
  ∃ l, m.enumerate B key = .ok l ∧ (l.map Prod.fst).Nodup ∧
    (∀ p, p ∈ l.map Prod.fst ↔ m.Stores key p) ∧ m.forEachKey B key = .ok l ∧
    m.count B key = .ok l.length

omit [Inhabited ν] in
theorem enumerates_iff (hd : T.duplicates = true) (hS : T.seq.isUnbounded = true) (h : Exact m)
    (key : κ) : m.Enumerates ideal key ↔ m.Reached key ∧ ¬ m.Alone key := by
  obtain ⟨e, he, hemp⟩ := h.exists_empty
  have hnext : ∀ i, (seqAt T key i).hasNext T.seq = true :=
    fun i => ProbeSeq.hasNext_of_unbounded _ hS _
  obtain ⟨j, hs⟩ : ∃ j, m.StopsAt key j := by
    refine (h.exists_stopsAt he hemp key).resolve_left fun hc => ?_
    rw [hnext] at hc
    cases hc
  have hstop : m.HasEmpty (m.visit key j) := by
    refine hs.stop.resolve_right fun hc => ?_
    rw [hnext] at hc
    cases hc
  have hr := forEachKey_stop h.toSound hs he hemp hd
  obtain ⟨hok, herr⟩ := enumerate_spec h.toSound hs he hemp hd
  rw [Enumerates, count, hr, ok_bind]
  constructor
  · rintro ⟨l, hl, -, hmem, hall, -⟩
    obtain rfl := Except.ok.inj hall
    have hreach : m.Reached key := by
      intro p hp
      obtain ⟨-, i, hi, hv⟩ := h.mem_matchesUpTo.mp ((hmem p).mpr hp)
      have hlt := hs.lt
      exact ⟨i, by omega, hv, fun i' hi' => hs.full i' (by omega)⟩
    refine ⟨hreach, fun halone => ?_⟩
    obtain ⟨hst, hnone⟩ := (alone_iff h.toSound hreach hs.lt hs.full hstop).mp halone
    rw [herr _ hst ((locateNext_last hS h.toSound hreach hstop hs).2 hnone)] at hl
    cases hl
  · rintro ⟨hreach, hnot⟩
    rw [alone_iff h.toSound hreach hs.lt hs.full hstop] at hnot
    refine ⟨_, hok fun hst => (locateNext_last hS h.toSound hreach hstop hs).1 fun hnone =>
      hnot ⟨hst, hnone⟩, h.matchesUpTo_nodup key hs.lt, fun p => ?_, rfl, rfl⟩
    rw [h.mem_matchesUpTo]
    refine ⟨fun hp => hp.1, fun hp => ⟨hp, ?_⟩⟩
    obtain ⟨i, hi, hv⟩ := hreach.visit_of_stores hstop hp
    exact ⟨i, by omega, hv⟩

omit [Inhabited ν] in
theorem enumerates_eq {B : BucketOps} (hB : B.Lawful T.kernelSize) (h : Sound m) (key : κ) :
    m.Enumerates B key ↔ m.Enumerates ideal key := by
  rw [Enumerates, Enumerates, enumerate_eq hB h, forEachKey_eq hB h, count_eq hB h]

/-- `for_each_(key)` visits the slots of the key, each once, `find_first` and `find_next` list the
same slots in the same order, `count` is their number, and none of the calls fails, if and only if
no bucket with an empty slot lies before an entry of the key, and the last slot of the only bucket
with empty slots does not hold the key.  The first half of the condition fails for kernel size 1
only, after a scrub that cuts a chain. -/
theorem enumerate_iff (hd : T.duplicates = true) (hS : T.seq.isUnbounded = true)
    {P : Map T ν → Op κ ν → Prop} {m : Map T ν} (hm : (runs B conf P).Reachable m) :
    (∀ key, m.Enumerates B.ops key ↔ m.Reached key ∧ ¬ m.Alone key) ∧
      (2 ≤ T.kernelSize ∨ (runs B conf (ScrubsSafe B)).Reachable m →
        Inv m ∧ ∀ key, m.Reached key) := by
  obtain ⟨h, -⟩ := exact_of_reachable B conf hm
  refine ⟨fun key => (enumerates_eq B.lawful h.toSound key).trans (enumerates_iff hd hS h key),
    fun hsafe => ?_⟩
  have hinv : Inv m := by
    rcases hsafe with hK | hm
    · exact (inv_of_reachable B conf hS (fun m op h _ =>
        ScrubsSafe.scrubsOk B hS h ((h.valid hS).scrubsSafe B hK op)) hm).1
    · exact (inv_of_reachable B conf hS (fun m op h hop => ScrubsSafe.scrubsOk B hS h hop) hm).1
  exact ⟨hinv, fun key p hp => hinv.chain_of_stores hp⟩

end Enumerate

/-- Three entries of key 0, one of them in the last slot of the only bucket with an empty slot: the
enumeration runs past the end of the probe sequence. -/
theorem enumerate_fails : ∃ rs m,
    wordExec 2 true [.insert 0, .insert 0, .insert 0, .insert 0, .insert 0, .eraseFirst 0,
        .eraseFirst 0, .scrub, .insert 1, .insert 1, .insert 1, .insert 1] = .ok (rs, m) ∧
      (m.forEachKey (wordKernel 2 true).ops 0).map (List.map Prod.fst) = .ok [0, 2, 3] ∧
      m.enumerate (wordKernel 2 true).ops 0 = .error .nextFull := by
  obtain ⟨rs, m, hr, hsound, hf⟩ := exists_wordExec 2 true
    [.insert 0, .insert 0, .insert 0, .insert 0, .insert 0, .eraseFirst 0,
      .eraseFirst 0, .scrub, .insert 1, .insert 1, .insert 1, .insert 1]
    (fun r => ((r.2.forEachKey ideal 0).map (List.map Prod.fst), r.2.enumerate ideal 0))
    (.ok [0, 2, 3], .error .nextFull) (by decide +kernel)
  obtain ⟨hall, hfail⟩ := Prod.mk.inj hf
  refine ⟨rs, m, hr, ?_, (enumerate_eq (wordKernel 2 true).lawful hsound 0).trans hfail⟩
  rw [forEachKey_eq (wordKernel 2 true).lawful hsound]
  exact hall

/-- Five entries of one key, in two buckets. -/
theorem enumerate_words : ∃ rs m,
    wordExec 2 true [.insert 0, .insert 0, .insert 0, .insert 0, .insert 0, .eraseFirst 0]
        = .ok (rs, m) ∧ m.size = 4 ∧
      (∀ key, m.Enumerates (wordKernel 2 true).ops key ↔ m.Reached key ∧ ¬ m.Alone key) ∧
      Inv m ∧ ∀ key, m.Reached key := by
  obtain ⟨rs, m, hr, -, hsize⟩ := exists_wordExec 2 true
    [.insert 0, .insert 0, .insert 0, .insert 0, .insert 0, .eraseFirst 0]
    (fun r => r.2.size) 4 (by decide +kernel)
  obtain ⟨hall, hsafe⟩ := enumerate_iff (wordKernel 2 true) (wordConf 2 true) rfl rfl
    (reachable_of_wordExec 2 true (by simp [Op.isScrub]) hr)
  exact ⟨rs, m, hr, hsize, hall, hsafe (Or.inl (by decide))⟩

end Map

end Nvhm
