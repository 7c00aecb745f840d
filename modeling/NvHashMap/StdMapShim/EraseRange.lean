import NvHashMap.Map.Still
import NvHashMap.StdMapShim

/-! # What `erase(first, last)` removes

An erase may end in a scrub, which moves entries, also over the iterator of `erase(first, last)`.

* If the table is `Quiet`, no scrub moves an entry before the last erase of the range, so every
  entry of the range is erased in its slot (`Quiet.erases`).
* If it is `Separate`, scrubs may move entries, but none of the range, and none into it
  (`Separate.erases`).
* If it is not quiet, the iterator comes to an entry whose erase scrubs, and the scrub moves
  something (`exists_moving`).  The moved entries may stay on one side of the iterator, so this
  alone does not tell what is removed. -/

namespace Nvhm

open Buffer SlotCount

namespace Map
variable {κ ν : Type} {T : MapType κ} [Inhabited κ] [Inhabited ν]

section Table
variable (m : Map T ν)

/-- Erasing the entry at `pos` leaves a tombstone. -/
def buries (pos : ℕ) : Bool := m.containsAt pos && !ideal.hasEmpty (m.bucket (T.off pos))

/-- The number of tombstones that the erases from `first` to `pos` leave. -/
def numBuried (first : ℤ) (pos : ℕ) : ℕ :=
  countSlots m.capacity id fun q => m.buries q && decide (first ≤ q) && decide (q ≤ pos)

/-- The erase at `pos` comes to a scrub if none before it, from `first` on, has moved anything. -/
def ScrubsAt (first : ℤ) (pos : ℕ) : Prop := m.buries pos = true ∧ T.autoScrub = true ∧
  m.conf.shouldScrub m.capacity (m.numTombstone + m.numBuried first pos) = true

/-- The slots with the entries that are left after the erases from `first` to `pos`. -/
def Left (first : ℤ) (pos q : ℕ) : Prop := m.Occupied q ∧ ¬ (first ≤ q ∧ q ≤ pos)

/-- Whenever an erase of the range scrubs, the entries that are left stay; or all slots up to `last`
are empty and the chains are whole, so that it is the last erase and nothing moves there. -/
def Quiet (first last : ℤ) : Prop := ∀ pos < m.capacity, first ≤ (pos : ℤ) → (pos : ℤ) < last →
  m.ScrubsAt first pos → m.AllStay (m.Left first pos) ∨
    Linked m ∧ ∀ q < m.capacity, pos < q → (q : ℤ) < last → m.stateAt q = empty

/-- No entry of the range has a slot upstream, and no slot of the range is upstream of an entry. -/
def Separate (first last : ℤ) : Prop := ∀ q, m.Occupied q → ∀ d < m.capacity, m.Precedes d q →
  ¬ (first ≤ q ∧ (q : ℤ) < last) ∧ ¬ (first ≤ d ∧ (d : ℤ) < last)

end Table

/-! ### The loop -/

section Loop
variable {m : Map T ν}

/-- The table when an erase has freed the slot at `pos`. -/
def freedAt (m : Map T ν) (pos : ℕ) : Map T ν := m.free (ideal.hasEmpty (m.bucket (T.off pos))) pos

theorem Exact.freedAt (h : Exact m) {pos : ℕ} (ho : m.Occupied pos) :
    Freed m (m.freedAt pos) [pos] :=
  h.freed ho (h.hasEmpty_iff (h.off_add_le ho.1))

/-- An erase at an iterator to an entry frees its slot, and may end in a scrub. -/
theorem eraseIter_eq (hT : T.autoShrink = false) (h : Shape m) {pos : ℕ} (ho : m.Occupied pos) :
    ((m.freedAt pos).wouldScrub (burried (ideal.hasEmpty (m.bucket (T.off pos)))) = false →
      m.eraseIter ideal pos = .ok (m.freedAt pos)) ∧
    ((m.freedAt pos).wouldScrub (burried (ideal.hasEmpty (m.bucket (T.off pos)))) = true →
      ∀ n m', (m.freedAt pos).scrub_ ideal = .ok (n, m') → m.eraseIter ideal pos = .ok m') := by
  have heq : m.eraseIter ideal pos = match autoShrinkAndScub ideal (m.freedAt pos)
      (burried (ideal.hasEmpty (m.bucket (T.off pos)))) with
      | .ok (_, m') => .ok m'
      | .error e => .error (.inner e) := by
    unfold eraseIter eraseAt
    rw [if_neg (by omega), Int.toNat_natCast, if_pos ho.1, if_pos ho.2, h.off_eq ho.1]
    unfold eraseSlot resetSlot freedAt burried
    dsimp only
    cases autoShrinkAndScub ideal (m.free (ideal.hasEmpty (m.bucket (T.off pos))) pos)
      (if ideal.hasEmpty (m.bucket (T.off pos)) = true then 0 else 1) with
    | error e => rfl
    | ok r => rfl
  rw [heq]
  constructor
  · intro hw
    rw [wouldScrub, hT, Bool.false_and, Bool.not_false, Bool.true_and] at hw
    rw [autoShrinkAndScub, hT, Bool.false_and, if_neg Bool.false_ne_true, hw,
      if_neg Bool.false_ne_true]
  · intro hw n m' hr
    rw [autoShrinkAndScub_scrub hw hr]

/-- The erase at `pos` removes the entry of this slot, and leaves those of the slots up to `last`. -/
structure Erases (m m' : Map T ν) (pos : ℕ) (last : ℤ) : Prop where
  exact : Exact m'
  capacity_eq : m'.capacity = m.capacity
  entries_eq : m.entries = m.entryAt pos ::ₘ m'.entries
  entriesIn_eq : m'.entriesIn (pos + 1) last = (m.freedAt pos).entriesIn (pos + 1) last

theorem Exact.erases (h : Exact m) {pos : ℕ} (ho : m.Occupied pos) (last : ℤ) :
    Erases m (m.freedAt pos) pos last where
  exact := (h.freedAt ho).exact
  capacity_eq := (h.freedAt ho).frame.capacity
  entries_eq := entries_free h.toShape ho _
  entriesIn_eq := rfl

/-- The rule for an invariant that every erase keeps. -/
theorem eraseRangeLoop_rule {last : ℤ} (I : ℤ → Map T ν → Prop)
    (hstep : ∀ (m : Map T ν) (pos : ℕ), Exact m → last ≤ m.capacity → I pos m → m.Occupied pos →
      (pos : ℤ) < last → ∃ m', m.eraseIter ideal pos = .ok m' ∧ Erases m m' pos last ∧
        I (m'.outer.next pos) m') :
    ∀ (n : ℕ) {first : ℤ} {m : Map T ν}, Exact m → I first m → first ∈ m.outer.Places →
    0 ≤ first → last ≤ m.capacity → last ≤ first + n →
    ∃ f m', m.eraseRangeLoop ideal last n first = .ok (f, m') ∧
      m.entries = m'.entries + m.entriesIn first last
  | 0, first, m, _, _, _, _, _, hn => by
      refine ⟨first, m, rfl, ?_⟩
      rw [entriesIn_eq_zero (by push_cast at hn; omega), add_zero]
  | n + 1, first, m, h, hI, hfirst, h0, hlast, hn => by
      rw [eraseRangeLoop]
      split_ifs with hlt
      · obtain ⟨pos, rfl⟩ := Int.eq_ofNat_of_zero_le h0
        have hcap : pos < m.capacity := by omega
        have ho : m.Occupied pos := ⟨hcap, hfirst h0 (Int.ofNat_lt.mpr hcap)⟩
        obtain ⟨m₁, hr, he, hI₁⟩ := hstep m pos h hlast hI ho hlt
        obtain ⟨hmem, hgt, -⟩ := m₁.outer.next_spec pos
        have hcap₁ := he.capacity_eq
        obtain ⟨f, m', hloop, hentries⟩ := eraseRangeLoop_rule I hstep n he.exact hI₁ hmem
          (by omega) (by omega) (by push_cast at hn; omega)
        rw [hr, ok_bind]
        refine ⟨f, m', hloop, ?_⟩
        have hin : m.entriesIn pos last = m.entryAt pos ::ₘ (m.freedAt pos).entriesIn (pos + 1) last :=
          entriesIn_free h.toShape ho _ hlt
        rw [he.entries_eq, hentries, entriesIn_next, he.entriesIn_eq, hin, Multiset.add_cons]
      · refine ⟨first, m, rfl, ?_⟩
        rw [entriesIn_eq_zero (not_lt.mp hlt), add_zero]

end Loop

/-! ### One erase -/

section Round
variable {m : Map T ν} (h : Exact m) {pos : ℕ} (ho : m.Occupied pos)
include h ho

omit [Inhabited ν] in
theorem freedAt_stateAt {q : ℕ} (hq : q ≠ pos) : (m.freedAt pos).stateAt q = m.stateAt q := by
  rw [freedAt, free_stateAt h.toShape _ ho.1, Function.update_of_ne hq]

theorem freedAt_occupied (q : ℕ) : (m.freedAt pos).Occupied q ↔ m.Occupied q ∧ q ≠ pos := by
  rw [(h.freedAt ho).occupied_iff, List.mem_singleton]

/-- The iterator comes to the next entry. -/
theorem next_le {q : ℕ} (hq : m.Occupied q) (hlt : pos < q) :
    (m.freedAt pos).outer.next pos ≤ q :=
  ((m.freedAt pos).outer.next_spec pos).2.2 q
    (fun _ _ => ((freedAt_occupied h ho q).mpr ⟨hq, hlt.ne'⟩).2) (Int.ofNat_lt.mpr hlt)

theorem freedAt_buries {q : ℕ} (hq : q < m.capacity) :
    (m.freedAt pos).buries q = (m.buries q && decide (q ≠ pos)) := by
  have hf := h.freedAt ho
  have hle := h.off_add_le hq
  have hempty : ideal.hasEmpty ((m.freedAt pos).bucket (T.off q)) =
      ideal.hasEmpty (m.bucket (T.off q)) := by
    rw [Bool.eq_iff_iff, hf.exact.hasEmpty_iff (by rwa [hf.frame.capacity]), h.hasEmpty_iff hle]
    exact hf.hasEmpty_iff _ (T.dvd_off q)
  unfold buries
  rw [hempty]
  by_cases hqp : q = pos
  · have hfree : (m.freedAt pos).containsAt pos = false := by
      rw [freedAt, containsAt, free_stateAt h.toShape _ ho.1, Function.update_self, isHash_freed]
    rw [hqp, hfree]
    simp
  · rw [containsAt, freedAt_stateAt h ho hqp]
    simp [hqp, containsAt]

omit [Inhabited κ] [Inhabited ν] h in
theorem freedAt_numTombstone :
    (m.freedAt pos).numTombstone = m.numTombstone + (m.buries pos).toNat := by
  rw [freedAt, free_numTombstone, buries, ho.2, Bool.true_and]
  cases ideal.hasEmpty (m.bucket (T.off pos)) <;> rfl

theorem freedAt_numBuried {q : ℕ} (hpq : pos ≤ q) :
    (m.freedAt pos).numBuried ((m.freedAt pos).outer.next pos) q + (m.buries pos).toNat =
      m.numBuried pos q := by
  have hcap := (h.freedAt ho).frame.capacity
  have hgt := ((m.freedAt pos).outer.next_spec pos).2.1
  have hupd := countSlots_update ho.1 id
    (fun x => m.buries x && decide ((pos : ℤ) ≤ x) && decide (x ≤ q)) false
  have hself : (m.buries pos && decide ((pos : ℤ) ≤ pos) && decide (pos ≤ q)) = m.buries pos := by
    simp [hpq]
  rw [hself] at hupd
  unfold numBuried
  rw [hcap, countSlots_congr (g := Function.update (fun x => m.buries x && decide ((pos : ℤ) ≤ x) &&
    decide (x ≤ q)) pos false) fun x hx => ?_]
  · rw [← Nat.add_zero (countSlots m.capacity id fun x => _)]
    cases hb : m.buries pos <;> simpa [hb] using hupd
  · rw [freedAt_buries h ho hx]
    by_cases hxp : x = pos
    · rw [hxp, Function.update_self]
      simp
    · rw [Function.update_of_ne hxp]
      cases hb : m.buries x with
      | false => rfl
      | true =>
          have hocc : m.Occupied x := ⟨hx, (Bool.and_eq_true_iff.mp hb).1⟩
          have hiff : (m.freedAt pos).outer.next pos ≤ x ↔ (pos : ℤ) ≤ x :=
            ⟨fun hle => by omega, fun hle => next_le h ho hocc (by omega)⟩
          simp [hxp, hiff]

/-- The erases that scrub are the same. -/
theorem freedAt_scrubsAt {q : ℕ} (hq : q < m.capacity) (hpq : pos < q) :
    (m.freedAt pos).ScrubsAt ((m.freedAt pos).outer.next pos) q ↔ m.ScrubsAt pos q := by
  have hf := h.freedAt ho
  unfold ScrubsAt
  rw [freedAt_buries h ho hq, decide_eq_true hpq.ne', Bool.and_true, hf.frame.conf,
    hf.frame.capacity, freedAt_numTombstone ho, ← freedAt_numBuried h ho hpq.le]
  push_cast
  rw [add_assoc, add_comm ((m.buries pos).toNat : ℤ)]

/-- The entries that are left are the same. -/
theorem freedAt_allStay {q : ℕ} (hpq : pos ≤ q) :
    (m.freedAt pos).AllStay ((m.freedAt pos).Left ((m.freedAt pos).outer.next pos) q) ↔
      m.AllStay (m.Left pos q) := by
  have hf := h.freedAt ho
  have hgt := ((m.freedAt pos).outer.next_spec pos).2.1
  refine AllStay.congr hf.frame hf.keyAt_eq fun x => ?_
  unfold Left
  rw [freedAt_occupied h ho]
  constructor
  · rintro ⟨⟨hx, hne⟩, hn⟩
    exact ⟨hx, fun hc => hn ⟨next_le h ho hx (by omega), hc.2⟩⟩
  · rintro ⟨hx, hn⟩
    exact ⟨⟨hx, fun hc => hn (by omega)⟩, fun hc => hn (by omega)⟩

theorem freedAt_left (q : ℕ) : (m.freedAt pos).Occupied q ↔ m.Left pos pos q := by
  rw [freedAt_occupied h ho]
  exact and_congr_right fun _ => by omega

/-- Whether the erase at `pos` scrubs. -/
theorem freedAt_wouldScrub (hT : T.autoShrink = false) :
    (m.freedAt pos).wouldScrub (burried (ideal.hasEmpty (m.bucket (T.off pos)))) = true ↔
      m.ScrubsAt pos pos := by
  have hf := h.freedAt ho
  have hone : m.numBuried pos pos = (m.buries pos).toNat := by
    have hnext := freedAt_numBuried h ho le_rfl
    have hgt := ((m.freedAt pos).outer.next_spec pos).2.1
    have hzero : (m.freedAt pos).numBuried ((m.freedAt pos).outer.next pos) pos = 0 := by
      refine countSlots_eq_zero.mpr fun x _ => ?_
      simp only [id, Bool.and_eq_false_iff, decide_eq_false_iff_not]
      omega
    omega
  have hn : (burried (ideal.hasEmpty (m.bucket (T.off pos))) != 0) = m.buries pos := by
    rw [buries, ho.2, Bool.true_and]
    cases ideal.hasEmpty (m.bucket (T.off pos)) <;> rfl
  unfold wouldScrub ScrubsAt
  rw [hT, Bool.false_and, Bool.not_false, Bool.true_and, hn, hf.frame.conf, hf.frame.capacity,
    freedAt_numTombstone ho, hone, Bool.and_eq_true, Bool.and_eq_true]
  exact ⟨fun hc => ⟨hc.1.2, hc.1.1, hc.2⟩, fun hc => ⟨⟨hc.2.1, hc.1⟩, hc.2.2⟩⟩

/-- What is left of a quiet table is quiet. -/
theorem Quiet.next {last : ℤ} (hq : m.Quiet pos last) :
    (m.freedAt pos).Quiet ((m.freedAt pos).outer.next pos) last := by
  have hf := h.freedAt ho
  have hgt := ((m.freedAt pos).outer.next_spec pos).2.1
  intro q hcap hle hlt hs
  rw [hf.frame.capacity] at hcap
  have hpq : pos < q := by omega
  rw [freedAt_scrubsAt h ho hcap hpq] at hs
  rw [freedAt_allStay h ho hpq.le]
  refine (hq q hcap (by omega) hlt hs).imp id fun ⟨hl, hemp⟩ => ⟨?_, fun x hx hqx hxl => ?_⟩
  · exact hl.free ho.1 fun hb => (h.hasEmpty_iff (h.off_add_le ho.1)).mp hb
  · rw [hf.frame.capacity] at hx
    rw [freedAt_stateAt h ho (by omega)]
    exact hemp x hx hqx hxl

end Round

/-! ### Quiet tables -/

section Quiet
variable (hT : T.autoShrink = false)

omit [Inhabited κ] [Inhabited ν] in
/-- No entry lies between the iterator and `last`. -/
theorem le_next {m : Map T ν} {pos : ℕ} {last : ℤ} (hlast : last ≤ m.capacity)
    (hfree : ∀ q < m.capacity, pos < q → (q : ℤ) < last → m.containsAt q = false) :
    last ≤ m.outer.next pos := by
  obtain ⟨hmem, hgt, -⟩ := m.outer.next_spec pos
  by_contra hlt
  obtain ⟨q, hq⟩ := Int.eq_ofNat_of_zero_le (a := m.outer.next pos) (by omega)
  have hcap : q < m.capacity := by omega
  have hc := hmem (by omega) (Int.lt_of_lt_of_le (not_le.mp hlt) hlast)
  rw [hq, Int.toNat_natCast] at hc
  have hno := hfree q hcap (by omega) (by omega)
  exact Bool.false_ne_true (hno.symm.trans hc)

/-- A move fills a tombstone, so empty slots stay empty. -/
theorem moveInv_empty (m : Map T ν) : MoveInv fun m' : Map T ν =>
    (Exact m' ∧ Linked m') ∧ ∀ q, m.stateAt q = empty → m'.stateAt q = empty := by
  refine ⟨fun h => h.1.2, fun ⟨⟨hx, hl⟩, hemp⟩ hm hb =>
    ⟨⟨move_exact hx hm.toMovable hb, move_linked hl hm hb⟩, fun q hq => ?_⟩⟩
  have hstate := hemp q hq
  rw [move_stateAt hx.toSound hm.toMovable, Function.update_of_ne, Function.update_of_ne, hstate]
  · rintro rfl
    exact empty_ne_tombstone (hstate.symm.trans hm.tomb)
  · rintro rfl
    exact ne_empty_of_isHash hm.occupied.isHash hstate

include hT in
/-- The step lemma for quiet tables. -/
theorem Quiet.erases {m : Map T ν} (h : Exact m) {pos : ℕ} (ho : m.Occupied pos) {last : ℤ}
    (hlast : last ≤ m.capacity) (hlt : (pos : ℤ) < last) (hq : m.Quiet pos last) :
    ∃ m', m.eraseIter ideal pos = .ok m' ∧ Erases m m' pos last ∧
      m'.Quiet (m'.outer.next pos) last := by
  have hf := h.freedAt ho
  obtain ⟨hquiet, hscrub⟩ := eraseIter_eq hT h.toShape ho
  by_cases hs : m.ScrubsAt pos pos
  · have hw := (freedAt_wouldScrub h ho hT).mpr hs
    rcases hq pos ho.1 le_rfl hlt hs with hall | ⟨hl, hemp⟩
    · have hstill : (m.freedAt pos).AllStay (m.freedAt pos).Occupied :=
        (AllStay.congr hf.frame hf.keyAt_eq (freedAt_left h ho)).mpr hall
      exact ⟨_, hscrub hw 0 _ (scrub_still hf.exact hstill), h.erases ho last, hq.next h ho⟩
    · -- the last erase: the scrub moves nothing into the empty slots up to `last`
      have hl₁ : Linked (m.freedAt pos) :=
        hl.free ho.1 fun hb => (h.hasEmpty_iff (h.off_add_le ho.1)).mp hb
      obtain ⟨n, m₁, m₂, D, hr, ⟨-, hempty⟩, hp⟩ :=
        scrub_inv (moveInv_empty (m.freedAt pos)) (fun h => h.1.1) ⟨⟨hf.exact, hl₁⟩, fun _ => id⟩
      obtain ⟨hex, hentries, hframe⟩ := scrub_exact hf.exact hr
      have hcap := hframe.capacity.trans hf.frame.capacity
      have hfree₁ : ∀ q < m.capacity, pos < q → (q : ℤ) < last →
          (m.freedAt pos).stateAt q = empty := fun q hq hpq hql => by
        rw [freedAt_stateAt h ho hpq.ne']
        exact hemp q hq hpq hql
      have hfree₂ : ∀ q < m₂.capacity, pos < q → (q : ℤ) < last → m₂.containsAt q = false := by
        intro q hq hpq hql
        have hstate := hempty q (hfree₁ q (by omega) hpq hql)
        rw [hp.frame.capacity] at hq
        rcases hp.stateAt_eq_or q hq with heq | heq <;> rw [containsAt, heq]
        · rw [hstate]
          rfl
        · rfl
      refine ⟨m₂, hscrub hw n m₂ hr, ⟨hex, hcap, ?_, ?_⟩, fun q _ hle hlt' _ => ?_⟩
      · rw [hentries]
        exact entries_free h.toShape ho _
      · rw [entriesIn, entriesIn, collect_eq_zero, collect_eq_zero]
        · intro q hq
          rw [hf.frame.capacity] at hq
          by_cases hc : pos < q ∧ (q : ℤ) < last
          · rw [containsAt, hfree₁ q hq hc.1 hc.2]
            rfl
          · simp only [Bool.and_eq_false_iff, decide_eq_false_iff_not]
            omega
        · intro q hq
          by_cases hc : pos < q ∧ (q : ℤ) < last
          · rw [hfree₂ q hq hc.1 hc.2]
            rfl
          · simp only [Bool.and_eq_false_iff, decide_eq_false_iff_not]
            omega
      · have := le_next (by omega) hfree₂
        omega
  · have hw := Bool.eq_false_iff.mpr fun hw => hs ((freedAt_wouldScrub h ho hT).mp hw)
    exact ⟨_, hquiet hw, h.erases ho last, hq.next h ho⟩

omit [Inhabited ν] in
theorem quiet_of_noScrub {m : Map T ν} (hscrub : T.autoScrub = false) (first last : ℤ) :
    m.Quiet first last := by
  rintro pos _ _ _ ⟨-, hs, -⟩
  rw [hscrub] at hs
  cases hs

include hT in
/-- Where an erase scrubs and some entry does not stay, the iterator comes to such an erase, and its
scrub moves something. -/
theorem exists_moving (q : ℕ) : ∀ (n : ℕ) {first : ℤ} {m : Map T ν}, Exact m →
    first ∈ m.outer.Places → 0 ≤ first → first ≤ q → (q : ℤ) < first + n → q < m.capacity →
    m.ScrubsAt first q → ¬ m.AllStay (m.Left first q) →
    ∃ (pos : ℕ) (m₀ m₁ : Map T ν), first ≤ (pos : ℤ) ∧ pos ≤ q ∧
      (∀ k : ℕ, (pos : ℤ) ≤ first + k →
        m.eraseRangeLoop ideal pos k first = .ok ((pos : ℤ), m₀)) ∧
      Exact m₀ ∧ m₀.scrubArg ideal (.eraseAt pos) = some m₁ ∧
      ∀ n m₂, m₁.scrub_ ideal = .ok (n, m₂) → n ≠ 0
  | 0, first, m, _, _, _, hle, hn, _, _, _ => by
      push_cast at hn
      omega
  | n + 1, first, m, h, hfirst, h0, hle, hn, hcap, hs, hmoves => by
      obtain ⟨pos, rfl⟩ := Int.eq_ofNat_of_zero_le h0
      have hpcap : pos < m.capacity := by omega
      have ho : m.Occupied pos := ⟨hpcap, hfirst h0 (Int.ofNat_lt.mpr hpcap)⟩
      have hf := h.freedAt ho
      obtain ⟨hquiet, hscrub⟩ := eraseIter_eq hT h.toShape ho
      by_cases hbad : m.ScrubsAt pos pos ∧ ¬ m.AllStay (m.Left pos pos)
      · refine ⟨pos, m, m.freedAt pos, le_rfl, Int.ofNat_le.mp hle, fun k _ => ?_, h, ?_, ?_⟩
        · cases k with
          | zero => rfl
          | succ k => rw [eraseRangeLoop, if_neg (lt_irrefl _)]
        · rw [scrubArg, if_pos ⟨ho.1, ho.2⟩, h.toShape.off_eq ho.1]
          exact if_pos ((freedAt_wouldScrub h ho hT).mpr hbad.1)
        · rintro n m₂ hr rfl
          have ht : (m.freedAt pos).numTombstone ≠ 0 := by
            have hcount := h.numTombstone_eq
            rw [freedAt_numTombstone ho, hbad.1.1]
            change _ + 1 ≠ (0 : ℤ)
            omega
          exact hbad.2 ((AllStay.congr hf.frame hf.keyAt_eq (freedAt_left h ho)).mp
            (allStay_of_scrub hf.exact ht hr))
      · have hne : q ≠ pos := by
          rintro rfl
          exact hbad ⟨hs, hmoves⟩
        have hpq : pos < q := by omega
        have hr : m.eraseIter ideal pos = .ok (m.freedAt pos) := by
          by_cases hs' : m.ScrubsAt pos pos
          · have hall := Classical.not_not.mp fun hc => hbad ⟨hs', hc⟩
            exact hscrub ((freedAt_wouldScrub h ho hT).mpr hs') 0 _ (scrub_still hf.exact
              ((AllStay.congr hf.frame hf.keyAt_eq (freedAt_left h ho)).mpr hall))
          · exact hquiet (Bool.eq_false_iff.mpr fun hw => hs' ((freedAt_wouldScrub h ho hT).mp hw))
        have hocc : m.Occupied q := ⟨hcap, (Bool.and_eq_true_iff.mp hs.1).1⟩
        obtain ⟨hmem, hgt, -⟩ := (m.freedAt pos).outer.next_spec pos
        have hcap₁ := hf.frame.capacity
        obtain ⟨p, m₀, m₁, hp, hpq', hloop, hrest⟩ := exists_moving q n hf.exact hmem (by omega)
          (next_le h ho hocc hpq) (by push_cast at hn; omega) (by omega)
          ((freedAt_scrubsAt h ho hcap hpq).mpr hs)
          fun hc => hmoves ((freedAt_allStay h ho hpq.le).mp hc)
        refine ⟨p, m₀, m₁, by omega, hpq', fun k hk => ?_, hrest⟩
        cases k with
        | zero =>
            push_cast at hk
            omega
        | succ k =>
            rw [eraseRangeLoop, if_pos (by omega), hr, ok_bind]
            exact hloop k (by push_cast at hk; omega)

end Quiet

/-! ### Separate ranges -/

section Separate
variable {m m' : Map T ν} {a b : ℤ}

omit [Inhabited ν] in
theorem Separate.mono (hs : m.Separate a b) {a' : ℤ} (ha : a ≤ a') : m.Separate a' b :=
  fun q hq d hd hp => ⟨fun hc => (hs q hq d hd hp).1 ⟨by omega, hc.2⟩,
    fun hc => (hs q hq d hd hp).2 ⟨by omega, hc.2⟩⟩

omit [Inhabited ν] in
/-- Fewer entries at the same keys. -/
theorem Separate.of_occupied (hs : m.Separate a b) (hf : Frame m m') (hk : m'.keyAt = m.keyAt)
    (hocc : ∀ q, m'.Occupied q → m.Occupied q) : m'.Separate a b := by
  intro q hq d hd hp
  rw [hf.capacity] at hd
  unfold Precedes at hp
  simp only [hf.numBuckets, hf.visit, hk] at hp
  exact hs q (hocc q hq) d hd hp

/-- A move keeps the slots of the range, and keeps the range separate. -/
theorem moveInv_separate (m : Map T ν) (a b : ℤ) : MoveInv fun m' : Map T ν =>
    Valid m' ∧ m'.Separate a b ∧ Frame m m' ∧ ∀ q : ℕ, a ≤ q → (q : ℤ) < b →
      m'.stateAt q = m.stateAt q ∧ m'.entryAt q = m.entryAt q := by
  refine ⟨fun h => h.1.linked, ?_⟩
  rintro m' src dst e ⟨hv, hs, hf, hsame⟩ hm he
  have hmv := hm.toMovable
  have hframe := moveEntry_frame m' e src dst
  obtain ⟨hsrc, hdst⟩ := hs src hm.occupied dst hm.lt hm.precedes
  refine ⟨move_valid hv hm he, fun q hq d hd hp => ?_, hf.trans hframe, fun q hqa hqb => ?_⟩
  · rw [hframe.capacity] at hd
    rcases (move_occupied hv.toSound hmv e q).mp hq with rfl | ⟨hne, ho⟩
    · obtain ⟨hpre, -⟩ := move_precedes_self hv.toSound hm e hd hp
      exact ⟨hdst, (hs src hm.occupied d hd hpre).2⟩
    · have hqd : q ≠ dst := by
        rintro rfl
        exact ne_tombstone_of_isHash ho.isHash hm.tomb
      exact hs q ho d hd ((move_precedes hv.toSound hmv e d hqd).mp hp)
  · have hqs : q ≠ src := by
      rintro rfl
      exact hsrc ⟨hqa, hqb⟩
    have hqd : q ≠ dst := by
      rintro rfl
      exact hdst ⟨hqa, hqb⟩
    rw [move_stateAt hv.toSound hmv, Function.update_of_ne hqs, Function.update_of_ne hqd,
      moveEntry_entryAt, copyEntry_entryAt hv.toShape hv.toShape rfl hm.occupied.1 hm.lt,
      Function.update_of_ne hqd]
    exact hsame q hqa hqb

/-- The step lemma for separate ranges. -/
theorem Separate.erases (hT : T.autoShrink = false) (hK : 2 ≤ T.kernelSize) (h : Valid m) {pos : ℕ}
    (ho : m.Occupied pos) {last : ℤ} (hs : m.Separate pos last) :
    ∃ m', m.eraseIter ideal pos = .ok m' ∧ Erases m m' pos last ∧ Valid m' ∧
      m'.Separate (m'.outer.next pos) last := by
  have hf := h.exact.freedAt ho
  have hv : Valid (m.freedAt pos) := hf.frees.valid h
  have hs₁ : (m.freedAt pos).Separate (pos + 1) last :=
    (hs.of_occupied hf.frame hf.keyAt_eq fun q hq => ((hf.occupied_iff q).mp hq).1).mono (by omega)
  obtain ⟨hquiet, hscrub⟩ := eraseIter_eq hT h.toShape ho
  cases hw : (m.freedAt pos).wouldScrub (burried (ideal.hasEmpty (m.bucket (T.off pos)))) with
  | false =>
      have hgt := ((m.freedAt pos).outer.next_spec pos).2.1
      exact ⟨_, hquiet hw, h.exact.erases ho last, hv, hs₁.mono (by omega)⟩
  | true =>
      obtain ⟨n, m₁, m₂, D, hr, ⟨-, hsep, hframe, hsame⟩, hp⟩ :=
        scrub_inv (moveInv_separate (m.freedAt pos) (pos + 1) last) (fun h => h.1.exact)
          ⟨hv, hs₁, Frame.refl _, fun _ _ _ => ⟨rfl, rfl⟩⟩
      obtain ⟨n', m₂', hr', -, -, -, hvalid, -⟩ := scrub_valid hv
      obtain ⟨rfl, rfl⟩ := Prod.mk.inj (Except.ok.inj (hr.symm.trans hr'))
      obtain ⟨-, hentries, hf₂⟩ := scrub_exact hf.exact hr
      have hv₂ := hvalid (scrubSafe_of_two_le hK hv.linked)
      have hgt := (m₂.outer.next_spec pos).2.1
      refine ⟨m₂, hscrub hw n m₂ hr, ⟨hv₂.exact, hf₂.capacity.trans hf.frame.capacity, ?_, ?_⟩,
        hv₂, (hsep.of_occupied hp.frame hp.keyAt_eq fun q => (hp.occupied_iff q).mp).mono (by omega)⟩
      · rw [hentries]
        exact entries_free h.toShape ho _
      · unfold entriesIn
        rw [hf₂.capacity]
        refine collect_congr (fun q hq => ?_) fun q hq hc => ?_
        · by_cases hr : (pos + 1 : ℤ) ≤ q ∧ (q : ℤ) < last
          · have hocc := hp.occupied_iff q
            rw [Occupied, Occupied, hp.frame.capacity, hframe.capacity] at hocc
            have hsame : m₂.containsAt q = (m.freedAt pos).containsAt q := by
              rw [Bool.eq_iff_iff, containsAt, containsAt, ← (hsame q hr.1 hr.2).1]
              exact ⟨fun hc => (hocc.mp ⟨hq, hc⟩).2, fun hc => (hocc.mpr ⟨hq, hc⟩).2⟩
            rw [hsame]
          · have hno : (decide ((pos + 1 : ℤ) ≤ q) && decide ((q : ℤ) < last)) = false := by
              simp only [Bool.and_eq_false_iff, decide_eq_false_iff_not]
              omega
            rw [Bool.and_assoc, Bool.and_assoc, hno, Bool.and_false, Bool.and_false]
        · simp only [Bool.and_eq_true, decide_eq_true_eq] at hc
          rw [hp.entryAt_eq]
          exact (hsame q hc.1.2 hc.2).2

end Separate

/-! ### Main result -/

section Main
variable (B : Kernel T.kernelSize) (conf : Conf T.conf)

/-- The condition on a table under which `erase(first, last)` removes exactly its range. -/
def EraseSafe (m : Map T ν) (first last : ℤ) : Prop :=
  m.Quiet first last ∨ 2 ≤ T.kernelSize ∧ m.Separate first last

/-- The run lemma for the loop. -/
theorem eraseRange_removes (hT : T.autoShrink = false) {m : Map T ν} (h : Exact m)
    (hv : 2 ≤ T.kernelSize → Valid m) {first last : ℤ} (hfirst : first ∈ m.outer.Places)
    (h0 : 0 ≤ first) (hlast : last ≤ m.outer.end_) (hs : m.EraseSafe first last) :
    ∃ f m', m.eraseRange ideal first last = .ok (f, m') ∧
      m.entries = m'.entries + m.entriesIn first last := by
  unfold eraseRange
  rw [hT, if_neg Bool.false_ne_true]
  have hn : last ≤ first + (last - first).toNat := by omega
  rcases hs with hq | ⟨hK, hs⟩
  · exact eraseRangeLoop_rule (fun first m => m.Quiet first last)
      (fun m pos h hlast hq ho hlt => hq.erases hT h ho hlast hlt) _ h hq hfirst h0 hlast hn
  · exact eraseRangeLoop_rule (fun first m => Valid m ∧ m.Separate first last)
      (fun m pos _ _ hs ho _ => hs.2.erases hT hK hs.1 ho) _ h ⟨hv hK, hs⟩ hfirst h0 hlast hn

/-- Whatever was called on a map: `erase(first, last)` removes exactly the entries of the range if
its erases scrub without moving anything before the last one, or if no scrub can move an entry of
the range or into the range; so does `erase(begin(), end())` all entries.  If the table is not
quiet, then the iterator comes to an erase whose scrub moves something, and there are slots left up
to `last` that are not empty. -/
theorem erase_range_removes (hT : T.autoShrink = false) {P : Map T ν → Op κ ν → Prop} {m : Map T ν}
    (hm : (runs B conf P).Reachable m) {first last : ℤ} (hfirst : first ∈ m.outer.Places)
    (h0 : 0 ≤ first) (hlast : last ≤ m.outer.end_) :
    (m.EraseSafe first last → ∃ f m', m.eraseRange B.ops first last = .ok (f, m') ∧
      m.entries = m'.entries + m.entriesIn first last) ∧
    (m.EraseSafe (m.begin_ B.ops) m.outer.end_ →
      ∃ f m', m.eraseRange B.ops (m.begin_ B.ops) m.outer.end_ = .ok (f, m') ∧ m'.entries = 0) ∧
    (¬ m.Quiet first last → ∃ (pos : ℕ) (m₀ m₁ : Map T ν), (pos : ℤ) < last ∧
      m.eraseRange B.ops first pos = .ok ((pos : ℤ), m₀) ∧
      m₀.scrubArg B.ops (.eraseAt pos) = some m₁ ∧
      (∀ n m₂, m₁.scrub_ B.ops = .ok (n, m₂) → n ≠ 0) ∧
      (Linked m → ∃ q < m.capacity, pos < q ∧ (q : ℤ) < last ∧ m.stateAt q ≠ empty)) ∧
    (T.autoScrub = false → m.Quiet first last) := by
  obtain ⟨h, -⟩ := exact_of_reachable B conf hm
  have hv : 2 ≤ T.kernelSize → Valid m := fun hK => valid_of_two_le B conf hK hm
  have hlists := h.toShape.lists
  have hbegin : m.begin_ B.ops = m.outer.begin_ (m.positions ideal).head? := by
    rw [begin_, front_eq, positions_eq B.lawful h.toSound]
  refine ⟨fun hs => ?_, fun hs => ?_, fun hq => ?_, fun hscrub => quiet_of_noScrub hscrub _ _⟩
  · rw [(eraseRange_agree B.lawful h.toSound first last).1]
    exact eraseRange_removes hT h hv hfirst h0 hlast hs
  · have hall : m.entriesIn (m.begin_ B.ops) m.outer.end_ = m.entries := by
      rw [hbegin]
      exact entriesIn_all fun p hp => hlists.begin_le_of_mem (h.toShape.mem_positions.mpr hp)
    have hnonneg : 0 ≤ m.begin_ B.ops := by
      rw [hbegin]
      unfold Outer.begin_
      split <;> exact Int.natCast_nonneg _
    have hplace : m.begin_ B.ops ∈ m.outer.Places := hbegin ▸ hlists.begin_mem
    obtain ⟨f, m', hr, hentries⟩ := eraseRange_removes hT h hv hplace hnonneg le_rfl hs
    rw [hall, right_eq_add] at hentries
    rw [(eraseRange_agree B.lawful h.toSound _ _).1]
    exact ⟨f, m', hr, hentries⟩
  · unfold Quiet at hq
    push Not at hq
    obtain ⟨q, hcap, hle, hlt, hs, hmoves, hahead⟩ := hq
    obtain ⟨pos, m₀, m₁, hfp, hpq, hloop, h₀, hop, hne⟩ := exists_moving hT q
      (last - first).toNat h hfirst h0 hle (by omega) hcap hs hmoves
    have hr : m.eraseRange ideal first pos = .ok ((pos : ℤ), m₀) := by
      unfold eraseRange
      rw [hT, if_neg Bool.false_ne_true]
      exact hloop _ (by omega)
    obtain ⟨⟨l, hf⟩, -⟩ := scrubArg_spec h₀ hop
    have h₁ : Exact m₁ := (Changes.exact (P := fun _ => False) h₀ hf.changes).1
    refine ⟨pos, m₀, m₁, by omega, (eraseRange_agree B.lawful h.toSound _ _).1.trans hr, ?_,
      fun n m₂ hr₂ => hne n m₂ ?_, fun hl => ?_⟩
    · rwa [scrubArg_eq B.lawful h₀.toSound]
    · rwa [(scrub_agree B.lawful h₁.toSound).1] at hr₂
    · rcases Nat.eq_or_lt_of_le hpq with rfl | hlt'
      · exact hahead hl
      · have hocc : m.Occupied q := ⟨hcap, (Bool.and_eq_true_iff.mp hs.1).1⟩
        exact ⟨q, hcap, hlt', hlt, ne_empty_of_isHash hocc.isHash⟩

end Main

/-- The maps of words with two slots per bucket, with `auto_scrub`. -/
def scrubMap : MapType (Fin (2 ^ 64)) := { wordMap 1 false with autoScrub := true }

/-- A sequence of calls on a new one. -/
def scrubExec (ops : List (Op (Fin (2 ^ 64)) ℕ)) : Except Err (List Result × Map scrubMap ℕ) :=
  exec scrubMap (wordKernel 1 false).ops (wordConf 1 false) ops

/-- Five entries: erasing them all leaves one of the first bucket. -/
theorem erase_range_leaves : ∃ rs m f m',
    scrubExec [.insert 0, .insert 8, .insert 16, .insert 1, .insert 2] = .ok (rs, m) ∧
      m.eraseRange (wordKernel 1 false).ops (m.begin_ (wordKernel 1 false).ops) m.outer.end_ =
        .ok (f, m') ∧ m'.size = 1 ∧ m'.Occupied 0 := by
  obtain ⟨rs, m, hr, hsound, hf⟩ := exists_exec (T := scrubMap) (wordKernel 1 false)
    (wordConf 1 false) [.insert 0, .insert 8, .insert 16, .insert 1, .insert 2]
    (fun x : List Result × Map scrubMap ℕ =>
      match x.2.eraseRange ideal (x.2.begin_ ideal) x.2.outer.end_ with
      | .ok (_, m') => some (m'.size, m'.capacity, m'.containsAt 0)
      | .error _ => none)
    (some (1, 8, true)) (by decide +kernel)
  have hB := (wordKernel 1 false).lawful
  have hbegin : m.begin_ (wordKernel 1 false).ops = m.begin_ ideal := by
    rw [begin_, begin_, front_eq, front_eq, positions_eq (T := scrubMap) hB hsound]
  have hagree := (eraseRange_agree (T := scrubMap) hB hsound (m.begin_ ideal) m.outer.end_).1
  cases he : m.eraseRange ideal (m.begin_ ideal) m.outer.end_ with
  | error e =>
      rw [he] at hf
      cases hf
  | ok r =>
      rw [he] at hf hagree
      obtain ⟨hsize, hocc⟩ := Prod.mk.inj (Option.some.inj hf)
      obtain ⟨hcap, hocc⟩ := Prod.mk.inj hocc
      refine ⟨rs, m, r.1, r.2, hr, ?_, hsize, by rw [hcap]; decide, hocc⟩
      rw [hbegin]
      exact hagree

/-- The same entries in a map without `auto_scrub`. -/
theorem erase_range_words : ∃ rs m f m',
    wordExec 1 false [.insert 0, .insert 8, .insert 16, .insert 1, .insert 2] = .ok (rs, m) ∧
      m.eraseRange (wordKernel 1 false).ops 1 3 = .ok (f, m') ∧
      m.entries = m'.entries + m.entriesIn 1 3 := by
  obtain ⟨rs, m, hr, -, hf⟩ := exists_wordExec 1 false
    [.insert 0, .insert 8, .insert 16, .insert 1, .insert 2]
    (fun x => (x.2.containsAt 1, x.2.capacity)) (true, 8) (by decide +kernel)
  obtain ⟨hc, hcap⟩ := Prod.mk.inj hf
  have hfirst : (1 : ℤ) ∈ m.outer.Places := fun _ _ => hc
  have hlast : (3 : ℤ) ≤ m.outer.end_ := by
    change (3 : ℤ) ≤ m.capacity
    rw [show m.capacity = 8 from hcap]
    decide
  obtain ⟨hremoves, -, -, hquiet⟩ := erase_range_removes (wordKernel 1 false) (wordConf 1 false) rfl
    (reachable_of_wordExec 1 false (by simp [Op.isScrub]) hr) hfirst (by decide) hlast
  obtain ⟨f, m', herase, hentries⟩ := hremoves (Or.inl (hquiet rfl))
  exact ⟨rs, m, f, m', hr, herase, hentries⟩

end Map

end Nvhm
