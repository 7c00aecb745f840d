import NvHashMap.Map.Change

/-! # Positions

A program may keep the position of an entry across calls.

* An insert that keeps the capacity writes one slot, of which it returns the position.
* An erase that returns a position writes the slot at this position.  If it relocates an entry, by a
  rebuild or a scrub, then it returns none. -/

namespace Nvhm

open SlotCount

variable {κ ν : Type} {T : MapType κ} [Inhabited κ] [Inhabited ν]

namespace Map

/-! ### Entries that stay -/

section Stays
variable {m m' : Map T ν}

/-- The entry at `pos` is at the same place in `m'`, with its state, key, value and blob. -/
def Same (m m' : Map T ν) (pos : ℕ) : Prop :=
  m'.Occupied pos ∧ m'.stateAt pos = m.stateAt pos ∧ m'.entryAt pos = m.entryAt pos

/-- All entries stay but the one at `pos`. -/
def StayBut (m m' : Map T ν) (pos : ℕ) : Prop := ∀ q, m.Occupied q → q ≠ pos → m.Same m' q

/-- Some slot holds an entry that it did not hold before. -/
def Relocated (m m' : Map T ν) : Prop := ∃ q, m'.Occupied q ∧ ¬ (m.Occupied q ∧ m.Same m' q)

/-- What an erase that returns `r` does to the places of the entries. -/
structure ErasedAt (m m' : Map T ν) (r : Option ℕ) : Prop where
  gone : ∀ pos, r = some pos → ¬ m'.Occupied pos
  stay : ∀ pos, r = some pos → m.StayBut m' pos
  relocated : m.Relocated m' → r = none

theorem Same.refl {pos : ℕ} (h : m.Occupied pos) : m.Same m pos := ⟨h, rfl, rfl⟩

theorem StayBut.refl (m : Map T ν) (pos : ℕ) : m.StayBut m pos := fun _ hq _ => Same.refl hq

theorem not_relocated (m : Map T ν) : ¬ m.Relocated m := fun ⟨_, hq, hn⟩ => hn ⟨hq, Same.refl hq⟩

/-- A slot that is freed leaves the others alone. -/
theorem stayBut_free (h : Shape m) {pos : ℕ} (hp : pos < m.capacity) (b : Bool) :
    m.StayBut (m.free b pos) pos := by
  intro q hq hne
  have hst : (m.free b pos).stateAt q = m.stateAt q := by
    rw [free_stateAt h b hp, Function.update_of_ne hne]
  refine ⟨⟨?_, ?_⟩, hst, ?_⟩
  · rw [(free_frame m b pos).capacity]
    exact hq.1
  · unfold containsAt
    rw [hst]
    exact hq.2
  · rw [free_entryAt]

/-- A slot that is filled leaves the others alone. -/
theorem stayBut_occupy (h : Shape m) {pos : ℕ} (hp : pos < m.capacity) (key : κ) (e : ℤ) :
    m.StayBut (m.occupy pos key e) pos := by
  intro q hq hne
  have hst : (m.occupy pos key e).stateAt q = m.stateAt q := by
    rw [occupy_stateAt h hp, Function.update_of_ne hne]
  refine ⟨⟨hq.1, ?_⟩, hst, occupy_entryAt_ne h hp key e hne⟩
  unfold containsAt
  rw [hst]
  exact hq.2

omit [Inhabited κ] [Inhabited ν] in
theorem occupied_of_free (h : Shape m) {pos : ℕ} (hp : pos < m.capacity) {b : Bool} {q : ℕ}
    (hq : (m.free b pos).Occupied q) : q ≠ pos ∧ m.Occupied q :=
  occupied_of_release (free_frame m b pos) (isHash_freed b) (free_stateAt h b hp) hq

theorem not_relocated_free (h : Shape m) {pos : ℕ} (hp : pos < m.capacity) (b : Bool) :
    ¬ m.Relocated (m.free b pos) := by
  rintro ⟨q, hq, hn⟩
  obtain ⟨hne, ho⟩ := occupied_of_free h hp hq
  exact hn ⟨ho, stayBut_free h hp b q ho hne⟩

/-! ### Erase -/

theorem erasedAt_none (m m' : Map T ν) : ErasedAt m m' none where
  gone _ hr := by cases hr
  stay _ hr := by cases hr
  relocated _ := rfl

theorem erasedAt_free (h : Shape m) {pos : ℕ} (hp : pos < m.capacity) (b : Bool) :
    ErasedAt m (m.free b pos) (some pos) where
  gone p hr hq := by
    obtain rfl := Option.some.inj hr
    exact (occupied_of_free h hp hq).1 rfl
  stay p hr := by
    obtain rfl := Option.some.inj hr
    exact stayBut_free h hp b
  relocated hc := absurd hc (not_relocated_free h hp b)

/-- Nothing was erased. -/
theorem erasedAt_self {r : Option ℕ} (hr : ∀ pos, r = some pos → ¬ m.Occupied pos) :
    ErasedAt m m r where
  gone := hr
  stay _ _ := StayBut.refl m _
  relocated hc := absurd hc (not_relocated m)

theorem eraseFirst_erasedAt (h : Exact m) {key : κ} {r : Bool × Option ℕ × ProbeSeq}
    (hr : m.eraseFirst ideal key = .ok (r, m')) : ErasedAt m m' r.2.1 := by
  rcases (eraseFirst_changes h hr).2 with hnone | ⟨pos, b, hst, hpos, rfl⟩
  · rw [hnone]
    exact erasedAt_none m m'
  · rw [hpos]
    exact erasedAt_free h.toShape hst.1.1 b

theorem eraseNext_erasedAt (h : Exact m) {pos : ℕ} {seq : ProbeSeq} {key : κ}
    {r : Bool × Option ℕ × ProbeSeq} (hr : m.eraseNext ideal pos seq key = .ok (r, m')) :
    ErasedAt m m' r.2.1 := by
  rcases (eraseNext_changes h hr).2 with hnone | ⟨p, b, hst, hpos, rfl⟩
  · rw [hnone]
    exact erasedAt_none m m'
  · rw [hpos]
    exact erasedAt_free h.toShape hst.1.1 b

/-- `erase_at_` returns the position that it was given, or none. -/
theorem eraseAt_eq {B : BucketOps} {pos : ℕ} {r : Bool × Option ℕ}
    (hr : m.eraseAt B pos = .ok (r, m')) (p : ℕ) (hp : r.2 = some p) : p = pos := by
  unfold eraseAt eraseSlot at hr
  split_ifs at hr with hlt hc
  · obtain ⟨⟨r', m₁⟩, hslot, hr⟩ := bind_eq_ok.mp hr
    obtain ⟨⟨keep, m₂⟩, -, hslot⟩ := bind_eq_ok.mp hslot
    obtain ⟨rfl, -⟩ := Prod.mk.inj (Except.ok.inj hslot)
    obtain ⟨rfl, -⟩ := Prod.mk.inj (Except.ok.inj hr)
    cases keep with
    | true => exact (Option.some.inj hp).symm
    | false => cases hp
  · obtain ⟨rfl, -⟩ := Prod.mk.inj (Except.ok.inj hr)
    exact (Option.some.inj hp).symm

theorem eraseAt_erasedAt (h : Exact m) {pos : ℕ} {r : Bool × Option ℕ}
    (hr : m.eraseAt ideal pos = .ok (r, m')) : ErasedAt m m' r.2 := by
  have heq := eraseAt_eq (B := ideal) hr
  rcases (eraseAt_changes h hr).2 with ⟨hnone, -⟩ | ⟨b, ho, hpos, rfl⟩ | ⟨hn, rfl⟩
  · rw [hnone]
    exact erasedAt_none m m'
  · rw [hpos]
    exact erasedAt_free h.toShape ho.1 b
  · refine erasedAt_self fun p hp => ?_
    rw [heq p hp]
    exact hn

/-! ### Insert -/

/-- The new entry is at the position that is returned, and the others stay, if the capacity does. -/
theorem insert_stayBut (h : Exact m) {key : κ} {r : ℕ × InsertOp × ProbeSeq}
    (hr : m.insert ideal key = .ok (r, m')) (hcap : m'.capacity = m.capacity) :
    m'.Stores key r.1 ∧ m.StayBut m' r.1 ∧ (r.2.1 = .found → m' = m) := by
  obtain ⟨m₁, hp, hplaced⟩ := insert_cases (P := fun _ => False) h hr
  have hpos := h.toShape.capacity_pos
  obtain ⟨pos, op, q⟩ := r
  rcases hplaced with ⟨rfl, -, hst, rfl⟩ | ⟨rfl, e, hv, rfl⟩
  · obtain rfl : m' = m := hp.same.resolve_right (by omega)
    exact ⟨hst, StayBut.refl m' pos, fun _ => rfl⟩
  · have hcap₁ : m₁.capacity = m.capacity := hcap
    obtain rfl : m₁ = m := hp.same.resolve_right (by omega)
    exact ⟨stores_occupy h.toShape hv.lt key e, stayBut_occupy h.toShape hv.lt key e,
      fun hc => by cases hc⟩

end Stays

/-! ### Runs -/

section Runs
variable (B : Kernel T.kernelSize) (conf : Conf T.conf)

/-- Which entries the calls of a reachable map leave at their positions, for all flags. -/
theorem positions_stay {P : Map T ν → Op κ ν → Prop} {m : Map T ν}
    (hm : (runs B conf P).Reachable m) :
    (∀ key r m', m.insert B.ops key = .ok (r, m') → m'.capacity = m.capacity →
        m'.Stores key r.1 ∧ m.StayBut m' r.1 ∧ (r.2.1 = .found → m' = m)) ∧
      (∀ key r m', m.eraseFirst B.ops key = .ok (r, m') → ErasedAt m m' r.2.1) ∧
      (∀ pos seq key r m', m.eraseNext B.ops pos seq key = .ok (r, m') → ErasedAt m m' r.2.1) ∧
      ∀ pos r m', m.eraseAt B.ops pos = .ok (r, m') → ErasedAt m m' r.2 := by
  have h := (exact_of_reachable B conf hm).1
  have hB := B.lawful
  refine ⟨fun key r m' hr => ?_, fun key r m' hr => ?_, fun pos seq key r m' hr => ?_,
    fun pos r m' hr => ?_⟩
  · rw [(insert_agree hB h.toSound key).1] at hr
    exact insert_stayBut h hr
  · rw [(eraseFirst_agree hB h.toSound key).1] at hr
    exact eraseFirst_erasedAt h hr
  · rw [(eraseNext_agree hB h.toSound pos seq key).1] at hr
    exact eraseNext_erasedAt h hr
  · rw [(eraseAt_agree hB h.toSound pos).1] at hr
    exact eraseAt_erasedAt h hr

/-- Maps of words that shrink. -/
def shrinkingMap : MapType (Fin (2 ^ 64)) := { wordMap 1 false with autoShrink := true }

/-- Eight entries in 16 slots, of which four are erased: the last erase moves the others. -/
theorem positions_stay_words : ∃ rs, ∃ m m' : Map shrinkingMap ℕ, ∃ r,
    exec shrinkingMap (wordKernel 1 false).ops (wordConf 1 false) [.insert 0, .insert 1, .insert 2,
        .insert 3, .insert 4, .insert 5, .insert 6, .insert 7, .eraseFirst 0, .eraseFirst 1,
        .eraseFirst 2] = .ok (rs, m) ∧
      m.eraseFirst (wordKernel 1 false).ops 3 = .ok (r, m') ∧ m.Relocated m' ∧ r.2.1 = none := by
  obtain ⟨rs, m, hr, hs, hf⟩ := exists_exec (T := shrinkingMap) (wordKernel 1 false)
    (wordConf 1 false) [.insert 0, .insert 1, .insert 2, .insert 3, .insert 4, .insert 5, .insert 6,
      .insert 7, .eraseFirst 0, .eraseFirst 1, .eraseFirst 2]
    (fun r : List Result × Map shrinkingMap ℕ => (r.2.containsAt 0,
      (r.2.eraseFirst ideal 3).map fun q => (q.2.capacity, q.2.containsAt 0)))
    (false, .ok (8, true)) (by decide +kernel)
  obtain ⟨hnot, herase⟩ := Prod.mk.inj hf
  have hagree := (eraseFirst_agree (T := shrinkingMap) (wordKernel 1 false).lawful hs 3).1
  cases hq : m.eraseFirst ideal 3 with
  | error e =>
      rw [hq] at herase
      cases herase
  | ok q =>
      rw [hq] at herase hagree
      obtain ⟨hcap, hin⟩ := Prod.mk.inj (Except.ok.inj herase)
      have hmoved : m.Relocated q.2 := by
        refine ⟨0, ⟨by rw [hcap]; decide, hin⟩, fun hc => ?_⟩
        have := hc.1.isHash
        rw [show isHash (m.stateAt 0) = false from hnot] at this
        cases this
      have hm := reachable_of_exec (T := shrinkingMap) (P := fun _ _ => True) _ _ (fun _ _ _ => trivial) hr
      refine ⟨rs, m, q.2, q.1, hr, hagree, hmoved, ?_⟩
      exact ((positions_stay (T := shrinkingMap) _ _ hm).2.1 3 q.1 q.2 hagree).relocated hmoved

end Runs

end Map

end Nvhm
