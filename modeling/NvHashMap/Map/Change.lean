import NvHashMap.Map.Prune
import Mathlib.Logic.Relation

/-! # Elementary changes

Every call changes the map by a sequence of elementary changes (`Change`): a slot is freed or
occupied, the table is rebuilt, scrubbed, emptied or replaced, a value or a blob is written.  This
holds for all flags and probe sequences, whatever a scrub has done before, as long as the call
returns (`step_changes`).

* Counters, capacity and threshold stay exact through all changes (`Change.exact`).
* The whole invariant stays as long as no scrub cuts a chain (`Change.valid`). -/

namespace Nvhm

open Buffer SlotCount

variable {κ ν : Type} {T : MapType κ} [Inhabited κ] [Inhabited ν]

namespace Map

/-! ### Scrubs of any map -/

section Moved
variable {m m' m'' : Map T ν}

/-- What the moves of a pass keep. -/
structure Moved (m m' : Map T ν) : Prop where
  exact : Exact m'
  frame : Frame m m'
  entries_eq : m'.entries = m.entries
  hasEmpty_iff : ∀ o, T.kernelSize ∣ o → (m'.HasEmpty o ↔ m.HasEmpty o)

theorem Exact.moved (h : Exact m) : Moved m m := ⟨h, Frame.refl m, rfl, fun _ _ => Iff.rfl⟩

theorem Moved.trans (h : Moved m m') (h' : Moved m' m'') : Moved m m'' :=
  ⟨h'.exact, h.frame.trans h'.frame, h'.entries_eq.trans h.entries_eq,
    fun o ho => (h'.hasEmpty_iff o ho).trans (h.hasEmpty_iff o ho)⟩

theorem scrubSlot_moved {s s' : Scrub T ν} (h : Exact s.map) {pos : ℕ} (hp : s.map.Occupied pos)
    {b : Bool} (hb : b = true ↔ s.map.HasEmpty (T.off pos))
    (hr : scrubSlot ideal (T.off pos) b pos s = .ok s') :
    Moved s.map s'.map ∧ ∀ q, s.map.Occupied q → q ≠ pos → s'.map.Occupied q := by
  unfold scrubSlot at hr
  obtain ⟨⟨u, q⟩, hu, hr⟩ := bind_eq_ok.mp hr
  cases u with
  | stay =>
      obtain rfl := Except.ok.inj hr
      exact ⟨h.moved, fun q hq _ => hq⟩
  | exhausted => cases hr
  | move dst =>
      dsimp only at hr
      split_ifs at hr with ht
      obtain rfl := Except.ok.inj hr
      have hm : s.map.Movable pos dst :=
        ⟨hp, (upstream_agree (lawful_ideal) h.toSound _ pos).2 _ hu dst rfl, ht⟩
      refine ⟨⟨move_exact h hm hb, moveEntry_frame _ b pos dst, move_entries h.toSound hm b,
        fun o ho => move_hasEmpty h.toSound hm hb ho⟩, fun q hq hne => ?_⟩
      exact (move_occupied h.toSound hm b q).mpr (Or.inr ⟨hne, hq⟩)

theorem scrubSlots_moved {o : ℕ} (ho : T.kernelSize ∣ o) {b : Bool} : ∀ (l : List ℕ)
    {s s' : Scrub T ν}, Exact s.map → l.Nodup →
    (∀ i ∈ l, i < T.kernelSize ∧ s.map.Occupied (o + i)) → (b = true ↔ s.map.HasEmpty o) →
    scrubSlots ideal o b l s = .ok s' → Moved s.map s'.map
  | [], s, s', h, _, _, _, hr => by
      obtain rfl := Except.ok.inj hr
      exact h.moved
  | i :: l, s, s', h, hn, hl, hb, hr => by
      obtain ⟨hi, hocc⟩ := hl i List.mem_cons_self
      obtain ⟨hni, hn⟩ := List.nodup_cons.mp hn
      have hoff := MapType.off_add ho hi
      rw [scrubSlots] at hr
      obtain ⟨s₁, h₁, hr⟩ := bind_eq_ok.mp hr
      obtain ⟨hm, hocc₁⟩ := scrubSlot_moved h hocc (b := b) (by rwa [hoff]) (by rwa [hoff])
      refine hm.trans (scrubSlots_moved ho l hm.exact hn (fun i' hi' => ?_)
        (hb.trans (hm.hasEmpty_iff o ho).symm) hr)
      obtain ⟨hk, hocc'⟩ := hl i' (List.mem_cons_of_mem i hi')
      refine ⟨hk, hocc₁ _ hocc' fun hc => ?_⟩
      obtain rfl := Nat.add_left_cancel hc
      exact hni hi'

theorem scrubPass_moved : ∀ (offs : List ℕ) {s s' : Scrub T ν}, Exact s.map →
    (∀ o ∈ offs, T.kernelSize ∣ o ∧ o < s.map.capacity) → scrubPass ideal offs s = .ok s' →
    Moved s.map s'.map
  | [], s, s', h, _, hr => by
      obtain rfl := Except.ok.inj hr
      exact h.moved
  | o :: offs, s, s', h, hoffs, hr => by
      obtain ⟨hd, hlt⟩ := hoffs o List.mem_cons_self
      rw [scrubPass] at hr
      obtain ⟨s₁, h₁, hr⟩ := bind_eq_ok.mp hr
      have hm := scrubSlots_moved hd (ideal.hashes (s.map.bucket o)) h (slots_nodup _ _)
        (fun i hi => (h.toShape.mem_hashes hd hlt i).mp hi)
        (h.hasEmpty_iff (h.offset_add_le hd hlt)) h₁
      refine hm.trans (scrubPass_moved offs hm.exact (fun o' ho' => ?_) hr)
      rw [hm.frame.capacity]
      exact hoffs o' (List.mem_cons_of_mem o ho')

theorem scrubPasses_moved : ∀ (d : ℕ) {s s' : Scrub T ν}, Exact s.map →
    scrubPasses ideal d s = .ok s' → Moved s.map s'.map
  | 0, s, s', _, hr => by cases hr
  | d + 1, s, s', h, hr => by
      rw [scrubPasses] at hr
      obtain ⟨s₁, h₁, hr⟩ := bind_eq_ok.mp hr
      have hm := scrubPass_moved _ (s := { s with pslBits := 0 }) h
        (fun o ho => h.toShape.mem_offsets.mp ho) h₁
      split_ifs at hr with hle
      · obtain rfl := Except.ok.inj hr
        exact hm
      · exact hm.trans (scrubPasses_moved d hm.exact hr)

/-- Whatever the chains are, a scrub keeps the entries and leaves exact counters. -/
theorem scrub_exact (h : Exact m) {n : ℕ} (hr : m.scrub_ ideal = .ok (n, m')) :
    Exact m' ∧ m'.entries = m.entries ∧ Frame m m' := by
  unfold scrub_ at hr
  split_ifs at hr with ht
  · obtain ⟨-, rfl⟩ := Prod.mk.inj (Except.ok.inj hr)
    exact ⟨h, rfl, Frame.refl m⟩
  · obtain ⟨s, hs, hr⟩ := bind_eq_ok.mp hr
    obtain ⟨-, rfl⟩ := Prod.mk.inj (Except.ok.inj hr)
    have hm := scrubPasses_moved _ (s := ⟨m, 0, 0⟩) h hs
    have he := hm.exact
    unfold prune
    split_ifs with h0 hz
    · exact ⟨he, hm.entries_eq, hm.frame⟩
    · have hp := pruneAll_spec he.toSound
      exact ⟨hp.exact he (pruneAll_counted he.toSound he.counted) (pruneAll_numEmpty_le he.counted),
        hp.entries_eq.trans hm.entries_eq, hm.frame.trans hp.frame⟩
    · obtain ⟨hp, hc, hle⟩ := pruneDead_spec (offsets T.kernelSize s.map.capacity) he.toShape
        he.counted fun o ho => he.toShape.mem_offsets.mp ho
      exact ⟨hp.exact he hc hle, hp.entries_eq.trans hm.entries_eq, hm.frame.trans hp.frame⟩

end Moved

/-! ### Elementary changes -/

/-- One change of a map; `P` holds of the tables that are scrubbed. -/
inductive Change (P : Map T ν → Prop) : Map T ν → Map T ν → Prop where
  | free {m : Map T ν} {pos : ℕ} {b : Bool} (ho : m.Occupied pos)
      (hb : b = true ↔ m.HasEmpty (T.off pos)) : Change P m (m.free b pos)
  | occupy {m : Map T ν} {key : κ} {pos : ℕ} {e : ℤ} (hv : m.Vacant key pos e)
      (he : 2 ≤ m.numEmpty) : Change P m (m.occupy pos key e)
  | resize {m m' : Map T ν} {end_ n : ℕ} (hend : end_ ≤ m.conf.minCapacity ∨ IsCapacity end_)
      (hr : m.resize_ ideal end_ = .ok (n, m')) : Change P m m'
  | scrub {m m' : Map T ν} {n : ℕ} (hP : P m) (hr : m.scrub_ ideal = .ok (n, m')) : Change P m m'
  | reset {m : Map T ν} : Change P m m.reset
  | alloc {m : Map T ν} {c : ℕ} (hcap : IsCapacity c) (hmin : m.conf.minCapacity ≤ c) :
      Change P m (m.alloc c).reset
  | setValue {m : Map T ν} {pos : ℕ} (ho : m.Occupied pos) (value : ν) :
      Change P m { m with values := m.values.set pos value }
  | setBlob {m : Map T ν} {pos : ℕ} {src : List Byte} (ho : m.Occupied pos)
      (hs : src.length ≤ m.conf.blobSize) :
      Change P m { m with blobs := writeAt m.blobs (pos * m.conf.blobStride) src }

/-- A sequence of changes. -/
abbrev Changes (P : Map T ν → Prop) : Map T ν → Map T ν → Prop :=
  Relation.ReflTransGen (Change P)

section Change
variable {P Q : Map T ν → Prop} {m m' : Map T ν}

theorem Change.mono (hPQ : ∀ m, P m → Q m) (h : Change P m m') : Change Q m m' := by
  cases h with
  | free ho hb => exact .free ho hb
  | occupy hv he => exact .occupy hv he
  | resize hend hr => exact .resize hend hr
  | scrub hP hr => exact .scrub (hPQ m hP) hr
  | reset => exact .reset
  | alloc hcap hmin => exact .alloc hcap hmin
  | setValue ho value => exact .setValue ho value
  | setBlob ho hs => exact .setBlob ho hs

theorem Changes.mono (hPQ : ∀ m, P m → Q m) (h : Changes P m m') : Changes Q m m' :=
  h.lift id fun _ _ hc => hc.mono hPQ

/-- A capacity that is resized to, by the rule that its argument is checked or rounded. -/
theorem resize_exact (h : Exact m) {end_ n : ℕ}
    (hend : end_ ≤ m.conf.minCapacity ∨ IsCapacity end_)
    (hr : m.resize_ ideal end_ = .ok (n, m')) : Exact m' ∧ m'.conf = m.conf := by
  rcases resize_cases h hend with ⟨he, -⟩ | ⟨n', m'', hr', -, -, hc⟩
  · cases he.symm.trans hr
  · obtain ⟨rfl, rfl⟩ := Prod.mk.inj (Except.ok.inj (hr.symm.trans hr'))
    rcases hc with ⟨-, rfl⟩ | ⟨hb, -⟩
    · exact ⟨h, rfl⟩
    · exact ⟨hb.exact, hb.conf_eq⟩

theorem Change.exact (h : Exact m) (hc : Change P m m') : Exact m' ∧ m'.conf = m.conf := by
  cases hc with
  | free ho hb => exact ⟨h.free ho hb, (free_frame m _ _).conf⟩
  | occupy hv he => exact ⟨h.occupy _ hv.lt hv.state (hv.room he), rfl⟩
  | resize hend hr => exact resize_exact h hend hr
  | scrub _ hr =>
      obtain ⟨he, -, hf⟩ := scrub_exact h hr
      exact ⟨he, hf.conf⟩
  | reset => exact ⟨h.cleared_reset.inv.exact, rfl⟩
  | alloc hcap hmin =>
      have hc := h.toSound.cleared_alloc hcap hmin
      exact ⟨hc.inv.exact, hc.conf_eq⟩
  | setValue _ value =>
      exact ⟨{ h with values_length := List.length_set.trans h.values_length }, rfl⟩
  | setBlob ho hs =>
      exact ⟨{ h with blobs_length := (h.length_writeBlob ho.1 hs).trans h.blobs_length }, rfl⟩

theorem Changes.exact (h : Exact m) (hc : Changes P m m') : Exact m' ∧ m'.conf = m.conf := by
  induction hc with
  | refl => exact ⟨h, rfl⟩
  | tail _ hc ih =>
      obtain ⟨he, hconf⟩ := hc.exact ih.1
      exact ⟨he, hconf.trans ih.2⟩

theorem Change.valid (hP : P m → m.ScrubSafe) (h : Valid m) (hc : Change P m m') : Valid m' := by
  cases hc with
  | free ho hb =>
      exact { h.toInv.free ho hb with near := (h.linked.free ho.1 hb.mp).near }
  | occupy hv he =>
      exact { h.toInv.occupy hv.lt hv.state hv.near.reaches (hv.not_stores h.toTable) (hv.room he)
        with near := (h.linked.occupy hv.lt hv.near _).near }
  | resize hend hr =>
      rcases resize_cases h.exact hend with ⟨he, -⟩ | ⟨n', m'', hr', -, -, hc⟩
      · cases he.symm.trans hr
      · obtain ⟨rfl, rfl⟩ := Prod.mk.inj (Except.ok.inj (hr.symm.trans hr'))
        rcases hc with ⟨-, rfl⟩ | ⟨hb, -⟩
        · exact h
        · exact { hb.inv h.toInv with near := hb.linked.near }
  | scrub hm hr =>
      obtain ⟨n, m'', hr', -, -, -, hv, -⟩ := scrub_valid h
      obtain ⟨-, rfl⟩ := Prod.mk.inj (Except.ok.inj (hr.symm.trans hr'))
      exact hv (hP hm)
  | reset =>
      exact { h.exact.cleared_reset.inv with near := fun p hp => absurd hp (reset_not_occupied m p) }
  | alloc hcap hmin =>
      exact { (h.toSound.cleared_alloc hcap hmin).inv with
        near := fun p hp => absurd hp (reset_not_occupied _ p) }
  | setValue _ value =>
      exact { h with values_length := List.length_set.trans h.values_length }
  | setBlob ho hs =>
      exact { h with blobs_length := (h.length_writeBlob ho.1 hs).trans h.blobs_length }

theorem Changes.valid (hP : ∀ m, P m → m.ScrubSafe) (h : Valid m) (hc : Changes P m m') :
    Valid m' := by
  induction hc with
  | refl => exact h
  | tail _ hc ih => exact hc.valid (hP _) ih

end Change

/-! ### The changes that a call makes -/

section Calls
variable {P : Map T ν → Prop} {m m' : Map T ν}

theorem Frees.changes {l : List ℕ} (hf : Frees m m' l) : Changes P m m' := by
  induction hf with
  | nil m => exact .refl
  | cons ho hb _ ih => exact .head (.free ho hb) ih

theorem Frees.valid {l : List ℕ} (hf : Frees m m' l) (h : Valid m) : Valid m' :=
  Changes.valid (P := fun _ => False) (fun _ hc => hc.elim) h hf.changes

theorem autoShrinkAndScub_changes (h : Exact m) {n : ℤ} {b : Bool}
    (hr : autoShrinkAndScub ideal m n = .ok (b, m')) :
    Changes (fun m₁ => m.onScrub n = some m₁) m m' ∧ (b = true → m' = m) := by
  unfold autoShrinkAndScub at hr
  split_ifs at hr with hshrink hscrub
  · obtain ⟨r, hr', hr⟩ := bind_eq_ok.mp hr
    obtain ⟨rfl, rfl⟩ := Prod.mk.inj (Except.ok.inj hr)
    exact ⟨.single (.resize h.toShape.half_capacity hr'), fun hc => by cases hc⟩
  · obtain ⟨r, hr', hr⟩ := bind_eq_ok.mp hr
    obtain ⟨rfl, rfl⟩ := Prod.mk.inj (Except.ok.inj hr)
    have hon : m.onScrub n = some m := by
      rw [onScrub, wouldScrub, if_pos]
      rw [Bool.and_eq_true, Bool.not_eq_true']
      exact ⟨Bool.eq_false_of_not_eq_true hshrink, hscrub⟩
    exact ⟨.single (.scrub hon hr'), fun hc => by cases hc⟩
  · obtain ⟨rfl, rfl⟩ := Prod.mk.inj (Except.ok.inj hr)
    exact ⟨.refl, fun _ => rfl⟩

theorem eraseSlot_changes (h : Exact m) {pos : ℕ} (ho : m.Occupied pos) {b : Bool}
    (hb : b = true ↔ m.HasEmpty (T.off pos)) {r : Option ℕ}
    (hr : eraseSlot ideal m b pos = .ok (r, m')) :
    Changes (fun m₁ => (m.free b pos).onScrub (burried b) = some m₁) m m' ∧
      (r = none ∨ r = some pos ∧ m' = m.free b pos) := by
  unfold eraseSlot resetSlot at hr
  obtain ⟨⟨keep, m''⟩, hr', hr⟩ := bind_eq_ok.mp hr
  obtain ⟨rfl, rfl⟩ := Prod.mk.inj (Except.ok.inj hr)
  obtain ⟨hc, hkeep⟩ := autoShrinkAndScub_changes (h.free ho hb) hr'
  refine ⟨hc.head (.free ho hb), ?_⟩
  cases keep with
  | true => exact Or.inr ⟨rfl, hkeep rfl⟩
  | false => exact Or.inl rfl

theorem eraseFirst_changes (h : Exact m) {key : κ} {r : Bool × Option ℕ × ProbeSeq}
    (hr : m.eraseFirst ideal key = .ok (r, m')) :
    Changes (fun m₁ => m.onFree (m.locateFirst ideal key) = some m₁) m m' ∧
      (r.2.1 = none ∨ ∃ pos b, m.Stores key pos ∧ r.2.1 = some pos ∧ m' = m.free b pos) := by
  unfold eraseFirst at hr
  obtain ⟨⟨r', q⟩, hloc, hr⟩ := bind_eq_ok.mp hr
  rcases r' with _ | ⟨pos, b⟩
  · obtain ⟨rfl, rfl⟩ := Prod.mk.inj (Except.ok.inj hr)
    exact ⟨.refl, Or.inl rfl⟩
  · obtain ⟨⟨r', m''⟩, hslot, hr⟩ := bind_eq_ok.mp hr
    obtain ⟨rfl, rfl⟩ := Prod.mk.inj (Except.ok.inj hr)
    obtain ⟨hst, hb⟩ := locateFirst_stores h.toSound hloc pos b rfl
    obtain ⟨hc, hpos⟩ := eraseSlot_changes h hst.1 hb hslot
    refine ⟨hc.mono fun m₁ hm₁ => by rw [hloc]; exact hm₁, ?_⟩
    exact hpos.imp id fun hpos => ⟨pos, b, hst, hpos⟩

theorem eraseNext_changes (h : Exact m) {pos : ℕ} {seq : ProbeSeq} {key : κ}
    {r : Bool × Option ℕ × ProbeSeq} (hr : m.eraseNext ideal pos seq key = .ok (r, m')) :
    Changes (fun m₁ => T.duplicates = true ∧ alignPos seq.psl m.bucketMask = seq.psl ∧
        m.onFree (m.locateNext ideal pos seq key) = some m₁) m m' ∧
      (r.2.1 = none ∨ ∃ p b, m.Stores key p ∧ r.2.1 = some p ∧ m' = m.free b p) := by
  unfold eraseNext at hr
  split_ifs at hr with hd hpsl
  · obtain ⟨⟨r', q⟩, hloc, hr⟩ := bind_eq_ok.mp hr
    rcases r' with _ | ⟨p, b⟩
    · obtain ⟨rfl, rfl⟩ := Prod.mk.inj (Except.ok.inj hr)
      exact ⟨.refl, Or.inl rfl⟩
    · obtain ⟨⟨r', m''⟩, hslot, hr⟩ := bind_eq_ok.mp hr
      obtain ⟨rfl, rfl⟩ := Prod.mk.inj (Except.ok.inj hr)
      obtain ⟨hst, hb⟩ := locateNext_stores h.toSound hloc p b rfl
      obtain ⟨hc, hpos⟩ := eraseSlot_changes h hst.1 hb hslot
      refine ⟨hc.mono fun m₁ hm₁ => ⟨hd, hpsl, by rw [hloc]; exact hm₁⟩, ?_⟩
      exact hpos.imp id fun hpos => ⟨p, b, hst, hpos⟩
  · obtain ⟨rfl, rfl⟩ := Prod.mk.inj (Except.ok.inj hr)
    exact ⟨.refl, Or.inl rfl⟩

theorem eraseAt_changes (h : Exact m) {pos : ℕ} {r : Bool × Option ℕ}
    (hr : m.eraseAt ideal pos = .ok (r, m')) :
    Changes (fun m₁ => m.Occupied pos ∧
        (m.free (ideal.hasEmpty (m.bucket (T.off pos))) pos).onScrub
          (burried (ideal.hasEmpty (m.bucket (T.off pos)))) = some m₁) m m' ∧
      ((r.2 = none ∧ m.Occupied pos) ∨ (∃ b, m.Occupied pos ∧ r.2 = some pos ∧ m' = m.free b pos) ∨
        ¬ m.Occupied pos ∧ m' = m) := by
  unfold eraseAt at hr
  split_ifs at hr with hlt hc
  · have ho : m.Occupied pos := ⟨hlt, hc⟩
    rw [h.toShape.off_eq hlt] at hr
    obtain ⟨⟨r', m''⟩, hslot, hr⟩ := bind_eq_ok.mp hr
    obtain ⟨rfl, rfl⟩ := Prod.mk.inj (Except.ok.inj hr)
    obtain ⟨hch, hpos⟩ := eraseSlot_changes h ho (h.hasEmpty_iff (h.off_add_le hlt)) hslot
    refine ⟨hch.mono fun m₁ hm₁ => ⟨ho, hm₁⟩, ?_⟩
    rcases hpos with rfl | hpos
    · exact Or.inl ⟨rfl, ho⟩
    · exact Or.inr (Or.inl ⟨_, ho, hpos⟩)
  · obtain ⟨rfl, rfl⟩ := Prod.mk.inj (Except.ok.inj hr)
    exact ⟨.refl, Or.inr (Or.inr ⟨fun ho => hc ho.2, rfl⟩)⟩

theorem finishErase_changes {m₁ : Map T ν} {l : List ℕ} (hf : Freed m m₁ l) {n : ℤ}
    (hr : finishErase ideal m m₁ = .ok (n, m')) :
    Changes (fun m₂ => m₁.onScrub (m₁.numTombstone - m.numTombstone) = some m₂) m m' := by
  unfold finishErase at hr
  dsimp only at hr
  split_ifs at hr with h0
  · obtain ⟨-, rfl⟩ := Prod.mk.inj (Except.ok.inj hr)
    exact hf.frees.changes
  · obtain ⟨⟨b, m''⟩, hr', hr⟩ := bind_eq_ok.mp hr
    obtain ⟨-, rfl⟩ := Prod.mk.inj (Except.ok.inj hr)
    exact hf.frees.changes.trans (autoShrinkAndScub_changes hf.exact hr').1

/-- Growing to the double capacity. -/
theorem grown_spec (h : Exact m) {end_ n : ℕ} (hend : shl1 m.capacity = .ok end_)
    (hr : m.resize_ ideal end_ = .ok (n, m')) :
    Rebuilt m m' n ∧ 2 * m.capacity ≤ n ∧ 2 ≤ m'.numEmpty := by
  obtain ⟨rfl, -⟩ := shl1_ok hend
  have hpos := h.toShape.capacity_pos
  have hlt := h.card_entries_lt
  rcases resize_cases h (Or.inr (isCapacity_shl1 h.toShape.isCapacity hend).1) with
    ⟨he, -⟩ | ⟨n', m'', hr', hle, -, hc⟩
  · cases he.symm.trans hr
  · obtain ⟨rfl, rfl⟩ := Prod.mk.inj (Except.ok.inj (hr.symm.trans hr'))
    rcases hc with ⟨hn, -⟩ | ⟨hb, -⟩
    · omega
    · refine ⟨hb, hle, ?_⟩
      rw [hb.numEmpty_eq]
      omega

/-- The table in which `insert_` places the key, if it returns: the given one, or one of at least
the double capacity. -/
structure PlacedIn (P : Map T ν → Prop) (m m₁ : Map T ν) : Prop where
  changes : Changes P m m₁
  exact : Exact m₁
  numEmpty_le : 2 ≤ m₁.numEmpty
  same : m₁ = m ∨ 2 * m.capacity ≤ m₁.capacity

theorem Rebuilt.placedIn (h : Exact m) {end_ n : ℕ} (hend : shl1 m.capacity = .ok end_)
    (hr : m.resize_ ideal end_ = .ok (n, m')) {m₁ : Map T ν} (hp : PlacedIn P m' m₁) :
    PlacedIn P m m₁ := by
  obtain ⟨hb, hle, -⟩ := grown_spec h hend hr
  refine ⟨hp.changes.head (.resize (Or.inr (isCapacity_shl1 h.toShape.isCapacity hend).1) hr),
    hp.exact, hp.numEmpty_le, Or.inr ?_⟩
  rw [← hb.capacity_eq] at hle
  rcases hp.same with rfl | hsame
  · exact hle
  · omega

/-- One round of `insert_`: the pass over the buckets returns, since some slot is empty. -/
theorem insertLoop_succ (h : Exact m) (key : κ) (d : ℕ) : ∃ r, m.Placed key r ∧
    insertLoop ideal key (d + 1) m = match r with
      | some r => .ok r
      | none =>
          if T.seq.isUnbounded then .error .insertError
          else (do
            let (_, m) ← resize_ ideal m (← shl1 m.capacity)
            insertLoop ideal key d m) := by
  obtain ⟨e, he, hemp⟩ := h.exists_empty
  rw [insertLoop]
  by_cases ht : m.numTombstone = 0
  · obtain ⟨r, hr, hp⟩ := (insertFresh_cases h ht key).resolve_right fun hc =>
      h.not_all_full he hemp key hc.2
    rw [if_neg (not_not.mpr ht), hr]
    exact ⟨r, hp, rfl⟩
  · obtain ⟨r, hr, hp⟩ := (insertReusing_cases h key).resolve_right fun hc =>
      h.not_all_full he hemp key hc.2
    rw [if_pos ht, hr]
    exact ⟨r, hp, rfl⟩

theorem insertLoop_cases {key : κ} {r : (ℕ × InsertOp × ProbeSeq)} : ∀ (d : ℕ) {m : Map T ν},
    Exact m → 2 ≤ m.numEmpty → insertLoop ideal key d m = .ok (r, m') →
    ∃ m₁, PlacedIn P m m₁ ∧ m₁.Placed key (some (r, m'))
  | 0, _, _, _, hr => by cases hr
  | d + 1, m, h, he, hr => by
      obtain ⟨r', hplaced, heq⟩ := insertLoop_succ h key d
      rw [heq] at hr
      cases r' with
      | some r'' =>
          obtain rfl := Except.ok.inj hr
          exact ⟨m, ⟨.refl, h, he, Or.inl rfl⟩, hplaced⟩
      | none =>
          dsimp only at hr
          split_ifs at hr
          obtain ⟨end_, hend, hr⟩ := bind_eq_ok.mp hr
          obtain ⟨⟨n, m₁⟩, hres, hr⟩ := bind_eq_ok.mp hr
          obtain ⟨hb, -, he₁⟩ := grown_spec h hend hres
          obtain ⟨m₂, hp, hplaced⟩ := insertLoop_cases d hb.exact he₁ hr
          exact ⟨m₂, Rebuilt.placedIn h hend hres hp, hplaced⟩

theorem insert_cases (h : Exact m) {key : κ} {r : (ℕ × InsertOp × ProbeSeq)}
    (hr : m.insert ideal key = .ok (r, m')) :
    ∃ m₁, PlacedIn P m m₁ ∧ m₁.Placed key (some (r, m')) := by
  unfold insert at hr
  split_ifs at hr with hfull
  · obtain ⟨end_, hend, hr⟩ := bind_eq_ok.mp hr
    obtain ⟨⟨n, m₁⟩, hres, hr⟩ := bind_eq_ok.mp hr
    dsimp only at hr
    split_ifs at hr
    obtain ⟨hb, -, he₁⟩ := grown_spec h hend hres
    obtain ⟨m₂, hp, hplaced⟩ := insertLoop_cases 64 hb.exact he₁ hr
    exact ⟨m₂, Rebuilt.placedIn h hend hres hp, hplaced⟩
  · refine insertLoop_cases 64 h ?_ hr
    have hpos := Conf.growThreshold_pos h.conf_valid m.capacity
    rw [isFull, Conf.shouldGrowPrecalc, decide_eq_true_eq, h.growThreshold_eq] at hfull
    omega

theorem insert_changes (h : Exact m) {key : κ} {r : (ℕ × InsertOp × ProbeSeq)}
    (hr : m.insert ideal key = .ok (r, m')) : Changes P m m' := by
  obtain ⟨m₁, hp, hplaced⟩ := insert_cases (P := P) h hr
  obtain ⟨pos, op, q⟩ := r
  rcases hplaced with ⟨-, -, -, rfl⟩ | ⟨-, e, hv, rfl⟩
  · exact hp.changes
  · exact hp.changes.tail (.occupy hv hp.numEmpty_le)

theorem resize_changes {n : ℤ} {r : ℕ × Map T ν}
    (hr : m.resize ideal n = .ok r) : Changes P m r.2 := by
  obtain ⟨c, hc, hr⟩ := bind_eq_ok.mp hr
  exact .single (.resize (Or.inr ((isCapacity_bitCeil hc).max m.conf.min_isCapacity)) hr)

theorem shrink_changes (h : Exact m) {r : ℕ × Map T ν} (hr : m.shrink ideal = .ok r) :
    Changes P m r.2 := by
  obtain ⟨c, hc, hr⟩ := bind_eq_ok.mp hr
  split_ifs at hr
  · obtain rfl := Except.ok.inj hr
    exact .refl
  · exact .single (.resize (Or.inr (shrinkTarget_isCapacity h.toSound hc)) hr)

/-- A call that returns makes elementary changes only, and scrubs no table but its own. -/
theorem step_changes (h : Exact m) {op : Op κ ν} {r : Result}
    (hr : m.step ideal op = .ok (r, m')) :
    Changes (fun m₁ => m.scrubArg ideal op = some m₁) m m' := by
  cases op with
  | insert key =>
      obtain ⟨⟨r', m₁⟩, hr', hr⟩ := bind_eq_ok.mp hr
      obtain ⟨-, rfl⟩ := Prod.mk.inj (Except.ok.inj hr)
      exact insert_changes h hr'
  | findFirst key =>
      obtain ⟨r', -, hr⟩ := bind_eq_ok.mp hr
      obtain ⟨-, rfl⟩ := Prod.mk.inj (Except.ok.inj hr)
      exact .refl
  | findNext pos seq key =>
      obtain ⟨r', -, hr⟩ := bind_eq_ok.mp hr
      obtain ⟨-, rfl⟩ := Prod.mk.inj (Except.ok.inj hr)
      exact .refl
  | findIf pred =>
      obtain ⟨-, rfl⟩ := Prod.mk.inj (Except.ok.inj hr)
      exact .refl
  | forEach =>
      obtain ⟨-, rfl⟩ := Prod.mk.inj (Except.ok.inj hr)
      exact .refl
  | forEachKey key =>
      obtain ⟨r', -, hr⟩ := bind_eq_ok.mp hr
      obtain ⟨-, rfl⟩ := Prod.mk.inj (Except.ok.inj hr)
      exact .refl
  | count key =>
      obtain ⟨r', -, hr⟩ := bind_eq_ok.mp hr
      obtain ⟨-, rfl⟩ := Prod.mk.inj (Except.ok.inj hr)
      exact .refl
  | eraseFirst key =>
      obtain ⟨⟨r', m₁⟩, hr', hr⟩ := bind_eq_ok.mp hr
      obtain ⟨-, rfl⟩ := Prod.mk.inj (Except.ok.inj hr)
      exact (eraseFirst_changes h hr').1
  | eraseNext pos seq key =>
      obtain ⟨⟨r', m₁⟩, hr', hr⟩ := bind_eq_ok.mp hr
      obtain ⟨-, rfl⟩ := Prod.mk.inj (Except.ok.inj hr)
      refine (eraseNext_changes h hr').1.mono fun m₂ hm₂ => ?_
      obtain ⟨hd, hpsl, hon⟩ := hm₂
      rw [scrubArg, if_pos ⟨hd, hpsl⟩]
      exact hon
  | eraseAt pos =>
      obtain ⟨⟨r', m₁⟩, hr', hr⟩ := bind_eq_ok.mp hr
      obtain ⟨-, rfl⟩ := Prod.mk.inj (Except.ok.inj hr)
      refine (eraseAt_changes h hr').1.mono fun m₂ hm₂ => ?_
      obtain ⟨ho, hon⟩ := hm₂
      rw [scrubArg, if_pos ⟨ho.1, ho.2⟩, h.toShape.off_eq ho.1]
      exact hon
  | eraseIf pred =>
      obtain ⟨⟨r', m₁⟩, hr', hr⟩ := bind_eq_ok.mp hr
      obtain ⟨-, rfl⟩ := Prod.mk.inj (Except.ok.inj hr)
      obtain ⟨l, hf, -⟩ := freeIf_spec pred (offsets T.kernelSize m.capacity) h
        fun o ho => h.toShape.mem_offsets.mp ho
      exact finishErase_changes hf hr'
  | eraseAll key =>
      obtain ⟨⟨r', m₁⟩, hr', hr⟩ := bind_eq_ok.mp hr
      obtain ⟨-, rfl⟩ := Prod.mk.inj (Except.ok.inj hr)
      unfold eraseAll at hr'
      split_ifs at hr' with hd
      · obtain ⟨m₂, hloop, hr'⟩ := bind_eq_ok.mp hr'
        obtain ⟨l, hf, -⟩ := eraseAllLoop_freed h hloop
        refine (finishErase_changes hf hr').mono fun m₃ hm₃ => ?_
        rw [scrubArg, if_pos hd, hloop]
        exact hm₃
      · obtain ⟨⟨r'', m₂⟩, hfirst, hr'⟩ := bind_eq_ok.mp hr'
        obtain ⟨-, rfl⟩ := Prod.mk.inj (Except.ok.inj hr')
        refine (eraseFirst_changes h hfirst).1.mono fun m₃ hm₃ => ?_
        rw [scrubArg, if_neg hd]
        exact hm₃
  | grow =>
      obtain ⟨⟨n, m₁⟩, hr', hr⟩ := bind_eq_ok.mp hr
      obtain ⟨-, rfl⟩ := Prod.mk.inj (Except.ok.inj hr)
      obtain ⟨end_, hend, hr'⟩ := bind_eq_ok.mp hr'
      exact .single (.resize (Or.inr (isCapacity_shl1 h.toShape.isCapacity hend).1) hr')
  | shrink =>
      obtain ⟨⟨n, m₁⟩, hr', hr⟩ := bind_eq_ok.mp hr
      obtain ⟨-, rfl⟩ := Prod.mk.inj (Except.ok.inj hr)
      exact shrink_changes h hr'
  | resize n =>
      obtain ⟨⟨n', m₁⟩, hr', hr⟩ := bind_eq_ok.mp hr
      obtain ⟨-, rfl⟩ := Prod.mk.inj (Except.ok.inj hr)
      exact resize_changes hr'
  | reserve n =>
      obtain ⟨⟨n', m₁⟩, hr', hr⟩ := bind_eq_ok.mp hr
      obtain ⟨-, rfl⟩ := Prod.mk.inj (Except.ok.inj hr)
      unfold reserve at hr'
      split_ifs at hr'
      · obtain ⟨-, rfl⟩ := Prod.mk.inj (Except.ok.inj hr')
        exact .refl
      · exact resize_changes hr'
  | clear =>
      obtain ⟨-, rfl⟩ := Prod.mk.inj (Except.ok.inj hr)
      rcases clear_cases m with hc | hc <;> rw [hc]
      · exact .single .reset
      · exact .single (.alloc m.conf.init_isCapacity m.conf.min_le_init)
  | clearTo n =>
      obtain ⟨r', hr', hr⟩ := bind_eq_ok.mp hr
      obtain ⟨-, rfl⟩ := Prod.mk.inj (Except.ok.inj hr)
      rcases clearTo_cases hr' with hc | ⟨c, hcap, hmin, hc⟩ <;> rw [hc]
      · exact .single .reset
      · exact .single (.alloc hcap hmin)
  | scrub =>
      obtain ⟨⟨n, m₁⟩, hr', hr⟩ := bind_eq_ok.mp hr
      obtain ⟨-, rfl⟩ := Prod.mk.inj (Except.ok.inj hr)
      exact .single (.scrub rfl hr')
  | setValueAt pos value =>
      obtain ⟨m₁, hr', hr⟩ := bind_eq_ok.mp hr
      obtain ⟨-, rfl⟩ := Prod.mk.inj (Except.ok.inj hr)
      unfold setValueAt at hr'
      split_ifs at hr' with ho
      obtain rfl := Except.ok.inj hr'
      exact .single (.setValue ho value)
  | setBlobAt pos src =>
      obtain ⟨m₁, hr', hr⟩ := bind_eq_ok.mp hr
      obtain ⟨-, rfl⟩ := Prod.mk.inj (Except.ok.inj hr)
      unfold setBlobAt at hr'
      split_ifs at hr' with ho hs
      obtain rfl := Except.ok.inj hr'
      exact .single (.setBlob ho hs)

end Calls

/-! ### Runs -/

section Runs
variable (B : Kernel T.kernelSize) (conf : Conf T.conf)

/-- The step lemma, for every kernel and all flags. -/
theorem changes_of_step {m m' : Map T ν} (h : Exact m) {op : Op κ ν} {r : Result}
    (hr : m.step B.ops op = .ok (r, m')) :
    Changes (fun m₁ => m.scrubArg B.ops op = some m₁) m m' := by
  rw [(step_agree B.lawful h.toSound op).1] at hr
  rw [scrubArg_eq B.lawful h.toSound]
  exact step_changes h hr

/-- The run lemma for all flags and probe sequences. -/
theorem exact_of_reachable {P : Map T ν → Op κ ν → Prop} {m : Map T ν}
    (hm : (runs B conf P).Reachable m) : Exact m ∧ m.conf = conf := by
  refine hm.invariant (I := fun m => Exact m ∧ m.conf = conf) (fun m hm => ?_) fun m m' hi hn => ?_
  · obtain ⟨hinv, -, hconf⟩ := new_spec hm
    exact ⟨hinv.exact, hconf⟩
  · obtain ⟨op, r, -, hr⟩ := hn
    obtain ⟨he, hconf⟩ := (changes_of_step B hi.1 hr).exact hi.1
    exact ⟨he, hconf.trans hi.2⟩

/-- The run lemma for all probe sequences, as long as no scrub cuts a chain. -/
theorem valid_of_reachable {P : Map T ν → Op κ ν → Prop}
    (hP : ∀ m op, Valid m → P m op → ScrubsSafe B m op) {m : Map T ν}
    (hm : (runs B conf P).Reachable m) : Valid m ∧ m.conf = conf := by
  refine ⟨hm.invariant (I := fun m => Valid m) (fun m hm => ?_) fun m m' hi hn => ?_,
    (exact_of_reachable B conf hm).2⟩
  · obtain ⟨-, -, heq⟩ := new_eq hm
    obtain ⟨hinv, -, -⟩ := new_spec hm
    exact { hinv with near := fun p hp => absurd hp (by rw [heq]; exact reset_not_occupied _ p) }
  · obtain ⟨op, r, hop, hr⟩ := hn
    exact (changes_of_step B hi.exact hr).valid (hP m op hi hop) hi

/-- With two slots per bucket no scrub cuts a chain. -/
theorem Valid.scrubsSafe (hK : 2 ≤ T.kernelSize) {m : Map T ν} (h : Valid m) (op : Op κ ν) :
    ScrubsSafe B m op := by
  intro m₁ hm₁
  rw [scrubArg_eq B.lawful h.toSound] at hm₁
  obtain ⟨⟨l, hf⟩, -⟩ := scrubArg_spec h.exact hm₁
  exact scrubSafe_of_two_le hK (hf.valid h).linked

theorem valid_of_two_le (hK : 2 ≤ T.kernelSize) {P : Map T ν → Op κ ν → Prop} {m : Map T ν}
    (hm : (runs B conf P).Reachable m) : Valid m :=
  (valid_of_reachable B conf (fun _ op h _ => h.scrubsSafe B hK op) hm).1

end Runs

end Map

end Nvhm
