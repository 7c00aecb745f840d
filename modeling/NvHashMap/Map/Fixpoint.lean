import NvHashMap.Map.Passes

/-! # How far a scrub gets

The passes end when one makes at most one move.  If that is the first pass, its move is the only
one that the table allows (`OnlyMove`), and an entry for which the vacated slot is upstream is left
behind: the table is `Trapped`.

After a pass the entries wait for later slots only (`Forward`).  So when a later pass makes a single
move, the entry has been on its way down from a bucket behind its own one.  An entry that waits for
the slot that it vacates has come down past both, and in a `Regular` table it waits for the slot
that was filled as well.  Hence in a regular table all entries end up as far upstream as they can
be, unless it is trapped.  Sequences that go around the table make it regular (`Cyclic.regular`), and
so do entries whose sequences have not gone back to an earlier line (`LinesUp.regular`). -/

namespace Nvhm

open Buffer SlotCount

variable {κ ν : Type} {T : MapType κ} [Inhabited κ] [Inhabited ν]

namespace Map

section Table
variable (m : Map T ν)

/-- Every entry is in the most upstream bucket that has a slot for it. -/
def AllTight : Prop := ∀ pos, m.Occupied pos → m.Tight pos

/-- One entry can move, and nothing else can in that pass: the entries of earlier slots have no
free slot upstream, those of later ones have none but the slot that the move fills. -/
structure OnlyMove (src dst : ℕ) : Prop extends CanMove m src dst where
  before : ∀ pos < src, m.Occupied pos → m.Tight pos
  after : ∀ pos, src < pos → m.Occupied pos → ∀ d < m.capacity, m.Precedes d pos →
    d ≠ src ∧ (m.Occupied d ∨ d = dst)

/-- The slot that the only move vacates is upstream of another entry. -/
def Trapped : Prop :=
  ∃ src dst, m.OnlyMove src dst ∧ ∃ pos, m.Occupied pos ∧ m.Precedes src pos

/-- The probe sequence of the entry at `pos` passes the bucket `o`, then the bucket `o'`, and comes
to the bucket of the entry, which may be `o'`. -/
def Visits (pos o o' : ℕ) : Prop := ∃ i j k, i < j ∧ j ≤ k ∧ k < m.numBuckets ∧
  m.visit (m.keyAt pos) k = T.off pos ∧ m.visit (m.keyAt pos) i = o ∧ m.visit (m.keyAt pos) j = o'

/-- Where one sequence goes back from `o` to `o₁` and another one back from `o₁` to `o₂`, this one
passes `o` too. -/
def Regular : Prop := ∀ p q o o₁ o₂, m.Occupied p → m.Occupied q → m.Visits p o o₁ → o₁ < o →
  m.Visits q o₁ o₂ → o₂ < o₁ → m.Visits q o o₂

/-- No entry that can move is in a bucket upstream of another entry. -/
def Apart : Prop := ∀ p q, m.Occupied p → m.Occupied q → ¬ m.Tight p → ¬ m.Precedes p q

/-- The table tells where its passes end. -/
def Plain : Prop := m.Regular ∨ m.Apart ∨ ∃ src dst, m.OnlyMove src dst

end Table

section Moves
variable {m m' : Map T ν} {src dst : ℕ}

omit [Inhabited ν] in
theorem precedes_iff_visits {d pos : ℕ} : m.Precedes d pos ↔ m.Visits pos (T.off d) (T.off pos) := by
  constructor
  · rintro ⟨i, j, hij, hj, hvj, hvi⟩
    exact ⟨i, j, j, hij, le_rfl, hj, hvj, hvi, hvj⟩
  · rintro ⟨i, j, k, hij, hjk, hk, hvk, hvi, -⟩
    exact ⟨i, k, by omega, hk, hvk, hvi⟩

omit [Inhabited ν] in
/-- An entry has one slot to move to. -/
theorem CanMove.unique {dst' : ℕ} (hm : m.CanMove src dst)
    (hm' : m.CanMove src dst') : dst = dst' := by
  obtain ⟨i, j, hij, hj, -, hvi, hb⟩ := hm.upstream
  obtain ⟨i', j', hij', hj', -, hvi', hb'⟩ := hm'.upstream
  have hfree : ∀ {key : κ} {n l d : ℕ}, m.Blocked key n → m.visit key l = T.off d →
      m.stateAt d = tombstone → n ≤ l := by
    intro key n l d hb hv ht
    by_contra hlt
    obtain ⟨e, he, hd⟩ := MapType.exists_add_of_off_eq (rfl : T.off d = T.off d)
    have hhash := hb l (by omega) e he
    rw [hv, ← hd] at hhash
    exact ne_tombstone_of_isHash hhash ht
  obtain rfl : i = i' := le_antisymm (hfree hb hvi' hm'.tomb) (hfree hb' hvi hm.tomb)
  have hoff : T.off dst = T.off dst' := hvi.symm.trans hvi'
  rcases Nat.lt_trichotomy dst dst' with hlt | heq | hlt
  · exact absurd hm.tomb (ne_tombstone_of_isHash (hm'.first dst hlt hoff).isHash)
  · exact heq
  · exact absurd hm'.tomb (ne_tombstone_of_isHash (hm.first dst' hlt hoff.symm).isHash)

/-- What makes the first move of a pass the only one. -/
theorem FirstMove.onlyMove_iff (hl : Linked m) {n : ℕ} {e : Bool}
    (h : FirstMove (fun _ => True) m m' n src dst e) : n = 1 ↔ m.OnlyMove src dst := by
  rw [h.after]
  have htight := fun {pos : ℕ} (hlt : src < pos) (ho : m.Occupied pos) =>
    move_tight_iff hl h.canMove h.hadEmpty ho hlt.ne'
  constructor
  · exact fun hall => ⟨h.canMove, fun pos hlt ho => h.before pos hlt trivial ho,
      fun pos hlt ho => (htight hlt ho).mp (hall pos hlt trivial ho)⟩
  · exact fun hm pos hlt _ ho => (htight hlt ho).mpr (hm.after pos hlt ho)

/-- A pass makes one move exactly if the table allows only one. -/
theorem Swept.onlyMove {I : Map T ν → Prop} (hl : Linked m) {n : ℕ} {b : Prop}
    (h : Swept I (fun _ => True) m m' n b) :
    (n = 1 → ∃ src dst, m.OnlyMove src dst) ∧
      ∀ src dst, m.OnlyMove src dst →
        n = 1 ∧ ∃ e, (e = true ↔ m.HasEmpty (T.off src)) ∧ m' = m.moveEntry e src dst := by
  constructor
  · intro hn
    obtain ⟨src, dst, e, hf⟩ := h.some (by omega)
    exact ⟨src, dst, (hf.onlyMove_iff hl).mp hn⟩
  · intro src dst hm
    have hloose := hm.not_tight hl.toShape
    obtain ⟨src', dst', e, hf⟩ := h.some fun hz => hloose (h.none.mp hz src trivial hm.occupied)
    -- the first entry that moves is the first one that can
    obtain rfl : src = src' := by
      rcases Nat.lt_trichotomy src src' with hlt | heq | hlt
      · exact absurd (hf.before src hlt trivial hm.occupied) hloose
      · exact heq
      · exact absurd (hm.before src' hlt hf.canMove.occupied) (hf.canMove.not_tight hl.toShape)
    obtain rfl := hm.toCanMove.unique hf.canMove
    have hn := (hf.onlyMove_iff hl).mpr hm
    exact ⟨hn, e, hf.hadEmpty, hf.eq hn⟩

/-- After the only move all entries are tight, unless one is behind the slot that it vacates. -/
theorem OnlyMove.allTight_iff (hl : Linked m) (hm : m.OnlyMove src dst) {e : Bool}
    (he : e = true ↔ m.HasEmpty (T.off src)) :
    (m.moveEntry e src dst).AllTight ↔ ∀ pos, m.Occupied pos → ¬ m.Precedes src pos := by
  have hmv := hm.toMovable
  constructor
  · intro hall pos ho hp
    have hne : pos ≠ src := by
      rintro rfl
      exact hp.off_ne hl.toShape rfl
    have ht := hall pos ((move_occupied hl.toSound hmv e pos).mpr (Or.inr ⟨hne, ho⟩))
    exact ((move_tight_iff hl hm.toCanMove he ho hne).mp ht src hm.occupied.1 hp).1 rfl
  · intro hnone pos hp
    rcases (move_occupied hl.toSound hmv e pos).mp hp with rfl | ⟨hne, ho⟩
    · exact move_tight_self hl hm.toCanMove he
    · refine (move_tight_iff hl hm.toCanMove he ho hne).mpr fun d hd hpre => ⟨?_, ?_⟩
      · rintro rfl
        exact hnone pos ho hpre
      · rcases Nat.lt_or_gt_of_ne hne with hlt | hgt
        · exact Or.inl ((hm.before pos hlt ho).occupied hl.toShape hd hpre)
        · exact (hm.after pos hgt ho d hd hpre).2

/-- A move shortens the sequence of the entry that moves, and leaves the others. -/
theorem move_visits (h : Sound m) (hm : m.CanMove src dst) (e : Bool) {pos o o' : ℕ}
    (ho : (m.moveEntry e src dst).Occupied pos) (hv : (m.moveEntry e src dst).Visits pos o o') :
    ∃ q, m.Occupied q ∧ m.Visits q o o' ∧
      ∀ o₀, m.Visits q o₀ o' → (m.moveEntry e src dst).Visits pos o₀ o' := by
  have hf := moveEntry_frame m e src dst
  have hmv := hm.toMovable
  unfold Visits at hv ⊢
  rw [hf.numBuckets, move_keyAt h hmv] at hv ⊢
  simp only [hf.visit] at hv ⊢
  rcases (move_occupied h hmv e pos).mp ho with rfl | ⟨-, hocc⟩
  · obtain ⟨i, j, k, hij, hjk, hk, hvk, hvi, hvj⟩ := hv
    rw [Function.update_self] at hvk hvi hvj ⊢
    obtain ⟨i', j', hij', hj', hvj', hvi', -⟩ := hm.upstream
    obtain rfl := h.visit_inj hk (by omega) (hvk.trans hvi'.symm)
    refine ⟨src, hm.occupied, ⟨i, j, j', hij, by omega, hj', hvj', hvi, hvj⟩, ?_⟩
    rintro o₀ ⟨i₀, j₀, k₀, hij₀, hjk₀, hk₀, -, hvi₀, hvj₀⟩
    obtain rfl := h.visit_inj (by omega) (by omega) (hvj₀.trans hvj.symm)
    exact ⟨i₀, j₀, k, hij₀, hjk, hk, hvk, hvi₀, hvj⟩
  · have hne : pos ≠ dst := by
      rintro rfl
      exact ne_tombstone_of_isHash hocc.isHash hm.tomb
    rw [Function.update_of_ne hne] at hv ⊢
    exact ⟨pos, hocc, hv, fun _ => id⟩

theorem moveInv_regular : MoveInv fun m : Map T ν => Linked m ∧ m.Regular where
  linked h := h.1
  move := by
    rintro m src dst e ⟨hl, hr⟩ hm he
    refine ⟨move_linked hl hm he, fun p q o o₁ o₂ hp hq hvp ho hvq ho₁ => ?_⟩
    obtain ⟨p', hp', hvp', -⟩ := move_visits hl.toSound hm e hp hvp
    obtain ⟨q', hq', hvq', hback⟩ := move_visits hl.toSound hm e hq hvq
    exact hback o (hr p' q' o o₁ o₂ hp' hq' hvp' ho hvq' ho₁)

theorem moveInv_apart : MoveInv fun m : Map T ν => Linked m ∧ m.Apart where
  linked h := h.1
  move := by
    rintro m src dst e ⟨hl, ha⟩ hm he
    refine ⟨move_linked hl hm he, fun p q hp hq hloose hpre => ?_⟩
    have hmv := hm.toMovable
    rcases (move_occupied hl.toSound hmv e p).mp hp with rfl | ⟨hps, hop⟩
    · exact hloose (move_tight_self hl hm he)
    -- an entry that was tight is not behind the slot that becomes free
    have hloose' : ¬ m.Tight p := fun ht => hloose <|
      (move_tight_iff hl hm he hop hps).mpr fun d hd hdp =>
        ⟨fun hc => ha src p hm.occupied hop (hm.not_tight hl.toShape) (hc ▸ hdp),
          Or.inl (ht.occupied hl.toShape hd hdp)⟩
    rcases (move_occupied hl.toSound hmv e q).mp hq with rfl | ⟨-, hoq⟩
    · exact ha p src hop hm.occupied hloose'
        (move_precedes_self hl.toSound hm e hop.1 hpre).1
    · have hqd : q ≠ dst := by
        rintro rfl
        exact ne_tombstone_of_isHash hoq.isHash hm.tomb
      exact ha p q hop hoq hloose' ((move_precedes hl.toSound hmv e p hqd).mp hpre)

end Moves

/-! ### The passes -/

section Passes
variable {m : Map T ν}

/-- A pass of one move, after another pass, leaves all entries tight in a regular table. -/
theorem OnlyMove.allTight (hl : Linked m) {src dst : ℕ} (hm : m.OnlyMove src dst) {e : Bool}
    (he : e = true ↔ m.HasEmpty (T.off src)) (hf : m.Forward fun _ => True) (hr : m.Regular) :
    (m.moveEntry e src dst).AllTight := by
  refine (hm.allTight_iff hl he).mpr fun pos ho hp => ?_
  have hfree : ¬ m.Occupied dst := fun hc => ne_tombstone_of_isHash hc.isHash hm.tomb
  -- what waits for `src` is before it, or the pass would have moved it too
  have hlt : pos < src := by
    rcases Nat.lt_trichotomy pos src with hlt | rfl | hgt
    · exact hlt
    · exact absurd rfl (hp.off_ne hl.toShape)
    · exact absurd rfl (hm.after pos hgt ho src hm.occupied.1 hp).1
  have hdown : T.off pos < T.off src :=
    lt_of_le_of_ne (Nat.mul_le_mul_left _ (Nat.div_le_div_right hlt.le)) (hp.off_ne hl.toShape).symm
  have hback : T.off src < T.off dst := by
    by_contra hle
    exact hfree (hf src hm.occupied trivial dst hm.lt hm.precedes (not_lt.mp hle))
  have hv := hr src pos _ _ _ hm.occupied ho (precedes_iff_visits.mp hm.precedes) hback
    (precedes_iff_visits.mp hp) hdown
  exact hfree ((hm.before pos hlt ho).occupied hl.toShape hm.lt (precedes_iff_visits.mpr hv))

/-- The passes of a table that allows one move only. -/
theorem scrubPasses_onlyMove (hl : Linked m) {src dst : ℕ} (hm : m.OnlyMove src dst) (d : ℕ) :
    ∃ s e, scrubPasses ideal (d + 1) ⟨m, 0, 0⟩ = .ok s ∧ s.numMoves = 1 ∧
      s.map = m.moveEntry e src dst ∧ (e = true ↔ m.HasEmpty (T.off src)) ∧
      (s.pslBits = 0 → ∀ pos, s.map.Occupied pos → s.map.AtHome pos) := by
  obtain ⟨s, n, hr, hn, hs, -⟩ := fullPass_spec moveInv_linked (s := ⟨m, 0, 0⟩) hl
  obtain ⟨rfl, e, he, hmap⟩ := (hs.onlyMove hl).2 src dst hm
  dsimp only at hr hn
  refine ⟨s, e, ?_, by omega, hmap, he, fun hz pos ho => atHome_of_swept hs hz ho⟩
  rw [scrubPasses, hr, ok_bind, if_pos (by omega)]

/-- In a plain table all entries end up tight, unless it is trapped. -/
theorem scrubPasses_allTight (hl : Linked m) (hp : m.Plain) (ht : ¬ m.Trapped) {s : Scrub T ν}
    (hr : scrubPasses ideal (m.capacity * m.capacity + 2) ⟨m, 0, 0⟩ = .ok s) : s.map.AllTight := by
  -- one move at the end of the passes, and what is known of the table before it
  have hlast : ∀ {I : Map T ν → Prop}, MoveInv I → I m → (∀ m₀ src dst e, I m₀ →
      m₀.OnlyMove src dst → (e = true ↔ m₀.HasEmpty (T.off src)) →
      (m₀ = m ∨ m₀.Forward fun _ => True) → (m₀.moveEntry e src dst).AllTight) →
      s.map.AllTight := by
    intro I hI h hone
    obtain ⟨s', hr', hs⟩ := scrubPasses_total hI h
    obtain rfl := Except.ok.inj (hr.symm.trans hr')
    obtain ⟨m₀, n, h₀, hn, hswept, hstart⟩ := hs.last
    rcases Nat.le_one_iff_eq_zero_or_eq_one.mp hn with hz | hn
    · rw [hswept.same hz]
      exact fun pos => hswept.none.mp hz pos trivial
    · obtain ⟨src, dst, hm⟩ := (hswept.onlyMove (hI.linked h₀)).1 hn
      obtain ⟨-, e, he, hmap⟩ := (hswept.onlyMove (hI.linked h₀)).2 src dst hm
      rw [hmap]
      exact hone m₀ src dst e h₀ hm he hstart
  -- the only move of the table does not trap it
  have hfirst : ∀ {src dst : ℕ} {e : Bool}, m.OnlyMove src dst →
      (e = true ↔ m.HasEmpty (T.off src)) → (m.moveEntry e src dst).AllTight :=
    fun hm he => (hm.allTight_iff hl he).mpr fun pos ho hpre => ht ⟨_, _, hm, pos, ho, hpre⟩
  rcases hp with hreg | hap | ⟨src, dst, hm⟩
  · refine hlast moveInv_regular ⟨hl, hreg⟩ fun m₀ src dst e h₀ hm he hstart => ?_
    rcases hstart with rfl | hf
    · exact hfirst hm he
    · exact hm.allTight h₀.1 he hf h₀.2
  · refine hlast moveInv_apart ⟨hl, hap⟩ fun m₀ src dst e h₀ hm he _ => ?_
    exact (hm.allTight_iff h₀.1 he).mpr fun pos ho =>
      h₀.2 src pos hm.occupied ho (hm.not_tight h₀.1.toShape)
  · obtain ⟨s', e, hr', -, hmap, he, -⟩ := scrubPasses_onlyMove hl hm (m.capacity * m.capacity + 1)
    obtain rfl := Except.ok.inj (hr.symm.trans hr')
    rw [hmap]
    exact hfirst hm he

end Passes

/-! ### What a scrub reaches -/

section Scrub
variable {m m' : Map T ν}

omit [Inhabited ν] in
theorem AllTight.settled (h : Shape m) (ht : m.AllTight) : m.Settled := by
  intro pos hp i j hij hj hv hdead
  have hhash := (ht pos hp).isHash h hij hj hv T.kernelSize_pos
  rw [hdead 0 T.kernelSize_pos] at hhash
  cases hhash

/-- A table of tight entries is scrubbed without a move. -/
theorem AllTight.scrub (h : Linked m) (ht : m.AllTight) :
    ∃ m', m.scrub_ ideal = .ok (0, m') := by
  rw [scrub_]
  split_ifs
  · exact ⟨m, rfl⟩
  · obtain ⟨s, n, hr, hn, hs, -⟩ := fullPass_spec moveInv_linked (s := ⟨m, 0, 0⟩) h
    obtain rfl := hs.none.mpr fun pos _ => ht pos
    dsimp only at hr hn
    rw [scrubPasses, hr, ok_bind, if_pos (by omega), ok_bind, hn]
    exact ⟨_, rfl⟩

theorem Pruned.allTight_iff {D : ℕ → Prop} (hp : Pruned D m m') (h : Shape m) :
    m'.AllTight ↔ m.AllTight := by
  have hhash : ∀ p < m.capacity, isHash (m'.stateAt p) = true ↔ isHash (m.stateAt p) = true := by
    intro p hlt
    have hiff := hp.occupied_iff p
    rw [Occupied, Occupied, hp.frame.capacity, containsAt, containsAt] at hiff
    exact ⟨fun hc => (hiff.mp ⟨hlt, hc⟩).2, fun hc => (hiff.mpr ⟨hlt, hc⟩).2⟩
  refine forall_congr' fun pos => imp_congr (hp.occupied_iff pos) ?_
  unfold Tight Blocked
  simp only [hp.frame.numBuckets, hp.keyAt_eq, hp.frame.visit]
  refine exists_congr fun j => and_congr_right fun hj => and_congr_right fun _ => ?_
  refine forall₂_congr fun i hi => forall₂_congr fun d hd => hhash _ ?_
  have := h.visit_add_le (m.keyAt pos) i
  omega

theorem prune_allTight_iff {s : Scrub T ν} (h : Valid s.map) :
    (prune ideal s).AllTight ↔ s.map.AllTight := by
  unfold prune
  split_ifs
  · exact Iff.rfl
  · exact (pruneAll_spec h.toSound).allTight_iff h.toShape
  · exact (pruneDead_spec _ h.toShape h.exact.counted
      fun o ho => h.mem_offsets.mp ho).1.allTight_iff h.toShape

omit [Inhabited ν] in
theorem Trapped.plain (ht : m.Trapped) : m.Plain := by
  obtain ⟨src, dst, hm, -⟩ := ht
  exact Or.inr (Or.inr ⟨src, dst, hm⟩)

omit [Inhabited ν] in
/-- A trapped table has a tombstone. -/
theorem Trapped.numTombstone_ne (h : Exact m) (ht : m.Trapped) : m.numTombstone ≠ 0 := by
  obtain ⟨src, dst, hm, -⟩ := ht
  have hpos : 0 < countSlots m.capacity (· == tombstone) m.stateAt :=
    countSlots_pos.mpr ⟨dst, hm.lt, by rw [hm.tomb]; rfl⟩
  have := h.counted.numTombstone_eq
  omega

/-- `scrub_` reaches its fixpoint in a plain table that is not trapped, and only in such a one. -/
theorem scrub_allTight (h : Valid m) (hp : m.Plain) :
    ∃ n m', m.scrub_ ideal = .ok (n, m') ∧ (n ≠ 0 → (m'.AllTight ↔ ¬ m.Trapped)) ∧
      (n = 0 → ¬ m.Trapped) := by
  rw [scrub_]
  split_ifs with ht
  · exact ⟨0, m, rfl, fun hc => absurd rfl hc, fun _ hc => hc.numTombstone_ne h.exact ht⟩
  obtain ⟨s, hr, hs⟩ := scrubPasses_total moveInv_valid h
  have hv : Valid s.map := hs.inv
  rw [hr, ok_bind]
  refine ⟨s.numMoves, prune ideal s, rfl, fun _ => ?_, ?_⟩
  · rw [prune_allTight_iff hv]
    refine ⟨?_, fun htrap => scrubPasses_allTight h.linked hp htrap hr⟩
    rintro hall ⟨src, dst, hm, pos, ho, hpre⟩
    obtain ⟨s', e, hr', -, hmap, he, -⟩ :=
      scrubPasses_onlyMove h.linked hm (m.capacity * m.capacity + 1)
    obtain rfl := Except.ok.inj (hr.symm.trans hr')
    rw [hmap, hm.allTight_iff h.linked he] at hall
    exact hall pos ho hpre
  · rintro hz ⟨src, dst, hm, -⟩
    obtain ⟨s', e, hr', hone, -⟩ :=
      scrubPasses_onlyMove h.linked hm (m.capacity * m.capacity + 1)
    obtain rfl := Except.ok.inj (hr.symm.trans hr')
    omega

/-- A plain table that is not trapped is safe to scrub. -/
theorem scrubSafe_of_plain (h : Valid m) (hp : m.Plain) (ht : ¬ m.Trapped) : m.ScrubSafe := by
  refine Or.inr fun s hr => Or.inr (Or.inr ?_)
  obtain ⟨s', hr', hs⟩ := scrubPasses_total moveInv_valid h
  obtain rfl := Except.ok.inj (hr.symm.trans hr')
  have hv : Valid s.map := hs.inv
  exact (scrubPasses_allTight h.linked hp ht hr).settled hv.toShape

/-- With one slot per bucket a trapped table is not: the slot that is vacated becomes empty. -/
theorem Trapped.not_scrubSafe (hK : T.kernelSize = 1) (h : Valid m) (ht : m.Trapped) :
    ¬ m.ScrubSafe := by
  have hn := ht.numTombstone_ne h.exact
  obtain ⟨src, dst, hm, pos, ho, hpre⟩ := ht
  have hmv := hm.toMovable
  obtain ⟨s, e, hr, hone, hmap, he, hhome⟩ :=
    scrubPasses_onlyMove h.linked hm (m.capacity * m.capacity + 1)
  have hne : pos ≠ src := by
    rintro rfl
    exact hpre.off_ne h.toShape rfl
  have hd : pos ≠ dst := by
    rintro rfl
    exact ne_tombstone_of_isHash ho.isHash hm.tomb
  have ho' : s.map.Occupied pos := by
    rw [hmap]
    exact (move_occupied h.toSound hmv e pos).mpr (Or.inr ⟨hne, ho⟩)
  have hpre' : s.map.Precedes src pos := by
    rw [hmap]
    exact (move_precedes h.toSound hmv e src hd).mpr hpre
  have hshape : Shape s.map := by
    rw [hmap]
    exact (move_valid h hm.toCanMove he).toShape
  obtain ⟨i, j, hij, hj, hvj, hvi⟩ := hpre'
  rintro (hz | hsafe)
  · exact hn hz
  rcases hsafe s hr with hz | hz | hsettled
  · omega
  · -- the entry behind the slot is not at the start of its sequence
    have hi := hshape.visit_inj (by omega) hj ((hhome hz pos ho').trans hvj.symm)
    omega
  · refine hsettled pos ho' i j hij hj hvj fun d hd => ?_
    obtain rfl : d = 0 := by omega
    have hoff : T.off src = src := by
      rw [MapType.off, hK, Nat.one_mul, Nat.div_one]
    rw [hvi, hoff, Nat.add_zero, hmap, move_stateAt h.toSound hmv, Function.update_self]
    cases e with
    | false => rfl
    | true =>
        obtain ⟨d, hdk, hemp⟩ := he.mp rfl
        obtain rfl : d = 0 := by omega
        rw [hoff, Nat.add_zero] at hemp
        exact absurd hemp (ne_empty_of_isHash hm.occupied.isHash)

end Scrub

/-! ### Sequences that go around the table -/

section Cyclic
variable {m : Map T ν}

/-- Every sequence goes around the table: the table fits in one line of the alignment, or the
sequence is linear and its alignment is at most the kernel size. -/
def Cyclic (m : Map T ν) : Prop := m.capacity ≤ T.seq.alignment ∨
  T.seq.kind = .linear ∧ T.seq.alignment ≤ T.kernelSize

omit [Inhabited κ] [Inhabited ν] in
theorem Cyclic.visit_eq (hc : m.Cyclic) (h : Shape m) (key : κ) : ∃ t, ∀ j < m.numBuckets,
    m.visit key j = T.kernelSize * ((t + j) % m.numBuckets) := by
  obtain ⟨c, hk, hle, hmask, hcap, hdiv⟩ := h.exists_pow
  unfold visit numBuckets
  rw [hmask, hdiv]
  refine seqBucket_cyclic ?_ hk (by omega) (keyPos_lt T key)
  rwa [← hcap]

omit [Inhabited ν] in
/-- A sequence that comes to a lower bucket on its way around the table has passed all the higher
ones in between. -/
theorem Cyclic.regular (hc : m.Cyclic) (h : Shape m) : m.Regular := by
  intro p q o o₁ o₂ _ _ hp ho hq ho₁
  obtain ⟨i', j', k', hij', hjk', hk', -, hvi', -⟩ := hp
  obtain ⟨i, j, k, hij, hjk, hk, hvk, hvi, hvj⟩ := hq
  obtain ⟨t', hv'⟩ := hc.visit_eq h (m.keyAt p)
  obtain ⟨t, hv⟩ := hc.visit_eq h (m.keyAt q)
  rw [hv' i' (by omega)] at hvi'
  rw [hv i (by omega)] at hvi
  rw [hv j (by omega)] at hvj
  subst hvi' hvi hvj
  have hx := Nat.mod_lt (t' + i') (by omega : m.numBuckets > 0)
  obtain ⟨l, hil, hlj, hl⟩ := Coverage.exists_add_mod_eq hij hx
    (Nat.lt_of_mul_lt_mul_left ho₁) (Nat.lt_of_mul_lt_mul_left ho)
  exact ⟨l, j, k, hlj, hjk, hk, hvk, by rw [hv l (by omega), hl], hv j (by omega)⟩

/-- No sequence has gone back to an earlier line on its way to its entry. -/
def LinesUp (m : Map T ν) : Prop :=
  ∀ pos o o', m.Occupied pos → m.Visits pos o o' → T.line o ≤ T.line o'

omit [Inhabited ν] in
/-- Then the buckets of a way back are in one line, and a sequence walks around its lines. -/
theorem LinesUp.regular (hl : m.LinesUp) (h : Shape m) : m.Regular := by
  intro p q o o₁ o₂ hp hq hvp ho hvq ho₁
  have hline : T.line o = T.line o₁ :=
    le_antisymm (hl p o o₁ hp hvp) (Nat.div_le_div_right ho.le)
  have hline₁ : T.line o₁ = T.line o₂ :=
    le_antisymm (hl q o₁ o₂ hq hvq) (Nat.div_le_div_right ho₁.le)
  obtain ⟨i', -, -, -, -, -, -, rfl, -⟩ := hvp
  obtain ⟨i, j, k, hij, hjk, hk, hvk, rfl, rfl⟩ := hvq
  obtain ⟨l, -, hlj, hvl⟩ := h.exists_visit_between hij (hjk.trans_lt hk)
    (h.dvd_visit (m.keyAt p) i') (h.visit_lt (m.keyAt p) i') hline₁ hline ho₁ ho
  exact ⟨l, j, k, hlj, hjk, hk, hvk, hvl, rfl⟩

end Cyclic

/-! ### Runs -/

section Runs
variable (B : Kernel T.kernelSize) (conf : Conf T.conf)

/-- With one slot per bucket, the tables that the call scrubs are plain and not trapped. -/
def ScrubsUntrapped (m : Map T ν) (op : Op κ ν) : Prop :=
  ∀ m₁, m.scrubArg B.ops op = some m₁ → 2 ≤ T.kernelSize ∨ m₁.Plain ∧ ¬ m₁.Trapped

omit [Inhabited ν] in
theorem NoScrub.scrubsUntrapped {m : Map T ν} {op : Op κ ν} (h : NoScrub B m op) :
    ScrubsUntrapped B m op := by
  intro m₁ hm₁
  rw [NoScrub] at h
  rw [h] at hm₁
  cases hm₁

theorem ScrubsUntrapped.scrubsSafe {m : Map T ν} (h : Valid m) {op : Op κ ν}
    (hop : ScrubsUntrapped B m op) : ScrubsSafe B m op := by
  intro m₁ hm₁
  have hcase := hop m₁ hm₁
  rw [scrubArg_eq B.lawful h.toSound] at hm₁
  obtain ⟨⟨l, hf⟩, -⟩ := scrubArg_spec h.exact hm₁
  have hv₁ := hf.valid h
  rcases hcase with hK | ⟨hp, ht⟩
  · exact scrubSafe_of_two_le hK hv₁.linked
  · exact scrubSafe_of_plain hv₁ hp ht

/-- What a scrub is to reach: if it moved an entry, then all entries are as far upstream as they
can be, and the next scrub moves nothing. -/
def Fixpoint (n : ℕ) (m : Map T ν) : Prop :=
  n ≠ 0 → m.AllTight ∧ ∃ m', m.scrub_ B.ops = .ok (0, m')

/-- In a run in which every scrub meets a plain table that is not trapped, or two slots per bucket,
the scrub of a call reaches the fixpoint if its table is plain and not trapped; if it is trapped,
the scrub does not reach it.  A table is plain where sequences go around it, and where none has gone
back to an earlier line. -/
theorem scrub_fixpoint_iff {m : Map T ν} (hm : (runs B conf (ScrubsUntrapped B)).Reachable m)
    {op : Op κ ν} {m₁ : Map T ν} (hop : m.scrubArg B.ops op = some m₁) :
    (∃ n m₂ r, m₁.scrub_ B.ops = .ok (n, m₂) ∧ m.step B.ops op = .ok (r, m₂) ∧
      (m₁.Plain → (Fixpoint B n m₂ ↔ ¬ m₁.Trapped))) ∧
      (m₁.Trapped → m₁.Plain) ∧ (m₁.Cyclic → m₁.Plain) ∧ (m₁.LinesUp → m₁.Plain) := by
  obtain ⟨hv, -⟩ := valid_of_reachable B conf
    (fun m op h hop => ScrubsUntrapped.scrubsSafe B h hop) hm
  rw [scrubArg_eq B.lawful hv.toSound] at hop
  obtain ⟨⟨l, hf⟩, hstep⟩ := scrubArg_spec hv.exact hop
  have hv₁ := hf.valid hv
  obtain ⟨n, m₂, hr, -, -, -, hvalid, -⟩ := scrub_valid hv₁
  obtain ⟨r, hr'⟩ := hstep n m₂ hr
  refine ⟨⟨n, m₂, r, (scrub_agree B.lawful hv₁.toSound).1.trans hr,
    (step_agree B.lawful hv.toSound op).1.trans hr', fun hp => ?_⟩, Trapped.plain,
    fun hc => Or.inl (hc.regular hv₁.toShape), fun hc => Or.inl (hc.regular hv₁.toShape)⟩
  obtain ⟨n', m₂', hr₂, htight, hzero⟩ := scrub_allTight hv₁ hp
  obtain ⟨rfl, rfl⟩ := Prod.mk.inj (Except.ok.inj (hr.symm.trans hr₂))
  by_cases hn : n = 0
  · exact iff_of_true (fun hc => absurd hn hc) (hzero hn)
  · rw [← htight hn]
    refine ⟨fun hfix => (hfix hn).1, fun hall _ => ⟨hall, ?_⟩⟩
    have hv₂ := hvalid (scrubSafe_of_plain hv₁ hp ((htight hn).mp hall))
    obtain ⟨m₃, hr₃⟩ := hall.scrub hv₂.linked
    exact ⟨m₃, (scrub_agree B.lawful hv₂.toSound).1.trans hr₃⟩

/-- In such a run the map has its invariant and refines a finite map in every state.  The scrub of
a call keeps the entries, the found keys, the counters and the chains if a bucket has two slots; with
one slot it keeps them if its table is plain and not trapped, and not if it is trapped.  The table
is plain where sequences go around it, and where none has gone back to an earlier line. -/
theorem scrub_keeps_iff (hd : T.duplicates = false) (hS : T.seq.isUnbounded = true) {m : Map T ν}
    {a : Abstract κ ν} (hm : (trackedRuns B conf (ScrubsUntrapped B)).Reachable (m, a)) :
    Inv m ∧ Refines a m ∧ ∀ (op : Op κ ν) (m₁ : Map T ν), m.scrubArg B.ops op = some m₁ →
      (∃ n m₂ r, m₁.scrub_ B.ops = .ok (n, m₂) ∧ m.step B.ops op = .ok (r, m₂) ∧
        (2 ≤ T.kernelSize → ScrubKeeps B m₁ m₂) ∧
        (T.kernelSize = 1 → m₁.Plain → (ScrubKeeps B m₁ m₂ ↔ ¬ m₁.Trapped))) ∧
      (m₁.Trapped → m₁.Plain) ∧ (m₁.Cyclic → m₁.Plain) ∧ (m₁.LinesUp → m₁.Plain) := by
  obtain ⟨hinv, href⟩ := refines_of_reachable B conf hd hS
    (fun m op h hop => ScrubsSafe.scrubsOk B hS h (hop.scrubsSafe B (h.valid hS))) hm
  refine ⟨hinv, href, fun op m₁ hop => ?_⟩
  rw [scrubArg_eq B.lawful hinv.toSound] at hop
  obtain ⟨⟨l, hf⟩, hstep⟩ := scrubArg_spec hinv.exact hop
  have hinv₁ := hf.inv hinv
  have hv₁ := hinv₁.valid hS
  obtain ⟨n, m₂, hr, hiff⟩ := scrubKeeps_iff B hS hinv₁
  obtain ⟨r, hr'⟩ := hstep n m₂ ((scrub_agree B.lawful hinv₁.toSound).1.symm.trans hr)
  refine ⟨⟨n, m₂, r, hr, (step_agree B.lawful hinv.toSound op).1.trans hr', fun hK => ?_,
    fun hK hp => ?_⟩, Trapped.plain, fun hc => Or.inl (hc.regular hv₁.toShape),
    fun hc => Or.inl (hc.regular hv₁.toShape)⟩
  · exact hiff.mpr (scrubSafe_of_two_le hK hv₁.linked)
  · rw [hiff]
    exact ⟨fun hsafe ht => ht.not_scrubSafe hK hv₁ hsafe, scrubSafe_of_plain hv₁ hp⟩

end Runs

/-- The last pass of the first scrub moves key 10 from bucket 6 to bucket 4, and key 7, which the
pass scanned before, could move to bucket 6 now.  The second scrub moves it. -/
theorem scrub_repeats : ∃ rs m,
    wordExec 1 false [.insert 2, .insert 6, .insert 10, .insert 3, .insert 7, .eraseFirst 2, .scrub,
        .scrub] = .ok (rs, m) ∧
      rs.drop 6 = [.number 1, .number 1] := by
  obtain ⟨rs, m, hr, -, hrs⟩ := exists_wordExec 1 false
    [.insert 2, .insert 6, .insert 10, .insert 3, .insert 7, .eraseFirst 2, .scrub, .scrub]
    (fun r => r.1.drop 6) [.number 1, .number 1] (by decide +kernel)
  exact ⟨rs, m, hr, hrs⟩

/-- With one slot per bucket, a pass that makes one move is the last one.  Here it vacates the slot
that key 7 is behind, the slot becomes empty, and key 7, which was found before, is lost. -/
theorem scrub_loses_key : ∃ rs m,
    wordExec 0 false [.insert 6, .insert 14, .insert 7, .eraseFirst 6, .findFirst 7, .scrub,
        .findFirst 7] = .ok (rs, m) ∧
      rs.drop 4 = [.found (some 0) ⟨1, 0, 7⟩, .number 1, .found none ⟨0, 0, 7⟩] ∧
      m.Occupied 0 ∧ m.keyAt 0 = 7 := by
  obtain ⟨rs, m, hr, hsound, hf⟩ := exists_wordExec 0 false
    [.insert 6, .insert 14, .insert 7, .eraseFirst 6, .findFirst 7, .scrub, .findFirst 7]
    (fun r => (r.1.drop 4, r.2.containsAt 0, r.2.keyAt 0))
    ([.found (some 0) ⟨1, 0, 7⟩, .number 1, .found none ⟨0, 0, 7⟩], true, 7)
    (by decide +kernel)
  obtain ⟨hrs, hrest⟩ := Prod.mk.inj hf
  obtain ⟨hocc, hkey⟩ := Prod.mk.inj hrest
  exact ⟨rs, m, hr, hrs, ⟨hsound.capacity_pos, hocc⟩, hkey⟩

/-- Eight slots fit in one line, so the fixpoint is reached unless the table is trapped. -/
theorem scrub_fixpoint_words : ∃ rs m,
    wordExec 1 false [.insert 0, .insert 8, .insert 16, .eraseFirst 0] = .ok (rs, m) ∧
      m.numTombstone = 1 ∧ ∃ n m₂ r, m.scrub_ (wordKernel 1 false).ops = .ok (n, m₂) ∧
        m.step (wordKernel 1 false).ops .scrub = .ok (r, m₂) ∧
        (Fixpoint (wordKernel 1 false) n m₂ ↔ ¬ m.Trapped) := by
  obtain ⟨rs, m, hr, -, hn⟩ := exists_wordExec 1 false
    [.insert 0, .insert 8, .insert 16, .eraseFirst 0]
    (fun r => (r.2.numTombstone, r.2.capacity)) (1, 8) (by decide +kernel)
  obtain ⟨hn, hcap⟩ := Prod.mk.inj hn
  have hm := reachable_mono _ _ (fun _ _ => NoScrub.scrubsUntrapped _)
    (reachable_of_wordExec 1 false (by simp [Op.isScrub]) hr)
  have hop : m.scrubArg (wordKernel 1 false).ops .scrub = some m := rfl
  obtain ⟨⟨n, m₂, r, hs, hstep, hiff⟩, -, hplain, -⟩ :=
    scrub_fixpoint_iff (wordKernel 1 false) (wordConf 1 false) hm hop
  refine ⟨rs, m, hr, hn, n, m₂, r, hs, hstep, hiff (hplain (Or.inl ?_))⟩
  rw [hcap]
  decide

/-- A table with two slots per bucket, scrubbed. -/
theorem scrub_keeps_words : ∃ rs m a,
    wordExec 1 false [.insert 0, .insert 8, .insert 16, .eraseFirst 0] = .ok (rs, m) ∧
      m.numTombstone = 1 ∧ Inv m ∧ Refines a m ∧ ∃ n m₂ r,
        m.scrub_ (wordKernel 1 false).ops = .ok (n, m₂) ∧
        m.step (wordKernel 1 false).ops .scrub = .ok (r, m₂) ∧
        ScrubKeeps (wordKernel 1 false) m m₂ := by
  obtain ⟨rs, m, hr, -, hn⟩ := exists_wordExec 1 false
    [.insert 0, .insert 8, .insert 16, .eraseFirst 0]
    (fun r => r.2.numTombstone) 1 (by decide +kernel)
  obtain ⟨a, ha⟩ := tracked_of_reachable _ _ (reachable_mono _ _
    (fun _ _ => NoScrub.scrubsUntrapped _) (reachable_of_wordExec 1 false (by simp [Op.isScrub]) hr))
  obtain ⟨hinv, href, hscrub⟩ := scrub_keeps_iff (wordKernel 1 false) (wordConf 1 false) rfl rfl ha
  obtain ⟨⟨n, m₂, r, hs, hstep, hkeeps, -⟩, -⟩ := hscrub .scrub m rfl
  exact ⟨rs, m, a, hr, hn, hinv, href, n, m₂, r, hs, hstep, hkeeps le_rfl⟩

end Map

end Nvhm
