import NvHashMap.Map.Change

/-! # The passes of a scrub

`PassStart`, `BucketStart` and `SlotStart` are the states that `scrub_` goes through: at the top
of a pass, of a bucket, and of an entry.  In all of them the chains hold, so that the probe loop
of an entry ends at its bucket or at a tombstone, and the sum of the distances falls with every
move (`scrub_terminates`). -/

namespace Nvhm

open Buffer SlotCount

variable {κ ν : Type} {T : MapType κ} [Inhabited κ] [Inhabited ν]

namespace Map

/-! ### The states of a scrub -/

section States
variable (B : BucketOps) (m : Map T ν)

/-- The states in which a pass begins. -/
inductive PassStart : Scrub T ν → Prop where
  | first : PassStart ⟨m, 0, 0⟩
  | next {s s' : Scrub T ν} (h : PassStart s)
      (hr : scrubPass B (offsets T.kernelSize s.map.capacity) { s with pslBits := 0 } = .ok s')
      (hmore : ¬ s'.numMoves - s.numMoves ≤ 1) : PassStart s'

/-- The states in which a pass comes to a bucket; the list holds this one and those behind it. -/
inductive BucketStart : List ℕ → Scrub T ν → Prop where
  | first {s : Scrub T ν} (h : PassStart B m s) :
      BucketStart (offsets T.kernelSize s.map.capacity) { s with pslBits := 0 }
  | next {s s' : Scrub T ν} {off : ℕ} {offs : List ℕ} (h : BucketStart (off :: offs) s)
      (hr : scrubSlots B off (B.hasEmpty (s.map.bucket off)) (B.hashes (s.map.bucket off)) s
        = .ok s') : BucketStart offs s'

/-- The states in which a pass comes to an entry; the list holds its slot and those behind it. -/
inductive SlotStart : ℕ → Bool → List ℕ → Scrub T ν → Prop where
  | first {s : Scrub T ν} {off : ℕ} {offs : List ℕ} (h : BucketStart B m (off :: offs) s) :
      SlotStart off (B.hasEmpty (s.map.bucket off)) (B.hashes (s.map.bucket off)) s
  | next {s s' : Scrub T ν} {off i : ℕ} {b : Bool} {is : List ℕ}
      (h : SlotStart off b (i :: is) s) (hr : scrubSlot B off b (off + i) s = .ok s') :
      SlotStart off b is s'

end States

section Fuel
variable {B : BucketOps} {m : Map T ν}

/-- More fuel does not change the passes. -/
theorem scrubPasses_mono : ∀ {d d' : ℕ} {s s' : Scrub T ν}, d ≤ d' →
    scrubPasses B d s = .ok s' → scrubPasses B d' s = .ok s'
  | 0, _, _, _, _, hr => by cases hr
  | d + 1, 0, _, _, hle, _ => by omega
  | d + 1, d' + 1, s, s', hle, hr => by
      rw [scrubPasses] at hr ⊢
      obtain ⟨s₁, h₁, hr⟩ := bind_eq_ok.mp hr
      rw [h₁, ok_bind]
      split_ifs at hr ⊢
      · exact hr
      · exact scrubPasses_mono (Nat.le_of_succ_le_succ hle) hr

end Fuel

/-! ### What holds in these states -/

section Linked
variable {m : Map T ν} {I : Map T ν → Prop} (hI : MoveInv I) (h : I m) {B : BucketOps}
  (hB : B.Lawful T.kernelSize)
include hI h hB

theorem PassStart.inv {s : Scrub T ν} (hs : PassStart B m s) : I s.map := by
  induction hs with
  | first => exact h
  | @next s s' _ hr _ ih =>
      have hl := hI.linked ih
      obtain ⟨s₁, n, hr', -, hswept, -⟩ := fullPass_spec hI ih
      rw [(scrubPass_agree hB _ (s := { s with pslBits := 0 }) hl.toSound
        fun o ho => hl.mem_offsets.mp ho).1] at hr
      obtain rfl := Except.ok.inj (hr.symm.trans hr')
      exact hswept.inv

theorem BucketStart.inv {offs : List ℕ} {s : Scrub T ν} (hs : BucketStart B m offs s) :
    I s.map ∧ ∀ o ∈ offs, T.kernelSize ∣ o ∧ o < s.map.capacity := by
  induction hs with
  | first hp =>
      have hinv := hp.inv hI h hB
      exact ⟨hinv, fun o ho => (hI.linked hinv).mem_offsets.mp ho⟩
  | @next s s' off offs _ hr ih =>
      obtain ⟨hinv, hoffs⟩ := ih
      obtain ⟨hd, hlt⟩ := hoffs off List.mem_cons_self
      have hl := hI.linked hinv
      have hmem := hl.toShape.mem_hashes hd hlt
      obtain ⟨s₁, n, h₁, -, -, hswept, -⟩ := scrubSlots_spec hI hd
        (ideal.hashes (s.map.bucket off)) hinv (slots_sorted _ _) (fun i hi => (hmem i).mp hi)
        (hl.hasEmpty_iff (hl.offset_add_le hd hlt))
      rw [hasEmpty_eq hB hl.toSound hd hlt, hB.hashes _ (hl.toSound.isBucket hd hlt),
        (scrubSlots_agree hB off _ _ hl.toSound fun i hi => ((hmem i).mp hi).2.1).1] at hr
      obtain rfl := Except.ok.inj (hr.symm.trans h₁)
      refine ⟨hswept.inv, fun o ho => ?_⟩
      rw [hswept.frame.capacity]
      exact hoffs o (List.mem_cons_of_mem off ho)

/-- At an entry: its bucket is the one that is scanned, the entries behind it are still there, and
the snapshot of the bucket says whether it has an empty slot. -/
structure Scanning (m : Map T ν) (off : ℕ) (b : Bool) (is : List ℕ) : Prop where
  dvd : T.kernelSize ∣ off
  nodup : is.Nodup
  occupied : ∀ i ∈ is, i < T.kernelSize ∧ m.Occupied (off + i)
  hasEmpty_iff : b = true ↔ m.HasEmpty off

theorem SlotStart.inv {off : ℕ} {b : Bool} {is : List ℕ} {s : Scrub T ν}
    (hs : SlotStart B m off b is s) : I s.map ∧ Scanning s.map off b is := by
  induction hs with
  | @first s off offs hb =>
      obtain ⟨hinv, hoffs⟩ := hb.inv hI h hB
      obtain ⟨hd, hlt⟩ := hoffs off List.mem_cons_self
      have hl := hI.linked hinv
      rw [hasEmpty_eq hB hl.toSound hd hlt, hB.hashes _ (hl.toSound.isBucket hd hlt)]
      exact ⟨hinv, hd, slots_nodup _ _, fun i hi => (hl.toShape.mem_hashes hd hlt i).mp hi,
        hl.hasEmpty_iff (hl.offset_add_le hd hlt)⟩
  | @next s s' off i b is _ hr ih =>
      obtain ⟨hinv, hscan⟩ := ih
      obtain ⟨hi, hocc⟩ := hscan.occupied i List.mem_cons_self
      obtain ⟨hni, hn⟩ := List.nodup_cons.mp hscan.nodup
      have hoff := MapType.off_add hscan.dvd hi
      obtain ⟨s₁, n, h₁, -, -, hswept, -⟩ :=
        scrubSlot_spec hI hinv hoff hocc hscan.hasEmpty_iff
      rw [(scrubSlot_agree hB (hI.linked hinv).toSound off b hocc.1).1] at hr
      obtain rfl := Except.ok.inj (hr.symm.trans h₁)
      refine ⟨hswept.inv, hscan.dvd, hn, fun i' hi' => ?_,
        hscan.hasEmpty_iff.trans (hswept.hasEmpty_iff off hscan.dvd).symm⟩
      obtain ⟨hlt, hocc'⟩ := hscan.occupied i' (List.mem_cons_of_mem i hi')
      refine ⟨hlt, hswept.occupied _ hocc' fun hc => ?_⟩
      obtain rfl := Nat.add_left_cancel hc
      exact hni hi'

end Linked

/-! ### A scrub terminates -/

/-- The probe loop for the entry at `pos` of the bucket at `off` ends: at that bucket, which its
sequence visits at step `j`, or at a tombstone of an earlier step. -/
def EndsUpstream (B : BucketOps) (m : Map T ν) (off pos : ℕ) : Prop :=
  ∃ j < m.numBuckets, m.visit (m.keyAt pos) j = off ∧
    ∃ u q, upstream B m off pos = .ok (u, q) ∧
      ((u = .stay ∧ q.psl = T.kernelSize * j) ∨
        ∃ dst i, u = .move dst ∧ i < j ∧ q.psl = T.kernelSize * i ∧
          m.visit (m.keyAt pos) i = T.off dst ∧ dst < m.capacity ∧ m.stateAt dst = tombstone)

omit [Inhabited ν] in
theorem Linked.endsUpstream {m : Map T ν} (h : Linked m) {pos : ℕ} (hp : m.Occupied pos) :
    EndsUpstream ideal m (T.off pos) pos := by
  obtain ⟨u, q, hr, hc⟩ := upstream_spec h hp
  rcases hc with ⟨rfl, j, hj, rfl, hv, -⟩ | ⟨dst, i, hi, rfl, hm, rfl, hv⟩
  · exact ⟨j, hj, hv, .stay, _, hr, Or.inl ⟨rfl, seqAt_psl T _ j⟩⟩
  · obtain ⟨i', j, hij, hj, hvj, hvi, -⟩ := hm.upstream
    obtain rfl := h.visit_inj hi (hij.trans hj) (hv.trans hvi.symm)
    exact ⟨j, hj, hvj, .move dst, _, hr, Or.inr ⟨dst, i, rfl, hij, seqAt_psl T _ i, hv, hm.lt,
      hm.tomb⟩⟩

/-- `scrub_` terminates on every table whose keys are reached by their sequences, after at most
`capacity²+2` passes.  The probe loop of every entry ends, the slot that the entry is moved to is
a tombstone, and its probe length falls. -/
theorem scrub_terminates (B : Kernel T.kernelSize) (hS : T.seq.isUnbounded = true) {m : Map T ν}
    (h : Sound m) (hc : m.Chained) :
    (∃ s, ∀ d, m.capacity * m.capacity + 2 ≤ d → scrubPasses B.ops d ⟨m, 0, 0⟩ = .ok s) ∧
      (∃ n m', m.scrub_ B.ops = .ok (n, m')) ∧
      ∀ off b i is s, SlotStart B.ops m off b (i :: is) s →
        EndsUpstream B.ops s.map off (off + i) ∧
          ∃ s', scrubSlot B.ops off b (off + i) s = .ok s' := by
  have hl : Linked m := { h with near := fun pos hp => (hc pos hp).near hS }
  obtain ⟨s, hs, -⟩ := scrubPasses_total moveInv_linked hl
  rw [← (scrubPasses_agree B.lawful _ (s := ⟨m, 0, 0⟩) h).1] at hs
  refine ⟨⟨s, fun d hd => scrubPasses_mono hd hs⟩, ?_, fun off b i is s hslot => ?_⟩
  · rw [scrub_]
    split_ifs
    · exact ⟨0, m, rfl⟩
    · rw [hs, ok_bind]
      exact ⟨_, _, rfl⟩
  · obtain ⟨hlink, hscan⟩ := hslot.inv moveInv_linked hl B.lawful
    obtain ⟨hi, hocc⟩ := hscan.occupied i List.mem_cons_self
    have hoff := MapType.off_add hscan.dvd hi
    obtain ⟨s', n, hr, -⟩ := scrubSlot_spec moveInv_linked hlink hoff hocc hscan.hasEmpty_iff
    have hends := hlink.endsUpstream hocc
    rw [hoff] at hends
    rw [EndsUpstream, (upstream_agree B.lawful hlink.toSound off (off + i)).1,
      (scrubSlot_agree B.lawful hlink.toSound off b hocc.1).1]
    exact ⟨hends, s', hr⟩

theorem scrub_terminates_words : ∃ rs m,
    wordExec 1 false [.insert 0, .insert 8, .insert 16, .eraseFirst 0] = .ok (rs, m) ∧
      m.numTombstone = 1 ∧
      (∃ s, ∀ d, m.capacity * m.capacity + 2 ≤ d →
        scrubPasses (wordKernel 1 false).ops d ⟨m, 0, 0⟩ = .ok s) ∧
      ∀ off b i is s, SlotStart (wordKernel 1 false).ops m off b (i :: is) s →
        EndsUpstream (wordKernel 1 false).ops s.map off (off + i) := by
  obtain ⟨rs, m, hr, -, ht⟩ := exists_wordExec 1 false
    [.insert 0, .insert 8, .insert 16, .eraseFirst 0] (fun r => r.2.numTombstone) 1
    (by decide +kernel)
  have hinv := (inv_of_reachable (wordKernel 1 false) (wordConf 1 false) rfl
    (fun _ _ _ => NoScrub.scrubsOk (wordKernel 1 false))
    (reachable_of_wordExec 1 false (by simp [Op.isScrub]) hr)).1
  obtain ⟨hpasses, -, hslots⟩ := scrub_terminates (wordKernel 1 false) rfl hinv.toSound hinv.chain
  exact ⟨rs, m, hr, ht, hpasses, fun off b i is s hs => (hslots off b i is s hs).1⟩

end Map

end Nvhm
