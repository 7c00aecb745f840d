import NvHashMap.Map.Erase

/-! # The kernel does not matter

Every function of the map gives the same result with a lawful kernel as with the meaning of the
kernel functions.  One statement carries the induction through the loops: the two computations are
equal, and they leave the state bytes of the map right (`Agree … Good`).  The only kernel function
that may list other slots is `mask`; each slot that it lists is occupied, so its key is compared,
and a key that is equal has the right fingerprint (`matches_eq`). -/

namespace Nvhm

open Buffer SlotCount

variable {κ ν : Type} {T : MapType κ} [Inhabited κ] [Inhabited ν]

namespace Map

/-- A map with right state bytes and the configuration of `m`. -/
structure Good (m m' : Map T ν) : Prop where
  sound : Sound m'
  conf_eq : m'.conf = m.conf

omit [Inhabited ν] in
theorem Sound.good {m : Map T ν} (h : Sound m) : Good m m := ⟨h, rfl⟩

omit [Inhabited ν] in
theorem Good.trans {m m' m'' : Map T ν} (h : Good m m') (h' : Good m' m'') : Good m m'' :=
  ⟨h'.sound, h'.conf_eq.trans h.conf_eq⟩

/-! ### Probe loops -/

/-- Two bodies do the same; `I` holds of the next state, `P` of the result. -/
def FlowAgree {σ α : Type} (r r' : Flow σ α) (I : σ → Prop) (P : α → Prop) : Prop :=
  r = r' ∧ r'.Sat I P

omit [Inhabited κ] [Inhabited ν] in
theorem probe_agree {σ α : Type} {m : Map T ν} (h : Shape m) {full : Err} {key : κ}
    {body body' : ProbeSeq → ℕ → σ → Flow σ α} {exhausted : ProbeSeq → σ → α} {s : σ}
    (I : σ → Prop) (P : α → Prop) (hs : I s)
    (hbody : ∀ q o s, T.kernelSize ∣ o → o < m.capacity → I s →
      FlowAgree (body q o s) (body' q o s) I P)
    (hend : ∀ q s, I s → P (exhausted q s)) :
    Agree (m.probe full key body exhausted s) (m.probe full key body' exhausted s) P := by
  have hloop : ∀ (n : ℕ) (q : ProbeSeq) (s : σ), I s →
      Agree (probeLoop T.seq T.kernelSize m.bucketMask m.capacity full body exhausted n q s)
        (probeLoop T.seq T.kernelSize m.bucketMask m.capacity full body' exhausted n q s) P := by
    intro n
    induction n with
    | zero => exact fun q s _ => Agree.error _ _
    | succ n ih =>
        intro q s hs
        rw [probeLoop, probeLoop]
        split_ifs with hn hpsl
        · obtain ⟨hd, ho⟩ := h.alignPos_mem (q.next T.seq)
          obtain ⟨heq, hsat⟩ := hbody q _ s hd ho hs
          rw [heq]
          cases hb : body' q (alignPos (q.next T.seq) m.bucketMask) s with
          | cont s' =>
              rw [hb] at hsat
              exact ih _ s' hsat
          | done a =>
              rw [hb] at hsat
              exact Agree.ok hsat
        · exact Agree.error _ _
        · exact Agree.ok (hend q s hs)
  exact hloop _ _ _ hs

omit [Inhabited κ] [Inhabited ν] in
theorem probe_congr {σ α : Type} {m : Map T ν} (h : Shape m) {full : Err} {key : κ}
    {body body' : ProbeSeq → ℕ → σ → Flow σ α} {exhausted : ProbeSeq → σ → α} {s : σ}
    (hbody : ∀ q o s, T.kernelSize ∣ o → o < m.capacity → body q o s = body' q o s) :
    m.probe full key body exhausted s = m.probe full key body' exhausted s := by
  refine (probe_agree h (fun _ => True) (fun _ => True) trivial (fun q o s hd ho _ => ?_)
    fun _ _ _ => trivial).1
  refine ⟨hbody q o s hd ho, ?_⟩
  cases body' q o s <;> exact trivial

/-! ### Buckets -/

section Buckets
variable {B : BucketOps} (hB : B.Lawful T.kernelSize) {m : Map T ν} (h : Sound m) {o : ℕ}
  (hd : T.kernelSize ∣ o) (ho : o < m.capacity)

omit [Inhabited ν] in
include h hd ho in
theorem Sound.isBucket : IsBucket T.kernelSize (m.bucket o) := by
  have hle := h.offset_add_le hd ho
  refine ⟨h.bucket_length hle, fun s hs => ?_⟩
  obtain ⟨i, hi, rfl⟩ := List.getElem_of_mem hs
  have hik : i < T.kernelSize := by rwa [h.bucket_length hle] at hi
  rw [← List.getD_eq_getElem _ tombstone hi, Map.bucket, getD_readAt _ _ _ _ _ hik]
  exact h.state_valid (o + i) (by omega)

include hB h hd ho

omit [Inhabited ν] in
/-- The slots that a kernel lists and whose key is `key` are those that match. -/
theorem matches_eq (key : κ) :
    (B.hits (m.bucket o) (keyState T key)).filter (fun i => T.key.eq (m.keyAt (o + i)) key) =
      (ideal.hits (m.bucket o) (keyState T key)).filter
        (fun i => T.key.eq (m.keyAt (o + i)) key) := by
  have hbucket := h.isBucket hd ho
  have hle := h.offset_add_le hd ho
  obtain ⟨c, hc, hci⟩ := hB.hits _ _ hbucket (isHash_keyState T key)
  have hideal : ideal.hits (m.bucket o) (keyState T key) =
      (List.range T.kernelSize).filter fun i => ((m.bucket o)[i]?).any (· == keyState T key) := by
    change (List.range (m.bucket o).length).filter _ = _
    rw [hbucket.1]
  rw [hc, hideal, List.filter_filter, List.filter_filter]
  refine List.filter_congr fun i hi => ?_
  rw [List.mem_range] at hi
  have hmem := h.mem_slots_bucket (p := (· == keyState T key)) (i := i) hle
  obtain ⟨hmatch, hocc⟩ := hci i hi
  rw [bucket_getD m o hi] at hmatch hocc
  have hany : ((m.bucket o)[i]?).any (· == keyState T key) =
      (m.stateAt (o + i) == keyState T key) := by
    have hlt : i < (m.bucket o).length := by rwa [hbucket.1]
    rw [List.getElem?_eq_getElem hlt, Option.any_some, ← List.getD_eq_getElem _ tombstone hlt,
      bucket_getD m o hi]
  rw [hany, Bool.eq_iff_iff, Bool.and_eq_true, Bool.and_eq_true]
  refine and_congr_right fun heq => ?_
  constructor
  · -- a listed slot is occupied, so its fingerprint is that of its key
    intro hci
    have hst := h.state_eq (o + i) ⟨by omega, hocc hci⟩
    rw [hst, keyState_congr heq]
    exact beq_self_eq_true _
  · exact fun hs => hmatch (eq_of_beq hs)

omit [Inhabited ν] in
theorem firstMatch_eq (key : κ) :
    m.firstMatch o key (B.hits (m.bucket o) (keyState T key)) =
      m.firstMatch o key (ideal.hits (m.bucket o) (keyState T key)) := by
  rw [firstMatch, firstMatch, ← List.head?_filter, ← List.head?_filter, matches_eq hB h hd ho]

omit [Inhabited ν] in
theorem firstMatch_above_eq (key : κ) {above : ℤ} (h1 : -1 ≤ above) (h2 : above < T.kernelSize) :
    m.firstMatch o key (B.hitsAbove (m.bucket o) (keyState T key) above) =
      m.firstMatch o key (ideal.hitsAbove (m.bucket o) (keyState T key) above) := by
  rw [firstMatch, firstMatch, hB.hitsAbove _ _ _ (h.isBucket hd ho) (isHash_keyState T key) h1 h2]
  change List.find? _ (List.filter _ _) =
    List.find? _ (List.filter _ (ideal.hits (m.bucket o) (keyState T key)))
  rw [← List.head?_filter, ← List.head?_filter, List.filter_filter, List.filter_filter]
  have hswap : ∀ l : List ℕ, (l.filter fun (i : ℕ) => T.key.eq (m.keyAt (o + i)) key &&
      decide (above < (i : ℤ))) =
        (l.filter fun (i : ℕ) => T.key.eq (m.keyAt (o + i)) key).filter
          fun (i : ℕ) => decide (above < (i : ℤ)) := by
    intro l
    rw [List.filter_filter]
    exact List.filter_congr fun i _ => Bool.and_comm _ _
  rw [hswap, hswap, matches_eq hB h hd ho]

omit [Inhabited ν] in
theorem hasEmpty_eq : B.hasEmpty (m.bucket o) = ideal.hasEmpty (m.bucket o) :=
  hB.hasEmpty _ (h.isBucket hd ho)

omit [Inhabited ν] in
theorem notHashes_eq : B.notHashes (m.bucket o) = ideal.notHashes (m.bucket o) :=
  hB.notHashes _ (h.isBucket hd ho)

omit [Inhabited ν] in
theorem findInBucket_eq (key : κ) :
    m.findInBucket B o key = m.findInBucket ideal o key := by
  rw [findInBucket, findInBucket, firstMatch_eq hB h hd ho]

end Buckets

/-! ### Reading -/

section Read
variable {B : BucketOps} (hB : B.Lawful T.kernelSize) {m : Map T ν} (h : Sound m)
include hB h

omit [Inhabited ν] in
theorem positions_eq : m.positions B = m.positions ideal := by
  refine List.flatMap_congr fun o ho => ?_
  obtain ⟨hd, hlt⟩ := h.mem_offsets.mp ho
  rw [hB.hashes _ (h.isBucket hd hlt)]

omit [Inhabited ν] in
theorem locateFirst_eq (key : κ) : m.locateFirst B key = m.locateFirst ideal key := by
  refine probe_congr h.toShape fun q o _ hd ho => ?_
  dsimp only
  rw [firstMatch_eq hB h hd ho, hasEmpty_eq hB h hd ho]

omit [Inhabited ν] in
theorem findFirst_eq (key : κ) : m.findFirst B key = m.findFirst ideal key := by
  rw [findFirst, findFirst, locateFirst_eq hB h]

omit [Inhabited ν] in
theorem nextLoop_eq (key : κ) : ∀ (n : ℕ) (q : ProbeSeq) (above : ℤ), -1 ≤ above →
    above < T.kernelSize → nextLoop B m key n q above = nextLoop ideal m key n q above := by
  intro n
  induction n with
  | zero => exact fun _ _ _ _ => rfl
  | succ n ih =>
      intro q above h1 h2
      obtain ⟨hd, ho⟩ := h.alignPos_mem (q.next T.seq)
      have hK := T.kernelSize_pos
      rw [nextLoop, nextLoop]
      dsimp only
      rw [firstMatch_above_eq hB h hd ho key h1 h2, hasEmpty_eq hB h hd ho,
        ih _ (-1) (le_refl _) (by omega)]

omit [Inhabited ν] in
theorem locateNext_eq (pos : ℕ) (seq : ProbeSeq) (key : κ) :
    m.locateNext B pos seq key = m.locateNext ideal pos seq key := by
  have hK := T.kernelSize_pos
  have hidx : alignPos pos (T.kernelSize - 1) < T.kernelSize := by
    have : alignPos pos (T.kernelSize - 1) ≤ T.kernelSize - 1 := Nat.and_le_right
    omega
  simp only [locateNext]
  rw [nextLoop_eq hB h key _ _ (-1) (le_refl _) (by omega),
    nextLoop_eq hB h key _ seq _ (by omega) (by exact_mod_cast hidx)]

omit [Inhabited ν] in
theorem findNext_eq (pos : ℕ) (seq : ProbeSeq) (key : κ) :
    m.findNext B pos seq key = m.findNext ideal pos seq key := by
  rw [findNext, findNext, locateNext_eq hB h]

omit [Inhabited ν] in
theorem forEachKey_eq (key : κ) : m.forEachKey B key = m.forEachKey ideal key := by
  refine probe_congr h.toShape fun q o _ hd ho => ?_
  dsimp only
  rw [matches_eq hB h hd ho, hasEmpty_eq hB h hd ho]

omit [Inhabited ν] in
theorem count_eq (key : κ) : m.count B key = m.count ideal key := by
  rw [count, count, forEachKey_eq hB h]

omit hB [Inhabited ν] in
/-- A slot that `find_first_` returns stores the key. -/
theorem locateFirst_stores {key : κ} {r : Option (ℕ × Bool) × ProbeSeq}
    (hr : m.locateFirst ideal key = .ok r) :
    ∀ p b, r.1 = some (p, b) → m.Stores key p ∧ (b = true ↔ m.HasEmpty (T.off p)) := by
  refine (probe_agree h.toShape (fun _ => True) (fun r : Option (ℕ × Bool) × ProbeSeq =>
    ∀ p b, r.1 = some (p, b) → m.Stores key p ∧ (b = true ↔ m.HasEmpty (T.off p))) trivial
    (fun q o s hd ho _ => ⟨rfl, ?_⟩) fun _ _ _ _ _ hc => by cases hc).2 r hr
  have hle := h.offset_add_le hd ho
  have hmatch := h.firstMatch_spec hle key
  dsimp only
  split
  · next i hi =>
      rw [hi] at hmatch
      rintro p b hpb
      obtain ⟨rfl, rfl⟩ := Prod.mk.inj (Option.some.inj hpb)
      rw [MapType.off_add hd hmatch.1]
      exact ⟨hmatch.2, h.hasEmpty_iff hle⟩
  · split_ifs
    · intro p b hc
      cases hc
    · exact trivial

omit hB [Inhabited ν] in
theorem locateNext_stores {pos : ℕ} {seq : ProbeSeq} {key : κ} {r : Option (ℕ × Bool) × ProbeSeq}
    (hr : m.locateNext ideal pos seq key = .ok r) :
    ∀ p b, r.1 = some (p, b) → m.Stores key p ∧ (b = true ↔ m.HasEmpty (T.off p)) := by
  rcases locateNext_spec h pos seq key with ⟨e, he, -⟩ | ⟨r', q', hr', hst⟩
  · rw [hr] at he
    cases he
  · obtain rfl := Except.ok.inj (hr.symm.trans hr')
    exact hst

end Read

/-! ### Rehashing -/

omit [Inhabited κ] [Inhabited ν] in
theorem minCapacity_le_resizeTarget {m : Map T ν} {end_ n : ℕ} (hn : m.resizeTarget end_ = .ok n) :
    m.conf.minCapacity ≤ n := by
  rw [resizeTarget] at hn
  obtain ⟨s, -, hn⟩ := bind_eq_ok.mp hn
  obtain ⟨need, -, hn⟩ := bind_eq_ok.mp hn
  obtain rfl := Except.ok.inj hn
  refine le_trans ?_ (le_max_left _ _)
  split_ifs <;> omega

omit [Inhabited κ] [Inhabited ν] in
/-- The chosen capacity is a power of two, at least the minimum. -/
theorem resizeTarget_isCapacity {m : Map T ν} {end_ n : ℕ}
    (hend : end_ ≤ m.conf.minCapacity ∨ IsCapacity end_) (hn : m.resizeTarget end_ = .ok n) :
    IsCapacity n ∧ m.conf.minCapacity ≤ n := by
  refine ⟨?_, minCapacity_le_resizeTarget hn⟩
  rw [resizeTarget] at hn
  obtain ⟨s, -, hn⟩ := bind_eq_ok.mp hn
  obtain ⟨need, hneed, hn⟩ := bind_eq_ok.mp hn
  obtain rfl := Except.ok.inj hn
  split_ifs with hlt
  · exact m.conf.min_isCapacity.max (isCapacity_bitCeil hneed)
  · have hcap : IsCapacity end_ := by
      rcases hend with hend | hend
      · rw [show end_ = m.conf.minCapacity by omega]
        exact m.conf.min_isCapacity
      · exact hend
    exact hcap.max (isCapacity_bitCeil hneed)

theorem shl1_agree {n : ℕ} (hcap : IsCapacity n) :
    Agree (shl1 n) (shl1 n) fun n' => IsCapacity n' ∧ n ≤ n' :=
  Agree.of_error_or fun _ h => isCapacity_shl1 hcap h

/-- The sound maps with the arrays' lengths and the configuration of `m`. -/
structure Kept (m m' : Map T ν) : Prop where
  sound : Sound m'
  frame : Frame m m'

omit [Inhabited ν] in
theorem Sound.kept {m : Map T ν} (h : Sound m) : Kept m m := ⟨h, Frame.refl m⟩

omit [Inhabited ν] in
theorem Kept.trans {m m' m'' : Map T ν} (h : Kept m m') (h' : Kept m' m'') : Kept m m'' :=
  ⟨h'.sound, h.frame.trans h'.frame⟩

omit [Inhabited ν] in
theorem Kept.good {m m' : Map T ν} (h : Kept m m') : Good m m' := ⟨h.sound, h.frame.conf⟩

section Rehash
variable {B : BucketOps} (hB : B.Lawful T.kernelSize) {old : Map T ν} (hold : Sound old)
include hB hold

theorem reinsert_agree {m : Map T ν} (h : Good old m) {pos : ℕ} (hpos : pos < old.capacity) :
    Agree (reinsert B old m pos) (reinsert ideal old m pos)
      fun r => ∀ m', r = some m' → Good old m' := by
  refine probe_agree h.sound.toShape (fun _ => True) _ trivial (fun q o s hd ho _ => ?_)
    fun _ _ _ _ hc => by cases hc
  refine ⟨?_, ?_⟩
  · rw [notHashes_eq hB h.sound hd ho]
  · have hle := h.sound.offset_add_le hd ho
    cases hhead : (ideal.notHashes (m.bucket o)).head? with
    | none => exact trivial
    | some i =>
        have hmem : i ∈ slots (!isHash ·) (m.bucket o) := List.mem_of_mem_head? hhead
        obtain ⟨hik, -⟩ := (h.sound.mem_slots_bucket hle).mp hmem
        rintro m' hm'
        obtain rfl := Option.some.inj hm'
        exact ⟨Sound.copyEntry h.sound.toShape hold.toShape h.conf_eq.symm hpos (by omega) h.sound,
          h.conf_eq⟩

theorem reinsertAll_agree : ∀ (l : List ℕ) {m : Map T ν}, Good old m →
    (∀ p ∈ l, p < old.capacity) →
    Agree (reinsertAll B old l m) (reinsertAll ideal old l m)
      fun r => ∀ m', r = some m' → Good old m'
  | [], m, h, _ => Agree.ok fun _ hm => Option.some.inj hm ▸ h
  | p :: l, m, h, hl => by
      rw [reinsertAll, reinsertAll]
      refine (reinsert_agree hB hold h (hl p List.mem_cons_self)).bind fun r hr => ?_
      cases r with
      | none => exact Agree.ok fun _ hc => by cases hc
      | some m' =>
          exact reinsertAll_agree l (hr m' rfl) fun q hq => hl q (List.mem_cons_of_mem p hq)

omit hB in
/-- The table that `resize_` starts from. -/
theorem Sound.good_alloc {n : ℕ} (hcap : IsCapacity n) (hmin : old.conf.minCapacity ≤ n) :
    Good old (old.alloc n).reset :=
  ⟨(alloc_shape old hcap ((Conf.kernelSize_le hold.conf_valid).trans hmin)).sound_reset
    hold.conf_valid, rfl⟩

theorem rehash_agree : ∀ (d : ℕ) {n : ℕ}, IsCapacity n → old.conf.minCapacity ≤ n →
    Agree (rehash B old d n) (rehash ideal old d n) fun r => Good old r.2
  | 0, _, _, _ => Agree.error _ _
  | d + 1, n, hcap, hmin => by
      rw [rehash, rehash, positions_eq hB hold]
      refine (reinsertAll_agree hB hold _ (hold.good_alloc hcap hmin)
        fun p hp => (hold.mem_positions.mp hp).1).bind fun r hr => ?_
      cases r with
      | some m' => exact Agree.ok (hr m' rfl)
      | none =>
          dsimp only
          split_ifs
          · exact Agree.error _ _
          · exact (shl1_agree hcap).bind fun n' hn' =>
              rehash_agree d hn'.1 (hmin.trans hn'.2)

theorem resize_agree {end_ : ℕ} (hend : end_ ≤ old.conf.minCapacity ∨ IsCapacity end_) :
    Agree (old.resize_ B end_) (old.resize_ ideal end_) fun r => Good old r.2 := by
  rw [resize_, resize_]
  have htarget : Agree (old.resizeTarget end_) (old.resizeTarget end_) fun n =>
      IsCapacity n ∧ old.conf.minCapacity ≤ n :=
    Agree.of_error_or fun n hn => resizeTarget_isCapacity hend hn
  refine htarget.bind fun n hn => ?_
  split_ifs
  · exact Agree.ok hold.good
  · refine (rehash_agree hB hold 64 hn.1 hn.2).bind fun r hr => ?_
    exact Agree.ok ⟨{ hr.sound with }, hr.conf_eq⟩

end Rehash

/-! ### Scrubbing -/

section Scrub
variable {B : BucketOps} (hB : B.Lawful T.kernelSize)
include hB

omit [Inhabited ν] in
theorem upstream_agree {m : Map T ν} (h : Sound m) (oldOff oldPos : ℕ) :
    Agree (upstream B m oldOff oldPos) (upstream ideal m oldOff oldPos)
      fun r => ∀ p, r.1 = .move p → p < m.capacity := by
  refine probe_agree h.toShape (fun _ => True) _ trivial (fun q o s hd ho _ => ?_)
    fun _ _ _ _ hc => by cases hc
  refine ⟨by rw [notHashes_eq hB h hd ho], ?_⟩
  have hle := h.offset_add_le hd ho
  split_ifs
  · intro p hc
    cases hc
  · cases hhead : (ideal.notHashes (m.bucket o)).head? with
    | none => exact trivial
    | some i =>
        have hmem : i ∈ slots (!isHash ·) (m.bucket o) := List.mem_of_mem_head? hhead
        obtain ⟨hik, -⟩ := (h.mem_slots_bucket hle).mp hmem
        rintro p hp
        obtain rfl := Upstream.move.inj hp
        omega

theorem scrubSlot_agree {s : Scrub T ν} (h : Sound s.map) (oldOff : ℕ) (b : Bool) {oldPos : ℕ}
    (hpos : oldPos < s.map.capacity) : Agree (scrubSlot B oldOff b oldPos s)
      (scrubSlot ideal oldOff b oldPos s) fun s' => Kept s.map s'.map := by
  rw [scrubSlot, scrubSlot]
  refine (upstream_agree hB h oldOff oldPos).bind fun r hr => ?_
  obtain ⟨u, q⟩ := r
  cases u with
  | stay => exact Agree.ok h.kept
  | exhausted => exact Agree.error _ _
  | move p =>
      dsimp only
      split_ifs
      · exact Agree.ok ⟨h.moveEntry b hpos (hr p rfl), moveEntry_frame _ b oldPos p⟩
      · exact Agree.error _ _

theorem scrubSlots_agree (oldOff : ℕ) (b : Bool) : ∀ (l : List ℕ) {s : Scrub T ν}, Sound s.map →
    (∀ i ∈ l, oldOff + i < s.map.capacity) → Agree (scrubSlots B oldOff b l s)
      (scrubSlots ideal oldOff b l s) fun s' => Kept s.map s'.map
  | [], s, h, _ => Agree.ok h.kept
  | i :: l, s, h, hl => by
      rw [scrubSlots, scrubSlots]
      refine (scrubSlot_agree hB h oldOff b (hl i List.mem_cons_self)).bind fun s' hs' => ?_
      refine (scrubSlots_agree oldOff b l hs'.sound fun j hj => ?_).mono fun s'' hs'' =>
        hs'.trans hs''
      rw [hs'.frame.capacity]
      exact hl j (List.mem_cons_of_mem i hj)

theorem scrubPass_agree : ∀ (offs : List ℕ) {s : Scrub T ν}, Sound s.map →
    (∀ o ∈ offs, T.kernelSize ∣ o ∧ o < s.map.capacity) →
    Agree (scrubPass B offs s) (scrubPass ideal offs s) fun s' => Kept s.map s'.map
  | [], s, h, _ => Agree.ok h.kept
  | o :: offs, s, h, ho => by
      obtain ⟨hd, hlt⟩ := ho o List.mem_cons_self
      have hle := h.offset_add_le hd hlt
      rw [scrubPass, scrubPass]
      rw [hasEmpty_eq hB h hd hlt, hB.hashes _ (h.isBucket hd hlt)]
      refine (scrubSlots_agree hB o _ _ h fun i hi => ?_).bind fun s' hs' => ?_
      · have := ((h.mem_slots_bucket hle).mp hi).1
        omega
      · refine (scrubPass_agree offs hs'.sound fun o' ho' => ?_).mono fun s'' hs'' =>
          hs'.trans hs''
        rw [hs'.frame.capacity]
        exact ho o' (List.mem_cons_of_mem o ho')

theorem scrubPasses_agree : ∀ (n : ℕ) {s : Scrub T ν}, Sound s.map →
    Agree (scrubPasses B n s) (scrubPasses ideal n s) fun s' => Kept s.map s'.map
  | 0, _, _ => Agree.error _ _
  | n + 1, s, h => by
      rw [scrubPasses, scrubPasses]
      refine (scrubPass_agree hB (offsets T.kernelSize s.map.capacity) (s := { s with pslBits := 0 })
        h fun o ho => h.mem_offsets.mp ho).bind fun s' hs' => ?_
      split_ifs
      · exact Agree.ok hs'
      · exact (scrubPasses_agree n hs'.sound).mono fun s'' hs'' => hs'.trans hs''

omit [Inhabited ν] in
theorem pruneBuckets_agree : ∀ (offs : List ℕ) {m : Map T ν}, Sound m →
    (∀ o ∈ offs, T.kernelSize ∣ o ∧ o < m.capacity) →
    pruneBuckets B offs m = pruneBuckets ideal offs m ∧ Kept m (pruneBuckets ideal offs m)
  | [], m, h, _ => ⟨rfl, h.kept⟩
  | o :: offs, m, h, ho => by
      obtain ⟨hd, hlt⟩ := ho o List.mem_cons_self
      have hkept : Kept m (m.storeBucket o (ideal.notHashToEmpty (m.bucket o))) :=
        ⟨h.storeEmpty hd (h.offset_add_le hd hlt), storeBucket_frame m o _⟩
      rw [pruneBuckets, pruneBuckets, hB.notHashToEmpty _ (h.isBucket hd hlt)]
      obtain ⟨heq, hkept'⟩ := pruneBuckets_agree offs hkept.sound fun o' ho' => by
        rw [hkept.frame.capacity]
        exact ho o' (List.mem_cons_of_mem o ho')
      exact ⟨heq, hkept.trans hkept'⟩

omit [Inhabited ν] in
theorem pruneDead_agree : ∀ (offs : List ℕ) {m : Map T ν}, Sound m →
    (∀ o ∈ offs, T.kernelSize ∣ o ∧ o < m.capacity) →
    pruneDead B offs m = pruneDead ideal offs m ∧ Kept m (pruneDead ideal offs m)
  | [], m, h, _ => ⟨rfl, h.kept⟩
  | o :: offs, m, h, ho => by
      obtain ⟨hd, hlt⟩ := ho o List.mem_cons_self
      rw [pruneDead, pruneDead, hB.hasNotTombstone _ (h.isBucket hd hlt)]
      split_ifs
      · exact pruneDead_agree offs h fun o' ho' => ho o' (List.mem_cons_of_mem o ho')
      · have hkept : Kept m (m.pruneBucket o) :=
          ⟨h.pruneBucket hd (h.offset_add_le hd hlt), pruneBucket_frame m o⟩
        obtain ⟨heq, hkept'⟩ := pruneDead_agree offs hkept.sound fun o' ho' => by
          rw [hkept.frame.capacity]
          exact ho o' (List.mem_cons_of_mem o ho')
        exact ⟨heq, hkept.trans hkept'⟩

omit [Inhabited ν] in
theorem prune_agree {s : Scrub T ν} (h : Sound s.map) :
    prune B s = prune ideal s ∧ Kept s.map (prune ideal s) := by
  have hoffs : ∀ o ∈ offsets T.kernelSize s.map.capacity, T.kernelSize ∣ o ∧ o < s.map.capacity :=
    fun o ho => h.mem_offsets.mp ho
  rw [prune, prune]
  split_ifs
  · exact ⟨rfl, h.kept⟩
  · obtain ⟨heq, hkept⟩ := pruneBuckets_agree hB _ h hoffs
    rw [pruneAll, pruneAll, heq]
    exact ⟨rfl, { hkept.sound with }, { hkept.frame with }⟩
  · exact pruneDead_agree hB _ h hoffs

theorem scrub_agree {m : Map T ν} (h : Sound m) :
    Agree (m.scrub_ B) (m.scrub_ ideal) fun r => Good m r.2 := by
  rw [scrub_, scrub_]
  split_ifs
  · exact Agree.ok h.good
  · refine (scrubPasses_agree hB _ (s := ⟨m, 0, 0⟩) h).bind fun s hs => ?_
    obtain ⟨heq, hkept⟩ := prune_agree hB hs.sound
    rw [heq]
    exact Agree.ok (hs.trans hkept).good

end Scrub

/-! ### Erasing -/

omit [Inhabited ν] in
theorem Sound.kept_free {m : Map T ν} (h : Sound m) {pos : ℕ} (hp : pos < m.capacity) (b : Bool) :
    Kept m (m.free b pos) :=
  ⟨h.free hp b, free_frame m b pos⟩

omit [Inhabited ν] in
theorem Sound.kept_freeSlots (b : Bool) : ∀ {l : List ℕ} {m : Map T ν}, Sound m →
    (∀ p ∈ l, p < m.capacity) → Kept m (m.freeSlots b l)
  | [], m, h, _ => h.kept
  | p :: l, m, h, hl => by
      have hf := h.kept_free (hl p List.mem_cons_self) b
      refine hf.trans (Sound.kept_freeSlots b hf.sound fun q hq => ?_)
      rw [hf.frame.capacity]
      exact hl q (List.mem_cons_of_mem p hq)

section Erase
variable {B : BucketOps} (hB : B.Lawful T.kernelSize) {m : Map T ν} (h : Sound m)
include hB h

theorem autoShrinkAndScub_agree (n : ℤ) : Agree (autoShrinkAndScub B m n)
    (autoShrinkAndScub ideal m n) fun r => Good m r.2 := by
  rw [autoShrinkAndScub, autoShrinkAndScub]
  split_ifs
  · exact (resize_agree hB h h.toShape.half_capacity).bind fun r hr => Agree.ok hr
  · exact (scrub_agree hB h).bind fun r hr => Agree.ok hr
  · exact Agree.ok h.good

theorem eraseSlot_agree {pos : ℕ} (hp : pos < m.capacity) (b : Bool) :
    Agree (eraseSlot B m b pos) (eraseSlot ideal m b pos) fun r => Good m r.2 := by
  have hf := h.kept_free hp b
  rw [eraseSlot, eraseSlot]
  exact (autoShrinkAndScub_agree hB hf.sound _).bind fun r hr => Agree.ok (hf.good.trans hr)

theorem eraseFirst_agree (key : κ) :
    Agree (m.eraseFirst B key) (m.eraseFirst ideal key) fun r => Good m r.2 := by
  rw [eraseFirst, eraseFirst, locateFirst_eq hB h]
  refine (Agree.of_error_or fun a ha => locateFirst_stores h ha).bind fun r hr => ?_
  obtain ⟨_ | ⟨p, b⟩, q⟩ := r
  · exact Agree.ok h.good
  · exact (eraseSlot_agree hB h (hr p b rfl).1.1.1 b).bind fun r hr => Agree.ok hr

theorem eraseNext_agree (pos : ℕ) (seq : ProbeSeq) (key : κ) :
    Agree (m.eraseNext B pos seq key) (m.eraseNext ideal pos seq key) fun r => Good m r.2 := by
  rw [eraseNext, eraseNext, locateNext_eq hB h]
  split_ifs
  · refine (Agree.of_error_or fun a ha => locateNext_stores h ha).bind fun r hr => ?_
    obtain ⟨_ | ⟨p, b⟩, q⟩ := r
    · exact Agree.ok h.good
    · exact (eraseSlot_agree hB h (hr p b rfl).1.1.1 b).bind fun r hr => Agree.ok hr
  · exact Agree.error _ _
  · exact Agree.ok h.good

theorem eraseAt_agree (pos : ℕ) :
    Agree (m.eraseAt B pos) (m.eraseAt ideal pos) fun r => Good m r.2 := by
  rw [eraseAt, eraseAt]
  split_ifs with hp hc
  · rw [h.off_eq hp]
    dsimp only
    rw [hasEmpty_eq hB h (T.dvd_off pos) (lt_of_le_of_lt (T.off_le pos) hp)]
    exact (eraseSlot_agree hB h hp _).bind fun r hr => Agree.ok hr
  · exact Agree.ok h.good
  · exact Agree.error _ _

omit h in
theorem finishErase_agree {m' : Map T ν} (h' : Kept m m') :
    Agree (finishErase B m m') (finishErase ideal m m') fun r => Good m r.2 := by
  rw [finishErase, finishErase]
  dsimp only
  split_ifs
  · exact Agree.ok h'.good
  · exact (autoShrinkAndScub_agree hB h'.sound _).bind fun r hr => Agree.ok (h'.good.trans hr)

omit h [Inhabited ν] in
theorem freeIf_agree (pred : ℕ → Bool) : ∀ (offs : List ℕ) {m : Map T ν}, Sound m →
    (∀ o ∈ offs, T.kernelSize ∣ o ∧ o < m.capacity) →
    freeIf B pred offs m = freeIf ideal pred offs m ∧ Kept m (freeIf ideal pred offs m)
  | [], m, h, _ => ⟨rfl, h.kept⟩
  | o :: offs, m, h, ho => by
      obtain ⟨hd, hlt⟩ := ho o List.mem_cons_self
      have hle := h.offset_add_le hd hlt
      rw [freeIf, freeIf]
      rw [hB.hashes _ (h.isBucket hd hlt), hasEmpty_eq hB h hd hlt]
      have hkept : Kept m (m.freeSlots (ideal.hasEmpty (m.bucket o))
          (((ideal.hashes (m.bucket o)).map (o + ·)).filter pred)) := by
        refine h.kept_freeSlots _ fun p hp => ?_
        obtain ⟨i, hi, rfl⟩ := List.mem_map.mp (List.mem_of_mem_filter hp)
        have := ((h.mem_slots_bucket hle).mp hi).1
        omega
      obtain ⟨heq, hkept'⟩ := freeIf_agree pred offs hkept.sound fun o' ho' => by
        rw [hkept.frame.capacity]
        exact ho o' (List.mem_cons_of_mem o ho')
      exact ⟨heq, hkept.trans hkept'⟩

theorem eraseIf_agree (pred : ℕ → Bool) :
    Agree (m.eraseIf B pred) (m.eraseIf ideal pred) fun r => Good m r.2 := by
  obtain ⟨heq, hkept⟩ := freeIf_agree hB pred (offsets T.kernelSize m.capacity) h
    fun o ho => h.mem_offsets.mp ho
  rw [eraseIf, eraseIf, heq]
  exact finishErase_agree hB hkept

omit [Inhabited ν] in
theorem eraseAllLoop_agree (key : κ) :
    Agree (eraseAllLoop B m key) (eraseAllLoop ideal m key) (Kept m) := by
  refine probe_agree h.toShape (Kept m) (Kept m) h.kept (fun q o m' hd ho hm' => ?_)
    fun _ _ hm' => hm'
  have ho' : o < m'.capacity := by rwa [hm'.frame.capacity]
  have hle := hm'.sound.offset_add_le hd ho'
  have hkept : Kept m' (m'.freeSlots (ideal.hasEmpty (m'.bucket o))
      (((ideal.hits (m'.bucket o) (keyState T key)).filter
        fun i => T.key.eq (m'.keyAt (o + i)) key).map (o + ·))) := by
    refine hm'.sound.kept_freeSlots _ fun p hp => ?_
    obtain ⟨i, hi, rfl⟩ := List.mem_map.mp hp
    have := ((hm'.sound.mem_slots_bucket hle).mp (List.mem_of_mem_filter hi)).1
    omega
  refine ⟨?_, ?_⟩
  · dsimp only
    rw [matches_eq hB hm'.sound hd ho', hasEmpty_eq hB hm'.sound hd ho']
  · dsimp only
    split_ifs <;> exact hm'.trans hkept

theorem eraseAll_agree (key : κ) :
    Agree (m.eraseAll B key) (m.eraseAll ideal key) fun r => Good m r.2 := by
  rw [eraseAll, eraseAll]
  split_ifs
  · exact (eraseAllLoop_agree hB h key).bind fun m' hm' => finishErase_agree hB hm'
  · exact (eraseFirst_agree hB h key).bind fun r hr => Agree.ok hr

end Erase

/-! ### Inserting -/

section Insert
variable {B : BucketOps} (hB : B.Lawful T.kernelSize) {m : Map T ν} (h : Sound m)
include hB h

omit hB [Inhabited ν] in
theorem Sound.good_occupy {pos : ℕ} (hp : pos < m.capacity) (key : κ) (e : ℤ) :
    Good m (m.occupy pos key e) :=
  ⟨h.occupy hp key e, rfl⟩

omit [Inhabited ν] in
theorem insertReusing_agree (key : κ) : Agree (insertReusing B m key) (insertReusing ideal m key)
    fun r => ∀ r', r = some r' → Good m r'.2 := by
  refine probe_agree h.toShape (fun insPos => ∀ p, insPos = some p → p < m.capacity) _
    (fun _ hc => by cases hc) (fun q o insPos hd ho hpos => ?_) fun _ _ _ _ hc => by cases hc
  refine ⟨?_, ?_⟩
  · dsimp only
    rw [findInBucket_eq hB h hd ho, hB.tombstones _ (h.isBucket hd ho), notHashes_eq hB h hd ho,
      hB.empties _ (h.isBucket hd ho)]
  dsimp only
  split
  · exact fun _ hr => Option.some.inj hr ▸ h.good
  cases insPos with
  | none =>
      dsimp only
      split
      · next i hi =>
          rintro p hp
          obtain rfl := Option.some.inj hp
          exact (h.head_spec (h.offset_add_le hd ho) hi).2.1
      · split
        · exact fun _ hc => by cases hc
        · next i hi =>
            exact fun _ hr => Option.some.inj hr ▸
              h.good_occupy (h.head_spec (h.offset_add_le hd ho) hi).2.1 key 1
  | some p =>
      dsimp only
      split
      · exact hpos
      · exact fun _ hr => Option.some.inj hr ▸ h.good_occupy (hpos p rfl) key 0

omit [Inhabited ν] in
theorem insertFresh_agree (key : κ) : Agree (insertFresh B m key) (insertFresh ideal m key)
    fun r => ∀ r', r = some r' → Good m r'.2 := by
  refine probe_agree h.toShape (fun _ => True) _ trivial (fun q o s hd ho _ => ?_)
    fun _ _ _ _ hc => by cases hc
  refine ⟨?_, ?_⟩
  · dsimp only
    rw [findInBucket_eq hB h hd ho, notHashes_eq hB h hd ho]
  dsimp only
  split
  · exact fun _ hr => Option.some.inj hr ▸ h.good
  · split
    · exact trivial
    · next i hi =>
        exact fun _ hr => Option.some.inj hr ▸
          h.good_occupy (h.head_spec (h.offset_add_le hd ho) hi).2.1 key 1

omit h in
theorem insertLoop_agree (key : κ) : ∀ (n : ℕ) {m : Map T ν}, Sound m →
    Agree (insertLoop B key n m) (insertLoop ideal key n m) fun r => Good m r.2
  | 0, _, _ => Agree.error _ _
  | n + 1, m, h => by
      rw [insertLoop, insertLoop]
      -- no slot was found: the table grows and the loop starts again
      have hgrow : Agree
          (if T.seq.isUnbounded then .error .insertError
            else do
              let r ← resize_ B m (← shl1 m.capacity)
              insertLoop B key n r.2)
          (if T.seq.isUnbounded then .error .insertError
            else do
              let r ← resize_ ideal m (← shl1 m.capacity)
              insertLoop ideal key n r.2)
          fun r => Good m r.2 := by
        split_ifs
        · exact Agree.error _ _
        · refine (shl1_agree h.toShape.isCapacity).bind fun c hc => ?_
          refine (resize_agree hB h (Or.inr hc.1)).bind fun r hr => ?_
          exact (insertLoop_agree key n hr.sound).mono fun _ => hr.trans
      by_cases ht : m.numTombstone ≠ 0
      · rw [if_pos ht, if_pos ht]
        refine (insertReusing_agree hB h key).bind fun r hr => ?_
        cases r with
        | some r => exact Agree.ok (hr r rfl)
        | none => exact hgrow
      · rw [if_neg ht, if_neg ht]
        refine (insertFresh_agree hB h key).bind fun r hr => ?_
        cases r with
        | some r => exact Agree.ok (hr r rfl)
        | none => exact hgrow

theorem insert_agree (key : κ) :
    Agree (m.insert B key) (m.insert ideal key) fun r => Good m r.2 := by
  rw [insert, insert]
  split_ifs
  · refine (shl1_agree h.toShape.isCapacity).bind fun c hc => ?_
    refine (resize_agree hB h (Or.inr hc.1)).bind fun r hr => ?_
    dsimp only
    split_ifs
    · exact Agree.error _ _
    · exact (insertLoop_agree hB key 64 hr.sound).mono fun _ => hr.trans
  · exact insertLoop_agree hB key 64 h

end Insert

/-! ### Clearing -/

omit [Inhabited ν] in
theorem Sound.good_reset {m : Map T ν} (h : Sound m) : Good m m.reset :=
  ⟨h.toShape.sound_reset h.conf_valid, rfl⟩

theorem Sound.good_clear {m : Map T ν} (h : Sound m) : Good m m.clear.2 := by
  rcases clear_cases m with hc | hc <;> rw [hc]
  · exact h.good_reset
  · exact h.good_alloc m.conf.init_isCapacity m.conf.min_le_init

theorem clearTo_good {m : Map T ν} (h : Sound m) {n : ℤ} {r : ℕ × Map T ν}
    (hr : m.clearTo n = .ok r) : Good m r.2 := by
  rcases clearTo_cases hr with hc | ⟨c, hcap, hmin, hc⟩ <;> rw [hc]
  · exact h.good_reset
  · exact h.good_alloc hcap hmin

/-! ### Capacity -/

section Capacity
variable {B : BucketOps} (hB : B.Lawful T.kernelSize) {m : Map T ν} (h : Sound m)
include hB h

theorem grow_agree : Agree (m.grow B) (m.grow ideal) fun r => Good m r.2 :=
  (shl1_agree h.toShape.isCapacity).bind fun _ hn => resize_agree hB h (Or.inr hn.1)

theorem resizeTo_agree (n : ℤ) : Agree (m.resize B n) (m.resize ideal n) fun r => Good m r.2 := by
  have hceil : Agree (bitCeil n) (bitCeil n) IsCapacity :=
    Agree.of_error_or fun _ => isCapacity_bitCeil
  exact hceil.bind fun c hc => resize_agree hB h (Or.inr (hc.max m.conf.min_isCapacity))

theorem reserve_agree (n : ℤ) : Agree (m.reserve B n) (m.reserve ideal n) fun r => Good m r.2 := by
  rw [reserve, reserve]
  split_ifs
  · exact Agree.ok h.good
  · exact resizeTo_agree hB h n

omit hB [Inhabited κ] [Inhabited ν] h in
/-- The loop of `shrink_target_` halves the capacity, and stays above the bound. -/
theorem shrinkTargetLoop_isCapacity (minEnd : ℕ) (hmin : IsCapacity minEnd) : ∀ (n : ℕ) {end_ : ℕ},
    IsCapacity end_ → IsCapacity (shrinkTargetLoop m minEnd n end_)
  | 0, _, he => he
  | n + 1, end_, he => by
      rw [shrinkTargetLoop]
      split_ifs with h1 h2
      · refine shrinkTargetLoop_isCapacity minEnd hmin n ?_
        obtain ⟨a, ha, rfl⟩ := he
        obtain ⟨b, -, rfl⟩ := hmin
        cases a with
        | zero => exact absurd h1 (Nat.not_lt.mpr (Nat.one_le_two_pow))
        | succ a =>
            rw [pow_succ, Nat.mul_div_cancel _ (by decide)]
            exact isCapacity_pow (by omega)
      · exact he
      · exact he

omit hB [Inhabited ν] in
theorem shrinkTarget_isCapacity {n : ℕ} (hn : m.shrinkTarget = .ok n) : IsCapacity n := by
  obtain ⟨c, hc, hn⟩ := bind_eq_ok.mp hn
  obtain rfl := Except.ok.inj hn
  exact shrinkTargetLoop_isCapacity _ ((isCapacity_bitCeil hc).max m.conf.min_isCapacity) 64
    h.toShape.isCapacity

theorem shrink_agree : Agree (m.shrink B) (m.shrink ideal) fun r => Good m r.2 := by
  have htarget : Agree m.shrinkTarget m.shrinkTarget IsCapacity :=
    Agree.of_error_or fun _ => shrinkTarget_isCapacity h
  rw [shrink, shrink]
  refine htarget.bind fun n hn => ?_
  split_ifs
  · exact Agree.ok h.good
  · exact resize_agree hB h (Or.inr hn)

end Capacity

/-! ### Values and blobs -/

omit [Inhabited ν] in
theorem setValueAt_good {m m' : Map T ν} (h : Sound m) {pos : ℕ} {value : ν}
    (hm : m.setValueAt pos value = .ok m') : Good m m' := by
  unfold setValueAt at hm
  split_ifs at hm
  obtain rfl := Except.ok.inj hm
  exact ⟨h.setValue pos value, rfl⟩

omit [Inhabited ν] in
theorem setBlobAt_good {m m' : Map T ν} (h : Sound m) {pos : ℕ} {src : List Byte}
    (hm : m.setBlobAt pos src = .ok m') : Good m m' := by
  unfold setBlobAt at hm
  split_ifs at hm with hp hlen
  obtain rfl := Except.ok.inj hm
  exact ⟨h.setBlob hp.1 hlen, rfl⟩

/-! ### Runs -/

/-- One call gives the same result with any lawful kernel. -/
theorem step_agree {B : BucketOps} (hB : B.Lawful T.kernelSize) {m : Map T ν} (h : Sound m)
    (op : Op κ ν) : Agree (m.step B op) (m.step ideal op) fun r => Good m r.2 := by
  cases op with
  | insert key => exact (insert_agree hB h key).bind fun r hr => Agree.ok hr
  | findFirst key =>
      rw [step, step, findFirst_eq hB h]
      exact Agree.of_error_or fun r hr => by
        obtain ⟨a, -, ha⟩ := bind_eq_ok.mp hr
        exact Except.ok.inj ha ▸ h.good
  | findNext pos seq key =>
      rw [step, step, findNext_eq hB h]
      exact Agree.of_error_or fun r hr => by
        obtain ⟨a, -, ha⟩ := bind_eq_ok.mp hr
        exact Except.ok.inj ha ▸ h.good
  | findIf pred =>
      rw [step, step, findIf, findIf, positions_eq hB h]
      exact Agree.ok h.good
  | forEach =>
      rw [step, step, forEach, forEach, positions_eq hB h]
      exact Agree.ok h.good
  | forEachKey key =>
      rw [step, step, forEachKey_eq hB h]
      exact Agree.of_error_or fun r hr => by
        obtain ⟨a, -, ha⟩ := bind_eq_ok.mp hr
        exact Except.ok.inj ha ▸ h.good
  | count key =>
      rw [step, step, count_eq hB h]
      exact Agree.of_error_or fun r hr => by
        obtain ⟨a, -, ha⟩ := bind_eq_ok.mp hr
        exact Except.ok.inj ha ▸ h.good
  | eraseFirst key => exact (eraseFirst_agree hB h key).bind fun r hr => Agree.ok hr
  | eraseNext pos seq key => exact (eraseNext_agree hB h pos seq key).bind fun r hr => Agree.ok hr
  | eraseAt pos => exact (eraseAt_agree hB h pos).bind fun r hr => Agree.ok hr
  | eraseIf pred => exact (eraseIf_agree hB h pred).bind fun r hr => Agree.ok hr
  | eraseAll key => exact (eraseAll_agree hB h key).bind fun r hr => Agree.ok hr
  | grow => exact (grow_agree hB h).bind fun r hr => Agree.ok hr
  | shrink => exact (shrink_agree hB h).bind fun r hr => Agree.ok hr
  | resize n => exact (resizeTo_agree hB h n).bind fun r hr => Agree.ok hr
  | reserve n => exact (reserve_agree hB h n).bind fun r hr => Agree.ok hr
  | clear => exact Agree.ok h.good_clear
  | clearTo n =>
      exact (Agree.of_error_or fun r hr => clearTo_good h hr).bind fun r hr => Agree.ok hr
  | scrub => exact (scrub_agree hB h).bind fun r hr => Agree.ok hr
  | setValueAt pos value =>
      exact (Agree.of_error_or fun _ hm => setValueAt_good h hm).bind fun m' hm' => Agree.ok hm'
  | setBlobAt pos src =>
      exact (Agree.of_error_or fun _ hm => setBlobAt_good h hm).bind fun m' hm' => Agree.ok hm'

/-- A sequence of calls gives the same results with any lawful kernel. -/
theorem run_agree {B : BucketOps} (hB : B.Lawful T.kernelSize) : ∀ (ops : List (Op κ ν))
    {m : Map T ν}, Sound m → Agree (run B ops m) (run ideal ops m) fun r => Good m r.2
  | [], m, h => Agree.ok h.good
  | op :: ops, m, h => by
      rw [run, run]
      refine (step_agree hB h op).bind fun r hr => ?_
      exact (run_agree hB ops hr.sound).bind fun r' hr' => Agree.ok (hr.trans hr')

end Map

end Nvhm
