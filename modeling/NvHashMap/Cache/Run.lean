import NvHashMap.Cache.Resize
import NvHashMap.Map.Run

/-! # Runs of a cache

Every call gives the same result with any lawful kernel, and keeps the invariant (`step_agree`).
Whatever a program calls, the invariant holds. -/

namespace Nvhm

open Buffer SlotCount
open Map (Result)

variable {κ ν : Type} {T : CacheType κ} [Inhabited κ]

namespace Cache

/-! ### Searching -/

section Find
variable {B : BucketOps} (hB : B.Lawful T.kernelSize) {m : Cache T ν} (h : Inv m)
include hB h

theorem touch_eq {o i : ℕ} (hs : m.IsSlot o i) : m.touch B o i = m.touch ideal o i := by
  unfold touch
  rw [hB.updateLru _ _ (length_lrus h.shape hs.dvd hs.lt) hs.idx_lt]

theorem matches_eq (key : κ) :
    (B.hits (m.bucket (m.home key)) (keyState T key)).filter
        (fun i => T.key.eq (m.keyAt (m.home key + i)) key) =
      (ideal.hits (m.bucket (m.home key)) (keyState T key)).filter
        (fun i => T.key.eq (m.keyAt (m.home key + i)) key) := by
  have hs := h.shape.isSlot_home key (kernelSize_pos T)
  rw [bucket_eq h.shape hs.dvd hs.lt]
  exact Map.matches_eq hB h.sound hs.dvd hs.lt key

theorem firstMatch_eq (key : κ) :
    m.firstMatch (m.home key) key (B.hits (m.bucket (m.home key)) (keyState T key)) =
      m.firstMatch (m.home key) key (ideal.hits (m.bucket (m.home key)) (keyState T key)) := by
  have hs := h.shape.isSlot_home key (kernelSize_pos T)
  rw [bucket_eq h.shape hs.dvd hs.lt]
  exact Map.firstMatch_eq hB h.sound hs.dvd hs.lt key

theorem locateNext_eq (pos : ℕ) (seq : ProbeSeq) (key : κ) :
    m.locateNext B pos seq key = m.locateNext ideal pos seq key := by
  unfold locateNext
  dsimp only
  split_ifs with hpos
  · obtain ⟨i, hs, -⟩ := exists_isSlot hpos
    have hidx : alignPos pos (T.kernelSize - 1) < T.kernelSize := by
      have hle : alignPos pos (T.kernelSize - 1) ≤ T.kernelSize - 1 := Nat.and_le_right
      have := kernelSize_pos T
      omega
    have heq := Map.firstMatch_above_eq hB h.sound hs.dvd hs.lt key
      (by omega : (-1 : ℤ) ≤ (alignPos pos (T.kernelSize - 1) : ℕ)) (by exact_mod_cast hidx)
    rw [h.shape.alignPos_eq hpos, bucket_eq h.shape hs.dvd hs.lt]
    exact congrArg (fun r => Except.ok (T.toMapType.off pos, r)) heq
  · rfl
  · rfl

theorem findFirst_agree (key : κ) :
    m.findFirst B key = m.findFirst ideal key ∧ Inv (m.findFirst ideal key).2 := by
  unfold findFirst
  dsimp only
  rw [firstMatch_eq hB h key]
  rcases h.firstMatch_cases key with ⟨i, hi, hs, -⟩ | ⟨hn, -⟩
  · rw [hi]
    dsimp only
    rw [touch_eq hB h hs]
    exact ⟨rfl, h.touch hs⟩
  · rw [hn]
    exact ⟨rfl, h⟩

theorem findNext_agree (pos : ℕ) (seq : ProbeSeq) (key : κ) :
    Agree (m.findNext B pos seq key) (m.findNext ideal pos seq key) fun r => Inv r.2 := by
  refine ⟨?_, fun r hr => ?_⟩
  · unfold findNext
    rw [locateNext_eq hB h]
    cases hl : m.locateNext ideal pos seq key with
    | error e => rfl
    | ok r =>
        obtain ⟨o, i⟩ := r
        cases i with
        | some i =>
            dsimp only [ok_bind]
            rw [touch_eq hB h (h.locateNext_stores hl).1]
        | none => rfl
  · rcases h.findNext_cases hr with ⟨o, i, rfl, hs, -⟩ | rfl
    · exact h.touch hs
    · exact h

theorem findIfLoop_agree (pred : ℕ → Bool) : ∀ (offs : List ℕ),
    (∀ o ∈ offs, T.kernelSize ∣ o ∧ o < m.capacity) →
    findIfLoop B m pred offs = findIfLoop ideal m pred offs ∧
      Inv (findIfLoop ideal m pred offs).2
  | [], _ => ⟨rfl, h⟩
  | o :: offs, ho => by
      obtain ⟨hd, hlt⟩ := ho o List.mem_cons_self
      rw [findIfLoop, findIfLoop, h.hashes_eq hB hd hlt]
      cases hf : (ideal.hashes (m.bucket o)).find? fun i => pred (o + i) with
      | some i =>
          have hi := (h.mem_hashes hd hlt).mp (List.mem_of_find?_eq_some hf)
          have hs : m.IsSlot o i := ⟨hd, hlt, hi.1⟩
          dsimp only
          rw [touch_eq hB h hs]
          exact ⟨rfl, h.touch hs⟩
      | none => exact findIfLoop_agree pred offs fun o' ho' => ho o' (List.mem_cons_of_mem _ ho')

theorem findIf_agree (pred : ℕ → Bool) :
    m.findIf B pred = m.findIf ideal pred ∧ Inv (m.findIf ideal pred).2 :=
  findIfLoop_agree hB h pred _ fun _ ho => h.sound.mem_offsets.mp ho

theorem positions_eq : m.positions B = m.positions ideal := by
  refine List.flatMap_congr fun o ho => ?_
  obtain ⟨hd, hlt⟩ := h.sound.mem_offsets.mp ho
  rw [h.hashes_eq hB hd hlt]

omit h in
/-- The counters of several slots are updated. -/
theorem touches_agree {o : ℕ} : ∀ (l : List ℕ) {m : Cache T ν}, Inv m →
    (∀ i ∈ l, m.IsSlot o i) →
    l.foldl (fun m i => m.touch B o i) m = l.foldl (fun m i => m.touch ideal o i) m ∧
      Inv (l.foldl (fun m i => m.touch ideal o i) m)
  | [], _, h, _ => ⟨rfl, h⟩
  | i :: l, m, h, hl => by
      have hs := hl i List.mem_cons_self
      rw [List.foldl_cons, List.foldl_cons, touch_eq hB h hs]
      refine touches_agree l (h.touch hs) fun j hj => ?_
      have hj := hl j (List.mem_cons_of_mem _ hj)
      exact ⟨hj.dvd, hj.lt, hj.idx_lt⟩

theorem forEachKey_agree (key : κ) :
    m.forEachKey B key = m.forEachKey ideal key ∧ Inv (m.forEachKey ideal key).2 := by
  unfold forEachKey
  dsimp only
  rw [matches_eq hB h key]
  have hs := h.shape.isSlot_home key (kernelSize_pos T)
  have hfound : ∀ i, i ∈ (if T.duplicates = true then
        (ideal.hits (m.bucket (m.home key)) (keyState T key)).filter
          fun i => T.key.eq (m.keyAt (m.home key + i)) key
      else ((ideal.hits (m.bucket (m.home key)) (keyState T key)).filter
        fun i => T.key.eq (m.keyAt (m.home key + i)) key).take 1) → m.IsSlot (m.home key) i := by
    intro i hi
    refine ⟨hs.dvd, hs.lt, ((h.mem_matches key).mp ?_).1⟩
    split_ifs at hi
    · exact hi
    · exact List.mem_of_mem_take hi
  obtain ⟨heq, hinv⟩ := touches_agree hB _ h hfound
  exact ⟨by rw [heq], hinv⟩

theorem count_agree (key : κ) :
    m.count B key = m.count ideal key ∧ Inv (m.count ideal key).2 := by
  obtain ⟨heq, hinv⟩ := forEachKey_agree hB h key
  unfold count
  rw [heq]
  exact ⟨rfl, hinv⟩

end Find

/-! ### Erasing and inserting -/

section Change
variable {B : BucketOps} (hB : B.Lawful T.kernelSize) {m : Cache T ν} (h : Inv m)
include hB h

theorem eraseFirst_agree (key : κ) :
    m.eraseFirst B key = m.eraseFirst ideal key ∧ Inv (m.eraseFirst ideal key).2 := by
  refine ⟨?_, ?_⟩
  · unfold eraseFirst
    dsimp only
    rw [firstMatch_eq hB h key]
  · rcases h.eraseFirst_cases key with ⟨p, -, -, hf⟩ | ⟨heq, -⟩
    · exact hf.inv
    · rw [heq]
      exact h

theorem eraseNext_agree (pos : ℕ) (seq : ProbeSeq) (key : κ) :
    Agree (m.eraseNext B pos seq key) (m.eraseNext ideal pos seq key) fun r => Inv r.2 := by
  refine ⟨?_, fun r hr => ?_⟩
  · unfold eraseNext
    rw [locateNext_eq hB h]
  · rcases h.eraseNext_cases hr with ⟨p, -, -, hf⟩ | rfl
    · exact hf.inv
    · exact h

omit hB in
theorem eraseAt_inv {pos : ℕ} {r : (Bool × ℕ) × Cache T ν} (hr : m.eraseAt pos = .ok r) :
    Inv r.2 := by
  rcases h.eraseAt_cases hr with ⟨-, -, hf⟩ | ⟨rfl, -⟩
  · exact hf.inv
  · exact h

omit h in
theorem eraseIfLoop_eq (pred : ℕ → Bool) : ∀ (offs : List ℕ) {m : Cache T ν}, Inv m →
    (∀ o ∈ offs, T.kernelSize ∣ o ∧ o < m.capacity) →
    eraseIfLoop B pred offs m = eraseIfLoop ideal pred offs m
  | [], _, _, _ => rfl
  | o :: offs, m, h, ho => by
      obtain ⟨hd, hlt⟩ := ho o List.mem_cons_self
      rw [eraseIfLoop, eraseIfLoop, h.hashes_eq hB hd hlt]
      have hfreed := h.freed_resetSlots hd
        ((ideal.hashes (m.bucket o)).filter fun i => pred (o + i)) hlt
        ((List.nodup_range.filter _).filter _)
        fun i hi => (h.mem_hashes hd hlt).mp (List.mem_of_mem_filter hi)
      refine eraseIfLoop_eq pred offs hfreed.inv fun o' ho' => ?_
      rw [← m.table_capacity, ← hfreed.frame.capacity] at ho
      exact ho o' (List.mem_cons_of_mem _ ho')

theorem eraseIf_agree (pred : ℕ → Bool) :
    m.eraseIf B pred = m.eraseIf ideal pred ∧ Inv (m.eraseIf ideal pred).2 := by
  obtain ⟨l, hl, -⟩ := h.freed_eraseIf pred
  have heq := eraseIfLoop_eq hB pred (offsets T.kernelSize m.capacity) h
    fun o ho => h.sound.mem_offsets.mp ho
  refine ⟨?_, hl.inv⟩
  unfold eraseIf
  rw [heq]

theorem eraseAll_agree (key : κ) :
    m.eraseAll B key = m.eraseAll ideal key ∧ Inv (m.eraseAll ideal key).2 := by
  obtain ⟨l, hl, -⟩ := h.freed_eraseAll key
  refine ⟨?_, hl.inv⟩
  unfold eraseAll
  dsimp only
  rw [matches_eq hB h key]

theorem insert_agree (key : κ) :
    m.insert B key = m.insert ideal key ∧ Inv (m.insert ideal key).2 := by
  refine ⟨?_, h.insert key⟩
  have hs := h.shape.isSlot_home key (kernelSize_pos T)
  have hfind : m.findInBucket B (m.home key) key = m.findInBucket ideal (m.home key) key := by
    unfold findInBucket
    rw [firstMatch_eq hB h key]
  unfold Cache.insert
  dsimp only
  rw [hfind, h.notHashes_eq hB hs.dvd hs.lt, hB.minLruSlot _ (length_lrus h.shape hs.dvd hs.lt)]
  rcases h.findInBucket_cases key with ⟨i, hi, hsi, -, -⟩ | ⟨hn, -⟩
  · rw [hi]
    dsimp only
    rw [touch_eq hB h hsi]
  · rw [hn]

end Change

/-! ### Rebuilding -/

section Rebuild
variable [Inhabited ν] {B : BucketOps} (hB : B.Lawful T.kernelSize) {m : Cache T ν} (h : Inv m)

omit [Inhabited ν] [Inhabited κ] in
theorem isBucket_toEmpty {K : ℕ} {b : List State} {l : List Lru} (hb : IsBucket K b)
    (hl : l.length = K) (t : Lru) : IsBucket K (ideal.toEmptyIfLruBelow b l t) := by
  have hlen : (ideal.toEmptyIfLruBelow b l t).length = K := by
    change (List.zipWith _ b l).length = K
    rw [List.length_zipWith, hb.1, hl, Nat.min_self]
  refine ⟨hlen, fun s hs => ?_⟩
  obtain ⟨i, hi, rfl⟩ := List.getElem_of_mem hs
  have hget := toEmpty_getD hb.1 hl t (i := i) (hlen ▸ hi)
  rw [List.getD_eq_getElem _ _ hi] at hget
  rw [hget]
  split_ifs
  · rfl
  · exact hb.valid_getD (hlen ▸ hi) tombstone

include hB

omit [Inhabited ν] in
theorem scrubLoop_eq (t : Lru) : ∀ (offs : List ℕ) {m : Cache T ν} {n : ℕ}, Inv (m.credit n) →
    (∀ o ∈ offs, T.kernelSize ∣ o ∧ o < m.capacity) →
    scrubLoop B t offs (m, n) = scrubLoop ideal t offs (m, n)
  | [], _, _, _, _ => rfl
  | o :: offs, m, n, h, ho => by
      obtain ⟨hd, hlt⟩ := ho o List.mem_cons_self
      have hb : IsBucket T.kernelSize (m.bucket o) := h.isBucket hd hlt
      have hl : (m.lrus o).length = T.kernelSize := length_lrus h.shape hd hlt
      rw [Cache.scrubLoop, Cache.scrubLoop]
      rw [hB.toEmptyIfLruBelow _ _ _ hb hl,
        hB.countNotEqual _ _ hb (isBucket_toEmpty hb hl t)]
      exact scrubLoop_eq t offs (h.scrubBucket t hd hlt)
        fun o' ho' => ho o' (List.mem_cons_of_mem _ ho')

include h

omit [Inhabited ν] in
theorem scrub_agree (t : Lru) :
    m.scrub_ B t = m.scrub_ ideal t ∧ Inv (m.scrub_ ideal t).2 := by
  have heq := scrubLoop_eq hB t (offsets T.kernelSize m.capacity) (m := m) (n := 0)
    (by rwa [Nat.cast_zero, credit_zero]) fun o ho => h.sound.mem_offsets.mp ho
  refine ⟨?_, h.scrub_ t⟩
  unfold Cache.scrub_
  rw [heq]

omit hB [Inhabited ν] in
theorem Inv.isCapacity : IsCapacity m.capacity := h.sound.toShape.isCapacity

theorem grow_agree : Agree (m.grow B) (m.grow ideal) fun r => Inv r.2 := by
  unfold grow
  refine (Map.shl1_agree h.isCapacity).bind fun n hn => ?_
  obtain ⟨heq, hinv⟩ := h.rehash_agree hB (Or.inr hn.1)
  rw [heq]
  exact Agree.ok hinv

theorem resize_agree (n : ℤ) : Agree (m.resize B n) (m.resize ideal n) fun r => Inv r.2 := by
  unfold resize
  have hceil : Agree (bitCeil n) (bitCeil n) IsCapacity :=
    Agree.of_error_or fun c hc => isCapacity_bitCeil hc
  refine hceil.bind fun c hc => ?_
  obtain ⟨heq, hinv⟩ := h.rehash_agree hB (Or.inr (hc.max m.conf.min_isCapacity))
  rw [heq]
  exact Agree.ok hinv

theorem reserve_agree (n : ℤ) : Agree (m.reserve B n) (m.reserve ideal n) fun r => Inv r.2 := by
  unfold reserve
  split_ifs
  · exact Agree.ok h
  · exact resize_agree hB h n

theorem shrink_agree : m.shrink B = m.shrink ideal ∧ Inv (m.shrink ideal).2 := by
  have htarget : m.shrinkTarget ≤ m.conf.minCapacity ∨ IsCapacity m.shrinkTarget := by
    obtain ⟨a, ha, hcap⟩ := h.isCapacity
    unfold shrinkTarget
    cases a with
    | zero =>
        rw [hcap]
        exact Or.inl (max_le (by norm_num) le_rfl)
    | succ a =>
        have hhalf : m.capacity / 2 = 2 ^ a := by
          rw [hcap, pow_succ]
          exact Nat.mul_div_cancel _ (by norm_num)
        rw [hhalf]
        exact Or.inr ((isCapacity_pow (by omega)).max m.conf.min_isCapacity)
  unfold shrink
  split_ifs
  · exact ⟨rfl, h⟩
  · exact h.rehash_agree hB htarget

omit hB in
theorem clearTo_inv {n : ℤ} {r : ℕ × Cache T ν} (hr : m.clearTo n = .ok r) : Inv r.2 := by
  unfold clearTo at hr
  obtain ⟨c, hc, hr⟩ := bind_eq_ok.mp hr
  obtain rfl := Except.ok.inj hr
  dsimp only
  split_ifs
  · obtain ⟨-, -, heq⟩ := bitCeil_ok hc
    have hle : (max n m.conf.minCapacity).toNat ≤ c := heq ▸ PowTwo.le_ceilPow _
    exact h.alloc (isCapacity_bitCeil hc) (by omega)
  · exact h.reset

omit hB [Inhabited ν] in
theorem setValueAt_inv {pos : ℕ} {value : ν} {m' : Cache T ν}
    (hm : m.setValueAt pos value = .ok m') : Inv m' := by
  unfold setValueAt at hm
  split_ifs at hm
  obtain rfl := Except.ok.inj hm
  exact { h with sound := h.sound.setValue pos value }

omit hB [Inhabited ν] in
theorem setBlobAt_inv {pos : ℕ} {src : List Byte} {m' : Cache T ν}
    (hm : m.setBlobAt pos src = .ok m') : Inv m' := by
  unfold setBlobAt at hm
  split_ifs at hm with hp hlen
  obtain rfl := Except.ok.inj hm
  exact { h with sound := h.sound.setBlob hp.1 hlen }

end Rebuild

/-! ### Runs -/

section Step
variable [Inhabited ν]

/-- One call gives the same result with any lawful kernel, and keeps the invariant. -/
theorem step_agree {B : BucketOps} (hB : B.Lawful T.kernelSize) {m : Cache T ν} (h : Inv m)
    (op : Op κ ν) : Agree (m.step B op) (m.step ideal op) fun r => Inv r.2 := by
  cases op with
  | insert key =>
      obtain ⟨heq, hinv⟩ := insert_agree hB h key
      rw [step, step, heq]
      exact Agree.ok hinv
  | findFirst key =>
      obtain ⟨heq, hinv⟩ := findFirst_agree hB h key
      rw [step, step, heq]
      exact Agree.ok hinv
  | findNext pos seq key => exact (findNext_agree hB h pos seq key).bind fun r hr => Agree.ok hr
  | findIf pred =>
      obtain ⟨heq, hinv⟩ := findIf_agree hB h pred
      rw [step, step, heq]
      exact Agree.ok hinv
  | forEach =>
      rw [step, step, forEach, forEach, positions_eq hB h]
      exact Agree.ok h
  | forEachKey key =>
      obtain ⟨heq, hinv⟩ := forEachKey_agree hB h key
      rw [step, step, heq]
      exact Agree.ok hinv
  | count key =>
      obtain ⟨heq, hinv⟩ := count_agree hB h key
      rw [step, step, heq]
      exact Agree.ok hinv
  | eraseFirst key =>
      obtain ⟨heq, hinv⟩ := eraseFirst_agree hB h key
      rw [step, step, heq]
      exact Agree.ok hinv
  | eraseNext pos seq key => exact (eraseNext_agree hB h pos seq key).bind fun r hr => Agree.ok hr
  | eraseAt pos =>
      exact (Agree.of_error_or fun _ hr => eraseAt_inv h hr).bind fun r hr => Agree.ok hr
  | eraseIf pred =>
      obtain ⟨heq, hinv⟩ := eraseIf_agree hB h pred
      rw [step, step, heq]
      exact Agree.ok hinv
  | eraseAll key =>
      obtain ⟨heq, hinv⟩ := eraseAll_agree hB h key
      rw [step, step, heq]
      exact Agree.ok hinv
  | grow => exact (grow_agree hB h).bind fun r hr => Agree.ok hr
  | shrink =>
      obtain ⟨heq, hinv⟩ := shrink_agree hB h
      rw [step, step, heq]
      exact Agree.ok hinv
  | resize n => exact (resize_agree hB h n).bind fun r hr => Agree.ok hr
  | reserve n => exact (reserve_agree hB h n).bind fun r hr => Agree.ok hr
  | clear => exact Agree.ok h.reset
  | clearTo n =>
      exact (Agree.of_error_or fun _ hr => clearTo_inv h hr).bind fun r hr => Agree.ok hr
  | scrub t =>
      obtain ⟨heq, hinv⟩ := scrub_agree hB h t
      rw [step, step, heq]
      exact Agree.ok hinv
  | setValueAt pos value =>
      exact (Agree.of_error_or fun _ hm => setValueAt_inv h hm).bind fun _ hm => Agree.ok hm
  | setBlobAt pos src =>
      exact (Agree.of_error_or fun _ hm => setBlobAt_inv h hm).bind fun _ hm => Agree.ok hm

/-- A sequence of calls gives the same results with any lawful kernel. -/
theorem run_agree {B : BucketOps} (hB : B.Lawful T.kernelSize) : ∀ (ops : List (Op κ ν))
    {m : Cache T ν}, Inv m → Agree (run B ops m) (run ideal ops m) fun r => Inv r.2
  | [], _, h => Agree.ok h
  | op :: ops, m, h => by
      rw [run, run]
      refine (step_agree hB h op).bind fun r hr => ?_
      exact (run_agree hB ops hr).bind fun r' hr' => Agree.ok hr'

/-- A sequence of calls on a new cache gives the same results with any lawful kernel. -/
theorem exec_agree {B : BucketOps} (hB : B.Lawful T.kernelSize) (conf : Conf T.conf)
    (ops : List (Op κ ν)) :
    Agree (exec T B conf ops) (exec T ideal conf ops) fun r => Inv r.2 :=
  (Agree.of_error_or fun _ hm => (new_inv hm).1).bind fun _ hm => run_agree hB ops hm

end Step

section Runs
variable [Inhabited ν] (B : Kernel T.kernelSize) (conf : Conf T.conf)

/-- The runs of a cache from its construction. -/
def runs : System (Cache T ν) where
  init m := Cache.new T ν conf = .ok m
  next m m' := ∃ op r, m.step B.ops op = .ok (r, m')

/-- The run lemma. -/
theorem inv_of_reachable {m : Cache T ν} (hm : (runs B conf).Reachable m) : Inv m := by
  refine System.Reachable.invariant (fun m (hm : Cache.new T ν conf = .ok m) => (new_inv hm).1)
    (fun m m' hinv hstep => ?_) hm
  obtain ⟨op, r, hr⟩ := hstep
  obtain ⟨heq, hnext⟩ := step_agree B.lawful hinv op
  exact hnext _ (heq.symm.trans hr)

theorem reachable_of_run : ∀ (ops : List (Op κ ν)) {m m' : Cache T ν} {rs : List Result},
    (runs B conf).Reachable m → run B.ops ops m = .ok (rs, m') → (runs B conf).Reachable m'
  | [], _, _, _, hm, hr => (Prod.mk.inj (Except.ok.inj hr)).2 ▸ hm
  | op :: ops, m, m', rs, hm, hr => by
      obtain ⟨r, hstep, hr⟩ := bind_eq_ok.mp hr
      obtain ⟨r', hrun, hr⟩ := bind_eq_ok.mp hr
      obtain rfl := (Prod.mk.inj (Except.ok.inj hr)).2
      exact reachable_of_run ops (hm.next ⟨op, r.1, hstep⟩) hrun

theorem reachable_of_exec {ops : List (Op κ ν)} {m : Cache T ν} {rs : List Result}
    (hr : exec T B.ops conf ops = .ok (rs, m)) : (runs B conf).Reachable m := by
  obtain ⟨m₀, hm₀, hr⟩ := bind_eq_ok.mp hr
  exact reachable_of_run B conf ops (.init hm₀) hr

end Runs

/-! ### Caches of words -/

section Words
variable (k : Fin 4) (duplicates : Bool)

/-- A cache from words, with `2 ^ k` slots per bucket. -/
def wordCache : CacheType (Fin (2 ^ 64)) where
  key := (Map.wordMap k duplicates).key
  layout := (Map.wordMap k duplicates).layout
  conf := (Map.wordMap k duplicates).conf
  duplicates := duplicates

/-- A sequence of calls on a new cache of words. -/
def wordExec (ops : List (Op (Fin (2 ^ 64)) ℕ)) :
    Except Err (List Result × Cache (wordCache k duplicates) ℕ) :=
  exec (wordCache k duplicates) (Map.wordKernel k duplicates).ops (Map.wordConf k duplicates) ops

theorem exists_wordExec (ops : List (Op (Fin (2 ^ 64)) ℕ)) {β : Type}
    (f : List Result × Cache (wordCache k duplicates) ℕ → β) (b : β)
    (h : (exec _ ideal (Map.wordConf k duplicates) ops).map f = .ok b) :
    ∃ rs m, wordExec k duplicates ops = .ok (rs, m) ∧ Inv m ∧ f (rs, m) = b := by
  obtain ⟨heq, hinv⟩ := exec_agree (T := wordCache k duplicates)
    (Map.wordKernel k duplicates).lawful (Map.wordConf k duplicates) ops
  cases hr : exec (wordCache k duplicates) ideal (Map.wordConf k duplicates) ops with
  | error e =>
      rw [hr] at h
      cases h
  | ok r =>
      rw [hr] at h
      exact ⟨r.1, r.2, heq.trans hr, hinv r hr, Except.ok.inj h⟩

end Words

/-! ### What a program can rely on -/

/-- The state of a cache without duplicates. -/
structure Consistent (m : Cache T ν) : Prop where
  home : ∀ p < m.capacity, m.containsAt p = true →
    alignPos p (notMask (T.kernelSize - 1)) = m.home (m.keyAt p)
  state_eq : ∀ p < m.capacity, m.containsAt p = true → m.stateAt p = keyState T (m.keyAt p)
  unique : ∀ p < m.capacity, ∀ q < m.capacity, m.containsAt p = true → m.containsAt q = true →
    T.key.eq (m.keyAt p) (m.keyAt q) = true → p = q
  noTombstone : ∀ p < m.capacity, m.stateAt p ≠ tombstone
  numEmpty_eq : m.numEmpty = countSlots m.capacity (· == empty) m.stateAt
  length : m.statesAndLrus.length = 2 * m.capacity
  posToPos2_eq : ∀ o i, m.IsSlot o i → posToPos2 T.kernelSize (o + i) = o * 2 + i
  index_lt : ∀ o i, m.IsSlot o i → o * 2 + T.kernelSize + i < 2 * m.capacity
  index_inj : ∀ o i o' i', m.IsSlot o i → m.IsSlot o' i' → o * 2 + i = o' * 2 + i' →
    o = o' ∧ i = i'
  index_ne : ∀ o i o' i', m.IsSlot o i → m.IsSlot o' i' → o * 2 + i ≠ o' * 2 + T.kernelSize + i'

theorem Inv.consistent {m : Cache T ν} (h : Inv m) (hd : T.duplicates = false) :
    m.Consistent where
  home p hp hc := by
    rw [h.shape.alignPos_eq hp]
    exact h.home p (occupied_iff.mpr ⟨hp, hc⟩)
  state_eq p hp hc := by
    rw [← table_stateAt m hp]
    exact h.sound.state_eq p (occupied_iff.mpr ⟨hp, hc⟩)
  unique p hp q hq hcp hcq heq :=
    h.unique hd p q (occupied_iff.mpr ⟨hp, hcp⟩) (occupied_iff.mpr ⟨hq, hcq⟩) heq
  noTombstone p hp := by
    rw [← table_stateAt m hp]
    exact h.noTombstone p hp
  numEmpty_eq := by
    rw [h.numEmpty_eq, countSlots_congr fun q hq => table_stateAt m hq]
  length := by
    rw [h.length, mul_comm]
  posToPos2_eq o i hs := posToPos2_add h.shape hs
  index_lt o i hs := by
    have := h.shape.index_lt hs
    omega
  index_inj o i o' i' hs hs' := Cache.index_inj hs hs'
  index_ne o i o' i' hs hs' := by
    have := Cache.index_ne hs hs'
    omega

section Reached
variable [Inhabited ν] (B : Kernel T.kernelSize) (conf : Conf T.conf)

/-- Whatever was called on a cache without duplicates: every entry lies in the home bucket of its
key under its fingerprint, no two entries have equal keys, and the counter is exact; a key is found
exactly if it is stored; and an insert stores its key, and removes at most one other key, which
happens exactly when it reports a replacement. -/
theorem cache_consistent (hd : T.duplicates = false) {m : Cache T ν}
    (hm : (runs B conf).Reachable m) :
    m.Consistent ∧ (∀ key, (m.findFirst B.ops key).1.1.isSome = true ↔ m.Contains key) ∧
      ∀ key, Evicts m (m.insert B.ops key).2 key (m.insert B.ops key).1.2.1 := by
  have h := inv_of_reachable B conf hm
  refine ⟨h.consistent hd, fun key => ?_, fun key => ?_⟩
  · rw [(findFirst_agree B.lawful h key).1]
    exact h.findFirst_isSome_iff key
  · rw [(insert_agree B.lawful h key).1]
    exact (h.insert_evicts hd key).1

/-- An insert into a full bucket. -/
theorem cache_consistent_words : ∃ rs m,
    wordExec 1 false [.insert 0, .insert 8] = .ok (rs, m) ∧ m.numEmpty = 6 ∧
      (m.insert (Map.wordKernel 1 false).ops 16).1.2.1 = .replace ∧
      m.Consistent ∧ (∀ key, (m.findFirst (Map.wordKernel 1 false).ops key).1.1.isSome = true ↔
        m.Contains key) ∧
      ∀ key, Evicts m (m.insert (Map.wordKernel 1 false).ops key).2 key
        (m.insert (Map.wordKernel 1 false).ops key).1.2.1 := by
  obtain ⟨rs, m, hr, hinv, hf⟩ := exists_wordExec 1 false [.insert 0, .insert 8]
    (fun r => (r.2.numEmpty, (r.2.insert ideal 16).1.2.1)) (6, .replace) (by decide +kernel)
  obtain ⟨hnum, hop⟩ := Prod.mk.inj hf
  have hm := reachable_of_exec (T := wordCache 1 false) (Map.wordKernel 1 false)
    (Map.wordConf 1 false) hr
  refine ⟨rs, m, hr, hnum, ?_, cache_consistent (T := wordCache 1 false) (Map.wordKernel 1 false)
    (Map.wordConf 1 false) rfl hm⟩
  rw [(insert_agree (T := wordCache 1 false) (Map.wordKernel 1 false).lawful hinv 16).1]
  exact hop

end Reached

end Cache

end Nvhm
