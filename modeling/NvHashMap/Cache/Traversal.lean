import NvHashMap.Iteration

/-! # Traversing and comparing caches

`begin` and `operator==` change counters of a cache, although they are `const`: both search with
`find_if_`, which touches the slot that it returns, and the comparison looks up each key in the other
cache, which touches the slot of the key.

* `begin` touches the first entry.
* A comparison that is not decided by the sizes touches the first entry of the left cache, or the
  entry with the same key in the right one.  A touch is not undone by later ones: a comparison
  touches each slot once, and the first halving of a bucket leaves its mark (`Marks`). -/

namespace Nvhm

open Buffer SlotCount

variable {κ ν : Type} {T : CacheType κ} [Inhabited κ]

namespace Cache

/-! ### Definitions -/

section Search
variable {σ : Type}

/-- The slots of one bucket, up to the first one for which the predicate holds.  The predicate
changes a state of its own. -/
def findSlot (pred : ℕ → σ → Bool × σ) : List ℕ → σ → Option ℕ × σ
  | [], s => (none, s)
  | i :: is, s =>
      match pred i s with
      | (true, s) => (some i, s)
      | (false, s) => findSlot pred is s

omit [Inhabited κ] in
/-- The loop of `find_if_`, for such a predicate. -/
def findIfWith (B : BucketOps) (m : Cache T ν) (pred : ℕ → σ → Bool × σ) :
    List ℕ → σ → (Option ℕ × Cache T ν) × σ
  | [], s => ((none, m), s)
  | off :: offs, s =>
      match findSlot (fun i => pred (off + i)) (B.hashes (m.bucket off)) s with
      | (some i, s) => ((some (off + i), m.touch B off i), s)
      | (none, s) => findIfWith B m pred offs s

end Search

/-- `for (it = begin; it != end; ++it)`: the positions that it meets, and the cache behind it. -/
def traverse (B : BucketOps) (m : Cache T ν) (fuel : ℕ) : Option (List ℤ) × Cache T ν :=
  let (it, m) := m.begin_ B
  (m.outer.walk fuel it, m)

section Equal
variable [Inhabited ν] (valueEq : ν → ν → Bool)

/-- Whether an entry of `lhs` differs from what `find_first_` returns in `rhs`. -/
def differs (B : BucketOps) (lhs : Cache T ν) (pos : ℕ) (rhs : Cache T ν) : Bool × Cache T ν :=
  match rhs.findFirst B (lhs.keyAt pos) with
  | ((none, _), rhs) => (true, rhs)
  | ((some r, _), rhs) =>
      (!T.key.eq (lhs.keyAt pos) (rhs.keyAt r) || !valueEq (lhs.valueAt pos) (rhs.valueAt r) ||
        lhs.blobAt pos != rhs.blobAt r, rhs)

/-- `operator==`, with both caches behind it; `same` tells whether they are one object. -/
def equal (B : BucketOps) (same : Bool) (lhs rhs : Cache T ν) : Bool × Cache T ν × Cache T ν :=
  if same then (true, lhs, rhs)
  else if lhs.size ≠ rhs.size then (false, lhs, rhs)
  else if lhs.conf.blobSize ≠ rhs.conf.blobSize then (false, lhs, rhs)
  else
    let ((pos, lhs), rhs) :=
      findIfWith B lhs (differs valueEq B lhs) (offsets T.kernelSize lhs.capacity) rhs
    (pos.isNone, lhs, rhs)

end Equal

/-! ### Counters -/

omit [Inhabited κ] in
/-- A touch changes the counter of its slot. -/
theorem Touched.lruAt_ne {m m' : Cache T ν} {o i : ℕ} (h : Touched m m' o i) :
    m'.lruAt (o + i) ≠ m.lruAt (o + i) := by
  intro heq
  have hi := h.isSlot.idx_lt
  have hle : (m.lruAt (o + i)).toNat ≤ maxLru.toNat := by
    have := (m.lruAt (o + i)).isLt
    change _ ≤ 255
    omega
  have heq' : (m'.lruAt (o + i)).toNat = (m.lruAt (o + i)).toNat := congrArg _ heq
  rcases Nat.lt_or_eq_of_le hle with hlt | hmax
  · have := (h.bumped.alone hlt).1
    omega
  · have hhalf := h.bumped.halved hmax i hi
    rw [if_pos rfl, heq', hmax] at hhalf
    exact absurd hhalf (by decide)

/-- The counters of a bucket behind touches of the slots in `S`, one each: all are one higher, or
one of them was full, and shows the first halving. -/
def Marks (S : Set ℕ) (l l' : ℕ → ℕ) (K : ℕ) : Prop :=
  (∀ j < K, (j ∈ S → l' j = l j + 1) ∧ (j ∉ S → l' j = l j)) ∨
    ∃ i < K, i ∈ S ∧ l i = maxLru.toNat ∧ l' i = 128 ∧ ∀ j < K, j ∉ S → l' j < 128

theorem marks_empty (l : ℕ → ℕ) (K : ℕ) : Marks ∅ l l K :=
  Or.inl fun _ _ => ⟨fun hj => absurd hj (Set.notMem_empty _), fun _ => rfl⟩

theorem Marks.bump {S : Set ℕ} {l l' l'' : ℕ → ℕ} {K i : ℕ} (h : Marks S l l' K)
    (hb : Bumped l' l'' K i) (hi : i < K) (hS : i ∉ S) (hle : ∀ j < K, l' j ≤ maxLru.toNat) :
    Marks (Insert.insert i S) l l'' K := by
  have hmax : maxLru.toNat = 255 := rfl
  rcases h with h | ⟨a, ha, haS, hla, hla', hbelow⟩
  · rcases Nat.lt_or_eq_of_le (hle i hi) with hlt | heq
    · obtain ⟨hbi, hbj⟩ := hb.alone hlt
      refine Or.inl fun j hj => ?_
      by_cases hji : j = i
      · subst hji
        refine ⟨fun _ => ?_, fun hn => absurd (Set.mem_insert _ _) hn⟩
        rw [hbi, (h j hj).2 hS]
      · rw [Set.mem_insert_iff, or_iff_right hji, hbj j hj hji]
        exact h j hj
    · refine Or.inr ⟨i, hi, Set.mem_insert _ _, (h i hi).2 hS ▸ heq, ?_, fun j hj hn => ?_⟩
      · rw [hb.halved heq i hi, heq, if_pos rfl]
        rfl
      · have hji : j ≠ i := fun hc => hn (hc ▸ Set.mem_insert _ _)
        have := hle j hj
        rw [hb.halved heq j hj, if_neg hji]
        omega
  · have hlt := hbelow i hi hS
    obtain ⟨hbi, hbj⟩ := hb.alone (by omega)
    have hai : a ≠ i := fun hc => hS (hc ▸ haS)
    refine Or.inr ⟨a, ha, Set.mem_insert_of_mem _ haS, hla, ?_, fun j hj hn => ?_⟩
    · rw [hbj a ha hai, hla']
    · rw [Set.mem_insert_iff, not_or] at hn
      rw [hbj j hj hn.1]
      exact hbelow j hj hn.2

theorem Marks.congr {S S' : Set ℕ} {l l' k' : ℕ → ℕ} {K : ℕ} (h : Marks S l l' K)
    (hS : ∀ j < K, j ∈ S' ↔ j ∈ S) (hl : ∀ j < K, k' j = l' j) : Marks S' l k' K := by
  rcases h with h | ⟨i, hi, hiS, hmax, hi', hbelow⟩
  · refine Or.inl fun j hj => ?_
    rw [hS j hj, hl j hj]
    exact h j hj
  · refine Or.inr ⟨i, hi, (hS i hi).mpr hiS, hmax, by rw [hl i hi, hi'], fun j hj hn => ?_⟩
    rw [hl j hj]
    exact hbelow j hj (mt (hS j hj).mpr hn)

theorem Marks.exists_ne {S : Set ℕ} {l l' : ℕ → ℕ} {K j : ℕ} (h : Marks S l l' K) (hj : j < K)
    (hS : j ∈ S) : ∃ i < K, l' i ≠ l i := by
  rcases h with h | ⟨i, hi, -, hl, hl', -⟩
  · refine ⟨j, hj, ?_⟩
    rw [(h j hj).1 hS]
    omega
  · refine ⟨i, hi, ?_⟩
    rw [hl, hl']
    decide

/-- The slots in `S` were touched, one time each. -/
structure TouchedOnce (S : Set ℕ) (m m' : Cache T ν) : Prop where
  inv : Inv m'
  table : m'.table = m.table
  marks : ∀ o, T.kernelSize ∣ o → o < m.capacity → Marks {j | o + j ∈ S}
    (fun j => (m.lruAt (o + j)).toNat) (fun j => (m'.lruAt (o + j)).toNat) T.kernelSize

theorem Inv.touchedOnce {m : Cache T ν} (h : Inv m) : TouchedOnce ∅ m m :=
  ⟨h, rfl, fun _ _ _ => marks_empty _ _⟩

omit [Inhabited κ] in
theorem capacity_of_table {m m' : Cache T ν} (h : m'.table = m.table) : m'.capacity = m.capacity :=
  congrArg Map.capacity h

theorem TouchedOnce.touch {S : Set ℕ} {m m' : Cache T ν} (h : TouchedOnce S m m') {o i : ℕ}
    (hs : m'.IsSlot o i) (hS : o + i ∉ S) :
    TouchedOnce (Insert.insert (o + i) S) m (m'.touch ideal o i) := by
  have ht := h.inv.shape.touched hs
  have hcap := capacity_of_table h.table
  refine ⟨h.inv.touch hs, (h.inv.shape.touch hs).2.trans h.table, fun o' hd hlt => ?_⟩
  rw [← hcap] at hlt
  have hmarks := h.marks o' hd (hcap ▸ hlt)
  by_cases ho : o' = o
  · subst ho
    have hset : {j | o' + j ∈ Insert.insert (o' + i) S} = Insert.insert i {j | o' + j ∈ S} := by
      ext j
      simp
    rw [hset]
    refine hmarks.bump ht.bumped hs.idx_lt hS fun j _ => ?_
    have := (m'.lruAt (o' + j)).isLt
    change _ ≤ 255
    omega
  · have hoff : ∀ j < T.kernelSize, T.toMapType.off (o' + j) = o' := fun j hj =>
      MapType.off_add (T := T.toMapType) hd hj
    refine hmarks.congr (fun j hj => or_iff_right fun hc => ho ?_) fun j hj => ?_
    · rw [← hoff j hj, hc]
      exact MapType.off_add (T := T.toMapType) hs.dvd hs.idx_lt
    · rw [ht.lruAt (o' + j) (h.inv.shape.add_lt ⟨hd, hlt, hj⟩) (by rw [hoff j hj]; exact ho)]

theorem TouchedOnce.exists_ne {S : Set ℕ} {m m' : Cache T ν} (h : TouchedOnce S m m') {p : ℕ}
    (hp : p < m.capacity) (hS : p ∈ S) : ∃ q < m.capacity, m'.lruAt q ≠ m.lruAt q := by
  obtain ⟨i, hs, heq⟩ := exists_isSlot hp
  rw [heq] at hS
  obtain ⟨j, hj, hne⟩ := (h.marks _ hs.dvd hs.lt).exists_ne hs.idx_lt hS
  have hcap := capacity_of_table h.table
  refine ⟨T.toMapType.off p + j, ?_, fun hc => hne (congrArg BitVec.toNat hc)⟩
  have := h.inv.shape.add_lt (o := T.toMapType.off p) (i := j) ⟨hs.dvd, hcap ▸ hs.lt, hj⟩
  rwa [hcap] at this

/-! ### Searches with a stateful predicate -/

section Search
variable {σ : Type}

theorem findSlot_map {pred : ℕ → σ → Bool × σ} (f : ℕ → ℕ) (l : List ℕ) (s : σ) :
    findSlot pred (l.map f) s = ((findSlot (fun i => pred (f i)) l s).1.map f,
      (findSlot (fun i => pred (f i)) l s).2) := by
  induction l generalizing s with
  | nil => rfl
  | cons i l ih =>
      rw [List.map_cons, findSlot, findSlot]
      rcases pred (f i) s with ⟨_ | _, s'⟩
      · exact ih s'
      · rfl

theorem findSlot_append {pred : ℕ → σ → Bool × σ} (l l' : List ℕ) (s : σ) :
    findSlot pred (l ++ l') s = match findSlot pred l s with
      | (some i, s) => (some i, s)
      | (none, s) => findSlot pred l' s := by
  induction l generalizing s with
  | nil => rfl
  | cons i l ih =>
      rw [List.cons_append, findSlot, findSlot]
      rcases pred i s with ⟨_ | _, s'⟩
      · exact ih s'
      · rfl

theorem mem_of_findSlot {pred : ℕ → σ → Bool × σ} {l : List ℕ} {s s' : σ} {i : ℕ}
    (h : findSlot pred l s = (some i, s')) : i ∈ l := by
  induction l generalizing s with
  | nil => cases h
  | cons j l ih =>
      rw [findSlot] at h
      rcases hp : pred j s with ⟨_ | _, s''⟩
      · rw [hp] at h
        exact List.mem_cons_of_mem _ (ih h)
      · rw [hp] at h
        obtain rfl := Option.some.inj (Prod.mk.inj h).1
        exact List.mem_cons_self

/-- Two predicates that agree while their state keeps an invariant. -/
theorem findSlot_congr {pred pred' : ℕ → σ → Bool × σ} {I : σ → Prop}
    (hp : ∀ i s, I s → pred i s = pred' i s ∧ I (pred' i s).2) (l : List ℕ) {s : σ} (hs : I s) :
    findSlot pred l s = findSlot pred' l s ∧ I (findSlot pred' l s).2 := by
  induction l generalizing s with
  | nil => exact ⟨rfl, hs⟩
  | cons i l ih =>
      obtain ⟨heq, hI⟩ := hp i s hs
      rw [findSlot, findSlot, heq]
      generalize pred' i s = r at hI
      rcases r with ⟨_ | _, s'⟩
      · exact ih hI
      · exact ⟨rfl, hI⟩

variable {m : Cache T ν} (h : Inv m)
include h

theorem findIfWith_congr {B : BucketOps} (hB : B.Lawful T.kernelSize)
    {pred pred' : ℕ → σ → Bool × σ} {I : σ → Prop}
    (hp : ∀ i s, I s → pred i s = pred' i s ∧ I (pred' i s).2) : ∀ (offs : List ℕ) {s : σ},
    (∀ o ∈ offs, T.kernelSize ∣ o ∧ o < m.capacity) → I s →
    findIfWith B m pred offs s = findIfWith ideal m pred' offs s
  | [], _, _, _ => rfl
  | o :: offs, s, ho, hs => by
      obtain ⟨hd, hlt⟩ := ho o List.mem_cons_self
      obtain ⟨heq, hI⟩ := findSlot_congr (fun i s => hp (o + i) s) (ideal.hashes (m.bucket o)) hs
      rw [findIfWith, findIfWith, h.hashes_eq hB hd hlt, heq]
      rcases hf : findSlot (fun i => pred' (o + i)) (ideal.hashes (m.bucket o)) s with ⟨_ | i, s'⟩
      · rw [hf] at hI
        exact findIfWith_congr hB hp offs (fun o' ho' => ho o' (List.mem_cons_of_mem _ ho')) hI
      · have hi := (h.mem_hashes hd hlt).mp (mem_of_findSlot hf)
        dsimp only
        rw [touch_eq hB h ⟨hd, hlt, hi.1⟩]

/-- A search without a result changes nothing, and another one touches the slot that it returns. -/
theorem findIfWith_cases (pred : ℕ → σ → Bool × σ) : ∀ (offs : List ℕ) (s : σ),
    (∀ o ∈ offs, T.kernelSize ∣ o ∧ o < m.capacity) →
    (∃ s', findIfWith ideal m pred offs s = ((none, m), s') ∧
      findSlot pred (offs.flatMap fun o => (ideal.hashes (m.bucket o)).map (o + ·)) s
        = (none, s')) ∨
    ∃ o i s', m.IsSlot o i ∧
      findIfWith ideal m pred offs s = ((some (o + i), m.touch ideal o i), s') ∧
      findSlot pred (offs.flatMap fun o => (ideal.hashes (m.bucket o)).map (o + ·)) s
        = (some (o + i), s')
  | [], s, _ => Or.inl ⟨s, rfl, rfl⟩
  | o :: offs, s, ho => by
      obtain ⟨hd, hlt⟩ := ho o List.mem_cons_self
      rw [findIfWith, List.flatMap_cons, findSlot_append, findSlot_map]
      rcases hf : findSlot (fun i => pred (o + i)) (ideal.hashes (m.bucket o)) s with ⟨_ | i, s'⟩
      · exact findIfWith_cases pred offs s' fun o' ho' => ho o' (List.mem_cons_of_mem _ ho')
      · have hi := (h.mem_hashes hd hlt).mp (mem_of_findSlot hf)
        exact Or.inr ⟨o, i, s', ⟨hd, hlt, hi.1⟩, rfl, rfl⟩

end Search

/-! ### Comparing -/

section Compare
variable [Inhabited ν] (valueEq : ν → ν → Bool) {lhs rhs : Cache T ν}

theorem differs_agree {B : BucketOps} (hB : B.Lawful T.kernelSize) (pos : ℕ) (h : Inv rhs) :
    differs valueEq B lhs pos rhs = differs valueEq ideal lhs pos rhs ∧
      Inv (differs valueEq ideal lhs pos rhs).2 := by
  obtain ⟨heq, hinv⟩ := findFirst_agree hB h (lhs.keyAt pos)
  unfold differs
  rw [heq]
  generalize rhs.findFirst ideal (lhs.keyAt pos) = r at hinv
  rcases r with ⟨⟨_ | r, q⟩, m'⟩
  · exact ⟨rfl, hinv⟩
  · exact ⟨rfl, hinv⟩

/-- An entry that does not differ has its key in the other cache, where the lookup touches it. -/
theorem differs_cases (pos : ℕ) (h : Inv rhs) :
    differs valueEq ideal lhs pos rhs = (true, rhs) ∨ ∃ o i b, rhs.IsSlot o i ∧
      rhs.table.Stores (lhs.keyAt pos) (o + i) ∧
      differs valueEq ideal lhs pos rhs = (b, rhs.touch ideal o i) := by
  unfold differs
  rcases h.findFirst_spec (lhs.keyAt pos) with ⟨i, heq, hs, hst⟩ | ⟨heq, -⟩
  · rw [heq]
    exact Or.inr ⟨_, i, _, hs, hst, rfl⟩
  · rw [heq]
    exact Or.inl rfl

/-- Entries that do not differ: their keys are different ones, so each lookup touches another slot
of the right cache. -/
theorem findSlot_touches (hd : T.duplicates = false) (hl : Inv lhs) : ∀ (ps : List ℕ)
    {S : Set ℕ} {r r' : Cache T ν}, TouchedOnce S rhs r → (∀ p ∈ ps, lhs.table.Occupied p) →
    ps.Nodup → (∀ q ∈ S, q < rhs.capacity ∧ ∃ p, lhs.table.Occupied p ∧ p ∉ ps ∧
      rhs.table.Stores (lhs.keyAt p) q) →
    findSlot (differs valueEq ideal lhs) ps r = (none, r') →
    ∃ S' : Set ℕ, TouchedOnce S' rhs r' ∧ (∀ q ∈ S', q < rhs.capacity) ∧
      (S.Nonempty ∨ ps ≠ [] → S'.Nonempty)
  | [], S, r, r', ht, _, _, hS, hr => by
      obtain ⟨-, rfl⟩ := Prod.mk.inj hr
      exact ⟨S, ht, fun q hq => (hS q hq).1, fun hc => hc.resolve_right (absurd rfl)⟩
  | p :: ps, S, r, r', ht, hps, hnd, hS, hr => by
      have hocc := hps p List.mem_cons_self
      obtain ⟨hp, hnd⟩ := List.nodup_cons.mp hnd
      rw [findSlot] at hr
      rcases differs_cases valueEq p ht.inv with heq | ⟨o, i, b, hs, hst, heq⟩
      · rw [heq] at hr
        cases hr
      · rw [heq] at hr
        cases b with
        | true => cases hr
        | false =>
            rw [ht.table] at hst
            have hlt : o + i < rhs.capacity := hst.1.1
            have hnew : o + i ∉ S := by
              intro hc
              obtain ⟨-, p', hocc', hp', hst'⟩ := hS _ hc
              refine hp' (List.mem_cons.mpr (Or.inl (hl.unique hd p' p hocc' hocc ?_)))
              exact T.key.eq_trans (T.key.eq_symm hst'.2) hst.2
            have hS' : ∀ q ∈ Insert.insert (o + i) S, q < rhs.capacity ∧ ∃ p,
                lhs.table.Occupied p ∧ p ∉ ps ∧ rhs.table.Stores (lhs.keyAt p) q := by
              rintro q (rfl | hq)
              · exact ⟨hlt, p, hocc, hp, hst⟩
              · obtain ⟨hqlt, p', hocc', hp', hst'⟩ := hS q hq
                exact ⟨hqlt, p', hocc', fun hc => hp' (List.mem_cons_of_mem _ hc), hst'⟩
            obtain ⟨S', ht', hlt', hne⟩ := findSlot_touches hd hl ps (ht.touch hs hnew)
              (fun q hq => hps q (List.mem_cons_of_mem _ hq)) hnd hS' hr
            exact ⟨S', ht', hlt', fun _ => hne (Or.inl ⟨_, Set.mem_insert _ _⟩)⟩

/-- A comparison that looks at the entries changes a counter of one of the caches. -/
theorem exists_lruAt_ne_of_compare (hd : T.duplicates = false) (hl : Inv lhs) (hr : Inv rhs)
    (hne : lhs.positions ideal ≠ []) :
    let res := findIfWith ideal lhs (differs valueEq ideal lhs)
      (offsets T.kernelSize lhs.capacity) rhs
    (∃ p < lhs.capacity, res.1.2.lruAt p ≠ lhs.lruAt p) ∨
      ∃ p < rhs.capacity, res.2.lruAt p ≠ rhs.lruAt p := by
  have hlists := hl.lists
  rcases findIfWith_cases hl (differs valueEq ideal lhs) (offsets T.kernelSize lhs.capacity) rhs
    (fun _ ho => hl.sound.mem_offsets.mp ho) with ⟨r', heq, hf⟩ | ⟨o, i, r', hs, heq, -⟩
  · obtain ⟨S, ht, hlt, hS⟩ := findSlot_touches valueEq hd hl (lhs.positions ideal)
      hr.touchedOnce (fun p hp => occupied_iff.mpr ((hlists.mem_iff p).mp hp))
      (hlists.sorted.imp ne_of_lt) (fun q hq => absurd hq (Set.notMem_empty q)) hf
    obtain ⟨q, hq⟩ := hS (Or.inr hne)
    rw [heq]
    exact Or.inr (ht.exists_ne (hlt q hq) hq)
  · rw [heq]
    exact Or.inl ⟨o + i, hl.shape.add_lt hs, (hl.shape.touched hs).lruAt_ne⟩

omit [Inhabited ν] in
theorem equal_eq [Inhabited ν] {B : BucketOps} (hB : B.Lawful T.kernelSize) (hl : Inv lhs)
    (hr : Inv rhs) (same : Bool) :
    lhs.equal valueEq B same rhs = lhs.equal valueEq ideal same rhs := by
  have hdiffers : ∀ pos r, Inv r → differs valueEq B lhs pos r = differs valueEq ideal lhs pos r ∧
      Inv (differs valueEq ideal lhs pos r).2 := fun pos r h => differs_agree valueEq hB pos h
  have hfind := findIfWith_congr hl hB hdiffers
    (offsets T.kernelSize lhs.capacity) (fun _ ho => hl.sound.mem_offsets.mp ho) hr
  unfold equal
  rw [hfind]

end Compare

/-! ### Main result -/

section Reached
variable [Inhabited ν]

omit [Inhabited ν] in
theorem Inv.traverse_agree {B : BucketOps} (hB : B.Lawful T.kernelSize) {m : Cache T ν} (h : Inv m)
    (fuel : ℕ) : m.traverse B fuel = m.traverse ideal fuel ∧ Inv (m.traverse ideal fuel).2 := by
  obtain ⟨hfront, hinv⟩ := findIf_agree hB h fun _ => true
  unfold traverse begin_ front
  rw [hfront]
  exact ⟨rfl, hinv⟩

/-- All counters are the same, and no later calls tell the caches apart. -/
structure Unseen (B : BucketOps) (m m' : Cache T ν) : Prop where
  lruAt : ∀ p < m.capacity, m'.lruAt p = m.lruAt p
  run_eq : ∀ ops, run B ops m' = run B ops m

theorem Unseen.refl (B : BucketOps) (m : Cache T ν) : Unseen B m m := ⟨fun _ _ => rfl, fun _ => rfl⟩

variable (B : Kernel T.kernelSize) (conf conf' : Conf T.conf)

/-- Iterating over a cache leaves no trace exactly if the cache is empty.  Comparing two caches leaves
no trace on them exactly if no entries are compared: they are one object, or their sizes or blob
sizes differ, or both are empty. -/
theorem traversal_unseen_iff {l r : Cache T ν} (hl : (runs B conf).Reachable l)
    (hr : (runs B conf').Reachable r) :
    (∀ fuel, Unseen B.ops l (l.traverse B.ops fuel).2 ↔ l.size = 0) ∧
      (T.duplicates = false → ∀ (valueEq : ν → ν → Bool) (same : Bool),
        (Unseen B.ops l (l.equal valueEq B.ops same r).2.1 ∧
            Unseen B.ops r (l.equal valueEq B.ops same r).2.2 ↔
          same = true ∨ l.size ≠ r.size ∨ l.conf.blobSize ≠ r.conf.blobSize ∨ l.size = 0)) := by
  have hl := inv_of_reachable B conf hl
  have hr := inv_of_reachable B conf' hr
  have hsize : l.size = 0 ↔ l.positions ideal = [] := by
    rw [hl.size_eq_length, Nat.cast_eq_zero, List.length_eq_zero_iff]
  refine ⟨fun fuel => ?_, fun hd valueEq same => ?_⟩
  · rw [(hl.traverse_agree B.lawful fuel).1, traverse, begin_, hsize]
    rcases hl.front_cases with ⟨hn, hf⟩ | ⟨o, i, hs, hhead, hf⟩
    · rw [hf]
      exact iff_of_true (Unseen.refl _ l) hn
    · rw [hf]
      refine iff_of_false (fun hu => ?_) fun hn => ?_
      · exact (hl.shape.touched hs).lruAt_ne (hu.lruAt _ (hl.shape.add_lt hs))
      · rw [hn] at hhead
        cases hhead
  · rw [equal_eq valueEq B.lawful hl hr]
    unfold equal
    split_ifs with hsame hsz hbl
    · exact iff_of_true ⟨Unseen.refl _ l, Unseen.refl _ r⟩ (Or.inl hsame)
    · exact iff_of_true ⟨Unseen.refl _ l, Unseen.refl _ r⟩ (Or.inr (Or.inl hsz))
    · exact iff_of_true ⟨Unseen.refl _ l, Unseen.refl _ r⟩ (Or.inr (Or.inr (Or.inl hbl)))
    · rw [or_iff_right hsame, or_iff_right hsz, or_iff_right hbl, hsize]
      dsimp only
      by_cases hn : l.positions ideal = []
      · refine iff_of_true ?_ hn
        rcases findIfWith_cases hl (differs valueEq ideal l) (offsets T.kernelSize l.capacity) r
          (fun _ ho => hl.sound.mem_offsets.mp ho) with ⟨r', heq, hf⟩ | ⟨o, i, r', -, -, hf⟩
        · obtain rfl : r = r' := by
            change findSlot _ (l.positions ideal) r = _ at hf
            rw [hn] at hf
            exact (Prod.mk.inj hf).2
          rw [heq]
          exact ⟨Unseen.refl _ l, Unseen.refl _ r⟩
        · have hmem : o + i ∈ l.positions ideal := mem_of_findSlot hf
          rw [hn] at hmem
          cases hmem
      · refine iff_of_false (fun hu => ?_) hn
        rcases exists_lruAt_ne_of_compare valueEq hd hl hr hn with ⟨p, hp, hne⟩ | ⟨p, hp, hne⟩
        · exact hne (hu.1.lruAt p hp)
        · exact hne (hu.2.lruAt p hp)

end Reached

/-- Two entries in one bucket: after `begin`, the next insert evicts the other one of them; and a
comparison of two equal caches changes a counter of the right one. -/
theorem traversal_evicts : ∃ rs l rs' r,
    wordExec 1 false [.insert 0, .insert 8] = .ok (rs, l) ∧
      wordExec 1 false [.insert 8, .insert 0] = .ok (rs', r) ∧
      l.keyAt 0 = 0 ∧ (l.insert (Map.wordKernel 1 false).ops 16).1.1 = 0 ∧
      (l.traverse (Map.wordKernel 1 false).ops 3).2.keyAt 1 = 8 ∧
      ((l.traverse (Map.wordKernel 1 false).ops 3).2.insert (Map.wordKernel 1 false).ops 16).1.1
        = 1 ∧
      (l.equal (· == ·) (Map.wordKernel 1 false).ops false r).1 = true ∧
      (l.equal (· == ·) (Map.wordKernel 1 false).ops false r).2.2.lruAt 0 ≠ r.lruAt 0 := by
  have hB := (Map.wordKernel 1 false).lawful
  obtain ⟨rs', r, hr', hinv', -⟩ := exists_wordExec 1 false [.insert 8, .insert 0]
    (fun _ => ()) () (by decide +kernel)
  obtain ⟨rs, l, hr, hinv, hf⟩ := exists_wordExec 1 false [.insert 0, .insert 8]
    (fun x => (x.2.keyAt 0 == 0 && (x.2.insert ideal 16).1.1 == 0 &&
      (x.2.traverse ideal 3).2.keyAt 1 == 8 &&
      ((x.2.traverse ideal 3).2.insert ideal 16).1.1 == 1,
      ((exec (wordCache 1 false) ideal (Map.wordConf 1 false) [.insert 8, .insert 0]).map fun y =>
        ((x.2.equal (· == ·) ideal false y.2).1,
          (x.2.equal (· == ·) ideal false y.2).2.2.lruAt 0 != y.2.lruAt 0)).toOption))
    (true, some (true, true)) (by decide +kernel)
  have hexec := (exec_agree (T := wordCache 1 false) (ν := ℕ) hB (Map.wordConf 1 false)
    [.insert 8, .insert 0]).1.symm.trans hr'
  simp only [hexec, Prod.mk.injEq, Bool.and_eq_true, beq_iff_eq] at hf
  obtain ⟨⟨⟨⟨hkey, hins⟩, hkey'⟩, hins'⟩, hequal⟩ := hf
  obtain ⟨heq, hne⟩ := Prod.mk.inj (Option.some.inj hequal)
  obtain ⟨ht, htinv⟩ := hinv.traverse_agree hB 3
  refine ⟨rs, l, rs', r, hr, hr', hkey, ?_, ?_, ?_, ?_, ?_⟩
  · rw [(insert_agree hB hinv 16).1]
    exact hins
  · rw [ht]
    exact hkey'
  · rw [ht, (insert_agree hB htinv 16).1]
    exact hins'
  · rw [equal_eq _ hB hinv hinv']
    exact heq
  · rw [equal_eq _ hB hinv hinv']
    exact bne_iff_ne.mp hne

/-- Caches with one and two entries: iterating over one leaves a trace, comparing them does not. -/
theorem traversal_unseen_words : ∃ rs l rs' r,
    wordExec 1 false [.insert 0, .insert 8] = .ok (rs, l) ∧
      wordExec 1 false [.insert 8] = .ok (rs', r) ∧
      ¬ Unseen (Map.wordKernel 1 false).ops l (l.traverse (Map.wordKernel 1 false).ops 3).2 ∧
      Unseen (Map.wordKernel 1 false).ops l
        (l.equal (· == ·) (Map.wordKernel 1 false).ops false r).2.1 ∧
      Unseen (Map.wordKernel 1 false).ops r
        (l.equal (· == ·) (Map.wordKernel 1 false).ops false r).2.2 := by
  obtain ⟨rs, l, hr, -, hsize⟩ := exists_wordExec 1 false [.insert 0, .insert 8]
    (fun x => x.2.size) 2 (by decide +kernel)
  obtain ⟨rs', r, hr', -, hsize'⟩ := exists_wordExec 1 false [.insert 8]
    (fun x => x.2.size) 1 (by decide +kernel)
  obtain ⟨htraverse, hcompare⟩ := traversal_unseen_iff (T := wordCache 1 false)
    (Map.wordKernel 1 false) (Map.wordConf 1 false) (Map.wordConf 1 false)
    (reachable_of_exec _ _ hr) (reachable_of_exec _ _ hr')
  have hne : l.size ≠ r.size := by
    rw [hsize, hsize']
    decide
  refine ⟨rs, l, rs', r, hr, hr', fun hu => ?_,
    (hcompare rfl (· == ·) false).mpr (Or.inr (Or.inl hne))⟩
  rw [htraverse, hsize] at hu
  cases hu

end Cache

end Nvhm
