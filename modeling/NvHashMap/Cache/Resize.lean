import NvHashMap.Cache.Insert
import NvHashMap.Map.Transport

/-! # Rehashing a cache

`resize_` re-inserts the entries of the old table, bucket by bucket.  Where a bucket is full, the
entry with the smallest counter makes way, or the entry to come is dropped.  While the loop runs,
`num_empty_` lags behind by the slots filled so far (`Refill`). -/

namespace Nvhm

open Buffer SlotCount

variable {κ ν : Type} {T : CacheType κ} [Inhabited κ]

namespace Cache

/-! ### Kernels -/

section Buckets
variable {B : BucketOps} (hB : B.Lawful T.kernelSize) {m : Cache T ν} (h : Inv m) {o : ℕ}
variable (hd : T.kernelSize ∣ o) (ho : o < m.capacity)
include h hd ho

theorem Inv.isBucket : IsBucket T.kernelSize (m.bucket o) := by
  rw [bucket_eq h.shape hd ho]
  exact h.sound.isBucket hd ho

include hB

theorem Inv.notHashes_eq : B.notHashes (m.bucket o) = ideal.notHashes (m.bucket o) :=
  hB.notHashes _ (h.isBucket hd ho)

theorem Inv.hashes_eq : B.hashes (m.bucket o) = ideal.hashes (m.bucket o) :=
  hB.hashes _ (h.isBucket hd ho)

end Buckets

/-! ### One entry -/

section Copy
variable [Inhabited ν] {m old : Cache T ν}

/-- An entry of another table whose key is stored nowhere is copied to its home bucket. -/
theorem Inv.copyEntry (h : Inv m) (hold : Inv old) (hconf : old.conf = m.conf) {o i o' i' : ℕ}
    (hs : m.IsSlot o i) (hs' : old.IsSlot o' i') (ho : o = m.home (old.keyAt (o' + i')))
    (hnew : T.duplicates = false → ¬ m.Contains (old.keyAt (o' + i'))) :
    Inv ((m.copyEntry old o' i' o i).credit
      (-if m.table.stateAt (o + i) = empty then 1 else 0)) := by
  obtain ⟨hshape, ht⟩ := h.shape.copyEntry hold.shape hconf hs hs'
  have hlt := h.shape.add_lt hs
  have hf : Map.Frame m.table ((m.copyEntry old o' i' o i).credit
      (-if m.table.stateAt (o + i) = empty then 1 else 0)).table := ⟨rfl, rfl, rfl⟩
  refine h.put (hshape.credit _) hf hlt ?_ ?_ ?_ (fun hd q hq => hnew hd (.of_stores hq)) ?_
  · change (m.copyEntry old o' i' o i).table.stateAt = _
    rw [ht]
    exact Map.copyEntry_stateAt h.sound.toShape hlt old.table (o' + i')
  · change (m.copyEntry old o' i' o i).table.keyAt = _
    rw [ht]
    exact Map.copyEntry_keyAt h.sound.toShape hlt old.table (o' + i')
  · rw [MapType.off_add (T := T.toMapType) hs.dvd hs.idx_lt, ho]
  · exact (sub_eq_add_neg _ _).symm

/-- What a cache stores after an entry was copied into it. -/
theorem stores_copyEntry (h : Inv m) (hold : Inv old) (hconf : old.conf = m.conf) {o i o' i' : ℕ}
    (hs : m.IsSlot o i) (hs' : old.IsSlot o' i') (k : κ) (q : ℕ) :
    (m.copyEntry old o' i' o i).table.Stores k q ↔
      q = o + i ∧ T.key.eq (old.keyAt (o' + i')) k = true ∨ q ≠ o + i ∧ m.table.Stores k q := by
  obtain ⟨-, ht⟩ := h.shape.copyEntry hold.shape hconf hs hs'
  have hlt := h.shape.add_lt hs
  have hf : Map.Frame m.table (m.copyEntry old o' i' o i).table := ⟨rfl, rfl, rfl⟩
  refine stores_put hlt hf ?_ ?_ k q
  · rw [ht]
    exact Map.copyEntry_stateAt h.sound.toShape hlt old.table (o' + i')
  · rw [ht]
    exact Map.copyEntry_keyAt h.sound.toShape hlt old.table (o' + i')

end Copy

/-! ### The loop -/

section Loop
variable [Inhabited ν] {old : Cache T ν}

/-- The state of the loop before the slots in `l` are re-inserted. -/
structure Refill (old : Cache T ν) (l : List (ℕ × ℕ)) (s : Cache T ν × ℕ) : Prop where
  inv : Inv (s.1.credit (-s.2))
  conf_eq : old.conf = s.1.conf
  isSlot : ∀ q ∈ l, old.IsSlot q.1 q.2
  fresh : T.duplicates = false → ∀ q ∈ l, ¬ s.1.Contains (old.keyAt (q.1 + q.2))
  distinct : T.duplicates = false →
    l.Pairwise fun q q' => ¬ T.key.eq (old.keyAt (q.1 + q.2)) (old.keyAt (q'.1 + q'.2)) = true

omit [Inhabited ν] in
theorem Refill.drop {q : ℕ × ℕ} {l : List (ℕ × ℕ)} {s : Cache T ν × ℕ}
    (h : Refill old (q :: l) s) : Refill old l s where
  inv := h.inv
  conf_eq := h.conf_eq
  isSlot q' hq' := h.isSlot q' (List.mem_cons_of_mem _ hq')
  fresh hd q' hq' := h.fresh hd q' (List.mem_cons_of_mem _ hq')
  distinct hd := (List.pairwise_cons.mp (h.distinct hd)).2

theorem Refill.copyEntry (hold : Inv old) {q : ℕ × ℕ} {l : List (ℕ × ℕ)} {m : Cache T ν} {n : ℕ}
    (h : Refill old (q :: l) (m, n)) {i : ℕ} (hi : i < T.kernelSize) {k : ℕ}
    (hk : (k : ℤ) = if m.table.stateAt (m.home (old.keyAt (q.1 + q.2)) + i) = empty then 1 else 0) :
    Refill old l (m.copyEntry old q.1 q.2 (m.home (old.keyAt (q.1 + q.2))) i, n + k) := by
  have hq := h.isSlot q List.mem_cons_self
  have hs := h.inv.shape.isSlot_home (old.keyAt (q.1 + q.2)) hi
  refine ⟨?_, h.conf_eq, h.drop.isSlot, fun hd q' hq' => ?_, h.drop.distinct⟩
  · have hcopy := h.inv.copyEntry hold h.conf_eq hs hq rfl fun hd => h.fresh hd q List.mem_cons_self
    change Inv (((m.copyEntry old q.1 q.2 _ i).credit _).credit _) at hcopy
    rw [credit_credit] at hcopy
    have hneg : -((n + k : ℕ) : ℤ) = -(n : ℤ) + -(k : ℤ) := by
      push_cast
      exact neg_add _ _
    change Inv ((m.copyEntry old q.1 q.2 _ i).credit (-((n + k : ℕ) : ℤ)))
    rw [hneg, hk]
    exact hcopy
  · intro hc
    obtain ⟨p, hp⟩ := contains_iff.mp hc
    rcases (stores_copyEntry h.inv hold h.conf_eq hs hq _ p).mp hp with ⟨-, heq⟩ | ⟨-, hst⟩
    · exact (List.pairwise_cons.mp (h.distinct hd)).1 q' hq' heq
    · exact h.fresh hd q' (List.mem_cons_of_mem _ hq') (.of_stores hst)

omit [Inhabited ν] in
theorem Refill.shape {l : List (ℕ × ℕ)} {s : Cache T ν × ℕ} (h : Refill old l s) : Shape s.1 := by
  have hshape := h.inv.shape.credit s.2
  rwa [credit_credit, neg_add_cancel, credit_zero] at hshape

omit [Inhabited ν] in
/-- The slot that is chosen for a key. -/
theorem Refill.slot_cases {l : List (ℕ × ℕ)} {m : Cache T ν} {n : ℕ} (h : Refill old l (m, n))
    (key : κ) : (∃ i, (ideal.notHashes (m.bucket (m.home key))).head? = some i ∧
        i < T.kernelSize ∧ m.table.stateAt (m.home key + i) = empty) ∨
      (ideal.notHashes (m.bucket (m.home key))).head? = none ∧
        ∀ i < T.kernelSize, m.table.Occupied (m.home key + i) := by
  have hs := h.inv.shape.isSlot_home key (kernelSize_pos T)
  rcases h.inv.slot_cases hs.dvd hs.lt with ⟨i, hi, hsi, he⟩ | hfull
  · exact Or.inl ⟨i, hi, hsi.idx_lt, he⟩
  · exact Or.inr hfull

/-- One entry is re-inserted. -/
theorem Refill.reinsert (hold : Inv old) {q : ℕ × ℕ} {l : List (ℕ × ℕ)} {s : Cache T ν × ℕ}
    (h : Refill old (q :: l) s) : Refill old l (reinsert ideal old q.1 q.2 s) := by
  obtain ⟨m, n⟩ := s
  have hs := h.shape.isSlot_home (old.keyAt (q.1 + q.2)) (kernelSize_pos T)
  unfold Cache.reinsert
  dsimp only
  rcases h.slot_cases (old.keyAt (q.1 + q.2)) with ⟨i, hi, hlt, he⟩ | ⟨hn, hfull⟩
  · rw [hi]
    exact h.copyEntry hold hlt (by rw [if_pos he]; rfl)
  · rw [hn]
    dsimp only
    split_ifs
    · exact h.drop
    · have hlt := minLru_lt (length_lrus h.shape hs.dvd hs.lt)
      have hne := ne_empty_of_isHash (hfull _ hlt).isHash
      exact h.copyEntry hold (k := 0) hlt (by rw [if_neg hne]; rfl)

variable {B : BucketOps} (hB : B.Lawful T.kernelSize)
include hB

theorem Refill.reinsert_eq {l : List (ℕ × ℕ)} {s : Cache T ν × ℕ} (h : Refill old l s)
    (o i : ℕ) : Cache.reinsert B old o i s = Cache.reinsert ideal old o i s := by
  obtain ⟨m, n⟩ := s
  have hs := h.inv.shape.isSlot_home (old.keyAt (o + i)) (kernelSize_pos T)
  have hnot : B.notHashes (m.bucket (m.home (old.keyAt (o + i)))) =
      ideal.notHashes (m.bucket (m.home (old.keyAt (o + i)))) :=
    h.inv.notHashes_eq hB hs.dvd hs.lt
  have hmin : B.minLru (m.lrus (m.home (old.keyAt (o + i)))) =
      ideal.minLru (m.lrus (m.home (old.keyAt (o + i)))) :=
    hB.minLru _ (length_lrus h.inv.shape hs.dvd hs.lt)
  unfold Cache.reinsert
  simp only [hnot, hmin]

/-- A list of entries is re-inserted. -/
theorem Refill.run (hold : Inv old) : ∀ (l : List (ℕ × ℕ)) {s : Cache T ν × ℕ},
    Refill old l s →
    l.foldl (fun s q => Cache.reinsert B old q.1 q.2 s) s =
        l.foldl (fun s q => Cache.reinsert ideal old q.1 q.2 s) s ∧
      Refill old [] (l.foldl (fun s q => Cache.reinsert ideal old q.1 q.2 s) s)
  | [], _, h => ⟨rfl, h⟩
  | q :: l, s, h => by
      rw [List.foldl_cons, List.foldl_cons, h.reinsert_eq hB]
      exact (h.reinsert hold).run hold l

end Loop

/-! ### The slots that the loop visits -/

/-- The occupied slots of some buckets, in the order of the loop. -/
def walk (B : BucketOps) (old : Cache T ν) (offs : List ℕ) : List (ℕ × ℕ) :=
  offs.flatMap fun o => (B.hashes (old.bucket o)).map fun i => (o, i)

section Walk
variable [Inhabited ν] {old : Cache T ν}

theorem reinsertAll_eq (B : BucketOps) (old : Cache T ν) : ∀ (offs : List ℕ) (s : Cache T ν × ℕ),
    reinsertAll B old offs s = (walk B old offs).foldl (fun s q => reinsert B old q.1 q.2 s) s
  | [], _ => rfl
  | o :: offs, s => by
      have hwalk : walk B old (o :: offs) =
          ((B.hashes (old.bucket o)).map fun i => (o, i)) ++ walk B old offs := rfl
      rw [reinsertAll, reinsertAll_eq B old offs, hwalk, List.foldl_append, List.foldl_map]

omit [Inhabited ν] in
theorem walk_eq {B : BucketOps} (hB : B.Lawful T.kernelSize) (h : Inv old) :
    walk B old (offsets T.kernelSize old.capacity) =
      walk ideal old (offsets T.kernelSize old.capacity) := by
  refine List.flatMap_congr fun o ho => ?_
  obtain ⟨hd, hlt⟩ := h.sound.mem_offsets.mp ho
  rw [h.hashes_eq hB hd hlt]

omit [Inhabited ν] in
theorem Inv.mem_walk (h : Inv old) {q : ℕ × ℕ} :
    q ∈ walk ideal old (offsets T.kernelSize old.capacity) ↔
      old.IsSlot q.1 q.2 ∧ old.table.Occupied (q.1 + q.2) := by
  obtain ⟨o, i⟩ := q
  unfold walk
  rw [List.mem_flatMap]
  constructor
  · rintro ⟨o', ho', hi⟩
    obtain ⟨i', hi', heq⟩ := List.mem_map.mp hi
    obtain ⟨rfl, rfl⟩ := Prod.mk.inj heq
    obtain ⟨hd, hlt⟩ := h.sound.mem_offsets.mp ho'
    obtain ⟨hik, hocc⟩ := (h.mem_hashes hd hlt).mp hi'
    exact ⟨⟨hd, hlt, hik⟩, hocc⟩
  · rintro ⟨hs, hocc⟩
    exact ⟨o, h.sound.mem_offsets.mpr ⟨hs.dvd, hs.lt⟩,
      List.mem_map.mpr ⟨i, (h.mem_hashes hs.dvd hs.lt).mpr ⟨hs.idx_lt, hocc⟩, rfl⟩⟩

omit [Inhabited κ] [Inhabited ν] in
theorem nodup_walk (old : Cache T ν) :
    (walk ideal old (offsets T.kernelSize old.capacity)).Nodup := by
  refine List.nodup_flatMap.mpr ⟨fun o _ => ?_, ?_⟩
  · exact (List.nodup_range.filter _).map fun _ _ heq => (Prod.mk.inj heq).2
  · refine (Map.offsets_nodup T.toMapType _).imp fun {o o'} hne => ?_
    intro q hq hq'
    obtain ⟨i, -, rfl⟩ := List.mem_map.mp hq
    obtain ⟨i', -, heq⟩ := List.mem_map.mp hq'
    exact hne (Prod.mk.inj heq).1.symm

/-- Without duplicates the walk meets each key once. -/
theorem Inv.refill (h : Inv old) {n : ℕ} (hcap : IsCapacity n)
    (hmin : old.conf.minCapacity ≤ n) :
    Refill old (walk ideal old (offsets T.kernelSize old.capacity))
      ((old.alloc n).reset, 0) where
  inv := by
    change Inv (((old.alloc n).reset).credit (-0))
    rw [neg_zero, credit_zero]
    exact h.alloc hcap hmin
  conf_eq := rfl
  isSlot q hq := (h.mem_walk.mp hq).1
  fresh _ q _ := by
    intro hc
    obtain ⟨p, hp, -⟩ := contains_iff.mp hc
    have ht := (Shape.alloc old hcap (h.kernelSize_le.trans hmin)).2
    rw [ht] at hp
    exact Map.reset_not_occupied _ p hp
  distinct hd := by
    refine (nodup_walk old).imp_of_mem fun {q q'} hq hq' hne heq => ?_
    obtain ⟨hs, hocc⟩ := h.mem_walk.mp hq
    obtain ⟨hs', hocc'⟩ := h.mem_walk.mp hq'
    have hpos := h.unique hd _ _ hocc hocc' heq
    have hoff := MapType.off_add (T := T.toMapType) hs.dvd hs.idx_lt
    rw [hpos, MapType.off_add (T := T.toMapType) hs'.dvd hs'.idx_lt] at hoff
    exact hne (Prod.ext hoff.symm (by omega))

end Walk

/-! ### The whole resize -/

section Resize
variable [Inhabited ν] {m : Cache T ν} {B : BucketOps} (hB : B.Lawful T.kernelSize) (h : Inv m)
include hB h

/-- `resize_` keeps the invariant, whatever the kernel. -/
theorem Inv.rehash_agree {n : ℕ} (hcap : n ≤ m.conf.minCapacity ∨ IsCapacity n) :
    resize_ B m n = resize_ ideal m n ∧ Inv (resize_ ideal m n).2 := by
  unfold resize_
  dsimp only
  have hmax : IsCapacity (max n m.conf.minCapacity) := by
    rcases hcap with hle | hcap
    · rw [max_eq_right hle]
      exact m.conf.min_isCapacity
    · exact hcap.max m.conf.min_isCapacity
  split_ifs with hc
  · exact ⟨rfl, h⟩
  · obtain ⟨heq, hrefill⟩ := (h.refill hmax (le_max_right _ _)).run hB h _
    rw [reinsertAll_eq, reinsertAll_eq, walk_eq hB h, heq]
    refine ⟨rfl, ?_⟩
    exact hrefill.inv

end Resize

end Cache

end Nvhm
