import NvHashMap.Cache.Lru
import NvHashMap.Lib.TopK

/-! # What a rehash keeps

Every bucket of the new table is a buffer of `kernel_size` places for the entries that map to it.
`resize_` feeds it one entry after the other, and so keeps those with the largest counters
(`Survivors`). -/

namespace Nvhm

open Buffer SlotCount
open Map (Result)

/-- A place of a buffer is written; `a` and `f` are the taken places and what they hold before,
`b` and `g` afterwards. -/
theorem map_filter_put {K i : ℕ} (hi : i < K) {a b : ℕ → Prop} [DecidablePred a]
    [DecidablePred b] {f g : ℕ → ℕ} (hab : ∀ j < K, j ≠ i → (b j ↔ a j)) (hb : b i)
    (hfg : ∀ j < K, j ≠ i → g j = f j) :
    ((Finset.range K).filter b).val.map g =
      g i ::ₘ (((Finset.range K).filter a).erase i).val.map f := by
  have hset : (Finset.range K).filter b = insert i (((Finset.range K).filter a).erase i) := by
    ext j
    rw [Finset.mem_filter, Finset.mem_insert, Finset.mem_erase, Finset.mem_filter, Finset.mem_range]
    by_cases hj : j = i
    · subst hj
      exact iff_of_true ⟨hi, hb⟩ (Or.inl rfl)
    · constructor
      · rintro ⟨hlt, ho⟩
        exact Or.inr ⟨hj, hlt, (hab j hlt hj).mp ho⟩
      · rintro (hc | ⟨-, hlt, ho⟩)
        · exact absurd hc hj
        · exact ⟨hlt, (hab j hlt hj).mpr ho⟩
  rw [hset, Finset.insert_val_of_notMem (Finset.notMem_erase i _), Multiset.map_cons]
  congr 1
  refine Multiset.map_congr rfl fun j hj => ?_
  obtain ⟨hne, hj⟩ := Finset.mem_erase.mp (Finset.mem_val.mp hj)
  exact hfg j (Finset.mem_range.mp (Finset.mem_filter.mp hj).1) hne

variable {κ ν : Type} {T : CacheType κ} [Inhabited κ] [Inhabited ν]

namespace Cache

/-- The counters of the entries in a bucket. -/
def kept (m : Cache T ν) (o : ℕ) : Multiset ℕ :=
  ((Finset.range T.kernelSize).filter fun i => m.containsAt (o + i) = true).val.map
    fun i => (m.lruAt (o + i)).toNat

/-- The counters of the entries of `old` in `D` that map to a bucket of `m`. -/
def offered (old m : Cache T ν) (D : Finset ℕ) (o : ℕ) : Multiset ℕ :=
  (D.filter fun q => m.home (old.keyAt q) = o).val.map fun q => (old.lruAt q).toNat

/-- The entries of `m` come from those of `old` in `D`, and each bucket has those with the largest
counters. -/
structure Survivors (old m : Cache T ν) (D : Finset ℕ) : Prop where
  source : ∃ f : ℕ → ℕ, (∀ p, m.table.Occupied p → f p ∈ D ∧
      m.table.entryAt p = old.table.entryAt (f p) ∧ m.lruAt p = old.lruAt (f p)) ∧
    ∀ p p', m.table.Occupied p → m.table.Occupied p' → f p = f p' → p = p'
  top : ∀ o, T.kernelSize ∣ o → o < m.capacity →
    IsTop T.kernelSize (offered old m D o) (m.kept o)

section Step
variable {m old : Cache T ν}

/-- The entry at `q` was copied to the slot `i` of a bucket. -/
structure Copied (old m m' : Cache T ν) (q o i : ℕ) : Prop where
  isSlot : m.IsSlot o i
  frame : Map.Frame m.table m'.table
  occupied : ∀ p, m'.table.Occupied p ↔ p = o + i ∨ m.table.Occupied p
  entryAt : m'.table.entryAt = Function.update m.table.entryAt (o + i) (old.table.entryAt q)
  lruAt : ∀ p < m.capacity, m'.lruAt p = if p = o + i then old.lruAt q else m.lruAt p

theorem Shape.copied (h : Shape m) (hold : Shape old) (hconf : old.conf = m.conf) {o i o' i' : ℕ}
    (hs : m.IsSlot o i) (hs' : old.IsSlot o' i') :
    Copied old m (m.copyEntry old o' i' o i) (o' + i') o i := by
  obtain ⟨-, ht⟩ := h.copyEntry hold hconf hs hs'
  have hlt := h.add_lt hs
  have hlt' := hold.add_lt hs'
  have hf : Map.Frame m.table (m.copyEntry old o' i' o i).table := ⟨rfl, rfl, rfl⟩
  have hst : (m.copyEntry old o' i' o i).table.stateAt =
      Function.update m.table.stateAt (o + i) (keyState T (old.keyAt (o' + i'))) := by
    rw [ht]
    exact Map.copyEntry_stateAt h.table hlt old.table (o' + i')
  refine ⟨hs, hf, fun p => ?_, ?_, fun p hp => ?_⟩
  · by_cases hp : p = o + i
    · subst hp
      refine iff_of_true ⟨hlt, ?_⟩ (Or.inl rfl)
      unfold Map.containsAt
      rw [hst, Function.update_self]
      exact Map.isHash_keyState T.toMapType _
    · rw [Map.occupied_put hf hst hp, or_iff_right hp]
  · rw [ht]
    exact Map.copyEntry_entryAt h.table hold.table hconf hlt' hlt
  · rw [lruAt_add hold hs']
    exact lruAt_put h hs _ _ hp

variable {m' : Cache T ν} {D : Finset ℕ} {q o i : ℕ}

theorem Copied.home (h : Copied old m m' q o i) (key : κ) : m'.home key = m.home key :=
  h.frame.visit key 0

theorem Copied.containsAt (h : Copied old m m' q o i) {p : ℕ} (hp : p < m.capacity) :
    m'.containsAt p = true ↔ p = o + i ∨ m.containsAt p = true := by
  have hp' : p < m'.capacity := lt_of_lt_of_eq hp (Map.Frame.capacity h.frame).symm
  have hocc := h.occupied p
  rw [occupied_iff, occupied_iff, and_iff_right hp, and_iff_right hp'] at hocc
  exact hocc

/-- The bucket that was written. -/
theorem Copied.kept_self (h : Copied old m m' q o i) (hm : Shape m) :
    m'.kept o = (old.lruAt q).toNat ::ₘ
      (((Finset.range T.kernelSize).filter fun j => m.containsAt (o + j) = true).erase i).val.map
        fun j => (m.lruAt (o + j)).toNat := by
  have hs := h.isSlot
  have hlt : ∀ j < T.kernelSize, o + j < m.capacity := fun j hj =>
    hm.add_lt ⟨hs.dvd, hs.lt, hj⟩
  have hput := map_filter_put hs.idx_lt (a := fun j => m.containsAt (o + j) = true)
    (b := fun j => m'.containsAt (o + j) = true) (f := fun j => (m.lruAt (o + j)).toNat)
    (g := fun j => (m'.lruAt (o + j)).toNat) (fun j hj hne => ?_) ?_ fun j hj hne => ?_
  · unfold kept
    rw [hput, h.lruAt _ (hlt i hs.idx_lt), if_pos rfl]
  · rw [h.containsAt (hlt j hj), or_iff_right (by omega)]
  · exact (h.containsAt (hlt i hs.idx_lt)).mpr (Or.inl rfl)
  · rw [h.lruAt _ (hlt j hj), if_neg (by omega)]

theorem Copied.kept_free (h : Copied old m m' q o i) (hm : Shape m)
    (hfree : ¬ m.containsAt (o + i) = true) :
    m'.kept o = (old.lruAt q).toNat ::ₘ m.kept o := by
  have hnot : i ∉ (Finset.range T.kernelSize).filter fun j => m.containsAt (o + j) = true :=
    fun hmem => hfree (Finset.mem_filter.mp hmem).2
  rw [h.kept_self hm, Finset.erase_eq_of_notMem hnot]
  rfl

theorem Copied.kept_full (h : Copied old m m' q o i) (hm : Shape m)
    (hocc : m.containsAt (o + i) = true) :
    m'.kept o = (old.lruAt q).toNat ::ₘ (m.kept o).erase (m.lruAt (o + i)).toNat := by
  have hmem : i ∈ ((Finset.range T.kernelSize).filter fun j => m.containsAt (o + j) = true).val :=
    Finset.mem_filter.mpr ⟨Finset.mem_range.mpr h.isSlot.idx_lt, hocc⟩
  rw [h.kept_self hm, Finset.erase_val, Multiset.map_erase_of_mem _ _ hmem]
  rfl

/-- The other buckets. -/
theorem Copied.kept_ne (h : Copied old m m' q o i) (hm : Shape m) {o' : ℕ}
    (hd : T.kernelSize ∣ o') (ho : o' < m.capacity) (hne : o' ≠ o) : m'.kept o' = m.kept o' := by
  have hs := h.isSlot
  have hlt : ∀ j < T.kernelSize, o' + j < m.capacity := fun j hj => hm.add_lt ⟨hd, ho, hj⟩
  have hoff : ∀ j < T.kernelSize, o' + j ≠ o + i := fun j hj hc => hne (by
    have h1 := MapType.off_add (T := T.toMapType) hd hj
    rwa [hc, MapType.off_add (T := T.toMapType) hs.dvd hs.idx_lt, eq_comm] at h1)
  have hset : ((Finset.range T.kernelSize).filter fun j => m'.containsAt (o' + j) = true) =
      (Finset.range T.kernelSize).filter fun j => m.containsAt (o' + j) = true := by
    refine Finset.filter_congr fun j hj => ?_
    have hj := Finset.mem_range.mp hj
    rw [h.containsAt (hlt j hj), or_iff_right (hoff j hj)]
  unfold kept
  rw [hset]
  refine Multiset.map_congr rfl fun j hj => ?_
  have hj := Finset.mem_range.mp (Finset.mem_filter.mp (Finset.mem_val.mp hj)).1
  rw [h.lruAt _ (hlt j hj), if_neg (hoff j hj)]

omit [Inhabited ν] in
/-- One more entry is offered. -/
theorem offered_insert (hq : q ∉ D) (o : ℕ) : offered old m (Insert.insert q D) o =
    if m.home (old.keyAt q) = o then (old.lruAt q).toNat ::ₘ offered old m D o
    else offered old m D o := by
  unfold offered
  rw [Finset.filter_insert]
  split_ifs
  · rw [Finset.insert_val_of_notMem fun hc => hq (Finset.mem_filter.mp hc).1, Multiset.map_cons]
  · rfl

/-- An entry is copied to its home bucket, which then holds the largest counters again. -/
theorem Survivors.copied (h : Survivors old m D) (hm : Shape m)
    (hc : Copied old m m' q (m.home (old.keyAt q)) i) (hq : q ∉ D)
    (htop : IsTop T.kernelSize ((old.lruAt q).toNat ::ₘ offered old m D (m.home (old.keyAt q)))
      (m'.kept (m.home (old.keyAt q)))) : Survivors old m' (Insert.insert q D) := by
  have hlt := hm.add_lt hc.isSlot
  have hcap : m'.capacity = m.capacity := Map.Frame.capacity hc.frame
  obtain ⟨f, hf, hinj⟩ := h.source
  refine ⟨⟨Function.update f (m.home (old.keyAt q) + i) q, fun p hp => ?_,
    fun p p' hp hp' heq => ?_⟩, fun o hd ho => ?_⟩
  · rw [hc.entryAt]
    by_cases hpo : p = m.home (old.keyAt q) + i
    · subst hpo
      rw [Function.update_self, Function.update_self, hc.lruAt _ hlt, if_pos rfl]
      exact ⟨Finset.mem_insert_self _ _, rfl, rfl⟩
    · have hocc := ((hc.occupied p).mp hp).resolve_left hpo
      obtain ⟨h1, h2, h3⟩ := hf p hocc
      rw [Function.update_of_ne hpo, Function.update_of_ne hpo, hc.lruAt _ hocc.1, if_neg hpo]
      exact ⟨Finset.mem_insert_of_mem h1, h2, h3⟩
  · by_cases hpo : p = m.home (old.keyAt q) + i <;> by_cases hpo' : p' = m.home (old.keyAt q) + i
    · rw [hpo, hpo']
    · have hocc := ((hc.occupied p').mp hp').resolve_left hpo'
      rw [hpo, Function.update_self, Function.update_of_ne hpo'] at heq
      exact absurd (heq ▸ (hf p' hocc).1) hq
    · have hocc := ((hc.occupied p).mp hp).resolve_left hpo
      rw [hpo', Function.update_self, Function.update_of_ne hpo] at heq
      exact absurd (heq ▸ (hf p hocc).1) hq
    · rw [Function.update_of_ne hpo, Function.update_of_ne hpo'] at heq
      exact hinj p p' (((hc.occupied p).mp hp).resolve_left hpo)
        (((hc.occupied p').mp hp').resolve_left hpo') heq
  · rw [hcap] at ho
    have hoff : offered old m' (Insert.insert q D) o = offered old m (Insert.insert q D) o := by
      unfold offered
      simp only [hc.home]
    rw [hoff, offered_insert hq]
    split_ifs with heq
    · subst heq
      exact htop
    · rw [hc.kept_ne hm hd ho (Ne.symm heq)]
      exact h.top o hd ho

/-- An entry that is not above those of a full bucket is dropped. -/
theorem Survivors.drop (h : Survivors old m D) (hq : q ∉ D)
    (htop : IsTop T.kernelSize ((old.lruAt q).toNat ::ₘ offered old m D (m.home (old.keyAt q)))
      (m.kept (m.home (old.keyAt q)))) : Survivors old m (Insert.insert q D) := by
  obtain ⟨f, hf, hinj⟩ := h.source
  refine ⟨⟨f, fun p hp => ?_, hinj⟩, fun o hd ho => ?_⟩
  · exact ⟨Finset.mem_insert_of_mem (hf p hp).1, (hf p hp).2⟩
  · rw [offered_insert hq]
    split_ifs with heq
    · subst heq
      exact htop
    · exact h.top o hd ho

omit [Inhabited κ] [Inhabited ν] in
theorem card_kept_lt (hi : i < T.kernelSize) (he : ¬ m.containsAt (o + i) = true) :
    (m.kept o).card < T.kernelSize := by
  unfold kept
  rw [Multiset.card_map]
  refine (Finset.card_lt_card (Finset.filter_ssubset.mpr ?_)).trans_eq (Finset.card_range _)
  exact ⟨i, Finset.mem_range.mpr hi, he⟩

omit [Inhabited κ] [Inhabited ν] in
theorem kept_of_full (hfull : ∀ j < T.kernelSize, m.containsAt (o + j) = true) :
    m.kept o = (Finset.range T.kernelSize).val.map fun j => (m.lruAt (o + j)).toNat := by
  unfold kept
  rw [Finset.filter_true_of_mem fun j hj => hfull j (Finset.mem_range.mp hj)]

/-- One entry is re-inserted. -/
theorem Survivors.reinsert (hold : Inv old) {r : ℕ × ℕ} {l : List (ℕ × ℕ)} {n : ℕ}
    (hr : Refill old (r :: l) (m, n)) (h : Survivors old m D) (hq : r.1 + r.2 ∉ D) :
    Survivors old (reinsert ideal old r.1 r.2 (m, n)).1 (Insert.insert (r.1 + r.2) D) := by
  have hslot := hr.isSlot r List.mem_cons_self
  have hshape : Shape m := hr.shape
  have hs := hshape.isSlot_home (old.keyAt (r.1 + r.2)) (kernelSize_pos T)
  have htop := h.top _ hs.dvd hs.lt
  unfold Cache.reinsert
  dsimp only
  rcases hr.slot_cases (old.keyAt (r.1 + r.2)) with ⟨i, hi, hlt, he⟩ | ⟨hn, hfull⟩
  · rw [hi]
    have hsi := hshape.isSlot_home (old.keyAt (r.1 + r.2)) hlt
    have hc := hshape.copied hold.shape hr.conf_eq hsi hslot
    have hfree : ¬ m.containsAt (m.home (old.keyAt (r.1 + r.2)) + i) = true := fun hocc =>
      ne_empty_of_isHash (occupied_iff.mpr ⟨hshape.add_lt hsi, hocc⟩).isHash he
    refine h.copied hshape hc hq ?_
    rw [hc.kept_free hshape hfree]
    exact htop.grow (card_kept_lt hlt hfree)
  · -- the bucket is full, and its least counter decides
    rw [hn]
    have hfull' : ∀ j < T.kernelSize, m.containsAt (m.home (old.keyAt (r.1 + r.2)) + j) = true :=
      fun j hj => (occupied_iff.mp (hfull j hj)).2
    have hkept := kept_of_full hfull'
    have hcard : (m.kept (m.home (old.keyAt (r.1 + r.2)))).card = T.kernelSize := by
      rw [hkept, Multiset.card_map, Finset.card_val, Finset.card_range]
    have hlen := length_lrus hshape hs.dvd hs.lt
    have hmin := isFirstMin_minLru (l := m.lrus (m.home (old.keyAt (r.1 + r.2))))
      (hlen ▸ kernelSize_pos T)
    rw [hlen] at hmin
    have hlru : ∀ j < T.kernelSize, (m.lrus (m.home (old.keyAt (r.1 + r.2)))).getD j 0 =
        m.lruAt (m.home (old.keyAt (r.1 + r.2)) + j) := fun j hj => by
      rw [lrus_getD hj, lruAt_add hshape (hshape.isSlot_home _ hj)]
    have hleast : ∀ y ∈ m.kept (m.home (old.keyAt (r.1 + r.2))),
        (ideal.minLru (m.lrus (m.home (old.keyAt (r.1 + r.2))))).1.toNat ≤ y := by
      intro y hy
      rw [hkept] at hy
      obtain ⟨j, hj, rfl⟩ := Multiset.mem_map.mp hy
      have hj := Finset.mem_range.mp (Finset.mem_val.mp hj)
      rw [← hlru j hj]
      exact hmin.le j hj
    have hold_lru := lruAt_add hold.shape hslot old
    dsimp only
    split_ifs with hdrop
    · rw [← hold_lru] at hdrop
      exact h.drop hq (htop.skip hcard fun y hy => hdrop.le.trans (hleast y hy))
    · rw [← hold_lru, not_lt] at hdrop
      have hsi := hshape.isSlot_home (old.keyAt (r.1 + r.2)) hmin.lt
      have hc := hshape.copied hold.shape hr.conf_eq hsi hslot
      have hocc := hfull' _ hmin.lt
      have hleast_eq := hmin.eq.trans (hlru _ hmin.lt)
      refine h.copied hshape hc hq ?_
      rw [hc.kept_full hshape hocc, ← hleast_eq]
      refine htop.replace hcard ?_ hleast hdrop
      rw [hkept, hleast_eq]
      exact Multiset.mem_map_of_mem _ (Finset.mem_val.mpr (Finset.mem_range.mpr hmin.lt))

end Step

/-! ### The whole loop -/

section Loop
variable {m old : Cache T ν}

theorem Survivors.run (hold : Inv old) : ∀ (l : List (ℕ × ℕ)) {s : Cache T ν × ℕ} {D : Finset ℕ},
    Refill old l s → Survivors old s.1 D → (l.map fun q => q.1 + q.2).Nodup →
    (∀ q ∈ l, q.1 + q.2 ∉ D) →
    Survivors old (l.foldl (fun s q => Cache.reinsert ideal old q.1 q.2 s) s).1
      (D ∪ (l.map fun q => q.1 + q.2).toFinset)
  | [], s, D, _, h, _, _ => by
      rw [List.map_nil, List.toFinset_nil, Finset.union_empty]
      exact h
  | q :: l, (m, n), D, hr, h, hnodup, hnot => by
      rw [List.map_cons, List.nodup_cons] at hnodup
      have hstep := h.reinsert hold hr (hnot q List.mem_cons_self)
      have hrest := Survivors.run hold l (hr.reinsert hold) hstep hnodup.2 fun q' hq' => ?_
      · rw [List.map_cons, List.toFinset_cons, Finset.union_insert, ← Finset.insert_union]
        exact hrest
      · rw [Finset.mem_insert, not_or]
        refine ⟨fun hc => hnodup.1 ?_, hnot q' (List.mem_cons_of_mem _ hq')⟩
        rw [← hc]
        exact List.mem_map_of_mem hq'

/-- The occupied slots. -/
def occupiedSlots (m : Cache T ν) : Finset ℕ :=
  (Finset.range m.capacity).filter fun q => m.containsAt q = true

omit [Inhabited κ] [Inhabited ν] in
theorem mem_occupiedSlots {q : ℕ} : q ∈ m.occupiedSlots ↔ m.table.Occupied q := by
  unfold occupiedSlots
  rw [Finset.mem_filter, Finset.mem_range, occupied_iff]

omit [Inhabited ν] in
/-- The walk meets every occupied slot once. -/
theorem Inv.walk_positions (h : Inv old) :
    ((walk ideal old (offsets T.kernelSize old.capacity)).map fun q => q.1 + q.2).Nodup ∧
      ((walk ideal old (offsets T.kernelSize old.capacity)).map fun q => q.1 + q.2).toFinset =
        old.occupiedSlots := by
  refine ⟨(nodup_walk old).map_on fun q hq q' hq' heq => ?_, ?_⟩
  · obtain ⟨hs, -⟩ := h.mem_walk.mp hq
    obtain ⟨hs', -⟩ := h.mem_walk.mp hq'
    have hoff := MapType.off_add (T := T.toMapType) hs.dvd hs.idx_lt
    rw [heq, MapType.off_add (T := T.toMapType) hs'.dvd hs'.idx_lt] at hoff
    exact Prod.ext hoff.symm (by omega)
  · ext p
    rw [List.mem_toFinset, List.mem_map, mem_occupiedSlots]
    constructor
    · rintro ⟨q, hq, rfl⟩
      exact (h.mem_walk.mp hq).2
    · intro hp
      obtain ⟨i, hs, heq⟩ := exists_isSlot hp.1
      exact ⟨(T.toMapType.off p, i), h.mem_walk.mpr ⟨hs, heq ▸ hp⟩, heq.symm⟩

omit [Inhabited ν] in
/-- The slots of a bucket are those that its keys map to. -/
theorem Inv.offered_self (h : Inv m) {o : ℕ} (hd : T.kernelSize ∣ o) (ho : o < m.capacity) :
    offered m m m.occupiedSlots o = m.kept o := by
  have hset : m.occupiedSlots.filter (fun q => m.home (m.keyAt q) = o) =
      ((Finset.range T.kernelSize).filter fun i => m.containsAt (o + i) = true).map
        ⟨(o + ·), fun _ _ heq => Nat.add_left_cancel heq⟩ := by
    ext q
    rw [Finset.mem_filter, mem_occupiedSlots, Finset.mem_map]
    constructor
    · rintro ⟨hocc, hhome⟩
      obtain ⟨i, hi, rfl⟩ := MapType.exists_add_of_off_eq ((h.home q hocc).trans hhome)
      exact ⟨i, Finset.mem_filter.mpr ⟨Finset.mem_range.mpr hi, (occupied_iff.mp hocc).2⟩, rfl⟩
    · rintro ⟨i, hi, rfl⟩
      obtain ⟨hi, hocc⟩ := Finset.mem_filter.mp hi
      have hs : m.IsSlot o i := ⟨hd, ho, Finset.mem_range.mp hi⟩
      have hocc : m.table.Occupied (o + i) := occupied_iff.mpr ⟨h.shape.add_lt hs, hocc⟩
      exact ⟨hocc, (h.home _ hocc).symm.trans
        (MapType.off_add (T := T.toMapType) hd hs.idx_lt)⟩
  unfold offered kept
  rw [hset, Finset.map_val, Multiset.map_map]
  rfl

omit [Inhabited κ] [Inhabited ν] in
theorem card_kept_le (m : Cache T ν) (o : ℕ) : (m.kept o).card ≤ T.kernelSize := by
  unfold kept
  rw [Multiset.card_map]
  exact (Finset.card_filter_le _ _).trans_eq (Finset.card_range _)

theorem capacity_foldl (B : BucketOps) (old : Cache T ν) (l : List (ℕ × ℕ)) (s : Cache T ν × ℕ) :
    (l.foldl (fun s q => reinsert B old q.1 q.2 s) s).1.capacity = s.1.capacity := by
  induction l generalizing s with
  | nil => rfl
  | cons q l ih =>
      rw [List.foldl_cons, ih]
      unfold reinsert
      dsimp only
      split
      · rfl
      · split_ifs
        · rfl
        · rfl

/-- What `resize_` keeps. -/
theorem Inv.survivors (h : Inv m) {n : ℕ} (hcap : IsCapacity n) (hmin : m.conf.minCapacity ≤ n) :
    Survivors m (m.resize_ ideal n).2 m.occupiedSlots ∧ (m.resize_ ideal n).2.capacity = n := by
  unfold resize_
  dsimp only
  rw [max_eq_left hmin]
  split_ifs with hn
  · refine ⟨⟨⟨id, fun p hp => ⟨mem_occupiedSlots.mpr hp, rfl, rfl⟩, fun _ _ _ _ heq => heq⟩,
      fun o hd ho => ?_⟩, hn.symm⟩
    rw [h.offered_self hd ho]
    exact IsTop.of_card_le (card_kept_le m o)
  · rw [reinsertAll_eq]
    obtain ⟨hnodup, hset⟩ := h.walk_positions
    have hr := h.refill hcap hmin
    have hfree : ∀ p, ¬ ((m.alloc n).reset).table.Occupied p := by
      rw [(Shape.alloc m hcap (h.kernelSize_le.trans hmin)).2]
      exact Map.reset_not_occupied _
    have hstart : Survivors m (m.alloc n).reset ∅ := by
      refine ⟨⟨id, fun p hp => absurd hp (hfree p), fun p _ hp => absurd hp (hfree p)⟩,
        fun o hd ho => ?_⟩
      have hkept : ((m.alloc n).reset).kept o = 0 := by
        unfold kept
        rw [Finset.filter_false_of_mem]
        · rfl
        · intro i hi hc
          have hs : ((m.alloc n).reset).IsSlot o i := ⟨hd, ho, Finset.mem_range.mp hi⟩
          exact hfree _ (occupied_iff.mpr ⟨hr.shape.add_lt hs, hc⟩)
      rw [hkept]
      exact IsTop.of_card_le (Nat.zero_le _)
    have hrun := hstart.run h _ hr hnodup fun _ _ => Finset.notMem_empty _
    rw [hset, Finset.empty_union] at hrun
    refine ⟨⟨hrun.source, hrun.top⟩, ?_⟩
    exact (capacity_foldl ideal m _ _).trans (capacity_alloc m (h.kernelSize_le.trans hmin))

/-- Masks of two capacities. -/
theorem alignPos_alignPos (x : ℕ) {k c d : ℕ} (hk : k ≤ c) (hd : c ≤ d) :
    alignPos (alignPos x (2 ^ d - 2 ^ k)) (2 ^ c - 2 ^ k) = alignPos x (2 ^ c - 2 ^ k) := by
  unfold alignPos
  rw [PowTwo.land_two_pow_sub _ hk, PowTwo.land_two_pow_sub _ hk,
    PowTwo.land_two_pow_sub _ (hk.trans hd), Nat.mul_div_cancel_left _ (Nat.two_pow_pos k),
    Nat.mod_mod_of_dvd _ (pow_dvd_pow 2 (by omega))]

omit [Inhabited κ] [Inhabited ν] in
/-- In a larger table the entries of a bucket come from one old bucket. -/
theorem home_of_le (hm : Shape m) (hold : Shape old) (hle : old.capacity ≤ m.capacity) (key : κ) :
    old.home key = alignPos (m.home key) old.bucketMask := by
  obtain ⟨c, hkc, -, hc, hcapc, -⟩ := hold.table.exists_pow
  obtain ⟨d, -, -, hd, hcapd, -⟩ := hm.table.exists_pow
  have hpow : 2 ^ c ≤ 2 ^ d := by
    rw [← hcapc, ← hcapd]
    exact hle
  have hcd : c ≤ d := (Nat.pow_le_pow_iff_right (by norm_num)).mp hpow
  change old.bucketMask = _ at hc
  change m.bucketMask = _ at hd
  unfold home
  rw [hc, hd, alignPos_alignPos _ hkc hcd]

omit [Inhabited ν] in
theorem card_offered_le (hm : Shape m) (hold : Inv old) (hle : old.capacity ≤ m.capacity) {o : ℕ} :
    (offered old m old.occupiedSlots o).card ≤ T.kernelSize := by
  unfold offered
  rw [Multiset.card_map, Finset.card_val]
  have hsub : old.occupiedSlots.filter (fun q => m.home (old.keyAt q) = o) ⊆
      (Finset.range T.kernelSize).image (alignPos o old.bucketMask + ·) := by
    intro q hq
    obtain ⟨hocc, hhome⟩ := Finset.mem_filter.mp hq
    have hoff := hold.home q (mem_occupiedSlots.mp hocc)
    rw [home_of_le hm hold.shape hle, hhome] at hoff
    obtain ⟨i, hi, rfl⟩ := MapType.exists_add_of_off_eq hoff
    exact Finset.mem_image_of_mem _ (Finset.mem_range.mpr hi)
  exact (Finset.card_le_card hsub).trans (Finset.card_image_le.trans_eq (Finset.card_range _))

end Loop

section Growing
variable {m m' : Cache T ν}

/-- A larger table has a place for every entry. -/
theorem Survivors.onto (h : Inv m) (hm' : Inv m') (hle : m.capacity ≤ m'.capacity) {f : ℕ → ℕ}
    (hf : ∀ p, m'.table.Occupied p → f p ∈ m.occupiedSlots ∧
      m'.table.entryAt p = m.table.entryAt (f p) ∧ m'.lruAt p = m.lruAt (f p))
    (hinj : ∀ p p', m'.table.Occupied p → m'.table.Occupied p' → f p = f p' → p = p')
    (htop : ∀ o, T.kernelSize ∣ o → o < m'.capacity →
      IsTop T.kernelSize (offered m m' m.occupiedSlots o) (m'.kept o))
    {q : ℕ} (hq : m.table.Occupied q) : ∃ p, m'.table.Occupied p ∧ f p = q := by
  have hs := hm'.shape.isSlot_home (m.keyAt q) (kernelSize_pos T)
  have hocc : ∀ i ∈ (Finset.range T.kernelSize).filter
      (fun i => m'.containsAt (m'.home (m.keyAt q) + i) = true),
      i < T.kernelSize ∧ m'.table.Occupied (m'.home (m.keyAt q) + i) := by
    intro i hi
    obtain ⟨hi, hc⟩ := Finset.mem_filter.mp hi
    have hi := Finset.mem_range.mp hi
    exact ⟨hi, occupied_iff.mpr ⟨hm'.shape.add_lt ⟨hs.dvd, hs.lt, hi⟩, hc⟩⟩
  -- the bucket has as many entries as map to it
  have hcard := (htop _ hs.dvd hs.lt).card_eq
  rw [min_eq_right (card_offered_le hm'.shape h hle)] at hcard
  unfold kept offered at hcard
  rw [Multiset.card_map, Multiset.card_map, Finset.card_val, Finset.card_val] at hcard
  have himage : ((Finset.range T.kernelSize).filter
      fun i => m'.containsAt (m'.home (m.keyAt q) + i) = true).image
        (fun i => f (m'.home (m.keyAt q) + i)) =
      m.occupiedSlots.filter fun p => m'.home (m.keyAt p) = m'.home (m.keyAt q) := by
    refine Finset.eq_of_subset_of_card_le (fun p hp => ?_) ?_
    · obtain ⟨i, hi, rfl⟩ := Finset.mem_image.mp hp
      obtain ⟨hlt, ho⟩ := hocc i hi
      obtain ⟨hmem, he, -⟩ := hf _ ho
      have hkey : m'.keyAt _ = m.keyAt _ := (Prod.mk.inj he).1
      refine Finset.mem_filter.mpr ⟨hmem, ?_⟩
      rw [← hkey, ← hm'.home _ ho, MapType.off_add (T := T.toMapType) hs.dvd hlt]
    · rw [Finset.card_image_of_injOn, hcard]
      intro i hi j hj heq
      have := hinj _ _ (hocc i hi).2 (hocc j hj).2 heq
      omega
  have hmem : q ∈ m.occupiedSlots.filter fun p => m'.home (m.keyAt p) = m'.home (m.keyAt q) :=
    Finset.mem_filter.mpr ⟨mem_occupiedSlots.mpr hq, rfl⟩
  rw [← himage] at hmem
  obtain ⟨i, hi, heq⟩ := Finset.mem_image.mp hmem
  exact ⟨_, (hocc i hi).2, heq⟩

end Growing

/-! ### What a program sees -/

section Reached
variable (B : Kernel T.kernelSize) (conf : Conf T.conf)

/-- A rehash to the capacity `n`: every entry of the new table is an old one; growing keeps all
entries, and in general every bucket keeps those with the largest counters; and the counter of
empty slots is exact. -/
theorem resize_survivors {m : Cache T ν} (hm : (runs B conf).Reachable m) {n : ℕ}
    (hcap : IsCapacity n) (hmin : m.conf.minCapacity ≤ n) :
    (m.resize_ B.ops n).2.capacity = n ∧
      (∃ f : ℕ → ℕ, (∀ p < n, (m.resize_ B.ops n).2.containsAt p = true →
          f p < m.capacity ∧ m.containsAt (f p) = true ∧
          (m.resize_ B.ops n).2.keyAt p = m.keyAt (f p) ∧
          (m.resize_ B.ops n).2.valueAt p = m.valueAt (f p) ∧
          (m.resize_ B.ops n).2.blobAt p = m.blobAt (f p) ∧
          (m.resize_ B.ops n).2.lruAt p = m.lruAt (f p)) ∧
        (∀ p < n, ∀ q < n, (m.resize_ B.ops n).2.containsAt p = true →
          (m.resize_ B.ops n).2.containsAt q = true → f p = f q → p = q) ∧
        (m.capacity ≤ n → ∀ q < m.capacity, m.containsAt q = true →
          ∃ p < n, (m.resize_ B.ops n).2.containsAt p = true ∧ f p = q)) ∧
      (∀ o < n, T.kernelSize ∣ o →
        ((m.resize_ B.ops n).2.kept o).card =
          min T.kernelSize (offered m (m.resize_ B.ops n).2 m.occupiedSlots o).card ∧
        (m.resize_ B.ops n).2.kept o =
          (((offered m (m.resize_ B.ops n).2 m.occupiedSlots o).sort (· ≥ ·)).take T.kernelSize :
            List ℕ)) ∧
      (m.resize_ B.ops n).2.numEmpty =
        countSlots n (· == empty) (m.resize_ B.ops n).2.stateAt := by
  have h := inv_of_reachable B conf hm
  obtain ⟨heq, hinv⟩ := h.rehash_agree B.lawful (Or.inr hcap)
  rw [heq]
  obtain ⟨hs, hn⟩ := h.survivors hcap hmin
  obtain ⟨f, hf, hinj⟩ := hs.source
  have hocc : ∀ p, (m.resize_ ideal n).2.table.Occupied p ↔
      p < n ∧ (m.resize_ ideal n).2.containsAt p = true := fun p => by rw [occupied_iff, hn]
  refine ⟨hn, ⟨f, fun p hp hc => ?_, fun p hp q hq hcp hcq => ?_, fun hle q hq hcq => ?_⟩,
    fun o ho hd => ?_, ?_⟩
  · obtain ⟨hmem, he, hl⟩ := hf p ((hocc p).mpr ⟨hp, hc⟩)
    obtain ⟨hlt, hcont⟩ := occupied_iff.mp (mem_occupiedSlots.mp hmem)
    obtain ⟨hk, he⟩ := Prod.mk.inj he
    obtain ⟨hv, hb⟩ := Prod.mk.inj he
    exact ⟨hlt, hcont, hk, hv, hb, hl⟩
  · exact hinj p q ((hocc p).mpr ⟨hp, hcp⟩) ((hocc q).mpr ⟨hq, hcq⟩)
  · obtain ⟨p, hp, heq⟩ := Survivors.onto h hinv (hle.trans_eq hn.symm) hf hinj hs.top
      (occupied_iff.mpr ⟨hq, hcq⟩)
    obtain ⟨hp, hc⟩ := (hocc p).mp hp
    exact ⟨p, hp, hc, heq⟩
  · have htop := hs.top o hd (lt_of_lt_of_eq ho hn.symm)
    exact ⟨htop.card_eq, htop.eq_take⟩
  · rw [hinv.numEmpty_eq, countSlots_congr fun q hq => table_stateAt _ hq, hn]

/-- Four entries that share a bucket of two slots in the smaller table. -/
theorem resize_survivors_words : ∃ rs m,
    wordExec 1 false [.grow, .insert 0, .insert 4, .insert 8, .insert 12, .findFirst 8] =
      .ok (rs, m) ∧ m.capacity = 16 ∧
      (m.resize_ (Map.wordKernel 1 false).ops 8).2.capacity = 8 ∧
      ∀ o < 8, 2 ∣ o → (m.resize_ (Map.wordKernel 1 false).ops 8).2.kept o =
        (((offered m (m.resize_ (Map.wordKernel 1 false).ops 8).2 m.occupiedSlots o).sort
          (· ≥ ·)).take 2 : List ℕ) := by
  obtain ⟨rs, m, hr, hinv, hf⟩ := exists_wordExec 1 false
    [.grow, .insert 0, .insert 4, .insert 8, .insert 12, .findFirst 8]
    (fun r => (r.2.capacity, r.2.conf.minCapacity)) (16, 8) (by decide +kernel)
  obtain ⟨hcap, hmin⟩ := Prod.mk.inj hf
  have hm := reachable_of_exec (T := wordCache 1 false) (Map.wordKernel 1 false)
    (Map.wordConf 1 false) hr
  obtain ⟨hn, -, htop, -⟩ := resize_survivors (T := wordCache 1 false) (Map.wordKernel 1 false)
    (Map.wordConf 1 false) hm (isCapacity_pow (by decide : 3 ≤ 62)) hmin.le
  exact ⟨rs, m, hr, hcap, hn, fun o ho hd => (htop o ho hd).2⟩

end Reached

end Cache

end Nvhm
