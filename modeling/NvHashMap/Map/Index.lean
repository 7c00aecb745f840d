import NvHashMap.Map.Order

/-! # `operator[]`

`operator[]` of `raw_map_base.hpp`, over a map; `std_map_shim` forwards to it.

* It inserts the key and returns what the arrays of values and blobs hold in the slot.  `insert_`
  writes the key and the state only, so for a new key that is what was left in the slot, the first
  free one of the sequence of the key.
* A table that grows gets new arrays, which are `Blank`, and the copies of a rehash leave the free
  slots so.
* Hence what is returned depends on the table before the call only, by `Leftover`. -/

namespace Nvhm

open Buffer SlotCount

namespace Map
variable {κ ν : Type} {T : MapType κ} [Inhabited κ] [Inhabited ν]

/-! ### The call -/

/-- `mapped_at_`: the value and the blob of a slot. -/
def mappedAt (m : Map T ν) (pos : ℕ) : ν × List Byte := (m.valueAt pos, m.blobAt pos)

/-- `operator[]`. -/
def index (B : BucketOps) (m : Map T ν) (key : κ) : Except Err ((ν × List Byte) × Map T ν) := do
  let ((pos, _, _), m) ← m.insert B key
  .ok (m.mappedAt pos, m)

/-- The initial value, and a blob of zeros. -/
def initial (m : Map T ν) : ν × List Byte := (default, List.replicate m.conf.blobSize 0)

/-- All free slots hold the initial value. -/
def Blank (m : Map T ν) : Prop := ∀ p < m.capacity, ¬ m.Occupied p → m.mappedAt p = m.initial

/-- What the table holds for a new key: the value in the first free slot of its sequence, or the
initial one if the table has to grow. -/
def Leftover (m : Map T ν) (key : κ) (x : ν × List Byte) : Prop :=
  (∃ p, m.isFull = false ∧ m.Takes key p ∧ x = m.mappedAt p) ∨
    (∀ p, ¬ (m.isFull = false ∧ m.Takes key p)) ∧ x = m.initial

/-! ### Slots -/

section Slots
variable {m m' : Map T ν}

theorem mappedAt_eq (m : Map T ν) (p : ℕ) : m.mappedAt p = (m.entryAt p).2 := rfl

omit [Inhabited κ] in
theorem initial_congr (h : m'.conf = m.conf) : m'.initial = m.initial := by
  unfold initial
  rw [h]

omit [Inhabited κ] in
theorem Blank.congr (h : Blank m) (hf : Frame m m') (hocc : ∀ p, m.Occupied p → m'.Occupied p)
    (hm : ∀ p < m.capacity, ¬ m'.Occupied p → m'.mappedAt p = m.mappedAt p) : Blank m' := by
  intro p hp ho
  rw [hf.capacity] at hp
  rw [hm p hp ho, initial_congr hf.conf]
  exact h p hp fun hc => ho (hocc p hc)

/-- New arrays are blank. -/
theorem blank_alloc (m : Map T ν) {n : ℕ} (hn : T.kernelSize ≤ n) : Blank (m.alloc n).reset := by
  intro p hp _
  rw [(reset_frame _).capacity, alloc_capacity m hn] at hp
  have hsize := m.conf.blobSize_le
  have hle : (p + 1) * m.conf.blobStride ≤ n * m.conf.blobStride := Nat.mul_le_mul_right _ hp
  rw [Nat.succ_mul] at hle
  refine Prod.ext ?_ ?_
  · change (List.replicate n (default : ν)).getD p default = default
    rw [List.getD_eq_getElem _ _ (by simpa using hp), List.getElem_replicate]
  · change readAt (List.replicate (n * m.conf.blobStride) 0) (p * m.conf.blobStride)
      m.conf.blobSize = List.replicate m.conf.blobSize 0
    rw [readAt, List.drop_replicate, List.take_replicate, min_eq_left (by omega)]

theorem Blank.copyEntry {old : Map T ν} (h : Blank m) (hm : Shape m) (hold : Shape old)
    (hconf : old.conf = m.conf) {src dst : ℕ} (hsrc : src < old.capacity) (hdst : dst < m.capacity) :
    Blank (m.copyEntry old src dst) := by
  have hf := copyEntry_frame m old src dst
  have hst := copyEntry_stateAt hm hdst old src
  have hentry := copyEntry_entryAt hm hold hconf hsrc hdst
  have hself : (m.copyEntry old src dst).Occupied dst := by
    refine ⟨by rwa [hf.capacity], ?_⟩
    rw [containsAt, hst, Function.update_self]
    exact isHash_keyState T _
  refine h.congr hf (fun q hq => ?_) fun q _ hq => ?_
  · by_cases hqp : q = dst
    · rwa [hqp]
    · exact (occupied_put hf hst hqp).mpr hq
  · have hqp : q ≠ dst := fun hc => hq (hc ▸ hself)
    rw [mappedAt_eq, mappedAt_eq, hentry, Function.update_of_ne hqp]

end Slots

/-! ### Rehashing and inserting -/

section Grow
variable {m m' old : Map T ν}

/-- Re-inserting an entry copies it to some slot. -/
theorem reinsert_copies (hm : Shape m) {pos : ℕ}
    (hr : reinsert ideal old m pos = .ok (some m')) :
    ∃ dst < m.capacity, m' = m.copyEntry old pos dst := by
  suffices hspec : (∃ r, reinsert ideal old m pos = .ok r ∧
      ∀ m', r = some m' → ∃ dst < m.capacity, m' = m.copyEntry old pos dst) ∨
        reinsert ideal old m pos = .error .tableFull ∧ ∃ _ : Unit, True by
    rcases hspec with ⟨r, hr', hcopy⟩ | ⟨he, -⟩
    · exact hcopy m' (Except.ok.inj (hr'.symm.trans hr))
    · cases he.symm.trans hr
  refine probe_cases hm (fun _ _ => True) _ trivial ?_ fun j _ _ _ _ m' hc => by cases hc
  rintro j - - - -
  have ho := hm.visit_add_le (old.keyAt pos) j
  split
  · next i hi =>
      intro m' hm'
      obtain rfl := Option.some.inj hm'
      exact ⟨_, (hm.head_spec ho hi).2.1, rfl⟩
  · exact trivial

theorem reinsertAll_blank (hold : Shape old) {n : ℕ} : ∀ (l : List ℕ) {m : Map T ν}
    {E : Multiset (κ × ν × List Byte)}, Fresh old m n E → Linked m →
    (∀ p ∈ l, p < old.capacity) → l.length + E.card < n → Blank m →
    reinsertAll ideal old l m = .ok (some m') → Blank m'
  | [], m, E, _, _, _, _, hb, hr => by
      obtain rfl := Option.some.inj (Except.ok.inj hr)
      exact hb
  | p :: l, m, E, h, hlink, hl, hlen, hb, hr => by
      rw [List.length_cons] at hlen
      have hp := hl p List.mem_cons_self
      obtain ⟨r, hr', hf⟩ := reinsert_spec hold h hlink (by omega) hp
      rw [reinsertAll, hr', ok_bind] at hr
      cases r with
      | none => cases hr
      | some m₁ =>
          obtain ⟨dst, hdst, rfl⟩ := reinsert_copies h.toShape hr'
          exact reinsertAll_blank hold l hf.1 hf.2 (fun q hq => hl q (List.mem_cons_of_mem p hq))
            (by rw [Multiset.card_cons]; omega)
            (hb.copyEntry h.toShape hold h.conf_eq.symm hp hdst) hr

theorem rehash_blank (hold : Sound old) : ∀ (d : ℕ) {n k : ℕ}, IsCapacity n →
    old.conf.minCapacity ≤ n → old.entries.card < n →
    rehash ideal old d n = .ok (k, m') → Blank m'
  | 0, _, _, _, _, _, hr => by cases hr
  | d + 1, n, k, hcap, hmin, hroom, hr => by
      have hK := (Conf.kernelSize_le hold.conf_valid).trans hmin
      obtain ⟨r, hr', -⟩ := refill_spec hold hcap hmin hroom
      rw [rehash, hr', ok_bind] at hr
      cases r with
      | some m₁ =>
          obtain ⟨-, rfl⟩ := Prod.mk.inj (Except.ok.inj hr)
          refine reinsertAll_blank hold.toShape (old.positions ideal)
            (fresh_alloc hold.conf_valid hcap hmin) (linked_alloc hold.conf_valid hcap hmin)
            (fun p hp => (hold.mem_positions.mp hp).1) ?_ (blank_alloc old hK) hr'
          rw [hold.entries_eq] at hroom
          simpa using hroom
      | none =>
          dsimp only at hr
          split_ifs at hr
          obtain ⟨n₂, hn, hr⟩ := bind_eq_ok.mp hr
          obtain ⟨hcap₂, hle⟩ := isCapacity_shl1 hcap hn
          obtain ⟨rfl, -⟩ := shl1_ok hn
          exact rehash_blank hold d hcap₂ (by omega) (by omega) hr

/-- `resize_` keeps the table, or makes a blank one. -/
theorem resize_blank (h : Exact m) {end_ n : ℕ} (hend : end_ ≤ m.conf.minCapacity ∨ IsCapacity end_)
    (hr : m.resize_ ideal end_ = .ok (n, m')) : m' = m ∨ Blank m' := by
  rw [resize_] at hr
  obtain ⟨n₁, htarget, hr⟩ := bind_eq_ok.mp hr
  split_ifs at hr with hsame
  · obtain ⟨-, rfl⟩ := Prod.mk.inj (Except.ok.inj hr)
    exact Or.inl rfl
  · obtain ⟨⟨n₂, m₂⟩, hrehash, hr⟩ := bind_eq_ok.mp hr
    obtain ⟨-, rfl⟩ := Prod.mk.inj (Except.ok.inj hr)
    rcases resizeTarget_spec h hend with ⟨he, -⟩ | ⟨n', hn', hcap, -, hmin, hroom⟩
    · cases htarget.symm.trans he
    obtain rfl := Except.ok.inj (htarget.symm.trans hn')
    have hthr := Conf.growThreshold_pos h.conf_valid (PowTwo.ceilPow m.entries.card)
    have hb : Blank m₂ := rehash_blank h.toSound 64 hcap hmin (by omega) hrehash
    exact Or.inr fun p hp ho => hb p hp ho

/-- The table in which `insert_` places the key: the given one, or a blank one with its entries. -/
structure Blanked (m m₁ : Map T ν) : Prop where
  exact : Exact m₁
  entries_eq : m₁.entries = m.entries
  conf_eq : m₁.conf = m.conf
  same : m₁ = m ∨ Blank m₁

theorem Blanked.grown (h : Exact m) {end_ n : ℕ} (hend : shl1 m.capacity = .ok end_)
    (hr : m.resize_ ideal end_ = .ok (n, m')) {m₁ : Map T ν} (hb : Blanked m' m₁) :
    Blanked m m₁ := by
  obtain ⟨hrebuilt, -, -⟩ := grown_spec h hend hr
  refine ⟨hb.exact, hb.entries_eq.trans hrebuilt.entries_eq, hb.conf_eq.trans hrebuilt.conf_eq, ?_⟩
  rcases hb.same with rfl | hsame
  · exact resize_blank h (Or.inr (isCapacity_shl1 h.toShape.isCapacity hend).1) hr
  · exact Or.inr hsame

theorem insertLoop_blank {key : κ} {r : ℕ × InsertOp × ProbeSeq} : ∀ (d : ℕ) {m : Map T ν},
    Exact m → insertLoop ideal key d m = .ok (r, m') →
    ∃ m₁, Blanked m m₁ ∧ m₁.Placed key (some (r, m'))
  | 0, _, _, hr => by cases hr
  | d + 1, m, h, hr => by
      obtain ⟨r', hplaced, heq⟩ := insertLoop_succ h key d
      rw [heq] at hr
      cases r' with
      | some r'' =>
          obtain rfl := Except.ok.inj hr
          exact ⟨m, ⟨h, rfl, rfl, Or.inl rfl⟩, hplaced⟩
      | none =>
          dsimp only at hr
          split_ifs at hr
          obtain ⟨end_, hend, hr⟩ := bind_eq_ok.mp hr
          obtain ⟨⟨n, m₁⟩, hres, hr⟩ := bind_eq_ok.mp hr
          obtain ⟨m₂, hb, hplaced⟩ := insertLoop_blank d (grown_spec h hend hres).1.exact hr
          exact ⟨m₂, hb.grown h hend hres, hplaced⟩

theorem insert_blank (h : Exact m) {key : κ} {r : ℕ × InsertOp × ProbeSeq}
    (hr : m.insert ideal key = .ok (r, m')) :
    ∃ m₁, Blanked m m₁ ∧ m₁.Placed key (some (r, m')) := by
  unfold insert at hr
  split_ifs at hr
  · obtain ⟨end_, hend, hr⟩ := bind_eq_ok.mp hr
    obtain ⟨⟨n, m₁⟩, hres, hr⟩ := bind_eq_ok.mp hr
    dsimp only at hr
    split_ifs at hr
    obtain ⟨m₂, hb, hplaced⟩ := insertLoop_blank 64 (grown_spec h hend hres).1.exact hr
    exact ⟨m₂, hb.grown h hend hres, hplaced⟩
  · exact insertLoop_blank 64 h hr

end Grow

/-! ### Main result -/

theorem Exact.entries_eq_zero {m : Map T ν} (h : Exact m) (hsize : m.size = 0) : m.entries = 0 := by
  rw [h.size_eq] at hsize
  exact Multiset.card_eq_zero.mp (Int.ofNat_inj.mp hsize)

theorem Exact.not_stores {m : Map T ν} (h : Exact m) (hsize : m.size = 0) {key : κ} (p : ℕ) :
    ¬ m.Stores key p := by
  intro hp
  obtain ⟨e, he, -⟩ := contains_iff.mpr ⟨p, hp⟩
  rw [h.entries_eq_zero hsize] at he
  exact Multiset.notMem_zero e he

section Main
variable (B : Kernel T.kernelSize) (conf : Conf T.conf)

theorem index_ideal {m : Map T ν} (h : Sound m) (key : κ) :
    m.index B.ops key = m.index ideal key := by
  unfold index
  rw [(insert_agree B.lawful h key).1]

omit [Inhabited κ] in
theorem Leftover.unique {m : Map T ν} {key : κ} {x y : ν × List Byte} (hx : m.Leftover key x)
    (hy : m.Leftover key y) : x = y := by
  rcases hx with ⟨p, hf, hp, rfl⟩ | ⟨hno, rfl⟩
  · rcases hy with ⟨q, -, hq, rfl⟩ | ⟨hno, -⟩
    · rw [hp.toFirstFree.unique hq.toFirstFree]
    · exact absurd ⟨hf, hp⟩ (hno p)
  · rcases hy with ⟨q, hf, hq, -⟩ | ⟨-, rfl⟩
    · exact absurd ⟨hf, hq⟩ (hno q)
    · rfl

/-- `operator[]` returns for a new key what the table holds for it. -/
theorem index_leftover {m m' : Map T ν} (h : Exact m) {key : κ} (hnew : ∀ p, ¬ m.Stores key p)
    {x : ν × List Byte} (hr : m.index B.ops key = .ok (x, m')) : m.Leftover key x := by
  rw [index_ideal B h.toSound] at hr
  obtain ⟨⟨⟨pos, op, q⟩, m₁⟩, hins, hr⟩ := bind_eq_ok.mp hr
  obtain ⟨rfl, rfl⟩ := Prod.mk.inj (Except.ok.inj hr)
  by_cases hcap : m₁.capacity = m.capacity
  · obtain ⟨hfull, htakes, e, rfl⟩ := insert_takes h (fun _ => hnew) hins hcap
    refine Or.inl ⟨pos, hfull, htakes, ?_⟩
    rw [mappedAt_eq, occupy_entryAt_self h.toShape htakes.lt]
    rfl
  · refine Or.inr ⟨fun p hp => hcap (insert_capacity_eq h hp.1 hp.2.ends hins), ?_⟩
    -- the table has grown, and the new arrays are blank
    obtain ⟨m₂, hb, hplaced⟩ := insert_blank h hins
    have hblank : Blank m₂ := by
      refine hb.same.resolve_left ?_
      rintro rfl
      exact hcap hplaced.capacity_eq
    have hnew₂ : ∀ p, ¬ m₂.Stores key p := fun p hp => by
      obtain ⟨q, hq⟩ := contains_iff.mp ((contains_congr hb.entries_eq key).mp
        (contains_iff.mpr ⟨p, hp⟩))
      exact hnew q hq
    rcases hplaced with ⟨-, -, hst, -⟩ | ⟨-, e, hv, rfl⟩
    · exact absurd hst (hnew₂ pos)
    · have hfree : ¬ m₂.Occupied pos := by
        intro hc
        rcases hv.state with ⟨hs, -⟩ | ⟨hs, -⟩
        · exact ne_empty_of_isHash hc.isHash hs
        · exact ne_tombstone_of_isHash hc.isHash hs
      rw [mappedAt_eq, occupy_entryAt_self hb.exact.toShape hv.lt]
      change m₂.mappedAt pos = m.initial
      rw [hblank pos hv.lt hfree, initial_congr hb.conf_eq]

/-- Two maps of one type, after any calls, and a key that is in neither: `operator[]` returns the
same of both if and only if their tables hold the same for the key. -/
theorem index_eq (conf' : Conf T.conf) {P : Map T ν → Op κ ν → Prop} {m m' : Map T ν}
    (hm : (runs B conf P).Reachable m) (hm' : (runs B conf' P).Reachable m') {key : κ}
    (hnew : ∀ p, ¬ m.Stores key p) (hnew' : ∀ p, ¬ m'.Stores key p) {x x' : ν × List Byte}
    {m₁ m₁' : Map T ν} (hr : m.index B.ops key = .ok (x, m₁))
    (hr' : m'.index B.ops key = .ok (x', m₁')) :
    x = x' ↔ ∃ y, m.Leftover key y ∧ m'.Leftover key y := by
  obtain ⟨h, -⟩ := exact_of_reachable B conf hm
  obtain ⟨h', -⟩ := exact_of_reachable B conf' hm'
  have hx := index_leftover B h hnew hr
  have hx' := index_leftover B h' hnew' hr'
  constructor
  · rintro rfl
    exact ⟨x, hx, hx'⟩
  · rintro ⟨y, hy, hy'⟩
    exact (hx.unique hy).trans (hy'.unique hx')

end Main

/-- What `operator[]` returns, from a run with the ideal kernel. -/
theorem exists_index {m : Map (wordMap 1 false) ℕ} (h : Sound m) {key : Fin (2 ^ 64)}
    {v : ℕ × List Byte} (hv : (m.index ideal key).map (fun x => x.1) = .ok v) :
    ∃ x m₁, m.index (wordKernel 1 false).ops key = .ok (x, m₁) ∧ x = v := by
  rw [← index_ideal (wordKernel 1 false) h] at hv
  cases hr : m.index (wordKernel 1 false).ops key with
  | error e =>
      rw [hr] at hv
      cases hv
  | ok r =>
      rw [hr] at hv
      exact ⟨r.1, r.2, rfl, Except.ok.inj hv⟩

/-- An entry is erased, but the table is replaced before the key is inserted again. -/
theorem index_words : ∃ rs m rs' m' x x' m₁ m₁',
    wordExec 1 false [.insert 0, .setValueAt 0 7, .eraseFirst 0, .resize 16] = .ok (rs, m) ∧
      wordExec 1 false [] = .ok (rs', m') ∧ m.index (wordKernel 1 false).ops 0 = .ok (x, m₁) ∧
      m'.index (wordKernel 1 false).ops 0 = .ok (x', m₁') ∧ x = x' ∧
      ∃ y, m.Leftover 0 y ∧ m'.Leftover 0 y := by
  obtain ⟨rs, m, hr, hsound, hf⟩ := exists_wordExec 1 false
    [.insert 0, .setValueAt 0 7, .eraseFirst 0, .resize 16]
    (fun r => ((r.2.index ideal 0).map fun x => x.1, r.2.size)) (.ok (0, []), 0) (by decide +kernel)
  obtain ⟨rs', m', hr', hsound', hf'⟩ := exists_wordExec 1 false []
    (fun r => ((r.2.index ideal 0).map fun x => x.1, r.2.size)) (.ok (0, []), 0) (by decide +kernel)
  obtain ⟨hx, hsize⟩ := Prod.mk.inj hf
  obtain ⟨hx', hsize'⟩ := Prod.mk.inj hf'
  obtain ⟨x, m₁, hi, hv⟩ := exists_index hsound hx
  obtain ⟨x', m₁', hi', hv'⟩ := exists_index hsound' hx'
  have hm := reachable_of_wordExec 1 false (by simp [Op.isScrub]) hr
  have hm' := reachable_of_wordExec 1 false (by simp) hr'
  have hsame : x = x' := hv.trans hv'.symm
  exact ⟨rs, m, rs', m', x, x', m₁, m₁', hr, hr', hi, hi', hsame,
    (index_eq (wordKernel 1 false) (wordConf 1 false) (wordConf 1 false) hm hm'
      ((exact_of_reachable _ _ hm).1.not_stores hsize)
      ((exact_of_reachable _ _ hm').1.not_stores hsize') hi hi').mp hsame⟩

/-- Two histories of an empty map: with one of them, the entry that was erased is back. -/
theorem index_reveals : ∃ rs m rs' m' x x' m₁ m₁',
    wordExec 1 false [.insert 0, .setValueAt 0 7, .eraseFirst 0] = .ok (rs, m) ∧
      wordExec 1 false [] = .ok (rs', m') ∧ m.entries = 0 ∧ m'.entries = 0 ∧
      m.index (wordKernel 1 false).ops 0 = .ok (x, m₁) ∧
      m'.index (wordKernel 1 false).ops 0 = .ok (x', m₁') ∧ x.1 = 7 ∧ x'.1 = 0 := by
  obtain ⟨rs, m, hr, hsound, hf⟩ := exists_wordExec 1 false
    [.insert 0, .setValueAt 0 7, .eraseFirst 0]
    (fun r => ((r.2.index ideal 0).map fun x => x.1, r.2.size)) (.ok (7, []), 0) (by decide +kernel)
  obtain ⟨rs', m', hr', hsound', hf'⟩ := exists_wordExec 1 false []
    (fun r => ((r.2.index ideal 0).map fun x => x.1, r.2.size)) (.ok (0, []), 0) (by decide +kernel)
  obtain ⟨hx, hsize⟩ := Prod.mk.inj hf
  obtain ⟨hx', hsize'⟩ := Prod.mk.inj hf'
  obtain ⟨x, m₁, hi, hv⟩ := exists_index hsound hx
  obtain ⟨x', m₁', hi', hv'⟩ := exists_index hsound' hx'
  obtain ⟨h, -⟩ := exact_of_reachable _ _ (reachable_of_wordExec 1 false (by simp [Op.isScrub]) hr)
  obtain ⟨h', -⟩ := exact_of_reachable _ _ (reachable_of_wordExec 1 false (by simp) hr')
  exact ⟨rs, m, rs', m', x, x', m₁, m₁', hr, hr', h.entries_eq_zero hsize,
    h'.entries_eq_zero hsize', hi, hi', by rw [hv], by rw [hv']⟩

end Map

end Nvhm
