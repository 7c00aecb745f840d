import NvHashMap.Map.Duplicates
import NvHashMap.Map.Change
import NvHashMap.Map.Refinement

/-! # Insertion order

The probe sequence of a key puts the slots of its buckets in an order (`Ahead`).  With duplicates
`insert_` fills the first free slot in this order (`insert_takes`).  Slots that are filled stay so
while a program only inserts, so the first free slot of every key moves on, and the entries of a key
lie in the order in which they were inserted (`Ordered`). -/

namespace Nvhm

open Buffer SlotCount

variable {κ ν : Type} {T : MapType κ}

namespace Map

/-! ### Definitions -/

section Definitions
variable [Inhabited κ] [Inhabited ν]

/-- `find_all`. -/
def findAll (B : BucketOps) (m : Map T ν) (key : κ) : Except Err (List ℕ) := do
  let l ← m.forEachKey B key
  .ok (l.map Prod.fst)

/-- `all_values_for`. -/
def allValuesFor (B : BucketOps) (m : Map T ν) (key : κ) : Except Err (List ν) := do
  let l ← m.forEachKey B key
  .ok (l.map fun x => m.valueAt x.1)

/-- A program that inserts keys one after another, and sets the value of each entry at the position
that `insert` returns. -/
def fill (B : BucketOps) : List (κ × ν) → Map T ν → Except Err (List ℕ × Map T ν)
  | [], m => .ok ([], m)
  | (key, value) :: es, m => do
      let ((pos, _, _), m) ← m.insert B key
      let m ← m.setValueAt pos value
      let (ps, m) ← fill B es m
      .ok (pos :: ps, m)

end Definitions

/-! ### The order of the slots -/

/-- The probe sequence of `key` meets the slot `p` before the slot `q`. -/
def Ahead (m : Map T ν) (key : κ) (p q : ℕ) : Prop :=
  ∃ i < m.numBuckets, ∃ j < m.numBuckets, m.visit key i = T.off p ∧ m.visit key j = T.off q ∧
    (i < j ∨ i = j ∧ p < q)

/-- All slots that the sequence meets before `p` are occupied. -/
def Packed (m : Map T ν) (key : κ) (p : ℕ) : Prop :=
  ∀ q < m.capacity, m.Ahead key q p → m.Occupied q

/-- The first `j` buckets have no free slot. -/
def OccupiedUpTo (m : Map T ν) (key : κ) (j : ℕ) : Prop :=
  ∀ i < j, ∀ d < T.kernelSize, m.Occupied (m.visit key i + d)

/-- The first free slot of the sequence. -/
structure FirstFree (m : Map T ν) (key : κ) (p : ℕ) : Prop where
  lt : p < m.capacity
  free : ¬ m.Occupied p
  near : m.Near key (T.off p)
  packed : m.Packed key p

/-- The slot that `insert_` fills without growing the table: the first free one, if the sequence comes
to an empty slot. -/
structure Takes (m : Map T ν) (key : κ) (p : ℕ) : Prop extends FirstFree m key p where
  ends : ∃ j < m.numBuckets, (seqAt T key j).hasNext T.seq = true ∧ m.HasEmpty (m.visit key j)

theorem Frame.ahead {m m' : Map T ν} (hf : Frame m m') (key : κ) (p q : ℕ) :
    m'.Ahead key p q ↔ m.Ahead key p q := by
  unfold Ahead
  rw [hf.numBuckets]
  simp only [hf.visit]

theorem ahead_congr {m : Map T ν} {a b : κ} (h : T.key.eq a b = true) (p q : ℕ) :
    m.Ahead a p q ↔ m.Ahead b p q := by
  unfold Ahead
  simp only [visit_congr h]

theorem near_congr {m : Map T ν} {a b : κ} (h : T.key.eq a b = true) (o : ℕ) :
    m.Near a o ↔ m.Near b o := by
  unfold Near FullUpTo seqAt
  simp only [visit_congr h, keyPos_congr h]

section Order
variable {m : Map T ν} (h : Shape m)
include h

theorem Ahead.asymm {key : κ} {p q : ℕ} (hpq : m.Ahead key p q) : ¬ m.Ahead key q p := by
  rintro ⟨j', hj', i', hi', hvq', hvp', hlt'⟩
  obtain ⟨i, hi, j, hj, hvp, hvq, hlt⟩ := hpq
  obtain rfl := h.visit_inj hi hi' (hvp.trans hvp'.symm)
  obtain rfl := h.visit_inj hj hj' (hvq.trans hvq'.symm)
  omega

omit h in
/-- Two slots on the sequence of a key come one after the other. -/
theorem ahead_total {key : κ} {p q : ℕ} (hp : m.Near key (T.off p)) (hq : m.Near key (T.off q))
    (hne : p ≠ q) : m.Ahead key p q ∨ m.Ahead key q p := by
  obtain ⟨i, hi, hvp, -, -⟩ := hp
  obtain ⟨j, hj, hvq, -, -⟩ := hq
  rcases Nat.lt_trichotomy i j with hlt | rfl | hlt
  · exact Or.inl ⟨i, hi, j, hj, hvp, hvq, Or.inl hlt⟩
  · rcases Nat.lt_or_gt_of_ne hne with hlt | hlt
    · exact Or.inl ⟨i, hi, i, hj, hvp, hvq, Or.inr ⟨rfl, hlt⟩⟩
    · exact Or.inr ⟨i, hj, i, hi, hvq, hvp, Or.inr ⟨rfl, hlt⟩⟩
  · exact Or.inr ⟨j, hj, i, hi, hvq, hvp, Or.inl hlt⟩

omit h in
theorem OccupiedUpTo.full {key : κ} {j : ℕ} (ho : m.OccupiedUpTo key j) : m.FullUpTo key j := by
  rintro i hi ⟨d, hd, he⟩
  exact ne_empty_of_isHash (ho i hi d hd).isHash he

omit h in
theorem OccupiedUpTo.succ {key : κ} {j : ℕ} (ho : m.OccupiedUpTo key j)
    (hj : ∀ d < T.kernelSize, m.Occupied (m.visit key j + d)) : m.OccupiedUpTo key (j + 1) := by
  intro i hi
  rcases Nat.lt_succ_iff_lt_or_eq.mp hi with hlt | rfl
  · exact ho i hlt
  · exact hj

/-- The first free slot of a bucket, behind buckets without one. -/
theorem OccupiedUpTo.firstFree {key : κ} {j i : ℕ} (ho : m.OccupiedUpTo key j)
    (hj : j < m.numBuckets) (hn : (seqAt T key j).hasNext T.seq = true) (hi : i < T.kernelSize)
    (hfree : ¬ m.Occupied (m.visit key j + i))
    (hbefore : ∀ d < i, m.Occupied (m.visit key j + d)) : m.FirstFree key (m.visit key j + i) := by
  have hoff := MapType.off_add (h.dvd_visit key j) hi
  have hle := h.visit_add_le key j
  refine ⟨by omega, hfree, ⟨j, hj, hoff.symm, hn, ho.full⟩, ?_⟩
  rintro q - ⟨i', hi', j', hj', hvq, hvp, hlt⟩
  obtain rfl := h.visit_inj hj' hj (hvp.trans hoff)
  obtain ⟨d, hd, rfl⟩ := MapType.exists_add_of_off_eq hvq.symm
  rcases hlt with hlt | ⟨rfl, hlt⟩
  · exact ho i' hlt d hd
  · exact hbefore d (by omega)

omit h in
/-- There is one first free slot. -/
theorem FirstFree.unique {key : κ} {p q : ℕ} (hp : m.FirstFree key p) (hq : m.FirstFree key q) :
    p = q := by
  by_contra hne
  rcases ahead_total hp.near hq.near hne with hpq | hqp
  · exact hp.free (hq.packed p hp.lt hpq)
  · exact hq.free (hp.packed q hq.lt hqp)

end Order

/-! ### The slot that `insert_` fills -/

theorem PlacedIn.capacity_le [Inhabited κ] [Inhabited ν] {P : Map T ν → Prop} {m m₁ : Map T ν}
    (h : PlacedIn P m m₁) : m.capacity ≤ m₁.capacity := by
  rcases h.same with rfl | hle
  · exact le_rfl
  · omega

theorem Placed.capacity_eq [Inhabited κ] [Inhabited ν] {m m' : Map T ν} {key : κ}
    {r : ℕ × InsertOp × ProbeSeq} (h : m.Placed key (some (r, m'))) : m'.capacity = m.capacity := by
  obtain ⟨pos, op, q⟩ := r
  rcases h with ⟨-, -, -, rfl⟩ | ⟨-, e, -, rfl⟩
  · rfl
  · rfl

section Insert
variable [Inhabited κ] {m m' : Map T ν} (h : Exact m)
include h

/-- A bucket without a slot in the mask of the free slots is occupied. -/
theorem occupied_of_notHashes {o : ℕ} (ho : o + T.kernelSize ≤ m.capacity)
    (hnone : (ideal.notHashes (m.bucket o)).head? = none) :
    ∀ d < T.kernelSize, m.Occupied (o + d) := by
  intro d hdK
  have hs := (h.slots_bucket_eq_nil (p := (!isHash ·)) ho).mp (List.head?_eq_none_iff.mp hnone) d hdK
  rw [Bool.not_eq_false'] at hs
  exact ⟨by omega, hs⟩

/-- The first slot of the mask of the free slots. -/
theorem firstFree_of_notHashes {key : κ} {j i : ℕ} (ho : m.OccupiedUpTo key j)
    (hj : j < m.numBuckets) (hn : (seqAt T key j).hasNext T.seq = true)
    (hi : (ideal.notHashes (m.bucket (m.visit key j))).head? = some i) :
    m.FirstFree key (m.visit key j + i) := by
  have hle := h.visit_add_le key j
  obtain ⟨hik, hp, hs⟩ := h.head_spec (p := (!isHash ·)) hle hi
  refine ho.firstFree h.toShape hj hn hik (fun hc => ?_) fun d hdi => ?_
  · rw [hc.isHash] at hs
    cases hs
  · have hd := h.not_mask_of_head (p := (!isHash ·)) hle hi d hdi
    rw [Bool.not_eq_false'] at hd
    exact ⟨by omega, hd⟩

/-- The first tombstone of a bucket; such a bucket has no empty slot. -/
theorem firstFree_of_tombstones {key : κ} {j i : ℕ} (ho : m.OccupiedUpTo key j)
    (hj : j < m.numBuckets) (hn : (seqAt T key j).hasNext T.seq = true)
    (hi : (ideal.tombstones (m.bucket (m.visit key j))).head? = some i) :
    m.FirstFree key (m.visit key j + i) := by
  have hle := h.visit_add_le key j
  have hdvd := h.dvd_visit key j
  obtain ⟨hik, hp, hs⟩ := h.head_spec (p := (· == tombstone)) hle hi
  have hstate : m.stateAt (m.visit key j + i) = tombstone := eq_of_beq hs
  refine ho.firstFree h.toShape hj hn hik (fun hc => ?_) fun d hdi => ?_
  · exact ne_tombstone_of_isHash hc.isHash hstate
  · have hd := h.not_mask_of_head (p := (· == tombstone)) hle hi d hdi
    have hlt : m.visit key j + d < m.capacity := by omega
    rcases h.cases_state hlt with he | ht | hocc
    · refine absurd hstate (h.ne_tombstone hp ?_)
      rw [MapType.off_add hdvd hik]
      exact ⟨d, hdi.trans hik, he⟩
    · rw [ht] at hd
      cases hd
    · exact hocc

variable {key : κ} (hnew : T.duplicates = false → ∀ p, ¬ m.Stores key p)
include hnew

/-- Keys are compared in no bucket, or the key is in none. -/
theorem findInBucket_new {o : ℕ} (ho : o + T.kernelSize ≤ m.capacity) :
    m.findInBucket ideal o key = none := by
  have hbucket := h.findInBucket_spec ho key
  cases hfind : m.findInBucket ideal o key with
  | none => rfl
  | some i =>
      rw [hfind] at hbucket
      exact absurd hbucket.2.2 (hnew hbucket.1 _)

theorem insertFresh_takes (ht : m.numTombstone = 0) {r : ℕ × InsertOp × ProbeSeq}
    (hr : insertFresh ideal m key = .ok (some (r, m'))) : m.Takes key r.1 := by
  have hspec : (∃ a, insertFresh ideal m key = .ok a ∧ ∀ x, a = some x →
      m.Takes key x.1.1) ∨ insertFresh ideal m key = .error .tableFull := by
    refine Or.imp id And.left (probe_cases h.toShape (fun j _ => m.OccupiedUpTo key j) _
      (fun _ hi => absurd hi (Nat.not_lt_zero _)) ?_ fun _ _ _ _ _ _ hc => by cases hc)
    intro j _ hj hn ho
    have hle := h.visit_add_le key j
    rw [findInBucket_new h hnew hle]
    dsimp only
    split
    · next hnone => exact ho.succ (occupied_of_notHashes h hle hnone)
    · next i hi =>
        rintro x hx
        obtain rfl := Option.some.inj hx
        obtain ⟨hik, hp, hs⟩ := h.head_spec (p := (!isHash ·)) hle hi
        have hempty := (eq_of_validState (h.state_valid _ hp) (by simpa using hs)).resolve_right
          (h.no_tombstone ht hp)
        exact ⟨firstFree_of_notHashes h ho hj hn hi, j, hj, hn, i, hik, hempty⟩
  rcases hspec with ⟨a, ha, htakes⟩ | he
  · exact htakes _ (Except.ok.inj (ha.symm.trans hr))
  · cases he.symm.trans hr

theorem insertReusing_takes {r : ℕ × InsertOp × ProbeSeq}
    (hr : insertReusing ideal m key = .ok (some (r, m'))) : m.Takes key r.1 := by
  have hspec : (∃ a, insertReusing ideal m key = .ok a ∧ ∀ x, a = some x →
      m.Takes key x.1.1) ∨ insertReusing ideal m key = .error .tableFull := by
    -- the remembered tombstone is the first free slot
    refine Or.imp id And.left (probe_cases h.toShape (fun j insPos =>
      insPos.elim (m.OccupiedUpTo key j) (m.FirstFree key)) _
      (fun _ hi => absurd hi (Nat.not_lt_zero _)) ?_ fun _ _ _ _ _ _ hc => by cases hc)
    intro j insPos hj hn hI
    have hle := h.visit_add_le key j
    rw [findInBucket_new h hnew hle]
    dsimp only
    cases insPos with
    | none =>
        dsimp only at hI ⊢
        split
        · next i hi => exact firstFree_of_tombstones h hI hj hn hi
        · next htomb =>
            split
            · next hnone => exact hI.succ (occupied_of_notHashes h hle hnone)
            · next i hi =>
                rintro x hx
                obtain rfl := Option.some.inj hx
                obtain ⟨hik, hp, hs⟩ := h.head_spec (p := (!isHash ·)) hle hi
                have hnt := (h.slots_bucket_eq_nil (p := (· == tombstone)) hle).mp
                  (List.head?_eq_none_iff.mp htomb) i hik
                have hempty := (eq_of_validState (h.state_valid _ hp)
                  (by simpa using hs)).resolve_right (ne_of_beq_false hnt)
                exact ⟨firstFree_of_notHashes h hI hj hn hi, j, hj, hn, i, hik, hempty⟩
    | some p =>
        dsimp only at hI ⊢
        split
        · exact hI
        · next i hi =>
            rintro x hx
            obtain rfl := Option.some.inj hx
            obtain ⟨hik, -, hs⟩ := h.head_spec (p := (· == empty)) hle hi
            exact ⟨hI, j, hj, hn, i, hik, eq_of_beq hs⟩
  rcases hspec with ⟨a, ha, htakes⟩ | he
  · exact htakes _ (Except.ok.inj (ha.symm.trans hr))
  · cases he.symm.trans hr

section Grow
variable [Inhabited ν]
omit hnew

/-- An insert does not shrink the table. -/
theorem insert_capacity_le {key : κ} {r : ℕ × InsertOp × ProbeSeq}
    (hr : m.insert ideal key = .ok (r, m')) : m.capacity ≤ m'.capacity := by
  obtain ⟨m₁, hp, hplaced⟩ := insert_cases (P := fun _ => False) h hr
  rw [hplaced.capacity_eq]
  exact hp.capacity_le

/-- If the table grows before the key is placed, the capacity changes. -/
theorem insertLoop_grown {end_ n d : ℕ} {key : κ} {m₁ : Map T ν} {r : ℕ × InsertOp × ProbeSeq}
    (hend : shl1 m.capacity = .ok end_) (hres : m.resize_ ideal end_ = .ok (n, m₁))
    (hr : insertLoop ideal key d m₁ = .ok (r, m')) : m'.capacity ≠ m.capacity := by
  obtain ⟨hb, hle, he⟩ := grown_spec h hend hres
  obtain ⟨m₂, hp, hplaced⟩ := insertLoop_cases (P := fun _ => False) d hb.exact he hr
  have hcap := hp.capacity_le
  have hpos := h.toShape.capacity_pos
  rw [hplaced.capacity_eq]
  rw [hb.capacity_eq] at hcap
  omega

include hnew

theorem insertLoop_takes {d : ℕ} {r : ℕ × InsertOp × ProbeSeq}
    (hr : insertLoop ideal key d m = .ok (r, m')) (hcap : m'.capacity = m.capacity) :
    m.Takes key r.1 := by
  cases d with
  | zero => cases hr
  | succ d =>
      rw [insertLoop] at hr
      by_cases ht : m.numTombstone ≠ 0
      · rw [if_pos ht] at hr
        obtain ⟨r', hr', hr⟩ := bind_eq_ok.mp hr
        cases r' with
        | some r'' =>
            obtain rfl := Except.ok.inj hr
            exact insertReusing_takes h hnew hr'
        | none =>
            dsimp only at hr
            split_ifs at hr
            obtain ⟨end_, hend, hr⟩ := bind_eq_ok.mp hr
            obtain ⟨⟨n, m₁⟩, hres, hr⟩ := bind_eq_ok.mp hr
            exact absurd hcap (insertLoop_grown h hend hres hr)
      · rw [if_neg ht] at hr
        obtain ⟨r', hr', hr⟩ := bind_eq_ok.mp hr
        cases r' with
        | some r'' =>
            obtain rfl := Except.ok.inj hr
            exact insertFresh_takes h hnew (not_not.mp ht) hr'
        | none =>
            dsimp only at hr
            split_ifs at hr
            obtain ⟨end_, hend, hr⟩ := bind_eq_ok.mp hr
            obtain ⟨⟨n, m₁⟩, hres, hr⟩ := bind_eq_ok.mp hr
            exact absurd hcap (insertLoop_grown h hend hres hr)

omit hnew in
/-- A table that is not full does not grow if the sequence comes to an empty slot. -/
theorem insert_capacity_eq (hfull : m.isFull = false)
    (hends : ∃ j < m.numBuckets, (seqAt T key j).hasNext T.seq = true ∧ m.HasEmpty (m.visit key j))
    {r : ℕ × InsertOp × ProbeSeq} (hr : m.insert ideal key = .ok (r, m')) :
    m'.capacity = m.capacity := by
  rw [insert, hfull, if_neg Bool.false_ne_true] at hr
  obtain ⟨r', hplaced, heq⟩ := insertLoop_succ h key 63
  rw [heq] at hr
  cases r' with
  | some r'' =>
      obtain rfl := Except.ok.inj hr
      exact hplaced.capacity_eq
  | none =>
      obtain ⟨j, -, hn, hupto⟩ := hplaced
      obtain ⟨j', -, hn', hemp⟩ := hends
      have hle : j ≤ j' := not_lt.mp fun hlt => hupto j' hlt hemp
      rw [hasNext_mono hle hn'] at hn
      cases hn

/-- An insert of a new key that does not grow the table fills the first free slot. -/
theorem insert_takes {r : ℕ × InsertOp × ProbeSeq}
    (hr : m.insert ideal key = .ok (r, m')) (hcap : m'.capacity = m.capacity) :
    m.isFull = false ∧ m.Takes key r.1 ∧ ∃ e, m' = m.occupy r.1 key e := by
  rw [← and_assoc]
  constructor
  · unfold insert at hr
    split_ifs at hr with hfull
    · obtain ⟨end_, hend, hr⟩ := bind_eq_ok.mp hr
      obtain ⟨⟨n, m₁⟩, hres, hr⟩ := bind_eq_ok.mp hr
      dsimp only at hr
      split_ifs at hr
      exact absurd hcap (insertLoop_grown h hend hres hr)
    · exact ⟨Bool.eq_false_of_not_eq_true hfull, insertLoop_takes h hnew hr hcap⟩
  · obtain ⟨m₁, hp, hplaced⟩ := insert_cases (P := fun _ => False) h hr
    have hpos := h.toShape.capacity_pos
    have hcap₁ := hplaced.capacity_eq
    obtain rfl : m₁ = m := hp.same.resolve_right (by omega)
    rcases hplaced with ⟨-, hd, hst, -⟩ | ⟨-, e, -, rfl⟩
    · exact absurd hst (hnew hd _)
    · exact ⟨e, rfl⟩

end Grow

end Insert

/-! ### Runs of inserts -/

section Runs
variable [Inhabited κ] [Inhabited ν]

/-- What a map looks like after inserts into an empty one.  `log` are the positions that the
inserts returned, with the entries, in the order of the inserts. -/
structure Ordered (m : Map T ν) (log : List (ℕ × κ × ν)) : Prop where
  occupied : ∀ p, m.Occupied p ↔ p ∈ log.map Prod.fst
  keyAt : ∀ x ∈ log, m.keyAt x.1 = x.2.1
  valueAt : ∀ x ∈ log, m.valueAt x.1 = x.2.2
  near : ∀ x ∈ log, m.Near x.2.1 (T.off x.1)
  packed : ∀ x ∈ log, m.Packed x.2.1 x.1
  sorted : log.Pairwise fun x y => T.key.eq x.2.1 y.2.1 = true → m.Ahead y.2.1 x.1 y.1

variable {m m' : Map T ν}

theorem ordered_nil (h : ∀ p, ¬ m.Occupied p) : m.Ordered [] where
  occupied p := iff_of_false (h p) List.not_mem_nil
  keyAt _ hx := absurd hx List.not_mem_nil
  valueAt _ hx := absurd hx List.not_mem_nil
  near _ hx := absurd hx List.not_mem_nil
  packed _ hx := absurd hx List.not_mem_nil
  sorted := .nil

/-- Filling the first free slot of a key: the new entry comes behind all entries of the key. -/
theorem Ordered.insert {log : List (ℕ × κ × ν)} (h : m.Ordered log) (hm : Shape m) {key : κ}
    {p : ℕ} (hp : m.FirstFree key p) (hf : Frame m m')
    (hst : m'.stateAt = Function.update m.stateAt p (keyState T key))
    (hk : m'.keyAt = Function.update m.keyAt p key) {value : ν}
    (hv : m'.valueAt = Function.update m.valueAt p value) :
    m'.Ordered (log ++ [(p, key, value)]) := by
  have hocc : ∀ q, m'.Occupied q ↔ m.Occupied q ∨ q = p := by
    intro q
    by_cases hqp : q = p
    · subst hqp
      refine iff_of_true ⟨by rw [hf.capacity]; exact hp.lt, ?_⟩ (Or.inr rfl)
      rw [containsAt, hst, Function.update_self]
      exact isHash_keyState T key
    · rw [occupied_put hf hst hqp, or_iff_left hqp]
  have hnew : ∀ x ∈ log, x.1 ≠ p := by
    rintro x hx rfl
    exact hp.free ((h.occupied _).mpr (List.mem_map_of_mem hx))
  have hnear : ∀ {k : κ} {o : ℕ}, m.Near k o → m'.Near k o :=
    Near.mono hm hf fun o _ => HasEmpty.of_put (ne_empty_of_isHash (isHash_keyState T key)) hst
  have hpacked : ∀ {k : κ} {q : ℕ}, m.Packed k q → m'.Packed k q := by
    intro k q hq s hs hsq
    rw [hf.capacity] at hs
    exact (hocc s).mpr (Or.inl (hq s hs ((hf.ahead k s q).mp hsq)))
  constructor
  · intro q
    rw [hocc, h.occupied, List.map_append, List.mem_append, List.map_singleton,
      List.mem_singleton]
  · intro x hx
    rcases List.mem_append.mp hx with hx | hx
    · rw [hk, Function.update_of_ne (hnew x hx)]
      exact h.keyAt x hx
    · obtain rfl := List.mem_singleton.mp hx
      rw [hk, Function.update_self]
  · intro x hx
    rcases List.mem_append.mp hx with hx | hx
    · rw [hv, Function.update_of_ne (hnew x hx)]
      exact h.valueAt x hx
    · obtain rfl := List.mem_singleton.mp hx
      rw [hv, Function.update_self]
  · intro x hx
    rcases List.mem_append.mp hx with hx | hx
    · exact hnear (h.near x hx)
    · obtain rfl := List.mem_singleton.mp hx
      exact hnear hp.near
  · intro x hx
    rcases List.mem_append.mp hx with hx | hx
    · exact hpacked (h.packed x hx)
    · obtain rfl := List.mem_singleton.mp hx
      exact hpacked hp.packed
  · refine List.pairwise_append.mpr ⟨?_, List.pairwise_singleton _ _, ?_⟩
    · exact h.sorted.imp fun hxy heq => (hf.ahead _ _ _).mpr (hxy heq)
    · intro x hx y hy heq
      obtain rfl := List.mem_singleton.mp hy
      rw [hf.ahead]
      have hx' : m.Near key (T.off x.1) := (near_congr heq _).mp (h.near x hx)
      refine (ahead_total hx' hp.near (hnew x hx)).resolve_right fun hc => hp.free ?_
      exact h.packed x hx _ hp.lt ((ahead_congr heq _ _).mpr hc)

/-- A step of a program that only inserts. -/
theorem fill_cons {key : κ} {value : ν} {es : List (κ × ν)} {ps : List ℕ} (h : Exact m)
    (hr : fill ideal ((key, value) :: es) m = .ok (ps, m')) : ∃ r m₁ ps',
    m.insert ideal key = .ok (r, m₁) ∧ Exact m₁ ∧ m₁.Occupied r.1 ∧
      Exact { m₁ with values := m₁.values.set r.1 value } ∧
      fill ideal es { m₁ with values := m₁.values.set r.1 value } = .ok (ps', m') ∧
      ps = r.1 :: ps' := by
  rw [fill] at hr
  obtain ⟨⟨r, m₁⟩, hins, hr⟩ := bind_eq_ok.mp hr
  obtain ⟨m₂, hset, hr⟩ := bind_eq_ok.mp hr
  obtain ⟨⟨ps', m₃⟩, hfill, hr⟩ := bind_eq_ok.mp hr
  obtain ⟨rfl, rfl⟩ := Prod.mk.inj (Except.ok.inj hr)
  have h₁ := ((insert_changes (P := fun _ => False) h hins).exact h).1
  unfold setValueAt at hset
  split_ifs at hset with hocc
  obtain rfl := Except.ok.inj hset
  exact ⟨r, m₁, ps', hins, h₁, hocc,
    (Change.exact h₁ (.setValue (P := fun _ => False) hocc value)).1, hfill, rfl⟩

theorem fill_capacity_le : ∀ (es : List (κ × ν)) {m : Map T ν} {ps : List ℕ}, Exact m →
    fill ideal es m = .ok (ps, m') → m.capacity ≤ m'.capacity
  | [], m, ps, h, hr => by
      obtain ⟨-, rfl⟩ := Prod.mk.inj (Except.ok.inj hr)
      exact le_rfl
  | (key, value) :: es, m, ps, h, hr => by
      obtain ⟨r, m₁, ps', hins, -, -, h₂, hfill, -⟩ := fill_cons h hr
      have hle := fill_capacity_le es h₂ hfill
      exact (insert_capacity_le h hins).trans hle

/-- What a run of inserts leaves behind, if the capacity is the same at the end. -/
theorem fill_ordered (hd : T.duplicates = true) : ∀ (es : List (κ × ν)) {m : Map T ν}
    {ps : List ℕ} {log : List (ℕ × κ × ν)}, Exact m → m.Ordered log →
    fill ideal es m = .ok (ps, m') → m'.capacity = m.capacity →
    Exact m' ∧ m'.Ordered (log ++ ps.zip es) ∧ ps.length = es.length
  | [], m, ps, log, h, ho, hr, hcap => by
      obtain ⟨rfl, rfl⟩ := Prod.mk.inj (Except.ok.inj hr)
      rw [List.zip_nil_left, List.append_nil]
      exact ⟨h, ho, rfl⟩
  | (key, value) :: es, m, ps, log, h, ho, hr, hcap => by
      obtain ⟨r, m₁, ps', hins, h₁, hocc, h₂, hfill, rfl⟩ := fill_cons h hr
      have hle := fill_capacity_le es h₂ hfill
      have hcap₁ : m₁.capacity = m.capacity := by
        have := insert_capacity_le h hins
        have hle' : m₁.capacity ≤ m'.capacity := hle
        omega
      have hnew : T.duplicates = false → ∀ p, ¬ m.Stores key p := fun hc => by
        rw [hd] at hc
        cases hc
      obtain ⟨-, ⟨hfirst, -⟩, e, rfl⟩ := insert_takes h hnew hins hcap₁
      have hvalue := setValue_valueAt (occupy_shape h.toShape r.1 key e) hfirst.lt value
      have hframe : Frame m { m.occupy r.1 key e with
          values := (m.occupy r.1 key e).values.set r.1 value } := ⟨rfl, rfl, rfl⟩
      have ho' := ho.insert h.toShape hfirst hframe (occupy_stateAt h.toShape hfirst.lt key e)
        (occupy_keyAt h.toShape hfirst.lt key e) hvalue
      obtain ⟨hm', hlog, hlen⟩ := fill_ordered hd es h₂ ho' hfill (hcap.trans hcap₁.symm)
      refine ⟨hm', ?_, by rw [List.length_cons, List.length_cons, hlen]⟩
      rwa [List.append_assoc] at hlog

end Runs

/-! ### The lookups -/

section Lookups
variable [Inhabited κ] {m : Map T ν}

omit [Inhabited κ] in
/-- The search along a sequence that is empty. -/
theorem probe_ended {key : κ} (hn : (seqAt T key 0).hasNext T.seq = false)
    {σ α : Type} {full : Err} {body : ProbeSeq → ℕ → σ → Flow σ α} {exhausted : ProbeSeq → σ → α}
    {s : σ} : m.probe full key body exhausted s = .ok (exhausted (seqAt T key 0) s) := by
  rw [show seqAt T key 0 = initSeq T key from rfl] at hn ⊢
  rw [probe, probeLoop, hn, if_neg Bool.false_ne_true]

/-- The buckets of a sequence give their entries in the order of the sequence. -/
theorem matchesUpTo_ahead (h : Sound m) (key : κ) {n : ℕ} (hn : n ≤ m.numBuckets) :
    ((m.matchesUpTo key n).map Prod.fst).Pairwise (m.Ahead key) := by
  rw [List.pairwise_map, matchesUpTo, List.pairwise_flatMap]
  constructor
  · intro i hi
    have hin := (List.mem_range.mp hi).trans_le hn
    refine (m.matchesAt_sorted key i).imp_of_mem fun hx hy hlt => ?_
    obtain ⟨-, hox, -⟩ := h.mem_matchesAt.mp hx
    obtain ⟨-, hoy, -⟩ := h.mem_matchesAt.mp hy
    exact ⟨i, hin, i, hin, hox.symm, hoy.symm, Or.inr ⟨rfl, hlt⟩⟩
  · refine List.pairwise_lt_range.imp_of_mem fun hi hj hlt x hx y hy => ?_
    obtain ⟨-, hox, -⟩ := h.mem_matchesAt.mp hx
    obtain ⟨-, hoy, -⟩ := h.mem_matchesAt.mp hy
    exact ⟨_, (List.mem_range.mp hi).trans_le hn, _, (List.mem_range.mp hj).trans_le hn, hox.symm,
      hoy.symm, Or.inl hlt⟩

/-- The entries of a key among those that were inserted. -/
def ownEntries (T : MapType κ) (key : κ) (log : List (ℕ × κ × ν)) : List (ℕ × κ × ν) :=
  log.filter fun x => T.key.eq x.2.1 key

variable [Inhabited ν] {log : List (ℕ × κ × ν)} (h : Exact m) (ho : m.Ordered log) {key : κ}
include h ho

omit h in
theorem Ordered.mem_own {p : ℕ} :
    p ∈ (ownEntries T key log).map Prod.fst ↔ m.Stores key p := by
  rw [List.mem_map]
  constructor
  · rintro ⟨x, hx, rfl⟩
    obtain ⟨hx, heq⟩ := List.mem_filter.mp hx
    refine ⟨(ho.occupied _).mpr (List.mem_map_of_mem hx), ?_⟩
    rwa [ho.keyAt x hx]
  · rintro ⟨hocc, heq⟩
    obtain ⟨x, hx, rfl⟩ := List.mem_map.mp ((ho.occupied p).mp hocc)
    rw [ho.keyAt x hx] at heq
    exact ⟨x, List.mem_filter.mpr ⟨hx, heq⟩, rfl⟩

omit h in
theorem Ordered.own_ahead :
    ((ownEntries T key log).map Prod.fst).Pairwise (m.Ahead key) := by
  rw [List.pairwise_map]
  refine (ho.sorted.filter _).imp_of_mem fun hx hy hlt => ?_
  have hx := (List.mem_filter.mp hx).2
  have hy := (List.mem_filter.mp hy).2
  rw [← ahead_congr hy]
  exact hlt (T.key.eq_trans hx (T.key.eq_symm hy))

/-- Up to the stop of its sequence lie the entries of the key, in the order of the inserts. -/
theorem Ordered.matchesUpTo_eq {j : ℕ} (hs : m.StopsAt key j) :
    (m.matchesUpTo key (j + 1)).map Prod.fst = (ownEntries T key log).map Prod.fst := by
  have hirrefl : ∀ p, ¬ m.Ahead key p p := fun p hp => hp.asymm h.toShape hp
  have hup := matchesUpTo_ahead h.toSound key (Nat.succ_le_of_lt hs.lt)
  have hown : ((ownEntries T key log).map Prod.fst).Pairwise (m.Ahead key) := ho.own_ahead
  refine List.Perm.eq_of_pairwise (fun p q _ _ hpq hqp => absurd hqp (hpq.asymm h.toShape)) hup
    hown ((List.perm_ext_iff_of_nodup ?_ ?_).mpr fun p => ?_)
  · exact hup.imp fun hpq => fun heq => hirrefl _ (heq ▸ hpq)
  · exact hown.imp fun hpq => fun heq => hirrefl _ (heq ▸ hpq)
  · rw [h.mem_matchesUpTo, ho.mem_own]
    refine and_iff_left_of_imp fun hst => ?_
    obtain ⟨x, hx, rfl⟩ := List.mem_map.mp ((ho.mem_own).mpr hst)
    obtain ⟨hx, heq⟩ := List.mem_filter.mp hx
    obtain ⟨i, -, hv, hn, hfull⟩ := (near_congr heq _).mp (ho.near x hx)
    exact ⟨i, Nat.lt_succ_of_le (hs.le_of_next hn hfull), hv⟩

omit h in
/-- A key with an empty probe sequence has no entries. -/
theorem Ordered.own_eq_nil (hn : (seqAt T key 0).hasNext T.seq = false) :
    ownEntries T key log = [] := by
  rw [List.eq_nil_iff_forall_not_mem]
  intro x hx
  obtain ⟨hx, heq⟩ := List.mem_filter.mp hx
  obtain ⟨i, -, -, hnext, -⟩ := (near_congr heq _).mp (ho.near x hx)
  rw [hasNext_mono (Nat.zero_le i) hnext] at hn
  cases hn

theorem Ordered.forEachKey_eq (hd : T.duplicates = true) : ∃ l, m.forEachKey ideal key = .ok l ∧
    l.map Prod.fst = (ownEntries T key log).map Prod.fst := by
  obtain ⟨e, he, hemp⟩ := h.exists_empty
  rcases h.toShape.exists_stopsAt he hemp key with hn | ⟨j, hs⟩
  · refine ⟨[], ?_, by rw [ho.own_eq_nil hn]; rfl⟩
    exact probe_ended hn
  · exact ⟨_, forEachKey_stop h.toSound hs he hemp hd, ho.matchesUpTo_eq h hs⟩

theorem Ordered.enumerate_eq (hd : T.duplicates = true) : ∃ l, m.enumerate ideal key = .ok l ∧
    l.map Prod.fst = (ownEntries T key log).map Prod.fst := by
  obtain ⟨e, he, hemp⟩ := h.exists_empty
  rcases h.toShape.exists_stopsAt he hemp key with hn | ⟨j, hs⟩
  · refine ⟨[], ?_, by rw [ho.own_eq_nil hn]; rfl⟩
    have hr : m.locateFirst ideal key = .ok (none, seqAt T key 0) := probe_ended hn
    rw [enumerate, findFirst, hr]
    rfl
  · refine ⟨_, (enumerate_spec h.toSound hs he hemp hd).1 fun hst => ?_, ho.matchesUpTo_eq h hs⟩
    have hK := T.kernelSize_pos
    have hdvd := h.dvd_visit key j
    have hle := h.visit_add_le key j
    -- the bucket is filled from its first slot on, so the stop is the end of the sequence
    have hnone : ¬ m.HasEmpty (m.visit key j) := by
      rintro ⟨d, hdK, hde⟩
      obtain ⟨x, hx, hxp⟩ := List.mem_map.mp ((ho.mem_own).mpr hst)
      obtain ⟨hx, heq⟩ := List.mem_filter.mp hx
      have hocc : m.Occupied (m.visit key j + d) := by
        by_cases hlast : d = T.kernelSize - 1
        · rw [hlast]
          exact hst.1
        · refine ho.packed x hx _ (by omega) ((ahead_congr heq _ _).mpr ?_)
          rw [hxp]
          exact ⟨j, hs.lt, j, hs.lt, (MapType.off_add hdvd hdK).symm,
            (MapType.off_add hdvd (by omega)).symm, Or.inr ⟨rfl, by omega⟩⟩
      exact ne_empty_of_isHash hocc.isHash hde
    have hend := hs.stop.resolve_left hnone
    rw [locateNext_visit h.toSound hs le_rfl (by omega), if_pos le_rfl, hend,
      if_neg Bool.false_ne_true]
    exact ⟨_, rfl⟩

omit h in
theorem Ordered.values_eq {l : List (ℕ × ProbeSeq)}
    (hl : l.map Prod.fst = (ownEntries T key log).map Prod.fst) :
    l.map (fun x => m.valueAt x.1) = (ownEntries T key log).map fun x => x.2.2 := by
  have hmap := congrArg (List.map m.valueAt) hl
  rw [List.map_map, List.map_map] at hmap
  refine hmap.trans (List.map_congr_left fun x hx => ?_)
  exact ho.valueAt x (List.mem_filter.mp hx).1

end Lookups

/-! ### Main result -/

section Main
variable [Inhabited κ] [Inhabited ν] (B : Kernel T.kernelSize) (conf : Conf T.conf)

theorem fill_agree : ∀ (es : List (κ × ν)) {m : Map T ν}, Sound m →
    Agree (fill B.ops es m) (fill ideal es m) fun r => Sound r.2
  | [], m, h => Agree.ok h
  | (key, value) :: es, m, h => by
      rw [fill, fill]
      refine (insert_agree B.lawful h key).bind fun r hr => ?_
      refine (Agree.of_error_or fun m₂ hm₂ => setValueAt_good hr.sound hm₂).bind fun m₂ hm₂ => ?_
      exact (fill_agree es hm₂.sound).bind fun r' hr' => Agree.ok hr'

/-- With duplicates, the entries of every key are listed in the order in which they were inserted:
by `for_each`, `find_all`, `all_values_for`, and `find_first` with repeated `find_next`.  The run
starts at an empty map, whatever happened to it before, and does not change the capacity. -/
theorem insertion_order (hd : T.duplicates = true) {P : Map T ν → Op κ ν → Prop} {m₀ m : Map T ν}
    (hm : (runs B conf P).Reachable m₀) (hempty : m₀.size = 0) {es : List (κ × ν)} {ps : List ℕ}
    (hr : fill B.ops es m₀ = .ok (ps, m)) (hcap : m.capacity = m₀.capacity) :
    ps.length = es.length ∧ ∀ key,
      (∃ l, m.forEachKey B.ops key = .ok l ∧
        l.map Prod.fst = (ownEntries T key (ps.zip es)).map Prod.fst) ∧
      m.findAll B.ops key = .ok ((ownEntries T key (ps.zip es)).map Prod.fst) ∧
      m.allValuesFor B.ops key =
        .ok ((es.filter fun x => T.key.eq x.1 key).map Prod.snd) ∧
      ∃ l, m.enumerate B.ops key = .ok l ∧
        l.map Prod.fst = (ownEntries T key (ps.zip es)).map Prod.fst := by
  obtain ⟨h₀, -⟩ := exact_of_reachable B conf hm
  have hnone : ∀ p, ¬ m₀.Occupied p := by
    intro p hp
    rw [h₀.size_eq, Nat.cast_eq_zero, Multiset.card_eq_zero] at hempty
    exact Multiset.notMem_zero _ (hempty ▸ mem_entries.mpr ⟨p, hp, rfl⟩)
  obtain ⟨heq, -⟩ := fill_agree B es h₀.toSound
  rw [heq] at hr
  obtain ⟨h, ho, hlen⟩ := fill_ordered hd es h₀ (ordered_nil hnone) hr hcap
  rw [List.nil_append] at ho
  refine ⟨hlen, fun key => ?_⟩
  obtain ⟨l, hl, hls⟩ : ∃ l, m.forEachKey ideal key = .ok l ∧
      l.map Prod.fst = (ownEntries T key (ps.zip es)).map Prod.fst := ho.forEachKey_eq h hd
  have hsnd : (ownEntries T key (ps.zip es)).map (fun x => x.2.2) =
      (es.filter fun x => T.key.eq x.1 key).map Prod.snd := by
    have hzip : (ps.zip es).map Prod.snd = es := List.map_snd_zip hlen.ge
    rw [← congrArg (List.filter fun x => T.key.eq x.1 key) hzip, List.filter_map, List.map_map]
    rfl
  rw [findAll, allValuesFor, Map.forEachKey_eq B.lawful h.toSound, hl, ok_bind, ok_bind, hls,
    ho.values_eq hls, hsnd, Map.enumerate_eq B.lawful h.toSound]
  exact ⟨⟨l, rfl, hls⟩, rfl, rfl, ho.enumerate_eq h hd⟩

end Main

/-- Five inserts into a map that held an entry before: key 0 three times, between keys 8 and 1. -/
theorem insertion_order_words : ∃ rs m₀ ps m,
    wordExec 1 true [.insert 0, .insert 0, .eraseFirst 0, .eraseFirst 0] = .ok (rs, m₀) ∧
      fill (wordKernel 1 true).ops [(0, 10), (8, 20), (0, 30), (1, 40), (0, 50)] m₀ = .ok (ps, m) ∧
      ps = [0, 1, 2, 3, 4] ∧
      m.allValuesFor (wordKernel 1 true).ops 0 = .ok [10, 30, 50] ∧
      m.findAll (wordKernel 1 true).ops 0 = .ok [0, 2, 4] := by
  obtain ⟨rs, m₀, hr, hsound, hf⟩ := exists_wordExec 1 true
    [.insert 0, .insert 0, .eraseFirst 0, .eraseFirst 0]
    (fun r => (r.2.size, r.2.capacity, (fill ideal [(0, 10), (8, 20), (0, 30), (1, 40), (0, 50)]
      r.2).map fun r => (r.1, r.2.capacity)))
    (0, 8, .ok ([0, 1, 2, 3, 4], 8)) (by decide +kernel)
  obtain ⟨hsize, hf⟩ := Prod.mk.inj hf
  obtain ⟨hcap, hf⟩ := Prod.mk.inj hf
  cases hfill : fill ideal [(0, 10), (8, 20), (0, 30), (1, 40), (0, 50)] m₀ with
  | error e =>
      rw [hfill] at hf
      cases hf
  | ok r =>
      obtain ⟨ps, m⟩ := r
      rw [hfill] at hf
      obtain ⟨rfl, hcap'⟩ := Prod.mk.inj (Except.ok.inj hf)
      have hrun := (fill_agree (wordKernel 1 true) _ hsound).1.trans hfill
      obtain ⟨-, hkeys⟩ := insertion_order (wordKernel 1 true) (wordConf 1 true) rfl
        (reachable_of_wordExec 1 true (by simp [Op.isScrub]) hr) hsize hrun (hcap'.trans hcap.symm)
      obtain ⟨-, hall, hvalues, -⟩ := hkeys 0
      exact ⟨rs, m₀, _, m, hr, hrun, rfl, hvalues, hall⟩

end Map

end Nvhm
