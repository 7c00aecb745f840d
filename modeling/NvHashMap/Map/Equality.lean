import NvHashMap.Map.Order

/-! # Comparing maps

`operator==` of `swiss_map_base.hpp`, for maps without duplicates.

* It compares the sizes, and then searches the left map for an entry whose key is not in the right
  one, or with another value or blob there.
* `Valid.findFirst_complete`: also with a sequence that ends, a lookup finds every stored key.
* The keys of the left map are distinct, so if all of them are found the right map has at least as
  many entries (`card_le_of_found`); as the sizes are equal it has no others. -/

namespace Nvhm

open Buffer SlotCount

namespace Map
variable {κ ν : Type} {T : MapType κ} [Inhabited κ] [Inhabited ν]

/-! ### `operator==` -/

section Defs
variable [BEq ν] (B : BucketOps) (lhs rhs : Map T ν)

/-- The predicate of the search: the entry at `lPos` has no equal one in the right map. -/
def differs (lPos : ℕ) : Except Err Bool := do
  let (r, _) ← rhs.findFirst B (lhs.keyAt lPos)
  match r with
  | none => .ok true
  | some rPos =>
      if !T.key.eq (lhs.keyAt lPos) (rhs.keyAt rPos) then .ok true
      else if lhs.valueAt lPos != rhs.valueAt rPos then .ok true
      else .ok (lhs.blobAt lPos != readAt rhs.blobs (rPos * rhs.conf.blobStride) lhs.conf.blobSize)

/-- `find_if_` with that predicate, over the given positions. -/
def findDiffering : List ℕ → Except Err (Option ℕ)
  | [] => .ok none
  | pos :: ps => do
      if ← differs B lhs rhs pos then .ok (some pos) else findDiffering ps

/-- `operator==`; `same` says that both sides are the same object. -/
def equal (same : Bool) : Except Err Bool :=
  if same then .ok true
  else if lhs.size ≠ rhs.size then .ok false
  else if lhs.conf.blobSize ≠ rhs.conf.blobSize then .ok false
  else do
    let pos ← findDiffering B lhs rhs (lhs.positions B)
    .ok pos.isNone

end Defs

/-- The finite map that a table stands for: the value and the blob of a key. -/
def lookup (m : Map T ν) (key : κ) : Option (ν × List Byte) :=
  ((m.positions ideal).find? fun p => T.key.eq (m.keyAt p) key).map fun p =>
    (m.valueAt p, m.blobAt p)

section Lookup
variable {m : Map T ν}

theorem lookup_of_stores (h : Sound m) (hu : m.Unique) {key : κ} {p : ℕ} (hp : m.Stores key p) :
    m.lookup key = some (m.valueAt p, m.blobAt p) := by
  unfold lookup
  cases hf : (m.positions ideal).find? fun p => T.key.eq (m.keyAt p) key with
  | none =>
      have hn := List.find?_eq_none.mp hf p (h.mem_positions.mpr hp.1)
      exact absurd hp.2 hn
  | some q =>
      have hq : m.Occupied q := h.mem_positions.mp (List.mem_of_find?_eq_some hf)
      have heq : T.key.eq (m.keyAt q) key = true :=
        List.find?_some (p := fun p => T.key.eq (m.keyAt p) key) hf
      obtain rfl := hu q p hq hp.1 (T.key.eq_trans heq (T.key.eq_symm hp.2))
      rfl

theorem lookup_isSome (h : Sound m) {key : κ} :
    (m.lookup key).isSome = true ↔ ∃ p, m.Stores key p := by
  unfold lookup
  rw [Option.isSome_map, List.find?_isSome]
  exact ⟨fun ⟨p, hp, heq⟩ => ⟨p, h.mem_positions.mp hp, heq⟩,
    fun ⟨p, hp⟩ => ⟨p, h.mem_positions.mpr hp.1, hp.2⟩⟩

end Lookup

/-! ### Lookups -/

omit [Inhabited κ] [Inhabited ν] in
/-- A search that has passed an empty slot or the end of the sequence has passed the buckets that
the key is near. -/
theorem Near.visited {m : Map T ν} {key : κ} {o n : ℕ} (h : m.Near key o)
    (hstop : (seqAt T key n).hasNext T.seq = false ∨ ∃ i < n, m.HasEmpty (m.visit key i)) :
    ∃ i < n, m.visit key i = o := by
  obtain ⟨i, -, hv, hn, hfull⟩ := h
  refine ⟨i, ?_, hv⟩
  by_contra hc
  rcases hstop with hend | ⟨k, hk, hemp⟩
  · rw [hasNext_mono (not_lt.mp hc) hn] at hend
    cases hend
  · exact hfull k (by omega) hemp

omit [Inhabited ν] in
/-- A lookup returns a slot of the key, or the key is near none of its slots. -/
theorem Exact.findFirst_near {m : Map T ν} (h : Exact m) (key : κ) :
    ∃ r q, m.findFirst ideal key = .ok (r, q) ∧ match r with
      | some p => m.Stores key p ∧ m.Near key (T.off p)
      | none => ∀ p, m.Stores key p → ¬ m.Near key (T.off p) := by
  obtain ⟨e, he, hempty⟩ := h.exists_empty
  have hmiss : ∀ j, m.NoMatchUpTo key j →
      ((seqAt T key j).hasNext T.seq = false ∨ ∃ i < j, m.HasEmpty (m.visit key i)) →
      ∀ p, m.Stores key p → ¬ m.Near key (T.off p) := by
    intro j hno hstop p hp hnear
    obtain ⟨i, hij, hv⟩ := hnear.visited hstop
    obtain ⟨d, hd, rfl⟩ := MapType.exists_add_of_off_eq hv.symm
    exact hno i hij d hd hp
  suffices hspec : ∃ a, m.locateFirst ideal key = .ok a ∧ match a.1.map Prod.fst with
      | some p => m.Stores key p ∧ m.Near key (T.off p)
      | none => ∀ p, m.Stores key p → ¬ m.Near key (T.off p) by
    obtain ⟨⟨r, q⟩, hr, hmatch⟩ := hspec
    refine ⟨r.map Prod.fst, q, ?_, hmatch⟩
    rw [findFirst, hr]
    rfl
  refine (probe_cases h.toShape (fun j _ => m.FullUpTo key j ∧ m.NoMatchUpTo key j) _
    ⟨fullUpTo_zero m key, fun _ hi => absurd hi (Nat.not_lt_zero _)⟩ ?_ ?_).resolve_right
      fun hc => ?_
  · rintro j - hj hn ⟨hfull, hno⟩
    have ho := h.visit_add_le key j
    have hmatch := h.firstMatch_spec ho key
    dsimp only
    split
    · next i hi =>
        rw [hi] at hmatch
        exact ⟨hmatch.2, j, hj, (MapType.off_add (h.dvd_visit key j) hmatch.1).symm, hn, hfull⟩
    · next hi =>
        rw [hi] at hmatch
        split_ifs with hb
        · exact hmiss (j + 1) (hno.succ hmatch)
            (Or.inr ⟨j, Nat.lt_succ_self j, (h.toShape.hasEmpty_iff ho).mp hb⟩)
        · exact ⟨hfull.succ fun hc => hb ((h.toShape.hasEmpty_iff ho).mpr hc), hno.succ hmatch⟩
  · exact fun j _ _ hn hI => hmiss j hI.2 (Or.inl hn)
  · obtain ⟨-, _, hfull, -⟩ := hc
    exact h.toShape.not_all_full he hempty key hfull

omit [Inhabited ν] in
theorem Valid.near_of_stores {m : Map T ν} (h : Valid m) {key : κ} {p : ℕ} (hp : m.Stores key p) :
    m.Near key (T.off p) := (near_congr hp.2 _).mp (h.near p hp.1)

omit [Inhabited ν] in
/-- A lookup returns a slot of the key, or the key is not stored. -/
theorem Valid.findFirst_complete {m : Map T ν} (h : Valid m) (key : κ) :
    ∃ r q, m.findFirst ideal key = .ok (r, q) ∧ match r with
      | some p => m.Stores key p
      | none => ∀ p, ¬ m.Stores key p := by
  obtain ⟨r, q, hr, hmatch⟩ := h.exact.findFirst_near key
  refine ⟨r, q, hr, ?_⟩
  cases r with
  | some p => exact hmatch.1
  | none => exact fun p hp => hmatch p hp (h.near_of_stores hp)

/-! ### Counting keys -/

omit [Inhabited ν] in
/-- The slots of the right map with a key of the left one. -/
theorem exists_slots {lhs rhs : Map T ν} (hl : lhs.Unique)
    (h : ∀ p, lhs.Occupied p → ∃ q, rhs.Stores (lhs.keyAt p) q) :
    ∃ s ⊆ (Finset.range rhs.capacity).filter fun q => rhs.containsAt q = true,
      s.card = ((Finset.range lhs.capacity).filter fun p => lhs.containsAt p = true).card ∧
      ∀ q ∈ s, ∃ p, lhs.Stores (rhs.keyAt q) p := by
  have hocc : ∀ p, p ∈ (Finset.range lhs.capacity).filter (fun p => lhs.containsAt p = true) ↔
      lhs.Occupied p := fun p => by rw [Finset.mem_filter, Finset.mem_range, Occupied]
  choose! f hf using h
  refine ⟨((Finset.range lhs.capacity).filter fun p => lhs.containsAt p = true).image f,
    fun q hq => ?_, Finset.card_image_of_injOn fun p hp p' hp' heq => ?_, fun q hq => ?_⟩
  · obtain ⟨p, hp, rfl⟩ := Finset.mem_image.mp hq
    have hs := hf p ((hocc p).mp hp)
    rw [Finset.mem_filter, Finset.mem_range]
    exact hs.1
  · have hs := hf p ((hocc p).mp hp)
    have hs' := hf p' ((hocc p').mp hp')
    rw [← heq] at hs'
    exact hl p p' ((hocc p).mp hp) ((hocc p').mp hp') (T.key.eq_trans (T.key.eq_symm hs.2) hs'.2)
  · obtain ⟨p, hp, rfl⟩ := Finset.mem_image.mp hq
    exact ⟨p, (hocc p).mp hp, T.key.eq_symm (hf p ((hocc p).mp hp)).2⟩

/-- The number of occupied slots. -/
theorem Exact.size_eq_card {m : Map T ν} (h : Exact m) :
    m.size = ((Finset.range m.capacity).filter fun p => m.containsAt p = true).card := by
  rw [h.size_eq, entries, card_collect]

theorem size_le_of_found {lhs rhs : Map T ν} (hl : Exact lhs) (hr : Exact rhs)
    (hu : lhs.Unique) (h : ∀ p, lhs.Occupied p → ∃ q, rhs.Stores (lhs.keyAt p) q) :
    lhs.size ≤ rhs.size := by
  obtain ⟨s, hs, hcard, -⟩ := exists_slots hu h
  have hle := Finset.card_le_card hs
  rw [hl.size_eq_card, hr.size_eq_card]
  omega

/-- If the sizes are equal as well, the right map has no other keys. -/
theorem found_of_size_eq {lhs rhs : Map T ν} (hl : Exact lhs) (hr : Exact rhs) (hu : lhs.Unique)
    (h : ∀ p, lhs.Occupied p → ∃ q, rhs.Stores (lhs.keyAt p) q) (hsize : lhs.size = rhs.size)
    {q : ℕ} (hq : rhs.Occupied q) : ∃ p, lhs.Stores (rhs.keyAt q) p := by
  obtain ⟨s, hs, hcard, hall⟩ := exists_slots hu h
  rw [hl.size_eq_card, hr.size_eq_card, ← hcard] at hsize
  have heq := Finset.eq_of_subset_of_card_le hs (by omega)
  refine hall q ?_
  rw [heq, Finset.mem_filter, Finset.mem_range]
  exact hq

/-! ### Extensionality -/

section Equal
variable [BEq ν] [LawfulBEq ν] {lhs rhs : Map T ν}

/-- The entry at a position differs unless the right map has it as well. -/
theorem differs_spec (hr : Valid rhs) (hu : rhs.Unique)
    (hsize : lhs.conf.blobSize = rhs.conf.blobSize) (p : ℕ) :
    ∃ b, differs ideal lhs rhs p = .ok b ∧
      (b = false ↔ rhs.lookup (lhs.keyAt p) = some (lhs.valueAt p, lhs.blobAt p)) := by
  obtain ⟨r, q, hfind, hmatch⟩ := hr.findFirst_complete (lhs.keyAt p)
  unfold differs
  rw [hfind, ok_bind]
  cases r with
  | none =>
      refine ⟨true, rfl, iff_of_false (by decide) fun hl => ?_⟩
      have hsome : (rhs.lookup (lhs.keyAt p)).isSome = true := by rw [hl]; rfl
      obtain ⟨q, hq⟩ := (lookup_isSome hr.toSound).mp hsome
      exact hmatch q hq
  | some pos =>
      have hkey : T.key.eq (lhs.keyAt p) (rhs.keyAt pos) = true := T.key.eq_symm hmatch.2
      rw [lookup_of_stores hr.toSound hu hmatch]
      dsimp only
      rw [hkey, hsize, if_neg (by decide), Option.some_inj, Prod.mk.injEq]
      by_cases hv : lhs.valueAt p = rhs.valueAt pos
      · rw [if_neg (by rw [hv, bne_self_eq_false]; decide)]
        refine ⟨_, rfl, ?_⟩
        rw [bne_eq_false_iff_eq]
        exact ⟨fun hb => ⟨hv.symm, hb.symm⟩, fun hb => hb.2.symm⟩
      · rw [if_pos (bne_iff_ne.mpr hv)]
        exact ⟨true, rfl, iff_of_false (by decide) fun hb => hv hb.1.symm⟩

/-- The search ends, without a result if the right map has all entries. -/
theorem findDiffering_spec (hr : Valid rhs) (hu : rhs.Unique)
    (hsize : lhs.conf.blobSize = rhs.conf.blobSize) : ∀ ps : List ℕ,
    ∃ r, findDiffering ideal lhs rhs ps = .ok r ∧ (r = none ↔
      ∀ p ∈ ps, rhs.lookup (lhs.keyAt p) = some (lhs.valueAt p, lhs.blobAt p))
  | [] => ⟨none, rfl, by simp⟩
  | p :: ps => by
      obtain ⟨b, hb, hiff⟩ := differs_spec hr hu hsize p
      obtain ⟨r, hr', hiff'⟩ := findDiffering_spec hr hu hsize ps
      rw [findDiffering, hb, ok_bind]
      cases b with
      | true =>
          refine ⟨some p, rfl, iff_of_false (by simp) fun hall => ?_⟩
          have := hiff.mpr (hall p List.mem_cons_self)
          cases this
      | false =>
          refine ⟨r, hr', hiff'.trans ?_⟩
          rw [List.forall_mem_cons]
          exact ⟨fun hall => ⟨hiff.mp rfl, hall⟩, fun hall => hall.2⟩

omit [BEq ν] [LawfulBEq ν] in
/-- The same finite map, seen from the entries of the left table. -/
theorem lookup_eq_iff (hl : Exact lhs) (hr : Exact rhs) (hul : lhs.Unique) (hur : rhs.Unique) :
    (∀ key, lhs.lookup key = rhs.lookup key) ↔ lhs.size = rhs.size ∧
      ∀ p, lhs.Occupied p → rhs.lookup (lhs.keyAt p) = some (lhs.valueAt p, lhs.blobAt p) := by
  constructor
  · intro h
    have hfound : ∀ p, lhs.Occupied p → ∃ q, rhs.Stores (lhs.keyAt p) q := fun p hp => by
      rw [← lookup_isSome hr.toSound, ← h, lookup_isSome hl.toSound]
      exact ⟨p, hp, T.key.eq_refl _⟩
    have hfound' : ∀ q, rhs.Occupied q → ∃ p, lhs.Stores (rhs.keyAt q) p := fun q hq => by
      rw [← lookup_isSome hl.toSound, h, lookup_isSome hr.toSound]
      exact ⟨q, hq, T.key.eq_refl _⟩
    refine ⟨le_antisymm (size_le_of_found hl hr hul hfound) (size_le_of_found hr hl hur hfound'),
      fun p hp => ?_⟩
    rw [← h]
    exact lookup_of_stores hl.toSound hul ⟨hp, T.key.eq_refl _⟩
  · rintro ⟨hsize, h⟩ key
    have hfound : ∀ p, lhs.Occupied p → ∃ q, rhs.Stores (lhs.keyAt p) q := fun p hp => by
      rw [← lookup_isSome hr.toSound, h p hp]
      rfl
    by_cases hc : ∃ p, lhs.Stores key p
    · obtain ⟨p, hp⟩ := hc
      obtain ⟨q, hq⟩ := hfound p hp.1
      have hq' : rhs.Stores key q := (Stores.congr hp.2).mp hq
      rw [lookup_of_stores hl.toSound hul hp, lookup_of_stores hr.toSound hur hq',
        ← lookup_of_stores hr.toSound hur hq, h p hp.1]
    · have hnone : lhs.lookup key = none := by
        rw [← Option.not_isSome_iff_eq_none, lookup_isSome hl.toSound]
        exact hc
      rw [hnone]
      symm
      rw [← Option.not_isSome_iff_eq_none, lookup_isSome hr.toSound]
      rintro ⟨q, hq⟩
      obtain ⟨p, hp⟩ := found_of_size_eq hl hr hul hfound hsize hq.1
      exact hc ⟨p, (Stores.congr hq.2).mp hp⟩

theorem equal_iff (hl : Valid lhs) (hr : Valid rhs) (hul : lhs.Unique) (hur : rhs.Unique)
    {same : Bool} (hsame : same = true → lhs = rhs) : ∃ b, equal ideal lhs rhs same = .ok b ∧
      (b = true ↔ lhs.conf.blobSize = rhs.conf.blobSize ∧
        ∀ key, lhs.lookup key = rhs.lookup key) := by
  rw [lookup_eq_iff hl.toInv.exact hr.toInv.exact hul hur]
  unfold equal
  split_ifs with hs hsize hblob
  · obtain rfl := hsame hs
    exact ⟨true, rfl, iff_of_true rfl ⟨rfl, rfl, fun p hp =>
      lookup_of_stores hl.toSound hul ⟨hp, T.key.eq_refl _⟩⟩⟩
  · exact ⟨false, rfl, iff_of_false (by decide) fun hc => hsize hc.2.1⟩
  · exact ⟨false, rfl, iff_of_false (by decide) fun hc => hblob hc.1⟩
  · rw [not_not] at hsize hblob
    obtain ⟨r, hfind, hiff⟩ := findDiffering_spec hr hur hblob (lhs.positions ideal)
    refine ⟨r.isNone, ?_, ?_⟩
    · rw [hfind]
      rfl
    · rw [Option.isNone_iff_eq_none, hiff]
      refine ⟨fun h => ⟨hblob, hsize, fun p hp => h p (hl.toSound.mem_positions.mpr hp)⟩,
        fun h p hp => h.2.2 p (hl.toSound.mem_positions.mp hp)⟩

omit [LawfulBEq ν] in
/-- Two comparisons give the same result with any kernel. -/
theorem equal_agree {B : BucketOps} (hB : B.Lawful T.kernelSize) (hl : Sound lhs) (hr : Sound rhs)
    (same : Bool) : equal B lhs rhs same = equal ideal lhs rhs same := by
  have hdiff : ∀ p, differs B lhs rhs p = differs ideal lhs rhs p := fun p => by
    unfold differs
    rw [findFirst_eq hB hr]
  have hfind : ∀ ps, findDiffering B lhs rhs ps = findDiffering ideal lhs rhs ps := fun ps => by
    induction ps with
    | nil => rfl
    | cons p ps ih => rw [findDiffering, findDiffering, hdiff, ih]
  unfold equal
  rw [hfind, positions_eq hB hl]

end Equal

section Main
variable (B : Kernel T.kernelSize) {confA confB confC : Conf T.conf}
  (hd : T.duplicates = false) [BEq ν] [LawfulBEq ν] {a b c : Map T ν}
  (ha : (runs B confA (NoScrub B)).Reachable a) (hb : (runs B confB (NoScrub B)).Reachable b)
  (hc : (runs B confC (NoScrub B)).Reachable c)
include hd ha hb

/-- Maps reached by runs without scrubbing are compared by what they map to what. -/
theorem equal_iff_lookup (same : Bool) (hsame : same = true → a = b) :
    ∃ r, equal B.ops a b same = .ok r ∧ (r = true ↔
      a.conf.blobSize = b.conf.blobSize ∧ ∀ key, a.lookup key = b.lookup key) := by
  have hla := (valid_of_reachable B confA (fun _ _ _ h => NoScrub.scrubsSafe B h) ha).1
  have hlb := (valid_of_reachable B confB (fun _ _ _ h => NoScrub.scrubsSafe B h) hb).1
  rw [equal_agree B.lawful hla.toSound hlb.toSound]
  exact equal_iff hla hlb (hla.unique hd) (hlb.unique hd) hsame

include hc

/-- `==` is extensional, and so an equivalence. -/
theorem map_equality {same : Bool} (hsame : same = true → a = b) :
    (∃ r, equal B.ops a b same = .ok r ∧ (r = true ↔
      a.conf.blobSize = b.conf.blobSize ∧ ∀ key, a.lookup key = b.lookup key)) ∧
    equal B.ops a a true = .ok true ∧ equal B.ops a a false = .ok true ∧
    equal B.ops a b same = equal B.ops b a same ∧
    (equal B.ops a b false = .ok true → equal B.ops b c false = .ok true →
      equal B.ops a c false = .ok true) := by
  have hself : ∀ s, equal B.ops a a s = .ok true := fun s => by
    obtain ⟨r, hr, hiff⟩ := equal_iff_lookup B hd ha ha s fun _ => rfl
    rw [hr, hiff.mpr ⟨rfl, fun _ => rfl⟩]
  refine ⟨equal_iff_lookup B hd ha hb same hsame, hself true, hself false, ?_, ?_⟩
  · obtain ⟨r, hr, hiff⟩ := equal_iff_lookup B hd ha hb same hsame
    obtain ⟨r', hr', hiff'⟩ := equal_iff_lookup B hd hb ha same fun h => (hsame h).symm
    have heq : r = true ↔ r' = true := by
      rw [hiff, hiff']
      exact ⟨fun h => ⟨h.1.symm, fun key => (h.2 key).symm⟩,
        fun h => ⟨h.1.symm, fun key => (h.2 key).symm⟩⟩
    rw [hr, hr', Bool.eq_iff_iff.mpr heq]
  · intro hab hbc
    obtain ⟨r₁, hr₁, hiff₁⟩ := equal_iff_lookup B hd ha hb false fun h => by cases h
    obtain ⟨r₂, hr₂, hiff₂⟩ := equal_iff_lookup B hd hb hc false fun h => by cases h
    obtain ⟨r, hr, hiff⟩ := equal_iff_lookup B hd ha hc false fun h => by cases h
    obtain ⟨hblob₁, hmap₁⟩ := hiff₁.mp (Except.ok.inj (hr₁.symm.trans hab))
    obtain ⟨hblob₂, hmap₂⟩ := hiff₂.mp (Except.ok.inj (hr₂.symm.trans hbc))
    rw [hr, hiff.mpr ⟨hblob₁.trans hblob₂, fun key => (hmap₁ key).trans (hmap₂ key)⟩]

end Main

/-- Keys 1 and 2 in one order, in the other order in a table of twice the capacity, and in a table
with two tombstones. -/
theorem map_equality_words : ∃ rs₁ rs₂ rs₃ a b c,
    wordExec 1 false [.insert 1, .insert 2, .setValueAt 4 7] = .ok (rs₁, a) ∧
      wordExec 1 false [.reserve 12, .insert 2, .insert 1, .setValueAt 4 7] = .ok (rs₂, b) ∧
      wordExec 1 false [.insert 0, .insert 8, .insert 1, .insert 2, .setValueAt 4 7, .eraseFirst 0,
        .eraseFirst 8] = .ok (rs₃, c) ∧
      equal (wordKernel 1 false).ops a b false = .ok true ∧
      equal (wordKernel 1 false).ops b a false = .ok true ∧
      equal (wordKernel 1 false).ops a c false = .ok true := by
  have hB := (wordKernel 1 false).lawful
  have hrun : ∀ ops, wordExec 1 false ops = exec _ ideal (wordConf 1 false) ops :=
    fun ops => (exec_agree hB _ ops).1
  have h : (do
      let (_, a) ← exec (wordMap 1 false) ideal (wordConf 1 false)
        [.insert 1, .insert 2, .setValueAt 4 7]
      let (_, b) ← exec (wordMap 1 false) ideal (wordConf 1 false)
        [.reserve 12, .insert 2, .insert 1, .setValueAt 4 7]
      let (_, c) ← exec (wordMap 1 false) ideal (wordConf 1 false)
        [.insert 0, .insert 8, .insert 1, .insert 2, .setValueAt 4 7, .eraseFirst 0, .eraseFirst 8]
      let ab ← equal ideal a b false
      let bc ← equal ideal b c false
      return (ab, bc)) = .ok (true, true) := by decide +kernel
  obtain ⟨⟨rs₁, a⟩, ha, h⟩ := bind_eq_ok.mp h
  obtain ⟨⟨rs₂, b⟩, hb, h⟩ := bind_eq_ok.mp h
  obtain ⟨⟨rs₃, c⟩, hc, h⟩ := bind_eq_ok.mp h
  obtain ⟨ab, hab, h⟩ := bind_eq_ok.mp h
  obtain ⟨bc, hbc, h⟩ := bind_eq_ok.mp h
  obtain ⟨rfl, rfl⟩ := Prod.mk.inj (Except.ok.inj h)
  rw [← hrun] at ha hb hc
  have hra := reachable_of_wordExec 1 false (by simp [Op.isScrub]) ha
  have hrb := reachable_of_wordExec 1 false (by simp [Op.isScrub]) hb
  have hrc := reachable_of_wordExec 1 false (by simp [Op.isScrub]) hc
  have hne : false = true → a = b := fun hf => by cases hf
  obtain ⟨-, -, -, hcomm, htrans⟩ := map_equality (wordKernel 1 false) rfl hra hrb hrc hne
  have hsa : Sound a := (exec_agree hB _ _).2 _ (hrun _ ▸ ha)
  have hsb : Sound b := (exec_agree hB _ _).2 _ (hrun _ ▸ hb)
  have hsc : Sound c := (exec_agree hB _ _).2 _ (hrun _ ▸ hc)
  rw [← equal_agree hB hsa hsb] at hab
  rw [← equal_agree hB hsb hsc] at hbc
  exact ⟨rs₁, rs₂, rs₃, a, b, c, ha, hb, hc, hab, hcomm.symm.trans hab, htrans hab hbc⟩

end Map

end Nvhm
