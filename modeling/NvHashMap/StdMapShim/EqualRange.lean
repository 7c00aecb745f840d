import NvHashMap.StdMapShim
import NvHashMap.Map.Equality

/-! # `equal_range` of `std_map_shim`

* The range goes from the slot that a lookup returns to the next occupied one, so it never has more
  than one entry, also where `count` is larger.
* `Exact.forEachKey_near`: `for_each_(key)` visits the only slot of a key that a lookup reaches.
* The range is right exactly for a key with at most one entry, which no scrub has cut off from its
  chain. -/

namespace Nvhm

open Buffer SlotCount

namespace Map
variable {κ ν : Type} {T : MapType κ} [Inhabited κ] [Inhabited ν]

/-! ### The call -/

/-- `to_iterator`. -/
def toIterator (m : Map T ν) (pos : Option ℕ) : ℤ :=
  match pos with
  | none => m.outer.end_
  | some pos => pos

/-- `equal_range`; `update` looks a key up as `find` does. -/
def equalRange (B : BucketOps) (m : Map T ν) (key : κ) : Except Err (ℤ × ℤ) := do
  let (pos, _) ← m.findFirst B key
  let it1 := m.toIterator pos
  let it1 := if pos.isSome then m.outer.next it1 else it1
  let (pos, _) ← m.findFirst B key
  .ok (m.toIterator pos, it1)

/-- The positions of the range from `first` to `last` are those of the entries of `key`, and `count`
is their number. -/
def IsEqualRange (B : BucketOps) (m : Map T ν) (key : κ) (first last : ℤ) : Prop :=
  ∃ ps : List ℕ,
    (∀ fuel, m.capacity < fuel →
      Cursor.traverse m.outer.next last fuel first = some (ps.map Nat.cast)) ∧
    ps.Nodup ∧ (∀ p, p ∈ ps ↔ m.Stores key p) ∧ m.count B key = .ok ps.length ∧
    (ps = [] ↔ ∀ p, ¬ m.Stores key p)

/-- At most one entry has the key, and the probe sequence of the key leads to it. -/
def Single (m : Map T ν) (key : κ) : Prop :=
  ∀ p, m.Stores key p → m.Near key (T.off p) ∧ ∀ q, m.Stores key q → q = p

/-! ### Counting -/

omit [Inhabited ν] in
/-- `for_each_(key)` visits the only slot of the key. -/
theorem Exact.forEachKey_near {m : Map T ν} (h : Exact m) {key : κ} (hs : m.Single key) :
    ∃ l, m.forEachKey ideal key = .ok l ∧ (l.map Prod.fst).Nodup ∧
      ∀ p, p ∈ l.map Prod.fst ↔ m.Stores key p := by
  obtain ⟨e, he, hempty⟩ := h.exists_empty
  have hdone : ∀ n ≤ m.numBuckets,
      ((seqAt T key n).hasNext T.seq = false ∨ ∃ i < n, m.HasEmpty (m.visit key i)) →
      ((m.matchesUpTo key n).map Prod.fst).Nodup ∧
        ∀ p, p ∈ (m.matchesUpTo key n).map Prod.fst ↔ m.Stores key p := by
    intro n hn hstop
    refine ⟨h.matchesUpTo_nodup key hn, fun p => ?_⟩
    rw [h.mem_matchesUpTo]
    exact ⟨fun hp => hp.1, fun hp => ⟨hp, (hs p hp).1.visited hstop⟩⟩
  refine (probe_cases h.toShape (fun j acc => m.FullUpTo key j ∧ acc = m.matchesUpTo key j ∧
    (T.duplicates = false → acc = [])) _ ⟨fullUpTo_zero m key, rfl, fun _ => rfl⟩ ?_
    ?_).resolve_right fun hc => ?_
  · rintro j acc hj - ⟨hfull, rfl, hacc⟩
    have ho := h.visit_add_le key j
    have hsucc := m.matchesUpTo_succ key j
    have hstop : ideal.hasEmpty (m.bucket (m.visit key j)) = true →
        ∃ i < j + 1, m.HasEmpty (m.visit key i) :=
      fun hb => ⟨j, Nat.lt_succ_self j, (h.toShape.hasEmpty_iff ho).mp hb⟩
    have hnext : ¬ ideal.hasEmpty (m.bucket (m.visit key j)) = true → m.FullUpTo key (j + 1) :=
      fun hb => hfull.succ fun hc => hb ((h.toShape.hasEmpty_iff ho).mpr hc)
    dsimp only
    rw [← matchesAt]
    cases hd : T.duplicates with
    | true =>
        rw [if_pos rfl, ← hsucc]
        split_ifs with hb
        · exact hdone (j + 1) hj (Or.inr (hstop hb))
        · exact ⟨hnext hb, rfl, fun hc => by cases hc⟩
    | false =>
        rw [hacc hd, List.nil_append] at hsucc
        rw [hacc hd, if_neg Bool.false_ne_true]
        cases hl : m.matchesAt key j with
        | cons x l =>
            obtain ⟨hst, -, -⟩ := h.mem_matchesAt.mp (hl ▸ List.mem_cons_self : x ∈ m.matchesAt key j)
            refine ⟨List.nodup_singleton _, fun p => ?_⟩
            rw [List.nil_append, List.map_singleton, List.mem_singleton]
            constructor
            · rintro rfl
              exact hst
            · exact fun hp => (hs _ hst).2 p hp
        | nil =>
            rw [hl] at hsucc
            dsimp only
            split_ifs with hb
            · rw [← hsucc]
              exact hdone (j + 1) hj (Or.inr (hstop hb))
            · exact ⟨hnext hb, hsucc.symm, fun _ => rfl⟩
  · rintro j acc hj hn ⟨-, rfl, -⟩
    exact hdone j hj (Or.inl hn)
  · obtain ⟨-, _, hfull, -⟩ := hc
    exact h.not_all_full he hempty key hfull

/-! ### The range -/

section Range
variable {m : Map T ν}

omit [Inhabited κ] [Inhabited ν] in
/-- The range behind a slot has that slot only. -/
theorem traverse_next (m : Map T ν) (p fuel : ℕ) (hf : 1 < fuel) :
    Cursor.traverse m.outer.next (m.outer.next p) fuel p = some [(p : ℤ)] := by
  obtain ⟨f, rfl⟩ : ∃ f, fuel = f + 2 := ⟨fuel - 2, by omega⟩
  have hlt := (m.outer.next_spec p).2.1
  rw [Cursor.traverse, if_neg hlt.ne, Cursor.traverse, if_pos rfl]
  rfl

/-- The range behind a lookup. -/
def rangeFrom (m : Map T ν) (r : Option ℕ) : ℤ × ℤ :=
  match r with
  | some p => (p, m.outer.next p)
  | none => (m.outer.end_, m.outer.end_)

omit [Inhabited ν] in
theorem equalRange_eq {key : κ} {r : Option ℕ} {q : ProbeSeq}
    (hr : m.findFirst ideal key = .ok (r, q)) :
    m.equalRange ideal key = .ok (m.rangeFrom r) := by
  unfold equalRange
  rw [hr, ok_bind]
  cases r with
  | some p => rfl
  | none => rfl

omit [Inhabited ν] in
/-- The range is right if and only if the key has a single entry that a lookup reaches. -/
theorem equalRange_iff (h : Exact m) (key : κ) :
    (∃ first last, m.equalRange ideal key = .ok (first, last) ∧
      m.IsEqualRange ideal key first last) ↔ m.Single key := by
  obtain ⟨r, q, hr, hmatch⟩ := h.findFirst_near key
  obtain ⟨e, he, -⟩ := h.exists_empty
  have hcap : 0 < m.capacity := by omega
  constructor
  · rintro ⟨first, last, hrange, ps, hwalk, -, hmem, -, -⟩
    rw [equalRange_eq hr] at hrange
    have hwalk := hwalk (m.capacity + 2) (by omega)
    cases r with
    | none =>
        obtain ⟨rfl, rfl⟩ := Prod.mk.inj (Except.ok.inj hrange)
        rw [Cursor.traverse, if_pos rfl] at hwalk
        intro p hp
        have hin := List.mem_map_of_mem (f := (Nat.cast : ℕ → ℤ)) ((hmem p).mpr hp)
        rw [← Option.some.inj hwalk] at hin
        cases hin
    | some p₀ =>
        obtain ⟨rfl, rfl⟩ := Prod.mk.inj (Except.ok.inj hrange)
        rw [traverse_next m p₀ _ (by omega)] at hwalk
        have honly : ∀ p, m.Stores key p → p = p₀ := by
          intro p hp
          have hin := List.mem_map_of_mem (f := (Nat.cast : ℕ → ℤ)) ((hmem p).mpr hp)
          rw [← Option.some.inj hwalk, List.mem_singleton] at hin
          exact Int.ofNat_inj.mp hin
        intro p hp
        obtain rfl := honly p hp
        exact ⟨hmatch.2, honly⟩
  · intro hs
    obtain ⟨l, hl, hnodup, hmem⟩ := h.forEachKey_near hs
    have hcount : m.count ideal key = .ok (l.map Prod.fst).length := by
      rw [count, hl, ok_bind, List.length_map]
    refine ⟨_, _, equalRange_eq hr, l.map Prod.fst, fun fuel hf => ?_, hnodup, hmem, hcount, ?_⟩
    · cases r with
      | none =>
          have hnil : l.map Prod.fst = [] := List.eq_nil_iff_forall_not_mem.mpr fun p hp =>
            hmatch p ((hmem p).mp hp) (hs p ((hmem p).mp hp)).1
          obtain ⟨f, rfl⟩ : ∃ f, fuel = f + 1 := ⟨fuel - 1, by omega⟩
          rw [hnil, Cursor.traverse, if_pos rfl]
          rfl
      | some p =>
          have hone : l.map Prod.fst = [p] := by
            refine List.perm_singleton.mp ((List.perm_ext_iff_of_nodup hnodup
              (List.nodup_singleton p)).mpr fun q => ?_)
            rw [hmem, List.mem_singleton]
            constructor
            · exact fun hq => (hs p hmatch.1).2 q hq
            · rintro rfl
              exact hmatch.1
          rw [hone]
          exact traverse_next m p fuel (by omega)
    · rw [List.eq_nil_iff_forall_not_mem]
      exact forall_congr' fun p => not_congr (hmem p)

end Range

/-! ### Main result -/

section Main
variable (B : Kernel T.kernelSize) (conf : Conf T.conf)

omit [Inhabited ν] in
theorem equalRange_agree {m : Map T ν} (h : Sound m) (key : κ) :
    m.equalRange B.ops key = m.equalRange ideal key := by
  unfold equalRange
  rw [findFirst_eq B.lawful h]

/-- Whatever was called on a map, with duplicates or without: `equal_range` returns the range of
exactly the entries of the key, as many as `count`, if and only if the key has at most one entry and
its probe sequence leads to that.  This is so for all keys of a map without duplicates, if all scrubs
were safe. -/
theorem equal_range_iff {P : Map T ν → Op κ ν → Prop} {m : Map T ν}
    (hm : (runs B conf P).Reachable m) :
    (∀ key, (∃ first last, m.equalRange B.ops key = .ok (first, last) ∧
      m.IsEqualRange B.ops key first last) ↔ m.Single key) ∧
    (T.duplicates = false → (∀ m op, P m op → ScrubsSafe B m op) → ∀ key, m.Single key) := by
  obtain ⟨h, -⟩ := exact_of_reachable B conf hm
  constructor
  · intro key
    rw [← equalRange_iff h key]
    unfold IsEqualRange
    rw [equalRange_agree B h.toSound, count_eq B.lawful h.toSound]
  · intro hd hP key p hp
    obtain ⟨hv, -⟩ := valid_of_reachable B conf (fun m op _ hop => hP m op hop) hm
    refine ⟨hv.near_of_stores hp, fun q hq => ?_⟩
    exact hv.unique hd q p hq.1 hp.1 (T.key.eq_trans hq.2 (T.key.eq_symm hp.2))

end Main

/-- A map without duplicates. -/
theorem equal_range_words : ∃ rs m first last, wordExec 1 false [.insert 0, .insert 8] = .ok (rs, m) ∧
    m.equalRange (wordKernel 1 false).ops 8 = .ok (first, last) ∧
      m.IsEqualRange (wordKernel 1 false).ops 8 first last := by
  obtain ⟨rs, m, hr, -, -⟩ := exists_wordExec 1 false [.insert 0, .insert 8]
    (fun r => r.2.size) 2 (by decide +kernel)
  obtain ⟨hiff, hsingle⟩ := equal_range_iff (wordKernel 1 false) (wordConf 1 false)
    (reachable_of_wordExec 1 false (by simp [Op.isScrub]) hr)
  obtain ⟨first, last, hrange⟩ := (hiff 8).mpr (hsingle rfl (fun _ _ => NoScrub.scrubsSafe _) 8)
  exact ⟨rs, m, first, last, hr, hrange⟩

/-- Two entries of one key: `count` returns two, and the range has one. -/
theorem equal_range_misses : ∃ rs m, wordExec 1 true [.insert 0, .insert 0] = .ok (rs, m) ∧
    m.count (wordKernel 1 true).ops 0 = .ok 2 ∧
      m.equalRange (wordKernel 1 true).ops 0 = .ok (0, 1) ∧
      ¬ m.IsEqualRange (wordKernel 1 true).ops 0 0 1 := by
  obtain ⟨rs, m, hr, hsound, hf⟩ := exists_wordExec 1 true [.insert 0, .insert 0]
    (fun r => (r.2.count ideal 0, r.2.equalRange ideal 0, r.2.outer.next 0))
    (.ok 2, .ok (0, 1), 1) (by decide +kernel)
  obtain ⟨hcount, hf⟩ := Prod.mk.inj hf
  obtain ⟨hrange, hnext⟩ := Prod.mk.inj hf
  have hcount : m.count (wordKernel 1 true).ops 0 = .ok 2 := by
    rw [count_eq (wordKernel 1 true).lawful hsound]
    exact hcount
  refine ⟨rs, m, hr, hcount, ?_, ?_⟩
  · rw [equalRange_agree (wordKernel 1 true) hsound]
    exact hrange
  · rintro ⟨ps, hwalk, -, -, hlen, -⟩
    have hone : m.outer.next ((0 : ℕ) : ℤ) = 1 := hnext
    have hwalk := hwalk (m.capacity + 2) (by omega)
    have hrange := traverse_next m 0 (m.capacity + 2) (by omega)
    rw [hone] at hrange
    have hps := congrArg List.length (Option.some.inj (hrange.symm.trans hwalk))
    rw [List.length_map] at hps
    have htwo := Except.ok.inj (hcount.symm.trans hlen)
    rw [← hps] at htwo
    exact absurd htwo (by decide)

end Map

end Nvhm
