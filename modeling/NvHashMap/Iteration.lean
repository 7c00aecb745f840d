import NvHashMap.Iterator
import NvHashMap.Map.Change
import NvHashMap.Cache.Lru

/-! # Iterating over a map or a cache

`begin` and `end` of `raw_map_base.hpp`.

* The positions that `for_each` visits are the occupied slots in ascending order (`Map.lists`,
  `Cache.lists`), and `front_` is the first of them.
* `begin` of a cache touches a counter, so it returns the new cache as well; the iterator runs over
  that one, and no slot was freed or filled. -/

namespace Nvhm

open Buffer SlotCount

/-! ### Maps -/

namespace Map
variable {κ ν : Type} {T : MapType κ}

/-- What an iterator asks of a map. -/
def outer (m : Map T ν) : Outer := ⟨m.capacity, m.containsAt⟩

/-- `front_`. -/
def front (B : BucketOps) (m : Map T ν) : Option ℕ := m.findIf B fun _ => true

/-- `begin`. -/
def begin_ (B : BucketOps) (m : Map T ν) : ℤ := m.outer.begin_ (m.front B)

theorem front_eq (B : BucketOps) (m : Map T ν) : m.front B = (m.positions B).head? := by
  unfold front findIf
  cases m.positions B <;> rfl

theorem Shape.lists {m : Map T ν} (h : Shape m) : Outer.Lists m.outer (m.positions ideal) where
  sorted := h.positions_sorted
  mem_iff _ := h.mem_positions

variable [Inhabited κ] [Inhabited ν]

/-- `size` is the number of positions. -/
theorem Exact.size_eq_length {m : Map T ν} (h : Exact m) :
    m.size = ((m.positions ideal).length : ℤ) := by
  rw [h.size_eq, h.entries_eq, Multiset.coe_card, List.length_map]

theorem Exact.iterates {B : BucketOps} (hB : B.Lawful T.kernelSize) {m : Map T ν} (h : Exact m) :
    Outer.Iterates m.outer (m.begin_ B) (m.forEach B) ∧ m.size = ((m.forEach B).length : ℤ) := by
  rw [begin_, front_eq, forEach, positions_eq hB h.toSound]
  exact ⟨h.lists.iterates, h.size_eq_length⟩

end Map

/-! ### Caches -/

namespace Cache
variable {κ ν : Type} {T : CacheType κ}

/-- What an iterator asks of a cache. -/
def outer (m : Cache T ν) : Outer := ⟨m.capacity, m.containsAt⟩

/-- `front_`. -/
def front (B : BucketOps) (m : Cache T ν) : Option ℕ × Cache T ν := m.findIf B fun _ => true

/-- `begin`. -/
def begin_ (B : BucketOps) (m : Cache T ν) : ℤ × Cache T ν :=
  let (front, m) := m.front B
  (m.outer.begin_ front, m)

variable [Inhabited κ]

theorem Inv.positions_table {m : Cache T ν} (h : Inv m) :
    m.positions ideal = m.table.positions ideal := by
  refine List.flatMap_congr fun o ho => ?_
  obtain ⟨hd, hlt⟩ := h.sound.mem_offsets.mp ho
  rw [bucket_eq h.shape hd hlt]

theorem Inv.lists {m : Cache T ν} (h : Inv m) : Outer.Lists m.outer (m.positions ideal) where
  sorted := by
    rw [h.positions_table]
    exact h.sound.positions_sorted
  mem_iff p := by
    rw [h.positions_table, h.sound.mem_positions]
    exact occupied_iff

/-- The loop of `front_` stops at the first occupied slot, and touches it. -/
theorem Inv.findIfLoop_front {m : Cache T ν} (h : Inv m) : ∀ (offs : List ℕ),
    (∀ o ∈ offs, T.kernelSize ∣ o ∧ o < m.capacity) →
    (findIfLoop ideal m (fun _ => true) offs = (none, m) ∧
      (offs.flatMap fun o => (ideal.hashes (m.bucket o)).map (o + ·)) = []) ∨
    ∃ o i, m.IsSlot o i ∧
      findIfLoop ideal m (fun _ => true) offs = (some (o + i), m.touch ideal o i) ∧
      (offs.flatMap fun o => (ideal.hashes (m.bucket o)).map (o + ·)).head? = some (o + i)
  | [], _ => Or.inl ⟨rfl, rfl⟩
  | o :: offs, ho => by
      obtain ⟨hd, hlt⟩ := ho o List.mem_cons_self
      rw [findIfLoop, List.flatMap_cons]
      cases hl : ideal.hashes (m.bucket o) with
      | nil => exact findIfLoop_front h offs fun o' ho' => ho o' (List.mem_cons_of_mem _ ho')
      | cons i is =>
          have hi := (h.mem_hashes hd hlt).mp (hl ▸ List.mem_cons_self)
          exact Or.inr ⟨o, i, ⟨hd, hlt, hi.1⟩, rfl, rfl⟩

/-- `front_` is the first position; it touches that slot, if there is one. -/
theorem Inv.front_cases {m : Cache T ν} (h : Inv m) :
    (m.positions ideal = [] ∧ m.front ideal = (none, m)) ∨
    ∃ o i, m.IsSlot o i ∧ (m.positions ideal).head? = some (o + i) ∧
      m.front ideal = (some (o + i), m.touch ideal o i) := by
  rcases h.findIfLoop_front _ fun _ ho => h.sound.mem_offsets.mp ho with
    ⟨hf, hn⟩ | ⟨o, i, hs, hf, hn⟩
  · exact Or.inl ⟨hn, hf⟩
  · exact Or.inr ⟨o, i, hs, hn, hf⟩

/-- `size` is the number of positions. -/
theorem Inv.size_eq_length [Inhabited ν] {m : Cache T ν} (h : Inv m) :
    m.size = ((m.positions ideal).length : ℤ) := by
  have hcount := h.sound.count_states
  have hzero : countSlots m.capacity (· == tombstone) m.table.stateAt = 0 := by
    unfold countSlots
    rw [Finset.card_eq_zero, Finset.filter_eq_empty_iff]
    intro p hp heq
    exact h.noTombstone p (Finset.mem_range.mp hp) (eq_of_beq heq)
  have hcard : m.table.entries.card = (m.positions ideal).length := by
    rw [h.sound.entries_eq, Multiset.coe_card, List.length_map, h.positions_table]
  rw [table_capacity, hzero, hcard] at hcount
  rw [size, h.numEmpty_eq]
  omega

/-- A touched slot changes no position. -/
theorem Inv.positions_touch {m : Cache T ν} (h : Inv m) {o i : ℕ} (hs : m.IsSlot o i) :
    (m.touch ideal o i).positions ideal = m.positions ideal := by
  rw [(h.touch hs).positions_table, h.positions_table, (h.shape.touch hs).2]

theorem Inv.iterates [Inhabited ν] {B : BucketOps} (hB : B.Lawful T.kernelSize) {m : Cache T ν}
    (h : Inv m) :
    Outer.Iterates (m.begin_ B).2.outer (m.begin_ B).1 (m.forEach B) ∧
      m.size = ((m.forEach B).length : ℤ) ∧
      ∀ p < m.capacity, (m.begin_ B).2.stateAt p = m.stateAt p := by
  have hfront : m.front B = m.front ideal := (findIf_agree hB h _).1
  rw [begin_, hfront, forEach, positions_eq hB h]
  rcases h.front_cases with ⟨hn, hf⟩ | ⟨o, i, hs, hhead, hf⟩
  · rw [hf]
    refine ⟨?_, h.size_eq_length, fun _ _ => rfl⟩
    have hl := h.lists.iterates
    rwa [hn] at hl ⊢
  · rw [hf]
    refine ⟨?_, h.size_eq_length, (h.shape.touched hs).stateAt⟩
    have hl := (h.touch hs).lists.iterates
    rwa [h.positions_touch hs, hhead] at hl

end Cache

/-! ### Reached containers -/

section Reached
variable {κ ν : Type} [Inhabited κ] [Inhabited ν]
  {T : MapType κ} (B : Kernel T.kernelSize) (conf : Conf T.conf)
  {C : CacheType κ} (B' : Kernel C.kernelSize) (conf' : Conf C.conf)

/-- Whatever was called on a map or a cache: the steps from `begin` to `end` meet the slots that
`for_each` visits, which are the occupied ones in ascending order; `++` and `--` undo each other at
every iterator, also beyond both ends; `n` steps away is at distance `n`; and `end` is at distance
`size` from `begin`.  `begin` frees and fills no slot of a cache. -/
theorem iteration {P : Map T ν → Map.Op κ ν → Prop} {m : Map T ν}
    (hm : (Map.runs B conf P).Reachable m) {c : Cache C ν}
    (hc : (Cache.runs B' conf').Reachable c) :
    (Outer.Iterates m.outer (m.begin_ B.ops) (m.forEach B.ops) ∧
      ∀ fuel : ℕ, m.size < fuel → m.outer.sub fuel m.outer.end_ (m.begin_ B.ops) = some m.size) ∧
    Outer.Iterates (c.begin_ B'.ops).2.outer (c.begin_ B'.ops).1 (c.forEach B'.ops) ∧
    (∀ fuel : ℕ, c.size < fuel →
      (c.begin_ B'.ops).2.outer.sub fuel (c.begin_ B'.ops).2.outer.end_ (c.begin_ B'.ops).1 =
        some c.size) ∧
    ∀ p < c.capacity, (c.begin_ B'.ops).2.stateAt p = c.stateAt p := by
  obtain ⟨hit, hsize⟩ := (Map.exact_of_reachable B conf hm).1.iterates B.lawful
  obtain ⟨hit', hsize', hstate⟩ := (Cache.inv_of_reachable B' conf' hc).iterates B'.lawful
  refine ⟨⟨hit, fun fuel hf => ?_⟩, hit', fun fuel hf => ?_, hstate⟩
  · rw [hsize] at hf ⊢
    exact hit.end_sub fuel (by exact_mod_cast hf)
  · rw [hsize'] at hf ⊢
    exact hit'.end_sub fuel (by exact_mod_cast hf)

end Reached

/-- A map and a cache with three entries each. -/
theorem iteration_words : ∃ rs m rs' c,
    Map.wordExec 1 false [.insert 0, .insert 8, .insert 3] = .ok (rs, m) ∧
      Cache.wordExec 1 false [.insert 0, .insert 8, .insert 3] = .ok (rs', c) ∧
      m.outer.walk 4 (m.begin_ (Map.wordKernel 1 false).ops) = some [0, 1, 6] ∧
      (c.begin_ (Map.wordKernel 1 false).ops).2.outer.walk 4
        (c.begin_ (Map.wordKernel 1 false).ops).1 = some [0, 1, 6] := by
  obtain ⟨rs, m, hr, hinv, hm⟩ := Map.exists_wordExec 1 false [.insert 0, .insert 8, .insert 3]
    (fun r => r.2.positions ideal) [0, 1, 6] (by decide +kernel)
  obtain ⟨rs', c, hr', hinv', hc⟩ := Cache.exists_wordExec 1 false
    [.insert 0, .insert 8, .insert 3] (fun r => r.2.positions ideal) [0, 1, 6] (by decide +kernel)
  obtain ⟨hit, hit', -⟩ := iteration (Map.wordKernel 1 false) (Map.wordConf 1 false)
    (C := Cache.wordCache 1 false) (Map.wordKernel 1 false) (Map.wordConf 1 false)
    (Map.reachable_of_wordExec 1 false (by simp [Map.Op.isScrub]) hr)
    (Cache.reachable_of_exec (T := Cache.wordCache 1 false) (Map.wordKernel 1 false)
      (Map.wordConf 1 false) hr')
  have hl : m.forEach (Map.wordKernel 1 false).ops = [0, 1, 6] :=
    (Map.positions_eq (Map.wordKernel 1 false).lawful hinv).trans hm
  have hl' : c.forEach (Map.wordKernel 1 false).ops = [0, 1, 6] :=
    (Cache.positions_eq (T := Cache.wordCache 1 false) (Map.wordKernel 1 false).lawful hinv').trans
      hc
  rw [hl] at hit
  rw [hl'] at hit'
  exact ⟨rs, m, rs', c, hr, hr', hit.1.walk_eq 4 (by decide), hit'.walk_eq 4 (by decide)⟩

end Nvhm
