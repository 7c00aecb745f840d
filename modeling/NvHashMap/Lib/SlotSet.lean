import Mathlib.Data.Finset.Sort
import Mathlib.Data.Finset.Max

/-! # Representations of finite sets

A type of words or arrays represents the sets of the numbers below `K`, with an enumeration that
finds the least element (`next`) and drops it (`step`).  `Implements` says what each operation does to
the set; that the enumeration lists the set in ascending order follows from its three operations
(`scan_eq`), and two representations of the same sets give the same results (`Alike`). -/

namespace SlotSet

/-- The operations of a representation. -/
structure Ops (R : Type) where
  empty : R
  full : R
  single : ℕ → R
  above : R → ℤ → R
  from_ : R → ℕ → R
  intersect : R → R → R
  join : R → R → R
  drop : R → R → R
  contains : R → R → Bool
  hasNext : R → Bool
  count : R → ℕ
  next : R → ℕ
  step : R → R
  truncate : R → R
  at_ : R → ℕ → Bool

variable {R R' : Type}

/-- The rounds of `for (; has_next(m); m = step(m))`, each with its `next(m)`. -/
def Ops.scan (O : Ops R) : ℕ → R → List ℕ
  | 0, _ => []
  | n + 1, m => if O.hasNext m then O.next m :: O.scan n (O.step m) else []

/-- The numbers below `K` that satisfy a condition. -/
def below (K : ℕ) (p : ℕ → Bool) : Finset ℕ := (Finset.range K).filter fun i => p i = true

theorem mem_below {K : ℕ} {p : ℕ → Bool} {i : ℕ} : i ∈ below K p ↔ i < K ∧ p i = true := by
  rw [below, Finset.mem_filter, Finset.mem_range]

theorem card_below (K : ℕ) (p : ℕ → Bool) : (below K p).card = ((List.range K).filter p).length := by
  have hnodup : ((List.range K).filter p).Nodup := List.nodup_range.filter _
  rw [← List.toFinset_card_of_nodup hnodup]
  congr 1
  refine Finset.ext fun i => ?_
  rw [mem_below, List.mem_toFinset, List.mem_filter, List.mem_range]

/-- Every operation does to the set what it should. -/
structure Implements (O : Ops R) (K : ℕ) (valid : R → Prop) (toSet : R → Finset ℕ) : Prop where
  lt : ∀ m, ∀ i ∈ toSet m, i < K
  ext : ∀ m n, valid m → valid n → toSet m = toSet n → m = n
  empty : valid O.empty ∧ toSet O.empty = ∅
  full : valid O.full ∧ toSet O.full = Finset.range K
  single : ∀ i < K, valid (O.single i) ∧ toSet (O.single i) = {i}
  above : ∀ m (a : ℤ), valid m → -1 ≤ a → a < K →
    valid (O.above m a) ∧ toSet (O.above m a) = (toSet m).filter fun i : ℕ => a < i
  from_ : ∀ m a, valid m → a < K →
    valid (O.from_ m a) ∧ toSet (O.from_ m a) = (toSet m).filter fun i => a ≤ i
  intersect : ∀ m n, valid m → valid n →
    valid (O.intersect m n) ∧ toSet (O.intersect m n) = toSet m ∩ toSet n
  join : ∀ m n, valid m → valid n → valid (O.join m n) ∧ toSet (O.join m n) = toSet m ∪ toSet n
  drop : ∀ m n, valid m → valid n → valid (O.drop m n) ∧ toSet (O.drop m n) = toSet m \ toSet n
  contains : ∀ m n, valid m → valid n → (O.contains m n = true ↔ toSet n ⊆ toSet m)
  hasNext : ∀ m, valid m → (O.hasNext m = true ↔ (toSet m).Nonempty)
  count : ∀ m, valid m → O.count m = (toSet m).card
  next : ∀ m, valid m → ∀ h : (toSet m).Nonempty, O.next m = (toSet m).min' h
  step : ∀ m, valid m → ∀ h : (toSet m).Nonempty,
    valid (O.step m) ∧ toSet (O.step m) = (toSet m).erase ((toSet m).min' h)
  truncate : ∀ m, valid m → valid (O.truncate m) ∧
    toSet (O.truncate m) = (toSet m).filter fun i => ∀ j ∈ toSet m, i ≤ j
  at_ : ∀ m i, valid m → i < K → (O.at_ m i = true ↔ i ∈ toSet m)

/-- A set in ascending order, from its least element. -/
theorem sort_eq_cons {s : Finset ℕ} (h : s.Nonempty) :
    s.sort (· ≤ ·) = s.min' h :: (s.erase (s.min' h)).sort (· ≤ ·) := by
  have hins := Finset.insert_erase (s.min'_mem h)
  conv_lhs => rw [← hins]
  refine Finset.sort_insert (· ≤ ·) (fun b hb => ?_) (Finset.notMem_erase _ _)
  exact s.min'_le b (Finset.mem_of_mem_erase hb)

variable {O : Ops R} {K : ℕ} {valid : R → Prop} {toSet : R → Finset ℕ}

/-- The enumeration lists the set in ascending order, and ends. -/
theorem Implements.scan_eq (h : Implements O K valid toSet) : ∀ (n : ℕ) {m : R}, valid m →
    (toSet m).card ≤ n → O.scan n m = (toSet m).sort (· ≤ ·)
  | 0, m, _, hn => by
      rw [Finset.card_eq_zero.mp (Nat.le_zero.mp hn), Finset.sort_empty]
      rfl
  | n + 1, m, hm, hn => by
      rw [Ops.scan]
      by_cases hne : (toSet m).Nonempty
      · obtain ⟨hv, hset⟩ := h.step m hm hne
        have hcard := Finset.card_erase_of_mem ((toSet m).min'_mem hne)
        rw [if_pos ((h.hasNext m hm).mpr hne), h.next m hm hne,
          h.scan_eq n hv (by rw [hset, hcard]; omega), hset]
        exact (sort_eq_cons hne).symm
      · rw [if_neg fun hc => hne ((h.hasNext m hm).mp hc), Finset.not_nonempty_iff_eq_empty.mp hne,
          Finset.sort_empty]

theorem Implements.card_le (h : Implements O K valid toSet) (m : R) : (toSet m).card ≤ K :=
  (Finset.card_le_card fun i hi => Finset.mem_range.mpr (h.lt m i hi)).trans_eq (Finset.card_range K)

/-- What a program sees of a representation. -/
structure Alike (O : Ops R) (O' : Ops R') (K : ℕ) (m : R) (m' : R') : Prop where
  scan : ∀ n, K ≤ n → O.scan n m = O'.scan n m'
  hasNext : O.hasNext m = O'.hasNext m'
  count : O.count m = O'.count m'
  at_ : ∀ i < K, O.at_ m i = O'.at_ m' i

/-- Two representations of one set look the same. -/
theorem Implements.alike {O' : Ops R'} {valid' : R' → Prop} {toSet' : R' → Finset ℕ}
    (h : Implements O K valid toSet) (h' : Implements O' K valid' toSet') {m : R} {m' : R'}
    (hm : valid m) (hm' : valid' m') (heq : toSet m = toSet' m') : Alike O O' K m m' where
  scan n hn := by
    have hcard : (toSet m).card ≤ n := (h.card_le m).trans hn
    rw [h.scan_eq n hm hcard, h'.scan_eq n hm' (heq ▸ hcard), heq]
  hasNext := by
    rw [Bool.eq_iff_iff, h.hasNext m hm, h'.hasNext m' hm', heq]
  count := by rw [h.count m hm, h'.count m' hm', heq]
  at_ i hi := by
    rw [Bool.eq_iff_iff, h.at_ m i hm hi, h'.at_ m' i hm' hi, heq]

end SlotSet
