import Mathlib.Algebra.BigOperators.Group.Finset.Piecewise
import Mathlib.Algebra.Order.BigOperators.Group.List
import Mathlib.Data.List.Destutter
import Mathlib.Data.List.Dedup
import Mathlib.Data.List.GetD
import Mathlib.Data.List.Sort
import Mathlib.Tactic.Ring

/-! # Histograms

A histogram counts in its entry `i` how many items have the size `i + 1`.  An item adds one to the
entry of its size (`getD_tally`), and its size to the weight of the histogram (`weight_tally`).
Where some sizes are too large the histogram is another one (`countP_eq_iff`): it does not tell
which item has which size, but it tells the sum of the sizes.

The items of a list are found by sorting it and dropping repetitions (`distinct`). -/

namespace Histogram
variable {α : Type*}

/-! ### Distinct items -/

section Distinct
variable [DecidableEq α]

/-- Sort a list and drop the entries that repeat the one before. -/
def distinct (r : α → α → Prop) [DecidableRel r] (l : List α) : List α :=
  (l.insertionSort r).destutter (· ≠ ·)

variable {r : α → α → Prop} [DecidableRel r] [Std.Total r] [IsTrans α r] [Std.Antisymm r]

/-- In a sorted list all repetitions are adjacent. -/
theorem distinct_eq (l : List α) : distinct r l = (l.insertionSort r).dedup :=
  (List.pairwise_insertionSort r l).destutter_eq_dedup

theorem nodup_distinct (l : List α) : (distinct r l).Nodup := by
  rw [distinct_eq]
  exact List.nodup_dedup _

theorem mem_distinct {a : α} {l : List α} : a ∈ distinct r l ↔ a ∈ l := by
  rw [distinct_eq, List.mem_dedup, List.mem_insertionSort]

end Distinct

/-! ### Tallies -/

/-- Count every item in the entry of its size. -/
def tally (f : α → ℕ) (l : List α) (acc : List ℕ) : List ℕ :=
  l.foldl (fun acc a => acc.modify (f a - 1) (· + 1)) acc

/-- The sum of the sizes of all items. -/
def weight (acc : List ℕ) : ℕ := ∑ i ∈ Finset.range acc.length, (i + 1) * acc.getD i 0

theorem length_tally (f : α → ℕ) : ∀ (l : List α) (acc : List ℕ),
    (tally f l acc).length = acc.length
  | [], _ => rfl
  | a :: l, acc => by
      rw [tally, List.foldl_cons]
      exact (length_tally f l _).trans (List.length_modify ..)

theorem getD_modify (acc : List ℕ) (i j : ℕ) : (acc.modify i (· + 1)).getD j 0 =
    if i = j ∧ j < acc.length then acc.getD j 0 + 1 else acc.getD j 0 := by
  rw [List.getD_eq_getElem?_getD, List.getElem?_modify]
  rcases Nat.lt_or_ge j acc.length with hj | hj
  · rw [List.getElem?_eq_getElem hj, List.getD_eq_getElem _ _ hj]
    split_ifs <;> first | rfl | omega
  · rw [List.getElem?_eq_none hj, List.getD_eq_default _ _ hj, if_neg (by omega)]
    rfl

theorem getD_tally (f : α → ℕ) {j : ℕ} : ∀ (l : List α) (acc : List ℕ), j < acc.length →
    (∀ a ∈ l, 1 ≤ f a) →
    (tally f l acc).getD j 0 = acc.getD j 0 + l.countP fun a => f a == j + 1
  | [], _, _, _ => rfl
  | a :: l, acc, hj, h => by
      have ha := h a List.mem_cons_self
      have hl := getD_tally f l (acc.modify (f a - 1) (· + 1)) (by simpa using hj)
        fun b hb => h b (List.mem_cons_of_mem a hb)
      rw [tally, List.foldl_cons]
      refine hl.trans ?_
      rw [getD_modify, List.countP_cons]
      by_cases hf : f a = j + 1
      · rw [if_pos ⟨by omega, hj⟩, if_pos (beq_iff_eq.mpr hf)]
        omega
      · rw [if_neg (by omega), if_neg (by simpa using hf)]
        omega

theorem weight_modify {acc : List ℕ} {i : ℕ} (hi : i < acc.length) :
    weight (acc.modify i (· + 1)) = weight acc + (i + 1) := by
  have hsum := Finset.sum_ite_eq' (Finset.range acc.length) i fun j => j + 1
  rw [if_pos (Finset.mem_range.mpr hi)] at hsum
  rw [weight, weight, List.length_modify, ← hsum, ← Finset.sum_add_distrib]
  refine Finset.sum_congr rfl fun j hj => ?_
  rw [getD_modify]
  by_cases hij : j = i
  · rw [if_pos ⟨hij.symm, Finset.mem_range.mp hj⟩, if_pos hij]
    ring
  · rw [if_neg fun hc => hij hc.1.symm, if_neg hij]
    rfl

theorem weight_tally (f : α → ℕ) : ∀ (l : List α) (acc : List ℕ),
    (∀ a ∈ l, 1 ≤ f a ∧ f a ≤ acc.length) → weight (tally f l acc) = weight acc + (l.map f).sum
  | [], _, _ => rfl
  | a :: l, acc, h => by
      obtain ⟨h1, h2⟩ := h a List.mem_cons_self
      have hl := weight_tally f l (acc.modify (f a - 1) (· + 1)) fun b hb => by
        rw [List.length_modify]
        exact h b (List.mem_cons_of_mem a hb)
      rw [tally, List.foldl_cons]
      refine hl.trans ?_
      rw [weight_modify (by omega), List.map_cons, List.sum_cons]
      omega

/-! ### Sizes that are too large -/

/-- A histogram of `n` entries that starts empty has the sum of the sizes as its weight. -/
theorem sum_countP {f : α → ℕ} {l : List α} {n : ℕ} (h : ∀ a ∈ l, 1 ≤ f a ∧ f a ≤ n) :
    ∑ j ∈ Finset.range n, (j + 1) * (l.countP fun a => f a == j + 1) = (l.map f).sum := by
  have hlen := length_tally f l (List.replicate n 0)
  rw [List.length_replicate] at hlen
  have hzero : weight (List.replicate n 0) = 0 := by
    refine Finset.sum_eq_zero fun j hj => ?_
    rw [List.length_replicate, Finset.mem_range] at hj
    simp [hj]
  have hweight := weight_tally f l (List.replicate n 0) (by simpa using h)
  rw [hzero, Nat.zero_add, weight, hlen] at hweight
  rw [← hweight]
  refine Finset.sum_congr rfl fun j hj => ?_
  rw [getD_tally f l _ (by simpa using hj) fun a ha => (h a ha).1]
  simp [Finset.mem_range.mp hj]

theorem sum_map_eq_iff {f g : α → ℕ} : ∀ {l : List α}, (∀ a ∈ l, g a ≤ f a) →
    ((l.map f).sum = (l.map g).sum ↔ ∀ a ∈ l, f a = g a)
  | [], _ => by simp
  | a :: l, h => by
      have ha := h a List.mem_cons_self
      have hl := fun b hb => h b (List.mem_cons_of_mem a hb)
      have hle : (l.map g).sum ≤ (l.map f).sum := List.sum_le_sum hl
      rw [List.map_cons, List.map_cons, List.sum_cons, List.sum_cons, List.forall_mem_cons,
        ← sum_map_eq_iff hl]
      omega

/-- Two histograms of the same items agree if the items have the same sizes, provided that the
sizes of the one are never below those of the other. -/
theorem countP_eq_iff {f g : α → ℕ} {l : List α} {n : ℕ}
    (h : ∀ a ∈ l, 1 ≤ g a ∧ g a ≤ f a ∧ f a ≤ n) :
    (∀ j < n, (l.countP fun a => f a == j + 1) = l.countP fun a => g a == j + 1) ↔
      ∀ a ∈ l, f a = g a := by
  constructor
  · intro heq
    have hf := sum_countP (f := f) (l := l) (n := n) fun a ha => by
      have := h a ha
      omega
    have hg := sum_countP (f := g) (l := l) (n := n) fun a ha => by
      have := h a ha
      omega
    refine (sum_map_eq_iff fun a ha => (h a ha).2.1).mp (hf.symm.trans (Eq.trans ?_ hg))
    exact Finset.sum_congr rfl fun j hj => by rw [heq j (Finset.mem_range.mp hj)]
  · intro heq j _
    refine List.countP_congr fun a ha => ?_
    rw [heq a ha]

end Histogram
