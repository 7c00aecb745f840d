import Mathlib.Data.Multiset.Sort
import Mathlib.Data.List.Sort
import Mathlib.Data.Multiset.OrderedMonoid
import Mathlib.Algebra.Order.Sub.Basic

/-! # The largest elements of a stream

`IsTop k s t` says that `t` consists of the `k` largest elements of `s`.  A buffer of `k` places
that replaces its least element by one that is not below it, and drops all others, always holds
the largest elements of what it has seen. -/

namespace Nvhm

universe u
variable {α : Type u} [LinearOrder α]

/-- `t` consists of the `k` largest elements of `s`, or of all if there are fewer. -/
structure IsTop (k : ℕ) (s t : Multiset α) : Prop where
  le : t ≤ s
  card_eq : t.card = min k s.card
  rest_le : ∀ x ∈ s - t, ∀ y ∈ t, x ≤ y

namespace IsTop
variable {k : ℕ} {s t : Multiset α} {x : α}

theorem of_card_le (h : s.card ≤ k) : IsTop k s s where
  le := le_rfl
  card_eq := (min_eq_right h).symm
  rest_le x hx := by
    rw [tsub_self] at hx
    exact absurd hx (Multiset.notMem_zero x)

/-- A buffer that is not full holds everything. -/
theorem eq_of_lt (h : IsTop k s t) (ht : t.card < k) : t = s := by
  have hcard := h.card_eq
  exact Multiset.eq_of_le_of_card_le h.le (by omega)

theorem grow (h : IsTop k s t) (ht : t.card < k) : IsTop k (x ::ₘ s) (x ::ₘ t) := by
  obtain rfl := h.eq_of_lt ht
  apply of_card_le
  rw [Multiset.card_cons]
  exact ht

theorem le_card (h : IsTop k s t) (ht : t.card = k) : k ≤ s.card := by
  have := h.card_eq
  omega

/-- An element that is not above those of a full buffer is dropped. -/
theorem skip (h : IsTop k s t) (ht : t.card = k) (hx : ∀ y ∈ t, x ≤ y) :
    IsTop k (x ::ₘ s) t where
  le := h.le.trans (Multiset.le_cons_self s x)
  card_eq := by
    have := h.le_card ht
    rw [ht, Multiset.card_cons]
    omega
  rest_le z hz y hy := by
    rw [Multiset.cons_sub_of_le x h.le, Multiset.mem_cons] at hz
    rcases hz with rfl | hz
    · exact hx y hy
    · exact h.rest_le z hz y hy

/-- The least element of a full buffer makes way for one that is not below it. -/
theorem replace (h : IsTop k s t) (ht : t.card = k) {m : α} (hm : m ∈ t) (hmin : ∀ y ∈ t, m ≤ y)
    (hx : m ≤ x) : IsTop k (x ::ₘ s) (x ::ₘ t.erase m) where
  le := (Multiset.cons_le_cons_iff x).mpr ((Multiset.erase_le m t).trans h.le)
  card_eq := by
    have := h.le_card ht
    rw [Multiset.card_cons, Multiset.card_cons, Multiset.card_erase_add_one hm, ht]
    omega
  rest_le z hz y hy := by
    have hsplit : (x ::ₘ s) - (x ::ₘ t.erase m) = m ::ₘ (s - t) := by
      have hs : x ::ₘ s = m ::ₘ (s - t) + x ::ₘ t.erase m := by
        rw [Multiset.add_cons, Multiset.cons_add, ← Multiset.add_cons, Multiset.cons_erase hm,
          tsub_add_cancel_of_le h.le]
      rw [hs, add_tsub_cancel_right]
    rw [hsplit, Multiset.mem_cons] at hz
    have hzm : z ≤ m := by
      rcases hz with rfl | hz
      · exact le_rfl
      · exact h.rest_le z hz m hm
    rcases Multiset.mem_cons.mp hy with rfl | hy
    · exact hzm.trans hx
    · exact hzm.trans (hmin y (Multiset.mem_of_mem_erase hy))

/-- The largest elements, computed. -/
theorem eq_take (h : IsTop k s t) : t = (((s.sort (· ≥ ·)).take k : List α) : Multiset α) := by
  have hsort : s.sort (· ≥ ·) = t.sort (· ≥ ·) ++ (s - t).sort (· ≥ ·) := by
    refine List.Perm.eq_of_pairwise' (r := (· ≥ ·)) ?_ ?_ ?_
    · exact Multiset.pairwise_sort _ _
    · refine List.pairwise_append.mpr ⟨Multiset.pairwise_sort _ _, Multiset.pairwise_sort _ _, ?_⟩
      intro y hy z hz
      exact h.rest_le z ((Multiset.mem_sort _).mp hz) y ((Multiset.mem_sort _).mp hy)
    · rw [← Multiset.coe_eq_coe, ← Multiset.coe_add, Multiset.sort_eq, Multiset.sort_eq,
        Multiset.sort_eq, add_tsub_cancel_of_le h.le]
  have hlen : (t.sort (· ≥ ·)).length = t.card := Multiset.length_sort _
  by_cases ht : t.card = k
  · rw [hsort, List.take_left' (hlen.trans ht), Multiset.sort_eq]
  · have hcard := h.card_eq
    obtain rfl := h.eq_of_lt (by omega)
    rw [List.take_of_length_le (by omega), Multiset.sort_eq]

end IsTop

end Nvhm
