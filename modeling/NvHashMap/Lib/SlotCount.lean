import Mathlib.Algebra.BigOperators.Group.Finset.Basic
import Mathlib.Algebra.BigOperators.Ring.Finset
import Mathlib.Data.Finset.Card
import Mathlib.Data.Finset.Range

/-! # Counting the slots of a table

A table of `n` slots is a function on `ℕ` of which the values below `n` matter.  `countSlots n p f`
is the number of slots whose value satisfies `p`, and `collect n occ e` is the multiset of the
entries `e` of the slots in `occ`.  An update of one slot changes a count by what it adds and
removes (`countSlots_update`), and adds one entry to the multiset or removes one
(`collect_insert`). -/

namespace SlotCount
variable {α β : Type*}

/-- The number of slots below `n` whose value satisfies `p`. -/
def countSlots (n : ℕ) (p : α → Bool) (f : ℕ → α) : ℕ :=
  ((Finset.range n).filter fun i => p (f i) = true).card

theorem countSlots_eq_sum (n : ℕ) (p : α → Bool) (f : ℕ → α) :
    countSlots n p f = ∑ i ∈ Finset.range n, if p (f i) = true then 1 else 0 := by
  rw [countSlots, Finset.card_filter]

theorem countSlots_congr {n : ℕ} {p : α → Bool} {f g : ℕ → α} (h : ∀ i < n, f i = g i) :
    countSlots n p f = countSlots n p g := by
  rw [countSlots_eq_sum, countSlots_eq_sum]
  exact Finset.sum_congr rfl fun i hi => by rw [h i (Finset.mem_range.mp hi)]

theorem countSlots_update {n i : ℕ} (hi : i < n) (p : α → Bool) (f : ℕ → α) (a : α) :
    countSlots n p (Function.update f i a) + (if p (f i) = true then 1 else 0) =
      countSlots n p f + (if p a = true then 1 else 0) := by
  have hmem : i ∈ Finset.range n := Finset.mem_range.mpr hi
  rw [countSlots_eq_sum, countSlots_eq_sum, ← Finset.add_sum_erase _ _ hmem,
    ← Finset.add_sum_erase (Finset.range n) (fun j => if p (f j) = true then 1 else 0) hmem,
    Function.update_self]
  have hrest : ∑ j ∈ (Finset.range n).erase i, (if p (Function.update f i a j) = true then 1 else 0)
      = ∑ j ∈ (Finset.range n).erase i, if p (f j) = true then 1 else 0 :=
    Finset.sum_congr rfl fun j hj => by rw [Function.update_of_ne (Finset.ne_of_mem_erase hj)]
  rw [hrest]
  omega

theorem countSlots_pos {n : ℕ} {p : α → Bool} {f : ℕ → α} :
    0 < countSlots n p f ↔ ∃ i < n, p (f i) = true := by
  simp [countSlots, Finset.card_pos, Finset.Nonempty]

theorem countSlots_eq_zero {n : ℕ} {p : α → Bool} {f : ℕ → α} :
    countSlots n p f = 0 ↔ ∀ i < n, p (f i) = false := by
  simp [countSlots, Finset.card_eq_zero, Finset.filter_eq_empty_iff]

theorem countSlots_const (n : ℕ) (p : α → Bool) (a : α) :
    countSlots n p (fun _ => a) = if p a = true then n else 0 := by
  rw [countSlots_eq_sum]
  split_ifs <;> simp_all

/-- Predicates that split the values split the slots. -/
theorem countSlots_add_add {n : ℕ} {p q r : α → Bool} {f : ℕ → α}
    (h : ∀ i < n, (p (f i)).toNat + (q (f i)).toNat + (r (f i)).toNat = 1) :
    countSlots n p f + countSlots n q f + countSlots n r f = n := by
  rw [countSlots_eq_sum, countSlots_eq_sum, countSlots_eq_sum, ← Finset.sum_add_distrib,
    ← Finset.sum_add_distrib]
  calc ∑ i ∈ Finset.range n, _ = ∑ i ∈ Finset.range n, 1 :=
        Finset.sum_congr rfl fun i hi => by
          have := h i (Finset.mem_range.mp hi)
          revert this
          cases p (f i) <;> cases q (f i) <;> cases r (f i) <;> simp
    _ = n := by simp

/-- An update of one slot changes a sum by what it adds and removes. -/
theorem sum_update {n i : ℕ} (hi : i < n) (f : ℕ → ℕ) (a : ℕ) :
    ∑ j ∈ Finset.range n, Function.update f i a j + f i = ∑ j ∈ Finset.range n, f j + a := by
  rw [Finset.sum_update_of_mem (Finset.mem_range.mpr hi), Finset.sdiff_singleton_eq_erase,
    ← Finset.add_sum_erase _ f (Finset.mem_range.mpr hi)]
  omega

/-- Filling a block of slots that all satisfy `p`, or all do not. -/
theorem countSlots_fill {n o : ℕ} {p : α → Bool} {f : ℕ → α} {c : Bool} (b : α) : ∀ {k : ℕ},
    o + k ≤ n → (∀ d < k, p (f (o + d)) = c) →
    countSlots n p (fun x => if o ≤ x ∧ x < o + k then b else f x) + (if c then k else 0) =
      countSlots n p f + (if p b then k else 0)
  | 0, _, _ => by
      have : (fun x => if o ≤ x ∧ x < o + 0 then b else f x) = f := by
        funext x
        rw [if_neg (by omega)]
      rw [this]
      split_ifs <;> rfl
  | k + 1, hk, hf => by
      have ih := countSlots_fill (n := n) b (k := k) (by omega) fun d hd => hf d (by omega)
      have hstep : (fun x => if o ≤ x ∧ x < o + (k + 1) then b else f x) =
          Function.update (fun x => if o ≤ x ∧ x < o + k then b else f x) (o + k) b := by
        funext x
        by_cases hx : x = o + k
        · rw [hx, Function.update_self, if_pos (by omega)]
        · rw [Function.update_of_ne hx]
          exact if_congr (by omega) rfl rfl
      have hupd := countSlots_update (n := n) (i := o + k) (by omega) p
        (fun x => if o ≤ x ∧ x < o + k then b else f x) b
      rw [if_neg (by omega : ¬ (o ≤ o + k ∧ o + k < o + k)), hf k (by omega)] at hupd
      have hsplit : ∀ q : Bool, (if q = true then k + 1 else 0) =
          (if q = true then k else 0) + if q = true then 1 else 0 := by
        intro q
        cases q <;> rfl
      rw [hstep, hsplit, hsplit]
      omega

/-- Every slot of a range that changes comes to satisfy `p`. -/
theorem countSlots_changed [BEq α] [LawfulBEq α] {n o : ℕ} {p : α → Bool} {f : ℕ → α} :
    ∀ {k : ℕ} {f' : ℕ → α}, o + k ≤ n → (∀ x, ¬ (o ≤ x ∧ x < o + k) → f' x = f x) →
    (∀ d < k, f' (o + d) = f (o + d) ∨ p (f' (o + d)) = true ∧ p (f (o + d)) = false) →
    countSlots n p f' = countSlots n p f +
      ((List.range k).filter fun d => f (o + d) != f' (o + d)).length
  | 0, f', _, hout, _ => by
      obtain rfl : f' = f := funext fun x => hout x (by omega)
      rfl
  | k + 1, f', hk, hout, hin => by
      -- all changes but the last one
      have hrest : ∀ x, ¬ (o ≤ x ∧ x < o + k) →
          Function.update f' (o + k) (f (o + k)) x = f x := by
        intro x hx
        by_cases hxk : x = o + k
        · rw [hxk, Function.update_self]
        · rw [Function.update_of_ne hxk]
          exact hout x (by omega)
      have hsame : ∀ d < k, Function.update f' (o + k) (f (o + k)) (o + d) = f' (o + d) :=
        fun d hd => Function.update_of_ne (by omega : o + d ≠ o + k) _ _
      have ih := countSlots_changed (n := n) (k := k) (by omega) hrest fun d hd => by
        rw [hsame d hd]
        exact hin d (by omega)
      have hupd := countSlots_update (n := n) (i := o + k) (by omega) p f' (f (o + k))
      have hfilter : ((List.range k).filter fun d =>
          f (o + d) != Function.update f' (o + k) (f (o + k)) (o + d)) =
            (List.range k).filter fun d => f (o + d) != f' (o + d) :=
        List.filter_congr fun d hd => by rw [hsame d (List.mem_range.mp hd)]
      rw [List.range_succ, List.filter_append, List.length_append, ← hfilter]
      rcases hin k (by omega) with heq | ⟨h1, h2⟩
      · rw [List.filter_singleton, heq, bne_self_eq_false]
        rw [heq] at hupd
        change countSlots n p f' = _ + (_ + 0)
        omega
      · have hne : (f (o + k) != f' (o + k)) = true := by
          rw [bne_iff_ne]
          intro hc
          rw [hc, h1] at h2
          cases h2
        rw [List.filter_singleton, hne]
        simp only [h1, h2, Bool.false_eq_true, if_true, if_false] at hupd
        change countSlots n p f' = _ + (_ + 1)
        omega

/-- The entries of the slots in `occ`. -/
def collect (n : ℕ) (occ : ℕ → Bool) (e : ℕ → β) : Multiset β :=
  ((Finset.range n).filter fun i => occ i = true).val.map e

theorem mem_collect {n : ℕ} {occ : ℕ → Bool} {e : ℕ → β} {x : β} :
    x ∈ collect n occ e ↔ ∃ i < n, occ i = true ∧ e i = x := by
  simp [collect, Multiset.mem_map, and_assoc]

theorem card_collect (n : ℕ) (occ : ℕ → Bool) (e : ℕ → β) :
    (collect n occ e).card = ((Finset.range n).filter fun i => occ i = true).card :=
  Multiset.card_map _ _

theorem collect_congr {n : ℕ} {occ occ' : ℕ → Bool} {e e' : ℕ → β} (h : ∀ i < n, occ i = occ' i)
    (he : ∀ i < n, occ i = true → e i = e' i) : collect n occ e = collect n occ' e' := by
  have hfilter : (Finset.range n).filter (fun i => occ i = true) =
      (Finset.range n).filter fun i => occ' i = true :=
    Finset.filter_congr fun i hi => by rw [h i (Finset.mem_range.mp hi)]
  rw [collect, collect, ← hfilter]
  apply Multiset.map_congr rfl
  intro i hi
  obtain ⟨hi, ho⟩ := Finset.mem_filter.mp (Finset.mem_val.mp hi)
  exact he i (Finset.mem_range.mp hi) ho

/-- Occupying one more slot adds its entry. -/
theorem collect_insert {n i : ℕ} {occ occ' : ℕ → Bool} {e e' : ℕ → β} (hi : i < n)
    (hfree : occ i = false) (hocc : occ' i = true) (hrest : ∀ j, j ≠ i → occ' j = occ j)
    (he : ∀ j < n, occ j = true → e' j = e j) : collect n occ' e' = e' i ::ₘ collect n occ e := by
  have hfilter : (Finset.range n).filter (fun j => occ' j = true) =
      insert i ((Finset.range n).filter fun j => occ j = true) := by
    ext j
    simp only [Finset.mem_filter, Finset.mem_range, Finset.mem_insert]
    by_cases hj : j = i
    · subst hj
      simp [hi, hocc]
    · simp [hj, hrest j hj]
  have hnot : i ∉ (Finset.range n).filter fun j => occ j = true := by simp [hfree]
  rw [collect, hfilter, Finset.insert_val_of_notMem hnot, Multiset.map_cons, collect]
  congr 1
  apply Multiset.map_congr rfl
  intro j hj
  obtain ⟨hj, ho⟩ := Finset.mem_filter.mp (Finset.mem_val.mp hj)
  exact he j (Finset.mem_range.mp hj) ho

theorem collect_eq_zero {n : ℕ} {occ : ℕ → Bool} {e : ℕ → β} (h : ∀ i < n, occ i = false) :
    collect n occ e = 0 := by
  rw [← Multiset.card_eq_zero, card_collect, Finset.card_eq_zero, Finset.filter_eq_empty_iff]
  intro i hi
  rw [h i (Finset.mem_range.mp hi)]
  decide

/-- The entries of a list without repetitions that enumerates the slots in `occ`. -/
theorem collect_eq_map {n : ℕ} {occ : ℕ → Bool} {e : ℕ → β} {l : List ℕ} (hl : l.Nodup)
    (h : ∀ i, i ∈ l ↔ i < n ∧ occ i = true) : collect n occ e = (l.map e : Multiset β) := by
  have hval : ((Finset.range n).filter fun i => occ i = true).val = (l : Multiset ℕ) := by
    rw [Multiset.Nodup.ext (Finset.nodup _) (Multiset.coe_nodup.mpr hl)]
    intro i
    simp [h]
  rw [collect, hval, Multiset.map_coe]

/-- No two slots in `occ` have entries that `r` relates, if no entry is related to two. -/
theorem countP_collect_le_one {n : ℕ} {occ : ℕ → Bool} {e : ℕ → β} {r : β → Bool} :
    (collect n occ e).countP (fun x => r x = true) ≤ 1 ↔
      ∀ i < n, ∀ j < n, occ i = true → occ j = true → r (e i) = true → r (e j) = true → i = j := by
  have hcard : (collect n occ e).countP (fun x => r x = true) =
      (((Finset.range n).filter fun i => occ i = true).filter fun i => r (e i) = true).card := by
    rw [collect, Multiset.countP_map]
    rfl
  rw [hcard, Finset.card_le_one]
  simp only [Finset.mem_filter, Finset.mem_range]
  constructor
  · intro h i hi j hj oi oj ri rj
    exact h i ⟨⟨hi, oi⟩, ri⟩ j ⟨⟨hj, oj⟩, rj⟩
  · rintro h i ⟨⟨hi, oi⟩, ri⟩ j ⟨⟨hj, oj⟩, rj⟩
    exact h i hi j hj oi oj ri rj

end SlotCount
