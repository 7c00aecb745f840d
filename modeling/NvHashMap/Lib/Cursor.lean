import Mathlib.Order.Basic
import Mathlib.Data.Set.Basic
import Mathlib.Data.List.Sort
import Mathlib.Tactic

/-! # Cursors

A cursor over some places of a linear order, that knows single steps only.

* A step forward goes to the next place, a step back to the place before.  Hence one step undoes the
  other (`prev_next`, `next_prev`).
* `move` and `distance` repeat single steps; `traverse` and `traverseBack` collect the places that
  they meet.  The loops that stop at a place take a bound on the number of their steps. -/

namespace Cursor
variable {α : Type}

/-! ### Loops -/

/-- Take `n` steps, back if `n` is negative. -/
def move (next prev : α → α) (n : ℤ) (p : α) : α :=
  if 0 < n then next^[n.toNat] p else prev^[(-n).toNat] p

/-- Collect the places from `p` on until `q` is met. -/
def traverse [DecidableEq α] (next : α → α) (q : α) : ℕ → α → Option (List α)
  | 0, _ => none
  | f + 1, p => if p = q then some [] else (traverse next q f (next p)).map (p :: ·)

/-- Collect the places before `p`, back to `q`. -/
def traverseBack [DecidableEq α] (prev : α → α) (q : α) : ℕ → α → Option (List α)
  | 0, _ => none
  | f + 1, p => if p = q then some [] else (traverseBack prev q f (prev p)).map (prev p :: ·)

/-- Step from `p` for as long as `test` holds, and add `d` to `n` at every step. -/
def count (step : α → α) (test : α → Bool) (d : ℤ) : ℕ → α → ℤ → Option (α × ℤ)
  | 0, _, _ => none
  | f + 1, p, n => if test p then count step test d f (step p) (n + d) else some (p, n)

/-- The number of steps from `q` to `p`. -/
def distance [LT α] [DecidableLT α] (next prev : α → α) (f : ℕ) (p q : α) : Option ℤ := do
  let (p, n) ← count next (fun p => decide (p < q)) (-1) f p 0
  let (_, n) ← count prev (fun p => decide (q < p)) 1 f p n
  some n

variable [LinearOrder α]

/-- The steps go to the neighbours among the places `P`. -/
structure Steps (P : Set α) (next prev : α → α) : Prop where
  next_mem : ∀ {p}, p ∈ P → next p ∈ P
  lt_next : ∀ {p}, p ∈ P → p < next p
  next_le : ∀ {p q}, p ∈ P → q ∈ P → p < q → next p ≤ q
  prev_mem : ∀ {p}, p ∈ P → prev p ∈ P
  prev_lt : ∀ {p}, p ∈ P → prev p < p
  le_prev : ∀ {p q}, p ∈ P → q ∈ P → q < p → q ≤ prev p

namespace Steps
variable {P : Set α} {next prev : α → α} (h : Steps P next prev)
include h

/-! ### Single steps -/

theorem prev_next {p : α} (hp : p ∈ P) : prev (next p) = p := by
  have hn := h.next_mem hp
  refine le_antisymm ?_ (h.le_prev hn hp (h.lt_next hp))
  by_contra hlt
  have hle := h.next_le hp (h.prev_mem hn) (not_le.mp hlt)
  exact absurd (h.prev_lt hn) (not_lt.mpr hle)

theorem next_prev {p : α} (hp : p ∈ P) : next (prev p) = p := by
  have hn := h.prev_mem hp
  refine le_antisymm (h.next_le hn hp (h.prev_lt hp)) ?_
  by_contra hlt
  have hle := h.le_prev hp (h.next_mem hn) (not_le.mp hlt)
  exact absurd (h.lt_next hn) (not_lt.mpr hle)

/-! ### Repeated steps -/

theorem iterate_next_mem {p : α} (hp : p ∈ P) (n : ℕ) : next^[n] p ∈ P := by
  induction n with
  | zero => exact hp
  | succ n ih =>
      rw [Function.iterate_succ_apply']
      exact h.next_mem ih

theorem iterate_prev_mem {p : α} (hp : p ∈ P) (n : ℕ) : prev^[n] p ∈ P := by
  induction n with
  | zero => exact hp
  | succ n ih =>
      rw [Function.iterate_succ_apply']
      exact h.prev_mem ih

theorem lt_iterate_next {p : α} (hp : p ∈ P) (n : ℕ) : p < next^[n + 1] p := by
  induction n with
  | zero => exact h.lt_next hp
  | succ n ih =>
      rw [Function.iterate_succ_apply']
      exact lt_trans ih (h.lt_next (h.iterate_next_mem hp _))

theorem iterate_prev_lt {p : α} (hp : p ∈ P) (n : ℕ) : prev^[n + 1] p < p := by
  induction n with
  | zero => exact h.prev_lt hp
  | succ n ih =>
      rw [Function.iterate_succ_apply']
      exact lt_trans (h.prev_lt (h.iterate_prev_mem hp _)) ih

theorem prev_iterate_next {p : α} (hp : p ∈ P) (n : ℕ) : prev (next^[n + 1] p) = next^[n] p := by
  rw [Function.iterate_succ_apply']
  exact h.prev_next (h.iterate_next_mem hp n)

theorem next_iterate_prev {p : α} (hp : p ∈ P) (n : ℕ) : next (prev^[n + 1] p) = prev^[n] p := by
  rw [Function.iterate_succ_apply']
  exact h.next_prev (h.iterate_prev_mem hp n)

/-! ### Distances -/

/-- Walking back from `n` steps ahead. -/
theorem count_prev {p : α} (hp : p ∈ P) {n f : ℕ} (hf : n < f) (d : ℤ) :
    count prev (fun x => decide (p < x)) 1 f (next^[n] p) d = some (p, d + n) := by
  induction n generalizing f d with
  | zero =>
      obtain ⟨f, rfl⟩ : ∃ g, f = g + 1 := ⟨f - 1, by omega⟩
      simp [count]
  | succ n ih =>
      obtain ⟨f, rfl⟩ : ∃ g, f = g + 1 := ⟨f - 1, by omega⟩
      rw [count, if_pos (decide_eq_true (h.lt_iterate_next hp n)), h.prev_iterate_next hp,
        ih (by omega)]
      congr 2
      push_cast
      ring

/-- Walking forward from `n` steps back. -/
theorem count_next {p : α} (hp : p ∈ P) {n f : ℕ} (hf : n < f) (d : ℤ) :
    count next (fun x => decide (x < p)) (-1) f (prev^[n] p) d = some (p, d - n) := by
  induction n generalizing f d with
  | zero =>
      obtain ⟨f, rfl⟩ : ∃ g, f = g + 1 := ⟨f - 1, by omega⟩
      simp [count]
  | succ n ih =>
      obtain ⟨f, rfl⟩ : ∃ g, f = g + 1 := ⟨f - 1, by omega⟩
      rw [count, if_pos (decide_eq_true (h.iterate_prev_lt hp n)), h.next_iterate_prev hp,
        ih (by omega)]
      congr 2
      push_cast
      ring

theorem distance_next {p : α} (hp : p ∈ P) {n f : ℕ} (hf : n < f) :
    distance next prev f (next^[n] p) p = some (n : ℤ) := by
  have hge : ¬next^[n] p < p := by
    cases n with
    | zero => exact lt_irrefl p
    | succ n => exact not_lt.mpr (h.lt_iterate_next hp n).le
  obtain ⟨g, rfl⟩ : ∃ g, f = g + 1 := ⟨f - 1, by omega⟩
  have hup : count next (fun x => decide (x < p)) (-1) (g + 1) (next^[n] p) 0 =
      some (next^[n] p, 0) := by
    rw [count, if_neg (by simpa using hge)]
  simp only [distance, hup, h.count_prev hp hf, Option.bind_eq_bind, Option.bind_some, zero_add]

theorem distance_prev {p : α} (hp : p ∈ P) {n f : ℕ} (hf : n < f) :
    distance next prev f (prev^[n] p) p = some (-n : ℤ) := by
  have hup := h.count_next hp hf 0
  have hdown := h.count_prev hp (show 0 < f by omega) (0 - (n : ℤ))
  simp only [Function.iterate_zero, id_eq, Nat.cast_zero, add_zero] at hdown
  simp only [distance, hup, hdown, Option.bind_eq_bind, Option.bind_some]
  rw [zero_sub]

/-- The distance to a place that is reached by `n` steps is `n`. -/
theorem distance_move {p : α} (hp : p ∈ P) (n : ℤ) {f : ℕ} (hf : n.natAbs < f) :
    distance next prev f (move next prev n p) p = some n := by
  unfold move
  split_ifs with hn
  · rw [h.distance_next hp (by omega)]
    congr 1
    omega
  · rw [h.distance_prev hp (by omega)]
    congr 1
    omega

/-! ### Traversals -/

theorem traverse_iterate {p : α} (hp : p ∈ P) {n f : ℕ} (hf : n < f) :
    traverse next (next^[n] p) f p = some ((List.range n).map fun i => next^[i] p) := by
  induction n generalizing f p with
  | zero =>
      obtain ⟨f, rfl⟩ : ∃ g, f = g + 1 := ⟨f - 1, by omega⟩
      simp [traverse]
  | succ n ih =>
      obtain ⟨f, rfl⟩ : ∃ g, f = g + 1 := ⟨f - 1, by omega⟩
      rw [traverse, if_neg (h.lt_iterate_next hp n).ne, Function.iterate_succ_apply,
        ih (h.next_mem hp) (by omega), List.range_succ_eq_map]
      simp [Function.comp_def]

theorem traverseBack_iterate {p : α} (hp : p ∈ P) {n f : ℕ} (hf : n < f) :
    traverseBack prev p f (next^[n] p) =
      some ((List.range n).map fun i => next^[i] p).reverse := by
  induction n generalizing f with
  | zero =>
      obtain ⟨f, rfl⟩ : ∃ g, f = g + 1 := ⟨f - 1, by omega⟩
      simp [traverseBack]
  | succ n ih =>
      obtain ⟨f, rfl⟩ : ∃ g, f = g + 1 := ⟨f - 1, by omega⟩
      rw [traverseBack, if_neg (h.lt_iterate_next hp n).ne', h.prev_iterate_next hp,
        ih (by omega), List.range_succ]
      simp

/-- The places from `p` on and before `q`, in ascending order, are the first iterates of `p`. -/
theorem eq_iterates {p q : α} {l : List α} (hp : p ∈ P) (hq : q ∈ P) (hpq : p ≤ q)
    (hl : l.Pairwise (· < ·)) (hmem : ∀ x, x ∈ l ↔ x ∈ P ∧ p ≤ x ∧ x < q) :
    l = ((List.range l.length).map fun i => next^[i] p) ∧ next^[l.length] p = q := by
  induction l generalizing p with
  | nil =>
      refine ⟨rfl, ?_⟩
      by_contra hne
      have hin := (hmem p).mpr ⟨hp, le_rfl, lt_of_le_of_ne hpq hne⟩
      exact absurd hin List.not_mem_nil
  | cons x xs ih =>
      obtain ⟨hx, hpx, hxq⟩ := (hmem x).mp List.mem_cons_self
      rw [List.pairwise_cons] at hl
      have heq : x = p := by
        have hin := (hmem p).mpr ⟨hp, le_rfl, lt_of_le_of_lt hpx hxq⟩
        rcases List.mem_cons.mp hin with heq | hin
        · exact heq.symm
        · exact absurd (hl.1 p hin) (not_lt.mpr hpx)
      subst heq
      have hrest : ∀ y, y ∈ xs ↔ y ∈ P ∧ next x ≤ y ∧ y < q := by
        intro y
        constructor
        · intro hy
          obtain ⟨hyP, -, hyq⟩ := (hmem y).mp (List.mem_cons_of_mem _ hy)
          exact ⟨hyP, h.next_le hx hyP (hl.1 y hy), hyq⟩
        · rintro ⟨hyP, hle, hyq⟩
          have hlt := lt_of_lt_of_le (h.lt_next hx) hle
          rcases List.mem_cons.mp ((hmem y).mpr ⟨hyP, hlt.le, hyq⟩) with heq | hin
          · exact absurd heq hlt.ne'
          · exact hin
      obtain ⟨ht, hi⟩ := ih (h.next_mem hx) (h.next_le hx hq hxq) hl.2 hrest
      refine ⟨?_, ?_⟩
      · rw [List.length_cons, List.range_succ_eq_map, List.map_cons, List.map_map]
        exact congrArg (x :: ·) ht
      · rw [List.length_cons, Function.iterate_succ_apply]
        exact hi

section Range
variable {p q : α} {l : List α} (hp : p ∈ P) (hq : q ∈ P) (hpq : p ≤ q)
  (hl : l.Pairwise (· < ·)) (hmem : ∀ x, x ∈ l ↔ x ∈ P ∧ p ≤ x ∧ x < q)
include hp hq hpq hl hmem

/-- Stepping from `p` to `q` meets the places between them. -/
theorem traverse_eq {f : ℕ} (hf : l.length < f) : traverse next q f p = some l := by
  obtain ⟨ht, hi⟩ := h.eq_iterates hp hq hpq hl hmem
  rw [← hi, h.traverse_iterate hp hf, ← ht]

/-- Stepping back from `q` to `p` meets them in reverse order. -/
theorem traverseBack_eq {f : ℕ} (hf : l.length < f) :
    traverseBack prev p f q = some l.reverse := by
  obtain ⟨ht, hi⟩ := h.eq_iterates hp hq hpq hl hmem
  rw [← hi, h.traverseBack_iterate hp hf, ← ht]

/-- The distance is the number of places between them. -/
theorem distance_eq {f : ℕ} (hf : l.length < f) :
    distance next prev f q p = some (l.length : ℤ) := by
  rw [← (h.eq_iterates hp hq hpq hl hmem).2]
  exact h.distance_next hp hf

end Range

end Steps

end Cursor
