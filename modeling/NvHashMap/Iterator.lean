import NvHashMap.Lib.Cursor
import NvHashMap.Common

/-! # Iterators

`raw_map_base::iterator_base`, for maps and caches alike.

* The position of an iterator is a signed number.  A step inside the table skips the free slots;
  outside the table it goes to the next number.
* The loops run over the distance to the end of the table, so their fuel is exactly what they need.
* The places of an iterator are the occupied slots and all positions outside the table; `++` and
  `--` go from each to its neighbours (`Outer.steps`). -/

namespace Nvhm

/-! ### Definitions -/

/-- What an iterator asks of its container: `capacity` and `contains_at_`. -/
structure Outer where
  capacity : ℕ
  containsAt : ℕ → Bool

namespace Outer
variable (o : Outer)

/-- `is_left`. -/
def isLeft (pos : ℤ) : Bool := decide (pos < 0)

/-- `is_right`. -/
def isRight (pos : ℤ) : Bool := decide ((o.capacity : ℤ) ≤ pos)

/-- The loop of `operator++`. -/
def nextLoop : ℕ → ℤ → ℤ
  | 0, pos => pos + 1
  | n + 1, pos =>
      let pos := pos + 1
      if pos < o.capacity then
        if o.containsAt pos.toNat then pos else nextLoop n pos
      else pos

/-- `operator++`. -/
def next (pos : ℤ) : ℤ :=
  if pos < -1 then pos + 1 else o.nextLoop (o.capacity - pos).toNat pos

/-- The loop of `operator--`. -/
def prevLoop : ℕ → ℤ → ℤ
  | 0, pos => pos - 1
  | n + 1, pos =>
      let pos := pos - 1
      if 0 ≤ pos then
        if o.containsAt pos.toNat then pos else prevLoop n pos
      else pos

/-- `operator--`. -/
def prev (pos : ℤ) : ℤ :=
  if (o.capacity : ℤ) < pos then pos - 1 else o.prevLoop pos.toNat pos

/-- `operator+=`. -/
def add (pos n : ℤ) : ℤ := Cursor.move o.next o.prev n pos

/-- `operator-`; at most `fuel - 1` steps in each of the two loops. -/
def sub (fuel : ℕ) (lhs rhs : ℤ) : Option ℤ := Cursor.distance o.next o.prev fuel lhs rhs

/-- `begin`, for the position that `front_` returns. -/
def begin_ (front : Option ℕ) : ℤ :=
  match front with
  | some pos => pos
  | none => o.capacity

/-- `end`. -/
def end_ : ℤ := o.capacity

/-- The positions of `for (it = begin; it != end; ++it)`. -/
def walk (fuel : ℕ) (begin_ : ℤ) : Option (List ℤ) := Cursor.traverse o.next o.end_ fuel begin_

/-- The iterators that a program gets from `begin` and `end` by `++` and `--`. -/
inductive Obtainable (begin_ : ℤ) : ℤ → Prop where
  | ofBegin : Obtainable begin_ begin_
  | ofEnd : Obtainable begin_ o.end_
  | next {pos : ℤ} : Obtainable begin_ pos → Obtainable begin_ (o.next pos)
  | prev {pos : ℤ} : Obtainable begin_ pos → Obtainable begin_ (o.prev pos)

/-! ### Steps -/

/-- The occupied slots, and the positions outside the table. -/
def Places : Set ℤ := {p | 0 ≤ p → p < o.capacity → o.containsAt p.toNat = true}

variable {o}

theorem mem_places_of_neg {p : ℤ} (h : p < 0) : p ∈ o.Places :=
  fun h0 => absurd h (not_lt.mpr h0)

theorem mem_places_of_le {p : ℤ} (h : (o.capacity : ℤ) ≤ p) : p ∈ o.Places :=
  fun _ hlt => absurd h (not_le.mpr hlt)

theorem nextLoop_spec {n : ℕ} : ∀ {pos : ℤ}, -1 ≤ pos → (o.capacity : ℤ) ≤ pos + n →
    o.nextLoop n pos ∈ o.Places ∧ pos < o.nextLoop n pos ∧
      ∀ q ∈ o.Places, pos < q → o.nextLoop n pos ≤ q := by
  induction n with
  | zero =>
      intro pos _ hcap
      refine ⟨mem_places_of_le (by unfold nextLoop; omega), ?_, fun q _ hq => ?_⟩
      · unfold nextLoop
        omega
      · unfold nextLoop
        omega
  | succ n ih =>
      intro pos hpos hcap
      unfold nextLoop
      dsimp only
      split_ifs with hlt hc
      · exact ⟨fun _ _ => hc, by omega, fun q _ hq => by omega⟩
      · obtain ⟨hmem, hgt, hle⟩ := ih (show -1 ≤ pos + 1 by omega)
          (by push_cast at hcap ⊢; omega)
        refine ⟨hmem, by omega, fun q hq hpq => hle q hq ?_⟩
        -- the slot behind `pos` is free, so no place lies there
        rcases eq_or_lt_of_le (show pos + 1 ≤ q by omega) with heq | hlt'
        · exact absurd (hq (by omega) (by omega)) (heq ▸ hc)
        · exact hlt'
      · exact ⟨mem_places_of_le (not_lt.mp hlt), by omega, fun q _ hq => by omega⟩

theorem prevLoop_spec {n : ℕ} : ∀ {pos : ℤ}, pos ≤ o.capacity → pos ≤ n →
    o.prevLoop n pos ∈ o.Places ∧ o.prevLoop n pos < pos ∧
      ∀ q ∈ o.Places, q < pos → q ≤ o.prevLoop n pos := by
  induction n with
  | zero =>
      intro pos _ hpos
      refine ⟨mem_places_of_neg (by unfold prevLoop; push_cast at hpos; omega), ?_, fun q _ hq => ?_⟩
      · unfold prevLoop
        omega
      · unfold prevLoop
        omega
  | succ n ih =>
      intro pos hcap hpos
      unfold prevLoop
      dsimp only
      split_ifs with hge hc
      · exact ⟨fun _ _ => hc, by omega, fun q _ hq => by omega⟩
      · obtain ⟨hmem, hlt, hle⟩ := ih (show pos - 1 ≤ o.capacity by omega)
          (by push_cast at hpos ⊢; omega)
        refine ⟨hmem, by omega, fun q hq hqp => hle q hq ?_⟩
        rcases eq_or_lt_of_le (show q ≤ pos - 1 by omega) with heq | hlt'
        · exact absurd (hq (by omega) (by omega)) (heq ▸ hc)
        · exact hlt'
      · exact ⟨mem_places_of_neg (not_le.mp hge), by omega, fun q _ hq => by omega⟩

variable (o)

theorem next_spec (pos : ℤ) : o.next pos ∈ o.Places ∧ pos < o.next pos ∧
    ∀ q ∈ o.Places, pos < q → o.next pos ≤ q := by
  unfold next
  split_ifs with hneg
  · exact ⟨mem_places_of_neg (by omega), by omega, fun q _ hq => by omega⟩
  · exact nextLoop_spec (by omega) (by omega)

theorem prev_spec (pos : ℤ) : o.prev pos ∈ o.Places ∧ o.prev pos < pos ∧
    ∀ q ∈ o.Places, q < pos → q ≤ o.prev pos := by
  unfold prev
  split_ifs with hright
  · exact ⟨mem_places_of_le (by omega), by omega, fun q _ hq => by omega⟩
  · exact prevLoop_spec (by omega) (by omega)

theorem steps : Cursor.Steps o.Places o.next o.prev where
  next_mem _ := (o.next_spec _).1
  lt_next _ := (o.next_spec _).2.1
  next_le _ hq hpq := (o.next_spec _).2.2 _ hq hpq
  prev_mem _ := (o.prev_spec _).1
  prev_lt _ := (o.prev_spec _).2.1
  le_prev _ hq hqp := (o.prev_spec _).2.2 _ hq hqp

theorem end_mem : o.end_ ∈ o.Places := mem_places_of_le le_rfl

variable {o}

theorem Obtainable.mem {b p : ℤ} (hb : b ∈ o.Places) (h : o.Obtainable b p) : p ∈ o.Places := by
  induction h with
  | ofBegin => exact hb
  | ofEnd => exact o.end_mem
  | next _ _ => exact (o.next_spec _).1
  | prev _ _ => exact (o.prev_spec _).1

/-! ### Iterating over a container -/

/-- The list of the occupied slots in ascending order. -/
structure Lists (o : Outer) (l : List ℕ) : Prop where
  sorted : l.Pairwise (· < ·)
  mem_iff : ∀ p, p ∈ l ↔ p < o.capacity ∧ o.containsAt p = true

/-- What iterating over a container from `b` does; `l` are the positions that `for_each` visits. -/
structure Iterates (o : Outer) (b : ℤ) (l : List ℕ) : Prop extends Lists o l where
  walk_eq : ∀ fuel, l.length < fuel → o.walk fuel b = some (l.map Nat.cast)
  prev_next : ∀ p, o.Obtainable b p → o.prev (o.next p) = p
  next_prev : ∀ p, o.Obtainable b p → o.next (o.prev p) = p
  add_sub : ∀ p, o.Obtainable b p → ∀ n : ℤ, ∀ fuel, n.natAbs < fuel →
    o.sub fuel (o.add p n) p = some n
  end_sub : ∀ fuel, l.length < fuel → o.sub fuel o.end_ b = some (l.length : ℤ)

namespace Lists
variable {l : List ℕ} (h : Lists o l)
include h

/-- `begin` is the first occupied slot, or the end. -/
theorem begin_mem : o.begin_ l.head? ∈ o.Places := by
  unfold begin_
  split
  case h_1 p hp =>
    intro _ _
    exact ((h.mem_iff p).mp (List.mem_of_head? hp)).2
  case h_2 => exact o.end_mem

theorem begin_le : o.begin_ l.head? ≤ o.end_ := by
  unfold begin_ end_
  split
  case h_1 p hp =>
    have hlt := ((h.mem_iff p).mp (List.mem_of_head? hp)).1
    omega
  case h_2 => exact le_rfl

theorem begin_le_of_mem {p : ℕ} (hp : p ∈ l) : o.begin_ l.head? ≤ p := by
  cases l with
  | nil => exact absurd hp List.not_mem_nil
  | cons x xs =>
      rcases List.mem_cons.mp hp with rfl | hp
      · exact le_rfl
      · exact Int.ofNat_le.mpr ((List.pairwise_cons.mp h.sorted).1 p hp).le

/-- The places from `begin` to the end. -/
theorem mem_range (x : ℤ) : x ∈ l.map (Nat.cast : ℕ → ℤ) ↔
    x ∈ o.Places ∧ o.begin_ l.head? ≤ x ∧ x < o.end_ := by
  rw [List.mem_map]
  constructor
  · rintro ⟨p, hp, rfl⟩
    obtain ⟨hlt, hc⟩ := (h.mem_iff p).mp hp
    exact ⟨fun _ _ => hc, h.begin_le_of_mem hp, Int.ofNat_lt.mpr hlt⟩
  · rintro ⟨hx, hle, hlt⟩
    have hbegin : 0 ≤ o.begin_ l.head? := by
      unfold begin_
      split <;> exact Int.natCast_nonneg _
    have hnonneg : 0 ≤ x := le_trans hbegin hle
    have hc := hx hnonneg hlt
    unfold end_ at hlt
    exact ⟨x.toNat, (h.mem_iff _).mpr ⟨by omega, hc⟩, Int.toNat_of_nonneg hnonneg⟩

theorem sorted_cast : (l.map (Nat.cast : ℕ → ℤ)).Pairwise (· < ·) :=
  List.pairwise_map.mpr (h.sorted.imp fun hlt => Int.ofNat_lt.mpr hlt)

/-- Iterating over a container whose `for_each` visits the slots of `l`. -/
theorem iterates : Iterates o (o.begin_ l.head?) l where
  toLists := h
  walk_eq fuel hf := o.steps.traverse_eq h.begin_mem o.end_mem h.begin_le h.sorted_cast h.mem_range
    (by rwa [List.length_map])
  prev_next p hp := o.steps.prev_next (hp.mem h.begin_mem)
  next_prev p hp := o.steps.next_prev (hp.mem h.begin_mem)
  add_sub p hp n fuel hf := o.steps.distance_move (hp.mem h.begin_mem) n hf
  end_sub fuel hf := by
    have hd := o.steps.distance_eq h.begin_mem o.end_mem h.begin_le h.sorted_cast h.mem_range
      (f := fuel) (by rwa [List.length_map])
    rwa [List.length_map] at hd

end Lists

end Outer

end Nvhm
