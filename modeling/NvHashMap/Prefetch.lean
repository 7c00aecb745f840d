import NvHashMap.Common
import NvHashMap.Lib.Fifo

/-! # Prefetch queues

`prefetch.hpp`: queues of keys and prefetch hints, in two arrays of `capacity` elements.

* The shift queue moves all elements down by one place.  The ring queue has two indices, 64-bit
  words that run freely and of which the low bits are used.
* What a moved-from key or hint looks like is not known: `movedKey` and `movedValue` are arbitrary.
* An assertion that fails is `none`.
* Both are queues in the sense of `Fifo.IsFifo` (`ShiftQueue.isFifo`, `RingQueue.isFifo`). -/

namespace Nvhm

open Fifo

section Queues
variable {κ ν : Type} (capacity : ℕ) (movedKey : κ → κ) (movedValue : ν → ν)

/-! ### The shift queue -/

/-- `shift`, from the index `idx` on: every element goes one place down. -/
def shift {α : Type} (moved : α → α) : ℕ → ℕ → List α → List α
  | 0, _, arr => arr
  | n + 1, idx, arr =>
      match arr[idx]? with
      | some x => shift moved n (idx + 1) ((arr.set (idx - 1) x).set idx (moved x))
      | none => arr

/-- The arrays `keys_` and `values_`. -/
structure ShiftQueue (κ ν : Type) where
  keys : List κ
  values : List ν

namespace ShiftQueue

def front (q : ShiftQueue κ ν) : Option (κ × ν) := do
  some (← q.keys[0]?, ← q.values[0]?)

def back (q : ShiftQueue κ ν) : Option (κ × ν) := do
  some (← q.keys[capacity - 1]?, ← q.values[capacity - 1]?)

def skip (q : ShiftQueue κ ν) : ShiftQueue κ ν where
  keys := shift movedKey capacity 1 q.keys
  values := shift movedValue capacity 1 q.values

def pop (q : ShiftQueue κ ν) : Option ((κ × ν) × ShiftQueue κ ν) := do
  let key0 ← q.keys[0]?
  let value0 ← q.values[0]?
  let q : ShiftQueue κ ν := ⟨q.keys.set 0 (movedKey key0), q.values.set 0 (movedValue value0)⟩
  some ((key0, value0), q.skip capacity movedKey movedValue)

def push (q : ShiftQueue κ ν) (e : κ × ν) : Option ((κ × ν) × ShiftQueue κ ν) := do
  let (e0, q) ← q.pop capacity movedKey movedValue
  some (e0, ⟨q.keys.set (capacity - 1) e.1, q.values.set (capacity - 1) e.2⟩)

def prefill (q : ShiftQueue κ ν) (idx : ℕ) (e : κ × ν) : Option (ShiftQueue κ ν) :=
  if idx < capacity then some ⟨q.keys.set idx e.1, q.values.set idx e.2⟩ else none

/-- `prefill`, for the entries of a list in order. -/
def prefillAll : ℕ → List (κ × ν) → ShiftQueue κ ν → Option (ShiftQueue κ ν)
  | _, [], q => some q
  | idx, e :: es, q => do prefillAll (idx + 1) es (← q.prefill capacity idx e)

end ShiftQueue

/-! ### The ring queue -/

/-- The arrays `keys_` and `values_`, with `begin_` and `end_`.  The source has signed indices, whose
overflow after `2 ^ 63` pushes is undefined; here they wrap around. -/
structure RingQueue (κ ν : Type) where
  keys : List κ
  values : List ν
  begin_ : ℕ
  end_ : ℕ

namespace RingQueue

def front (q : RingQueue κ ν) : Option (κ × ν) :=
  if q.begin_ = q.end_ then none
  else do
    let idx := alignPos q.begin_ (capacity - 1)
    some (← q.keys[idx]?, ← q.values[idx]?)

def back (q : RingQueue κ ν) : Option (κ × ν) :=
  if q.begin_ = q.end_ then none
  else do
    let idx := alignPos ((q.end_ + (2 ^ 64 - 1)) % 2 ^ 64) (capacity - 1)
    some (← q.keys[idx]?, ← q.values[idx]?)

def size (q : RingQueue κ ν) : ℕ := (q.end_ + (2 ^ 64 - q.begin_)) % 2 ^ 64

def full (q : RingQueue κ ν) : Bool := q.size == capacity

/-- The end of `prefill` and of `push`. -/
def append (q : RingQueue κ ν) (e : κ × ν) : RingQueue κ ν :=
  let idx := alignPos q.end_ (capacity - 1)
  { q with
    keys := q.keys.set idx e.1
    values := q.values.set idx e.2
    end_ := (q.end_ + 1) % 2 ^ 64 }

/-- The start of `push` and of `pop`. -/
def take (q : RingQueue κ ν) : Option ((κ × ν) × RingQueue κ ν) := do
  let idx := alignPos q.begin_ (capacity - 1)
  let key0 ← q.keys[idx]?
  let value0 ← q.values[idx]?
  some ((key0, value0), { q with
    keys := q.keys.set idx (movedKey key0)
    values := q.values.set idx (movedValue value0)
    begin_ := (q.begin_ + 1) % 2 ^ 64 })

def push (q : RingQueue κ ν) (e : κ × ν) : Option ((κ × ν) × RingQueue κ ν) :=
  if q.full capacity then do
    let (e0, q) ← q.take capacity movedKey movedValue
    some (e0, q.append capacity e)
  else none

def pop (q : RingQueue κ ν) : Option ((κ × ν) × RingQueue κ ν) :=
  if q.begin_ = q.end_ then none else q.take capacity movedKey movedValue

/-- `prefill`, for the entries of a list in order. -/
def prefillAll (es : List (κ × ν)) (q : RingQueue κ ν) : RingQueue κ ν :=
  es.foldl (fun q e => q.append capacity e) q

end RingQueue

end Queues

/-! ### The shift queue is a queue -/

section Shift
variable {κ ν α : Type}

/-- A shift drops the element before the index and leaves a moved-from one at the end. -/
theorem shift_eq (moved : α → α) : ∀ (n : ℕ) (pre : List α) (a : α) (t : List α), t.length ≤ n →
    ∃ z, shift moved n (pre.length + 1) (pre ++ a :: t) = pre ++ t ++ [z]
  | 0, pre, a, t, hn => by
      obtain rfl := List.length_eq_zero_iff.mp (Nat.le_zero.mp hn)
      exact ⟨a, by simp [shift]⟩
  | n + 1, pre, a, t, hn => by
      cases t with
      | nil => exact ⟨a, by simp [shift]⟩
      | cons x t =>
          obtain ⟨z, hz⟩ := shift_eq moved n (pre ++ [x]) (moved x) t (by simpa using hn)
          refine ⟨z, ?_⟩
          have hget : (pre ++ a :: x :: t)[pre.length + 1]? = some x := by simp
          have hset : ((pre ++ a :: x :: t).set (pre.length + 1 - 1) x).set (pre.length + 1)
              (moved x) = pre ++ [x] ++ moved x :: t := by
            simp
          rw [shift, hget]
          dsimp only
          rw [hset]
          simpa using hz

theorem set_next (l rest : List α) (x : α) (h : l.length < (l ++ rest).length) :
    ∃ rest', (l ++ rest).set l.length x = l ++ [x] ++ rest' := by
  cases rest with
  | nil => simp at h
  | cons y rest => exact ⟨rest, by simp⟩

namespace ShiftQueue
variable {capacity : ℕ} (movedKey : κ → κ) (movedValue : ν → ν)

/-- The entries of `q` are `l`, oldest first; elements behind them do not matter. -/
structure Holds (capacity : ℕ) (q : ShiftQueue κ ν) (l : List (κ × ν)) : Prop where
  length_keys : q.keys.length = capacity
  length_values : q.values.length = capacity
  keys : ∃ rest, q.keys = l.map Prod.fst ++ rest
  values : ∃ rest, q.values = l.map Prod.snd ++ rest

theorem Holds.pop {q : ShiftQueue κ ν} {x : κ × ν} {l : List (κ × ν)}
    (h : Holds capacity q (x :: l)) :
    ∃ q', q.pop capacity movedKey movedValue = some (x, q') ∧ Holds capacity q' l := by
  obtain ⟨restK, hk⟩ := h.keys
  obtain ⟨restV, hv⟩ := h.values
  have hlk := h.length_keys
  have hlv := h.length_values
  rw [hk] at hlk
  rw [hv] at hlv
  simp only [List.map_cons, List.cons_append, List.length_cons, List.length_append,
    List.length_map] at hlk hlv
  obtain ⟨zk, hzk⟩ := shift_eq movedKey capacity [] (movedKey x.1) (l.map Prod.fst ++ restK)
    (by simp; omega)
  obtain ⟨zv, hzv⟩ := shift_eq movedValue capacity [] (movedValue x.2) (l.map Prod.snd ++ restV)
    (by simp; omega)
  rw [List.nil_append, List.length_nil, Nat.zero_add, List.nil_append] at hzk hzv
  refine ⟨⟨l.map Prod.fst ++ restK ++ [zk], l.map Prod.snd ++ restV ++ [zv]⟩, ?_, ?_⟩
  · unfold ShiftQueue.pop skip
    rw [hk, hv]
    simp only [List.map_cons, List.cons_append, List.getElem?_cons_zero, Option.bind_eq_bind,
      Option.bind_some, List.set_cons_zero, hzk, hzv]
  · refine ⟨by simp; omega, by simp; omega, ⟨restK ++ [zk], by simp⟩, ⟨restV ++ [zv], by simp⟩⟩

omit movedKey movedValue in
/-- An entry is stored behind the others. -/
theorem Holds.set {q : ShiftQueue κ ν} {l : List (κ × ν)} (e : κ × ν) (h : Holds capacity q l)
    (hlt : l.length < capacity) :
    Holds capacity ⟨q.keys.set l.length e.1, q.values.set l.length e.2⟩ (l ++ [e]) := by
  obtain ⟨restK, hk⟩ := h.keys
  obtain ⟨restV, hv⟩ := h.values
  obtain ⟨restK', hkeys⟩ := set_next (l.map Prod.fst) restK e.1 (by
    rwa [← hk, h.length_keys, List.length_map])
  obtain ⟨restV', hvalues⟩ := set_next (l.map Prod.snd) restV e.2 (by
    rwa [← hv, h.length_values, List.length_map])
  rw [List.length_map] at hkeys hvalues
  refine ⟨?_, ?_, ⟨restK', ?_⟩, ⟨restV', ?_⟩⟩
  · rw [List.length_set, h.length_keys]
  · rw [List.length_set, h.length_values]
  · rw [hk, hkeys, List.map_append]
    rfl
  · rw [hv, hvalues, List.map_append]
    rfl

theorem Holds.push {q : ShiftQueue κ ν} {x : κ × ν} {l : List (κ × ν)} (e : κ × ν)
    (h : Holds capacity q (x :: l)) (hfull : l.length + 1 = capacity) :
    ∃ q', q.push capacity movedKey movedValue e = some (x, q') ∧ Holds capacity q' (l ++ [e]) := by
  obtain ⟨q', hpop, hq'⟩ := h.pop movedKey movedValue
  refine ⟨_, ?_, hq'.set e (by omega)⟩
  unfold ShiftQueue.push
  rw [hpop, show capacity - 1 = l.length by omega]
  rfl

theorem isFifo : IsFifo capacity (ShiftQueue.push capacity movedKey movedValue)
    (ShiftQueue.pop capacity movedKey movedValue) (Holds (κ := κ) (ν := ν) capacity) where
  push _ _ _ e h hfull := h.push movedKey movedValue e hfull
  pop _ _ _ h := h.pop movedKey movedValue

omit movedKey movedValue in
/-- The elements are filled in order. -/
theorem Holds.prefillAll : ∀ (es l : List (κ × ν)) {q : ShiftQueue κ ν}, Holds capacity q l →
    l.length + es.length ≤ capacity →
    ∃ q', q.prefillAll capacity l.length es = some q' ∧ Holds capacity q' (l ++ es)
  | [], l, q, h, _ => ⟨q, rfl, by rwa [List.append_nil]⟩
  | e :: es, l, q, h, hle => by
      rw [List.length_cons] at hle
      obtain ⟨q', hrun, hq'⟩ := Holds.prefillAll es (l ++ [e]) (h.set e (by omega)) (by
        rw [List.length_append, List.length_singleton]
        omega)
      rw [List.length_append, List.length_singleton] at hrun
      rw [List.append_assoc, List.singleton_append] at hq'
      refine ⟨q', ?_, hq'⟩
      unfold ShiftQueue.prefillAll prefill
      rw [if_pos (by omega), Option.bind_eq_bind, Option.bind_some, hrun]

/-- Every queue holds the empty list. -/
theorem holds_nil {q : ShiftQueue κ ν} (hk : q.keys.length = capacity)
    (hv : q.values.length = capacity) : Holds capacity q [] := ⟨hk, hv, ⟨q.keys, rfl⟩, ⟨q.values, rfl⟩⟩

theorem Holds.front_eq {q : ShiftQueue κ ν} {l : List (κ × ν)} (h : Holds capacity q l)
    (hfull : l.length = capacity) (hpos : 0 < capacity) : q.front = l[0]? ∧
      q.back capacity = l[capacity - 1]? := by
  obtain ⟨restK, hk⟩ := h.keys
  obtain ⟨restV, hv⟩ := h.values
  have hget : ∀ i < capacity, (do some (← q.keys[i]?, ← q.values[i]?)) = l[i]? := by
    intro i hi
    rw [hk, hv, List.getElem?_append_left (by rwa [List.length_map, hfull]),
      List.getElem?_append_left (by rwa [List.length_map, hfull]), List.getElem?_map,
      List.getElem?_map, List.getElem?_eq_getElem (by rwa [hfull])]
    rfl
  exact ⟨hget 0 hpos, hget (capacity - 1) (by omega)⟩

end ShiftQueue

end Shift

/-! ### The ring queue is a queue -/

section Ring
variable {κ ν : Type}

namespace RingQueue
variable {k : ℕ} (movedKey : κ → κ) (movedValue : ν → ν)

/-- The low bits of a free-running index. -/
theorem alignPos_mod {n : ℕ} (hk : k ≤ 64) : alignPos (n % 2 ^ 64) (2 ^ k - 1) = n % 2 ^ k := by
  rw [alignPos, Nat.and_two_pow_sub_one_eq_mod, Nat.mod_mod_of_dvd _ (pow_dvd_pow 2 hk)]

/-- The entries of `q` are `l`, in the slots from the index `b` on. -/
structure HoldsFrom (k b : ℕ) (q : RingQueue κ ν) (l : List (κ × ν)) : Prop where
  length_keys : q.keys.length = 2 ^ k
  length_values : q.values.length = 2 ^ k
  begin_eq : q.begin_ = b % 2 ^ 64
  end_eq : q.end_ = (b + l.length) % 2 ^ 64
  length_le : l.length ≤ 2 ^ k
  keys : ∀ i < l.length, q.keys[(b + i) % 2 ^ k]? = l[i]?.map Prod.fst
  values : ∀ i < l.length, q.values[(b + i) % 2 ^ k]? = l[i]?.map Prod.snd

/-- The entries of `q` are `l`, oldest first. -/
def Holds (k : ℕ) (q : RingQueue κ ν) (l : List (κ × ν)) : Prop := ∃ b, HoldsFrom k b q l

variable {b : ℕ} {q : RingQueue κ ν} {l : List (κ × ν)}

/-- The slots of a queue are distinct. -/
theorem slot_ne {i j c : ℕ} (hi : i < c) (hj : j < c) (hne : i ≠ j) : (b + i) % c ≠ (b + j) % c := by
  intro h
  have hmod : i % c = j % c := Nat.ModEq.add_left_cancel' b h
  rw [Nat.mod_eq_of_lt hi, Nat.mod_eq_of_lt hj] at hmod
  exact hne hmod

theorem HoldsFrom.size_eq (hk : k < 64) (h : HoldsFrom k b q l) : q.size = l.length := by
  have hlt : l.length < 2 ^ 64 := h.length_le.trans_lt (Nat.pow_lt_pow_right (by decide) hk)
  have hb := Nat.div_add_mod b (2 ^ 64)
  have hr := Nat.mod_lt b (show 0 < 2 ^ 64 by decide)
  rw [size, h.begin_eq, h.end_eq, Nat.mod_add_mod,
    show b + l.length + (2 ^ 64 - b % 2 ^ 64) = l.length + 2 ^ 64 * (b / 2 ^ 64 + 1) by omega,
    Nat.add_mul_mod_self_left, Nat.mod_eq_of_lt hlt]

theorem HoldsFrom.not_empty (hk : k < 64) (h : HoldsFrom k b q l) (hne : l ≠ []) :
    q.begin_ ≠ q.end_ := by
  intro heq
  have hsize := h.size_eq hk
  have hlt : q.end_ < 2 ^ 64 := by
    rw [h.end_eq]
    exact Nat.mod_lt _ (by decide)
  rw [size, heq, show q.end_ + (2 ^ 64 - q.end_) = 2 ^ 64 by omega, Nat.mod_self] at hsize
  exact hne (List.length_eq_zero_iff.mp hsize.symm)

theorem HoldsFrom.append (hk : k < 64) (h : HoldsFrom k b q l) (hlt : l.length < 2 ^ k)
    (e : κ × ν) : HoldsFrom k b (q.append (2 ^ k) e) (l ++ [e]) := by
  have hidx : alignPos q.end_ (2 ^ k - 1) = (b + l.length) % 2 ^ k := by
    rw [h.end_eq, alignPos_mod hk.le]
  have hslot := Nat.mod_lt (b + l.length) (Nat.two_pow_pos k)
  have hset : ∀ {α : Type} {arr : List α} (f : κ × ν → α), arr.length = 2 ^ k →
      (∀ i < l.length, arr[(b + i) % 2 ^ k]? = l[i]?.map f) →
      ∀ i < (l ++ [e]).length, (arr.set ((b + l.length) % 2 ^ k) (f e))[(b + i) % 2 ^ k]? =
        (l ++ [e])[i]?.map f := by
    intro α arr f hlen harr i hi
    rw [List.length_append, List.length_singleton] at hi
    rcases Nat.lt_succ_iff_lt_or_eq.mp hi with hi | rfl
    · rw [List.getElem?_set_ne (slot_ne (by omega) (by omega) (by omega)), harr i hi,
        List.getElem?_append_left hi]
    · rw [List.getElem?_set_self (by rwa [hlen]), List.getElem?_concat_length]
      rfl
  unfold RingQueue.append
  rw [hidx]
  exact {
    length_keys := by rw [List.length_set, h.length_keys]
    length_values := by rw [List.length_set, h.length_values]
    begin_eq := h.begin_eq
    end_eq := by
      rw [h.end_eq, Nat.mod_add_mod, List.length_append, List.length_singleton, Nat.add_assoc]
    length_le := by
      rw [List.length_append, List.length_singleton]
      exact hlt
    keys := hset Prod.fst h.length_keys h.keys
    values := hset Prod.snd h.length_values h.values }

theorem HoldsFrom.take (hk : k < 64) {x : κ × ν} (h : HoldsFrom k b q (x :: l)) :
    ∃ q', q.take (2 ^ k) movedKey movedValue = some (x, q') ∧ HoldsFrom k (b + 1) q' l := by
  have hidx : alignPos q.begin_ (2 ^ k - 1) = b % 2 ^ k := by
    rw [h.begin_eq, alignPos_mod hk.le]
  have hkey : q.keys[b % 2 ^ k]? = some x.1 := h.keys 0 (Nat.succ_pos _)
  have hvalue : q.values[b % 2 ^ k]? = some x.2 := h.values 0 (Nat.succ_pos _)
  have hlen : l.length + 1 ≤ 2 ^ k := h.length_le
  have hset : ∀ {α : Type} {arr : List α} (f : κ × ν → α) (z : α),
      (∀ i < (x :: l).length, arr[(b + i) % 2 ^ k]? = (x :: l)[i]?.map f) →
      ∀ i < l.length, (arr.set (b % 2 ^ k) z)[(b + 1 + i) % 2 ^ k]? = l[i]?.map f := by
    intro α arr f z harr i hi
    have hne : b % 2 ^ k ≠ (b + (i + 1)) % 2 ^ k :=
      slot_ne (i := 0) (Nat.two_pow_pos k) (by omega) (Nat.succ_ne_zero i).symm
    rw [Nat.add_assoc, Nat.add_comm 1 i, List.getElem?_set_ne hne,
      harr (i + 1) (Nat.succ_lt_succ hi), List.getElem?_cons_succ]
  refine ⟨{ q with
    keys := q.keys.set (b % 2 ^ k) (movedKey x.1)
    values := q.values.set (b % 2 ^ k) (movedValue x.2)
    begin_ := (q.begin_ + 1) % 2 ^ 64 }, ?_, ?_⟩
  · unfold RingQueue.take
    rw [hidx]
    dsimp only
    rw [hkey, hvalue]
    rfl
  · exact {
      length_keys := by rw [List.length_set, h.length_keys]
      length_values := by rw [List.length_set, h.length_values]
      begin_eq := by rw [h.begin_eq, Nat.mod_add_mod]
      end_eq := by
        rw [h.end_eq, List.length_cons]
        congr 1
        omega
      length_le := by omega
      keys := hset Prod.fst _ h.keys
      values := hset Prod.snd _ h.values }

theorem isFifo (hk : k < 64) : IsFifo (2 ^ k) (RingQueue.push (2 ^ k) movedKey movedValue)
    (RingQueue.pop (2 ^ k) movedKey movedValue) (Holds (κ := κ) (ν := ν) k) where
  push q x l e h hfull := by
    obtain ⟨b, h⟩ := h
    obtain ⟨q', htake, hq'⟩ := h.take movedKey movedValue hk
    refine ⟨q'.append (2 ^ k) e, ?_, b + 1, hq'.append hk (by omega) e⟩
    unfold RingQueue.push full
    rw [h.size_eq hk, List.length_cons, hfull, beq_self_eq_true, if_pos rfl, htake]
    rfl
  pop q x l h := by
    obtain ⟨b, h⟩ := h
    obtain ⟨q', htake, hq'⟩ := h.take movedKey movedValue hk
    refine ⟨q', ?_, b + 1, hq'⟩
    unfold RingQueue.pop
    rw [if_neg (h.not_empty hk (List.cons_ne_nil x l)), htake]

theorem HoldsFrom.prefillAll (hk : k < 64) : ∀ (es : List (κ × ν)) {q : RingQueue κ ν}
    {l : List (κ × ν)}, HoldsFrom k b q l → l.length + es.length ≤ 2 ^ k →
    HoldsFrom k b (q.prefillAll (2 ^ k) es) (l ++ es)
  | [], q, l, h, _ => by rwa [List.append_nil]
  | e :: es, q, l, h, hle => by
      rw [List.length_cons] at hle
      have h' := HoldsFrom.prefillAll hk es (h.append hk (by omega) e) (by
        rw [List.length_append, List.length_singleton]
        omega)
      rwa [List.append_assoc, List.singleton_append] at h'

/-- The front is the oldest entry and the back the newest one. -/
theorem Holds.front_eq (hk : k < 64) (h : Holds k q l) (hfull : l.length = 2 ^ k) :
    q.front (2 ^ k) = l[0]? ∧ q.back (2 ^ k) = l[2 ^ k - 1]? := by
  obtain ⟨b, h⟩ := h
  have hpos := Nat.two_pow_pos k
  have hne : l ≠ [] := by
    rintro rfl
    exact absurd hfull (Nat.ne_of_lt hpos)
  have hget : ∀ i < 2 ^ k, (do some (← q.keys[(b + i) % 2 ^ k]?, ← q.values[(b + i) % 2 ^ k]?)) =
      l[i]? := by
    intro i hi
    rw [h.keys i (by omega), h.values i (by omega), List.getElem?_eq_getElem (by omega)]
    rfl
  have hlast : (q.end_ + (2 ^ 64 - 1)) % 2 ^ 64 = (b + (2 ^ k - 1)) % 2 ^ 64 := by
    rw [h.end_eq, hfull, Nat.mod_add_mod,
      show b + 2 ^ k + (2 ^ 64 - 1) = b + (2 ^ k - 1) + 2 ^ 64 by omega, Nat.add_mod_right]
  constructor
  · unfold front
    rw [if_neg (h.not_empty hk hne), h.begin_eq]
    dsimp only
    rw [alignPos_mod hk.le]
    exact hget 0 hpos
  · unfold back
    rw [if_neg (h.not_empty hk hne), hlast]
    dsimp only
    rw [alignPos_mod hk.le]
    exact hget (2 ^ k - 1) (by omega)

end RingQueue

end Ring

/-! ### Main result -/

section Main
variable {κ ν : Type} {k : ℕ} (hk : k < 63) (movedKey : κ → κ) (movedValue : ν → ν)
include hk

/-- Prefilled queues of both kinds are the same queue: `n` pushes return the first `n` entries that
were ever put in, and pops after them return the next ones, in order.  No assertion fails, and after
any number of pushes `front` is the oldest entry and `back` the newest one. -/
theorem prefetch_fifo (s₀ : ShiftQueue κ ν) (r₀ : RingQueue κ ν)
    (hs : s₀.keys.length = 2 ^ k ∧ s₀.values.length = 2 ^ k)
    (hr : r₀.keys.length = 2 ^ k ∧ r₀.values.length = 2 ^ k ∧ r₀.begin_ = 0 ∧ r₀.end_ = 0)
    (pre : List (κ × ν)) (hpre : pre.length = 2 ^ k) (es : List (κ × ν)) :
    ∃ s₁ s₂ r₂, s₀.prefillAll (2 ^ k) 0 pre = some s₁ ∧
      pushAll (ShiftQueue.push (2 ^ k) movedKey movedValue) es s₁ =
        some ((pre ++ es).take es.length, s₂) ∧
      pushAll (RingQueue.push (2 ^ k) movedKey movedValue) es (r₀.prefillAll (2 ^ k) pre) =
        some ((pre ++ es).take es.length, r₂) ∧
      s₂.front = (pre ++ es)[es.length]? ∧ r₂.front (2 ^ k) = s₂.front ∧
      s₂.back (2 ^ k) = (pre ++ es).getLast? ∧ r₂.back (2 ^ k) = s₂.back (2 ^ k) ∧
      ∀ m ≤ 2 ^ k, ∃ s₃ r₃,
        popAll (ShiftQueue.pop (2 ^ k) movedKey movedValue) m s₂ =
          some (((pre ++ es).drop es.length).take m, s₃) ∧
        popAll (RingQueue.pop (2 ^ k) movedKey movedValue) m r₂ =
          some (((pre ++ es).drop es.length).take m, r₃) := by
  have hpos := Nat.two_pow_pos k
  have hk' : k < 64 := by omega
  have hlen : ((pre ++ es).drop es.length).length = 2 ^ k := by
    rw [List.length_drop, List.length_append, hpre, Nat.add_sub_cancel]
  -- the queues after the prefill
  obtain ⟨s₁, hfill, hs₁⟩ := (ShiftQueue.holds_nil hs.1 hs.2).prefillAll pre [] (by simp [hpre])
  have hr₀ : RingQueue.HoldsFrom k 0 r₀ [] := {
    length_keys := hr.1
    length_values := hr.2.1
    begin_eq := hr.2.2.1
    end_eq := hr.2.2.2
    length_le := Nat.zero_le _
    keys := fun _ h => absurd h (Nat.not_lt_zero _)
    values := fun _ h => absurd h (Nat.not_lt_zero _) }
  have hr₁ := hr₀.prefillAll hk' pre (by simp [hpre])
  -- the queues after the pushes
  obtain ⟨s₂, hpushS, hs₂⟩ := (ShiftQueue.isFifo movedKey movedValue).pushAll_eq hpos es hs₁ hpre
  obtain ⟨r₂, hpushR, hr₂⟩ := (RingQueue.isFifo movedKey movedValue hk').pushAll_eq hpos es
    ⟨0, hr₁⟩ hpre
  obtain ⟨hfrontS, hbackS⟩ := hs₂.front_eq hlen hpos
  obtain ⟨hfrontR, hbackR⟩ := RingQueue.Holds.front_eq hk' hr₂ hlen
  refine ⟨s₁, s₂, r₂, hfill, hpushS, hpushR, ?_, ?_, ?_, ?_, fun m hm => ?_⟩
  · rw [hfrontS, List.getElem?_drop, Nat.add_zero]
    rfl
  · rw [hfrontR, hfrontS]
  · rw [hbackS, List.getElem?_drop, List.getLast?_eq_getElem?, List.nil_append, List.length_append,
      hpre]
    congr 1
    omega
  · rw [hbackR, hbackS]
  · obtain ⟨s₃, hpopS, -⟩ := (ShiftQueue.isFifo movedKey movedValue).popAll_eq m hs₂ (by
      rwa [List.nil_append, hlen])
    obtain ⟨r₃, hpopR, -⟩ := (RingQueue.isFifo movedKey movedValue hk').popAll_eq m hr₂ (by
      rwa [List.nil_append, hlen])
    exact ⟨s₃, r₃, hpopS, hpopR⟩

end Main

/-- Queues of two entries: three pushes and two pops. -/
theorem prefetch_fifo_words :
    let s₀ : ShiftQueue ℕ ℕ := ⟨[0, 0], [0, 0]⟩
    let r₀ : RingQueue ℕ ℕ := ⟨[0, 0], [0, 0], 0, 0⟩
    ∃ s₁ s₂ r₂, s₀.prefillAll 2 0 [(1, 10), (2, 20)] = some s₁ ∧
      pushAll (ShiftQueue.push 2 id id) [(3, 30), (4, 40), (5, 50)] s₁ =
        some ([(1, 10), (2, 20), (3, 30)], s₂) ∧
      pushAll (RingQueue.push 2 id id) [(3, 30), (4, 40), (5, 50)]
        (r₀.prefillAll 2 [(1, 10), (2, 20)]) = some ([(1, 10), (2, 20), (3, 30)], r₂) := by
  obtain ⟨s₁, s₂, r₂, hfill, hs, hr, -⟩ := prefetch_fifo (k := 1) (by decide) id id
    ⟨[0, 0], [0, 0]⟩ ⟨[0, 0], [0, 0], 0, 0⟩ (by decide) (by decide) [(1, 10), (2, 20)] rfl
    [(3, 30), (4, 40), (5, 50)]
  exact ⟨s₁, s₂, r₂, hfill, hs, hr⟩

end Nvhm
