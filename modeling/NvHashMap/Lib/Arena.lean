import Mathlib.Data.List.Basic
import Mathlib.Logic.Function.Basic

/-! # Arrays behind pointers

A memory holds arrays by address, of one element type `E i` for each part `i` of the objects that
own them; an object has one pointer for each part.

* `Holds` says what the arrays of an object are, and `Apart` that two objects share none.
* `Changes` is the frame condition: arrays that are not behind the given pointers keep their
  contents.  Allocating, overwriting and copying change nothing else. -/

namespace Arena

variable {ι : Type} {E : ι → Type}

/-- The arrays that were allocated, by address. -/
abbrev Memory (E : ι → Type) := (i : ι) → List (List (E i))

/-- A pointer for each part; `none` is the null pointer. -/
abbrev Pointers (ι : Type) := ι → Option ℕ

/-- Arrays for all parts. -/
abbrev Arrays (E : ι → Type) := (i : ι) → List (E i)

variable {M M' M'' : Memory E} {p q : Pointers ι} {x y : Arrays E} {i : ι}

namespace Memory

/-- The array behind a pointer. -/
def read (M : Memory E) (i : ι) (ptr : Option ℕ) : Option (List (E i)) :=
  ptr.bind fun a => (M i)[a]?

/-- New arrays for all parts. -/
def alloc (M : Memory E) (x : Arrays E) : Memory E × Pointers ι :=
  (fun i => M i ++ [x i], fun i => some (M i).length)

/-- Overwrite the arrays of an object. -/
def write (M : Memory E) (p : Pointers ι) (x : Arrays E) : Memory E := fun i =>
  match p i with
  | some a => (M i).set a (x i)
  | none => M i

/-- Copy `n` elements between two arrays; `none` when one of them is too short or missing. -/
def copyN [DecidableEq ι] (M : Memory E) (i : ι) (src dst : Option ℕ) (n : ℕ) :
    Option (Memory E) :=
  if n = 0 then some M
  else do
    let a ← dst
    let xs ← M.read i src
    let ys ← M.read i dst
    if n ≤ xs.length ∧ n ≤ ys.length then
      some (Function.update M i ((M i).set a (xs.take n ++ ys.drop n)))
    else none

end Memory

/-- The arrays of an object. -/
def Holds (M : Memory E) (p : Pointers ι) (x : Arrays E) : Prop := ∀ i, M.read i (p i) = some (x i)

/-- Two objects share no array. -/
def Apart (p q : Pointers ι) : Prop := ∀ i a, p i = some a → q i ≠ some a

/-- Only arrays behind `p` change. -/
def Changes (p : Pointers ι) (M M' : Memory E) : Prop :=
  ∀ i a xs, (M i)[a]? = some xs → p i ≠ some a → (M' i)[a]? = some xs

theorem Apart.symm (h : Apart p q) : Apart q p := fun i a hq hp => h i a hp hq

theorem apart_null (p : Pointers ι) : Apart p fun _ => none := fun _ _ _ hq => by cases hq

theorem null_apart (p : Pointers ι) : Apart (fun _ => none) p := fun _ _ hp => by cases hp

theorem Changes.refl (p : Pointers ι) (M : Memory E) : Changes p M M := fun _ _ _ hx _ => hx

theorem Changes.trans (h : Changes p M M') (h' : Changes p M' M'') : Changes p M M'' :=
  fun i a xs hx hp => h' i a xs (h i a xs hx hp) hp

theorem Changes.read (h : Changes p M M') {ptr : Option ℕ} {xs : List (E i)}
    (hx : M.read i ptr = some xs) (hp : ∀ a, ptr = some a → p i ≠ some a) :
    M'.read i ptr = some xs := by
  obtain ⟨a, rfl, ha⟩ := Option.bind_eq_some_iff.mp hx
  exact h i a xs ha (hp a rfl)

/-- The frame rule. -/
theorem Changes.holds (h : Changes p M M') (hq : Holds M q x) (ha : Apart q p) : Holds M' q x :=
  fun i => h.read (hq i) (ha i)

/-! ### Allocating and overwriting -/

theorem changes_alloc (p : Pointers ι) (M : Memory E) (x : Arrays E) :
    Changes p M (M.alloc x).1 := by
  intro i a xs hx _
  exact List.getElem?_append_left (List.getElem?_eq_some_iff.mp hx).1 ▸ hx

theorem holds_alloc (M : Memory E) (x : Arrays E) : Holds (M.alloc x).1 (M.alloc x).2 x :=
  fun _ => List.getElem?_concat_length

/-- New arrays belong to no object yet. -/
theorem apart_alloc (hq : Holds M q y) (x : Arrays E) : Apart q (M.alloc x).2 := by
  intro i a ha hn
  obtain rfl := Option.some.inj hn
  have hread := hq i
  rw [ha] at hread
  exact Nat.lt_irrefl _ (List.getElem?_eq_some_iff.mp hread).1

theorem changes_write (M : Memory E) (p : Pointers ι) (x : Arrays E) :
    Changes p M (M.write p x) := by
  intro i a xs hx ha
  unfold Memory.write
  cases hp : p i with
  | none => exact hx
  | some b =>
      dsimp only
      rw [List.getElem?_set_ne fun h => ha (by rw [hp, h])]
      exact hx

theorem holds_write (hp : Holds M p y) (x : Arrays E) : Holds (M.write p x) p x := by
  intro i
  obtain ⟨a, ha, hread⟩ := Option.bind_eq_some_iff.mp (hp i)
  unfold Memory.read Memory.write
  rw [ha]
  exact List.getElem?_set_self (List.getElem?_eq_some_iff.mp hread).1

/-! ### Copying -/

section Copy
variable [DecidableEq ι]

theorem copyN_null (M : Memory E) (i : ι) (src : Option ℕ) {n : ℕ} (hn : 0 < n) :
    M.copyN i src none n = none := if_neg (Nat.ne_of_gt hn)

theorem copyN_missing (M : Memory E) (i : ι) (dst : Option ℕ) {n : ℕ} (hn : 0 < n) :
    M.copyN i none dst n = none := by
  unfold Memory.copyN
  rw [if_neg (Nat.ne_of_gt hn)]
  cases dst <;> rfl

theorem length_update (hl : ∀ i, (y i).length = (x i).length) (i k : ι) :
    (Function.update y i (x i) k).length = (x k).length := by
  by_cases hk : k = i
  · subst hk
    rw [Function.update_self]
  · rw [Function.update_of_ne hk]
    exact hl k

/-- Copying an array of an object over that of another one, of the same length. -/
theorem copyN_spec (hq : Holds M q x) (hp : Holds M p y) (ha : Apart q p)
    (hl : (y i).length = (x i).length) :
    ∃ M', M.copyN i (q i) (p i) (x i).length = some M' ∧ Holds M' q x ∧
      Holds M' p (Function.update y i (x i)) ∧ Changes p M M' := by
  obtain ⟨a, hpa, hread⟩ := Option.bind_eq_some_iff.mp (hp i)
  by_cases hn : (x i).length = 0
  · refine ⟨M, if_pos hn, hq, fun k => ?_, Changes.refl p M⟩
    have hxy : x i = y i := by
      rw [List.length_eq_zero_iff.mp hn, List.length_eq_zero_iff.mp (hl.trans hn)]
    rw [hxy, Function.update_eq_self]
    exact hp k
  · have hcopy : (x i).take (x i).length ++ (y i).drop (x i).length = x i := by
      rw [List.take_length, List.drop_eq_nil_of_le (Nat.le_of_eq hl), List.append_nil]
    have hch : Changes p M (Function.update M i ((M i).set a (x i))) := by
      intro k b xs hb hkb
      by_cases hk : k = i
      · subst hk
        rw [Function.update_self, List.getElem?_set_ne fun h => hkb (by rw [hpa, h])]
        exact hb
      · rw [Function.update_of_ne hk]
        exact hb
    refine ⟨_, ?_, hch.holds hq ha, fun k => ?_, hch⟩
    · unfold Memory.copyN
      rw [if_neg hn, hq i, hp i, hpa]
      simp only [Option.bind_eq_bind, Option.bind_some]
      rw [if_pos ⟨Nat.le_refl _, Nat.le_of_eq hl.symm⟩, hcopy]
    · by_cases hk : k = i
      · subst hk
        rw [Function.update_self, hpa]
        unfold Memory.read
        rw [Function.update_self]
        exact List.getElem?_set_self (List.getElem?_eq_some_iff.mp hread).1
      · rw [Function.update_of_ne hk]
        have hk' := hp k
        unfold Memory.read at hk' ⊢
        rw [Function.update_of_ne hk]
        exact hk'

end Copy

end Arena
