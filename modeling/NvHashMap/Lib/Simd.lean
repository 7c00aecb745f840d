import NvHashMap.Lib.Lanes

/-! # Vector registers

A register of `W` bits, seen as lanes of 8, 16, 32 or 64 bits.  `ofLanes` builds a register from its
lanes, and `lane_ofLanes` gives the bytes of what it builds; an instruction on bytes is `map₁` or
`map₂`, and its result is known from the bytes of its operands.  A lane mask is a word with a bit per
byte (`bitMask`).  `reduce` is a horizontal minimum or maximum. -/

namespace Simd

open Lanes

variable {W w : ℕ}

/-- The lane of `w` bits at index `j`. -/
def laneOf (w : ℕ) (x : BitVec W) (j : ℕ) : BitVec w := x.extractLsb' (w * j) w

/-- The word with the given bits. -/
def ofBits (W : ℕ) (p : ℕ → Bool) : BitVec W :=
  (BitVec.iunfoldr (fun i (_ : Unit) => ((), p i)) ()).2

/-- The register with the given lanes. -/
def ofLanes (w W : ℕ) (f : ℕ → BitVec w) : BitVec W :=
  ofBits W fun p => (f (p / w)).getLsbD (p % w)

/-- The word with a bit per byte of a register of `n` bytes. -/
def bitMask (w n : ℕ) (p : ℕ → Bool) : BitVec w := ofBits w fun i => decide (i < n) && p i

/-! ### Lanes -/

theorem getLsbD_ofBits (p : ℕ → Bool) (i : ℕ) :
    (ofBits W p).getLsbD i = (decide (i < W) && p i) := by
  rcases Nat.lt_or_ge i W with hi | hi
  · rw [decide_eq_true hi, Bool.true_and]
    exact (BitVec.iunfoldr_getLsbD' (f := fun i (_ : Unit) => ((), p i)) (fun _ => ())
      fun _ => rfl).1 ⟨i, hi⟩
  · rw [decide_eq_false (by omega), Bool.false_and, BitVec.getLsbD_of_ge _ _ hi]

theorem getLsbD_laneOf (x : BitVec W) (j p : ℕ) :
    (laneOf w x j).getLsbD p = (decide (p < w) && x.getLsbD (w * j + p)) := by
  rw [laneOf, BitVec.getLsbD_extractLsb']

/-- A byte of a wide lane. -/
theorem lane_laneOf {b : ℕ} (x : BitVec W) (j : ℕ) {i : ℕ} (hi : i < b) :
    lane (laneOf (8 * b) x j) i = lane x (b * j + i) := by
  refine BitVec.eq_of_getLsbD_eq fun p hp => ?_
  rw [getLsbD_lane, getLsbD_laneOf, getLsbD_lane, decide_eq_true (by omega : 8 * i + p < 8 * b),
    Bool.true_and, Nat.mul_assoc, Nat.mul_add, Nat.add_assoc]

theorem getLsbD_ofLanes (f : ℕ → BitVec w) (p : ℕ) :
    (ofLanes w W f).getLsbD p = (decide (p < W) && (f (p / w)).getLsbD (p % w)) := by
  rw [ofLanes, getLsbD_ofBits]

/-- The bytes of a register that is built from wider lanes. -/
theorem lane_ofLanes {b : ℕ} (f : ℕ → BitVec (8 * b)) {i : ℕ} (hi : 8 * (i + 1) ≤ W) :
    lane (ofLanes (8 * b) W f) i = lane (f (i / b)) (i % b) := by
  refine BitVec.eq_of_getLsbD_eq fun p hp => ?_
  have hdiv : (8 * i + p) / (8 * b) = i / b := by
    rw [← Nat.div_div_eq_div_mul, Nat.mul_add_div (by decide), Nat.div_eq_of_lt hp, Nat.add_zero]
  have hmod : (8 * i + p) % (8 * b) = 8 * (i % b) + p := by
    rw [Nat.mod_mul, Nat.mul_add_div (by decide), Nat.div_eq_of_lt hp, Nat.add_zero,
      Nat.mul_add_mod, Nat.mod_eq_of_lt hp, Nat.add_comm]
  rw [getLsbD_lane, getLsbD_ofLanes, getLsbD_lane, decide_eq_true (by omega : 8 * i + p < W),
    Bool.true_and, hdiv, hmod]

theorem lane_ofLanes_eight (f : ℕ → BitVec 8) {i : ℕ} (hi : 8 * (i + 1) ≤ W) :
    lane (ofLanes 8 W f) i = f i := by
  have h : lane (ofLanes 8 W f) i = lane (f (i / 1)) (i % 1) := lane_ofLanes (b := 1) f hi
  rw [h, Nat.div_one, Nat.mod_one]
  exact lane_eight _

/-- A wide lane of a register that is built from such lanes. -/
theorem laneOf_ofLanes (f : ℕ → BitVec w) {j : ℕ} (hj : w * (j + 1) ≤ W) :
    laneOf w (ofLanes w W f) j = f j := by
  refine BitVec.eq_of_getLsbD_eq fun p hp => ?_
  have hw : 0 < w := by omega
  rw [getLsbD_laneOf, getLsbD_ofLanes, decide_eq_true hp, Bool.true_and, Nat.mul_add_div hw,
    Nat.div_eq_of_lt hp, Nat.add_zero, Nat.mul_add_mod, Nat.mod_eq_of_lt hp,
    decide_eq_true (by rw [Nat.mul_succ] at hj; omega), Bool.true_and]

/-! ### Bytes -/

/-- An instruction on every byte. -/
def map₁ (f : BitVec 8 → BitVec 8) (x : BitVec W) : BitVec W := ofLanes 8 W fun i => f (lane x i)

/-- An instruction on every two bytes. -/
def map₂ (f : BitVec 8 → BitVec 8 → BitVec 8) (x y : BitVec W) : BitVec W :=
  ofLanes 8 W fun i => f (lane x i) (lane y i)

theorem lane_map₁ (f : BitVec 8 → BitVec 8) (x : BitVec W) {i : ℕ} (hi : 8 * (i + 1) ≤ W) :
    lane (map₁ f x) i = f (lane x i) := lane_ofLanes_eight _ hi

theorem lane_map₂ (f : BitVec 8 → BitVec 8 → BitVec 8) (x y : BitVec W) {i : ℕ}
    (hi : 8 * (i + 1) ≤ W) : lane (map₂ f x y) i = f (lane x i) (lane y i) :=
  lane_ofLanes_eight _ hi

theorem getLsbD_bitMask {n : ℕ} (p : ℕ → Bool) (i : ℕ) : (bitMask w n p).getLsbD i = true ↔
    i < w ∧ i < n ∧ p i = true := by
  rw [bitMask, getLsbD_ofBits, Bool.and_eq_true, Bool.and_eq_true, decide_eq_true_iff,
    decide_eq_true_iff]

/-! ### Horizontal minimum and maximum -/

section Reduce
variable {α : Type*}

/-- Combine the lanes below `n`. -/
def reduce (op : α → α → α) (n : ℕ) (f : ℕ → α) : α :=
  (List.range' 1 (n - 1)).foldl (fun a i => op a (f i)) (f 0)

/-- A choice of the better of two. -/
structure Chooses (op : α → α → α) (le : α → α → Prop) : Prop where
  eq : ∀ a b, op a b = a ∨ op a b = b
  left : ∀ a b, le (op a b) a
  right : ∀ a b, le (op a b) b
  refl : ∀ a, le a a
  trans : ∀ a b c, le a b → le b c → le a c

/-- The best lane. -/
theorem Chooses.reduce_spec {op : α → α → α} {le : α → α → Prop} (h : Chooses op le) {n : ℕ}
    (hn : 0 < n) (f : ℕ → α) :
    (∃ i < n, reduce op n f = f i) ∧ ∀ i < n, le (reduce op n f) (f i) := by
  obtain ⟨n, rfl⟩ : ∃ m, n = m + 1 := ⟨n - 1, by omega⟩
  clear hn
  induction n with
  | zero =>
      refine ⟨⟨0, one_pos, rfl⟩, fun i hi => ?_⟩
      obtain rfl : i = 0 := by omega
      exact h.refl _
  | succ n ih =>
      have hstep : reduce op (n + 1 + 1) f = op (reduce op (n + 1) f) (f (n + 1)) := by
        rw [reduce, reduce, Nat.add_sub_cancel, Nat.add_sub_cancel, List.range'_concat,
          List.foldl_append, List.foldl_cons, List.foldl_nil, Nat.one_mul, Nat.add_comm 1 n]
      obtain ⟨⟨i, hi, heq⟩, hle⟩ := ih
      rw [hstep]
      refine ⟨?_, fun j hj => ?_⟩
      · rcases h.eq (reduce op (n + 1) f) (f (n + 1)) with ho | ho
        · exact ⟨i, hi.trans (Nat.lt_succ_self _), ho.trans heq⟩
        · exact ⟨n + 1, Nat.lt_succ_self _, ho⟩
      · rcases Nat.lt_succ_iff_lt_or_eq.mp hj with hj | rfl
        · exact h.trans _ _ _ (h.left _ _) (hle j hj)
        · exact h.right _ _

/-- The unsigned minimum. -/
def minU (a b : BitVec w) : BitVec w := if b.toNat < a.toNat then b else a

/-- The unsigned maximum. -/
def maxU (a b : BitVec w) : BitVec w := if a.toNat < b.toNat then b else a

/-- The signed minimum. -/
def minS (a b : BitVec w) : BitVec w := if b.toInt < a.toInt then b else a

/-- The signed maximum. -/
def maxS (a b : BitVec w) : BitVec w := if a.toInt < b.toInt then b else a

/-- The smaller of two by a key. -/
theorem chooses_of_key {β : Type*} [LinearOrder β] {op : α → α → α} (key : α → β)
    (h : ∀ a b, op a b = if key b < key a then b else a) : Chooses op fun a b => key a ≤ key b where
  eq a b := by
    rw [h]
    split_ifs
    · exact Or.inr rfl
    · exact Or.inl rfl
  left a b := by
    rw [h]
    split_ifs with hlt
    · exact hlt.le
    · exact le_rfl
  right a b := by
    rw [h]
    split_ifs with hlt
    · exact le_rfl
    · exact not_lt.mp hlt
  refl _ := le_rfl
  trans _ _ _ := le_trans

theorem chooses_minU : Chooses (minU (w := w)) fun a b => a.toNat ≤ b.toNat :=
  chooses_of_key BitVec.toNat fun _ _ => rfl

theorem chooses_minS : Chooses (minS (w := w)) fun a b => a.toInt ≤ b.toInt :=
  chooses_of_key BitVec.toInt fun _ _ => rfl

theorem chooses_maxU : Chooses (maxU (w := w)) fun a b => b.toNat ≤ a.toNat :=
  chooses_of_key (fun a : BitVec w => OrderDual.toDual a.toNat) fun _ _ => rfl

theorem chooses_maxS : Chooses (maxS (w := w)) fun a b => b.toInt ≤ a.toInt :=
  chooses_of_key (fun a : BitVec w => OrderDual.toDual a.toInt) fun _ _ => rfl

/-- The least of the lanes in `p`, as an unsigned number. -/
structure IsMin (f : ℕ → BitVec w) (p : ℕ → Prop) (a : BitVec w) : Prop where
  mem : ∃ i, p i ∧ a = f i
  le : ∀ i, p i → a.toNat ≤ (f i).toNat

theorem isMin_single (f : ℕ → BitVec w) (i : ℕ) : IsMin f (· = i) (f i) :=
  ⟨⟨i, rfl, rfl⟩, fun j hj => by rw [hj]⟩

theorem isMin_reduce {n : ℕ} (hn : 0 < n) (f : ℕ → BitVec w) :
    IsMin f (· < n) (reduce minU n f) := by
  obtain ⟨⟨i, hi, heq⟩, hle⟩ := chooses_minU.reduce_spec hn f
  exact ⟨⟨i, hi, heq⟩, hle⟩

variable {f g : ℕ → BitVec w} {p q : ℕ → Prop} {a b : BitVec w}

theorem IsMin.congr (h : IsMin f p a) (hpq : ∀ i, p i ↔ q i) : IsMin f q a :=
  ⟨h.mem.imp fun i hi => ⟨(hpq i).mp hi.1, hi.2⟩, fun i hi => h.le i ((hpq i).mpr hi)⟩

theorem IsMin.min (h : IsMin f p a) (h' : IsMin f q b) : IsMin f (fun i => p i ∨ q i) (minU a b) where
  mem := by
    rcases chooses_minU.eq a b with heq | heq
    · obtain ⟨i, hi, ha⟩ := h.mem
      exact ⟨i, Or.inl hi, heq.trans ha⟩
    · obtain ⟨i, hi, hb⟩ := h'.mem
      exact ⟨i, Or.inr hi, heq.trans hb⟩
  le i hi := hi.elim (fun hp => (chooses_minU.left a b).trans (h.le i hp))
    fun hq => (chooses_minU.right a b).trans (h'.le i hq)

/-- The least of several groups of lanes. -/
theorem IsMin.groups {s : ℕ → ℕ → Prop} (h : IsMin g q a) (hg : ∀ j, q j → IsMin f (s j) (g j)) :
    IsMin f (fun i => ∃ j, q j ∧ s j i) a where
  mem := by
    obtain ⟨j, hj, heq⟩ := h.mem
    obtain ⟨i, hi, hf⟩ := (hg j hj).mem
    exact ⟨i, ⟨j, hj, hi⟩, heq.trans hf⟩
  le i hi := by
    obtain ⟨j, hj, hs⟩ := hi
    exact (h.le j hj).trans ((hg j hj).le i hs)

end Reduce

end Simd
