import Mathlib.Algebra.BigOperators.Intervals
import NvHashMap.Lib.Simd

/-! # Vector instructions of Arm

The intrinsics on registers of 64 and 128 bits, by their documented lanes.  An intrinsic that exists for
several widths is one function, and `vreinterpret` is the identity.

* A group of registers, such as `int8x16x4_t`, is a word with the registers one after the other (`val`,
  `group`); `each₁` and `each₂` apply an instruction to every register of a group.
* Several registers are combined in a balanced tree (`tree`), and the lanes of one by `reduce`.
* A comparison gives a lane mask: every byte is `0xff` or `0` (`IsLaneMask`). -/

namespace Neon

open Lanes Simd

variable {W V b d w : ℕ}

/-! ### Groups of registers -/

/-- The register with index `j` of a group. -/
def val (b : ℕ) (x : BitVec V) (j : ℕ) : BitVec (8 * b) := laneOf (8 * b) x j

def group (b V : ℕ) (f : ℕ → BitVec (8 * b)) : BitVec V := ofLanes (8 * b) V f

/-- An instruction on every register. -/
def each₁ (b : ℕ) (f : BitVec (8 * b) → BitVec (8 * b)) (x : BitVec V) : BitVec V :=
  group b V fun j => f (val b x j)

/-- An instruction on every two registers. -/
def each₂ (b : ℕ) (f : BitVec (8 * b) → BitVec (8 * b) → BitVec (8 * b)) (x y : BitVec V) :
    BitVec V :=
  group b V fun j => f (val b x j) (val b y j)

section Tree
variable {α β : Type*}

/-- Combines `2 ^ d` values: two halves, then their results. -/
def tree (op : α → α → α) : ℕ → (ℕ → α) → α
  | 0, f => f 0
  | d + 1, f => op (tree op d f) (tree op d fun j => f (j + 2 ^ d))

end Tree

/-! ### Bytes -/

/-- `vdup_n_s8` and `vdup_n_u8`. -/
def vdup8 (W : ℕ) (x : BitVec 8) : BitVec W := ofLanes 8 W fun _ => x

/-- A condition as a byte. -/
def full8 (c : Bool) : BitVec 8 := if c then 0xff#8 else 0#8

/-- `vceq_s8` and `vceq_u8`. -/
def vceq (a b : BitVec W) : BitVec W := map₂ (fun x y => full8 (x == y)) a b

/-- `vcgez_s8`. -/
def vcgez (a : BitVec W) : BitVec W := map₁ (fun x => full8 (decide (0 ≤ x.toInt))) a

/-- `vcltz_s8`. -/
def vcltz (a : BitVec W) : BitVec W := map₁ (fun x => full8 (decide (x.toInt < 0))) a

/-- `vclt_u8`. -/
def vcltU8 (a b : BitVec W) : BitVec W := map₂ (fun x y => full8 (decide (x.toNat < y.toNat))) a b

/-- `vtst_u8`. -/
def vtst8 (a b : BitVec W) : BitVec W := map₂ (fun x y => full8 (x &&& y != 0)) a b

/-- `vmin_s8`. -/
def vminS8 (a b : BitVec W) : BitVec W := map₂ minS a b

/-- `vmax_s8`. -/
def vmaxS8 (a b : BitVec W) : BitVec W := map₂ maxS a b

/-- `vmin_u8`. -/
def vminU8 (a b : BitVec W) : BitVec W := map₂ minU a b

/-- `vmax_u8`. -/
def vmaxU8 (a b : BitVec W) : BitVec W := map₂ maxU a b

/-- `vadd_s8`. -/
def vadd8 (a b : BitVec W) : BitVec W := map₂ (· + ·) a b

/-- `vsub_u8`. -/
def vsub8 (a b : BitVec W) : BitVec W := map₂ (· - ·) a b

/-- A shift to the left by a signed number of bits. -/
def shift8 (x s : BitVec 8) : BitVec 8 :=
  if 0 ≤ s.toInt then x <<< s.toNat else x >>> (-s.toInt).toNat

/-- `vshl_u8`. -/
def vshl8 (a s : BitVec W) : BitVec W := map₂ shift8 a s

/-- `vbsl_s8`, bit by bit. -/
def vbsl (m a b : BitVec W) : BitVec W := m &&& a ||| ~~~m &&& b

/-- `vtbl1_s8`, `vqtbl1q_s8`, `vqtbl2q_s8` and `vqtbl4q_s8`. -/
def vtbl (t : BitVec V) (idx : BitVec W) : BitVec W :=
  map₁ (fun i => if i.toNat < V / 8 then lane t i.toNat else 0#8) idx

/-! ### Across the bytes of a register -/

/-- `vminv_s8`. -/
def vminvS8 (a : BitVec (8 * b)) : BitVec 8 := reduce minS b (lane a)

/-- `vmaxv_s8`. -/
def vmaxvS8 (a : BitVec (8 * b)) : BitVec 8 := reduce maxS b (lane a)

/-- `vminv_u8`. -/
def vminvU8 (a : BitVec (8 * b)) : BitVec 8 := reduce minU b (lane a)

/-- `vmaxv_u8`. -/
def vmaxvU8 (a : BitVec (8 * b)) : BitVec 8 := reduce maxU b (lane a)

/-- `vaddv_s8`. -/
def vaddv8 (a : BitVec (8 * b)) : BitVec 8 := reduce (· + ·) b (lane a)

/-- `vmaxvq_u32`. -/
def vmaxvU32 (a : BitVec 128) : BitVec 32 := reduce maxU 4 (laneOf 32 a)

/-! ### Wider lanes -/

/-- A condition as a wide lane. -/
def full (w : ℕ) (c : Bool) : BitVec w := if c then BitVec.allOnes w else 0#w

/-- `vdup_n_u32`. -/
def vdup32 (W : ℕ) (x : BitVec 32) : BitVec W := ofLanes 32 W fun _ => x

/-- `vdup_n_u64`. -/
def vdup64 (W : ℕ) (x : BitVec 64) : BitVec W := ofLanes 64 W fun _ => x

/-- `vtst_u32` and `vtst_u64`, by the width of the lanes. -/
def vtst (w : ℕ) (a b : BitVec W) : BitVec W :=
  ofLanes w W fun j => full w (laneOf w a j &&& laneOf w b j != 0)

/-- `vshrn_n_u16`. -/
def vshrn16 (a : BitVec 128) (n : ℕ) : BitVec 64 :=
  ofLanes 8 64 fun j => (laneOf 16 a j >>> n).setWidth 8

/-- `vshll_n_u8`. -/
def vshll8 (a : BitVec 64) (n : ℕ) : BitVec 128 :=
  ofLanes 16 128 fun j => (lane a j).setWidth 16 <<< n

/-- `vzip1q_u8`, `vzip1q_u16` and `vzip1q_u32`, by the width of the lanes. -/
def vzip1 (w : ℕ) (a b : BitVec 128) : BitVec 128 :=
  ofLanes w 128 fun j => laneOf w (if j % 2 = 0 then a else b) (j / 2)

/-- `vzip2q_u16` and `vzip2q_u32`. -/
def vzip2 (w : ℕ) (a b : BitVec 128) : BitVec 128 :=
  ofLanes w 128 fun j => laneOf w (if j % 2 = 0 then a else b) (128 / w / 2 + j / 2)

/-- `vpaddq_u8`: the sums of the pairs of `a`, then those of `b`. -/
def vpadd8 (a b : BitVec 128) : BitVec 128 :=
  ofLanes 8 128 fun i =>
    if i < 8 then lane a (2 * i) + lane a (2 * i + 1)
    else lane b (2 * (i - 8)) + lane b (2 * (i - 8) + 1)

/-! ### The bytes of the results -/

section Lanes
variable (a a' : BitVec W) {i : ℕ} (hi : 8 * (i + 1) ≤ W)
include hi

theorem lane_vdup8 (x : BitVec 8) : lane (vdup8 W x) i = x := lane_ofLanes_eight _ hi

theorem lane_vdup32 (x : BitVec 32) : lane (vdup32 W x) i = lane x (i % 4) :=
  lane_ofLanes (b := 4) _ hi

theorem lane_vdup64 (x : BitVec 64) : lane (vdup64 W x) i = lane x (i % 8) :=
  lane_ofLanes (b := 8) _ hi

theorem lane_vceq : lane (vceq a a') i = full8 (lane a i == lane a' i) := lane_map₂ _ a a' hi

theorem lane_vcgez : lane (vcgez a) i = full8 (decide (0 ≤ (lane a i).toInt)) := lane_map₁ _ a hi

theorem lane_vcltz : lane (vcltz a) i = full8 (decide ((lane a i).toInt < 0)) := lane_map₁ _ a hi

theorem lane_vcltU8 : lane (vcltU8 a a') i = full8 (decide ((lane a i).toNat < (lane a' i).toNat)) :=
  lane_map₂ _ a a' hi

theorem lane_vtst8 : lane (vtst8 a a') i = full8 (lane a i &&& lane a' i != 0) :=
  lane_map₂ _ a a' hi

theorem lane_vminS8 : lane (vminS8 a a') i = minS (lane a i) (lane a' i) := lane_map₂ _ a a' hi

theorem lane_vminU8 : lane (vminU8 a a') i = minU (lane a i) (lane a' i) := lane_map₂ _ a a' hi

theorem lane_vsub8 : lane (vsub8 a a') i = lane a i - lane a' i := lane_map₂ _ a a' hi

theorem lane_vshl8 : lane (vshl8 a a') i = shift8 (lane a i) (lane a' i) := lane_map₂ _ a a' hi

theorem lane_vtbl (t : BitVec V) : lane (vtbl t a) i =
    if (lane a i).toNat < V / 8 then lane t (lane a i).toNat else 0#8 := lane_map₁ _ a hi

/-- The bytes of one register or of the other. -/
theorem lane_vbsl (m : BitVec W) {c : Bool} (hm : lane m i = full8 c) :
    lane (vbsl m a a') i = if c then lane a i else lane a' i := by
  have hall : ∀ x y : BitVec 8, full8 true &&& x ||| ~~~full8 true &&& y = x := by
    intro x y
    have htrue : full8 true = BitVec.allOnes 8 := by decide
    rw [htrue, BitVec.allOnes_and, BitVec.not_allOnes, BitVec.zero_and, BitVec.or_zero]
  have hnone : ∀ x y : BitVec 8, full8 false &&& x ||| ~~~full8 false &&& y = y := by
    intro x y
    have hfalse : full8 false = 0#8 := rfl
    rw [hfalse, BitVec.zero_and, BitVec.not_zero, BitVec.allOnes_and, BitVec.zero_or]
  unfold vbsl
  rw [lane_or, lane_and, lane_and, lane_not _ hi, hm]
  cases c with
  | true => exact hall _ _
  | false => exact hnone _ _

end Lanes

/-! ### Registers of a group -/

theorem lane_val (x : BitVec V) (j : ℕ) {i : ℕ} (hi : i < b) :
    lane (val b x j) i = lane x (b * j + i) := lane_laneOf x j hi

theorem lane_group (f : ℕ → BitVec (8 * b)) {i : ℕ} (hi : 8 * (i + 1) ≤ V) :
    lane (group b V f) i = lane (f (i / b)) (i % b) := lane_ofLanes f hi

section Each
variable (hb : 0 < b) (x y : BitVec V) {i : ℕ} (hi : 8 * (i + 1) ≤ V)
include hb hi

theorem lane_each₁ {f : BitVec (8 * b) → BitVec (8 * b)} {g : ℕ → BitVec 8 → BitVec 8}
    (hf : ∀ z, ∀ r < b, lane (f z) r = g r (lane z r)) :
    lane (each₁ b f x) i = g (i % b) (lane x i) := by
  have hr := Nat.mod_lt i hb
  rw [each₁, lane_group _ hi, hf _ _ hr, lane_val _ _ hr, Nat.div_add_mod]

theorem lane_each₂ {f : BitVec (8 * b) → BitVec (8 * b) → BitVec (8 * b)}
    {g : BitVec 8 → BitVec 8 → BitVec 8}
    (hf : ∀ z z', ∀ r < b, lane (f z z') r = g (lane z r) (lane z' r)) :
    lane (each₂ b f x y) i = g (lane x i) (lane y i) := by
  have hr := Nat.mod_lt i hb
  rw [each₂, lane_group _ hi, hf _ _ _ hr, lane_val _ _ hr, lane_val _ _ hr, Nat.div_add_mod]

end Each

/-! ### Trees -/

section Tree
variable {α β : Type*}

/-- A homomorphism carries one tree to another. -/
theorem tree_map {op : α → α → α} {op' : β → β → β} (φ : α → β)
    (h : ∀ x y, φ (op x y) = op' (φ x) (φ y)) (d : ℕ) :
    ∀ f : ℕ → α, φ (tree op d f) = tree op' d fun j => φ (f j) := by
  induction d with
  | zero => exact fun f => rfl
  | succ d ih =>
      intro f
      rw [tree, h, ih, ih]
      rfl

theorem tree_congr {op : α → α → α} {d : ℕ} : ∀ {f g : ℕ → α}, (∀ j < 2 ^ d, f j = g j) →
    tree op d f = tree op d g := by
  induction d with
  | zero => exact fun h => h 0 Nat.one_pos
  | succ d ih =>
      intro f g h
      have hpow : 2 ^ (d + 1) = 2 ^ d + 2 ^ d := by rw [pow_succ]; omega
      rw [tree, tree, ih fun j hj => h j (by omega), ih fun j hj => h (j + 2 ^ d) (by omega)]

theorem reduce_congr {op : α → α → α} {n : ℕ} (hn : 0 < n) {f g : ℕ → α}
    (h : ∀ j < n, f j = g j) : reduce op n f = reduce op n g := by
  unfold reduce
  rw [h 0 hn]
  refine List.foldl_ext _ _ _ fun a i hi => ?_
  obtain ⟨k, hk, rfl⟩ := List.mem_range'.mp hi
  rw [h _ (by omega)]

theorem reduce_map {op : α → α → α} {op' : β → β → β} (φ : α → β)
    (h : ∀ x y, φ (op x y) = op' (φ x) (φ y)) (n : ℕ) (f : ℕ → α) :
    φ (reduce op n f) = reduce op' n fun j => φ (f j) := by
  have hfold : ∀ (l : List ℕ) (x : α), φ (l.foldl (fun a i => op a (f i)) x) =
      l.foldl (fun a i => op' a (φ (f i))) (φ x) := by
    intro l
    induction l with
    | nil => exact fun x => rfl
    | cons i l ih =>
        intro x
        rw [List.foldl_cons, List.foldl_cons, ih, h]
  exact hfold _ _

/-- The best value of a tree. -/
theorem tree_spec {op : α → α → α} {le : α → α → Prop} (h : Chooses op le) (d : ℕ) :
    ∀ f : ℕ → α, (∃ j < 2 ^ d, tree op d f = f j) ∧ ∀ j < 2 ^ d, le (tree op d f) (f j) := by
  induction d with
  | zero =>
      refine fun f => ⟨⟨0, Nat.one_pos, rfl⟩, fun j hj => ?_⟩
      obtain rfl : j = 0 := by omega
      exact h.refl _
  | succ d ih =>
      intro f
      have hpow : 2 ^ (d + 1) = 2 ^ d + 2 ^ d := by rw [pow_succ]; omega
      obtain ⟨⟨j, hj, heq⟩, hle⟩ := ih f
      obtain ⟨⟨j', hj', heq'⟩, hle'⟩ := ih fun j => f (j + 2 ^ d)
      rw [tree]
      refine ⟨?_, fun i hi => ?_⟩
      · rcases h.eq (tree op d f) (tree op d fun j => f (j + 2 ^ d)) with ho | ho
        · exact ⟨j, by omega, ho.trans heq⟩
        · exact ⟨j' + 2 ^ d, by omega, ho.trans heq'⟩
      · by_cases hlt : i < 2 ^ d
        · exact h.trans _ _ _ (h.left _ _) (hle i hlt)
        · have := hle' (i - 2 ^ d) (by omega)
          rw [Nat.sub_add_cancel (by omega)] at this
          exact h.trans _ _ _ (h.right _ _) this

theorem tree_sum (d : ℕ) : ∀ f : ℕ → ℤ, tree (· + ·) d f = ∑ j ∈ Finset.range (2 ^ d), f j := by
  induction d with
  | zero => exact fun f => (Finset.sum_range_one f).symm
  | succ d ih =>
      intro f
      have hpow : 2 ^ (d + 1) = 2 ^ d + 2 ^ d := by rw [pow_succ]; omega
      rw [tree, ih, ih, hpow, Finset.sum_range_add]
      simp only [Nat.add_comm]

theorem reduce_sum {n : ℕ} (hn : 0 < n) (f : ℕ → ℤ) :
    reduce (· + ·) n f = ∑ j ∈ Finset.range n, f j := by
  obtain ⟨n, rfl⟩ : ∃ m, n = m + 1 := ⟨n - 1, by omega⟩
  clear hn
  induction n with
  | zero => exact (Finset.sum_range_one f).symm
  | succ n ih =>
      rw [Finset.sum_range_succ, ← ih, reduce, reduce, Nat.add_sub_cancel, Nat.add_sub_cancel,
        List.range'_concat, List.foldl_append, List.foldl_cons, List.foldl_nil, Nat.one_mul,
        Nat.add_comm 1 n]

theorem tree_or (d : ℕ) : ∀ f : ℕ → Bool, tree (· || ·) d f = true ↔ ∃ j < 2 ^ d, f j = true := by
  induction d with
  | zero =>
      refine fun f => ⟨fun h => ⟨0, Nat.one_pos, h⟩, ?_⟩
      rintro ⟨j, hj, h⟩
      obtain rfl : j = 0 := by omega
      exact h
  | succ d ih =>
      intro f
      have hpow : 2 ^ (d + 1) = 2 ^ d + 2 ^ d := by rw [pow_succ]; omega
      rw [tree, Bool.or_eq_true, ih, ih]
      constructor
      · rintro (⟨j, hj, h⟩ | ⟨j, hj, h⟩)
        · exact ⟨j, by omega, h⟩
        · exact ⟨j + 2 ^ d, by omega, h⟩
      · rintro ⟨j, hj, h⟩
        by_cases hlt : j < 2 ^ d
        · exact Or.inl ⟨j, hlt, h⟩
        · exact Or.inr ⟨j - 2 ^ d, by omega, by rwa [Nat.sub_add_cancel (by omega)]⟩

end Tree

/-! ### Across a group -/

section Across
variable {op : BitVec 8 → BitVec 8 → BitVec 8}

theorem lane_tree (f : ℕ → BitVec (8 * b)) {i : ℕ} (hi : i < b) :
    lane (tree (map₂ op) d f) i = tree op d fun j => lane (f j) i :=
  tree_map (fun z => lane z i) (fun x y => lane_map₂ op x y (by omega)) d f

/-- The byte with an index, of a group. -/
theorem index_lt {i j n : ℕ} (hi : i < b) (hj : j < n) : b * j + i < b * n := by
  have hle : b * (j + 1) ≤ b * n := Nat.mul_le_mul_left b hj
  rw [Nat.mul_succ] at hle
  omega

/-- The best byte of all registers. -/
theorem across_spec {le : BitVec 8 → BitVec 8 → Prop} (h : Chooses op le) (hb : 0 < b)
    (x : BitVec V) :
    (∃ k < b * 2 ^ d, reduce op b (lane (tree (map₂ op) d (val b x))) = lane x k) ∧
      ∀ k < b * 2 ^ d, le (reduce op b (lane (tree (map₂ op) d (val b x)))) (lane x k) := by
  have htree : ∀ i < b, ∀ j, lane (val b x j) i = lane x (b * j + i) := fun i hi j =>
    lane_val x j hi
  obtain ⟨⟨i, hi, heq⟩, hle⟩ := h.reduce_spec hb (lane (tree (map₂ op) d (val b x)))
  refine ⟨?_, fun k hk => ?_⟩
  · obtain ⟨⟨j, hj, hj'⟩, -⟩ := tree_spec h d fun j => lane (val b x j) i
    refine ⟨b * j + i, index_lt hi hj, ?_⟩
    rw [heq, lane_tree _ hi, hj', htree i hi]
  · have hr := Nat.mod_lt k hb
    have hq : k / b < 2 ^ d := Nat.div_lt_of_lt_mul hk
    have hbest := (tree_spec h d fun j => lane (val b x j) (k % b)).2 _ hq
    rw [htree _ hr, Nat.div_add_mod] at hbest
    refine h.trans _ _ _ (hle _ hr) ?_
    rw [lane_tree _ hr]
    exact hbest

/-- A sum over all bytes, register by register. -/
theorem sum_group (b n : ℕ) (c : ℕ → ℤ) : ∑ i ∈ Finset.range b, ∑ j ∈ Finset.range n, c (b * j + i) =
    ∑ k ∈ Finset.range (b * n), c k := by
  rw [Finset.sum_comm]
  induction n with
  | zero => rfl
  | succ n ih => rw [Finset.sum_range_succ, ih, Nat.mul_succ, Finset.sum_range_add]

theorem ofInt_tree (f : ℕ → ℤ) : BitVec.ofInt 8 (∑ j ∈ Finset.range (2 ^ d), f j) =
    tree (· + ·) d fun j => BitVec.ofInt 8 (f j) := by
  rw [← tree_sum]
  exact tree_map _ (fun x y => BitVec.ofInt_add x y) d f

theorem ofInt_reduce (hb : 0 < b) (f : ℕ → ℤ) : BitVec.ofInt 8 (∑ i ∈ Finset.range b, f i) =
    reduce (· + ·) b fun i => BitVec.ofInt 8 (f i) := by
  rw [← reduce_sum hb]
  exact reduce_map _ (fun x y => BitVec.ofInt_add x y) b f

/-- The sum of all bytes. -/
theorem across_sum (hb : 0 < b) (x : BitVec V) {c : ℕ → ℤ}
    (hc : ∀ k < b * 2 ^ d, lane x k = BitVec.ofInt 8 (c k)) :
    vaddv8 (tree vadd8 d (val b x)) = BitVec.ofInt 8 (∑ k ∈ Finset.range (b * 2 ^ d), c k) := by
  have hlane : ∀ i < b, lane (tree vadd8 d (val b x)) i =
      BitVec.ofInt 8 (∑ j ∈ Finset.range (2 ^ d), c (b * j + i)) := by
    intro i hi
    rw [ofInt_tree]
    refine (lane_tree _ hi).trans (tree_congr fun j hj => ?_)
    rw [lane_val x j hi, hc _ (index_lt hi hj)]
  have hred : vaddv8 (tree vadd8 d (val b x)) =
      reduce (· + ·) b fun i => BitVec.ofInt 8 (∑ j ∈ Finset.range (2 ^ d), c (b * j + i)) :=
    reduce_congr hb hlane
  rw [hred, ← ofInt_reduce hb, sum_group]

end Across

/-! ### Lane masks -/

/-- Every byte of the mask is `0xff` or `0`. -/
def IsLaneMask (K : ℕ) (x : BitVec V) (p : ℕ → Bool) : Prop := ∀ i < K, lane x i = full8 (p i)

theorem full8_ne_zero (c : Bool) : full8 c ≠ 0#8 ↔ c = true := by
  cases c <;> decide

theorem full8_and_ne_zero (c c' : Bool) : full8 c &&& full8 c' ≠ 0#8 ↔ (c && c') = true := by
  cases c <;> cases c' <;> decide

theorem full_or (c c' : Bool) : full w (c || c') = full w c ||| full w c' := by
  cases c <;> cases c' <;> simp [full]

theorem maxU_full (c c' : Bool) : full 32 (c || c') = maxU (full 32 c) (full 32 c') := by
  cases c <;> cases c' <;> decide

theorem lane_full {n : ℕ} (c : Bool) {t : ℕ} (ht : t < n) : lane (full (8 * n) c) t = full8 c := by
  cases c with
  | false => exact lane_zero t
  | true =>
      refine BitVec.eq_of_getLsbD_eq fun j hj => ?_
      have h1 : full (8 * n) true = BitVec.allOnes (8 * n) := rfl
      have h2 : full8 true = BitVec.allOnes 8 := by decide
      rw [h1, h2, getLsbD_lane, BitVec.getLsbD_allOnes, BitVec.getLsbD_allOnes,
        decide_eq_true hj, decide_eq_true (by omega : 8 * t + j < 8 * n), Bool.true_and]

/-- A wide lane is zero if all of its bytes are. -/
theorem wide_ne_zero {n : ℕ} (z : BitVec (8 * n)) : z ≠ 0 ↔ ∃ t < n, lane z t ≠ 0#8 := by
  constructor
  · intro hne
    by_contra hall
    refine hne (ext_lane (n := n) le_rfl fun t ht => ?_)
    rw [lane_zero]
    by_contra hc
    exact hall ⟨t, ht, hc⟩
  · rintro ⟨t, -, hne⟩ rfl
    exact hne (lane_zero t)

/-- `vtst` of two lane masks marks the wide lanes in which both have a byte. -/
theorem laneOf_vtst {n K : ℕ} {x y : BitVec W} {p q : ℕ → Bool} {l : ℕ} (hl : 8 * n * (l + 1) ≤ W)
    (hK : n * (l + 1) ≤ K) (hx : IsLaneMask K x p) (hy : IsLaneMask K y q) :
    laneOf (8 * n) (vtst (8 * n) x y) l =
      full (8 * n) (decide (∃ t < n, (p (n * l + t) && q (n * l + t)) = true)) := by
  unfold vtst
  rw [laneOf_ofLanes _ hl]
  congr 1
  rw [Bool.eq_iff_iff, bne_iff_ne, decide_eq_true_iff]
  refine (wide_ne_zero _).trans (exists_congr fun t => and_congr_right fun ht => ?_)
  have hlt : n * l + t < K := by
    rw [Nat.mul_succ] at hK
    omega
  rw [lane_and, lane_laneOf x l ht, lane_laneOf y l ht, hx _ hlt, hy _ hlt]
  exact full8_and_ne_zero _ _

theorem full_tree (c : ℕ → Bool) :
    tree (· ||| ·) d (fun j => full w (c j)) = full w (decide (∃ j < 2 ^ d, c j = true)) := by
  rw [← tree_map (full w) full_or]
  congr 1
  rw [Bool.eq_iff_iff, decide_eq_true_iff]
  exact tree_or d c

/-- Some wide lane is marked. -/
theorem vmaxvU32_full (x : BitVec 128) {c : ℕ → Bool} (h : ∀ l < 4, laneOf 32 x l = full 32 (c l)) :
    vmaxvU32 x = full 32 (decide (∃ l : ℕ, l < 4 ∧ c l = true)) := by
  have hred : vmaxvU32 x = reduce maxU 4 fun l => full 32 (c l) :=
    reduce_congr (by decide) h
  rw [hred, ← reduce_map (full 32) maxU_full]
  have hor : reduce (· || ·) 4 c = (c 0 || c 1 || c 2 || c 3) := rfl
  rw [hor]
  congr 1
  rw [Bool.eq_iff_iff, decide_eq_true_iff]
  simp only [Bool.or_eq_true]
  constructor
  · rintro (((h | h) | h) | h)
    · exact ⟨0, by decide, h⟩
    · exact ⟨1, by decide, h⟩
    · exact ⟨2, by decide, h⟩
    · exact ⟨3, by decide, h⟩
  · rintro ⟨l, hl, h⟩
    obtain rfl | rfl | rfl | rfl : l = 0 ∨ l = 1 ∨ l = 2 ∨ l = 3 := by omega
    · exact Or.inl (Or.inl (Or.inl h))
    · exact Or.inl (Or.inl (Or.inr h))
    · exact Or.inl (Or.inr h)
    · exact Or.inr h

theorem laneOf_or (x y : BitVec W) (l : ℕ) : laneOf w (x ||| y) l = laneOf w x l ||| laneOf w y l :=
  BitVec.extractLsb'_or ..

theorem IsLaneMask.val {x : BitVec V} {n : ℕ} {p : ℕ → Bool} (h : IsLaneMask (b * n) x p) {j : ℕ}
    (hj : j < n) : IsLaneMask b (val b x j) fun t => p (b * j + t) := by
  intro t ht
  rw [lane_val x j ht, h _ (index_lt ht hj)]

/-- Whether two lane masks have a byte in common, in all bits of a register. -/
theorem isLaneMask_any {x y : BitVec V} {p q : ℕ → Bool} (hx : IsLaneMask (16 * 2 ^ d) x p)
    (hy : IsLaneMask (16 * 2 ^ d) y q) :
    IsLaneMask 16 (vdup32 128 (vmaxvU32
      (tree (· ||| ·) d fun j => vtst 32 (Neon.val 16 x j) (Neon.val 16 y j))))
      fun _ => decide (∃ k : ℕ, k < 16 * 2 ^ d ∧ (p k && q k) = true) := by
  have hword : ∀ l < 4, laneOf 32 (tree (· ||| ·) d fun j =>
      vtst 32 (Neon.val 16 x j) (Neon.val 16 y j)) l =
        full 32 (decide (∃ j < 2 ^ d, decide (∃ t : ℕ, t < 4 ∧
          (p (16 * j + (4 * l + t)) && q (16 * j + (4 * l + t))) = true) = true)) := by
    intro l hl
    rw [← full_tree, tree_map (fun z => laneOf 32 z l) fun x y => laneOf_or x y l]
    refine tree_congr fun j hj => ?_
    exact laneOf_vtst (n := 4) (by omega) (by omega) (hx.val hj) (hy.val hj)
  intro i hi
  rw [lane_vdup32 (by omega), vmaxvU32_full _ hword]
  refine (lane_full (n := 4) _ (Nat.mod_lt i (by decide))).trans (congrArg full8 ?_)
  rw [Bool.eq_iff_iff, decide_eq_true_iff, decide_eq_true_iff]
  constructor
  · rintro ⟨l, hl, hj⟩
    obtain ⟨j, hj, ht⟩ := of_decide_eq_true hj
    obtain ⟨t, ht, h⟩ := of_decide_eq_true ht
    exact ⟨16 * j + (4 * l + t), index_lt (by omega) hj, h⟩
  · rintro ⟨k, hk, h⟩
    have hk' : k / 16 < 2 ^ d := Nat.div_lt_of_lt_mul hk
    have hidx : 16 * (k / 16) + (4 * (k % 16 / 4) + k % 4) = k := by omega
    refine ⟨k % 16 / 4, by omega, decide_eq_true ⟨k / 16, hk', decide_eq_true ⟨k % 4, by omega, ?_⟩⟩⟩
    rwa [hidx]

/-! ### Zips and pairwise sums -/

/-- The bytes of a zip of a register with itself. -/
theorem lane_vzip1 {n : ℕ} (hn : 0 < n) (a : BitVec 128) {i : ℕ} (hi : i < 16) :
    lane (vzip1 (8 * n) a a) i = lane a (n * (i / n / 2) + i % n) := by
  unfold vzip1
  rw [lane_ofLanes _ (by omega), ite_self, lane_laneOf _ _ (Nat.mod_lt i hn)]

theorem lane_vzip2 {n : ℕ} (hn : 0 < n) (a : BitVec 128) {i : ℕ} (hi : i < 16) :
    lane (vzip2 (8 * n) a a) i = lane a (n * (128 / (8 * n) / 2 + i / n / 2) + i % n) := by
  unfold vzip2
  rw [lane_ofLanes _ (by omega), ite_self, lane_laneOf _ _ (Nat.mod_lt i hn)]

/-- The sums of the pairs of `a`. -/
theorem lane_vpadd8_low (a b : BitVec 128) {f : ℕ → BitVec 8} (ha : ∀ k < 16, lane a k = f k)
    {i : ℕ} (hi : i < 8) : lane (vpadd8 a b) i = f (2 * i) + f (2 * i + 1) := by
  unfold vpadd8
  rw [lane_ofLanes_eight _ (by omega), if_pos hi, ha _ (by omega), ha _ (by omega)]

/-- The sums of the pairs of two registers that follow each other. -/
theorem lane_vpadd8 (a b : BitVec 128) {f : ℕ → BitVec 8} (ha : ∀ k < 16, lane a k = f k)
    (hb : ∀ k < 16, lane b k = f (16 + k)) {i : ℕ} (hi : i < 16) :
    lane (vpadd8 a b) i = f (2 * i) + f (2 * i + 1) := by
  by_cases hlt : i < 8
  · exact lane_vpadd8_low a b ha hlt
  · unfold vpadd8
    rw [lane_ofLanes_eight _ (by omega), if_neg hlt, hb _ (by omega), hb _ (by omega)]
    congr 2 <;> omega

end Neon
