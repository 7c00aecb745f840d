import Mathlib.Data.Nat.Bitwise
import Mathlib.Data.Nat.Digits.Defs
import Mathlib.Data.Nat.ModEq
import Mathlib.Tactic.Ring

/-! # Byte lanes of a word

A word of `8 * n` bits is an array of `n` bytes.  Bitwise operations act on each byte alone; an
addition or a multiplication does so if no byte overflows (`lane_add`, `lane_mul`).  In a subtraction
a byte lends one to the bytes below it if they are too small (`borrows_succ`, `lane_sub`). -/

namespace Lanes

variable {w : ℕ}

/-- The byte at index `i`. -/
def lane (x : BitVec w) (i : ℕ) : BitVec 8 := x.extractLsb' (8 * i) 8

theorem getLsbD_lane (x : BitVec w) (i j : ℕ) :
    (lane x i).getLsbD j = (decide (j < 8) && x.getLsbD (8 * i + j)) := by
  rw [lane, BitVec.getLsbD_extractLsb']

theorem getLsbD_eq_lane (x : BitVec w) (i : ℕ) {j : ℕ} (hj : j < 8) :
    x.getLsbD (8 * i + j) = (lane x i).getLsbD j := by
  rw [getLsbD_lane, decide_eq_true hj, Bool.true_and]

theorem toNat_lane (x : BitVec w) (i : ℕ) : (lane x i).toNat = x.toNat / 256 ^ i % 256 := by
  rw [lane, BitVec.extractLsb'_toNat, Nat.shiftRight_eq_div_pow, pow_mul]
  rfl

/-- A word of bytes is given by its lanes. -/
theorem ext_lane {n : ℕ} (hw : w ≤ 8 * n) {x y : BitVec w}
    (h : ∀ i < n, lane x i = lane y i) : x = y := by
  refine BitVec.eq_of_getLsbD_eq fun i hi => ?_
  rw [← Nat.div_add_mod i 8, getLsbD_eq_lane _ _ (Nat.mod_lt _ (by decide)),
    getLsbD_eq_lane _ _ (Nat.mod_lt _ (by decide)), h _ (by omega)]

theorem lane_eight (x : BitVec 8) : lane x 0 = x := by
  refine BitVec.eq_of_getLsbD_eq fun j hj => ?_
  rw [getLsbD_lane, decide_eq_true hj, Bool.true_and, Nat.mul_zero, Nat.zero_add]

/-! ### Bitwise operations -/

@[simp] theorem lane_and (x y : BitVec w) (i : ℕ) : lane (x &&& y) i = lane x i &&& lane y i :=
  BitVec.extractLsb'_and

@[simp] theorem lane_or (x y : BitVec w) (i : ℕ) : lane (x ||| y) i = lane x i ||| lane y i :=
  BitVec.extractLsb'_or

@[simp] theorem lane_xor (x y : BitVec w) (i : ℕ) : lane (x ^^^ y) i = lane x i ^^^ lane y i :=
  BitVec.extractLsb'_xor

theorem lane_not (x : BitVec w) {i : ℕ} (hi : 8 * (i + 1) ≤ w) :
    lane (~~~x) i = ~~~lane x i := by
  refine BitVec.eq_of_getLsbD_eq fun j hj => ?_
  rw [getLsbD_lane, BitVec.getLsbD_not, BitVec.getLsbD_not, getLsbD_lane,
    decide_eq_true (by omega : 8 * i + j < w), decide_eq_true hj]
  simp

theorem lane_shiftLeft (x : BitVec w) (s : ℕ) {i : ℕ} (hi : 8 * (i + 1) ≤ w) :
    lane (x <<< (8 * s)) i = if i < s then 0 else lane x (i - s) := by
  refine BitVec.eq_of_getLsbD_eq fun j hj => ?_
  rw [getLsbD_lane, BitVec.getLsbD_shiftLeft, decide_eq_true hj,
    decide_eq_true (by omega : 8 * i + j < w)]
  split_ifs with h
  · rw [decide_eq_true (by omega : 8 * i + j < 8 * s)]
    simp
  · rw [decide_eq_false (by omega : ¬ 8 * i + j < 8 * s), getLsbD_lane, decide_eq_true hj,
      show 8 * i + j - 8 * s = 8 * (i - s) + j by omega]
    simp

/-- A word widened: the new lanes are zero. -/
theorem lane_setWidth {w' : ℕ} (x : BitVec w) {i : ℕ} (hi : 8 * (i + 1) ≤ w') :
    lane (x.setWidth w') i = lane x i := by
  refine BitVec.eq_of_getLsbD_eq fun j hj => ?_
  rw [getLsbD_lane, getLsbD_lane, BitVec.getLsbD_setWidth,
    decide_eq_true (by omega : 8 * i + j < w'), Bool.true_and]

@[simp] theorem lane_zero (i : ℕ) : lane (0 : BitVec w) i = 0#8 := by
  refine BitVec.eq_of_getLsbD_eq fun j hj => ?_
  rw [getLsbD_lane, BitVec.ofNat_eq_ofNat, BitVec.getLsbD_zero, Bool.and_false, BitVec.getLsbD_zero]

theorem lane_of_ge (x : BitVec w) {i : ℕ} (hi : w ≤ 8 * i) : lane x i = 0 := by
  refine BitVec.eq_of_getLsbD_eq fun j hj => ?_
  rw [getLsbD_lane, BitVec.getLsbD_of_ge _ _ (by omega), Bool.and_false]
  simp

/-- A word shifted to the right by one: in each lane the highest bit comes from the next lane. -/
theorem lane_halve (x : BitVec w) (i : ℕ) : lane (x >>> 1) i &&& 0x7f#8 = lane x i >>> 1 := by
  have hbyte : ∀ j < 8, (0x7f#8).getLsbD j = decide (1 + j < 8) := by decide
  refine BitVec.eq_of_getLsbD_eq fun j hj => ?_
  rw [BitVec.getLsbD_and, hbyte j hj, BitVec.getLsbD_ushiftRight, getLsbD_lane, getLsbD_lane,
    BitVec.getLsbD_ushiftRight, decide_eq_true hj, Bool.true_and, Bool.and_comm]
  congr 2
  omega

/-- The byte at the place where a word is cut off after a shift by whole bytes. -/
theorem setWidth_ushiftRight (x : BitVec w) (i : ℕ) : (x >>> (8 * i)).setWidth 8 = lane x i := by
  refine BitVec.eq_of_getLsbD_eq fun j hj => ?_
  rw [getLsbD_lane, BitVec.getLsbD_setWidth, BitVec.getLsbD_ushiftRight]

/-- A signed shift gives the same byte. -/
theorem setWidth_sshiftRight (x : BitVec w) {i : ℕ} (hi : 8 * (i + 1) ≤ w) :
    (x.sshiftRight (i * 8)).setWidth 8 = lane x i := by
  refine BitVec.eq_of_getLsbD_eq fun j hj => ?_
  rw [getLsbD_lane, BitVec.getLsbD_setWidth, BitVec.getLsbD_sshiftRight,
    decide_eq_false (by omega : ¬ w ≤ j), Bool.not_false, Bool.true_and,
    if_pos (by omega : i * 8 + j < w), Nat.mul_comm]

/-! ### Arithmetic -/

theorem pow_256_eq (i : ℕ) : 256 ^ i = 2 ^ (8 * i) := by
  rw [pow_mul]
  rfl

/-- The lanes of a number that was cut to the width of the word. -/
theorem div_mod_of_le {n i : ℕ} (hi : 8 * (i + 1) ≤ w) :
    n % 2 ^ w / 256 ^ i % 256 = n / 256 ^ i % 256 := by
  have hdvd : 256 ^ (i + 1) ∣ 2 ^ w := by
    rw [pow_256_eq]
    exact pow_dvd_pow 2 hi
  have hsplit : ∀ a : ℕ, a / 256 ^ i % 256 = a % 256 ^ (i + 1) / 256 ^ i := by
    intro a
    rw [pow_succ, Nat.mod_mul_right_div_self]
  rw [hsplit, hsplit, Nat.mod_mod_of_dvd _ hdvd]

/-- The part of a word below a lane. -/
theorem mod_pow_succ (x : BitVec w) (i : ℕ) :
    x.toNat % 256 ^ (i + 1) = x.toNat % 256 ^ i + 256 ^ i * (lane x i).toNat := by
  rw [toNat_lane, Nat.mod_pow_succ]

/-- Without an overflow in a lower lane there is no carry. -/
theorem mod_add_mod_lt {x y : BitVec w} : ∀ {i : ℕ},
    (∀ j < i, (lane x j).toNat + (lane y j).toNat < 256) →
    x.toNat % 256 ^ i + y.toNat % 256 ^ i < 256 ^ i
  | 0, _ => by simp [Nat.mod_one]
  | i + 1, h => by
      have ih := mod_add_mod_lt (x := x) (y := y) fun j hj => h j (Nat.lt_succ_of_lt hj)
      have hi := h i (Nat.lt_succ_self i)
      rw [mod_pow_succ, mod_pow_succ]
      calc x.toNat % 256 ^ i + 256 ^ i * (lane x i).toNat
            + (y.toNat % 256 ^ i + 256 ^ i * (lane y i).toNat)
          = x.toNat % 256 ^ i + y.toNat % 256 ^ i
            + 256 ^ i * ((lane x i).toNat + (lane y i).toNat) := by ring
        _ < 256 ^ i + 256 ^ i * ((lane x i).toNat + (lane y i).toNat) := by omega
        _ ≤ 256 ^ i + 256 ^ i * 255 := by
            exact Nat.add_le_add_left (Nat.mul_le_mul_left _ (by omega)) _
        _ = 256 ^ (i + 1) := by ring

theorem lane_add {x y : BitVec w} {i : ℕ} (hi : 8 * (i + 1) ≤ w)
    (h : ∀ j < i, (lane x j).toNat + (lane y j).toNat < 256) :
    lane (x + y) i = lane x i + lane y i := by
  have hlt := mod_add_mod_lt h
  apply BitVec.eq_of_toNat_eq
  rw [toNat_lane, BitVec.toNat_add, div_mod_of_le hi, Nat.add_div (by positivity),
    if_neg (by omega), BitVec.toNat_add, toNat_lane, toNat_lane, Nat.add_zero, Nat.add_mod]

/-- Without an overflow in a lower lane a product has no carry. -/
theorem mod_mul_lt {x : BitVec w} {s : ℕ} : ∀ {i : ℕ}, (∀ j < i, (lane x j).toNat * s < 256) →
    x.toNat % 256 ^ i * s < 256 ^ i
  | 0, _ => by simp [Nat.mod_one]
  | i + 1, h => by
      have ih := mod_mul_lt (x := x) fun j hj => h j (Nat.lt_succ_of_lt hj)
      have hi := h i (Nat.lt_succ_self i)
      rw [mod_pow_succ]
      calc (x.toNat % 256 ^ i + 256 ^ i * (lane x i).toNat) * s
          = x.toNat % 256 ^ i * s + 256 ^ i * ((lane x i).toNat * s) := by ring
        _ < 256 ^ i + 256 ^ i * ((lane x i).toNat * s) := by omega
        _ ≤ 256 ^ i + 256 ^ i * 255 := by
            exact Nat.add_le_add_left (Nat.mul_le_mul_left _ (by omega)) _
        _ = 256 ^ (i + 1) := by ring

/-- Every lane is multiplied by the byte `s`. -/
theorem lane_mul {x : BitVec w} (s : BitVec 8) {i : ℕ} (hi : 8 * (i + 1) ≤ w)
    (h : ∀ j < i, (lane x j).toNat * s.toNat < 256) :
    lane (x * s.setWidth w) i = lane x i * s := by
  have hlt := mod_mul_lt h
  have hs : (s.setWidth w).toNat = s.toNat := by
    rw [BitVec.toNat_setWidth, Nat.mod_eq_of_lt]
    exact s.isLt.trans_le (Nat.pow_le_pow_right two_pos (by omega))
  have hx := Nat.div_add_mod x.toNat (256 ^ i)
  apply BitVec.eq_of_toNat_eq
  rw [toNat_lane, BitVec.toNat_mul, hs, div_mod_of_le hi, BitVec.toNat_mul, toNat_lane]
  have hsplit : x.toNat * s.toNat =
      x.toNat % 256 ^ i * s.toNat + 256 ^ i * (x.toNat / 256 ^ i * s.toNat) := by
    conv_lhs => rw [← hx]
    ring
  rw [hsplit, Nat.add_mul_div_left _ _ (by positivity), Nat.div_eq_of_lt hlt, Nat.zero_add,
    Nat.mod_mul_mod]

/-- The lane at `i` lends one to the lanes below. -/
def borrows (x y : BitVec w) (i : ℕ) : Bool := decide (x.toNat % 256 ^ i < y.toNat % 256 ^ i)

@[simp] theorem borrows_zero (x y : BitVec w) : borrows x y 0 = false := by
  simp [borrows, Nat.mod_one]

theorem borrows_succ (x y : BitVec w) (i : ℕ) : borrows x y (i + 1) =
    decide ((lane x i).toNat < (lane y i).toNat + (borrows x y i).toNat) := by
  have hB : 0 < 256 ^ i := by positivity
  have hx := Nat.mod_lt x.toNat hB
  have hy := Nat.mod_lt y.toNat hB
  have hmul : ∀ {a b : ℕ}, a < b → 256 ^ i * a + 256 ^ i ≤ 256 ^ i * b := by
    intro a b hab
    rw [← Nat.mul_succ]
    exact Nat.mul_le_mul_left _ hab
  unfold borrows
  rw [mod_pow_succ, mod_pow_succ, decide_eq_decide]
  rcases lt_trichotomy (lane x i).toNat (lane y i).toNat with hlt | heq | hgt
  · have := hmul hlt
    exact iff_of_true (by omega) (by omega)
  · rw [heq]
    by_cases hb : x.toNat % 256 ^ i < y.toNat % 256 ^ i <;> simp [hb]
  · have := hmul hgt
    refine iff_of_false (by omega) ?_
    have := Bool.toNat_le (decide (x.toNat % 256 ^ i < y.toNat % 256 ^ i))
    omega

/-- The lanes of a difference. -/
theorem lane_sub {x y : BitVec w} {i : ℕ} (hi : 8 * (i + 1) ≤ w) :
    lane (x - y) i = lane x i - lane y i - (BitVec.ofBool (borrows x y i)).setWidth 8 := by
  have hB : 0 < 256 ^ i := by positivity
  have hdvd : 256 ^ (i + 1) ∣ 2 ^ w := by
    rw [pow_256_eq]
    exact pow_dvd_pow 2 hi
  -- the lower lanes and the lane itself, with the carry between them
  have hsum : ∀ n, n ≤ i + 1 → ((x - y).toNat % 256 ^ n + y.toNat % 256 ^ n) % 256 ^ n =
      x.toNat % 256 ^ n := by
    intro n hn
    have hdvd' := (pow_dvd_pow 256 hn).trans hdvd
    rw [← Nat.add_mod, ← Nat.mod_mod_of_dvd _ hdvd', ← BitVec.toNat_add, BitVec.sub_add_cancel]
  have hcarry : (x - y).toNat % 256 ^ i + y.toNat % 256 ^ i =
      x.toNat % 256 ^ i + 256 ^ i * (borrows x y i).toNat := by
    have hlow := hsum i (Nat.le_succ i)
    have h1 := Nat.mod_lt (x - y).toNat hB
    have h2 := Nat.mod_lt y.toNat hB
    unfold borrows
    rcases Nat.lt_or_ge ((x - y).toNat % 256 ^ i + y.toNat % 256 ^ i) (256 ^ i) with hc | hc
    · rw [Nat.mod_eq_of_lt hc] at hlow
      rw [decide_eq_false (by omega)]
      exact hlow
    · rw [Nat.mod_eq_sub_mod hc, Nat.mod_eq_of_lt (by omega)] at hlow
      rw [decide_eq_true (by omega), Bool.toNat_true, Nat.mul_one]
      omega
  have hlane : ((lane (x - y) i).toNat + (borrows x y i).toNat + (lane y i).toNat) % 256 =
      (lane x i).toNat := by
    have hhigh := hsum (i + 1) le_rfl
    rw [mod_pow_succ, mod_pow_succ, mod_pow_succ,
      show (x - y).toNat % 256 ^ i + 256 ^ i * (lane (x - y) i).toNat +
          (y.toNat % 256 ^ i + 256 ^ i * (lane y i).toNat) =
        x.toNat % 256 ^ i + 256 ^ i * ((lane (x - y) i).toNat + (borrows x y i).toNat +
          (lane y i).toNat) by rw [Nat.mul_add, Nat.mul_add]; omega,
      pow_succ, Nat.mod_mul, Nat.add_mul_mod_self_left, Nat.mod_mod,
      Nat.add_mul_div_left _ _ hB, Nat.div_eq_of_lt (Nat.mod_lt _ hB), Nat.zero_add] at hhigh
    exact Nat.eq_of_mul_eq_mul_left hB (Nat.add_left_cancel hhigh)
  have hbyte : lane x i =
      lane (x - y) i + (BitVec.ofBool (borrows x y i)).setWidth 8 + lane y i := by
    have hbool : ∀ b : Bool, ((BitVec.ofBool b).setWidth 8).toNat = b.toNat := by decide
    apply BitVec.eq_of_toNat_eq
    rw [BitVec.toNat_add, BitVec.toNat_add, hbool, Nat.mod_add_mod]
    exact hlane.symm
  rw [hbyte, BitVec.add_sub_cancel, BitVec.add_sub_cancel]

/-! ### Words of bytes -/

/-- The word with the given lanes, the first byte lowest. -/
def pack (w : ℕ) (l : List (BitVec 8)) : BitVec w :=
  BitVec.ofNat w (Nat.ofDigits 256 (l.map BitVec.toNat))

theorem ofDigits_lane : ∀ (l : List (BitVec 8)) (i : ℕ),
    Nat.ofDigits 256 (l.map BitVec.toNat) / 256 ^ i % 256 = (l.getD i 0).toNat
  | [], i => by simp
  | b :: l, 0 => by
      have := b.isLt
      rw [List.map_cons, Nat.ofDigits_cons, pow_zero, Nat.div_one, Nat.add_mul_mod_self_left]
      exact Nat.mod_eq_of_lt (by simpa using this)
  | b :: l, i + 1 => by
      have := b.isLt
      rw [List.map_cons, Nat.ofDigits_cons, pow_succ', ← Nat.div_div_eq_div_mul,
        Nat.add_mul_div_left _ _ (by decide), Nat.div_eq_of_lt (a := b.toNat) this,
        Nat.zero_add, ofDigits_lane l i]
      rfl

theorem lane_pack (l : List (BitVec 8)) {i : ℕ} (hi : 8 * (i + 1) ≤ w) :
    lane (pack w l) i = l.getD i 0 := by
  apply BitVec.eq_of_toNat_eq
  rw [toNat_lane, pack, BitVec.toNat_ofNat, div_mod_of_le hi, ofDigits_lane]

/-- Fill the lanes of a word, by doubling the part that is filled. -/
def fill (w : ℕ) : ℕ → ℕ → BitVec w → BitVec w
  | 0, _, x => x
  | n + 1, i, x => if i < w / 8 then fill w n (i * 2) (x ||| x <<< (8 * i)) else x

theorem lane_fill {k : ℕ} {b : BitVec 8} : ∀ (n t : ℕ) (x : BitVec (8 * 2 ^ k)), t ≤ k →
    k ≤ t + n → (∀ i < 2 ^ k, lane x i = if i < 2 ^ t then b else 0) →
    ∀ i < 2 ^ k, lane (fill (8 * 2 ^ k) n (2 ^ t) x) i = b
  | 0, t, x, ht, hn, hx, i, hi => by
      obtain rfl : t = k := by omega
      rw [fill, hx i hi, if_pos hi]
  | n + 1, t, x, ht, hn, hx, i, hi => by
      rw [fill, Nat.mul_div_cancel_left _ (by decide)]
      split_ifs with hlt
      · have htk := (Nat.pow_lt_pow_iff_right (by decide)).mp hlt
        rw [← pow_succ]
        refine lane_fill n (t + 1) _ htk (by omega) (fun i hi => ?_) i hi
        rw [lane_or, lane_shiftLeft _ _ (by omega), hx i hi,
          hx (i - 2 ^ t) (lt_of_le_of_lt (Nat.sub_le _ _) hi), pow_succ]
        split_ifs <;> first | omega | simp
      · have htk : t = k := by
          by_contra hne
          exact hlt (Nat.pow_lt_pow_right (by decide) (by omega))
        rw [hx i hi, if_pos (htk ▸ hi)]

end Lanes
