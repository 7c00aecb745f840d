import NvHashMap.Common
import NvHashMap.Lib.BitScan
import NvHashMap.Lib.ByteSum
import NvHashMap.Lib.Lanes

/-! # Bit utilities

`stdlib_ext.hpp`.  An unsigned type of `w` bits is `BitVec w`.

* Arithmetic on a type of less than 32 bits is done in `int`: an operand goes `up` to
  `max w 32` bits, and an assignment takes the result `down` again.
* What `popcount`, `countl_zero` and `countr_zero` do depends on the compiler builtins
  (`Builtins`); a builtin is what its documentation says.
* A shift count is an `int`.  `-s` overflows for the least one, which has undefined behaviour. -/

namespace Nvhm.Bits

variable {w : ℕ}

/-! ### Definitions -/

/-- Integer promotion. -/
def up (x : BitVec w) : BitVec (max w 32) := x.setWidth _

/-- The conversion back to the type. -/
def down (w : ℕ) (x : BitVec (max w 32)) : BitVec w := x.setWidth w

/-- The loop of `broadcast`, from the size `i` in bytes on. -/
def broadcastLoop : ℕ → ℕ → BitVec w → BitVec w
  | 0, _, y => y
  | n + 1, i, y =>
      if i < w / 8 then broadcastLoop n (i * 2) (down w (up y ||| up y <<< (i * 8))) else y

/-- `broadcast`. -/
def broadcast (w : ℕ) {u : ℕ} (x : BitVec u) : BitVec w := broadcastLoop w (u / 8) (x.setWidth w)

/-- `low_bits`. -/
def lowBits (x : BitVec w) : BitVec 64 := x.setWidth 64

/-- `high_bits`. -/
def highBits (x : BitVec w) : BitVec 64 := (x >>> 64).setWidth 64

/-- The number of bits that are set. -/
def bitCount (x : BitVec w) : ℕ := (List.range w).countP x.getLsbD

/-- The builtins that a compiler has: none, those for 32-bit and 64-bit words, or generic ones. -/
inductive Builtins where
  | none
  | words
  | generic
deriving DecidableEq, Repr

/-- `popcount_fallback`. -/
def popcountFallback (x : BitVec w) : ℕ :=
  let b01 := broadcast w 0x55#8
  let b0011 := broadcast w 0x33#8
  let b00001111 := broadcast w 0x0f#8
  let x := down w (up x - ((up x >>> 1) &&& up b01))
  let x := down w ((up x &&& up b0011) + ((up x >>> 2) &&& up b0011))
  let x := down w ((up x + (up x >>> 4)) &&& up b00001111)
  let x := down w (up x * up (broadcast w 0x01#8))
  let x := down w (up x >>> (w - 8))
  x.toNat

/-- `popcount`. -/
def popcount (b : Builtins) (x : BitVec w) : ℕ :=
  match b with
  | .generic => bitCount x
  | .words =>
      if w ≤ 32 then bitCount (x.setWidth 32)
      else if w ≤ 64 then bitCount (x.setWidth 64)
      else bitCount (lowBits x) + bitCount (highBits x)
  | .none => popcountFallback x

/-- The loop that copies the highest bit to all lower ones. -/
def smear : ℕ → ℕ → BitVec w → BitVec w
  | 0, _, x => x
  | n + 1, i, x => if i < w then smear n (i * 2) (down w (up x ||| up x >>> i)) else x

/-- `countl_zero_fallback`. -/
def countlZeroFallback (x : BitVec w) : ℕ := w - popcountFallback (smear w 1 x)

/-- `countl_zero`. -/
def countlZero (b : Builtins) (x : BitVec w) : ℕ :=
  match b with
  | .generic => x.clz.toNat
  | .words =>
      if w ≤ 32 then if x ≠ 0 then (x.setWidth 32).clz.toNat - (32 - w) else w
      else if w ≤ 64 then if x ≠ 0 then (x.setWidth 64).clz.toNat else w
      else
        let lo := lowBits x
        let hi := highBits x
        if hi ≠ 0 then hi.clz.toNat else 64 + if lo ≠ 0 then lo.clz.toNat else 64
  | .none => countlZeroFallback x

/-- `countr_zero_fallback`. -/
def countrZeroFallback (x : BitVec w) : ℕ :=
  let z := if x ≠ 0 then 1 else 0
  let x := if x ≠ 0 then down w (up x ^^^ (up x - 1)) else broadcast w 0xff#8
  popcountFallback x - z

/-- `countr_zero`. -/
def countrZero (b : Builtins) (x : BitVec w) : ℕ :=
  match b with
  | .generic => x.ctz.toNat
  | .words =>
      if w ≤ 16 then (x.setWidth 32 ||| 1#32 <<< w).ctz.toNat
      else if w ≤ 32 then if x ≠ 0 then (x.setWidth 32).ctz.toNat else w
      else if w ≤ 64 then if x ≠ 0 then (x.setWidth 64).ctz.toNat else w
      else
        let lo := lowBits x
        let hi := highBits x
        if lo ≠ 0 then lo.ctz.toNat else 64 + if hi ≠ 0 then hi.ctz.toNat else 64
  | .none => countrZeroFallback x

/-- `rotl_fallback`. -/
def rotlFallback (x : BitVec w) (s : BitVec 32) : Except Err (BitVec w) :=
  if s = BitVec.intMin 32 then .error .overflow
  else
    let n := BitVec.ofNat 32 w
    .ok (down w (up x <<< (s &&& (n - 1)).toNat ||| up x >>> (-s &&& (n - 1)).toNat))

/-- `rotr_fallback`. -/
def rotrFallback (x : BitVec w) (s : BitVec 32) : Except Err (BitVec w) :=
  if s = BitVec.intMin 32 then .error .overflow
  else
    let n := BitVec.ofNat 32 w
    .ok (down w (up x >>> (s &&& (n - 1)).toNat ||| up x <<< (-s &&& (n - 1)).toNat))

/-- `bit_ceil_fallback`. -/
def bitCeilFallback (x : BitVec w) : BitVec w :=
  let x := smear w 1 (x - 1) + 1
  if x ≤ 1 then 1 else x

/-- `bit_ceil`. -/
def bitCeil (b : Builtins) (x : BitVec w) : BitVec w :=
  if 1 < x then down w (up 1#w <<< (w - countlZero b (x - 1))) else 1

/-! ### Promotion -/

theorem toNat_up (x : BitVec w) : (up x).toNat = x.toNat := by
  rw [up, BitVec.toNat_setWidth, Nat.mod_eq_of_lt]
  exact x.isLt.trans_le (Nat.pow_le_pow_right two_pos (le_max_left w 32))

theorem toNat_down (x : BitVec (max w 32)) : (down w x).toNat = x.toNat % 2 ^ w := by
  rw [down, BitVec.toNat_setWidth]

theorem getLsbD_up (x : BitVec w) (i : ℕ) : (up x).getLsbD i = x.getLsbD i := by
  rw [BitVec.getLsbD, BitVec.getLsbD, toNat_up]

theorem getLsbD_down (x : BitVec (max w 32)) {i : ℕ} (hi : i < w) :
    (down w x).getLsbD i = x.getLsbD i := by
  rw [down, BitVec.getLsbD_setWidth, decide_eq_true hi, Bool.true_and]

theorem down_or (x y : BitVec (max w 32)) : down w (x ||| y) = down w x ||| down w y :=
  BitVec.setWidth_or

theorem down_up (x : BitVec w) : down w (up x) = x := by
  apply BitVec.eq_of_toNat_eq
  rw [toNat_down, toNat_up, Nat.mod_eq_of_lt x.isLt]

theorem down_up_shiftLeft (x : BitVec w) (s : ℕ) : down w (up x <<< s) = x <<< s := by
  refine BitVec.eq_of_getLsbD_eq fun i hi => ?_
  rw [getLsbD_down _ hi, BitVec.getLsbD_shiftLeft, BitVec.getLsbD_shiftLeft, getLsbD_up,
    decide_eq_true hi, decide_eq_true (hi.trans_le (le_max_left w 32))]

theorem down_up_ushiftRight (x : BitVec w) (s : ℕ) : down w (up x >>> s) = x >>> s := by
  refine BitVec.eq_of_getLsbD_eq fun i hi => ?_
  rw [getLsbD_down _ hi, BitVec.getLsbD_ushiftRight, BitVec.getLsbD_ushiftRight, getLsbD_up]

/-! ### Broadcasting -/

/-- The loop repeats the lowest `8 * 2 ^ t` bits. -/
theorem getLsbD_broadcastLoop {k : ℕ} (p : ℕ → Bool) : ∀ (n t : ℕ) (y : BitVec (8 * 2 ^ k)),
    t ≤ k → k ≤ t + n → (∀ i, p (8 * 2 ^ t + i) = p i) →
    (∀ i < 8 * 2 ^ k, y.getLsbD i = (decide (i < 8 * 2 ^ t) && p i)) →
    ∀ i < 8 * 2 ^ k, (broadcastLoop n (2 ^ t) y).getLsbD i = p i
  | 0, t, y, ht, hn, _, hy, i, hi => by
      obtain rfl : t = k := by omega
      rw [broadcastLoop, hy i hi, decide_eq_true hi, Bool.true_and]
  | n + 1, t, y, ht, hn, hp, hy, i, hi => by
      rw [broadcastLoop, Nat.mul_div_cancel_left _ (by decide)]
      split_ifs with hlt
      · have htk := (Nat.pow_lt_pow_iff_right (by decide)).mp hlt
        rw [← pow_succ]
        refine getLsbD_broadcastLoop p n (t + 1) _ htk (by omega) (fun i => ?_) (fun i hi => ?_) i hi
        · rw [pow_succ, show 8 * (2 ^ t * 2) + i = 8 * 2 ^ t + (8 * 2 ^ t + i) by omega, hp, hp]
        · rw [down_or, down_up, down_up_shiftLeft, BitVec.getLsbD_or, BitVec.getLsbD_shiftLeft,
            hy i hi, hy (i - 2 ^ t * 8) (by omega), decide_eq_true hi, Bool.true_and, pow_succ]
          rcases Nat.lt_or_ge i (8 * 2 ^ t) with hlow | hhigh
          · simp [hlow, show i < 2 ^ t * 8 by omega, show i < 8 * (2 ^ t * 2) by omega]
          · obtain ⟨d, rfl⟩ := Nat.exists_eq_add_of_le hhigh
            rw [show 8 * 2 ^ t + d - 2 ^ t * 8 = d by omega, hp]
            rw [decide_eq_false (by omega : ¬ 8 * 2 ^ t + d < 8 * 2 ^ t),
              decide_eq_false (by omega : ¬ 8 * 2 ^ t + d < 2 ^ t * 8), Bool.false_and,
              Bool.false_or, Bool.not_false, Bool.true_and]
            congr 1
            exact decide_eq_decide.mpr (by omega)
      · have htk : t = k := by
          by_contra hne
          exact hlt (Nat.pow_lt_pow_right (by decide) (by omega))
        rw [hy i hi, htk, decide_eq_true hi, Bool.true_and]

/-- `broadcast` repeats the pattern. -/
theorem getLsbD_broadcast {a k : ℕ} (ha : a ≤ k) (x : BitVec (8 * 2 ^ a)) {i : ℕ}
    (hi : i < 8 * 2 ^ k) :
    (broadcast (8 * 2 ^ k) x).getLsbD i = x.getLsbD (i % (8 * 2 ^ a)) := by
  have hk : k ≤ 8 * 2 ^ k := by
    have := Nat.lt_two_pow_self (n := k)
    omega
  rw [broadcast, Nat.mul_div_cancel_left _ (by decide)]
  refine getLsbD_broadcastLoop (fun i => x.getLsbD (i % (8 * 2 ^ a))) _ a _ ha (by omega)
    (fun i => by rw [Nat.add_mod_left]) (fun i hi => ?_) i hi
  rw [BitVec.getLsbD_setWidth, decide_eq_true hi, Bool.true_and]
  rcases Nat.lt_or_ge i (8 * 2 ^ a) with hlt | hge
  · rw [decide_eq_true hlt, Nat.mod_eq_of_lt hlt, Bool.true_and]
  · rw [BitVec.getLsbD_of_ge _ _ hge, decide_eq_false (not_lt.mpr hge), Bool.false_and]

/-! ### Counting set bits -/

theorem two_pow_eq (k : ℕ) : 2 ^ (8 * 2 ^ k) = 256 ^ 2 ^ k := by
  rw [pow_mul]
  rfl

theorem toNat_broadcast (k : ℕ) (c : BitVec 8) :
    (broadcast (8 * 2 ^ k) c).toNat = ByteSum.repeatByte (2 ^ k) c.toNat := by
  refine Nat.eq_of_testBit_eq fun i => ?_
  rcases Nat.lt_or_ge i (8 * 2 ^ k) with hi | hi
  · rw [ByteSum.testBit_repeatByte c.isLt _ hi]
    exact getLsbD_broadcast (a := 0) (Nat.zero_le k) c hi
  · have hlt : ByteSum.repeatByte (2 ^ k) c.toNat < 2 ^ i :=
      (ByteSum.repeatByte_lt c.isLt _).trans_le
        (by rw [← two_pow_eq]; exact Nat.pow_le_pow_right two_pos hi)
    rw [Nat.testBit_lt_two_pow hlt]
    exact BitVec.getLsbD_of_ge _ _ hi

theorem bitCount_eq (x : BitVec w) : bitCount x = ByteSum.bitCount w x.toNat := rfl

theorem toNat_down_of_lt {x : BitVec (max w 32)} {n : ℕ} (h : x.toNat = n) (hn : n < 2 ^ w) :
    (down w x).toNat = n := by
  rw [toNat_down, h, Nat.mod_eq_of_lt hn]

/-- No step of the parallel sums leaves the type. -/
theorem popcountFallback_toNat {k : ℕ} (x : BitVec (8 * 2 ^ k)) : popcountFallback x =
    ByteSum.bitsOfBytes (2 ^ k) x.toNat * ByteSum.repeatByte (2 ^ k) 1 % 2 ^ (8 * 2 ^ k) /
      2 ^ (8 * 2 ^ k - 8) := by
  have hw : 2 ^ (8 * 2 ^ k) ≤ 2 ^ max (8 * 2 ^ k) 32 :=
    Nat.pow_le_pow_right two_pos (le_max_left _ _)
  have hadd := ByteSum.repeatByte_add (2 ^ k) 0x66 0x66
  have hsum := ByteSum.repeatByte_lt (show 0x66 + 0x66 < 256 by decide) (2 ^ k)
  rw [← two_pow_eq] at hsum
  unfold popcountFallback
  dsimp only
  generalize hs₁ : down _ (up x - ((up x >>> 1) &&& up (broadcast _ 0x55#8))) = s₁
  have h₁ : s₁.toNat = ByteSum.pairs (2 ^ k) x.toNat := by
    rw [← hs₁]
    refine toNat_down_of_lt ?_ ((Nat.sub_le _ _).trans_lt x.isLt)
    have hand : ((up x >>> 1) &&& up (broadcast _ 0x55#8)).toNat =
        (x.toNat / 2) &&& ByteSum.repeatByte (2 ^ k) 0x55 := by
      rw [BitVec.toNat_and, BitVec.toNat_ushiftRight, toNat_up, toNat_up, toNat_broadcast,
        Nat.shiftRight_eq_div_pow]
      rfl
    have hle : (x.toNat / 2) &&& ByteSum.repeatByte (2 ^ k) 0x55 ≤ x.toNat :=
      Nat.and_le_left.trans (Nat.div_le_self _ _)
    rw [BitVec.toNat_sub_of_le (by rw [BitVec.le_def, hand, toNat_up]; exact hle), hand, toNat_up]
    rfl
  generalize hs₂ : down _ ((up s₁ &&& up (broadcast _ 0x33#8)) +
    ((up s₁ >>> 2) &&& up (broadcast _ 0x33#8))) = s₂
  have h₂ : s₂.toNat = ByteSum.nibbles (2 ^ k) s₁.toNat := by
    have hle := ByteSum.nibbles_le (2 ^ k) s₁.toNat
    rw [← hs₂]
    refine toNat_down_of_lt ?_ (by omega)
    rw [BitVec.toNat_add, BitVec.toNat_and, BitVec.toNat_and, BitVec.toNat_ushiftRight, toNat_up,
      toNat_up, toNat_broadcast, Nat.shiftRight_eq_div_pow]
    exact Nat.mod_eq_of_lt (hle.trans_lt (by omega))
  generalize hs₃ : down _ ((up s₂ + (up s₂ >>> 4)) &&& up (broadcast _ 0x0f#8)) = s₃
  have h₃ : s₃.toNat = ByteSum.bytes (2 ^ k) s₂.toNat := by
    have hle := ByteSum.nibbles_le (2 ^ k) s₁.toNat
    rw [← h₂] at hle
    have hmod : (s₂.toNat + s₂.toNat / 2 ^ 4) % 2 ^ max (8 * 2 ^ k) 32 =
        s₂.toNat + s₂.toNat / 16 := Nat.mod_eq_of_lt (by omega)
    rw [← hs₃]
    refine toNat_down_of_lt ?_ (Nat.and_le_left.trans_lt (by omega))
    rw [BitVec.toNat_and, BitVec.toNat_add, BitVec.toNat_ushiftRight, toNat_up, toNat_up,
      toNat_broadcast, Nat.shiftRight_eq_div_pow, hmod]
    rfl
  have hdvd : 2 ^ (8 * 2 ^ k) ∣ 2 ^ max (8 * 2 ^ k) 32 := pow_dvd_pow 2 (le_max_left _ _)
  rw [down_up_ushiftRight, BitVec.toNat_ushiftRight, toNat_down, BitVec.toNat_mul, toNat_up,
    toNat_up, toNat_broadcast, Nat.mod_mod_of_dvd _ hdvd, Nat.shiftRight_eq_div_pow, h₃, h₂, h₁]
  rfl

theorem popcountFallback_eq {k : ℕ} (hk : k ≤ 4) (x : BitVec (8 * 2 ^ k)) :
    popcountFallback x = bitCount x := by
  have hpow : 2 ^ k ≤ 2 ^ 4 := Nat.pow_le_pow_right two_pos hk
  rw [popcountFallback_toNat, bitCount_eq, two_pow_eq]
  obtain ⟨n, hn⟩ : ∃ n, 2 ^ k = n + 1 := Nat.exists_eq_succ_of_ne_zero (Nat.two_pow_pos k).ne'
  generalize x.toNat = y
  rw [hn, show 8 * (n + 1) - 8 = 8 * n by omega, pow_mul 2 8 n]
  exact ByteSum.bitsOfBytes_mul (by omega) y

/-- The bits below an index. -/
theorem countP_lt : ∀ {n m : ℕ}, m ≤ n → (List.range n).countP (fun i => decide (i < m)) = m
  | 0, m, h => by simp; omega
  | n + 1, m, h => by
      rw [List.range_succ, List.countP_append, List.countP_singleton]
      rcases Nat.lt_or_ge n m with hlt | hge
      · obtain rfl : m = n + 1 := by omega
        rw [decide_eq_true hlt, if_pos rfl, List.countP_eq_length.mpr, List.length_range]
        intro i hi
        exact decide_eq_true ((List.mem_range.mp hi).trans hlt)
      · rw [countP_lt hge, decide_eq_false (not_lt.mpr hge), if_neg Bool.false_ne_true]
        rfl

/-- The two-word path. -/
theorem bitCount_words (x : BitVec 128) : bitCount x = bitCount (lowBits x) + bitCount (highBits x) := by
  have hlow : (List.range 64).countP x.getLsbD = bitCount (lowBits x) := by
    refine List.countP_congr fun i hi => ?_
    rw [lowBits, BitVec.getLsbD_setWidth, decide_eq_true (List.mem_range.mp hi), Bool.true_and]
  have hhigh : (List.range 64).countP (x.getLsbD ∘ (64 + ·)) = bitCount (highBits x) := by
    refine List.countP_congr fun i hi => ?_
    rw [highBits, BitVec.getLsbD_setWidth, BitVec.getLsbD_ushiftRight,
      decide_eq_true (List.mem_range.mp hi), Bool.true_and, Function.comp]
  have hrange : List.range (64 + 64) = List.range 64 ++ (List.range 64).map (64 + ·) :=
    List.range_add
  rw [← hlow, ← hhigh, ← List.countP_map, ← List.countP_append, ← hrange]
  rfl

theorem bitCount_setWidth {v : ℕ} (h : w ≤ v) (x : BitVec w) : bitCount (x.setWidth v) = bitCount x := by
  obtain ⟨d, rfl⟩ := Nat.exists_eq_add_of_le h
  have hlow : (List.range w).countP (x.setWidth (w + d)).getLsbD = (List.range w).countP x.getLsbD := by
    refine List.countP_congr fun i hi => ?_
    rw [BitVec.getLsbD_setWidth, decide_eq_true ((List.mem_range.mp hi).trans_le h), Bool.true_and]
  have hhigh : (List.range d).countP ((x.setWidth (w + d)).getLsbD ∘ (w + ·)) = 0 := by
    rw [List.countP_eq_zero]
    intro i _
    rw [Function.comp, BitVec.getLsbD_setWidth, BitVec.getLsbD_of_ge x _ (Nat.le_add_right w i),
      Bool.and_false]
    exact Bool.false_ne_true
  rw [bitCount, List.range_add, List.countP_append, List.countP_map, hlow, hhigh]
  rfl

theorem popcount_eq {k : ℕ} (hk : k ≤ 4) (b : Builtins) (x : BitVec (8 * 2 ^ k)) :
    popcount b x = bitCount x := by
  cases b with
  | none => exact popcountFallback_eq hk x
  | words =>
      simp only [popcount]
      split_ifs with h32 h64
      · exact bitCount_setWidth h32 x
      · exact bitCount_setWidth h64 x
      · obtain rfl : k = 4 := by
          by_contra hne
          have := Nat.pow_le_pow_right two_pos (show k ≤ 3 by omega)
          omega
        exact (bitCount_words x).symm
  | generic => rfl

/-! ### Leading zeros -/

theorem log2_eq {x : BitVec w} (hx : x ≠ 0) : x.clz.toNat + x.toNat.log2 + 1 = w := by
  have hw : 0 < w := by
    by_contra hc
    obtain rfl : w = 0 := by omega
    exact hx (BitVec.eq_of_getLsbD_eq fun i hi => absurd hi (Nat.not_lt_zero i))
  have hle := BitVec.two_pow_sub_clz_le_toNat_of_ne_zero hw hx
  have hlt := BitVec.toNat_lt_two_pow_sub_clz (x := x)
  have hne : x.toNat ≠ 0 := fun h => hx (BitVec.eq_of_toNat_eq h)
  have hclz : x.clz.toNat < w := by
    by_contra hc
    rw [Nat.sub_eq_zero_of_le (by omega)] at hlt
    omega
  have hlog := (Nat.log2_eq_iff hne).mpr ⟨hle, by rwa [show w - 1 - x.clz.toNat + 1 =
    w - x.clz.toNat by omega]⟩
  omega

theorem clz_zero : (0 : BitVec w).clz.toNat = w := by
  have h : (0#w).clz = w := BitVec.clz_eq_iff_eq_zero.mpr rfl
  rw [BitVec.natCast_eq_ofNat] at h
  rw [show (0 : BitVec w) = 0#w from rfl, h, BitVec.toNat_ofNat,
    Nat.mod_eq_of_lt Nat.lt_two_pow_self]

/-- The loop reaches every bit below a set one. -/
theorem getLsbD_smear {x : BitVec w} : ∀ (n t : ℕ) {y : BitVec w}, w ≤ 2 ^ (t + n) →
    (∀ j, y.getLsbD j = true ↔ ∃ d < 2 ^ t, x.getLsbD (j + d) = true) →
    ∀ j, (smear n (2 ^ t) y).getLsbD j = true ↔ ∃ d, x.getLsbD (j + d) = true
  | 0, t, y, hn, hy, j => by
      rw [smear, hy]
      refine ⟨fun ⟨d, _, hd⟩ => ⟨d, hd⟩, fun ⟨d, hd⟩ => ⟨d, ?_, hd⟩⟩
      have := BitVec.lt_of_getLsbD hd
      rw [Nat.add_zero] at hn
      omega
  | n + 1, t, y, hn, hy, j => by
      rw [smear]
      split_ifs with hlt
      · rw [← pow_succ]
        refine getLsbD_smear n (t + 1) (by rwa [Nat.add_assoc, Nat.add_comm 1 n]) (fun j => ?_) j
        rw [down_or, down_up, down_up_ushiftRight, BitVec.getLsbD_or, BitVec.getLsbD_ushiftRight,
          Bool.or_eq_true, hy, hy, pow_succ]
        constructor
        · rintro (⟨d, hd, hx⟩ | ⟨d, hd, hx⟩)
          · exact ⟨d, by omega, hx⟩
          · exact ⟨2 ^ t + d, by omega, by rwa [← Nat.add_assoc, Nat.add_comm j]⟩
        · rintro ⟨d, hd, hx⟩
          rcases Nat.lt_or_ge d (2 ^ t) with hlow | hhigh
          · exact Or.inl ⟨d, hlow, hx⟩
          · refine Or.inr ⟨d - 2 ^ t, by omega, ?_⟩
            rwa [show 2 ^ t + j + (d - 2 ^ t) = j + d by omega]
      · rw [hy]
        refine ⟨fun ⟨d, _, hd⟩ => ⟨d, hd⟩, fun ⟨d, hd⟩ => ⟨d, ?_, hd⟩⟩
        have := BitVec.lt_of_getLsbD hd
        omega

/-- All bits up to the highest one. -/
theorem smear_spec (x : BitVec w) (j : ℕ) :
    (smear w 1 x).getLsbD j = decide (x ≠ 0 ∧ j ≤ x.toNat.log2) := by
  have hw : w ≤ 2 ^ (0 + w) := by
    rw [Nat.zero_add]
    exact Nat.lt_two_pow_self.le
  have h := getLsbD_smear (x := x) w 0 (y := x) hw (fun j => by simp) j
  rw [Bool.eq_iff_iff, decide_eq_true_iff, ← pow_zero 2, h]
  constructor
  · rintro ⟨d, hd⟩
    have hne : x.toNat ≠ 0 := by
      intro h0
      rw [BitVec.getLsbD, h0, Nat.zero_testBit] at hd
      cases hd
    refine ⟨fun hx => hne (by rw [hx]; rfl), ?_⟩
    have hle := (Nat.le_log2 hne).mpr (Nat.ge_two_pow_of_testBit hd)
    omega
  · rintro ⟨hx, hj⟩
    have hne : x.toNat ≠ 0 := fun h => hx (BitVec.eq_of_toNat_eq h)
    refine ⟨x.toNat.log2 - j, ?_⟩
    rw [Nat.add_sub_cancel' hj]
    exact Nat.testBit_log2 hne

theorem countlZeroFallback_eq {k : ℕ} (hk : k ≤ 4) (x : BitVec (8 * 2 ^ k)) :
    countlZeroFallback x = x.clz.toNat := by
  rw [countlZeroFallback, popcountFallback_eq hk, bitCount]
  by_cases hx : x = 0
  · rw [hx, clz_zero, List.countP_eq_zero.mpr, Nat.sub_zero]
    intro j _
    rw [smear_spec, decide_eq_false (fun h => h.1 rfl)]
    exact Bool.false_ne_true
  · have hlog := log2_eq hx
    rw [List.countP_congr (q := fun j => decide (j < x.toNat.log2 + 1)), countP_lt (by omega)]
    · omega
    · intro j _
      rw [smear_spec, decide_eq_true_iff, decide_eq_true_iff]
      exact ⟨fun h => Nat.lt_succ_of_le h.2, fun h => ⟨hx, Nat.le_of_lt_succ h⟩⟩

/-- The number of leading zeros is given by the value. -/
theorem clz_add {v : ℕ} {x : BitVec w} {y : BitVec v} (hx : x ≠ 0) (h : y.toNat = x.toNat) :
    y.clz.toNat + w = x.clz.toNat + v := by
  have hy : y ≠ 0 := by
    rintro rfl
    exact hx (BitVec.eq_of_toNat_eq h.symm)
  have h1 := log2_eq hx
  have h2 := log2_eq hy
  rw [h] at h2
  omega

theorem toNat_highBits (x : BitVec 128) : (highBits x).toNat = x.toNat / 2 ^ 64 := by
  have hx := x.isLt
  rw [highBits, BitVec.toNat_setWidth, BitVec.toNat_ushiftRight, Nat.shiftRight_eq_div_pow,
    Nat.mod_eq_of_lt]
  omega

theorem toNat_lowBits (x : BitVec 128) : (lowBits x).toNat = x.toNat % 2 ^ 64 :=
  BitVec.toNat_setWidth ..

theorem clz_words (x : BitVec 128) : x.clz.toNat =
    if highBits x ≠ 0 then (highBits x).clz.toNat
    else 64 + if lowBits x ≠ 0 then (lowBits x).clz.toNat else 64 := by
  have hh := toNat_highBits x
  have hl := toNat_lowBits x
  have hlt := x.isLt
  split_ifs with hhi hlo
  · have hne : x ≠ 0 := by
      rintro rfl
      exact hhi (BitVec.eq_of_toNat_eq hh)
    have hhne : (highBits x).toNat ≠ 0 := fun h => hhi (BitVec.eq_of_toNat_eq h)
    have hxne : x.toNat ≠ 0 := fun h => hne (BitVec.eq_of_toNat_eq h)
    have hlog : x.toNat.log2 = (highBits x).toNat.log2 + 64 := by
      obtain ⟨h1, h2⟩ := (Nat.log2_eq_iff hhne).mp rfl
      refine (Nat.log2_eq_iff hxne).mpr ⟨?_, ?_⟩
      · rw [pow_add]
        omega
      · rw [Nat.add_right_comm, pow_add]
        omega
    have h1 := log2_eq hne
    have h2 := log2_eq hhi
    omega
  · have hhz : (highBits x).toNat = 0 := by
      rw [not_not.mp hhi]
      rfl
    have hval : (lowBits x).toNat = x.toNat := by omega
    have hxne : x ≠ 0 := by
      rintro rfl
      exact hlo (BitVec.eq_of_toNat_eq hval)
    have := clz_add hxne hval
    omega
  · have hhz : (highBits x).toNat = 0 := by
      rw [not_not.mp hhi]
      rfl
    have hlz : (lowBits x).toNat = 0 := by
      rw [not_not.mp hlo]
      rfl
    have hxz : x = 0 := BitVec.eq_of_toNat_eq (show x.toNat = 0 by omega)
    rw [hxz, clz_zero]

/-- The widths of the types above 32 bits. -/
theorem width_cases {k : ℕ} (hk : k ≤ 4) (h : 32 < 8 * 2 ^ k) : k = 3 ∨ k = 4 := by
  by_contra hne
  have := Nat.pow_le_pow_right two_pos (show k ≤ 2 by omega)
  omega

theorem toNat_setWidth_of_le {v : ℕ} (h : w ≤ v) (x : BitVec w) : (x.setWidth v).toNat = x.toNat := by
  rw [BitVec.toNat_setWidth, Nat.mod_eq_of_lt]
  exact x.isLt.trans_le (Nat.pow_le_pow_right two_pos h)

theorem countlZero_eq {k : ℕ} (hk : k ≤ 4) (b : Builtins) (x : BitVec (8 * 2 ^ k)) :
    countlZero b x = x.clz.toNat := by
  cases b with
  | none => exact countlZeroFallback_eq hk x
  | words =>
      have hzero : ¬ x ≠ 0 → 8 * 2 ^ k = x.clz.toNat := fun hx => by
        rw [not_not.mp hx, clz_zero]
      simp only [countlZero]
      by_cases h32 : 8 * 2 ^ k ≤ 32
      · rw [if_pos h32]
        split_ifs with hx
        · have := clz_add hx (toNat_setWidth_of_le h32 x)
          omega
        · exact hzero hx
      · rw [if_neg h32]
        obtain rfl | rfl := width_cases hk (not_le.mp h32)
        · rw [if_pos (by decide)]
          split_ifs with hx
          · have := clz_add hx (toNat_setWidth_of_le (show 8 * 2 ^ 3 ≤ 64 by decide) x)
            omega
          · exact hzero hx
        · rw [if_neg (by decide)]
          exact (clz_words x).symm
  | generic => rfl

/-! ### Trailing zeros -/

theorem ctz_zero : (0 : BitVec w).ctz.toNat = w := by
  have hrev : (0 : BitVec w).reverse = 0 := BitVec.reverse_eq_zero_iff.mpr rfl
  rw [BitVec.ctz_eq_reverse_clz, hrev, clz_zero]

/-- More bits above do not matter. -/
theorem ctz_eq_of_getLsbD {v : ℕ} {x : BitVec w} {y : BitVec v} (hx : x ≠ 0)
    (h : ∀ i < w, y.getLsbD i = x.getLsbD i) : y.ctz.toNat = x.ctz.toNat := by
  have hlt := BitScan.ctz_lt hx
  refine BitScan.ctz_eq ?_ fun i hi => ?_
  · rw [h _ hlt]
    exact BitVec.getLsbD_true_ctz_of_ne_zero hx
  · rw [h _ (hi.trans hlt)]
    exact BitVec.getLsbD_false_of_lt_ctz hi

theorem getLsbD_setWidth_of_lt {v i : ℕ} (x : BitVec w) (hi : i < v) :
    (x.setWidth v).getLsbD i = x.getLsbD i := by
  rw [BitVec.getLsbD_setWidth, decide_eq_true hi, Bool.true_and]

theorem up_ne_zero {x : BitVec w} (hx : x ≠ 0) : up x ≠ 0 := by
  intro h
  have hval := toNat_up x
  rw [h] at hval
  exact hx (BitVec.eq_of_toNat_eq hval.symm)

theorem countrZeroFallback_eq {k : ℕ} (hk : k ≤ 4) (x : BitVec (8 * 2 ^ k)) :
    countrZeroFallback x = x.ctz.toNat := by
  unfold countrZeroFallback
  dsimp only
  rw [popcountFallback_eq hk, bitCount]
  split_ifs with hx
  · have hup := up_ne_zero hx
    have hctz : (up x).ctz.toNat = x.ctz.toNat := ctz_eq_of_getLsbD hx fun i _ => getLsbD_up x i
    have hlt := BitScan.ctz_lt hx
    rw [List.countP_congr (q := fun j => decide (j < x.ctz.toNat + 1)), countP_lt (by omega),
      Nat.add_sub_cancel]
    intro j hj
    rw [getLsbD_down _ (List.mem_range.mp hj), BitVec.getLsbD_xor,
      show (1 : BitVec (max (8 * 2 ^ k) 32)) = 1#_ from rfl, BitScan.getLsbD_sub_one hup, hctz,
      decide_eq_true_iff]
    split_ifs with hlow heq
    · rw [BitVec.getLsbD_false_of_lt_ctz (by rwa [hctz])]
      exact iff_of_true rfl (by omega)
    · rw [heq, getLsbD_up, BitVec.getLsbD_true_ctz_of_ne_zero hx]
      exact iff_of_true rfl (by omega)
    · rw [Bool.xor_self]
      exact iff_of_false Bool.false_ne_true (by omega)
  · rw [not_not.mp hx, ctz_zero, Nat.sub_zero, List.countP_eq_length.mpr, List.length_range]
    intro j hj
    rw [getLsbD_broadcast (a := 0) (Nat.zero_le k) _ (List.mem_range.mp hj)]
    have hall : ∀ i < 8, (0xff#8).getLsbD i = true := by decide
    exact hall _ (Nat.mod_lt j (by decide))

theorem ctz_words (x : BitVec 128) : x.ctz.toNat =
    if lowBits x ≠ 0 then (lowBits x).ctz.toNat
    else 64 + if highBits x ≠ 0 then (highBits x).ctz.toNat else 64 := by
  have hlow : ∀ i < 64, x.getLsbD i = (lowBits x).getLsbD i := fun i hi =>
    (getLsbD_setWidth_of_lt x hi).symm
  have hhigh : ∀ i < 64, x.getLsbD (64 + i) = (highBits x).getLsbD i := fun i hi => by
    rw [highBits, getLsbD_setWidth_of_lt _ hi, BitVec.getLsbD_ushiftRight]
  split_ifs with hlo hhi
  · exact ctz_eq_of_getLsbD hlo hlow
  · have hlt := BitScan.ctz_lt hhi
    refine BitScan.ctz_eq ?_ fun i hi => ?_
    · rw [hhigh _ hlt]
      exact BitVec.getLsbD_true_ctz_of_ne_zero hhi
    · rcases Nat.lt_or_ge i 64 with h64 | h64
      · rw [hlow i h64, not_not.mp hlo]
        exact BitVec.getLsbD_zero
      · obtain ⟨d, rfl⟩ := Nat.exists_eq_add_of_le h64
        rw [hhigh d (by omega)]
        exact BitVec.getLsbD_false_of_lt_ctz (by omega)
  · have hzero : x = 0 := by
      refine BitVec.eq_of_getLsbD_eq fun i hi => ?_
      rw [show (0 : BitVec 128).getLsbD i = false from BitVec.getLsbD_zero]
      rcases Nat.lt_or_ge i 64 with h64 | h64
      · rw [hlow i h64, not_not.mp hlo]
        exact BitVec.getLsbD_zero
      · obtain ⟨d, rfl⟩ := Nat.exists_eq_add_of_le h64
        rw [hhigh d (by omega), not_not.mp hhi]
        exact BitVec.getLsbD_zero
    rw [hzero, ctz_zero]

theorem countrZero_eq {k : ℕ} (hk : k ≤ 4) (b : Builtins) (x : BitVec (8 * 2 ^ k)) :
    countrZero b x = x.ctz.toNat := by
  cases b with
  | none => exact countrZeroFallback_eq hk x
  | words =>
      have hzero : ¬ x ≠ 0 → 8 * 2 ^ k = x.ctz.toNat := fun hx => by
        rw [not_not.mp hx, ctz_zero]
      have hsame : ∀ {v : ℕ}, 8 * 2 ^ k ≤ v → x ≠ 0 → (x.setWidth v).ctz.toNat = x.ctz.toNat :=
        fun hv hx => ctz_eq_of_getLsbD hx fun i hi => getLsbD_setWidth_of_lt x (hi.trans_le hv)
      simp only [countrZero]
      by_cases h16 : 8 * 2 ^ k ≤ 16
      · -- the bit above the word stops the count
        rw [if_pos h16]
        have hbit : ∀ i ≤ 8 * 2 ^ k, (x.setWidth 32 ||| 1#32 <<< (8 * 2 ^ k)).getLsbD i =
            (x.getLsbD i || decide (i = 8 * 2 ^ k)) := by
          intro i hi
          rw [BitVec.getLsbD_or, getLsbD_setWidth_of_lt x (by omega), ← BitVec.twoPow_eq,
            BitVec.getLsbD_twoPow, decide_eq_true (by omega : 8 * 2 ^ k < 32), Bool.true_and]
          congr 1
          exact decide_eq_decide.mpr eq_comm
        by_cases hx : x = 0
        · rw [hx, ctz_zero, ← hx]
          refine BitScan.ctz_eq ?_ fun i hi => ?_
          · rw [hbit _ le_rfl, decide_eq_true rfl, Bool.or_true]
          · rw [hbit i hi.le, hx, decide_eq_false (Nat.ne_of_lt hi), Bool.or_false]
            exact BitVec.getLsbD_zero
        · refine ctz_eq_of_getLsbD hx fun i hi => ?_
          rw [hbit i hi.le, decide_eq_false (Nat.ne_of_lt hi), Bool.or_false]
      · rw [if_neg h16]
        by_cases h32 : 8 * 2 ^ k ≤ 32
        · rw [if_pos h32]
          split_ifs with hx
          · exact hsame h32 hx
          · exact hzero hx
        · rw [if_neg h32]
          obtain rfl | rfl := width_cases hk (not_le.mp h32)
          · rw [if_pos (by decide)]
            split_ifs with hx
            · exact hsame (by decide) hx
            · exact hzero hx
          · rw [if_neg (by decide)]
            exact (ctz_words x).symm
  | generic => rfl

/-! ### Rotations -/

section Rotate
variable {k : ℕ} (hk : k ≤ 4) (s : BitVec 32)
include hk

/-- The low bits of a shift count. -/
theorem toNat_and_width : (s &&& (BitVec.ofNat 32 (8 * 2 ^ k) - 1)).toNat = s.toNat % (8 * 2 ^ k) := by
  have hpow : 2 ^ k ≤ 2 ^ 4 := Nat.pow_le_pow_right two_pos hk
  have hpos := Nat.two_pow_pos k
  have hn : (BitVec.ofNat 32 (8 * 2 ^ k)).toNat = 8 * 2 ^ k := by
    rw [BitVec.toNat_ofNat, Nat.mod_eq_of_lt (by omega)]
  have hmask : (BitVec.ofNat 32 (8 * 2 ^ k) - 1).toNat = 2 ^ (3 + k) - 1 := by
    rw [BitVec.toNat_sub_of_le (by
      rw [BitVec.le_def, hn]
      change 1 ≤ 8 * 2 ^ k
      omega), hn, pow_add]
    rfl
  rw [BitVec.toNat_and, hmask, Nat.and_two_pow_sub_one_eq_mod, pow_add]
  rfl

theorem toInt_emod : (s.toInt % ((8 * 2 ^ k : ℕ) : ℤ)).toNat = s.toNat % (8 * 2 ^ k) := by
  have hdvd : ((8 * 2 ^ k : ℕ) : ℤ) ∣ ((2 ^ 32 : ℕ) : ℤ) := by
    rw [Int.natCast_dvd_natCast, show 8 * 2 ^ k = 2 ^ (3 + k) by rw [pow_add]; rfl]
    exact pow_dvd_pow 2 (by omega)
  rw [BitVec.toInt_eq_toNat_bmod, Int.bmod_def]
  split_ifs
  · rw [← Int.emod_emod_of_dvd _ hdvd, Int.emod_emod_of_dvd _ (dvd_refl _),
      Int.emod_emod_of_dvd _ hdvd, ← Int.natCast_mod, Int.toNat_natCast]
  · rw [Int.sub_emod, Int.emod_emod_of_dvd _ hdvd, Int.emod_eq_zero_of_dvd hdvd, sub_zero,
      Int.emod_emod_of_dvd _ (dvd_refl _), ← Int.natCast_mod, Int.toNat_natCast]

/-- The two shift counts of a rotation. -/
theorem toNat_neg_and : (-s &&& (BitVec.ofNat 32 (8 * 2 ^ k) - 1)).toNat =
    if s.toNat % (8 * 2 ^ k) = 0 then 0 else 8 * 2 ^ k - s.toNat % (8 * 2 ^ k) := by
  have hdvd : 8 * 2 ^ k ∣ 2 ^ 32 := by
    rw [show 8 * 2 ^ k = 2 ^ (3 + k) by rw [pow_add]; rfl]
    exact pow_dvd_pow 2 (by omega)
  have hlt := s.isLt
  rw [toNat_and_width hk, BitVec.toNat_neg, Nat.mod_mod_of_dvd _ hdvd]
  obtain ⟨c, hc⟩ := hdvd
  have hdiv := Nat.div_add_mod s.toNat (8 * 2 ^ k)
  have hmod := Nat.mod_lt s.toNat (show 0 < 8 * 2 ^ k by positivity)
  have hq : s.toNat / (8 * 2 ^ k) < c := Nat.div_lt_of_lt_mul (by rwa [← hc])
  obtain ⟨d, rfl⟩ := Nat.exists_eq_add_of_lt hq
  rw [hc]
  generalize s.toNat / (8 * 2 ^ k) = q at hdiv ⊢
  generalize s.toNat % (8 * 2 ^ k) = r at hdiv hmod ⊢
  rw [← hdiv]
  generalize 8 * 2 ^ k = n at hmod ⊢
  have hsub : n * (q + d + 1) - (n * q + r) = n * d + (n - r) := by
    rw [Nat.mul_add, Nat.mul_add, Nat.mul_one]
    omega
  rw [hsub, Nat.mul_add_mod]
  split_ifs with hr
  · rw [hr, Nat.sub_zero, Nat.mod_self]
  · exact Nat.mod_eq_of_lt (by omega)

theorem rotlFallback_eq (x : BitVec (8 * 2 ^ k)) (hs : s ≠ BitVec.intMin 32) :
    rotlFallback x s = .ok (x.rotateLeft (s.toInt % ((8 * 2 ^ k : ℕ) : ℤ)).toNat) := by
  unfold rotlFallback
  dsimp only
  rw [if_neg hs, toInt_emod hk, toNat_and_width hk, toNat_neg_and hk, down_or, down_up_shiftLeft,
    down_up_ushiftRight, BitVec.rotateLeft_def, Nat.mod_mod]
  split_ifs with hr
  · rw [hr, Nat.sub_zero, BitVec.ushiftRight_eq_zero le_rfl, BitVec.shiftLeft_zero,
      BitVec.ushiftRight_zero, BitVec.or_self, BitVec.or_zero]
  · rfl

theorem rotrFallback_eq (x : BitVec (8 * 2 ^ k)) (hs : s ≠ BitVec.intMin 32) :
    rotrFallback x s = .ok (x.rotateRight (s.toInt % ((8 * 2 ^ k : ℕ) : ℤ)).toNat) := by
  unfold rotrFallback
  dsimp only
  rw [if_neg hs, toInt_emod hk, toNat_and_width hk, toNat_neg_and hk, down_or, down_up_shiftLeft,
    down_up_ushiftRight, BitVec.rotateRight_def, Nat.mod_mod]
  split_ifs with hr
  · rw [hr, Nat.sub_zero, BitVec.shiftLeft_eq_zero le_rfl, BitVec.shiftLeft_zero,
      BitVec.ushiftRight_zero, BitVec.or_self, BitVec.or_zero]
  · rfl

end Rotate

/-! ### The next power of two -/

theorem toNat_smear {x : BitVec w} (hx : x ≠ 0) : (smear w 1 x).toNat = 2 ^ (x.toNat.log2 + 1) - 1 := by
  refine Nat.eq_of_testBit_eq fun j => ?_
  rw [Nat.testBit_two_pow_sub_one]
  refine (smear_spec x j).trans (decide_eq_decide.mpr ?_)
  exact ⟨fun h => Nat.lt_succ_of_le h.2, fun h => ⟨hx, Nat.le_of_lt_succ h⟩⟩

section Ceil
variable {x : BitVec w} (hw : 2 ≤ w) (hfit : x.toNat ≤ 2 ^ (w - 1))
include hw hfit

omit hfit in
theorem toNat_one : (1 : BitVec w).toNat = 1 := by
  change (BitVec.ofNat w 1).toNat = 1
  rw [BitVec.toNat_ofNat, Nat.mod_eq_of_lt (Nat.one_lt_two_pow (by omega))]

/-- The exponent of the next power of two. -/
theorem ceil_spec (hx : 1 < x.toNat) : (x - 1) ≠ 0 ∧ (x - 1).toNat = x.toNat - 1 ∧
    (x - 1).toNat.log2 + 1 < w := by
  have hone := toNat_one hw
  have hsub : (x - 1).toNat = x.toNat - 1 := by
    rw [BitVec.toNat_sub_of_le (by rw [BitVec.le_def, hone]; omega), hone]
  have hne : (x - 1).toNat ≠ 0 := by omega
  refine ⟨fun h => hne (by rw [h]; rfl), hsub, ?_⟩
  have hlog := (Nat.log2_lt hne).mpr (show (x - 1).toNat < 2 ^ (w - 1) by omega)
  omega

theorem bitCeilFallback_eq : (bitCeilFallback x).toNat = PowTwo.ceilPow x.toNat := by
  have hone := toNat_one hw
  have hpow : 1 < 2 ^ w := Nat.one_lt_two_pow (by omega)
  unfold bitCeilFallback PowTwo.ceilPow
  dsimp only
  simp only [BitVec.le_def, hone]
  rcases Nat.lt_or_ge 1 x.toNat with hx | hx
  · obtain ⟨hne, hsub, hlt⟩ := ceil_spec hw hfit hx
    have hsum : (smear w 1 (x - 1) + 1).toNat = 2 ^ ((x - 1).toNat.log2 + 1) := by
      have hlt' := Nat.pow_lt_pow_right (show 1 < 2 by decide) hlt
      have hpos := Nat.two_pow_pos ((x - 1).toNat.log2 + 1)
      rw [BitVec.toNat_add, toNat_smear hne, hone, Nat.sub_add_cancel hpos, Nat.mod_eq_of_lt hlt']
    have hbig : 1 < 2 ^ ((x - 1).toNat.log2 + 1) := Nat.one_lt_two_pow (Nat.succ_ne_zero _)
    rw [hsum, if_neg (not_le.mpr hbig), if_pos hx, hsum, hsub]
  · have hle : (smear w 1 (x - 1) + 1).toNat ≤ 1 := by
      obtain h0 | h1 : x.toNat = 0 ∨ x.toNat = 1 := by omega
      · -- zero wraps around to the greatest number, and back
        have hmax : (x - 1).toNat = 2 ^ w - 1 := by
          rw [BitVec.toNat_sub, hone, h0, Nat.add_zero, Nat.mod_eq_of_lt (by omega)]
        have hne : x - 1 ≠ 0 := fun h => by
          rw [h] at hmax
          change 0 = _ at hmax
          omega
        have hdouble : 2 ^ w = 2 * 2 ^ (w - 1) := by
          rw [← pow_succ', Nat.sub_add_cancel (by omega)]
        have hlog : (2 ^ w - 1).log2 = w - 1 := by
          refine (Nat.log2_eq_iff (by omega)).mpr ⟨by omega, ?_⟩
          rw [Nat.sub_add_cancel (by omega)]
          omega
        rw [BitVec.toNat_add, toNat_smear hne, hmax, hlog, hone, Nat.sub_add_cancel (by omega),
          Nat.sub_add_cancel (by omega), Nat.mod_self]
        exact Nat.zero_le 1
      · obtain rfl : x = 1 := BitVec.eq_of_toNat_eq (h1.trans hone.symm)
        have hzero : smear w 1 (1 - 1 : BitVec w) = 0 := by
          refine BitVec.eq_of_getLsbD_eq fun j _ => ?_
          rw [smear_spec, BitVec.sub_self, decide_eq_false fun h => h.1 rfl]
          exact BitVec.getLsbD_zero.symm
        rw [hzero, BitVec.toNat_add, hone]
        exact Nat.mod_le _ _
    rw [if_pos hle, if_neg (not_lt.mpr hx), hone]

theorem bitCeil_eq {b : Builtins} (hclz : countlZero b (x - 1) = (x - 1).clz.toNat) :
    (bitCeil b x).toNat = PowTwo.ceilPow x.toNat := by
  have hone := toNat_one hw
  unfold bitCeil PowTwo.ceilPow
  rw [hclz]
  simp only [BitVec.lt_def, hone]
  rcases Nat.lt_or_ge 1 x.toNat with hx | hx
  · obtain ⟨hne, hsub, hlt⟩ := ceil_spec hw hfit hx
    have hlog := log2_eq hne
    rw [if_pos hx, if_pos hx, down_up_shiftLeft,
      show w - (x - 1).clz.toNat = (x - 1).toNat.log2 + 1 by omega, ← hsub, ← BitVec.twoPow_eq,
      BitVec.toNat_twoPow, Nat.mod_eq_of_lt (Nat.pow_lt_pow_right (by decide) hlt)]
  · rw [if_neg (not_lt.mpr hx), if_neg (not_lt.mpr hx), hone]

end Ceil

/-! ### Main result -/

/-- For every unsigned type of 8 to 128 bits: `broadcast` repeats its pattern; `popcount`,
`countl_zero` and `countr_zero` count, with every set of builtins and without; `bit_ceil` and its
fallback give the least power of two that is at least `x` and at least one, if that fits the type;
and the fallbacks of `rotl` and `rotr` rotate by the shift count modulo the width, if and only if
the shift count is not the least `int`. -/
theorem bit_utilities_iff {k : ℕ} (hk : k ≤ 4) (x : BitVec (8 * 2 ^ k)) (s : BitVec 32) :
    ((∀ a ≤ k, ∀ p : BitVec (8 * 2 ^ a), ∀ i < 8 * 2 ^ k,
        (broadcast (8 * 2 ^ k) p).getLsbD i = p.getLsbD (i % (8 * 2 ^ a))) ∧
      (popcountFallback x = bitCount x ∧ ∀ b, popcount b x = bitCount x) ∧
      (countlZeroFallback x = x.clz.toNat ∧ ∀ b, countlZero b x = x.clz.toNat) ∧
      (countrZeroFallback x = x.ctz.toNat ∧ ∀ b, countrZero b x = x.ctz.toNat) ∧
      (x.toNat ≤ 2 ^ (8 * 2 ^ k - 1) → (bitCeilFallback x).toNat = PowTwo.ceilPow x.toNat ∧
        ∀ b, (bitCeil b x).toNat = PowTwo.ceilPow x.toNat) ∧
      rotlFallback x s = .ok (x.rotateLeft (s.toInt % ((8 * 2 ^ k : ℕ) : ℤ)).toNat) ∧
      rotrFallback x s = .ok (x.rotateRight (s.toInt % ((8 * 2 ^ k : ℕ) : ℤ)).toNat)) ↔
    s ≠ BitVec.intMin 32 := by
  constructor
  · rintro ⟨-, -, -, -, -, hrot, -⟩ hs
    unfold rotlFallback at hrot
    rw [if_pos hs] at hrot
    cases hrot
  · intro hs
    have hw : 2 ≤ 8 * 2 ^ k := by
      have := Nat.two_pow_pos k
      omega
    exact ⟨fun a ha p i hi => getLsbD_broadcast ha p hi,
      ⟨popcountFallback_eq hk x, fun b => popcount_eq hk b x⟩,
      ⟨countlZeroFallback_eq hk x, fun b => countlZero_eq hk b x⟩,
      ⟨countrZeroFallback_eq hk x, fun b => countrZero_eq hk b x⟩,
      fun hfit => ⟨bitCeilFallback_eq hw hfit,
        fun b => bitCeil_eq hw hfit (countlZero_eq hk b (x - 1))⟩,
      rotlFallback_eq hk s x hs, rotrFallback_eq hk s x hs⟩

/-- A byte, rotated by -3. -/
theorem bit_utilities_words :
    rotlFallback (0x81#8) (-3#32) = .ok 0x30#8 ∧ popcountFallback 0x81#8 = 2 := by
  obtain ⟨-, ⟨hcount, -⟩, -, -, -, hrot, -⟩ :=
    (bit_utilities_iff (k := 0) (by decide) 0x81#8 (-3#32)).mpr (by decide)
  exact ⟨hrot, hcount⟩

/-- The negated shift count overflows. -/
theorem rotate_overflows : rotlFallback (0x81#8) (BitVec.intMin 32) = .error .overflow ∧
    rotrFallback (0x81#8) (BitVec.intMin 32) = .error .overflow := ⟨rfl, rfl⟩

end Nvhm.Bits
