import Mathlib.Data.Nat.Bitwise
import Mathlib.Data.Nat.ModEq
import Mathlib.Tactic.Ring
import Mathlib.Tactic.Positivity

/-! # Sums over the bytes of a number

A number below `256 ^ n` has `n` bytes.

* Parallel sums: three masked additions turn every byte into the number of its bits
  (`bitsOfBytes_cons`).  No step carries from one byte to the next.
* A product with the number that has a one in every byte collects the sum of all bytes in the
  highest one (`mul_ones_div`), if that sum is below 256. -/

namespace ByteSum

/-- The number with the byte `c` in each of its `n` bytes. -/
def repeatByte : ℕ → ℕ → ℕ
  | 0, _ => 0
  | n + 1, c => 256 * repeatByte n c + c

/-- The sum of the lowest `n` bytes. -/
def byteSum : ℕ → ℕ → ℕ
  | 0, _ => 0
  | n + 1, x => byteSum n (x / 256) + x % 256

/-- The number of bits that are set among the lowest `n`. -/
def bitCount (n x : ℕ) : ℕ := (List.range n).countP x.testBit

theorem repeatByte_lt {c : ℕ} (hc : c < 256) (n : ℕ) : repeatByte n c < 256 ^ n := by
  induction n with
  | zero => exact Nat.one_pos
  | succ n ih =>
      rw [repeatByte, pow_succ]
      omega

theorem repeatByte_add (n c d : ℕ) : repeatByte n c + repeatByte n d = repeatByte n (c + d) := by
  induction n with
  | zero => rfl
  | succ n ih =>
      rw [repeatByte, repeatByte, repeatByte, ← ih]
      ring

theorem testBit_repeatByte {c : ℕ} (hc : c < 256) : ∀ (n : ℕ) {i : ℕ}, i < 8 * n →
    (repeatByte n c).testBit i = c.testBit (i % 8)
  | 0, i, hi => absurd hi (Nat.not_lt_zero i)
  | n + 1, i, hi => by
      rw [repeatByte, show 256 = 2 ^ 8 from rfl, Nat.testBit_two_pow_mul_add _ hc]
      split_ifs with hlt
      · rw [Nat.mod_eq_of_lt hlt]
      · rw [testBit_repeatByte hc n (by omega)]
        congr 1
        omega

theorem and_bytes {a b c d : ℕ} (hb : b < 256) (hd : d < 256) :
    (256 * a + b) &&& (256 * c + d) = 256 * (a &&& c) + (b &&& d) := by
  have hand : b &&& d < 2 ^ 8 := Nat.and_lt_two_pow b hd
  refine Nat.eq_of_testBit_eq fun i => ?_
  rw [Nat.testBit_and, show 256 = 2 ^ 8 from rfl, Nat.testBit_two_pow_mul_add _ hb,
    Nat.testBit_two_pow_mul_add _ hd, Nat.testBit_two_pow_mul_add _ hand]
  split_ifs
  · rw [Nat.testBit_and]
  · rw [Nat.testBit_and]

/-! ### The steps -/

/-- Sums of two bits. -/
def pairs (n x : ℕ) : ℕ := x - ((x / 2) &&& repeatByte n 0x55)

/-- Sums of four bits. -/
def nibbles (n x : ℕ) : ℕ := (x &&& repeatByte n 0x33) + ((x / 4) &&& repeatByte n 0x33)

/-- Sums of eight bits. -/
def bytes (n x : ℕ) : ℕ := (x + x / 16) &&& repeatByte n 0x0f

/-- All three steps. -/
def bitsOfBytes (n x : ℕ) : ℕ := bytes n (nibbles n (pairs n x))

theorem pairs_cons (n q : ℕ) {r : ℕ} (hr : r < 256) :
    pairs (n + 1) (256 * q + r) = 256 * pairs n q + (r - ((r / 2) &&& 0x55)) := by
  have hmask : ∀ b < 2, ∀ s < 128, (128 * b + s) &&& 0x55 = s &&& 0x55 := by decide +kernel
  have hle : (q / 2) &&& repeatByte n 0x55 ≤ q := Nat.and_le_left.trans (Nat.div_le_self q 2)
  have hle' : (r / 2) &&& 0x55 ≤ r := Nat.and_le_left.trans (Nat.div_le_self r 2)
  unfold pairs
  rw [repeatByte, show (256 * q + r) / 2 = 256 * (q / 2) + (128 * (q % 2) + r / 2) by omega,
    and_bytes (by omega) (by decide), hmask _ (Nat.mod_lt _ two_pos) _ (by omega)]
  omega

theorem nibbles_cons (n q : ℕ) {r : ℕ} (hr : r < 256) :
    nibbles (n + 1) (256 * q + r) = 256 * nibbles n q + ((r &&& 0x33) + ((r / 4) &&& 0x33)) := by
  have hmask : ∀ b < 4, ∀ s < 64, (64 * b + s) &&& 0x33 = s &&& 0x33 := by decide +kernel
  unfold nibbles
  rw [repeatByte, show (256 * q + r) / 4 = 256 * (q / 4) + (64 * (q % 4) + r / 4) by omega,
    and_bytes hr (by decide), and_bytes (by omega) (by decide),
    hmask _ (Nat.mod_lt _ (by decide)) _ (by omega)]
  ring

theorem bytes_cons (n : ℕ) {q r : ℕ} (hq : q % 16 ≤ 4) (hr : r ≤ 0x44) :
    bytes (n + 1) (256 * q + r) = 256 * bytes n q + ((r + r / 16) &&& 0x0f) := by
  have hmask : ∀ b ≤ 4, ∀ s ≤ 0x48, (16 * b + s) &&& 0x0f = s &&& 0x0f := by decide +kernel
  unfold bytes
  rw [repeatByte, show 256 * q + r + (256 * q + r) / 16 =
      256 * (q + q / 16) + (16 * (q % 16) + (r + r / 16)) by omega,
    and_bytes (by omega) (by decide), hmask _ hq _ (by omega)]

theorem nibbles_le (n x : ℕ) : nibbles n x ≤ repeatByte n 0x66 := by
  rw [← repeatByte_add n 0x33 0x33]
  exact Nat.add_le_add Nat.and_le_right Nat.and_le_right

/-- The sums of one byte. -/
theorem byte_spec : ∀ r < 256,
    let s := r - ((r / 2) &&& 0x55)
    let t := (s &&& 0x33) + ((s / 4) &&& 0x33)
    s < 256 ∧ t ≤ 0x44 ∧ t % 16 ≤ 4 ∧ (t + t / 16) &&& 0x0f = bitCount 8 r := by
  decide +kernel

theorem nibbles_mod (n x : ℕ) : nibbles n (pairs n x) % 16 ≤ 4 := by
  cases n with
  | zero => simp [nibbles, repeatByte]
  | succ n =>
      obtain ⟨hs, -, ht, -⟩ := byte_spec (x % 256) (Nat.mod_lt x (by decide))
      rw [← Nat.div_add_mod x 256, pairs_cons n _ (Nat.mod_lt x (by decide)), nibbles_cons n _ hs]
      omega

/-- Every byte becomes the number of its bits. -/
theorem bitsOfBytes_cons (n q : ℕ) {r : ℕ} (hr : r < 256) :
    bitsOfBytes (n + 1) (256 * q + r) = 256 * bitsOfBytes n q + bitCount 8 r := by
  obtain ⟨hs, ht, -, hcount⟩ := byte_spec r hr
  unfold bitsOfBytes
  rw [pairs_cons n q hr, nibbles_cons n _ hs, bytes_cons n (nibbles_mod n q) ht, hcount]

theorem bitCount_cons (n q : ℕ) {r : ℕ} (hr : r < 256) :
    bitCount (8 * (n + 1)) (256 * q + r) = bitCount (8 * n) q + bitCount 8 r := by
  have hlow : (List.range 8).countP (256 * q + r).testBit = (List.range 8).countP r.testBit := by
    refine List.countP_congr fun i hi => ?_
    rw [show 256 = 2 ^ 8 from rfl, Nat.testBit_two_pow_mul_add _ hr, if_pos (List.mem_range.mp hi)]
  have hhigh : (List.range (8 * n)).countP ((256 * q + r).testBit ∘ (8 + ·)) =
      (List.range (8 * n)).countP q.testBit := by
    refine List.countP_congr fun i _ => ?_
    rw [Function.comp, show 256 = 2 ^ 8 from rfl, Nat.testBit_two_pow_mul_add _ hr,
      if_neg (by omega), Nat.add_sub_cancel_left]
  unfold bitCount
  rw [show 8 * (n + 1) = 8 + 8 * n by ring, List.range_add, List.countP_append, List.countP_map,
    hlow, hhigh, Nat.add_comm]

/-! ### Collecting the sum -/

theorem bitCount_le (n x : ℕ) : bitCount n x ≤ n :=
  List.countP_le_length.trans_eq (List.length_range)

theorem byteSum_bitsOfBytes : ∀ n x : ℕ, byteSum n (bitsOfBytes n x) = bitCount (8 * n) x
  | 0, _ => rfl
  | n + 1, x => by
      have hr := Nat.mod_lt x (show 0 < 256 by decide)
      have hle := bitCount_le 8 (x % 256)
      rw [← Nat.div_add_mod x 256, bitsOfBytes_cons n _ hr, bitCount_cons n _ hr, byteSum,
        show (256 * bitsOfBytes n (x / 256) + bitCount 8 (x % 256)) / 256 =
          bitsOfBytes n (x / 256) by omega, byteSum_bitsOfBytes n]
      omega

theorem repeatByte_one (n : ℕ) : 255 * repeatByte n 1 + 1 = 256 ^ n := by
  induction n with
  | zero => rfl
  | succ n ih =>
      rw [repeatByte, pow_succ]
      omega

/-- A number, its byte sum, and a multiple of 255. -/
theorem byteSum_mod : ∀ (n x : ℕ), x < 256 ^ n →
    ∃ m, x = 255 * m + byteSum n x ∧ x ≤ byteSum n x * 256 ^ (n - 1)
  | 0, x, hx => ⟨0, by simpa [byteSum] using hx⟩
  | n + 1, x, hx => by
      have hq : x / 256 < 256 ^ n := by
        rw [pow_succ] at hx
        exact Nat.div_lt_of_lt_mul (by omega)
      obtain ⟨m, hm, hle⟩ := byteSum_mod n (x / 256) hq
      refine ⟨x / 256 + m, by rw [byteSum]; omega, ?_⟩
      have hlow : x % 256 ≤ x % 256 * 256 ^ n := Nat.le_mul_of_pos_right _ (by positivity)
      have hhigh : 256 * (byteSum n (x / 256) * 256 ^ (n - 1)) = byteSum n (x / 256) * 256 ^ n := by
        cases n with
        | zero =>
            rw [byteSum]
            omega
        | succ n =>
            rw [Nat.add_sub_cancel, pow_succ]
            ring
      rw [byteSum, Nat.add_sub_cancel, Nat.add_mul]
      omega

/-- The highest byte of the product. -/
theorem mul_ones_div {n x : ℕ} (hx : x < 256 ^ (n + 1)) (hsum : byteSum (n + 1) x < 256) :
    x * repeatByte (n + 1) 1 % 256 ^ (n + 1) / 256 ^ n = byteSum (n + 1) x := by
  obtain ⟨m, hm, hle⟩ := byteSum_mod (n + 1) x hx
  rw [Nat.add_sub_cancel] at hle
  generalize byteSum (n + 1) x = s at hsum hm hle ⊢
  have hone := repeatByte_one (n + 1)
  have hone' := repeatByte_one n
  have hrep : repeatByte (n + 1) 1 = 256 ^ n + repeatByte n 1 := by
    rw [pow_succ] at hone
    omega
  -- the part below the highest byte
  have hm_le : m ≤ s * repeatByte n 1 := by
    have hpow : s * 256 ^ n = 255 * (s * repeatByte n 1) + s := by
      rw [← hone']
      ring
    omega
  have hlow : s * repeatByte n 1 < 256 ^ n := by
    have hmul : s * repeatByte n 1 ≤ 255 * repeatByte n 1 := Nat.mul_le_mul_right _ (by omega)
    omega
  have hprod : x * repeatByte (n + 1) 1 =
      256 ^ n * s + (s * repeatByte n 1 - m) + 256 ^ (n + 1) * m := by
    have hsplit : x * repeatByte (n + 1) 1 =
        m * (255 * repeatByte (n + 1) 1) + s * repeatByte (n + 1) 1 := by
      conv_lhs => rw [hm]
      ring
    have hmul : m * (255 * repeatByte (n + 1) 1) + m = 256 ^ (n + 1) * m := by
      rw [← hone]
      ring
    have hs : s * repeatByte (n + 1) 1 = 256 ^ n * s + s * repeatByte n 1 := by
      rw [hrep]
      ring
    omega
  have hlt : 256 ^ n * s + (s * repeatByte n 1 - m) < 256 ^ (n + 1) := by
    have hmul : 256 ^ n * s ≤ 256 ^ n * 255 := Nat.mul_le_mul_left _ (by omega)
    rw [pow_succ]
    omega
  rw [hprod, Nat.add_mul_mod_self_left, Nat.mod_eq_of_lt hlt, Nat.mul_add_div (by positivity),
    Nat.div_eq_of_lt (by omega), Nat.add_zero]

theorem bitsOfBytes_lt : ∀ n x : ℕ, bitsOfBytes n x < 256 ^ n
  | 0, x => by simp [bitsOfBytes, bytes, repeatByte]
  | n + 1, x => by
      have hr := Nat.mod_lt x (show 0 < 256 by decide)
      have hle := bitCount_le 8 (x % 256)
      have ih := bitsOfBytes_lt n (x / 256)
      rw [← Nat.div_add_mod x 256, bitsOfBytes_cons n _ hr, pow_succ]
      omega

/-- The parallel sums, collected in the highest byte, are the number of bits. -/
theorem bitsOfBytes_mul {n : ℕ} (hn : 8 * (n + 1) < 256) (x : ℕ) :
    bitsOfBytes (n + 1) x * repeatByte (n + 1) 1 % 256 ^ (n + 1) / 256 ^ n =
      bitCount (8 * (n + 1)) x := by
  have hsum := byteSum_bitsOfBytes (n + 1) x
  rw [mul_ones_div (bitsOfBytes_lt _ _) (by rw [hsum]; exact (bitCount_le _ _).trans_lt hn), hsum]

end ByteSum
