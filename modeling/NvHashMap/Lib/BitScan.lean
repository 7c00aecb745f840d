import Mathlib.Data.List.Sort
import Mathlib.Data.Nat.Bitwise

/-! # Scanning the bits of a word

`x &&& (x - 1)` clears the lowest set bit of a word.  Repeated, it walks through the set bits in
ascending order (`scan_eq`). -/

namespace BitScan

variable {w : ℕ}

/-- The word without its lowest set bit. -/
def clearLowest (x : BitVec w) : BitVec w := x &&& (x - 1#w)

/-- The positions of the set bits, from the lowest on; `n` bounds their number. -/
def scan : ℕ → BitVec w → List ℕ
  | 0, _ => []
  | n + 1, x => if x = 0#w then [] else x.ctz.toNat :: scan n (clearLowest x)

theorem ctz_lt {x : BitVec w} (hx : x ≠ 0#w) : x.ctz.toNat < w := by
  by_contra hle
  have := BitVec.getLsbD_true_ctz_of_ne_zero hx
  rw [BitVec.getLsbD_of_ge _ _ (by omega)] at this
  cases this

/-- A word, split at its lowest set bit. -/
theorem exists_toNat_eq {x : BitVec w} (hx : x ≠ 0#w) :
    ∃ q, x.toNat = 2 ^ x.ctz.toNat * (2 * q + 1) := by
  have hlow : x.toNat % 2 ^ x.ctz.toNat = 0 := by
    refine Nat.eq_of_testBit_eq fun i => ?_
    rw [Nat.testBit_mod_two_pow, Nat.zero_testBit, Bool.and_eq_false_iff]
    rcases Nat.lt_or_ge i x.ctz.toNat with hi | hi
    · exact Or.inr (BitVec.getLsbD_false_of_lt_ctz hi)
    · exact Or.inl (decide_eq_false (by omega))
  have hbit : (x.toNat / 2 ^ x.ctz.toNat).testBit 0 = true := by
    rw [Nat.testBit_div_two_pow, Nat.zero_add]
    exact BitVec.getLsbD_true_ctz_of_ne_zero hx
  rw [Nat.testBit_zero, decide_eq_true_iff] at hbit
  refine ⟨x.toNat / 2 ^ x.ctz.toNat / 2, ?_⟩
  have h1 := Nat.div_add_mod (x.toNat / 2 ^ x.ctz.toNat) 2
  have h2 := Nat.div_add_mod x.toNat (2 ^ x.ctz.toNat)
  rw [hbit] at h1
  rw [hlow, Nat.add_zero] at h2
  rw [h1, h2]

/-- Subtracting one flips the bits up to the lowest one that is set. -/
theorem getLsbD_sub_one {x : BitVec w} (hx : x ≠ 0#w) (i : ℕ) :
    (x - 1#w).getLsbD i = if i < x.ctz.toNat then true
      else if i = x.ctz.toNat then false else x.getLsbD i := by
  obtain ⟨q, hq⟩ := exists_toNat_eq hx
  have hpos : 1 ≤ x.toNat := by
    rw [hq]
    exact Nat.mul_pos (Nat.two_pow_pos _) (Nat.succ_pos _)
  have hw : 1 < 2 ^ w := Nat.one_lt_two_pow (by have := ctz_lt hx; omega)
  have h1 : (1#w).toNat = 1 := by simp [Nat.mod_eq_of_lt hw]
  have hone : 1 ≤ 2 ^ x.ctz.toNat := Nat.two_pow_pos _
  have hsub : (x - 1#w).toNat = 2 ^ x.ctz.toNat * (2 * q) + (2 ^ x.ctz.toNat - 1) := by
    rw [BitVec.toNat_sub_of_le (by rw [BitVec.le_def, h1]; exact hpos), h1, hq, Nat.mul_add,
      Nat.mul_one]
    omega
  rw [BitVec.getLsbD, hsub, Nat.testBit_two_pow_mul_add _ (Nat.sub_lt hone one_pos)]
  split_ifs with hlt heq
  · rw [Nat.testBit_two_pow_sub_one]
    exact decide_eq_true hlt
  · rw [heq, Nat.sub_self, Nat.testBit_zero]
    exact decide_eq_false (by omega)
  · have h0 : 2 ^ x.ctz.toNat * (2 * q + 1) = 2 ^ x.ctz.toNat * (2 * q + 1) + 0 := rfl
    obtain ⟨d, rfl⟩ := Nat.exists_eq_add_of_lt (show x.ctz.toNat < i by omega)
    rw [BitVec.getLsbD, hq, h0, Nat.testBit_two_pow_mul_add _ (Nat.two_pow_pos _),
      if_neg (by omega), show x.ctz.toNat + d + 1 - x.ctz.toNat = d + 1 by omega, Nat.testBit_succ,
      Nat.testBit_succ]
    congr 1
    omega

theorem getLsbD_clearLowest {x : BitVec w} (hx : x ≠ 0#w) (i : ℕ) :
    (clearLowest x).getLsbD i = (x.getLsbD i && decide (i ≠ x.ctz.toNat)) := by
  rw [clearLowest, BitVec.getLsbD_and, getLsbD_sub_one hx]
  split_ifs with hlt heq
  · rw [BitVec.getLsbD_false_of_lt_ctz hlt]
    rfl
  · simp [heq]
  · rw [Bool.and_self, decide_eq_true heq, Bool.and_true]

/-- The position of the lowest bit that is set. -/
theorem ctz_eq {x : BitVec w} {c : ℕ} (hc : x.getLsbD c = true)
    (hlow : ∀ i < c, x.getLsbD i = false) : x.ctz.toNat = c := by
  have hx : x ≠ 0#w := by
    rintro rfl
    rw [BitVec.getLsbD_zero] at hc
    cases hc
  rcases lt_trichotomy x.ctz.toNat c with hlt | heq | hgt
  · have hset := BitVec.getLsbD_true_ctz_of_ne_zero hx
    rw [hlow _ hlt] at hset
    cases hset
  · exact heq
  · rw [BitVec.getLsbD_false_of_lt_ctz hgt] at hc
    cases hc

theorem scan_eq_from : ∀ (n lo : ℕ) (x : BitVec w), (∀ i < lo, x.getLsbD i = false) →
    w ≤ lo + n → scan n x = (List.range' lo (w - lo)).filter x.getLsbD
  | 0, lo, x, _, hn => by
      rw [scan, Nat.sub_eq_zero_of_le (by omega)]
      rfl
  | n + 1, lo, x, hlo, hn => by
      rw [scan]
      split_ifs with hx
      · rw [hx]
        simp
      · have hc := ctz_lt hx
        have hle : lo ≤ x.ctz.toNat := by
          by_contra hlt
          have := hlo x.ctz.toNat (by omega)
          rw [BitVec.getLsbD_true_ctz_of_ne_zero hx] at this
          cases this
        have hclear := getLsbD_clearLowest hx
        -- up to the lowest set bit no position passes the filter
        have hsplit : List.range' lo (w - lo) = List.range' lo (x.ctz.toNat - lo) ++
            x.ctz.toNat :: List.range' (x.ctz.toNat + 1) (w - (x.ctz.toNat + 1)) := by
          rw [← List.range'_succ, show x.ctz.toNat = lo + (x.ctz.toNat - lo) by omega,
            Nat.add_sub_cancel_left, List.range'_append_1]
          congr 1
          omega
        rw [hsplit, List.filter_append, List.filter_cons_of_pos
          (BitVec.getLsbD_true_ctz_of_ne_zero hx), List.filter_eq_nil_iff.mpr, List.nil_append]
        · rw [scan_eq_from n (x.ctz.toNat + 1) (clearLowest x) (fun i hi => ?_) (by omega)]
          · congr 1
            refine List.filter_congr fun i hi => ?_
            rw [List.mem_range'_1] at hi
            rw [hclear, decide_eq_true (by omega), Bool.and_true]
          · rw [hclear, Bool.and_eq_false_iff]
            rcases Nat.lt_or_ge i x.ctz.toNat with hi' | hi'
            · exact Or.inl (BitVec.getLsbD_false_of_lt_ctz hi')
            · exact Or.inr (decide_eq_false (by omega))
        · intro i hi
          rw [List.mem_range'_1] at hi
          rw [BitVec.getLsbD_false_of_lt_ctz (by omega)]
          exact Bool.false_ne_true

/-- The scan lists the set bits. -/
theorem scan_eq (x : BitVec w) {n : ℕ} (hn : w ≤ n) :
    scan n x = (List.range w).filter x.getLsbD := by
  rw [scan_eq_from n 0 x (fun _ hi => absurd hi (Nat.not_lt_zero _)) (by omega),
    List.range_eq_range', Nat.sub_zero]

end BitScan
