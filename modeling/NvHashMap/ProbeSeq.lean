import NvHashMap.Common
import NvHashMap.Lib.Coverage

/-! # Probe sequences

`probe_seq.hpp`.

* A probe sequence is a value that the loops of the containers advance by the kernel size; its
  base wraps around as a 64-bit word.
* `seqBucket_eq` gives the bucket of every step in closed form.  Hence an unbounded sequence reaches
  every bucket once before it repeats one (`seqBucket_injOn`, `exists_seqBucket_eq`). -/

namespace Nvhm

/-! ### Probe sequences -/

inductive SeqKind where
  | linear
  | quadratic
deriving DecidableEq, Repr

/-- The template parameters of a probe sequence.  The alignment is zero or a power of two;
`maxLength = none` is `inf_psl`. -/
structure SeqType where
  kind : SeqKind
  alignment : ℕ
  maxLength : Option ℕ
  alignment_eq : alignment = 0 ∨ ∃ a ≤ 62, alignment = 2 ^ a

theorem alignment_zero : 0 = 0 ∨ ∃ a ≤ 62, 0 = 2 ^ a := Or.inl rfl

/-- `is_unbounded`. -/
def SeqType.isUnbounded (S : SeqType) : Bool := S.maxLength.isNone

/-- A probe sequence; an unaligned one has no shift. -/
structure ProbeSeq where
  psl : ℕ
  base : ℕ
  shift : ℕ
deriving DecidableEq, Repr, Inhabited

namespace ProbeSeq
variable (S : SeqType)

/-- The constructors, `splice_pos` included. -/
def init (pos : ℕ) : ProbeSeq :=
  if S.alignment = 0 then ⟨0, pos, 0⟩
  else ⟨0, alignPos pos (notMask (S.alignment - 1)), alignPos pos (S.alignment - 1)⟩

/-- `has_next`. -/
def hasNext (q : ProbeSeq) : Bool :=
  match S.maxLength with
  | none => true
  | some n => decide (q.psl < n)

/-- `next`. -/
def next (q : ProbeSeq) : ℕ :=
  match S.kind with
  | .linear =>
      if S.alignment = 0 then (q.base + q.psl) % 2 ^ 64
      else (q.base + alignPos q.psl (notMask (S.alignment - 1)) +
        alignPos (q.psl + q.shift) (S.alignment - 1)) % 2 ^ 64
  | .quadratic =>
      if S.alignment = 0 then q.base
      else (q.base + alignPos (q.psl + q.shift) (S.alignment - 1)) % 2 ^ 64

/-- `operator+=`. -/
def advance (q : ProbeSeq) (n : ℕ) : ProbeSeq :=
  let psl := q.psl + n
  match S.kind with
  | .linear => { q with psl := psl }
  | .quadratic =>
      if S.alignment = 0 then { q with psl := psl, base := (q.base + psl) % 2 ^ 64 }
      else
        let d := if alignPos psl (S.alignment - 1) = 0 then psl else 0
        { q with psl := psl, base := (q.base + d) % 2 ^ 64 }

/-- The sequence after `j` steps of `n`. -/
def iter (n : ℕ) (pos : ℕ) : ℕ → ProbeSeq
  | 0 => init S pos
  | j + 1 => (iter n pos j).advance S n

@[simp] theorem init_psl (pos : ℕ) : (init S pos).psl = 0 := by
  unfold init
  split_ifs <;> rfl

@[simp] theorem advance_psl (q : ProbeSeq) (n : ℕ) : (q.advance S n).psl = q.psl + n := by
  unfold advance
  split <;> [rfl; (split_ifs <;> rfl)]

@[simp] theorem advance_shift (q : ProbeSeq) (n : ℕ) : (q.advance S n).shift = q.shift := by
  unfold advance
  split <;> [rfl; (split_ifs <;> rfl)]

@[simp] theorem iter_psl (n pos j : ℕ) : (iter S n pos j).psl = n * j := by
  induction j with
  | zero => simp [iter]
  | succ j ih => simp [iter, ih, Nat.mul_succ]

theorem iter_shift (n pos j : ℕ) : (iter S n pos j).shift = (init S pos).shift := by
  induction j with
  | zero => rfl
  | succ j ih => simp [iter, ih]

theorem hasNext_of_unbounded (h : S.isUnbounded = true) (q : ProbeSeq) : q.hasNext S = true := by
  simp only [SeqType.isUnbounded, Option.isNone_iff_eq_none] at h
  simp [hasNext, h]

end ProbeSeq

/-! ### The buckets of a probe sequence -/

/-- The offset of the bucket at step `j`, in a table whose bucket mask is `mask`. -/
def seqBucket (S : SeqType) (k mask pos j : ℕ) : ℕ :=
  alignPos ((ProbeSeq.iter S (2 ^ k) pos j).next S) mask

theorem alignPos_sub_one (x a : ℕ) : alignPos x (2 ^ a - 1) = x % 2 ^ a :=
  Nat.and_two_pow_sub_one_eq_mod x a

theorem alignPos_notMask {a : ℕ} (ha : a ≤ 64) (x : ℕ) :
    alignPos x (notMask (2 ^ a - 1)) = 2 ^ a * (x / 2 ^ a) % 2 ^ 64 := by
  have h : notMask (2 ^ a - 1) = 2 ^ 64 - 2 ^ a := by
    have := Nat.two_pow_pos a
    unfold notMask
    omega
  rw [alignPos, h, PowTwo.land_two_pow_sub x ha, ← PowTwo.pow_sub_mul ha, mul_comm (2 ^ (64 - a)),
    Nat.mul_mod_mul_left]

/-- A bucket mask below the word size does not see the wrap-around. -/
theorem alignPos_mod {k c : ℕ} (hk : k ≤ c) (hc : c ≤ 64) (x : ℕ) :
    alignPos (x % 2 ^ 64) (2 ^ c - 2 ^ k) = alignPos x (2 ^ c - 2 ^ k) := by
  have hdvd : 2 ^ (c - k) ∣ 2 ^ (64 - k) := Nat.pow_dvd_pow 2 (by omega)
  have hdiv : x % 2 ^ 64 / 2 ^ k = x / 2 ^ k % 2 ^ (64 - k) := by
    rw [← PowTwo.pow_sub_mul (show k ≤ 64 by omega), mul_comm, Nat.mod_mul_right_div_self]
  rw [alignPos, alignPos, PowTwo.land_two_pow_sub _ hk, PowTwo.land_two_pow_sub _ hk, hdiv,
    Nat.mod_mod_of_dvd _ hdvd]

/-- A step that computes `N` up to the wrap-around visits the bucket of `N`. -/
theorem seqBucket_of_next {S : SeqType} {k c pos j N : ℕ} (hk : k ≤ c) (hc : c ≤ 64)
    (h : (ProbeSeq.iter S (2 ^ k) pos j).next S % 2 ^ 64 = N % 2 ^ 64) :
    seqBucket S k (2 ^ c - 2 ^ k) pos j = 2 ^ k * (N / 2 ^ k % 2 ^ (c - k)) := by
  rw [seqBucket, ← alignPos_mod hk hc, h, alignPos_mod hk hc, alignPos, PowTwo.land_two_pow_sub _ hk]

theorem pow_ne (a : ℕ) : ((2 : ℕ) ^ a = 0) = False :=
  eq_false (Nat.two_pow_pos a).ne'

section Steps
variable {S : SeqType} {k pos : ℕ}

theorem iter_base_linear (hS : S.kind = .linear) (j : ℕ) :
    (ProbeSeq.iter S (2 ^ k) pos j).base = (ProbeSeq.init S pos).base := by
  induction j with
  | zero => rfl
  | succ j ih => simp [ProbeSeq.iter, ProbeSeq.advance, hS, ih]

/-- Without an alignment every step of a quadratic sequence adds its psl. -/
theorem iter_base_unaligned (hS : S.kind = .quadratic) (h0 : S.alignment = 0) (j : ℕ) :
    (ProbeSeq.iter S (2 ^ k) pos j).base % 2 ^ 64 = (pos + 2 ^ k * Coverage.tri j) % 2 ^ 64 := by
  induction j with
  | zero => simp [ProbeSeq.iter, ProbeSeq.init, h0]
  | succ j ih =>
      simp only [ProbeSeq.iter, ProbeSeq.advance, hS, h0, if_true, ProbeSeq.iter_psl]
      rw [Nat.mod_mod, Nat.add_mod, ih, ← Nat.add_mod, Coverage.tri_succ]
      congr 1
      ring

/-- With an alignment that divides the kernel size, every step adds its psl as well. -/
theorem iter_base_small {a : ℕ} (hS : S.kind = .quadratic) (hA : S.alignment = 2 ^ a)
    (ha : a ≤ k) (j : ℕ) :
    (ProbeSeq.iter S (2 ^ k) pos j).base % 2 ^ 64 =
      ((ProbeSeq.init S pos).base + 2 ^ k * Coverage.tri j) % 2 ^ 64 := by
  induction j with
  | zero => simp [ProbeSeq.iter]
  | succ j ih =>
      have hz : (2 ^ k * j + 2 ^ k) % 2 ^ a = 0 := by
        rw [← Nat.mul_succ]
        exact Nat.mod_eq_zero_of_dvd (Dvd.dvd.mul_right (Nat.pow_dvd_pow 2 ha) _)
      simp only [ProbeSeq.iter, ProbeSeq.advance, hS, pow_ne, if_false,
        ProbeSeq.iter_psl, hA, alignPos_sub_one, hz, if_true]
      rw [Nat.mod_mod, Nat.add_mod, ih, ← Nat.add_mod, Coverage.tri_succ]
      congr 1
      ring

/-- With an alignment above the kernel size, the base moves once a line. -/
theorem iter_base_large {ρ : ℕ} (hS : S.kind = .quadratic) (hA : S.alignment = 2 ^ (k + ρ))
    (j : ℕ) :
    (ProbeSeq.iter S (2 ^ k) pos j).base % 2 ^ 64 =
      ((ProbeSeq.init S pos).base + 2 ^ (k + ρ) * Coverage.tri (j / 2 ^ ρ)) % 2 ^ 64 := by
  induction j with
  | zero => simp [ProbeSeq.iter]
  | succ j ih =>
      have hmod : (2 ^ k * j + 2 ^ k) % 2 ^ (k + ρ) = 2 ^ k * ((j + 1) % 2 ^ ρ) := by
        rw [← Nat.mul_succ, pow_add, Nat.mul_mod_mul_left]
      simp only [ProbeSeq.iter, ProbeSeq.advance, hS, pow_ne, if_false,
        ProbeSeq.iter_psl, hA, alignPos_sub_one, hmod]
      rw [Nat.mod_mod, Nat.add_mod, ih, ← Nat.add_mod]
      by_cases hj : (j + 1) % 2 ^ ρ = 0
      · have hdvd : 2 ^ ρ ∣ j + 1 := Nat.dvd_of_mod_eq_zero hj
        have hdiv : (j + 1) / 2 ^ ρ = j / 2 ^ ρ + 1 := Nat.succ_div_of_dvd hdvd
        have hpsl : 2 ^ k * j + 2 ^ k = 2 ^ (k + ρ) * (j / 2 ^ ρ + 1) := by
          rw [← Nat.mul_succ, pow_add, mul_assoc, ← hdiv, Nat.mul_div_cancel' hdvd]
        rw [if_pos (by rw [hj, Nat.mul_zero]), hdiv, Coverage.tri_succ, hpsl]
        congr 1
        ring
      · have hdiv : (j + 1) / 2 ^ ρ = j / 2 ^ ρ :=
          Nat.succ_div_of_not_dvd fun h => hj (Nat.mod_eq_zero_of_dvd h)
        rw [if_neg (by simp [hj]), hdiv, Nat.add_zero]

/-- The place in a line, in buckets. -/
theorem line_place {ρ : ℕ} (j s : ℕ) :
    (2 ^ k * j + s) % 2 ^ (k + ρ) =
      2 ^ k * ((j % 2 ^ ρ + s / 2 ^ k) % 2 ^ ρ) + s % 2 ^ k := by
  have hk := Nat.two_pow_pos k
  rw [pow_add, Nat.mod_mul, Nat.mul_add_mod, Nat.mul_add_div hk, Nat.add_mod, Nat.mod_add_mod,
    add_comm]
  simp

end Steps

/-- An alignment of at most the kernel size does not change the bucket. -/
theorem small_place {k a : ℕ} (ha : a ≤ k) (j s : ℕ) :
    (2 ^ k * j + s % 2 ^ a) % 2 ^ a = s % 2 ^ a := by
  obtain ⟨d, rfl⟩ : ∃ d, k = a + d := ⟨k - a, by omega⟩
  rw [pow_add, mul_assoc, Nat.mul_add_mod, Nat.mod_mod]

/-- Moving on by whole buckets. -/
theorem add_mul_div_pow (k pos n : ℕ) : (pos + 2 ^ k * n) / 2 ^ k = pos / 2 ^ k + n :=
  Nat.add_mul_div_left _ _ (Nat.two_pow_pos k)

theorem seqBucket_linear_unaligned {S : SeqType} (hS : S.kind = .linear) (h0 : S.alignment = 0)
    {k c : ℕ} (pos : ℕ) (hk : k ≤ c) (hc : c ≤ 64) (j : ℕ) :
    seqBucket S k (2 ^ c - 2 ^ k) pos j = 2 ^ k * ((pos / 2 ^ k + j) % 2 ^ (c - k)) := by
  rw [← add_mul_div_pow, seqBucket_of_next hk hc]
  simp [ProbeSeq.next, hS, h0, iter_base_linear hS, ProbeSeq.init]

theorem seqBucket_eq_unaligned {S : SeqType} (h0 : S.alignment = 0) {k c : ℕ} (pos : ℕ) (hk : k ≤ c)
    (hc : c ≤ 64) : ∃ f, Coverage.Spreading f ∧ ∀ j, seqBucket S k (2 ^ c - 2 ^ k) pos j =
      2 ^ k * ((pos / 2 ^ k + f j) % 2 ^ (c - k)) := by
  cases hS : S.kind with
  | linear =>
      exact ⟨_, Coverage.spreading_id, seqBucket_linear_unaligned hS h0 pos hk hc⟩
  | quadratic =>
      refine ⟨_, Coverage.spreading_tri, fun j => ?_⟩
      rw [← add_mul_div_pow, seqBucket_of_next hk hc]
      simp only [ProbeSeq.next, hS, h0, if_true]
      exact iter_base_unaligned hS h0 j

section Small
variable {S : SeqType} {k c a pos : ℕ} (hA : S.alignment = 2 ^ a) (ha : a ≤ 62) (hak : a ≤ k)
include hA ha

theorem init_base (hpos : pos < 2 ^ 64) : (ProbeSeq.init S pos).base = 2 ^ a * (pos / 2 ^ a) := by
  simp only [ProbeSeq.init, hA, pow_ne, if_false]
  rw [alignPos_notMask (by omega), Nat.mod_eq_of_lt]
  exact lt_of_le_of_lt (Nat.mul_div_le pos _) hpos

omit ha in
theorem iter_shift_eq (j : ℕ) : (ProbeSeq.iter S (2 ^ k) pos j).shift = pos % 2 ^ a := by
  rw [ProbeSeq.iter_shift]
  simp only [ProbeSeq.init, hA, pow_ne, if_false, alignPos_sub_one]

include hak

theorem seqBucket_linear_small (hS : S.kind = .linear) (hk : k ≤ c) (hc : c ≤ 64)
    (hpos : pos < 2 ^ 64) (j : ℕ) :
    seqBucket S k (2 ^ c - 2 ^ k) pos j = 2 ^ k * ((pos / 2 ^ k + j) % 2 ^ (c - k)) := by
  have hsplit := Nat.div_add_mod pos (2 ^ a)
  rw [← add_mul_div_pow, seqBucket_of_next hk hc]
  have hmaj : 2 ^ a * (2 ^ k * j / 2 ^ a) = 2 ^ k * j :=
    Nat.mul_div_cancel' (Dvd.dvd.mul_right (Nat.pow_dvd_pow 2 hak) _)
  simp only [ProbeSeq.next, hS, hA, pow_ne, if_false, alignPos_sub_one, ProbeSeq.iter_psl,
    iter_base_linear hS, init_base hA ha hpos, iter_shift_eq hA, small_place hak]
  rw [alignPos_notMask (by omega), hmaj, Nat.mod_mod, add_right_comm, hsplit, Nat.add_mod_mod]

theorem seqBucket_eq_small (hk : k ≤ c) (hc : c ≤ 64) (hpos : pos < 2 ^ 64) :
    ∃ f, Coverage.Spreading f ∧ ∀ j, seqBucket S k (2 ^ c - 2 ^ k) pos j =
      2 ^ k * ((pos / 2 ^ k + f j) % 2 ^ (c - k)) := by
  have hsplit := Nat.div_add_mod pos (2 ^ a)
  cases hS : S.kind with
  | linear =>
      exact ⟨_, Coverage.spreading_id, seqBucket_linear_small hA ha hak hS hk hc hpos⟩
  | quadratic =>
      refine ⟨_, Coverage.spreading_tri, fun j => ?_⟩
      rw [← add_mul_div_pow, seqBucket_of_next hk hc]
      simp only [ProbeSeq.next, hS, hA, pow_ne, if_false, alignPos_sub_one, ProbeSeq.iter_psl,
        iter_shift_eq hA, small_place hak]
      rw [Nat.mod_mod, Nat.add_mod, iter_base_small hS hA hak, ← Nat.add_mod, init_base hA ha hpos,
        add_right_comm, hsplit]

end Small

/-- A linear sequence, of an alignment of at most the kernel size, goes from bucket to bucket. -/
theorem seqBucket_linear {S : SeqType} (hS : S.kind = .linear) {k c pos : ℕ}
    (hA : S.alignment ≤ 2 ^ k) (hk : k ≤ c) (hc : c ≤ 64) (hpos : pos < 2 ^ 64) (j : ℕ) :
    seqBucket S k (2 ^ c - 2 ^ k) pos j = 2 ^ k * ((pos / 2 ^ k + j) % 2 ^ (c - k)) := by
  rcases S.alignment_eq with h0 | ⟨a, ha, hA'⟩
  · exact seqBucket_linear_unaligned hS h0 pos hk hc j
  · rw [hA'] at hA
    exact seqBucket_linear_small hA' ha ((Nat.pow_le_pow_iff_right (by decide)).mp hA) hS hk hc hpos j

theorem seqBucket_eq_large {S : SeqType} {k c ρ pos : ℕ} (hA : S.alignment = 2 ^ (k + ρ))
    (ha : k + ρ ≤ 62) (hk : k ≤ c) (hc : c ≤ 64) :
    ∃ f B t, Coverage.Spreading f ∧ ∀ j, seqBucket S k (2 ^ c - 2 ^ k) pos j =
      2 ^ k * (Coverage.mix (2 ^ ρ) f B t j % 2 ^ (c - k)) := by
  obtain ⟨B, hbase⟩ : ∃ B, (ProbeSeq.init S pos).base = 2 ^ (k + ρ) * B := by
    simp only [ProbeSeq.init, hA, pow_ne, if_false]
    rw [alignPos, show notMask (2 ^ (k + ρ) - 1) = 2 ^ 64 - 2 ^ (k + ρ) by
      have := Nat.two_pow_pos (k + ρ)
      unfold notMask
      omega, PowTwo.land_two_pow_sub _ (by omega)]
    exact ⟨_, rfl⟩
  have hshift := fun j => ProbeSeq.iter_shift S (2 ^ k) pos j
  set s := (ProbeSeq.init S pos).shift with hs
  -- a number at `place` in the line `B + L`, with the low bits of the shift, lies in that bucket
  have hdiv : ∀ L place, (2 ^ (k + ρ) * (B + L) + (2 ^ k * place + s % 2 ^ k)) / 2 ^ k =
      2 ^ ρ * (B + L) + place := fun L place => by
    rw [pow_add, mul_assoc, ← add_assoc, ← Nat.mul_add, Nat.mul_add_div (Nat.two_pow_pos k),
      Nat.div_eq_of_lt (Nat.mod_lt _ (Nat.two_pow_pos k)), Nat.add_zero]
  cases hS : S.kind with
  | linear =>
      refine ⟨_, B, s / 2 ^ k, Coverage.spreading_id, fun j => ?_⟩
      have hmaj : 2 ^ k * j / 2 ^ (k + ρ) = j / 2 ^ ρ := by
        rw [pow_add, Nat.mul_div_mul_left _ _ (Nat.two_pow_pos k)]
      rw [Coverage.mix, ← hdiv, seqBucket_of_next hk hc]
      simp only [ProbeSeq.next, hS, hA, pow_ne, if_false, alignPos_sub_one, ProbeSeq.iter_psl,
        iter_base_linear hS, hbase, hshift, line_place]
      rw [alignPos_notMask (by omega), hmaj, Nat.mod_mod, Nat.mul_add, add_right_comm,
        Nat.add_mod_mod, add_right_comm]
  | quadratic =>
      refine ⟨_, B, s / 2 ^ k, Coverage.spreading_tri, fun j => ?_⟩
      rw [Coverage.mix, ← hdiv, seqBucket_of_next hk hc]
      simp only [ProbeSeq.next, hS, hA, pow_ne, if_false, alignPos_sub_one, ProbeSeq.iter_psl,
        hshift, line_place]
      rw [Nat.mod_mod, Nat.add_mod, iter_base_large hS hA, ← Nat.add_mod, hbase, Nat.mul_add]

/-- A table that fits in one line is walked around, and so is every table by a linear sequence whose
alignment is at most the kernel size. -/
theorem seqBucket_cyclic {S : SeqType} {k c pos : ℕ}
    (hS : 2 ^ c ≤ S.alignment ∨ S.kind = .linear ∧ S.alignment ≤ 2 ^ k) (hk : k ≤ c) (hc : c ≤ 64)
    (hpos : pos < 2 ^ 64) : ∃ t, ∀ j < 2 ^ (c - k),
      seqBucket S k (2 ^ c - 2 ^ k) pos j = 2 ^ k * ((t + j) % 2 ^ (c - k)) := by
  rcases hS with hA | ⟨hS, hA⟩
  · rcases S.alignment_eq with h0 | ⟨a, ha, hA'⟩
    · have := Nat.two_pow_pos c
      omega
    · rw [hA'] at hA
      have hca : c ≤ a := (Nat.pow_le_pow_iff_right (by decide)).mp hA
      obtain ⟨ρ, rfl⟩ : ∃ ρ, a = k + ρ := ⟨a - k, by omega⟩
      obtain ⟨f, B, t, -, h⟩ := seqBucket_eq_large hA' ha hk hc
      refine ⟨t, fun j hj => ?_⟩
      rw [h, Coverage.mix_mod_of_le f B t (by omega) hj, Nat.add_comm]
  · exact ⟨pos / 2 ^ k, fun j _ => seqBucket_linear hS hA hk hc hpos j⟩

/-- The bucket of every step, in closed form.  The lines have the length of the alignment, or of a
bucket if this is larger. -/
theorem seqBucket_eq (S : SeqType) {k c : ℕ} (hk : k ≤ c) (hc : c ≤ 64) :
    ∃ ρ, max S.alignment (2 ^ k) = 2 ^ k * 2 ^ ρ ∧ ∀ pos < 2 ^ 64, ∃ f B t, Coverage.Spreading f ∧
      ∀ j, seqBucket S k (2 ^ c - 2 ^ k) pos j =
        2 ^ k * (Coverage.mix (2 ^ ρ) f B t j % 2 ^ (c - k)) := by
  rcases S.alignment_eq with h0 | ⟨a, ha, hA⟩
  · refine ⟨0, by rw [h0, Nat.zero_max, pow_zero, Nat.mul_one], fun pos _ => ?_⟩
    obtain ⟨f, hf, h⟩ := seqBucket_eq_unaligned h0 pos hk hc
    exact ⟨f, pos / 2 ^ k, 0, hf, fun j => by rw [h, pow_zero, Coverage.mix_one]⟩
  · rcases Nat.le_total a k with hak | hak
    · refine ⟨0, by rw [hA, max_eq_right (PowTwo.pow_le_pow hak), pow_zero, Nat.mul_one],
        fun pos hpos => ?_⟩
      obtain ⟨f, hf, h⟩ := seqBucket_eq_small hA ha hak hk hc hpos
      exact ⟨f, pos / 2 ^ k, 0, hf, fun j => by rw [h, pow_zero, Coverage.mix_one]⟩
    · obtain ⟨ρ, rfl⟩ : ∃ ρ, a = k + ρ := ⟨a - k, by omega⟩
      exact ⟨ρ, by rw [hA, max_eq_left (PowTwo.pow_le_pow hak), pow_add],
        fun pos _ => seqBucket_eq_large hA ha hk hc⟩

/-- A sequence that comes to a lower bucket of the same line has passed all the higher ones of this
line in between. -/
theorem exists_seqBucket_between (S : SeqType) {k c pos : ℕ} (hk : k ≤ c) (hc : c ≤ 64)
    (hpos : pos < 2 ^ 64) {i j o : ℕ} (hij : i < j) (hj : j < 2 ^ (c - k)) (ho : 2 ^ k ∣ o)
    (hlt : o < 2 ^ c)
    (hline : seqBucket S k (2 ^ c - 2 ^ k) pos i / max S.alignment (2 ^ k) =
      seqBucket S k (2 ^ c - 2 ^ k) pos j / max S.alignment (2 ^ k))
    (holine : o / max S.alignment (2 ^ k) =
      seqBucket S k (2 ^ c - 2 ^ k) pos i / max S.alignment (2 ^ k))
    (hlow : seqBucket S k (2 ^ c - 2 ^ k) pos j < seqBucket S k (2 ^ c - 2 ^ k) pos i)
    (hhigh : seqBucket S k (2 ^ c - 2 ^ k) pos i < o) :
    ∃ l, i < l ∧ l < j ∧ seqBucket S k (2 ^ c - 2 ^ k) pos l = o := by
  obtain ⟨b, rfl⟩ := ho
  obtain ⟨ρ, hmax, hseq⟩ := seqBucket_eq S hk hc
  obtain ⟨f, B, t, hf, hv⟩ := hseq pos hpos
  have hpow := Nat.two_pow_pos k
  have hb : b < 2 ^ (c - k) := by
    rw [← PowTwo.pow_sub_mul hk, mul_comm] at hlt
    exact Nat.lt_of_mul_lt_mul_right hlt
  simp only [hv, hmax, Nat.mul_div_mul_left _ _ hpow] at hline holine
  rw [hv, hv] at hlow
  rw [hv] at hhigh
  obtain ⟨l, hil, hlj, hl⟩ := Coverage.exists_mix_mod_eq hf B t hij hj hb hline holine
    (Nat.lt_of_mul_lt_mul_left hlow) (Nat.lt_of_mul_lt_mul_left hhigh)
  exact ⟨l, hil, hlj, by rw [hv, hl]⟩

section Coverage
variable (S : SeqType) {k c pos : ℕ} (hk : k ≤ c) (hc : c ≤ 64) (hpos : pos < 2 ^ 64)
include hk hc hpos

/-- Every step visits a bucket of the table. -/
theorem seqBucket_mem (j : ℕ) : ∃ b < 2 ^ (c - k), seqBucket S k (2 ^ c - 2 ^ k) pos j = 2 ^ k * b := by
  obtain ⟨ρ, -, hseq⟩ := seqBucket_eq S hk hc
  obtain ⟨f, B, t, -, h⟩ := hseq pos hpos
  exact ⟨_, Nat.mod_lt _ (Nat.two_pow_pos _), h j⟩

/-- The first `capacity / kernel size` steps visit different buckets. -/
theorem seqBucket_injOn {i j : ℕ} (hi : i < 2 ^ (c - k)) (hj : j < 2 ^ (c - k))
    (h : seqBucket S k (2 ^ c - 2 ^ k) pos i = seqBucket S k (2 ^ c - 2 ^ k) pos j) : i = j := by
  obtain ⟨ρ, -, hseq⟩ := seqBucket_eq S hk hc
  obtain ⟨f, B, t, hf, hv⟩ := hseq pos hpos
  rw [hv, hv] at h
  exact Coverage.mix_injOn hf B t hi hj (Nat.eq_of_mul_eq_mul_left (Nat.two_pow_pos k) h)

/-- The first `capacity / kernel size` steps visit every bucket. -/
theorem exists_seqBucket_eq {b : ℕ} (hb : b < 2 ^ (c - k)) :
    ∃ j < 2 ^ (c - k), seqBucket S k (2 ^ c - 2 ^ k) pos j = 2 ^ k * b := by
  obtain ⟨ρ, -, hseq⟩ := seqBucket_eq S hk hc
  obtain ⟨f, B, t, hf, hv⟩ := hseq pos hpos
  obtain ⟨j, hj, h⟩ := Coverage.exists_mix_eq (ρ := ρ) hf B t hb
  exact ⟨j, hj, by rw [hv, h]⟩

/-- The buckets of the first `capacity / kernel size` steps are all buckets of the table, in some
order. -/
theorem probe_coverage :
    ((List.range (2 ^ c / 2 ^ k)).map fun j => seqBucket S k (2 ^ c - 2 ^ k) pos j).Perm
      ((List.range (2 ^ c / 2 ^ k)).map fun b => 2 ^ k * b) := by
  rw [PowTwo.pow_div hk]
  have hnodup : ((List.range (2 ^ (c - k))).map
      fun j => seqBucket S k (2 ^ c - 2 ^ k) pos j).Nodup := by
    refine List.nodup_range.map_on fun i hi j hj heq => ?_
    exact seqBucket_injOn S hk hc hpos (List.mem_range.mp hi) (List.mem_range.mp hj) heq
  have hnodup' : ((List.range (2 ^ (c - k))).map fun b => 2 ^ k * b).Nodup := by
    refine List.nodup_range.map fun i j heq => ?_
    exact Nat.eq_of_mul_eq_mul_left (Nat.two_pow_pos k) heq
  rw [List.perm_ext_iff_of_nodup hnodup hnodup']
  intro o
  rw [List.mem_map, List.mem_map]
  constructor
  · rintro ⟨j, -, rfl⟩
    obtain ⟨b, hb, heq⟩ := seqBucket_mem S hk hc hpos j
    exact ⟨b, List.mem_range.mpr hb, heq.symm⟩
  · rintro ⟨b, hb, rfl⟩
    obtain ⟨j, hj, heq⟩ := exists_seqBucket_eq S hk hc hpos (List.mem_range.mp hb)
    exact ⟨j, List.mem_range.mpr hj, heq⟩

omit hk hc hpos in
/-- A table that is smaller than the alignment, from the last position of a word. -/
theorem probe_coverage_words :
    ((List.range 4).map fun j => seqBucket
        ⟨.quadratic, 64, none, Or.inr ⟨6, by decide, rfl⟩⟩ 3 24 (2 ^ 64 - 1) j).Perm
      ((List.range 4).map fun b => 8 * b) :=
  probe_coverage ⟨.quadratic, 64, none, Or.inr ⟨6, by decide, rfl⟩⟩ (by decide : 3 ≤ 5)
    (by decide) (by decide)

end Coverage

end Nvhm
