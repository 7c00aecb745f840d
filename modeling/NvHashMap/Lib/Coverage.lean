import NvHashMap.Lib.PowTwo

/-! # Probe orders that visit every bucket

A step function `f` is *spreading* when it is injective modulo every power of two on the
numbers below that power: the identity is (`spreading_id`), and so are the triangular numbers
(`spreading_tri`).  `mix R f B t` is the order that walks through lines of `R` buckets: it stays
in one line for `R` steps, rotated by `t`, and the lines follow `f`.  On a table of `2 ^ n`
buckets such an order visits every bucket exactly once in its first `2 ^ n` steps
(`mix_injOn`, `exists_mix_eq`), whether the table is larger or smaller than a line. -/

namespace Coverage

/-- Triangular numbers `0, 1, 3, 6, …`. -/
def tri (n : ℕ) : ℕ := n * (n + 1) / 2

theorem two_mul_tri (n : ℕ) : 2 * tri n = n * (n + 1) :=
  Nat.mul_div_cancel' (Nat.even_mul_succ_self n).two_dvd

@[simp] theorem tri_zero : tri 0 = 0 := rfl

theorem tri_succ (n : ℕ) : tri (n + 1) = tri n + (n + 1) := by
  have h1 := two_mul_tri n
  have h2 := two_mul_tri (n + 1)
  have h3 : (n + 1) * (n + 1 + 1) = n * (n + 1) + 2 * (n + 1) := by ring
  omega

/-- `f` is injective modulo `2 ^ m` below `2 ^ m`, for every `m`. -/
structure Spreading (f : ℕ → ℕ) : Prop where
  zero : f 0 = 0
  inj : ∀ m i j, i < 2 ^ m → j < 2 ^ m → f i % 2 ^ m = f j % 2 ^ m → i = j

theorem spreading_id : Spreading (fun j => j) where
  zero := rfl
  inj m i j hi hj h := by rwa [Nat.mod_eq_of_lt hi, Nat.mod_eq_of_lt hj] at h

/-- Two triangular numbers below `2 ^ m` that agree modulo `2 ^ m` have equal indices: twice
their difference is `(j - i) * (i + j + 1)`, and only one of the two factors is even. -/
theorem tri_lt_absurd {m i j : ℕ} (hij : i < j) (hj : j < 2 ^ m) :
    tri i % 2 ^ m ≠ tri j % 2 ^ m := by
  intro h
  have hle : tri i ≤ tri j := by
    have h1 := two_mul_tri i
    have h2 := two_mul_tri j
    have h3 : i * (i + 1) ≤ j * (j + 1) := Nat.mul_le_mul hij.le (by omega)
    omega
  have hdvd : 2 ^ m ∣ tri j - tri i := (Nat.modEq_iff_dvd' hle).mp h
  have hprod : 2 ^ (m + 1) ∣ (j - i) * (i + j + 1) := by
    have h2 : 2 * (tri j - tri i) = (j - i) * (i + j + 1) := by
      obtain ⟨d, rfl⟩ : ∃ d, j = i + d := ⟨j - i, by omega⟩
      rw [Nat.mul_sub, two_mul_tri, two_mul_tri, Nat.add_sub_cancel_left]
      apply Nat.sub_eq_of_eq_add
      ring
    rw [← h2, pow_succ, mul_comm]
    exact Nat.mul_dvd_mul_left 2 hdvd
  have hpow : 2 ^ (m + 1) = 2 * 2 ^ m := by ring
  rcases Nat.even_or_odd (j - i) with he | ho
  · have hodd : Odd (i + j + 1) := by
      obtain ⟨e, he⟩ := he
      exact ⟨i + e, by omega⟩
    have hcop : Nat.Coprime (2 ^ (m + 1)) (i + j + 1) :=
      Nat.Coprime.pow_left _ (Nat.coprime_two_left.mpr hodd)
    have := Nat.le_of_dvd (by omega) (hcop.dvd_of_dvd_mul_right hprod)
    omega
  · have hcop : Nat.Coprime (2 ^ (m + 1)) (j - i) :=
      Nat.Coprime.pow_left _ (Nat.coprime_two_left.mpr ho)
    have := Nat.le_of_dvd (by omega) (hcop.dvd_of_dvd_mul_left hprod)
    omega

theorem spreading_tri : Spreading tri where
  zero := rfl
  inj m i j hi hj h := by
    rcases lt_trichotomy i j with hij | hij | hij
    · exact absurd h (tri_lt_absurd hij hj)
    · exact hij
    · exact absurd h.symm (tri_lt_absurd hij hi)

/-- Walk through lines of `R` buckets: step `j` is in line `B + f (j / R)`, at the place
`(j + t) % R` of that line. -/
def mix (R : ℕ) (f : ℕ → ℕ) (B t j : ℕ) : ℕ := R * (B + f (j / R)) + (j % R + t) % R

theorem mix_one (f : ℕ → ℕ) (B t j : ℕ) : mix 1 f B t j = B + f j := by
  simp [mix, Nat.mod_one]

/-- Adding a constant does not change whether two numbers agree modulo `M`. -/
theorem add_mod_cancel_left {M a b c : ℕ} (h : (a + b) % M = (a + c) % M) : b % M = c % M :=
  Nat.ModEq.add_left_cancel' a h

/-- A table that is a part of one line is walked around. -/
theorem mix_mod_of_le {ρ n : ℕ} (f : ℕ → ℕ) (B t : ℕ) (hρ : n ≤ ρ) {x : ℕ} (hx : x < 2 ^ n) :
    mix (2 ^ ρ) f B t x % 2 ^ n = (x + t) % 2 ^ n := by
  have hdvd : 2 ^ n ∣ 2 ^ ρ := Nat.pow_dvd_pow 2 hρ
  have hx' : x < 2 ^ ρ := lt_of_lt_of_le hx (PowTwo.pow_le_pow hρ)
  obtain ⟨d, hd⟩ := id hdvd
  rw [mix, Nat.div_eq_of_lt hx', Nat.mod_eq_of_lt hx', Nat.add_mod,
    Nat.mod_mod_of_dvd _ hdvd, hd, mul_assoc, Nat.mul_mod_right, zero_add, Nat.mod_mod]

section Lines
variable {ρ n : ℕ} (hρ : ρ ≤ n) (f : ℕ → ℕ) (B t : ℕ)
include hρ

/-- The place in its line of the bucket that is visited, in a table of whole lines. -/
theorem mix_place (j : ℕ) : mix (2 ^ ρ) f B t j % 2 ^ n % 2 ^ ρ = (t + j) % 2 ^ ρ := by
  rw [Nat.mod_mod_of_dvd _ (Nat.pow_dvd_pow 2 hρ), mix, Nat.mul_add_mod, Nat.mod_mod,
    Nat.mod_add_mod, Nat.add_comm]

theorem mix_line (j : ℕ) :
    mix (2 ^ ρ) f B t j % 2 ^ n / 2 ^ ρ = (B + f (j / 2 ^ ρ)) % 2 ^ (n - ρ) := by
  have hR := Nat.two_pow_pos ρ
  rw [← PowTwo.pow_sub_mul hρ, mul_comm (2 ^ (n - ρ)), Nat.mod_mul_right_div_self, mix,
    Nat.mul_add_div hR, Nat.div_eq_of_lt (Nat.mod_lt _ hR), Nat.add_zero]

/-- The steps that are in one line follow each other. -/
theorem mix_line_inj {f : ℕ → ℕ} (hf : Spreading f) {i j : ℕ} (hi : i < 2 ^ n) (hj : j < 2 ^ n)
    (h : mix (2 ^ ρ) f B t i % 2 ^ n / 2 ^ ρ = mix (2 ^ ρ) f B t j % 2 ^ n / 2 ^ ρ) :
    i / 2 ^ ρ = j / 2 ^ ρ := by
  have hR := Nat.two_pow_pos ρ
  rw [mix_line hρ, mix_line hρ] at h
  refine hf.inj (n - ρ) _ _ ?_ ?_ (add_mod_cancel_left h)
  · rwa [Nat.div_lt_iff_lt_mul hR, PowTwo.pow_sub_mul hρ]
  · rwa [Nat.div_lt_iff_lt_mul hR, PowTwo.pow_sub_mul hρ]

end Lines

theorem mix_injOn {ρ n : ℕ} {f : ℕ → ℕ} (hf : Spreading f) (B t : ℕ) {i j : ℕ}
    (hi : i < 2 ^ n) (hj : j < 2 ^ n)
    (h : mix (2 ^ ρ) f B t i % 2 ^ n = mix (2 ^ ρ) f B t j % 2 ^ n) : i = j := by
  rcases Nat.le_total ρ n with hρ | hρ
  · -- the table has whole lines: compare the line, then the place in the line
    have hq := mix_line_inj hρ B t hf hi hj (congrArg (· / 2 ^ ρ) h)
    have hplace := congrArg (· % 2 ^ ρ) h
    simp only [mix_place hρ] at hplace
    have hr : i % 2 ^ ρ = j % 2 ^ ρ := add_mod_cancel_left hplace
    rw [← Nat.div_add_mod i (2 ^ ρ), ← Nat.div_add_mod j (2 ^ ρ), hq, hr]
  · -- the table is a part of one line
    rw [mix_mod_of_le f B t hρ hi, mix_mod_of_le f B t hρ hj] at h
    have := Nat.ModEq.add_right_cancel' t h
    rwa [Nat.ModEq, Nat.mod_eq_of_lt hi, Nat.mod_eq_of_lt hj] at this

/-- An injective order below `n` reaches every bucket below `n`. -/
theorem exists_eq_of_injOn {n : ℕ} {g : ℕ → ℕ} (hlt : ∀ j < n, g j < n)
    (hinj : ∀ i < n, ∀ j < n, g i = g j → i = j) {b : ℕ} (hb : b < n) : ∃ j < n, g j = b := by
  have himg : (Finset.range n).image g = Finset.range n := by
    apply Finset.eq_of_subset_of_card_le
    · intro x hx
      obtain ⟨j, hj, rfl⟩ := Finset.mem_image.mp hx
      exact Finset.mem_range.mpr (hlt j (Finset.mem_range.mp hj))
    · rw [Finset.card_image_of_injOn]
      intro i hi j hj h
      exact hinj i (Finset.mem_range.mp hi) j (Finset.mem_range.mp hj) h
  have hmem : b ∈ (Finset.range n).image g := by
    rw [himg]
    exact Finset.mem_range.mpr hb
  obtain ⟨j, hj, h⟩ := Finset.mem_image.mp hmem
  exact ⟨j, Finset.mem_range.mp hj, h⟩

theorem exists_mix_eq {ρ n : ℕ} {f : ℕ → ℕ} (hf : Spreading f) (B t : ℕ) {b : ℕ}
    (hb : b < 2 ^ n) : ∃ j < 2 ^ n, mix (2 ^ ρ) f B t j % 2 ^ n = b :=
  exists_eq_of_injOn (fun _ _ => Nat.mod_lt _ (Nat.two_pow_pos n))
    (fun _ hi _ hj h => mix_injOn hf B t hi hj h) hb

/-! ### Walks around a circle -/

/-- A walk around a circle of `n` places that comes to a lower place has passed all the higher ones
in between. -/
theorem exists_add_mod_eq {n b i j x : ℕ} (hij : i < j) (hx : x < n)
    (hlow : (b + j) % n < (b + i) % n) (hhigh : (b + i) % n < x) :
    ∃ l, i < l ∧ l < j ∧ (b + l) % n = x := by
  have hdiv := Nat.div_add_mod (b + i) n
  set r := (b + i) % n with hr
  -- the walk goes through the end of the circle
  have hwrap : n ≤ r + (j - i) := by
    by_contra hlt
    have hj : b + j = r + (j - i) + n * ((b + i) / n) := by omega
    rw [hj, Nat.add_mul_mod_self_left, Nat.mod_eq_of_lt (by omega)] at hlow
    omega
  refine ⟨i + (x - r), by omega, by omega, ?_⟩
  have hl : b + (i + (x - r)) = x + n * ((b + i) / n) := by omega
  rw [hl, Nat.add_mul_mod_self_left, Nat.mod_eq_of_lt hx]

/-- An order that comes to a lower bucket of the same line has passed all the higher ones of this
line in between. -/
theorem exists_mix_mod_eq {ρ n : ℕ} {f : ℕ → ℕ} (hf : Spreading f) (B t : ℕ) {i j x : ℕ}
    (hij : i < j) (hj : j < 2 ^ n) (hx : x < 2 ^ n)
    (hline : mix (2 ^ ρ) f B t i % 2 ^ n / 2 ^ ρ = mix (2 ^ ρ) f B t j % 2 ^ n / 2 ^ ρ)
    (hxline : x / 2 ^ ρ = mix (2 ^ ρ) f B t i % 2 ^ n / 2 ^ ρ)
    (hlow : mix (2 ^ ρ) f B t j % 2 ^ n < mix (2 ^ ρ) f B t i % 2 ^ n)
    (hhigh : mix (2 ^ ρ) f B t i % 2 ^ n < x) :
    ∃ l, i < l ∧ l < j ∧ mix (2 ^ ρ) f B t l % 2 ^ n = x := by
  have hi : i < 2 ^ n := hij.trans hj
  rcases Nat.le_total ρ n with hρ | hρ
  · have hR := Nat.two_pow_pos ρ
    have hq := mix_line_inj hρ B t hf hi hj hline
    -- buckets of one line are ordered by their places
    have hplace : ∀ {y z : ℕ}, y / 2 ^ ρ = z / 2 ^ ρ → y < z → y % 2 ^ ρ < z % 2 ^ ρ := by
      intro y z hyz hlt
      have hy := Nat.div_add_mod y (2 ^ ρ)
      have hz := Nat.div_add_mod z (2 ^ ρ)
      rw [hyz] at hy
      omega
    have hlow' := hplace hline.symm hlow
    have hhigh' := hplace hxline.symm hhigh
    simp only [mix_place hρ] at hlow' hhigh'
    obtain ⟨l, hil, hlj, hl⟩ := exists_add_mod_eq hij (Nat.mod_lt x hR) hlow' hhigh'
    have hlq : l / 2 ^ ρ = i / 2 ^ ρ :=
      le_antisymm (hq ▸ Nat.div_le_div_right hlj.le) (Nat.div_le_div_right hil.le)
    refine ⟨l, hil, hlj, ?_⟩
    rw [← Nat.div_add_mod x (2 ^ ρ), hxline, ← hl,
      ← Nat.div_add_mod (mix (2 ^ ρ) f B t l % 2 ^ n) (2 ^ ρ), mix_line hρ, mix_line hρ,
      mix_place hρ, hlq]
  · rw [mix_mod_of_le f B t hρ hi, mix_mod_of_le f B t hρ hj, Nat.add_comm, Nat.add_comm i] at hlow
    rw [mix_mod_of_le f B t hρ hi, Nat.add_comm] at hhigh
    obtain ⟨l, hil, hlj, hl⟩ := exists_add_mod_eq hij hx hlow hhigh
    exact ⟨l, hil, hlj, by rw [mix_mod_of_le f B t hρ (hlj.trans hj), Nat.add_comm, hl]⟩

end Coverage
