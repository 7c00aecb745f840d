import NvHashMap.Map.Change

/-! # Capacities

What `shrink_target_` and `resize_` choose.

* The loop of `shrink_target_` asks `should_shrink` with the candidate as the capacity but with the
  counters of the table, from which `should_shrink` derives a size that is too small after the
  first step.  So the loop runs down to its lower bound once it has begun (`shrinkTarget_eq`).
* The lower bound of `resize_` reserves exactly the growth threshold above the entries, and a table
  is full when it has no more empty slots than that (`resize_full_iff`). -/

namespace Nvhm

open Buffer SlotCount

variable {κ ν : Type} {T : MapType κ} [Inhabited κ] [Inhabited ν]

/-! ### Halving -/

/-- `r` is the first number without `p` when `e` is halved again and again. -/
inductive HalvesTo (p : ℕ → Prop) : ℕ → ℕ → Prop where
  | stop {e : ℕ} (h : ¬ p e) : HalvesTo p e e
  | half {e r : ℕ} (h : p e) (hr : HalvesTo p (e / 2) r) : HalvesTo p e r

theorem pow_succ_half (a : ℕ) : 2 ^ (a + 1) / 2 = 2 ^ a := by
  rw [pow_succ]
  exact Nat.mul_div_cancel _ two_pos

section Halving
variable {s : ℤ} {b : ℕ}

/-- Down to `2 ^ b`, if the bound on `e` admits all candidates above. -/
theorem halvesTo_pow (hs : s ≤ 2 ^ (b + 1)) : ∀ d : ℕ,
    HalvesTo (fun e : ℕ => 2 ^ b < e ∧ s ≤ e) (2 ^ (b + d)) (2 ^ b)
  | 0 => .stop fun hc => lt_irrefl _ hc.1
  | d + 1 => by
      have hle : 2 ^ (b + 1) ≤ 2 ^ (b + (d + 1)) :=
        Nat.pow_le_pow_right two_pos (by omega)
      refine .half ⟨?_, ?_⟩ ?_
      · exact Nat.pow_lt_pow_right (by decide) (by omega)
      · have hcast : ((2 ^ (b + 1) : ℕ) : ℤ) ≤ ((2 ^ (b + (d + 1)) : ℕ) : ℤ) := by exact_mod_cast hle
        push_cast at hcast ⊢
        exact hs.trans hcast
      · rw [← Nat.add_assoc, pow_succ_half]
        exact halvesTo_pow hs d

/-- If the halving ends at `2 ^ b`, the last candidate above it was admitted. -/
theorem le_of_halvesTo : ∀ {d e : ℕ}, e = 2 ^ (b + d + 1) →
    HalvesTo (fun e : ℕ => 2 ^ b < e ∧ s ≤ e) e (2 ^ b) → s ≤ 2 ^ (b + 1)
  | d, e, he, h => by
      have hne : 2 ^ b ≠ 2 ^ (b + d + 1) := fun hc => by
        have := Nat.pow_right_injective le_rfl hc
        omega
      cases h with
      | stop _ => exact absurd he hne
      | half hp hr =>
          cases d with
          | zero =>
              have := hp.2
              rw [he] at this
              exact_mod_cast this
          | succ d => exact le_of_halvesTo (d := d) (by rw [he]; exact pow_succ_half _) hr

end Halving

/-! ### The lower bound of `resize_` -/

open PowTwo (ceilPow ceilPow_isPow ceilPow_two_pow le_ceilPow ceilPow_le ceilPow_pos)

/-- The capacity that `resize_` aims at, for `s` entries, the minimum `c` and the request `e`. -/
def clampTo (s c e g : ℕ) : ℕ := max (max e c) (ceilPow (s + max (ceilPow s) c / g))

/-- A table of that capacity would have no more empty slots than its threshold. -/
def Tightly (s c e g : ℕ) : Prop :=
  (c ≤ ceilPow s ∧ e ≤ ceilPow s ∧ s + ceilPow s / g = ceilPow s) ∨
    (g = 2 ∧ s = ceilPow s ∧ c ≤ 2 * s ∧ e ≤ 2 * s)

theorem two_mul_le_of_pow_lt {a b : ℕ} (h : 2 ^ a < 2 ^ b) : 2 * 2 ^ a ≤ 2 ^ b := by
  rw [← pow_succ']
  exact Nat.pow_le_pow_right two_pos ((Nat.pow_lt_pow_iff_right (by decide)).mp h)

section Clamp
variable {s c e g : ℕ} (hg : 2 ≤ g) (hc : 2 ≤ c)
include hg hc

omit hg hc in
theorem clampTo_first (h1 : c ≤ ceilPow s) (h2 : e ≤ ceilPow s)
    (h3 : s + ceilPow s / g = ceilPow s) : clampTo s c e g = ceilPow s := by
  obtain ⟨b, hb⟩ := ceilPow_isPow s
  rw [clampTo, Nat.max_eq_left h1, h3, hb, ceilPow_two_pow]
  omega

omit hg in
theorem clampTo_second (h2 : s = ceilPow s) (h3 : c ≤ 2 * s)
    (h4 : e ≤ 2 * s) : clampTo s c e 2 = 2 * s := by
  obtain ⟨b, hb⟩ := ceilPow_isPow s
  rw [clampTo, ← h2]
  have hsb : s = 2 ^ b := h2.trans hb
  obtain ⟨z, hz⟩ := ceilPow_isPow (s + max s c / 2)
  have hle : ceilPow (s + max s c / 2) ≤ 2 * s := by
    rw [hsb, ← pow_succ']
    refine ceilPow_le ?_
    rw [pow_succ', ← hsb]
    omega
  have hge : 2 * s ≤ ceilPow (s + max s c / 2) := by
    have hlt := le_ceilPow (s + max s c / 2)
    rw [hz, hsb]
    refine two_mul_le_of_pow_lt ?_
    rw [← hz, ← hsb]
    omega
  omega

/-- A table is full at once exactly when it has the capacity that is aimed at, and this is tight. -/
theorem full_iff {n y : ℕ} (hn : n = 2 ^ y) (hs : s < n) (hle : clampTo s c e g ≤ n) :
    n ≤ s + n / g ↔ n = clampTo s c e g ∧ Tightly s c e g := by
  obtain ⟨b, hb⟩ := ceilPow_isPow s
  have hsb := le_ceilPow s
  constructor
  · intro hfull
    have hbn : ceilPow s ≤ n := by
      rw [hn]
      exact ceilPow_le (by omega)
    have hhalf : n / g ≤ n / 2 := Nat.div_le_div_left hg two_pos
    have hceil := le_ceilPow (s + max (ceilPow s) c / g)
    rcases hbn.eq_or_lt with heq | hlt
    · -- the entries and the threshold fit exactly
      have hc' : c ≤ ceilPow s := by
        rw [heq]
        unfold clampTo at hle
        omega
      have he' : e ≤ ceilPow s := by
        rw [heq]
        unfold clampTo at hle
        omega
      have hsum : s + ceilPow s / g = ceilPow s := by
        unfold clampTo at hle
        rw [Nat.max_eq_left hc'] at hle hceil
        rw [← heq] at hfull hle
        omega
      exact ⟨by rw [clampTo_first hc' he' hsum, heq], Or.inl ⟨hc', he', hsum⟩⟩
    · -- twice as many slots as entries, half of which must stay empty
      rw [hb, hn] at hlt
      have htwo := two_mul_le_of_pow_lt hlt
      rw [← hb, ← hn] at htwo
      have hsc : s = ceilPow s := by omega
      have hn2 : n = 2 * s := by omega
      have hg2 : g = 2 := by
        have hpos : 0 < s := by
          rw [hsc]
          exact ceilPow_pos s
        have hdiv : g * (n / g) ≤ n := Nat.mul_div_le n g
        have hmul : g * s ≤ g * (n / g) := Nat.mul_le_mul_left g (by omega)
        have : g * s ≤ 2 * s := by omega
        have := Nat.le_of_mul_le_mul_right this hpos
        omega
      subst hg2
      have hc' : c ≤ 2 * s := by
        unfold clampTo at hle
        omega
      have he' : e ≤ 2 * s := by
        unfold clampTo at hle
        omega
      exact ⟨by rw [clampTo_second hc hsc hc' he', hn2], Or.inr ⟨rfl, hsc, hc', he'⟩⟩
  · rintro ⟨hn', ⟨hc', he', hsum⟩ | ⟨rfl, hsc, hc', he'⟩⟩
    · rw [clampTo_first hc' he' hsum] at hn'
      rw [hn', hsum]
    · rw [clampTo_second hc hsc hc' he'] at hn'
      omega

end Clamp
namespace Map

/-! ### `shrink_target_` -/

section Shrink
variable {m : Map T ν}

omit [Inhabited κ] [Inhabited ν] in
/-- Below its capacity the loop of `shrink_target_` does not stop before the lower bound. -/
theorem shrinkTargetLoop_below {b : ℕ} (hmin : m.conf.minCapacity ≤ 2 ^ b)
    (hsmall : 2 * m.size ≤ m.capacity) : ∀ {n d : ℕ}, d ≤ n → 2 * 2 ^ (b + d) ≤ m.capacity →
      shrinkTargetLoop m (2 ^ b) n (2 ^ (b + d)) = 2 ^ b
  | 0, d, hd, _ => by
      obtain rfl : d = 0 := by omega
      rfl
  | n + 1, 0, _, _ => by
      rw [shrinkTargetLoop, Nat.add_zero, if_neg (lt_irrefl _)]
  | n + 1, d + 1, hd, hle => by
      have hlt : 2 ^ b < 2 ^ (b + (d + 1)) := Nat.pow_lt_pow_right (by decide) (by omega)
      have hshrink : m.conf.shouldShrink (2 ^ (b + (d + 1))) m.numEmpty m.numTombstone = true := by
        -- the size that `should_shrink` derives is not positive
        have hsize : ((2 ^ (b + (d + 1)) : ℕ) : ℤ) - (m.numEmpty + m.numTombstone) ≤ 0 := by
          rw [size, numNotHashSlots] at hsmall
          omega
        rw [Conf.shouldShrink, Bool.and_eq_true, decide_eq_true_eq, decide_eq_true_eq]
        refine ⟨lt_of_le_of_lt hmin hlt, ?_⟩
        exact (mul_nonpos_of_nonpos_of_nonneg hsize (Int.natCast_nonneg _)).trans
          (Int.natCast_nonneg _)
      rw [shrinkTargetLoop, if_pos hlt, if_pos hshrink, ← Nat.add_assoc, pow_succ_half]
      exact shrinkTargetLoop_below hmin hsmall (by omega) (by
        rw [← Nat.add_assoc, pow_succ] at hle
        omega)

/-- The lower bound of `shrink_target_`. -/
def minEnd (m : Map T ν) : ℕ := max (PowTwo.ceilPow m.size.toNat) m.conf.minCapacity

theorem minEnd_pow (h : Exact m) : ∃ b, m.minEnd = 2 ^ b := by
  have hle : m.size.toNat ≤ 2 ^ 62 := by
    have := h.card_entries_lt
    have := h.toShape.capacity_le
    rw [h.size_eq, Int.toNat_natCast]
    omega
  obtain ⟨b, -, hb⟩ := (isCapacity_ceilPow hle).max m.conf.min_isCapacity
  exact ⟨b, hb⟩

/-- `shrink_target_` stays at the capacity or goes down to its lower bound. -/
theorem shrinkTarget_eq (h : Exact m) : m.shrinkTarget = .ok
    (if m.minEnd < m.capacity ∧ m.size * m.conf.shrinkBias ≤ m.capacity then m.minEnd
      else m.capacity) := by
  have hlt := h.card_entries_lt
  have hcap := h.toShape.capacity_le
  have hsize := h.size_eq
  obtain ⟨b, hb⟩ := minEnd_pow h
  obtain ⟨a, ha, ha'⟩ := h.toShape.isCapacity
  have hmin : m.conf.minCapacity ≤ 2 ^ b := by
    rw [← hb]
    exact Nat.le_max_right _ _
  have hceil : bitCeil m.size = .ok (PowTwo.ceilPow m.size.toNat) := by
    rw [hsize, Int.toNat_natCast]
    exact bitCeil_eq (by omega)
  have hshrink : m.conf.shouldShrink m.capacity m.numEmpty m.numTombstone = true ↔
      m.conf.minCapacity < m.capacity ∧ m.size * m.conf.shrinkBias ≤ m.capacity := by
    rw [Conf.shouldShrink, Bool.and_eq_true, decide_eq_true_eq, decide_eq_true_eq]
    rfl
  rw [shrinkTarget, hceil, ok_bind]
  change Except.ok (shrinkTargetLoop m m.minEnd 64 m.capacity) = _
  rw [shrinkTargetLoop]
  by_cases hend : m.minEnd < m.capacity
  · have hless : m.conf.minCapacity < m.capacity := lt_of_le_of_lt (Nat.le_max_right _ _) hend
    by_cases hs : m.size * m.conf.shrinkBias ≤ m.capacity
    · rw [if_pos hend, if_pos (hshrink.mpr ⟨hless, hs⟩), if_pos ⟨hend, hs⟩]
      rw [hb, ha'] at hend
      have hba : b < a := (Nat.pow_lt_pow_iff_right (by decide)).mp hend
      obtain ⟨d, rfl⟩ : ∃ d, a = b + d + 1 := ⟨a - b - 1, by omega⟩
      have hbias := m.conf.shrinkBias_mem.1
      have hsmall : 2 * m.size ≤ m.capacity := by
        have : m.size * 2 ≤ m.size * m.conf.shrinkBias := by
          refine mul_le_mul_of_nonneg_left ?_ (by omega)
          exact_mod_cast (by omega : 2 ≤ m.conf.shrinkBias)
        omega
      congr 1
      rw [hb, ha', pow_succ_half]
      refine shrinkTargetLoop_below hmin hsmall (by omega) ?_
      rw [ha', pow_succ]
      omega
    · rw [if_pos hend, if_neg fun hc => hs (hshrink.mp hc).2, if_neg fun hc => hs hc.2]
  · rw [if_neg hend, if_neg fun hc => hend hc.1]

/-- The rule that the candidates of `shrink_target_` are to satisfy. -/
def ShrinkRule (m : Map T ν) (e : ℕ) : Prop :=
  m.minEnd < e ∧ m.size * m.conf.shrinkBias ≤ e

/-- `shrink_target_` applies the rule to the live size exactly when it may not shrink at all, or may
shrink down to its lower bound. -/
theorem shrinkTarget_halves_iff (h : Exact m) : ∃ r, m.shrinkTarget = .ok r ∧
    (HalvesTo m.ShrinkRule m.capacity r ↔ m.capacity ≤ m.minEnd ∨
      (m.capacity : ℤ) < m.size * m.conf.shrinkBias ∨
      m.size * m.conf.shrinkBias ≤ 2 * m.minEnd) := by
  refine ⟨_, shrinkTarget_eq h, ?_⟩
  obtain ⟨b, hb⟩ := minEnd_pow h
  obtain ⟨a, -, ha⟩ := h.toShape.isCapacity
  have hrule : m.ShrinkRule = fun e : ℕ => 2 ^ b < e ∧ m.size * m.conf.shrinkBias ≤ e := by
    rw [← hb]
    rfl
  split_ifs with hc
  · obtain ⟨hend, hs⟩ := hc
    rw [hb, ha] at hend
    have hba : b < a := (Nat.pow_lt_pow_iff_right (by decide)).mp hend
    obtain ⟨d, rfl⟩ : ∃ d, a = b + d + 1 := ⟨a - b - 1, by omega⟩
    have htwo : (2 * m.minEnd : ℤ) = 2 ^ (b + 1) := by
      rw [hb, pow_succ]
      push_cast
      ring
    rw [hrule, htwo, hb]
    constructor
    · exact fun hh => Or.inr (Or.inr (le_of_halvesTo ha hh))
    · rintro (hle | hlt | hle)
      · rw [ha] at hle
        omega
      · omega
      · rw [ha]
        exact halvesTo_pow hle (d + 1)
  · refine iff_of_true (.stop hc) ?_
    by_cases hend : m.minEnd < m.capacity
    · exact Or.inr (Or.inl (not_le.mp fun hs => hc ⟨hend, hs⟩))
    · exact Or.inl (not_lt.mp hend)

end Shrink

/-- `shrink_target_` in any reachable map. -/
theorem shrink_target_iff (B : Kernel T.kernelSize) (conf : Conf T.conf)
    {P : Map T ν → Op κ ν → Prop} {m : Map T ν} (hm : (runs B conf P).Reachable m) :
    ∃ r, m.shrinkTarget = .ok r ∧
      (HalvesTo m.ShrinkRule m.capacity r ↔ m.capacity ≤ m.minEnd ∨
        (m.capacity : ℤ) < m.size * m.conf.shrinkBias ∨
        m.size * m.conf.shrinkBias ≤ 2 * m.minEnd) :=
  shrinkTarget_halves_iff (exact_of_reachable B conf hm).1

/-- Five entries in 64 slots, of which at least four times as many are to be kept: the rule stops at
16 slots, the code goes down to 8. -/
theorem shrink_target_low : ∃ rs m,
    wordExec 1 false [.insert 0, .insert 1, .insert 2, .insert 3, .insert 4, .resize 64]
        = .ok (rs, m) ∧
      m.capacity = 64 ∧ m.size = 5 ∧ m.minEnd = 8 ∧ m.shrinkTarget = .ok 8 ∧
      ¬ HalvesTo m.ShrinkRule m.capacity 8 ∧ HalvesTo m.ShrinkRule m.capacity 16 := by
  obtain ⟨rs, m, hr, -, hf⟩ := exists_wordExec 1 false
    [.insert 0, .insert 1, .insert 2, .insert 3, .insert 4, .resize 64]
    (fun r => (r.2.capacity, r.2.size, r.2.minEnd, r.2.conf.shrinkBias, r.2.shrinkTarget))
    (64, 5, 8, 4, .ok 8) (by decide +kernel)
  simp only [Prod.mk.injEq] at hf
  obtain ⟨hcap, hsize, hmin, hbias, hshrink⟩ := hf
  have hrule : m.ShrinkRule = fun e : ℕ => 8 < e ∧ (5 * 4 : ℤ) ≤ e := by
    unfold ShrinkRule
    rw [hsize, hmin, hbias]
    rfl
  have h16 : HalvesTo m.ShrinkRule 64 16 := by
    rw [hrule]
    exact .half (by decide) (.half (by decide) (.stop (by decide)))
  refine ⟨rs, m, hr, hcap, hsize, hmin, hshrink, ?_, by rwa [hcap]⟩
  have hm := reachable_of_wordExec 1 false (by simp [Op.isScrub]) hr
  obtain ⟨r, hr', hiff⟩ := shrinkTarget_halves_iff (exact_of_reachable _ _ hm).1
  obtain rfl := Except.ok.inj (hshrink.symm.trans hr')
  rw [hiff, hcap, hmin, hsize, hbias]
  decide

/-- A table that is shrunk by the rule. -/
theorem shrink_target_words : ∃ rs m,
    wordExec 1 false [.insert 0, .insert 1, .insert 2, .insert 3, .resize 64] = .ok (rs, m) ∧
      m.capacity = 64 ∧ m.size = 4 ∧ ∃ r, m.shrinkTarget = .ok r ∧
      (HalvesTo m.ShrinkRule m.capacity r ↔ m.capacity ≤ m.minEnd ∨
        (m.capacity : ℤ) < m.size * m.conf.shrinkBias ∨
        m.size * m.conf.shrinkBias ≤ 2 * m.minEnd) := by
  obtain ⟨rs, m, hr, -, hf⟩ := exists_wordExec 1 false
    [.insert 0, .insert 1, .insert 2, .insert 3, .resize 64]
    (fun r => (r.2.capacity, r.2.size)) (64, 4) (by decide +kernel)
  obtain ⟨hcap, hsize⟩ := Prod.mk.inj hf
  exact ⟨rs, m, hr, hcap, hsize, shrink_target_iff _ _
    (reachable_of_wordExec 1 false (by simp [Op.isScrub]) hr)⟩


/-! ### `resize_` -/

section Resize
variable {m m' : Map T ν}

/-- What `resize_` gives after a sequence of calls, from a run with the ideal kernel. -/
theorem exists_resize (B : Kernel T.kernelSize) (conf : Conf T.conf) (ops : List (Op κ ν))
    {e : ℕ} (he : IsCapacity e) {α β : Type} (f : Map T ν → α) (g : ℕ × Map T ν → β) (a : α) (b : β)
    (h : (exec T ideal conf ops).map (fun r => (f r.2, (r.2.resize_ ideal e).map g))
      = .ok (a, .ok b)) :
    ∃ rs m q, exec T B.ops conf ops = .ok (rs, m) ∧ m.resize_ B.ops e = .ok q ∧ f m = a ∧
      g q = b := by
  obtain ⟨rs, m, hr, hs, hf⟩ := exists_exec B conf ops _ _ h
  obtain ⟨hfm, hg⟩ := Prod.mk.inj hf
  have hagree := (resize_agree B.lawful hs (Or.inr he)).1
  cases hq : m.resize_ ideal e with
  | error e =>
      rw [hq] at hg
      cases hg
  | ok q =>
      rw [hq] at hg
      exact ⟨rs, m, q, hr, hagree.trans hq, hfm, Except.ok.inj hg⟩

/-- What `resize_` leaves, in any map with sound chains. -/
theorem resize_valid (h : Valid m) {end_ n : ℕ}
    (hend : end_ ≤ m.conf.minCapacity ∨ IsCapacity end_)
    (hr : m.resize_ ideal end_ = .ok (n, m')) :
    Valid m' ∧ m'.entries = m.entries ∧ m'.conf = m.conf ∧ m'.capacity = n ∧
      (n ≠ m.capacity → m'.numTombstone = 0) := by
  have hv : Valid m' := (Change.resize (P := fun _ => False) hend hr).valid (fun hc => hc.elim) h
  rcases resize_cases h.exact hend with ⟨he, -⟩ | ⟨n', m'', hr', -, -, hc⟩
  · cases he.symm.trans hr
  · obtain ⟨rfl, rfl⟩ := Prod.mk.inj (Except.ok.inj (hr.symm.trans hr'))
    rcases hc with ⟨hn, rfl⟩ | ⟨hb, -⟩
    · exact ⟨hv, rfl, rfl, hn.symm, fun hne => absurd hn hne⟩
    · exact ⟨hv, hb.entries_eq, hb.conf_eq, hb.capacity_eq, fun _ => hb.numTombstone_eq⟩

omit [Inhabited κ] [Inhabited ν] in
/-- A bounded sequence goes on as long as it is shorter than its bound. -/
theorem lt_of_hasNext {key : κ} {j L : ℕ} (h : (seqAt T key j).hasNext T.seq = true)
    (hL : T.seq.maxLength = some L) : T.kernelSize * j < L := by
  rw [ProbeSeq.hasNext, hL, seqAt_psl] at h
  exact of_decide_eq_true h

end Resize

/-- `resize_` keeps the multiset of entries, with duplicates and for bounded sequences, however many
capacities it tries.  The entries are within the length of their sequences, and there is no empty
slot before them. -/
theorem resize_keeps (B : Kernel T.kernelSize) (conf : Conf T.conf) {m : Map T ν}
    (hm : (runs B conf (NoScrub B)).Reachable m) {end_ n : ℕ} {m' : Map T ν}
    (hend : IsCapacity end_) (hr : m.resize_ B.ops end_ = .ok (n, m')) :
    m'.entries = m.entries ∧ m'.capacity = n ∧
      (n ≠ m.capacity → m'.numTombstone = 0 ∧ (∀ p < n, m'.stateAt p ≠ tombstone) ∧
        m'.numEmpty = n - m.size) ∧
      IsCapacity n ∧ m.conf.minCapacity ≤ n ∧ m.size + 1 ≤ n ∧
      ∀ pos, m'.Occupied pos → ∃ j < m'.numBuckets, m'.visit (m'.keyAt pos) j = T.off pos ∧
        (∀ L, T.seq.maxLength = some L → T.kernelSize * j < L) ∧
        ∀ i < j, ¬ m'.HasEmpty (m'.visit (m'.keyAt pos) i) := by
  obtain ⟨hv, -⟩ := valid_of_reachable B conf (fun _ _ _ => NoScrub.scrubsSafe B) hm
  rw [(resize_agree B.lawful hv.toSound (Or.inr hend)).1] at hr
  obtain ⟨hv', hentries, hconf, hcap, htomb⟩ := resize_valid hv (Or.inr hend) hr
  have hsize : m'.size = m.size := by
    rw [hv'.exact.size_eq, hv.exact.size_eq, hentries]
  have hpos := hv'.numEmpty_pos
  have hsum : m'.size = m'.capacity - (m'.numEmpty + m'.numTombstone) := rfl
  have htomb_nonneg := hv'.numTombstone_eq
  rw [hcap] at hsum
  refine ⟨hentries, hcap, fun hne => ⟨htomb hne, fun p hp => ?_, ?_⟩, ?_, ?_, ?_, fun pos hp => ?_⟩
  · have hz := hv'.numTombstone_eq
    rw [htomb hne, eq_comm, Int.natCast_eq_zero, countSlots_eq_zero, hcap] at hz
    simpa using hz p hp
  · have := htomb hne
    omega
  · rw [← hcap]
    exact hv'.toShape.isCapacity
  · rw [← hconf, ← hcap]
    exact hv'.minCapacity_le
  · omega
  · obtain ⟨j, hj, hvisit, hnext, hfull⟩ := hv'.near pos hp
    exact ⟨j, hj, hvisit, fun L hL => lt_of_hasNext hnext hL, hfull⟩

/-- Two keys whose sequences are one slot long, that collide in 8 slots: the request for 8 slots is
tried, and 16 slots are taken. -/
theorem resize_keeps_words : ∃ rs m m', shortExec true [.insert 0, .insert 8, .grow] = .ok (rs, m) ∧
      m.capacity = 32 ∧ m.resize_ (wordKernel 0 true).ops 8 = .ok (16, m') ∧
      m'.entries = m.entries ∧ m'.capacity = 16 ∧ m'.numTombstone = 0 := by
  obtain ⟨rs, m, q, hr, hq, hcap, hn⟩ := exists_resize (T := shortMap true)
    (wordKernel 0 true) (wordConf 0 true) [.insert 0, .insert 8, .grow]
    (⟨3, by decide, rfl⟩ : IsCapacity 8) (fun m : Map (shortMap true) ℕ => m.capacity) Prod.fst 32
    16 (by decide +kernel)
  have hq' : m.resize_ (wordKernel 0 true).ops 8 = .ok (16, q.2) := by rw [hq, ← hn]
  obtain ⟨hentries, hcap', hne, -⟩ := resize_keeps (T := shortMap true) _ (wordConf 0 true)
    (reachable_of_exec _ _ (noScrub_of_isScrub _ rfl (by simp [Op.isScrub])) hr)
    (⟨3, by decide, rfl⟩ : IsCapacity 8) hq'
  rw [hcap] at hne
  exact ⟨rs, m, q.2, hr, hcap, hq', hentries, hcap', (hne (by decide)).1⟩

/-! ### Full after a resize -/

section Full
variable {m m' : Map T ν}

/-- All entries find a slot in a table of `n` slots. -/
def Fits (B : BucketOps) (m : Map T ν) (n : ℕ) : Prop :=
  ∃ m₁, reinsertAll B m (m.positions B) (m.alloc n).reset = .ok (some m₁)

/-- The capacity that `resize_` aims at. -/
def clamped (m : Map T ν) (end_ : ℕ) : ℕ :=
  clampTo m.size.toNat m.conf.minCapacity end_ m.conf.growBias

/-- This capacity leaves no room above the growth threshold. -/
def FillsUp (m : Map T ν) (end_ : ℕ) : Prop :=
  Tightly m.size.toNat m.conf.minCapacity end_ m.conf.growBias

theorem resizeTarget_eq (h : Exact m) {end_ n : ℕ} (hr : m.resizeTarget end_ = .ok n) :
    n = m.clamped end_ := by
  have hsize := h.size_eq
  unfold resizeTarget at hr
  obtain ⟨s, hs, hr⟩ := bind_eq_ok.mp hr
  obtain ⟨need, hneed, hr⟩ := bind_eq_ok.mp hr
  obtain rfl := Except.ok.inj hr
  obtain ⟨-, -, rfl⟩ := bitCeil_ok hs
  obtain ⟨-, -, rfl⟩ := bitCeil_ok hneed
  rw [clamped, hsize, Int.toNat_natCast, ← Nat.cast_add, Int.toNat_natCast, clampTo]
  congr 1
  split_ifs <;> omega

theorem Rebuilt.isFull_iff {n : ℕ} (h : Exact m) (hb : Rebuilt m m' n) :
    m'.isFull = true ↔ n ≤ m.size.toNat + n / m.conf.growBias := by
  have hmin := hb.exact.minCapacity_le
  have hlt := hb.exact.card_entries_lt
  rw [isFull, Conf.shouldGrowPrecalc, decide_eq_true_eq, hb.numEmpty_eq, hb.exact.growThreshold_eq,
    Conf.growThreshold, Nat.max_eq_left hmin, hb.capacity_eq, hb.conf_eq, h.size_eq,
    Int.toNat_natCast]
  rw [hb.entries_eq, hb.capacity_eq] at hlt
  omega

/-- The first capacity that `rehash` tries is the one it returns, if the entries fit. -/
theorem rehash_first (h : Exact m) {d t n : ℕ} {m₁ : Map T ν} (hcap : IsCapacity t)
    (hmin : m.conf.minCapacity ≤ t) (hroom : m.entries.card < t) (hd : 2 ^ 62 < t * 2 ^ (d + 1))
    (hr : rehash ideal m (d + 1) t = .ok (n, m₁)) : t ≤ n ∧ (n = t ↔ Fits ideal m t) := by
  rw [rehash] at hr
  obtain ⟨r, hr', hr⟩ := bind_eq_ok.mp hr
  cases r with
  | some m₂ =>
      obtain ⟨rfl, -⟩ := Prod.mk.inj (Except.ok.inj hr)
      exact ⟨le_rfl, iff_of_true rfl ⟨m₂, hr'⟩⟩
  | none =>
      dsimp only at hr
      split_ifs at hr
      obtain ⟨t', ht', hr⟩ := bind_eq_ok.mp hr
      have hcap' := isCapacity_shl1 hcap ht'
      obtain ⟨rfl, -⟩ := shl1_ok ht'
      have hnot : ¬ Fits ideal m t := by
        rintro ⟨m₂, hm₂⟩
        cases hr'.symm.trans hm₂
      rcases rehash_spec h.toSound d hcap'.1 (hmin.trans hcap'.2) (by omega)
        (by rwa [pow_succ' 2 d, ← mul_assoc, mul_comm t 2] at hd) with ⟨he, -⟩ | ⟨n', m₂, hr₂, hle, -⟩
      · cases he.symm.trans hr
      · obtain ⟨rfl, -⟩ := Prod.mk.inj (Except.ok.inj (hr₂.symm.trans hr))
        exact ⟨by omega, iff_of_false (by omega) hnot⟩

/-- After a change of the capacity the table is full exactly when the capacity that was aimed at
leaves no room above the threshold, and the entries fit in it. -/
theorem resize_isFull_iff (h : Exact m) {end_ n : ℕ}
    (hend : end_ ≤ m.conf.minCapacity ∨ IsCapacity end_)
    (hr : m.resize_ ideal end_ = .ok (n, m')) (hne : n ≠ m.capacity) :
    (m'.isFull = true ↔ m.FillsUp end_ ∧ Fits ideal m (m.clamped end_)) ∧
      IsCapacity (m.clamped end_) ∧ m.conf.minCapacity ≤ m.clamped end_ ∧
      m.entries.card < m.clamped end_ := by
  have hb : Rebuilt m m' n := by
    rcases resize_cases h hend with ⟨he, -⟩ | ⟨n', m'', hr', -, -, hc⟩
    · cases he.symm.trans hr
    · obtain ⟨rfl, rfl⟩ := Prod.mk.inj (Except.ok.inj (hr.symm.trans hr'))
      exact hc.resolve_left (fun hc => hne hc.1) |>.1
  have hroom := hb.exact.card_entries_lt
  rw [hb.entries_eq, hb.capacity_eq] at hroom
  unfold resize_ at hr
  obtain ⟨t, ht, hr⟩ := bind_eq_ok.mp hr
  obtain ⟨hcap, hmin⟩ := resizeTarget_isCapacity hend ht
  have hclamp := resizeTarget_eq h ht
  have hroomt : m.entries.card < t := by
    rcases resizeTarget_spec h hend with ⟨he, -⟩ | ⟨t', ht', -, -, -, hle⟩
    · cases he.symm.trans ht
    · obtain rfl := Except.ok.inj (ht'.symm.trans ht)
      have := Conf.growThreshold_pos h.conf_valid (ceilPow m.entries.card)
      omega
  have hfits : t ≤ n ∧ (n = t ↔ Fits ideal m t) := by
    split_ifs at hr with heq
    · obtain ⟨rfl, -⟩ := Prod.mk.inj (Except.ok.inj hr)
      exact absurd heq hne
    · obtain ⟨⟨n', m₁⟩, hre, hr⟩ := bind_eq_ok.mp hr
      obtain ⟨rfl, -⟩ := Prod.mk.inj (Except.ok.inj hr)
      exact rehash_first h hcap hmin hroomt (by omega) hre
  obtain ⟨y, -, hy⟩ := hb.exact.toShape.isCapacity
  rw [hb.capacity_eq] at hy
  have hsize : m.size.toNat < n := by
    rw [h.size_eq, Int.toNat_natCast]
    exact hroom
  have hgrow := m.conf.growBias_mem.1
  subst hclamp
  refine ⟨?_, hcap, hmin, hroomt⟩
  rw [hb.isFull_iff h, full_iff hgrow (hgrow.trans (Conf.growBias_le h.conf_valid)) hy hsize
    hfits.1]
  change n = m.clamped end_ ∧ m.FillsUp end_ ↔ _
  rw [hfits.2, and_comm]

theorem fits_eq {B : BucketOps} (hB : B.Lawful T.kernelSize) (h : Sound m) {n : ℕ}
    (hcap : IsCapacity n) (hmin : m.conf.minCapacity ≤ n) : Fits B m n ↔ Fits ideal m n := by
  rw [Fits, Fits, positions_eq hB h, (reinsertAll_agree hB h _ (h.good_alloc hcap hmin)
    fun p hp => (h.mem_positions.mp hp).1).1]

/-- With an unbounded sequence the entries fit in every larger table. -/
theorem fits_of_unbounded (hS : T.seq.isUnbounded = true) (h : Sound m) {n : ℕ}
    (hcap : IsCapacity n) (hmin : m.conf.minCapacity ≤ n) (hroom : m.entries.card < n) :
    Fits ideal m n := by
  obtain ⟨r, hr, hf⟩ := refill_spec h hcap hmin hroom
  cases r with
  | some m₁ => exact ⟨m₁, hr⟩
  | none => exact absurd hS (by rw [show T.seq.isUnbounded = false from hf]; decide)

/-- Growth leaves room. -/
theorem not_fillsUp_grow (h : Exact m) {end_ : ℕ} (hle : 2 * m.capacity ≤ end_) :
    ¬ m.FillsUp end_ := by
  have hlt := h.card_entries_lt
  have hsize : m.size.toNat = m.entries.card := by rw [h.size_eq, Int.toNat_natCast]
  obtain ⟨a, -, ha⟩ := h.toShape.isCapacity
  have hceil : ceilPow m.size.toNat ≤ m.capacity := by
    rw [ha]
    exact ceilPow_le (by omega)
  rintro (⟨-, he, -⟩ | ⟨-, -, -, he⟩) <;> omega

end Full

/-- A change of the capacity leaves room for the next insert unless the capacity that `resize_`
aims at has exactly the growth threshold left above the entries; growth always leaves room.  For an
unbounded sequence this is an equivalence.  For a bounded one the table is also not full if the
entries do not fit in that capacity.  The tables on which a call runs `resize_` are reached from its
map by elementary changes. -/
theorem resize_room_iff (B : Kernel T.kernelSize) (conf : Conf T.conf)
    {P : Map T ν → Op κ ν → Prop} {Q : Map T ν → Prop} {m m₁ m' : Map T ν}
    (hm : (runs B conf P).Reachable m) (hc : Changes Q m m₁) {end_ n : ℕ}
    (hend : end_ ≤ m₁.conf.minCapacity ∨ IsCapacity end_)
    (hr : m₁.resize_ B.ops end_ = .ok (n, m')) (hne : n ≠ m₁.capacity) :
    (T.seq.isUnbounded = true → (m'.isFull = false ↔ ¬ m₁.FillsUp end_)) ∧
      (¬ m₁.FillsUp end_ → m'.isFull = false) ∧
      (2 * m₁.capacity ≤ end_ → ¬ m₁.FillsUp end_) ∧
      (m'.isFull = false ↔ ¬ (m₁.FillsUp end_ ∧ Fits B.ops m₁ (m₁.clamped end_))) := by
  obtain ⟨h, -⟩ := hc.exact (exact_of_reachable B conf hm).1
  rw [(resize_agree B.lawful h.toSound hend).1] at hr
  obtain ⟨hfull, hcap, hmin, hroom⟩ := resize_isFull_iff h hend hr hne
  rw [← fits_eq B.lawful h.toSound hcap hmin] at hfull
  have hiff : m'.isFull = false ↔ ¬ (m₁.FillsUp end_ ∧ Fits B.ops m₁ (m₁.clamped end_)) := by
    rw [← hfull, Bool.not_eq_true]
  refine ⟨fun hS => hiff.trans (not_congr (and_iff_left ?_)),
    fun hnot => hiff.mpr fun hc => hnot hc.1, not_fillsUp_grow h, hiff⟩
  rw [fits_eq B.lawful h.toSound hcap hmin]
  exact fits_of_unbounded hS h.toSound hcap hmin hroom

/-- Seven entries and a threshold of one just fit in eight slots. -/
theorem resize_leaves_full : ∃ rs m m',
    wordExec 1 false [.insert 0, .insert 1, .insert 2, .insert 3, .insert 4, .insert 5, .insert 6,
        .grow] = .ok (rs, m) ∧
      m.capacity = 16 ∧ m.resize_ (wordKernel 1 false).ops 8 = .ok (8, m') ∧
      m'.isFull = true := by
  obtain ⟨rs, m, q, hr, hq, hcap, hfull⟩ := exists_resize (wordKernel 1 false) (wordConf 1 false)
    [.insert 0, .insert 1, .insert 2, .insert 3, .insert 4, .insert 5, .insert 6, .grow]
    (⟨3, by decide, rfl⟩ : IsCapacity 8) (fun m : Map (wordMap 1 false) ℕ => m.capacity)
    (fun q => (q.1, q.2.isFull)) 16 (8, true) (by decide +kernel)
  obtain ⟨hn, hfull⟩ := Prod.mk.inj hfull
  exact ⟨rs, m, q.2, hr, hcap, by rw [hq, ← hn], hfull⟩

/-- With six entries the next insert finds room. -/
theorem resize_room_words : ∃ rs m m',
    wordExec 1 false [.insert 0, .insert 1, .insert 2, .insert 3, .insert 4, .insert 5, .grow]
        = .ok (rs, m) ∧
      m.capacity = 16 ∧ m.resize_ (wordKernel 1 false).ops 8 = .ok (8, m') ∧
      m'.isFull = false ∧
      ¬ m.FillsUp 8 := by
  obtain ⟨rs, m, q, hr, hq, hcap, hfull⟩ := exists_resize (wordKernel 1 false) (wordConf 1 false)
    [.insert 0, .insert 1, .insert 2, .insert 3, .insert 4, .insert 5, .grow]
    (⟨3, by decide, rfl⟩ : IsCapacity 8) (fun m : Map (wordMap 1 false) ℕ => m.capacity)
    (fun q => (q.1, q.2.isFull)) 16 (8, false) (by decide +kernel)
  obtain ⟨hn, hfull⟩ := Prod.mk.inj hfull
  have hq' : m.resize_ (wordKernel 1 false).ops 8 = .ok (8, q.2) := by rw [hq, ← hn]
  refine ⟨rs, m, q.2, hr, hcap, hq', hfull, ?_⟩
  refine (resize_room_iff _ _ (reachable_of_wordExec 1 false (by simp [Op.isScrub]) hr)
    (.refl (r := Change fun _ => False)) (Or.inr ⟨3, by decide, rfl⟩) hq' ?_).1 rfl |>.mp hfull
  rw [hcap]
  decide

end Map

end Nvhm
