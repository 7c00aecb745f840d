import Mathlib.Data.List.Basic

/-! # Visiting a list with a predicate that may throw

`sweep pred f l` calls the predicate for one element after the other and applies `f` to those for
which it returns true.  The predicate may depend on the number of the call, and `none` means that it
throws; the state of that moment is what is left. -/

namespace Nvhm

namespace Sweep
variable {α σ : Type}

/-- The loop, from call number `k` on. -/
def sweep (pred : ℕ → α → Option Bool) (f : σ → α → σ) : List α → ℕ → σ → Except σ (ℕ × σ)
  | [], k, s => .ok (k, s)
  | a :: l, k, s =>
      match pred k a with
      | none => .error s
      | some b => sweep pred f l (k + 1) (if b then f s a else s)

/-- The elements for which the first `n` calls from number `k` on return true. -/
def taken (pred : ℕ → α → Option Bool) (k : ℕ) : List α → ℕ → List α
  | a :: l, n + 1 =>
      if pred k a = some true then a :: taken pred (k + 1) l n else taken pred (k + 1) l n
  | _, _ => []

/-- The predicate returns in the first `n` calls from number `k` on, and throws in the next one. -/
structure ThrowsAt (pred : ℕ → α → Option Bool) (k : ℕ) (l : List α) (n : ℕ) : Prop where
  returns : ∀ i < n, ∀ a, l[i]? = some a → pred (k + i) a ≠ none
  throws : ∃ a, l[n]? = some a ∧ pred (k + n) a = none

variable {pred : ℕ → α → Option Bool} {f : σ → α → σ}

theorem ThrowsAt.tail {k n : ℕ} {a : α} {l : List α} (h : ThrowsAt pred k (a :: l) (n + 1)) :
    ThrowsAt pred (k + 1) l n where
  returns i hi x hx := by
    rw [Nat.add_right_comm, Nat.add_assoc]
    exact h.returns (i + 1) (Nat.succ_lt_succ hi) x hx
  throws := by
    obtain ⟨x, hx, ht⟩ := h.throws
    refine ⟨x, hx, ?_⟩
    rw [Nat.add_right_comm, Nat.add_assoc]
    exact ht

/-- What a throw leaves. -/
theorem sweep_throws : ∀ {n k : ℕ} {l : List α} {s : σ}, ThrowsAt pred k l n →
    sweep pred f l k s = .error ((taken pred k l n).foldl f s)
  | _, _, [], _, h => by
      obtain ⟨_, hx, -⟩ := h.throws
      cases hx
  | 0, k, a :: l, s, h => by
      obtain ⟨x, hx, ht⟩ := h.throws
      obtain rfl : a = x := Option.some.inj hx
      rw [Nat.add_zero] at ht
      rw [sweep, ht]
      rfl
  | n + 1, k, a :: l, s, h => by
      rw [sweep, taken]
      cases hp : pred k a with
      | none => exact absurd hp (h.returns 0 (Nat.succ_pos n) a rfl)
      | some b =>
          cases b with
          | true => exact sweep_throws h.tail
          | false => exact sweep_throws h.tail

/-- A predicate that does not throw. -/
theorem sweep_returns (p : α → Bool) : ∀ (l : List α) (k : ℕ) (s : σ),
    sweep (fun _ a => some (p a)) f l k s = .ok (k + l.length, (l.filter p).foldl f s)
  | [], _, _ => rfl
  | a :: l, k, s => by
      rw [sweep, List.filter_cons, List.length_cons]
      dsimp only
      rw [sweep_returns p l, Nat.add_right_comm, Nat.add_assoc]
      cases p a <;> rfl

theorem sweep_append (l l' : List α) (k : ℕ) (s : σ) :
    sweep pred f (l ++ l') k s = (do
      let r ← sweep pred f l k s
      sweep pred f l' r.1 r.2) := by
  induction l generalizing k s with
  | nil => rfl
  | cons a l ih =>
      rw [List.cons_append, sweep, sweep]
      cases pred k a with
      | none => rfl
      | some b => exact ih _ _

theorem sweep_congr {g : σ → α → σ} : ∀ (l : List α) (k : ℕ) (s : σ),
    (∀ a ∈ l, ∀ s, f s a = g s a) → sweep pred f l k s = sweep pred g l k s
  | [], _, _, _ => rfl
  | a :: l, k, s, h => by
      rw [sweep, sweep]
      cases pred k a with
      | none => rfl
      | some b =>
          dsimp only
          rw [h a List.mem_cons_self s]
          exact sweep_congr l _ _ fun x hx => h x (List.mem_cons_of_mem a hx)

theorem sweep_map {β : Type} (g : β → α) : ∀ (l : List β) (k : ℕ) (s : σ),
    sweep (fun k b => pred k (g b)) (fun s b => f s (g b)) l k s = sweep pred f (l.map g) k s
  | [], _, _ => rfl
  | b :: l, k, s => by
      rw [sweep, List.map_cons, sweep]
      cases pred k (g b) with
      | none => rfl
      | some c => exact sweep_map g l _ _

/-- What `f` keeps, the loop keeps. -/
theorem sweep_inv {I : σ → Prop} : ∀ (l : List α) {k : ℕ} {s : σ} {r : ℕ × σ},
    (∀ a ∈ l, ∀ s, I s → I (f s a)) → I s → sweep pred f l k s = .ok r → I r.2
  | [], k, s, r, _, hs, hr => by
      obtain rfl := Except.ok.inj hr
      exact hs
  | a :: l, k, s, r, h, hs, hr => by
      rw [sweep] at hr
      cases hp : pred k a with
      | none =>
          rw [hp] at hr
          cases hr
      | some b =>
          rw [hp] at hr
          refine sweep_inv l (fun x hx => h x (List.mem_cons_of_mem a hx)) ?_ hr
          cases b with
          | true => exact h a List.mem_cons_self s hs
          | false => exact hs

theorem taken_sublist (pred : ℕ → α → Option Bool) : ∀ (n k : ℕ) (l : List α),
    (taken pred k l n).Sublist l
  | 0, _, [] => List.Sublist.refl _
  | 0, _, _ :: _ => List.nil_sublist _
  | _ + 1, _, [] => List.Sublist.refl _
  | n + 1, k, a :: l => by
      rw [taken]
      split_ifs
      · exact (taken_sublist pred n (k + 1) l).cons_cons a
      · exact (taken_sublist pred n (k + 1) l).cons a

/-- Nothing was taken if the predicate returned false in all calls. -/
theorem taken_eq_nil : ∀ {n k : ℕ} {l : List α}, ThrowsAt pred k l n →
    (taken pred k l n = [] ↔ ∀ i < n, ∀ a, l[i]? = some a → pred (k + i) a = some false)
  | _, _, [], h => by
      obtain ⟨_, hx, -⟩ := h.throws
      cases hx
  | 0, k, a :: l, _ => by
      refine iff_of_true rfl fun i hi => ?_
      exact absurd hi (Nat.not_lt_zero i)
  | n + 1, k, a :: l, h => by
      have ih := taken_eq_nil h.tail
      have hret := h.returns 0 (Nat.succ_pos n) a rfl
      rw [Nat.add_zero] at hret
      rw [taken]
      constructor
      · intro hnil i hi x hx
        split_ifs at hnil with hp
        cases i with
        | zero =>
            obtain rfl : a = x := Option.some.inj hx
            rw [Nat.add_zero]
            cases hb : pred k a with
            | none => exact absurd hb hret
            | some b =>
                cases b with
                | true => exact absurd hb hp
                | false => rfl
        | succ i =>
            have := ih.mp hnil i (Nat.succ_lt_succ_iff.mp hi) x hx
            rwa [Nat.add_right_comm, Nat.add_assoc] at this
      · intro hall
        have hfirst := hall 0 (Nat.succ_pos n) a rfl
        rw [Nat.add_zero] at hfirst
        rw [if_neg (by rw [hfirst]; decide)]
        refine ih.mpr fun i hi x hx => ?_
        rw [Nat.add_right_comm, Nat.add_assoc]
        exact hall (i + 1) (Nat.succ_lt_succ hi) x hx

end Sweep

end Nvhm
