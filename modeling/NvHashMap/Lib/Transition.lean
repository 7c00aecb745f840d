import Mathlib.Init

/-! # Transition systems

A system is a set of initial states and a step relation.  A property that holds initially and that
every step keeps holds in every reachable state (`Reachable.invariant`).  A simulation carries the
reachable states of one system to those of another. -/

namespace Nvhm

universe u v

structure System (σ : Type u) where
  init : σ → Prop
  next : σ → σ → Prop

namespace System
variable {σ : Type u} {τ : Type v} {S : System σ} {S' : System τ}

inductive Reachable (S : System σ) : σ → Prop where
  | init {s : σ} (h : S.init s) : Reachable S s
  | next {s s' : σ} (h : Reachable S s) (hn : S.next s s') : Reachable S s'

/-- The rule for invariants. -/
theorem Reachable.invariant {I : σ → Prop} (hinit : ∀ s, S.init s → I s)
    (hnext : ∀ s s', I s → S.next s s' → I s') {s : σ} (h : S.Reachable s) : I s := by
  induction h with
  | init hi => exact hinit _ hi
  | next _ hn ih => exact hnext _ _ ih hn

/-- `R` relates the runs of `S` to runs of `S'`. -/
structure Simulation (S : System σ) (S' : System τ) (R : σ → τ → Prop) : Prop where
  init : ∀ s, S.init s → ∃ t, S'.init t ∧ R s t
  next : ∀ s s' t, R s t → S.next s s' → ∃ t', S'.next t t' ∧ R s' t'

theorem Simulation.reachable {R : σ → τ → Prop} (hR : Simulation S S' R) {s : σ}
    (h : S.Reachable s) : ∃ t, S'.Reachable t ∧ R s t := by
  induction h with
  | init hi =>
      obtain ⟨t, ht, hst⟩ := hR.init _ hi
      exact ⟨t, .init ht, hst⟩
  | next _ hn ih =>
      obtain ⟨t, ht, hst⟩ := ih
      obtain ⟨t', hn', hst'⟩ := hR.next _ _ t hst hn
      exact ⟨t', .next ht hn', hst'⟩

end System

end Nvhm
