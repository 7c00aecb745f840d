import Mathlib.Algebra.Order.BigOperators.Group.Finset
import NvHashMap.Mutex

/-! # Mutual exclusion

`exec_change` says once what a step can do to the integer and to the holds.  From it follows the
invariant of the mutex (`Inv`): the integer is `-1` if there is one exclusive hold and no shared one,
else it is the number of shared holds.  It holds after every run (`inv_of_reachable`). -/

namespace Nvhm

namespace Mutex

variable {M : MutexType}

/-! ### What a step does -/

/-- What holds at a place: the holds that the call needs, and the values that were loaded. -/
def Thread.Ok (x : Thread) : Prop :=
  match x.pc with
  | .unlockStore | .downgradeExchange => 0 < x.excl
  | .unlockSharedSub | .tryUpgrade => 0 < x.shared
  | .sharedWeak _ s | .trySharedWeak s => 0 ≤ s
  | .lockWait s | .lockAsleep s => s ≠ 0
  | .sharedWait s | .sharedAsleep s => s < 0
  | _ => True

/-- The effects of a step, by the value that it finds and the value that it leaves. -/
inductive Change (M : MutexType) (x : Thread) (v : ℤ) : Effect → ℤ → Prop
  | none : Change M x v .none v
  | lock (hv : v = 0) : Change M x v .lock (-1)
  | unlock (hx : 0 < x.excl) : Change M x v .unlock 0
  | lockShared (hv : 0 ≤ v) : Change M x v .lockShared (wrap M (v + 1))
  | unlockShared (hx : 0 < x.shared) : Change M x v .unlockShared (wrap M (v - 1))
  | downgrade (hx : 0 < x.excl) : Change M x v .downgrade 1
  | upgrade (hx : 0 < x.shared) (hv : v = 1) : Change M x v .upgrade (-1)

theorem exec_change {x : Thread} (hx : x.Ok) {spurious : Bool} {v : ℤ} {o : Outcome}
    (ho : exec M spurious v x.pc = some o) : Change M x v o.effect o.value := by
  unfold Thread.Ok at hx
  cases hpc : x.pc with
  | outside r => rw [hpc] at ho; cases ho
  | lockAsleep s => rw [hpc] at ho; cases ho
  | sharedAsleep s => rw [hpc] at ho; cases ho
  | lockLoad i =>
      rw [hpc] at ho
      obtain rfl := Option.some.inj ho
      split_ifs <;> exact .none
  | lockWeak i =>
      rw [hpc] at ho
      obtain rfl := Option.some.inj ho
      split_ifs with h
      · exact .lock h.1
      · exact .none
  | lockStrong =>
      rw [hpc] at ho
      obtain rfl := Option.some.inj ho
      split_ifs with h
      · exact .lock h
      · exact .none
  | lockWait s =>
      rw [hpc] at ho
      obtain rfl := Option.some.inj ho
      exact .none
  | tryLock =>
      rw [hpc] at ho
      obtain rfl := Option.some.inj ho
      split_ifs with h
      · exact .lock h
      · exact .none
  | unlockStore =>
      rw [hpc] at ho hx
      obtain rfl := Option.some.inj ho
      exact .unlock hx
  | unlockNotify =>
      rw [hpc] at ho
      obtain rfl := Option.some.inj ho
      exact .none
  | downgradeExchange =>
      rw [hpc] at ho hx
      obtain rfl := Option.some.inj ho
      exact .downgrade hx
  | downgradeNotify =>
      rw [hpc] at ho
      obtain rfl := Option.some.inj ho
      exact .none
  | sharedLoad i =>
      rw [hpc] at ho
      obtain rfl := Option.some.inj ho
      split_ifs <;> exact .none
  | sharedWeak i s =>
      rw [hpc] at ho hx
      obtain rfl := Option.some.inj ho
      by_cases h : v = s ∧ spurious = false
      · rw [if_pos h, ← h.1]
        exact .lockShared (h.1 ▸ hx)
      · rw [if_neg h]
        exact .none
  | sharedWait s =>
      rw [hpc] at ho
      obtain rfl := Option.some.inj ho
      exact .none
  | trySharedLoad =>
      rw [hpc] at ho
      obtain rfl := Option.some.inj ho
      exact .none
  | trySharedWeak s =>
      rw [hpc] at ho hx
      obtain rfl := Option.some.inj ho
      by_cases h : v = s ∧ spurious = false
      · rw [if_pos h, ← h.1]
        exact .lockShared (h.1 ▸ hx)
      · rw [if_neg h]
        exact .none
  | unlockSharedSub =>
      rw [hpc] at ho hx
      obtain rfl := Option.some.inj ho
      exact .unlockShared hx
  | unlockSharedNotify =>
      rw [hpc] at ho
      obtain rfl := Option.some.inj ho
      exact .none
  | tryUpgrade =>
      rw [hpc] at ho hx
      obtain rfl := Option.some.inj ho
      split_ifs with h
      · exact .upgrade hx h
      · exact .none

/-- A step of a thread keeps what holds at its place. -/
theorem ok_thread {x : Thread} (hx : x.Ok) {spurious : Bool} {v : ℤ} {o : Outcome}
    (ho : exec M spurious v x.pc = some o) : (o.thread x).Ok := by
  have hpc : (o.thread x).pc = o.pc := by
    unfold Outcome.thread
    cases o.effect <;> rfl
  unfold Thread.Ok
  rw [hpc]
  unfold Thread.Ok at hx
  cases hx' : x.pc with
  | outside r => rw [hx'] at ho; cases ho
  | lockAsleep s => rw [hx'] at ho; cases ho
  | sharedAsleep s => rw [hx'] at ho; cases ho
  | lockWait s =>
      rw [hx'] at ho hx
      obtain rfl := Option.some.inj ho
      dsimp only [Outcome.goto]
      split_ifs
      · exact hx
      · exact trivial
  | sharedWait s =>
      rw [hx'] at ho hx
      obtain rfl := Option.some.inj ho
      dsimp only [Outcome.goto]
      split_ifs
      · exact hx
      · exact trivial
  | unlockNotify | downgradeNotify | unlockSharedNotify =>
      rw [hx'] at ho
      obtain rfl := Option.some.inj ho
      exact trivial
  | _ =>
      rw [hx'] at ho
      obtain rfl := Option.some.inj ho
      dsimp only [Outcome.goto]
      split_ifs <;> first | trivial | assumption | omega

theorem ok_wakeUp {x : Thread} (hx : x.Ok) : x.wakeUp.Ok := by
  unfold Thread.Ok Thread.wakeUp at *
  cases hpc : x.pc <;> rw [hpc] at hx <;> exact hx

/-! ### Counting the holds -/

section Threads
variable {ι : Type} [DecidableEq ι] [Fintype ι]

/-- A sum over the threads, after the update of one. -/
theorem sum_update (f : Thread → ℕ) (p : ι → Thread) (t : ι) (x : Thread) :
    ∑ t', f (Function.update p t x t') + f (p t) = ∑ t', f (p t') + f x := by
  rw [← Finset.add_sum_erase _ _ (Finset.mem_univ t), ← Finset.add_sum_erase _ (fun t' => f (p t'))
    (Finset.mem_univ t), Function.update_self]
  have hrest : ∑ t' ∈ Finset.univ.erase t, f (Function.update p t x t') =
      ∑ t' ∈ Finset.univ.erase t, f (p t') := by
    refine Finset.sum_congr rfl fun t' ht' => ?_
    rw [Function.update_of_ne (Finset.ne_of_mem_erase ht')]
  rw [hrest]
  omega

omit [Fintype ι] in
/-- A notification changes places only. -/
theorem Notified.thread {p p' : ι → Thread} {k : Wake} (h : Notified p p' k) (t : ι) :
    p' t = p t ∨ p' t = (p t).wakeUp := by
  cases k with
  | none => exact Or.inl (congrFun h t)
  | all => exact Or.inr (congrFun h t)
  | one =>
      rcases h with ⟨t', -, rfl⟩ | ⟨-, rfl⟩
      · by_cases heq : t = t'
        · subst heq
          exact Or.inr (Function.update_self ..)
        · exact Or.inl (Function.update_of_ne heq ..)
      · exact Or.inl rfl

theorem Notified.sum {p p' : ι → Thread} {k : Wake} (h : Notified p p' k) {f : Thread → ℕ}
    (hf : ∀ x : Thread, f x.wakeUp = f x) : ∑ t, f (p' t) = ∑ t, f (p t) := by
  refine Finset.sum_congr rfl fun t _ => ?_
  rcases h.thread t with ht | ht <;> rw [ht]
  exact hf _

/-! ### Schedules -/

/-- A schedule that lets a thread run takes its next step. -/
theorem exec_of_take {s s' : State ι} {t : ι} {spurious : Bool} {wake : Option ι}
    (h : s.take M (.run t spurious wake) = some s') :
    ∃ o p, exec M spurious s.value (s.thread t).pc = some o ∧
      Notified (Function.update s.thread t (o.thread (s.thread t))) p o.wake ∧ s' = ⟨o.value, p⟩ := by
  obtain ⟨o, ho, h⟩ := Option.bind_eq_some_iff.mp h
  dsimp only at h
  refine (?_ : ∀ k, o.wake = k → _) o.wake rfl
  intro k hk
  rw [hk] at h
  cases k with
  | none =>
      obtain rfl := Option.some.inj h
      exact ⟨o, _, ho, by rw [hk]; rfl, rfl⟩
  | all =>
      obtain rfl := Option.some.inj h
      exact ⟨o, _, ho, by rw [hk]; rfl, rfl⟩
  | one =>
      cases wake with
      | none =>
          dsimp only at h
          split_ifs at h with hs
          obtain rfl := Option.some.inj h
          exact ⟨o, _, ho, by rw [hk]; exact Or.inr ⟨hs, rfl⟩, rfl⟩
      | some t' =>
          dsimp only at h
          split_ifs at h with hs
          obtain rfl := Option.some.inj h
          exact ⟨o, _, ho, by rw [hk]; exact Or.inl ⟨t', hs, rfl⟩, rfl⟩

theorem step_of_take {s s' : State ι} {c : Choice ι} (h : s.take M c = some s') : Step M s s' := by
  cases c with
  | call t c =>
      unfold State.take at h
      dsimp only at h
      split at h
      · next r hpc =>
          split_ifs at h with ha
          obtain rfl := Option.some.inj h
          exact .call t c hpc ha
      · cases h
  | run t spurious wake =>
      obtain ⟨o, p, ho, hn, rfl⟩ := exec_of_take h
      exact .run t ho hn

theorem reachable_of_follow {s s' : State ι} (hs : (runs M).Reachable s) :
    ∀ {cs : List (Choice ι)}, s.follow M cs = some s' → (runs M).Reachable s'
  | [], h => Option.some.inj h ▸ hs
  | c :: cs, h => by
      obtain ⟨s₁, hc, h⟩ := Option.bind_eq_some_iff.mp h
      split_ifs at h with hle
      exact reachable_of_follow (hs.next ⟨step_of_take hc, hle⟩) h

theorem reachable_start : (runs M).Reachable (State.start ι) :=
  .init ⟨rfl, fun _ => ⟨⟨true, rfl⟩, rfl, rfl⟩⟩

/-- The state that a schedule reaches. -/
theorem exists_follow (cs : List (Choice ι)) (p : State ι → Bool)
    (h : ((State.start ι).follow M cs).any p = true) : ∃ s, (runs M).Reachable s ∧ p s = true := by
  obtain ⟨s, hs, hp⟩ := (Option.any_eq_true p _).mp h
  exact ⟨s, reachable_of_follow reachable_start hs, hp⟩

/-! ### The invariant -/

/-- One exclusive hold and no other, or as many shared holds as the integer says. -/
def Counts (s : State ι) : Prop :=
  (s.value = -1 ∧ s.numExcl = 1 ∧ s.numShared = 0) ∨ (s.value = s.numShared ∧ s.numExcl = 0)

structure Inv (M : MutexType) (s : State ι) : Prop where
  ok : ∀ t, (s.thread t).Ok
  counts : Counts s
  le : s.numShared ≤ maxNumReaders M

omit [DecidableEq ι] in
theorem excl_le (s : State ι) (t : ι) : (s.thread t).excl ≤ s.numExcl :=
  Finset.single_le_sum (f := fun t => (s.thread t).excl) (fun _ _ => Nat.zero_le _)
    (Finset.mem_univ t)

omit [DecidableEq ι] in
theorem shared_le (s : State ι) (t : ι) : (s.thread t).shared ≤ s.numShared :=
  Finset.single_le_sum (f := fun t => (s.thread t).shared) (fun _ _ => Nat.zero_le _)
    (Finset.mem_univ t)

omit [Fintype ι] [DecidableEq ι] in
/-- The numbers of readers do not overflow. -/
theorem wrap_eq {x : ℤ} (h0 : -1 ≤ x) (hx : x ≤ maxNumReaders M) : wrap M x = x := by
  have hbits : 2 ≤ M.bits := by
    rcases M.bits_mem with h | h | h | h <;> omega
  obtain ⟨n, hn⟩ : ∃ n, M.bits = n + 2 := ⟨M.bits - 2, by omega⟩
  have hpow' : 2 ^ (n + 1) = 2 * 2 ^ n := by rw [pow_succ, Nat.mul_comm]
  have hpow : 2 ^ (n + 2) = 4 * 2 ^ n := by
    rw [pow_succ, hpow']
    omega
  have hpos : 0 < 2 ^ n := Nat.two_pow_pos n
  unfold maxNumReaders at hx
  rw [hn, Nat.add_sub_cancel_right (n := n + 1) (m := 1), hpow'] at hx
  unfold wrap
  rw [BitVec.toInt_ofInt, hn, hpow]
  exact Int.bmod_eq_of_le (by omega) (by omega)

/-- The counts after a step of a thread. -/
theorem counts_run {s : State ι} (hc : Counts s) {t : ι} {o : Outcome} {p : ι → Thread}
    (hch : Change M (s.thread t) s.value o.effect o.value)
    (hn : Notified (Function.update s.thread t (o.thread (s.thread t))) p o.wake)
    (hle : State.numShared ⟨o.value, p⟩ ≤ maxNumReaders M) : Counts ⟨o.value, p⟩ := by
  have hexcl := sum_update Thread.excl s.thread t (o.thread (s.thread t))
  have hshared := sum_update Thread.shared s.thread t (o.thread (s.thread t))
  rw [← hn.sum fun _ => rfl] at hexcl hshared
  have he := excl_le s t
  have hs := shared_le s t
  unfold Counts State.numExcl State.numShared at *
  dsimp only at *
  unfold Outcome.thread at hexcl hshared
  generalize ∑ t, (p t).excl = e' at *
  generalize ∑ t, (p t).shared = n' at *
  generalize ∑ t, (s.thread t).excl = e at *
  generalize ∑ t, (s.thread t).shared = n at *
  generalize o.value = v' at *
  generalize o.effect = eff at *
  cases hch with
  | none => simp only [Effect.apply] at hexcl hshared; omega
  | lock hv => simp only [Effect.apply] at hexcl hshared; omega
  | unlock hx => simp only [Effect.apply] at hexcl hshared; omega
  | downgrade hx => simp only [Effect.apply] at hexcl hshared; omega
  | upgrade hx hv => simp only [Effect.apply] at hexcl hshared; omega
  | lockShared hv =>
      simp only [Effect.apply] at hexcl hshared
      rw [wrap_eq (by omega) (by omega)]
      omega
  | unlockShared hx =>
      simp only [Effect.apply] at hexcl hshared
      rw [wrap_eq (by omega) (by omega)]
      omega

theorem inv_step {s s' : State ι} (h : Inv M s) (hs : Step M s s')
    (hle : s'.numShared ≤ maxNumReaders M) : Inv M s' := by
  cases hs with
  | call t c hpc ha =>
      have hexcl := sum_update Thread.excl s.thread t { s.thread t with pc := c.entry }
      have hshared := sum_update Thread.shared s.thread t { s.thread t with pc := c.entry }
      refine ⟨fun t' => ?_, ?_, hle⟩
      · dsimp only
        by_cases heq : t' = t
        · subst heq
          rw [Function.update_self]
          cases c <;> exact ha
        · rw [Function.update_of_ne heq]
          exact h.ok t'
      · have hc := h.counts
        unfold Counts State.numExcl State.numShared at *
        dsimp only at *
        omega
  | @run t spurious o p ho hn =>
      refine ⟨fun t' => ?_, counts_run h.counts (exec_change (h.ok t) ho) hn hle, hle⟩
      have hok : (Function.update s.thread t (o.thread (s.thread t)) t').Ok := by
        by_cases heq : t' = t
        · subst heq
          rw [Function.update_self]
          exact ok_thread (h.ok t') ho
        · rw [Function.update_of_ne heq]
          exact h.ok t'
      change (p t').Ok
      rcases hn.thread t' with ht | ht <;> rw [ht]
      · exact hok
      · exact ok_wakeUp hok

/-- Every reachable state satisfies the invariant. -/
theorem inv_of_reachable {s : State ι} (h : (runs M).Reachable s) : Inv M s := by
  have hinit : ∀ s : State ι, (runs M).init s → Inv M s := by
    rintro s ⟨hv, ht⟩
    have hexcl : s.numExcl = 0 := Finset.sum_eq_zero fun t _ => (ht t).2.1
    have hshared : s.numShared = 0 := Finset.sum_eq_zero fun t _ => (ht t).2.2
    refine ⟨fun t => ?_, Or.inr ⟨by rw [hv, hshared]; rfl, hexcl⟩, by omega⟩
    obtain ⟨⟨r, hr⟩, -⟩ := ht t
    unfold Thread.Ok
    rw [hr]
    trivial
  exact h.invariant hinit fun s s' hi hn => inv_step hi hn.1 hn.2

end Threads

end Mutex

end Nvhm
