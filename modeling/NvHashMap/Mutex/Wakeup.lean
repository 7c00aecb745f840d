import NvHashMap.Mutex.Safety

/-! # No wake-up is lost

With `UseWait` a thread sleeps on the value that it last saw, readers and writers in one queue, and the
last reader wakes only one of them.  After every step that leaves the integer zero, whoever stepped is
still in its call, or nobody sleeps, or somebody was woken up (`awake_of_zero`).  A reader falls asleep
only on a negative value, and who makes it non-negative notifies all (`Announced`). -/

namespace Nvhm

namespace Mutex

variable {M : MutexType} {ι : Type} [DecidableEq ι] [Fintype ι]

/-! ### Places -/

/-- In a call, and not asleep. -/
def Pc.isAwake : Pc → Bool
  | .outside _ => false
  | pc => !pc.isAsleep

/-- Between the write of the integer and `notify_all`. -/
def Pc.notifiesAll : Pc → Bool
  | .unlockNotify => true
  | .downgradeNotify => true
  | _ => false

theorem isAsleep_wakeUp (pc : Pc) : pc.wakeUp.isAsleep = false := by
  cases pc <;> rfl

theorem isAwake_wakeUp {pc : Pc} (h : pc.isAsleep = true) : pc.wakeUp.isAwake = true := by
  cases pc <;> first | rfl | cases h

theorem isAwake_of_isAwake {pc : Pc} (h : pc.isAwake = true) : pc.wakeUp.isAwake = true := by
  cases pc <;> first | exact h | rfl

theorem isAwake_of_isAsleep {pc : Pc} (h : pc.isAsleep = true) : pc.isAwake = false := by
  cases pc <;> first | rfl | cases h

theorem notifiesAll_wakeUp {pc : Pc} (h : pc.notifiesAll = true) : pc.wakeUp.notifiesAll = true := by
  cases pc <;> exact h

theorem pc_thread (o : Outcome) (x : Thread) : (o.thread x).pc = o.pc := by
  unfold Outcome.thread
  cases o.effect <;> rfl

/-! ### A step that leaves the integer zero -/

/-- Who leaves its call while the integer is zero has woken up someone, or it is a new reader. -/
theorem awake_or_wakes (hw : M.useWait = true) {x : Thread} (hx : x.Ok) {v : ℤ}
    (hv : 0 < x.shared → 1 ≤ v ∧ v ≤ maxNumReaders M) {spurious : Bool} {o : Outcome}
    (ho : exec M spurious v x.pc = some o) (h0 : o.value = 0) :
    o.pc.isAwake = true ∨ o.wake ≠ .none ∨ o.effect = .lockShared := by
  unfold Thread.Ok at hx
  cases hpc : x.pc with
  | outside r => rw [hpc] at ho; cases ho
  | lockAsleep s => rw [hpc] at ho; cases ho
  | sharedAsleep s => rw [hpc] at ho; cases ho
  | lockLoad i =>
      rw [hpc] at ho
      obtain rfl := Option.some.inj ho
      left
      split_ifs <;> rfl
  | lockWeak i =>
      rw [hpc] at ho
      obtain rfl := Option.some.inj ho
      split_ifs at h0 ⊢ with h
      · cases h0
      · exact Or.inl rfl
  | lockStrong =>
      rw [hpc] at ho
      obtain rfl := Option.some.inj ho
      split_ifs at h0 ⊢ with h
      · cases h0
      · exact Or.inl rfl
  | lockWait s =>
      rw [hpc] at ho hx
      obtain rfl := Option.some.inj ho
      change v = 0 at h0
      rw [if_neg fun heq => hx (heq.symm.trans h0)]
      exact Or.inl rfl
  | tryLock =>
      rw [hpc] at ho
      obtain rfl := Option.some.inj ho
      split_ifs at h0 ⊢ with h
      · cases h0
      · exact absurd h0 h
  | unlockStore =>
      rw [hpc] at ho
      obtain rfl := Option.some.inj ho
      rw [if_pos hw]
      exact Or.inl rfl
  | unlockNotify | downgradeNotify | unlockSharedNotify =>
      rw [hpc] at ho
      obtain rfl := Option.some.inj ho
      exact Or.inr (Or.inl nofun)
  | downgradeExchange =>
      rw [hpc] at ho
      obtain rfl := Option.some.inj ho
      cases h0
  | sharedLoad i =>
      rw [hpc] at ho
      obtain rfl := Option.some.inj ho
      left
      split_ifs <;> rfl
  | sharedWeak i s =>
      rw [hpc] at ho
      obtain rfl := Option.some.inj ho
      by_cases h : v = s ∧ spurious = false
      · rw [if_pos h]
        exact Or.inr (Or.inr rfl)
      · rw [if_neg h]
        exact Or.inl rfl
  | sharedWait s =>
      rw [hpc] at ho hx
      obtain rfl := Option.some.inj ho
      change v = 0 at h0
      rw [if_neg fun heq => hx.ne (heq.symm.trans h0)]
      exact Or.inl rfl
  | trySharedLoad =>
      rw [hpc] at ho
      obtain rfl := Option.some.inj ho
      change v = 0 at h0
      rw [if_pos h0.ge]
      exact Or.inl rfl
  | trySharedWeak s =>
      rw [hpc] at ho
      obtain rfl := Option.some.inj ho
      by_cases h : v = s ∧ spurious = false
      · rw [if_pos h]
        exact Or.inr (Or.inr rfl)
      · rw [if_neg h] at h0 ⊢
        change v = 0 at h0
        rw [if_pos h0.ge]
        exact Or.inl rfl
  | unlockSharedSub =>
      rw [hpc] at ho hx
      obtain rfl := Option.some.inj ho
      obtain ⟨h1, hle⟩ := hv hx
      change wrap M (v - 1) = 0 at h0
      rw [wrap_eq (by omega) (by omega)] at h0
      rw [if_pos ⟨hw, by omega⟩]
      exact Or.inl rfl
  | tryUpgrade =>
      rw [hpc] at ho hx
      obtain rfl := Option.some.inj ho
      obtain ⟨h1, -⟩ := hv hx
      split_ifs at h0 ⊢ with h
      · cases h0
      · change v = 0 at h0
        omega

/-- While the integer is zero and someone sleeps, someone is awake in a call. -/
def Attended (s : State ι) : Prop :=
  s.value = 0 → (∃ t, (s.thread t).pc.isAsleep = true) → ∃ t, (s.thread t).pc.isAwake = true

omit [Fintype ι] in
/-- Whoever was awake stays awake when others are notified. -/
theorem Notified.isAwake {p p' : ι → Thread} {k : Wake} (h : Notified p p' k) {t : ι}
    (ht : (p t).pc.isAwake = true) : (p' t).pc.isAwake = true := by
  rcases h.thread t with heq | heq <;> rw [heq]
  · exact ht
  · exact isAwake_of_isAwake ht

omit [Fintype ι] in
/-- Of sleepers, one that is notified is awake, or none is left. -/
theorem Notified.attended {p p' : ι → Thread} {k : Wake} (h : Notified p p' k) (hk : k ≠ .none)
    (hs : ∃ t, (p' t).pc.isAsleep = true) : ∃ t, (p' t).pc.isAwake = true := by
  obtain ⟨t, ht⟩ := hs
  cases k with
  | none => exact absurd rfl hk
  | all =>
      rw [show p' t = (p t).wakeUp from congrFun h t] at ht
      exact absurd ht (by rw [Thread.wakeUp, isAsleep_wakeUp]; decide)
  | one =>
      rcases h with ⟨t', hs', rfl⟩ | ⟨hnone, rfl⟩
      · refine ⟨t', ?_⟩
        rw [Function.update_self]
        exact isAwake_wakeUp hs'
      · exact absurd ht (by rw [hnone t]; decide)

theorem attended_step (hw : M.useWait = true) {s s' : State ι} (h : Inv M s) (hs : Step M s s')
    (hle : s'.numShared ≤ maxNumReaders M) : Attended s' := by
  have h' := inv_step h hs hle
  intro h0 hasleep
  cases hs with
  | call t c hpc ha =>
      refine ⟨t, ?_⟩
      dsimp only
      rw [Function.update_self]
      cases c <;> rfl
  | @run t spurious o p ho hn =>
      have hv : 0 < (s.thread t).shared → 1 ≤ s.value ∧ s.value ≤ maxNumReaders M := by
        intro hx
        have hsh := shared_le s t
        have hc := h.counts
        have hb := h.le
        unfold Counts at hc
        omega
      rcases awake_or_wakes hw (h.ok t) hv ho h0 with hawake | hwakes | heff
      · refine ⟨t, hn.isAwake ?_⟩
        rw [Function.update_self, pc_thread]
        exact hawake
      · exact hn.attended hwakes hasleep
      · -- a new reader leaves a positive number
        exfalso
        have hsum := hn.sum (f := Thread.shared) fun _ => rfl
        have hupd := sum_update Thread.shared s.thread t (o.thread (s.thread t))
        have hthread : (o.thread (s.thread t)).shared = (s.thread t).shared + 1 := by
          unfold Outcome.thread
          rw [heff]
          rfl
        have hsh := shared_le s t
        have hc := h'.counts
        unfold Counts State.numShared at hc
        unfold State.numShared at hsh
        dsimp only at hc h0
        omega

/-! ### Readers that sleep -/

/-- A reader that sleeps while the integer is not negative will be notified. -/
def Announced (s : State ι) : Prop :=
  ∀ t old, (s.thread t).pc = .sharedAsleep old → 0 ≤ s.value →
    ∃ t', (s.thread t').pc.notifiesAll = true

/-- A reader falls asleep on a negative value. -/
theorem asleep_value {x : Thread} (hx : x.Ok) {spurious : Bool} {v old : ℤ} {o : Outcome}
    (ho : exec M spurious v x.pc = some o) (hpc : o.pc = .sharedAsleep old) : o.value < 0 := by
  unfold Thread.Ok at hx
  cases hx' : x.pc with
  | sharedWait s =>
      rw [hx'] at ho hx
      obtain rfl := Option.some.inj ho
      change s < 0 at hx
      change v < 0
      dsimp only [Outcome.goto] at hpc
      split_ifs at hpc with h
      omega
  | outside r => rw [hx'] at ho; cases ho
  | lockAsleep s => rw [hx'] at ho; cases ho
  | sharedAsleep s => rw [hx'] at ho; cases ho
  | unlockNotify | downgradeNotify | unlockSharedNotify =>
      rw [hx'] at ho
      obtain rfl := Option.some.inj ho
      cases hpc
  | _ =>
      rw [hx'] at ho
      obtain rfl := Option.some.inj ho
      dsimp only [Outcome.goto] at hpc
      split_ifs at hpc

/-- Who gives up an exclusive hold notifies all. -/
theorem notifiesAll_of_release (hw : M.useWait = true) {x : Thread} {spurious : Bool} {v : ℤ}
    {o : Outcome} (ho : exec M spurious v x.pc = some o)
    (he : o.effect = .unlock ∨ o.effect = .downgrade) : o.pc.notifiesAll = true := by
  cases hx : x.pc with
  | outside r => rw [hx] at ho; cases ho
  | lockAsleep s => rw [hx] at ho; cases ho
  | sharedAsleep s => rw [hx] at ho; cases ho
  | unlockStore =>
      rw [hx] at ho
      obtain rfl := Option.some.inj ho
      rw [if_pos hw]
      rfl
  | downgradeExchange =>
      rw [hx] at ho
      obtain rfl := Option.some.inj ho
      rw [if_pos hw]
      rfl
  | unlockNotify | downgradeNotify | unlockSharedNotify | lockWait | sharedWait | trySharedLoad
  | unlockSharedSub =>
      rw [hx] at ho
      obtain rfl := Option.some.inj ho
      rcases he with he | he <;> cases he
  | _ =>
      rw [hx] at ho
      obtain rfl := Option.some.inj ho
      split_ifs at he <;> rcases he with he | he <;> cases he

theorem wakes_all {x : Thread} (hx : x.pc.notifiesAll = true) {spurious : Bool} {v : ℤ} {o : Outcome}
    (ho : exec M spurious v x.pc = some o) : o.wake = .all := by
  cases hpc : x.pc with
  | unlockNotify | downgradeNotify =>
      rw [hpc] at ho
      obtain rfl := Option.some.inj ho
      rfl
  | _ => rw [hpc] at hx; cases hx

/-- What a step does to a reader that sleeps. -/
theorem announced_step (hw : M.useWait = true) {s s' : State ι} (h : Inv M s) (ha : Announced s)
    (hs : Step M s s') : Announced s' := by
  intro t₁ old hsleep h0
  cases hs with
  | call t c hpc hc =>
      have hne : t₁ ≠ t := by
        rintro rfl
        dsimp only at hsleep
        rw [Function.update_self] at hsleep
        cases c <;> cases hsleep
      dsimp only at hsleep h0 ⊢
      rw [Function.update_of_ne hne] at hsleep
      obtain ⟨t', ht'⟩ := ha t₁ old hsleep h0
      refine ⟨t', ?_⟩
      rw [Function.update_of_ne]
      · exact ht'
      · rintro rfl
        rw [hpc] at ht'
        cases ht'
  | @run t spurious o p ho hn =>
      dsimp only at hsleep h0 ⊢
      -- the sleeper slept before the step
      have hbefore : (Function.update s.thread t (o.thread (s.thread t)) t₁).pc =
          .sharedAsleep old := by
        rcases hn.thread t₁ with heq | heq
        · rw [← heq]
          exact hsleep
        · have hc := isAsleep_wakeUp (Function.update s.thread t (o.thread (s.thread t)) t₁).pc
          rw [heq] at hsleep
          rw [show Pc.wakeUp _ = Pc.sharedAsleep old from hsleep] at hc
          cases hc
      have hne : t₁ ≠ t := by
        rintro rfl
        rw [Function.update_self, pc_thread] at hbefore
        have hvalue := asleep_value (h.ok t₁) ho hbefore
        omega
      rw [Function.update_of_ne hne] at hbefore
      by_cases hv : 0 ≤ s.value
      · obtain ⟨t', ht'⟩ := ha t₁ old hbefore hv
        by_cases heq : t' = t
        · -- the thread notifies now, so nobody sleeps
          subst heq
          rw [wakes_all ht' ho] at hn
          have hp : p t₁ = _ := congrFun hn t₁
          have hc := isAsleep_wakeUp (Function.update s.thread t' (o.thread (s.thread t')) t₁).pc
          rw [hp] at hsleep
          rw [show Pc.wakeUp _ = Pc.sharedAsleep old from hsleep] at hc
          cases hc
        · refine ⟨t', ?_⟩
          rcases hn.thread t' with h' | h' <;> rw [h', Function.update_of_ne heq]
          · exact ht'
          · exact notifiesAll_wakeUp ht'
      · -- the exclusive hold is given up
        have hc := h.counts
        have hsh := shared_le s t
        unfold Counts at hc
        have hrelease : o.effect = .unlock ∨ o.effect = .downgrade := by
          have hch := exec_change (h.ok t) ho
          generalize o.effect = eff at hch ⊢
          generalize o.value = v' at hch h0
          cases hch with
          | unlock => exact Or.inl rfl
          | downgrade => exact Or.inr rfl
          | _ => omega
        refine ⟨t, ?_⟩
        have hpc : (Function.update s.thread t (o.thread (s.thread t)) t).pc.notifiesAll = true := by
          rw [Function.update_self, pc_thread]
          exact notifiesAll_of_release hw ho hrelease
        rcases hn.thread t with h' | h' <;> rw [h']
        · exact hpc
        · exact notifiesAll_wakeUp hpc

/-! ### Main result -/

/-- What every reachable state satisfies. -/
theorem attended_of_reachable (hw : M.useWait = true) {s : State ι} (h : (runs M).Reachable s) :
    Inv M s ∧ Attended s ∧ Announced s := by
  refine h.invariant (I := fun s => Inv M s ∧ Attended s ∧ Announced s) (fun s hs => ?_) ?_
  · have hi := inv_of_reachable (System.Reachable.init hs)
    obtain ⟨-, ht⟩ := hs
    refine ⟨hi, fun _ hasleep => ?_, fun t old hpc _ => ?_⟩
    · obtain ⟨t, hasleep⟩ := hasleep
      obtain ⟨⟨r, hr⟩, -⟩ := ht t
      rw [hr] at hasleep
      cases hasleep
    · obtain ⟨⟨r, hr⟩, -⟩ := ht t
      rw [hr] at hpc
      cases hpc
  · rintro s s' ⟨hi, -, ha⟩ ⟨hs, hle⟩
    exact ⟨inv_step hi hs hle, attended_step hw hi hs hle, announced_step hw hi ha hs⟩

/-- In no reachable state the integer is zero, somebody sleeps and nobody else is in a call; and a
reader that sleeps although no writer holds the mutex will be notified.  Writers never wait for zero,
and readers wait for negative values only. -/
theorem no_lost_wakeup (hw : M.useWait = true) {s : State ι} (h : (runs M).Reachable s) :
    ¬ (s.value = 0 ∧
      (∀ t, (s.thread t).pc.isAsleep = true ∨ ∃ r, (s.thread t).pc = .outside r) ∧
      ∃ t, (s.thread t).pc.isAsleep = true) ∧
    (∀ t old, (s.thread t).pc = .sharedAsleep old → 0 ≤ s.value →
      ∃ t', (s.thread t').pc = .unlockNotify ∨ (s.thread t').pc = .downgradeNotify) ∧
    ∀ t old, ((s.thread t).pc = .lockWait old → old ≠ 0) ∧
      ((s.thread t).pc = .sharedWait old → old < 0) := by
  obtain ⟨hi, hattended, hannounced⟩ := attended_of_reachable hw h
  refine ⟨?_, fun t old hpc h0 => ?_, fun t old => ?_⟩
  · rintro ⟨h0, hall, hasleep⟩
    obtain ⟨t, ht⟩ := hattended h0 hasleep
    rcases hall t with hs | ⟨r, hr⟩
    · exact Bool.false_ne_true ((isAwake_of_isAsleep hs).symm.trans ht)
    · rw [hr] at ht
      cases ht
  · obtain ⟨t', ht'⟩ := hannounced t old hpc h0
    refine ⟨t', ?_⟩
    cases hpc' : (s.thread t').pc with
    | unlockNotify => exact Or.inl rfl
    | downgradeNotify => exact Or.inr rfl
    | _ => rw [hpc'] at ht'; cases ht'
  · have hok := hi.ok t
    unfold Thread.Ok at hok
    constructor
    · intro hpc
      rw [hpc] at hok
      exact hok
    · intro hpc
      rw [hpc] at hok
      exact hok

theorem word_bits : 32 = 8 ∨ 32 = 16 ∨ 32 = 32 ∨ 32 = 64 := by
  decide

theorem waits_at_once : 0 < 0 ∨ true = true := Or.inr rfl

/-- A mutex of 32 bits that waits at once. -/
def waiting : MutexType := ⟨32, 0, true, word_bits, waits_at_once⟩

/-- The second thread holds the mutex, the third falls asleep in `lock_shared`, and the second has set
the integer to zero in `unlock`. -/
theorem no_lost_wakeup_three :
    ∃ s : State (Fin 3), (runs waiting).Reachable s ∧ s.value = 0 ∧
      (s.thread 2).pc = .sharedAsleep (-1) ∧
      ∃ t', (s.thread t').pc = .unlockNotify ∨ (s.thread t').pc = .downgradeNotify := by
  obtain ⟨s, hr, hp⟩ := exists_follow (M := waiting)
    [.call (1 : Fin 3) .lock, .run 1 false none, .run 1 false none, .call 2 .lockShared,
      .run 2 false none, .run 2 false none, .call 1 .unlock, .run 1 false none]
    (fun s => decide (s.value = 0 ∧ (s.thread 2).pc = .sharedAsleep (-1))) (by decide +kernel)
  obtain ⟨h0, hpc⟩ := of_decide_eq_true hp
  exact ⟨s, hr, h0, hpc, (no_lost_wakeup rfl hr).2.1 2 (-1) hpc h0.ge⟩

end Mutex

end Nvhm
