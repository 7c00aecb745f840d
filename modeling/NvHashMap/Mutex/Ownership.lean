import Mathlib.Data.List.Perm.Basic
import NvHashMap.Mutex.Locks
import NvHashMap.Mutex.Wakeup

/-! # Ownership of the mutex

The holds of a thread are those of its own (`raw`), those of the lock objects that report ownership, and
those in flight (`Client.Balanced`).  Every call that a lock object or a wrapper makes has the hold that
it needs, so the runs with lock objects are runs of the mutex (`mutex_of_reachable`).  Together with the
invariant of the mutex this is `mutual_exclusion`. -/

namespace Nvhm

namespace Mutex

variable {M : MutexType}

/-! ### Holds in flight -/

def Thread.holds (x : Thread) : Kind → ℕ
  | .unique => x.excl
  | .shared => x.shared

/-- The member function that a place belongs to. -/
def Pc.call : Pc → Option Call
  | .outside _ => none
  | .lockLoad _ | .lockWeak _ | .lockStrong | .lockWait _ | .lockAsleep _ => some .lock
  | .tryLock => some .tryLock
  | .unlockStore | .unlockNotify => some .unlock
  | .downgradeExchange | .downgradeNotify => some .downgrade
  | .sharedLoad _ | .sharedWeak _ _ | .sharedWait _ | .sharedAsleep _ => some .lockShared
  | .trySharedLoad | .trySharedWeak _ => some .tryLockShared
  | .unlockSharedSub | .unlockSharedNotify => some .unlockShared
  | .tryUpgrade => some .tryUpgrade

/-- The call had its effect. -/
def Pc.done : Pc → Bool
  | .outside r => r
  | .unlockNotify | .downgradeNotify | .unlockSharedNotify => true
  | _ => false

def Call.mayFail : Call → Bool
  | .tryLock | .tryLockShared | .tryUpgrade => true
  | _ => false

/-- The thread is in the call, or returned from it. -/
def Call.Has (c : Call) (pc : Pc) : Prop :=
  pc.call = some c ∨ ∃ r, pc = .outside r ∧ (r = true ∨ c.mayFail = true)

/-- What the call changed so far. -/
def Call.gained (c : Call) (pc : Pc) (k : Kind) : ℤ := if pc.done then c.effect.gain k else 0

/-- The hold that a wrapper took from a lock object. -/
def Frame.held : Frame → Kind → ℕ
  | .downgrade, .unique => 1
  | .upgradeTry, .shared => 1
  | .upgradeUnlock, .shared => 1
  | _, _ => 0

/-- The number of lock objects of a kind that report ownership. -/
def Client.owning (y : Client) (k : Kind) : ℕ := y.locks.countP fun l => decide (l = ⟨k, .owning⟩)

def Client.inFlight (y : Client) (k : Kind) : ℤ :=
  match y.frame with
  | none => 0
  | some f => f.held k + f.call.gained y.thread.pc k

/-- Every hold has exactly one owner. -/
def Client.Balanced (y : Client) : Prop :=
  ∀ k, (y.thread.holds k : ℤ) = y.raw k + y.owning k + y.inFlight k

/-- The lock object that the code works on is as it was at the call. -/
def Frame.Fits (y : Client) : Frame → Prop
  | .direct c => c.Allowed ⟨y.thread.pc, y.raw .unique, y.raw .shared⟩
  | .lock k j | .tryLock k j => y.locks[j]? = some ⟨k, .deferred⟩
  | .unlock k j => y.locks[j]? = some ⟨k, .owning⟩
  | .tryUpgrade j => y.locks[j]? = some ⟨.shared, .owning⟩
  | _ => True

structure Client.Inv (y : Client) : Prop where
  balanced : y.Balanced
  idle : y.frame = none → ∃ r, y.thread.pc = .outside r
  busy : ∀ f, y.frame = some f → f.call.Has y.thread.pc ∧ f.Fits y

/-! ### The steps of a call -/

theorem has_entry (c : Call) : c.Has c.entry := by
  cases c <;> exact Or.inl rfl

theorem gained_entry (c : Call) (k : Kind) : c.gained c.entry k = 0 := by
  cases c <;> rfl

/-- A step inside a call stays in it, and changes the holds as the call does, once. -/
theorem exec_call {c : Call} {pc : Pc} (hc : c.Has pc) {spurious : Bool} {v : ℤ} {o : Outcome}
    (ho : exec M spurious v pc = some o) :
    c.Has o.pc ∧ ∀ k, o.effect.gain k = c.gained o.pc k - c.gained pc k := by
  rcases hc with hc | ⟨r, rfl, -⟩
  swap
  · cases ho
  have hhas : ∀ {pc'} {d : Call}, d = c → pc'.call = some d → c.Has pc' := by
    rintro pc' d rfl h
    exact Or.inl h
  have hret : ∀ r, (r = true ∨ c.mayFail = true) → c.Has (.outside r) := fun r h =>
    Or.inr ⟨r, rfl, h⟩
  cases pc with
  | outside r => cases ho
  | lockAsleep s => cases ho
  | sharedAsleep s => cases ho
  | unlockStore | downgradeExchange =>
      obtain rfl := Option.some.inj hc
      obtain rfl := Option.some.inj ho
      dsimp only
      split_ifs
      · exact ⟨Or.inl rfl, fun k => by cases k <;> rfl⟩
      · exact ⟨hret _ (Or.inl rfl), fun k => by cases k <;> rfl⟩
  | unlockSharedSub =>
      obtain rfl := Option.some.inj hc
      obtain rfl := Option.some.inj ho
      dsimp only
      split_ifs
      · exact ⟨Or.inl rfl, fun k => by cases k <;> rfl⟩
      · exact ⟨hret _ (Or.inl rfl), fun k => by cases k <;> rfl⟩
  | unlockNotify | downgradeNotify | unlockSharedNotify =>
      obtain rfl := Option.some.inj hc
      obtain rfl := Option.some.inj ho
      exact ⟨hret _ (Or.inl rfl), fun k => by cases k <;> rfl⟩
  | _ =>
      obtain rfl := Option.some.inj hc
      obtain rfl := Option.some.inj ho
      dsimp only [Outcome.goto]
      split_ifs
      all_goals first
        | exact ⟨hret _ (Or.inl rfl), fun k => by cases k <;> rfl⟩
        | exact ⟨hret _ (Or.inr rfl), fun k => by cases k <;> rfl⟩
        | exact ⟨Or.inl rfl, fun k => by cases k <;> rfl⟩

theorem has_wakeUp {c : Call} {pc : Pc} (h : c.Has pc) : c.Has pc.wakeUp := by
  rcases h with h | ⟨r, rfl, hr⟩
  · left
    cases pc <;> exact h
  · exact Or.inr ⟨r, rfl, hr⟩

theorem gained_wakeUp (c : Call) (pc : Pc) (k : Kind) : c.gained pc.wakeUp k = c.gained pc k := by
  cases pc <;> rfl

/-- The holds of a thread after a step. -/
theorem holds_thread {x : Thread} {v : ℤ} {o : Outcome} (h : Change M x v o.effect o.value) (k : Kind) :
    ((o.thread x).holds k : ℤ) = x.holds k + o.effect.gain k := by
  unfold Outcome.thread
  generalize o.effect = e at *
  generalize o.value = v' at *
  cases h <;> cases k <;> simp [Effect.apply, Thread.holds, Effect.gain] <;> omega

/-! ### The lock objects of a client -/

namespace Client
variable {y : Client} {j : ℕ} {l : LockObj} {k : Kind}

/-- The ownership that one lock object reports. -/
def reported (l : LockObj) (k : Kind) : ℕ := if l = ⟨k, .owning⟩ then 1 else 0

theorem owning_push : (y.push l).owning k = y.owning k + reported l k := by
  unfold owning push reported
  rw [List.countP_append, List.countP_singleton]
  simp only [decide_eq_true_eq]

theorem owning_setLock (l' : LockObj) (hl : y.locks[j]? = some l) :
    (y.setLock j l').owning k + reported l k = y.owning k + reported l' k := by
  obtain ⟨hj, rfl⟩ := List.getElem?_eq_some_iff.mp hl
  have hset := (List.set_perm_cons_eraseIdx hj l').countP_eq fun l => decide (l = ⟨k, .owning⟩)
  have hget := (List.getElem_cons_eraseIdx_perm hj).countP_eq fun l => decide (l = ⟨k, .owning⟩)
  rw [List.countP_cons] at hset hget
  simp only [decide_eq_true_eq] at hset hget
  unfold owning setLock reported
  dsimp only
  omega

theorem owning_eraseIdx (hl : y.locks[j]? = some l) :
    y.owning k = owning { y with locks := y.locks.eraseIdx j } k + reported l k := by
  obtain ⟨hj, rfl⟩ := List.getElem?_eq_some_iff.mp hl
  have hget := (List.getElem_cons_eraseIdx_perm hj).countP_eq fun l => decide (l = ⟨k, .owning⟩)
  rw [List.countP_cons] at hget
  simp only [decide_eq_true_eq] at hget
  unfold owning reported
  dsimp only
  omega

theorem reported_le_owning (hl : y.locks[j]? = some l) : reported l k ≤ y.owning k := by
  have := owning_eraseIdx (k := k) hl
  omega

theorem reported_of_ne (h : l.attachment ≠ .owning) : reported l k = 0 := by
  refine if_neg fun heq => h ?_
  rw [heq]

@[simp] theorem reported_owning (k k' : Kind) :
    reported ⟨k, .owning⟩ k' = if k = k' then 1 else 0 := by
  simp [reported]

@[simp] theorem reported_deferred (k k' : Kind) : reported ⟨k, .deferred⟩ k' = 0 := by
  simp [reported]

@[simp] theorem reported_empty (k k' : Kind) : reported ⟨k, .empty⟩ k' = 0 := by
  simp [reported]

/-! ### Requests and returns -/

/-- The client keeps its invariant, and enters the mutex only by a call that is allowed. -/
structure Advances (y y' : Client) : Prop where
  inv : y'.Inv
  thread : y'.thread = y.thread ∨
    ∃ c : Call, c.Allowed y.thread ∧ y'.thread = { y.thread with pc := c.entry }

/-- The client goes on outside of the mutex. -/
theorem advances_leave {y₁ : Client} (hpc : ∃ r, y.thread.pc = .outside r)
    (ht : y₁.thread = y.thread) (hf : y₁.frame = none)
    (hb : ∀ k, y.thread.holds k = y₁.raw k + y₁.owning k) : y.Advances y₁ := by
  refine ⟨⟨fun k => ?_, fun _ => ht ▸ hpc, fun f h => ?_⟩, Or.inl ht⟩
  · have := hb k
    unfold inFlight
    rw [hf, ht]
    dsimp only
    omega
  · rw [hf] at h
    cases h

/-- The client calls the mutex with the hold that the call needs. -/
theorem advances_enter {y₁ : Client} {f : Frame} (ht : y₁.thread = y.thread) (hfit : f.Fits y₁)
    (hb : ∀ k, y.thread.holds k = y₁.raw k + y₁.owning k + f.held k) : y.Advances (y₁.enter f) := by
  refine ⟨⟨fun k => ?_, fun h => (Option.some_ne_none f h).elim, ?_⟩,
    Or.inr ⟨f.call, ?_, by unfold enter; rw [ht]⟩⟩
  · have hk := hb k
    have hg := gained_entry f.call k
    unfold inFlight enter
    rw [ht]
    dsimp only
    rw [hg]
    change (y.thread.holds k : ℤ) = y₁.raw k + y₁.owning k + (f.held k + 0)
    omega
  · intro f' h
    obtain rfl := Option.some.inj h
    refine ⟨has_entry f.call, ?_⟩
    cases f with
    | direct c => cases c <;> exact hfit
    | _ => exact hfit
  · have hu := hb .unique
    have hs := hb .shared
    unfold Thread.holds at hu hs
    cases f with
    | direct c =>
        unfold Frame.Fits at hfit
        cases c <;> simp only [Frame.call, Call.Allowed] at hfit ⊢ <;> dsimp only at hu hs <;> omega
    | lock k j => cases k <;> trivial
    | tryLock k j => cases k <;> trivial
    | unlock k j =>
        have hown := reported_le_owning (k := k) hfit
        rw [reported_owning, if_pos rfl] at hown
        cases k <;> simp only [Frame.call, Kind.unlock, Call.Allowed] <;> dsimp only at hu hs <;> omega
    | tryUpgrade j =>
        have hown := reported_le_owning (k := .shared) hfit
        rw [reported_owning, if_pos rfl] at hown
        simp only [Frame.call, Call.Allowed]
        dsimp only at hs
        omega
    | _ => simp only [Frame.call, Frame.held, Call.Allowed] at hu hs ⊢ <;> omega

theorem inFlight_none (h : y.frame = none) (k : Kind) : y.inFlight k = 0 := by
  unfold inFlight
  rw [h]

/-- The start of `downgrade` and of `upgrade_or_relock`: the lock object loses its mutex, and the wrapper
has its hold. -/
theorem convert_advances (k' : Kind) (hpc : ∃ r, y.thread.pc = .outside r) (hf : y.frame = none)
    (hb : ∀ k, y.thread.holds k = y.raw k + y.owning k) (hl : y.locks[j]? = some l)
    {f : Frame} (hfit : f.Fits (y.setLock j ⟨l.kind, .empty⟩))
    (hheld : ∀ k, f.held k = reported ⟨l.kind, .owning⟩ k) :
    y.Advances (if l.attachment = .empty then y.push ⟨k', .empty⟩
      else if l.attachment = .owning then (y.setLock j ⟨l.kind, .empty⟩).enter f
      else (y.setLock j ⟨l.kind, .empty⟩).push ⟨k', .deferred⟩) := by
  have hset : ∀ k, (y.setLock j ⟨l.kind, .empty⟩).owning k + reported l k = y.owning k := fun k => by
    have := owning_setLock (k := k) ⟨l.kind, .empty⟩ hl
    rwa [reported_empty] at this
  split_ifs with he ho
  · refine advances_leave hpc rfl hf fun k => ?_
    rw [owning_push, reported_empty]
    exact hb k
  · refine advances_enter rfl hfit fun k => ?_
    have hl' : l = ⟨l.kind, .owning⟩ := by rw [← ho]
    rw [hheld, ← hl', hb k, ← hset k]
    exact (Nat.add_assoc _ _ _).symm
  · refine advances_leave hpc rfl hf fun k => ?_
    rw [owning_push, reported_deferred, hb k, ← hset k, reported_of_ne ho]
    rfl

/-- A request of a client. -/
theorem start_advances (hy : y.Inv) (hf : y.frame = none) {q : Request} {y' : Client}
    (hq : q.start y = some y') : y.Advances y' := by
  have hpc := hy.idle hf
  have hb : ∀ k, y.thread.holds k = y.raw k + y.owning k := fun k => by
    have := hy.balanced k
    rw [inFlight_none hf] at this
    omega
  cases q with
  | call c =>
      unfold Request.start at hq
      dsimp only at hq
      split_ifs at hq with ha
      obtain rfl := Option.some.inj hq
      exact advances_enter rfl ha hb
  | construct k d =>
      obtain rfl := Option.some.inj hq
      refine advances_leave hpc rfl hf fun k' => ?_
      rw [owning_push]
      cases d <;> simp <;> exact hb k'
  | adopt k =>
      unfold Request.start at hq
      dsimp only at hq
      split_ifs at hq with hk
      obtain rfl := Option.some.inj hq
      refine advances_leave hpc rfl hf fun k' => ?_
      have := hb k'
      change _ = (y.raw k' - if k' = k then 1 else 0) + (y.push ⟨k, .owning⟩).owning k'
      rw [owning_push, reported_owning]
      by_cases heq : k' = k
      · subst heq
        simp only [if_pos]
        omega
      · rw [if_neg heq, if_neg (Ne.symm heq)]
        omega
  | release j =>
      obtain ⟨l, hl, hq⟩ := Option.bind_eq_some_iff.mp hq
      obtain rfl := Option.some.inj hq
      refine advances_leave hpc rfl hf fun k => ?_
      have := hb k
      have hset := owning_setLock (k := k) ⟨l.kind, .empty⟩ hl
      rw [reported_empty] at hset
      unfold reported at hset
      change _ = (y.raw k + if l = ⟨k, .owning⟩ then 1 else 0) + (y.setLock j ⟨l.kind, .empty⟩).owning k
      omega
  | lock j =>
      obtain ⟨⟨kind, att⟩, hl, hq⟩ := Option.bind_eq_some_iff.mp hq
      obtain rfl := Option.some.inj hq
      dsimp only
      split_ifs with hd
      · subst hd
        exact advances_enter rfl hl hb
      · exact advances_leave hpc rfl hf hb
  | tryLock j =>
      obtain ⟨⟨kind, att⟩, hl, hq⟩ := Option.bind_eq_some_iff.mp hq
      obtain rfl := Option.some.inj hq
      dsimp only
      split_ifs with hd
      · subst hd
        exact advances_enter rfl hl hb
      · exact advances_leave hpc rfl hf hb
  | unlock j =>
      obtain ⟨⟨kind, att⟩, hl, hq⟩ := Option.bind_eq_some_iff.mp hq
      obtain rfl := Option.some.inj hq
      dsimp only
      split_ifs with hd
      · subst hd
        exact advances_enter rfl hl hb
      · exact advances_leave hpc rfl hf hb
  | destroy j =>
      obtain ⟨l, hl, hq⟩ := Option.bind_eq_some_iff.mp hq
      split_ifs at hq with hd
      obtain rfl := Option.some.inj hq
      refine advances_leave hpc rfl hf fun k => ?_
      have := hb k
      have herase := owning_eraseIdx (k := k) hl
      rw [reported_of_ne hd] at herase
      change _ = y.raw k + _
      omega
  | downgrade j =>
      obtain ⟨l, hl, hq⟩ := Option.bind_eq_some_iff.mp hq
      split_ifs at hq with hk
      obtain rfl := Option.some.inj hq
      have hconvert := convert_advances .shared (f := .downgrade) hpc hf hb hl trivial
        fun k => by rw [hk]; cases k <;> rfl
      rw [hk] at hconvert
      exact hconvert
  | upgradeOrRelock j =>
      obtain ⟨l, hl, hq⟩ := Option.bind_eq_some_iff.mp hq
      split_ifs at hq with hk
      obtain rfl := Option.some.inj hq
      have hconvert := convert_advances .unique (f := .upgradeTry) hpc hf hb hl trivial
        fun k => by rw [hk]; cases k <;> rfl
      rw [hk] at hconvert
      exact hconvert
  | tryUpgrade j =>
      obtain ⟨⟨kind, att⟩, hl, hq⟩ := Option.bind_eq_some_iff.mp hq
      split_ifs at hq with hk
      obtain rfl := Option.some.inj hq
      obtain rfl := hk
      unfold tryUpgrade
      dsimp only
      split_ifs with hd
      · subst hd
        exact advances_enter rfl hl hb
      · exact advances_leave hpc rfl hf hb

/-- The code goes on after a call. -/
theorem resume_advances (hy : y.Inv) {f : Frame} (hf : y.frame = some f) {r : Bool}
    (hpc : y.thread.pc = .outside r) : y.Advances (f.resume y r) := by
  obtain ⟨hhas, hfit⟩ := hy.busy f hf
  have hr : r = true ∨ f.call.mayFail = true := by
    rw [hpc] at hhas
    obtain h | ⟨r', hr', h⟩ := hhas
    · cases h
    · obtain rfl := Pc.outside.inj hr'
      exact h
  have hout : ∃ r, y.thread.pc = .outside r := ⟨r, hpc⟩
  have hb : ∀ k, (y.thread.holds k : ℤ) =
      y.raw k + y.owning k + (f.held k + if r then f.call.effect.gain k else 0) := fun k => by
    have := hy.balanced k
    unfold inFlight Call.gained at this
    rw [hf, hpc] at this
    exact this
  cases f with
  | direct c =>
      refine advances_leave hout rfl rfl fun k => ?_
      have := hb k
      have hheld : (Frame.direct c).held k = 0 := by cases k <;> rfl
      rw [hheld] at this
      have hnonneg : 0 ≤ (y.raw k : ℤ) + c.effect.gain k := by
        unfold Frame.Fits at hfit
        cases c <;> cases k <;> simp [Call.effect, Effect.gain, Call.Allowed] at hfit ⊢ <;> omega
      change _ = (if r then (y.raw k + c.effect.gain k).toNat else y.raw k) + y.owning k
      cases r
      · simp only [Bool.false_eq_true, if_false] at this ⊢
        omega
      · simp only [if_true, Frame.call] at this ⊢
        omega
  | lock kind j =>
      obtain rfl : r = true := hr.resolve_right (by cases kind <;> exact Bool.false_ne_true)
      refine advances_leave hout rfl rfl fun k => ?_
      have := hb k
      have hset := owning_setLock (k := k) ⟨kind, .owning⟩ hfit
      rw [reported_deferred, reported_owning] at hset
      change _ = y.raw k + (y.setLock j ⟨kind, .owning⟩).owning k
      cases kind <;> cases k <;>
        simp [Frame.held, Frame.call, Kind.lock, Call.effect, Effect.gain] at this hset ⊢ <;> omega
  | tryLock kind j =>
      refine advances_leave hout rfl rfl fun k => ?_
      have := hb k
      change _ = y.raw k + (y.setLock j ⟨kind, if r then .owning else .deferred⟩).owning k
      have hset := owning_setLock (k := k) ⟨kind, if r then .owning else .deferred⟩ hfit
      cases r <;> cases kind <;> cases k <;>
        simp [Frame.held, Frame.call, Kind.tryLock, Call.effect, Effect.gain] at this hset ⊢ <;> omega
  | unlock kind j =>
      obtain rfl : r = true := hr.resolve_right (by cases kind <;> exact Bool.false_ne_true)
      refine advances_leave hout rfl rfl fun k => ?_
      have := hb k
      have hset := owning_setLock (k := k) ⟨kind, .deferred⟩ hfit
      rw [reported_deferred, reported_owning] at hset
      change _ = y.raw k + (y.setLock j ⟨kind, .deferred⟩).owning k
      cases kind <;> cases k <;>
        simp [Frame.held, Frame.call, Kind.unlock, Call.effect, Effect.gain] at this hset ⊢ <;> omega
  | downgrade =>
      obtain rfl : r = true := hr.resolve_right Bool.false_ne_true
      refine advances_leave hout rfl rfl fun k => ?_
      have := hb k
      change _ = y.raw k + (y.push ⟨.shared, .owning⟩).owning k
      rw [owning_push, reported_owning]
      cases k <;> simp [Frame.held, Frame.call, Call.effect, Effect.gain] at this ⊢ <;> omega
  | upgradeTry =>
      cases r with
      | true =>
          refine advances_leave hout rfl rfl fun k => ?_
          have := hb k
          change _ = y.raw k + (y.push ⟨.unique, .owning⟩).owning k
          rw [owning_push, reported_owning]
          cases k <;> simp [Frame.held, Frame.call, Call.effect, Effect.gain] at this ⊢ <;> omega
      | false =>
          refine advances_enter rfl trivial fun k => ?_
          have := hb k
          cases k <;> simp [Frame.held] at this ⊢ <;> omega
  | upgradeUnlock =>
      obtain rfl : r = true := hr.resolve_right Bool.false_ne_true
      refine advances_enter rfl trivial fun k => ?_
      have := hb k
      cases k <;> simp [Frame.held, Frame.call, Call.effect, Effect.gain] at this ⊢ <;> omega
  | upgradeLock =>
      obtain rfl : r = true := hr.resolve_right Bool.false_ne_true
      refine advances_leave hout rfl rfl fun k => ?_
      have := hb k
      change _ = y.raw k + (y.push ⟨.unique, .owning⟩).owning k
      rw [owning_push, reported_owning]
      cases k <;> simp [Frame.held, Frame.call, Call.effect, Effect.gain] at this ⊢ <;> omega
  | tryUpgrade j =>
      cases r with
      | true =>
          refine advances_leave hout rfl rfl fun k => ?_
          have := hb k
          have hset := owning_setLock (k := k) ⟨.shared, .empty⟩ hfit
          change _ = y.raw k + ((y.setLock j ⟨.shared, .empty⟩).push ⟨.unique, .owning⟩).owning k
          rw [owning_push, reported_owning]
          cases k <;>
            simp [Frame.held, Frame.call, Call.effect, Effect.gain] at this hset ⊢ <;> omega
      | false =>
          refine advances_leave hout rfl rfl fun k => ?_
          have := hb k
          change _ = y.raw k + y.owning k
          cases k <;> simp [Frame.held] at this ⊢ <;> omega

/-- A step of the mutex inside a call. -/
theorem inv_thread (hy : y.Inv) {v : ℤ} {spurious : Bool} {o : Outcome}
    (hch : Change M y.thread v o.effect o.value)
    (ho : exec M spurious v y.thread.pc = some o) :
    Client.Inv { y with thread := o.thread y.thread } := by
  have hpc : (o.thread y.thread).pc = o.pc := by
    unfold Outcome.thread
    cases o.effect <;> rfl
  cases hf : y.frame with
  | none =>
      obtain ⟨r, hr⟩ := hy.idle hf
      rw [hr] at ho
      cases ho
  | some f =>
      obtain ⟨hhas, hfit⟩ := hy.busy f hf
      obtain ⟨hhas', hgain⟩ := exec_call hhas ho
      refine ⟨fun k => ?_, fun h => ?_, fun f' h => ?_⟩
      · have hb := hy.balanced k
        unfold inFlight at hb ⊢
        dsimp only
        rw [hf] at hb
        dsimp only at hb
        rw [hpc, holds_thread hch k, hgain k]
        change _ = (y.raw k : ℤ) + y.owning k + _
        omega
      · cases h
      · obtain rfl := Option.some.inj h
        dsimp only
        rw [hpc]
        refine ⟨hhas', ?_⟩
        cases f with
        | direct c => cases c <;> exact hfit
        | _ => exact hfit

theorem inFlight_wakeUp (y : Client) (k : Kind) :
    inFlight { y with thread := y.thread.wakeUp } k = y.inFlight k := by
  unfold inFlight
  dsimp only
  cases y.frame with
  | none => rfl
  | some f => exact congrArg (fun x => (f.held k : ℤ) + x) (gained_wakeUp f.call y.thread.pc k)

theorem inv_wakeUp (hy : y.Inv) : Client.Inv { y with thread := y.thread.wakeUp } := by
  refine ⟨fun k => ?_, fun h => ?_, fun f h => ?_⟩
  · have hholds : y.thread.wakeUp.holds k = y.thread.holds k := by cases k <;> rfl
    rw [inFlight_wakeUp]
    dsimp only
    rw [hholds]
    exact hy.balanced k
  · obtain ⟨r, hr⟩ := hy.idle h
    refine ⟨r, ?_⟩
    unfold Thread.wakeUp
    dsimp only
    rw [hr]
    rfl
  · obtain ⟨hhas, hfit⟩ := hy.busy f h
    refine ⟨has_wakeUp hhas, ?_⟩
    cases f with
    | direct c => cases c <;> exact hfit
    | _ => exact hfit

end Client

/-! ### The runs of clients -/

section Threads
variable {ι : Type} [DecidableEq ι]

theorem mutex_update (s : Clients ι) (t : ι) (y : Client) :
    Clients.mutex ⟨s.value, Function.update s.client t y⟩ =
      ⟨s.value, Function.update s.mutex.thread t y.thread⟩ := by
  unfold Clients.mutex
  congr 1
  funext t'
  by_cases h : t' = t
  · subst h
    simp
  · simp [Function.update_of_ne h]

theorem forall_update {P : Client → Prop} {p : ι → Client} (h : ∀ t, P (p t)) (t : ι) {y : Client}
    (hy : P y) : ∀ t', P (Function.update p t y t') := by
  intro t'
  by_cases heq : t' = t
  · subst heq
    rwa [Function.update_self]
  · rw [Function.update_of_ne heq]
    exact h t'

variable [Fintype ι]

/-- The mutex after a client advanced. -/
theorem reachable_advance {s : Clients ι} (hs : (runs M).Reachable s.mutex) {t : ι} {y : Client}
    (hpc : ∃ r, (s.client t).thread.pc = .outside r) (hy : (s.client t).Advances y)
    (hle : (Clients.mutex ⟨s.value, Function.update s.client t y⟩).numShared ≤ maxNumReaders M) :
    (runs M).Reachable (Clients.mutex ⟨s.value, Function.update s.client t y⟩) := by
  rw [mutex_update] at hle ⊢
  obtain ht | ⟨c, hc, ht⟩ := hy.thread
  · have hsame : Function.update s.mutex.thread t y.thread = s.mutex.thread := by
      rw [ht]
      exact Function.update_eq_self t s.mutex.thread
    rw [hsame]
    exact hs
  · rw [ht] at hle ⊢
    obtain ⟨r, hr⟩ := hpc
    exact hs.next ⟨.call t c (r := r) hr hc, hle⟩

/-- The runs of clients are runs of the mutex. -/
theorem mutex_of_reachable {s : Clients ι} (h : (clients M).Reachable s) :
    (runs M).Reachable s.mutex ∧ ∀ t, (s.client t).Inv := by
  refine h.invariant (I := fun s => (runs M).Reachable s.mutex ∧ ∀ t, (s.client t).Inv) ?_ ?_
  · rintro s ⟨hv, hs⟩
    refine ⟨.init ⟨hv, fun t => ?_⟩, fun t => ?_⟩
    · obtain ⟨⟨r, hr⟩, -⟩ := hs t
      change (∃ r, (s.client t).thread.pc = _) ∧ _
      change _ ∧ (s.client t).thread.excl = 0 ∧ (s.client t).thread.shared = 0
      rw [hr]
      exact ⟨⟨r, rfl⟩, rfl, rfl⟩
    · obtain ⟨⟨r, hr⟩, hraw, hlocks, hf⟩ := hs t
      refine ⟨fun k => ?_, fun _ => ⟨r, by rw [hr]⟩, fun f hf' => ?_⟩
      · unfold Client.owning
        rw [Client.inFlight_none hf, hraw, hlocks, hr]
        cases k <;> rfl
      · rw [hf] at hf'
        cases hf'
  · rintro s s' ⟨hs, hinv⟩ ⟨hstep, hle⟩
    cases hstep with
    | @request t q y hf hq =>
        have hadv := Client.start_advances (hinv t) hf hq
        exact ⟨reachable_advance hs ((hinv t).idle hf) hadv hle, forall_update hinv t hadv.inv⟩
    | @resume t f r hf hpc =>
        have hadv := Client.resume_advances (hinv t) hf hpc
        exact ⟨reachable_advance hs ⟨r, hpc⟩ hadv hle, forall_update hinv t hadv.inv⟩
    | @run t spurious o p ho hn =>
        refine ⟨hs.next ⟨.run t ho hn, hle⟩, fun t' => ?_⟩
        have hch := exec_change ((inv_of_reachable hs).ok t) ho
        have hstep : ∀ x, x = Function.update s.mutex.thread t (o.thread (s.mutex.thread t)) t' →
            Client.Inv { s.client t' with thread := x } := by
          rintro x rfl
          by_cases heq : t' = t
          · subst heq
            rw [Function.update_self]
            exact Client.inv_thread (hinv t') hch ho
          · rw [Function.update_of_ne heq]
            exact hinv t'
        change Client.Inv { s.client t' with thread := p t' }
        rcases hn.thread t' with ht | ht <;> rw [ht]
        · exact hstep _ rfl
        · exact Client.inv_wakeUp (hstep _ rfl)

/-- One thread holds the mutex, once and exclusively. -/
def Clients.OneWriter (s : Clients ι) : Prop :=
  (∃ t, (s.client t).thread.excl = 1 ∧ ∀ t', t' ≠ t → (s.client t').thread.excl = 0) ∧
    ∀ t, (s.client t).thread.shared = 0

omit [DecidableEq ι] in
theorem value_iff {s : Clients ι} (hc : Counts s.mutex) : s.value = -1 ↔ s.OneWriter := by
  have hexcl : ∀ t, (s.client t).thread.excl ≤ s.mutex.numExcl := excl_le s.mutex
  have hshared : ∀ t, (s.client t).thread.shared ≤ s.mutex.numShared := shared_le s.mutex
  constructor
  · intro hv
    obtain ⟨-, h1, h0⟩ | ⟨hn, -⟩ := hc
    · refine ⟨?_, fun t => Nat.eq_zero_of_le_zero (h0 ▸ hshared t)⟩
      obtain ⟨t, -, ht⟩ := Finset.exists_ne_zero_of_sum_ne_zero
        (show s.mutex.numExcl ≠ 0 by omega)
      refine ⟨t, by have := hexcl t; change (s.client t).thread.excl ≠ 0 at ht; omega, ?_⟩
      intro t' hne
      have hpair := Finset.add_le_sum (s := Finset.univ) (f := fun t => (s.client t).thread.excl)
        (fun _ _ => Nat.zero_le _) (Finset.mem_univ t) (Finset.mem_univ t') hne.symm
      change _ ≤ s.mutex.numExcl at hpair
      change (s.client t).thread.excl ≠ 0 at ht
      omega
    · change s.value = _ at hn
      omega
  · rintro ⟨⟨t, ht, -⟩, -⟩
    obtain ⟨hv, -⟩ | ⟨-, h0⟩ := hc
    · exact hv
    · have := hexcl t
      omega

/-- The integer is `-1` exactly if one thread holds the mutex exclusively and none holds it shared, and
otherwise it is the number of shared holds.  Every hold has one owner: the thread, a lock object that
reports ownership, or the call or wrapper that the thread is in.  And whoever releases, downgrades or
upgrades has the hold for it. -/
theorem mutual_exclusion {s : Clients ι} (h : (clients M).Reachable s) :
    (s.value = -1 ↔ s.OneWriter) ∧
    (¬ s.OneWriter → s.value = ∑ t, (s.client t).thread.shared ∧
      ∀ t, (s.client t).thread.excl = 0) ∧
    ∀ t, (s.client t).Balanced ∧
      ((s.client t).frame = none →
        ∀ k, (s.client t).thread.holds k = (s.client t).raw k + (s.client t).owning k) ∧
      (s.client t).thread.Ok := by
  obtain ⟨hs, hinv⟩ := mutex_of_reachable h
  have hi := inv_of_reachable hs
  have hv := value_iff hi.counts
  refine ⟨hv, fun hw => ?_, fun t => ⟨(hinv t).balanced, fun hf k => ?_, hi.ok t⟩⟩
  · obtain ⟨hv', -⟩ | ⟨hv', h0⟩ := hi.counts
    · exact absurd (hv.mp hv') hw
    · refine ⟨?_, fun t => Nat.eq_zero_of_le_zero (h0 ▸ excl_le s.mutex t)⟩
      change s.value = ((∑ t, (s.client t).thread.shared : ℕ) : ℤ) at hv'
      rw [hv', Nat.cast_sum]
  · have hb := (hinv t).balanced k
    rw [Client.inFlight_none hf] at hb
    omega

/-! ### Schedules of clients -/

theorem clientStep_of_take {s s' : Clients ι} {c : ClientChoice ι} (h : s.take M c = some s') :
    ClientStep M s s' := by
  cases c with
  | request t q =>
      unfold Clients.take at h
      dsimp only at h
      split at h
      · next hf =>
          obtain ⟨y, hy, rfl⟩ := Option.map_eq_some_iff.mp h
          exact .request t q hf hy
      · cases h
  | resume t =>
      unfold Clients.take at h
      dsimp only at h
      split at h
      · next f r hf hpc =>
          obtain rfl := Option.some.inj h
          exact .resume t hf hpc
      · cases h
  | run t spurious wake =>
      obtain ⟨m, hm, rfl⟩ := Option.map_eq_some_iff.mp h
      obtain ⟨o, p, ho, hn, rfl⟩ := exec_of_take hm
      exact .run t ho hn

theorem clients_of_follow {s s' : Clients ι} (hs : (clients M).Reachable s) :
    ∀ {cs : List (ClientChoice ι)}, s.follow M cs = some s' → (clients M).Reachable s'
  | [], h => Option.some.inj h ▸ hs
  | c :: cs, h => by
      obtain ⟨s₁, hc, h⟩ := Option.bind_eq_some_iff.mp h
      split_ifs at h with hle
      exact clients_of_follow (hs.next ⟨clientStep_of_take hc, hle⟩) h

/-- The state that a schedule of clients reaches. -/
theorem exists_clients (cs : List (ClientChoice ι)) (p : Clients ι → Bool)
    (h : ((Clients.start ι).follow M cs).any p = true) :
    ∃ s, (clients M).Reachable s ∧ p s = true := by
  obtain ⟨s, hs, hp⟩ := (Option.any_eq_true p _).mp h
  exact ⟨s, clients_of_follow (.init ⟨rfl, fun _ => ⟨⟨true, rfl⟩, fun _ => rfl, rfl, rfl⟩⟩) hs, hp⟩

end Threads

theorem spins_only : 0 < 64 ∨ false = true := by
  decide

/-- A mutex of 32 bits that only spins. -/
def spinning : MutexType := ⟨32, 64, false, word_bits, spins_only⟩

/-- A `unique_lock` is locked and downgraded.  While another thread reads, `try_upgrade` fails; later
`upgrade_or_relock` succeeds. -/
theorem mutual_exclusion_two :
    ∃ s : Clients (Fin 2), (clients spinning).Reachable s ∧ s.value = -1 ∧
      (s.client 0).locks = [⟨.unique, .empty⟩, ⟨.shared, .empty⟩, ⟨.unique, .owning⟩] ∧
      s.OneWriter := by
  obtain ⟨s, hr, hp⟩ := exists_clients (M := spinning)
    [.request (0 : Fin 2) (.construct .unique true), .request 0 (.lock 0), .run 0 false none,
      .run 0 false none, .resume 0, .request 0 (.downgrade 0), .run 0 false none, .resume 0,
      .request 1 (.call .lockShared), .run 1 false none, .run 1 true none, .run 1 false none,
      .run 1 false none, .resume 1, .request 0 (.tryUpgrade 1), .run 0 false none, .resume 0,
      .request 1 (.call .unlockShared), .run 1 false none, .resume 1,
      .request 0 (.upgradeOrRelock 1), .run 0 false none, .resume 0]
    (fun s => decide (s.value = -1 ∧
      (s.client 0).locks = [⟨.unique, .empty⟩, ⟨.shared, .empty⟩, ⟨.unique, .owning⟩]))
    (by decide +kernel)
  obtain ⟨hv, hlocks⟩ := of_decide_eq_true hp
  exact ⟨s, hr, hv, hlocks, (mutual_exclusion hr).1.mp hv⟩

end Mutex

end Nvhm
