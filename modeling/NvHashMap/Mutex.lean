import Mathlib.Algebra.BigOperators.Fin
import Mathlib.Data.Fintype.BigOperators
import NvHashMap.Lib.Transition

/-! # The spinning mutex

`spin_wait_mutex` of `mutex.hpp` is one atomic integer: `-1` if a thread holds the mutex exclusively,
else the number of shared holds.

* `Pc` is the place of a thread in a member function, with the local variables of that place, and
  `exec` its next atomic step.  A weak compare-exchange may fail although the value is the expected one.
* `wait(old)` is two places: one that compares and falls asleep, and one that sleeps.  A sleeper that is
  notified compares again.
* `Step` interleaves any number of threads.  A thread outside of the member functions may call any of
  them, but it releases, downgrades and upgrades only what it holds. -/

namespace Nvhm

/-- The template parameters: the width of the signed `state_type`, `SpinIterations` and `UseWait`. -/
structure MutexType where
  bits : ℕ
  spinIterations : ℕ
  useWait : Bool
  bits_mem : bits = 8 ∨ bits = 16 ∨ bits = 32 ∨ bits = 64
  spins_or_waits : 0 < spinIterations ∨ useWait = true

namespace Mutex

variable (M : MutexType)

/-- `max_num_readers`. -/
def maxNumReaders : ℕ := 2 ^ (M.bits - 1) - 1

/-- A number as a value of `state_type`. -/
def wrap (x : ℤ) : ℤ := (BitVec.ofInt M.bits x).toInt

/-! ### The steps of a thread -/

/-- The place of a thread.  The index `i` is the loop counter, `s` the value that was loaded; `outside`
has the result of the last call. -/
inductive Pc where
  | outside (result : Bool)
  | lockLoad (i : ℕ)
  | lockWeak (i : ℕ)
  | lockStrong
  | lockWait (s : ℤ)
  | lockAsleep (s : ℤ)
  | tryLock
  | unlockStore
  | unlockNotify
  | downgradeExchange
  | downgradeNotify
  | sharedLoad (i : ℕ)
  | sharedWeak (i : ℕ) (s : ℤ)
  | sharedWait (s : ℤ)
  | sharedAsleep (s : ℤ)
  | trySharedLoad
  | trySharedWeak (s : ℤ)
  | unlockSharedSub
  | unlockSharedNotify
  | tryUpgrade
deriving DecidableEq, Repr

/-- What a step does to the holds of the thread. -/
inductive Effect where
  | none
  | lock
  | unlock
  | lockShared
  | unlockShared
  | downgrade
  | upgrade
deriving DecidableEq, Repr

/-- The sleepers that a step wakes up. -/
inductive Wake where
  | none
  | one
  | all
deriving DecidableEq, Repr

structure Outcome where
  value : ℤ
  pc : Pc
  effect : Effect
  wake : Wake
deriving DecidableEq, Repr

/-- A step that leaves the integer and the holds as they are. -/
def Outcome.goto (v : ℤ) (pc : Pc) : Outcome := ⟨v, pc, .none, .none⟩

/-- The loops spin, else they wait. -/
def spins (i : ℕ) : Bool := decide (i < M.spinIterations) || !M.useWait

/-- The next atomic step at a place, where `v` is the value of the integer. -/
def exec (spurious : Bool) (v : ℤ) : Pc → Option Outcome
  | .outside _ => none
  | .lockLoad i => some <|
      if spins M i then .goto v (if v = 0 then .lockWeak i else .lockLoad (i + 1))
      else .goto v (if v = 0 then .lockStrong else .lockWait v)
  | .lockWeak i => some <|
      if v = 0 ∧ spurious = false then ⟨-1, .outside true, .lock, .none⟩
      else .goto v (.lockLoad (i + 1))
  | .lockStrong => some <|
      -- a failed exchange loads the value that is there
      if v = 0 then ⟨-1, .outside true, .lock, .none⟩ else .goto v (.lockWait v)
  | .lockWait s => some <| .goto v (if v = s then .lockAsleep s else .lockLoad 1)
  | .lockAsleep _ => none
  | .tryLock => some <|
      if v = 0 then ⟨-1, .outside true, .lock, .none⟩ else .goto v (.outside false)
  | .unlockStore => some
      ⟨0, if M.useWait then .unlockNotify else .outside true, .unlock, .none⟩
  | .unlockNotify => some ⟨v, .outside true, .none, .all⟩
  | .downgradeExchange => some
      ⟨1, if M.useWait then .downgradeNotify else .outside true, .downgrade, .none⟩
  | .downgradeNotify => some ⟨v, .outside true, .none, .all⟩
  | .sharedLoad i => some <|
      if 0 ≤ v then .goto v (.sharedWeak i v)
      else .goto v (if spins M i then .sharedLoad (i + 1) else .sharedWait v)
  | .sharedWeak i s => some <|
      if v = s ∧ spurious = false then ⟨wrap M (s + 1), .outside true, .lockShared, .none⟩
      else .goto v (.sharedLoad (if spins M i then i + 1 else 1))
  | .sharedWait s => some <| .goto v (if v = s then .sharedAsleep s else .sharedLoad 1)
  | .sharedAsleep _ => none
  | .trySharedLoad => some <| .goto v (if 0 ≤ v then .trySharedWeak v else .outside false)
  | .trySharedWeak s => some <|
      if v = s ∧ spurious = false then ⟨wrap M (s + 1), .outside true, .lockShared, .none⟩
      else .goto v (if 0 ≤ v then .trySharedWeak v else .outside false)
  | .unlockSharedSub => some
      ⟨wrap M (v - 1), if M.useWait ∧ v = 1 then .unlockSharedNotify else .outside true,
        .unlockShared, .none⟩
  | .unlockSharedNotify => some ⟨v, .outside true, .none, .one⟩
  | .tryUpgrade => some <|
      if v = 1 then ⟨-1, .outside true, .upgrade, .none⟩ else .goto v (.outside false)

/-! ### The steps of all threads -/

/-- A thread: its place, and how often it holds the mutex. -/
structure Thread where
  pc : Pc
  excl : ℕ
  shared : ℕ
deriving DecidableEq, Repr

def Effect.apply (x : Thread) : Effect → Thread
  | .none => x
  | .lock => { x with excl := x.excl + 1 }
  | .unlock => { x with excl := x.excl - 1 }
  | .lockShared => { x with shared := x.shared + 1 }
  | .unlockShared => { x with shared := x.shared - 1 }
  | .downgrade => { x with excl := x.excl - 1, shared := x.shared + 1 }
  | .upgrade => { x with shared := x.shared - 1, excl := x.excl + 1 }

/-- The thread after a step. -/
def Outcome.thread (o : Outcome) (x : Thread) : Thread := o.effect.apply { x with pc := o.pc }

def Pc.isAsleep : Pc → Bool
  | .lockAsleep _ => true
  | .sharedAsleep _ => true
  | _ => false

/-- A sleeper that is notified compares again. -/
def Pc.wakeUp : Pc → Pc
  | .lockAsleep s => .lockWait s
  | .sharedAsleep s => .sharedWait s
  | pc => pc

def Thread.wakeUp (x : Thread) : Thread := { x with pc := x.pc.wakeUp }

/-- The member functions. -/
inductive Call where
  | lock
  | tryLock
  | unlock
  | downgrade
  | lockShared
  | tryLockShared
  | unlockShared
  | tryUpgrade
deriving DecidableEq, Repr

def Call.entry : Call → Pc
  | .lock => .lockLoad 0
  | .tryLock => .tryLock
  | .unlock => .unlockStore
  | .downgrade => .downgradeExchange
  | .lockShared => .sharedLoad 0
  | .tryLockShared => .trySharedLoad
  | .unlockShared => .unlockSharedSub
  | .tryUpgrade => .tryUpgrade

/-- A thread releases, downgrades and upgrades only what it holds. -/
def Call.Allowed (x : Thread) : Call → Prop
  | .unlock | .downgrade => 0 < x.excl
  | .unlockShared | .tryUpgrade => 0 < x.shared
  | _ => True

instance (x : Thread) (c : Call) : Decidable (c.Allowed x) := by
  cases c <;> unfold Call.Allowed <;> infer_instance

section Threads
variable {ι : Type} [DecidableEq ι]

structure State (ι : Type) where
  value : ℤ
  thread : ι → Thread

/-- The threads after a notification; `notify_one` wakes an arbitrary sleeper. -/
def Notified (p p' : ι → Thread) : Wake → Prop
  | .none => p' = p
  | .all => p' = fun t => (p t).wakeUp
  | .one => (∃ t, (p t).pc.isAsleep = true ∧ p' = Function.update p t (p t).wakeUp) ∨
      (∀ t, (p t).pc.isAsleep = false) ∧ p' = p

/-- A call, or the next step of a thread. -/
inductive Step : State ι → State ι → Prop
  | call {s : State ι} (t : ι) {r : Bool} (c : Call) (hpc : (s.thread t).pc = .outside r)
      (ha : c.Allowed (s.thread t)) :
      Step s ⟨s.value, Function.update s.thread t { s.thread t with pc := c.entry }⟩
  | run {s : State ι} (t : ι) {spurious : Bool} {o : Outcome} {p : ι → Thread}
      (ho : exec M spurious s.value (s.thread t).pc = some o)
      (hn : Notified (Function.update s.thread t (o.thread (s.thread t))) p o.wake) :
      Step s ⟨o.value, p⟩

variable [Fintype ι]

/-- The choices of a schedule: the thread that calls or runs, whether its exchange fails, and whom it
wakes up. -/
inductive Choice (ι : Type) where
  | call (t : ι) (c : Call)
  | run (t : ι) (spurious : Bool) (wake : Option ι)

/-- The step that a schedule chooses. -/
def State.take (s : State ι) : Choice ι → Option (State ι)
  | .call t c =>
      match (s.thread t).pc with
      | .outside _ =>
          if c.Allowed (s.thread t) then
            some ⟨s.value, Function.update s.thread t { s.thread t with pc := c.entry }⟩
          else none
      | _ => none
  | .run t spurious wake => do
      let o ← exec M spurious s.value (s.thread t).pc
      let p := Function.update s.thread t (o.thread (s.thread t))
      match o.wake, wake with
      | .none, _ => some ⟨o.value, p⟩
      | .all, _ => some ⟨o.value, fun t => (p t).wakeUp⟩
      | .one, some t' =>
          if (p t').pc.isAsleep then some ⟨o.value, Function.update p t' (p t').wakeUp⟩ else none
      | .one, none =>
          if ∀ t, (p t).pc.isAsleep = false then some ⟨o.value, p⟩ else none

def State.numExcl (s : State ι) : ℕ := ∑ t, (s.thread t).excl

def State.numShared (s : State ι) : ℕ := ∑ t, (s.thread t).shared

/-- The runs in which no more than `max_num_readers` shared holds exist at once. -/
def runs : System (State ι) where
  init s := s.value = 0 ∧ ∀ t, (∃ r, (s.thread t).pc = .outside r) ∧ (s.thread t).excl = 0 ∧
    (s.thread t).shared = 0
  next s s' := Step M s s' ∧ s'.numShared ≤ maxNumReaders M

/-- The state after a schedule. -/
def State.follow (s : State ι) : List (Choice ι) → Option (State ι)
  | [] => some s
  | c :: cs => do
      let s' ← s.take M c
      if s'.numShared ≤ maxNumReaders M then s'.follow cs else none

/-- No thread is in a call or holds the mutex. -/
def State.start (ι : Type) : State ι := ⟨0, fun _ => ⟨.outside true, 0, 0⟩⟩

end Threads

end Mutex

end Nvhm
