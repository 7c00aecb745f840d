import NvHashMap.Mutex.Safety

/-! # Lock objects

`std::unique_lock` and `std::shared_lock` over the mutex, and the functions of `mutex.hpp` that move
ownership from one to the other.

* A `Client` is a thread with its lock objects, and with the holds that no object owns (`raw`): those of
  direct calls, and those that an object released.
* `Frame` is the code that waits for the call of a member function to return, and `Frame.resume` what it
  does then.  While it waits the mutex runs as in `Mutex`.
* `Client.inFlight` are the holds that neither an object nor the thread itself accounts for. -/

namespace Nvhm

namespace Mutex

variable (M : MutexType)

/-! ### Lock objects -/

/-- `std::unique_lock` and `std::shared_lock`. -/
inductive Kind where
  | unique
  | shared
deriving DecidableEq, Repr

/-- A lock object has no mutex, has the mutex without owning it, or owns it. -/
inductive Attachment where
  | empty
  | deferred
  | owning
deriving DecidableEq, Repr

structure LockObj where
  kind : Kind
  attachment : Attachment
deriving DecidableEq, Repr

/-- The member functions that the lock object calls. -/
def Kind.lock : Kind → Call
  | .unique => .lock
  | .shared => .lockShared

def Kind.tryLock : Kind → Call
  | .unique => .tryLock
  | .shared => .tryLockShared

def Kind.unlock : Kind → Call
  | .unique => .unlock
  | .shared => .unlockShared

/-- The code that called a member function of the mutex; `j` is the index of the lock object that it
works on. -/
inductive Frame where
  | direct (c : Call)
  | lock (k : Kind) (j : ℕ)
  | tryLock (k : Kind) (j : ℕ)
  | unlock (k : Kind) (j : ℕ)
  | downgrade
  | upgradeTry
  | upgradeUnlock
  | upgradeLock
  | tryUpgrade (j : ℕ)
deriving DecidableEq, Repr

def Frame.call : Frame → Call
  | .direct c => c
  | .lock k _ => k.lock
  | .tryLock k _ => k.tryLock
  | .unlock k _ => k.unlock
  | .downgrade => .downgrade
  | .upgradeTry => .tryUpgrade
  | .upgradeUnlock => .unlockShared
  | .upgradeLock => .lock
  | .tryUpgrade _ => .tryUpgrade

/-- How a step changes the number of holds of a kind. -/
def Effect.gain : Effect → Kind → ℤ
  | .none, _ => 0
  | .lock, .unique => 1
  | .lock, .shared => 0
  | .unlock, .unique => -1
  | .unlock, .shared => 0
  | .lockShared, .unique => 0
  | .lockShared, .shared => 1
  | .unlockShared, .unique => 0
  | .unlockShared, .shared => -1
  | .downgrade, .unique => -1
  | .downgrade, .shared => 1
  | .upgrade, .unique => 1
  | .upgrade, .shared => -1

/-- The effect of a call that succeeds. -/
def Call.effect : Call → Effect
  | .lock | .tryLock => .lock
  | .unlock => .unlock
  | .downgrade => .downgrade
  | .lockShared | .tryLockShared => .lockShared
  | .unlockShared => .unlockShared
  | .tryUpgrade => .upgrade

/-- A thread with its lock objects.  `raw` counts the holds that belong to no object. -/
structure Client where
  thread : Thread
  raw : Kind → ℕ
  locks : List LockObj
  frame : Option Frame

namespace Client

/-- Calls a member function of the mutex. -/
def enter (y : Client) (f : Frame) : Client :=
  { y with thread := { y.thread with pc := f.call.entry }, frame := some f }

def setLock (y : Client) (j : ℕ) (l : LockObj) : Client := { y with locks := y.locks.set j l }

def push (y : Client) (l : LockObj) : Client := { y with locks := y.locks ++ [l] }

/-- `downgrade` and `downgrade_or_relock`, of the `unique_lock` with index `j`. -/
def downgrade (y : Client) (j : ℕ) (lock : Attachment) : Client :=
  if lock = .empty then y.push ⟨.shared, .empty⟩
  else
    -- `lock.release()`
    let y := y.setLock j ⟨.unique, .empty⟩
    if lock = .owning then y.enter .downgrade else y.push ⟨.shared, .deferred⟩

/-- `upgrade_or_relock`, of the `shared_lock` with index `j`. -/
def upgradeOrRelock (y : Client) (j : ℕ) (lock : Attachment) : Client :=
  if lock = .empty then y.push ⟨.unique, .empty⟩
  else
    let y := y.setLock j ⟨.shared, .empty⟩
    if lock = .owning then y.enter .upgradeTry else y.push ⟨.unique, .deferred⟩

/-- `try_upgrade`, of the `shared_lock` with index `j`; `nullopt` if it owns nothing. -/
def tryUpgrade (y : Client) (j : ℕ) (lock : Attachment) : Client :=
  if lock = .owning then y.enter (.tryUpgrade j) else y

end Client

/-- Goes on after the call of the mutex returned `r`. -/
def Frame.resume (y : Client) (r : Bool) : Frame → Client
  | .direct c =>
      let raw k := if r then (y.raw k + c.effect.gain k).toNat else y.raw k
      { y with raw := raw, frame := none }
  | .lock k j => { y.setLock j ⟨k, .owning⟩ with frame := none }
  | .tryLock k j => { y.setLock j ⟨k, if r then .owning else .deferred⟩ with frame := none }
  | .unlock k j => { y.setLock j ⟨k, .deferred⟩ with frame := none }
  | .downgrade => { y.push ⟨.shared, .owning⟩ with frame := none }
  | .upgradeTry =>
      if r then { y.push ⟨.unique, .owning⟩ with frame := none } else y.enter .upgradeUnlock
  | .upgradeUnlock => y.enter .upgradeLock
  | .upgradeLock => { y.push ⟨.unique, .owning⟩ with frame := none }
  | .tryUpgrade j =>
      if r then { (y.setLock j ⟨.shared, .empty⟩).push ⟨.unique, .owning⟩ with frame := none }
      else { y with frame := none }

/-- What a thread may do outside of the calls.  `adopt` and `release` are those of the lock objects;
`construct` builds one that owns nothing. -/
inductive Request where
  | call (c : Call)
  | construct (k : Kind) (deferred : Bool)
  | adopt (k : Kind)
  | release (j : ℕ)
  | lock (j : ℕ)
  | tryLock (j : ℕ)
  | unlock (j : ℕ)
  | destroy (j : ℕ)
  | downgrade (j : ℕ)
  | upgradeOrRelock (j : ℕ)
  | tryUpgrade (j : ℕ)
deriving DecidableEq, Repr

/-- The hold of an object that is released. -/
def Client.release (y : Client) (j : ℕ) (l : LockObj) : Client :=
  let raw k := y.raw k + if l = ⟨k, .owning⟩ then 1 else 0
  { y.setLock j ⟨l.kind, .empty⟩ with raw := raw }

/-- Starts a request.  Direct calls and `adopt` need a hold of the thread itself; the functions of lock
objects need an object of their type.  A member function of a lock object that throws leaves the thread
as it is. -/
def Request.start (y : Client) : Request → Option Client
  | .call c =>
      if c.Allowed ⟨y.thread.pc, y.raw .unique, y.raw .shared⟩ then some (y.enter (.direct c)) else none
  | .construct k deferred => some (y.push ⟨k, if deferred then .deferred else .empty⟩)
  | .adopt k =>
      let raw k' := y.raw k' - if k' = k then 1 else 0
      if 0 < y.raw k then some { y.push ⟨k, .owning⟩ with raw := raw } else none
  | .release j => do
      let l ← y.locks[j]?
      some (y.release j l)
  | .lock j => do
      let l ← y.locks[j]?
      some (if l.attachment = .deferred then y.enter (.lock l.kind j) else y)
  | .tryLock j => do
      let l ← y.locks[j]?
      some (if l.attachment = .deferred then y.enter (.tryLock l.kind j) else y)
  | .unlock j => do
      let l ← y.locks[j]?
      some (if l.attachment = .owning then y.enter (.unlock l.kind j) else y)
  | .destroy j => do
      -- the destructor of an owning lock unlocks it before
      let l ← y.locks[j]?
      if l.attachment = .owning then none else some { y with locks := y.locks.eraseIdx j }
  | .downgrade j => do
      let l ← y.locks[j]?
      if l.kind = .unique then some (y.downgrade j l.attachment) else none
  | .upgradeOrRelock j => do
      let l ← y.locks[j]?
      if l.kind = .shared then some (y.upgradeOrRelock j l.attachment) else none
  | .tryUpgrade j => do
      let l ← y.locks[j]?
      if l.kind = .shared then some (y.tryUpgrade j l.attachment) else none

/-! ### The steps of all clients -/

section Threads
variable {ι : Type} [DecidableEq ι]

structure Clients (ι : Type) where
  value : ℤ
  client : ι → Client

/-- The mutex and its threads. -/
def Clients.mutex (s : Clients ι) : State ι := ⟨s.value, fun t => (s.client t).thread⟩

/-- The clients after a step of the mutex. -/
def Clients.withMutex (s : Clients ι) (m : State ι) : Clients ι :=
  ⟨m.value, fun t => { s.client t with thread := m.thread t }⟩

/-- A request, the return of a call, or a step inside a call. -/
inductive ClientStep : Clients ι → Clients ι → Prop
  | request {s : Clients ι} (t : ι) (q : Request) {y : Client} (hf : (s.client t).frame = none)
      (hq : q.start (s.client t) = some y) :
      ClientStep s ⟨s.value, Function.update s.client t y⟩
  | resume {s : Clients ι} (t : ι) {f : Frame} {r : Bool} (hf : (s.client t).frame = some f)
      (hpc : (s.client t).thread.pc = .outside r) :
      ClientStep s ⟨s.value, Function.update s.client t (f.resume (s.client t) r)⟩
  | run {s : Clients ι} (t : ι) {spurious : Bool} {o : Outcome} {p : ι → Thread}
      (ho : exec M spurious s.value (s.client t).thread.pc = some o)
      (hn : Notified (Function.update s.mutex.thread t (o.thread (s.mutex.thread t))) p o.wake) :
      ClientStep s (s.withMutex ⟨o.value, p⟩)

variable [Fintype ι]

/-- The choices of a schedule of clients. -/
inductive ClientChoice (ι : Type) where
  | request (t : ι) (q : Request)
  | resume (t : ι)
  | run (t : ι) (spurious : Bool) (wake : Option ι)

/-- The step that a schedule chooses. -/
def Clients.take (s : Clients ι) : ClientChoice ι → Option (Clients ι)
  | .request t q =>
      match (s.client t).frame with
      | none => (q.start (s.client t)).map fun y => ⟨s.value, Function.update s.client t y⟩
      | some _ => none
  | .resume t =>
      match (s.client t).frame, (s.client t).thread.pc with
      | some f, .outside r => some ⟨s.value, Function.update s.client t (f.resume (s.client t) r)⟩
      | _, _ => none
  | .run t spurious wake => (s.mutex.take M (.run t spurious wake)).map s.withMutex

/-- The state after a schedule. -/
def Clients.follow (s : Clients ι) : List (ClientChoice ι) → Option (Clients ι)
  | [] => some s
  | c :: cs => do
      let s' ← s.take M c
      if s'.mutex.numShared ≤ maxNumReaders M then s'.follow cs else none

/-- No thread is in a call, has a lock object or holds the mutex. -/
def Clients.start (ι : Type) : Clients ι :=
  ⟨0, fun _ => ⟨⟨.outside true, 0, 0⟩, fun _ => 0, [], none⟩⟩

/-- The runs of threads that use lock objects, with at most `max_num_readers` shared holds. -/
def clients : System (Clients ι) where
  init s := s.value = 0 ∧ ∀ t, (∃ r, (s.client t).thread = ⟨.outside r, 0, 0⟩) ∧
    (∀ k, (s.client t).raw k = 0) ∧ (s.client t).locks = [] ∧ (s.client t).frame = none
  next s s' := ClientStep M s s' ∧ s'.mutex.numShared ≤ maxNumReaders M

end Threads

end Mutex

end Nvhm
