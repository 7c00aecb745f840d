import Mathlib.Control.Monad.Basic
import NvHashMap.Lib.PowTwo

/-! # Common definitions

Bytes, slot states, flags and integer helpers (`common.hpp`, `stdlib_ext.hpp`).

* **Integers.**  `int_t` is a signed 64-bit integer: arguments that a caller chooses are
  integers `ℤ`, capacities are natural numbers.  A computation that would leave the range of
  `int_t` is the error `Err.overflow`.  A 64-bit word (`hash_t`, and `raw_pos_t` inside a probe
  sequence) is a natural number below `2 ^ 64`, with the wrap-around written out.
* **Errors.**  A failed check of the source is an error value: the assertions that bound a
  probe loop (`tableFull`, `nextFull`), the one after the preemptive growth (`stillFull`), the
  one at the end of the insertion loop (`insertError`), those of a scrub (`seqExhausted`,
  `notTombstone`), and the exceptions (`resizeError`, `invalidArgument`).  `badPos` and
  `badSeq` are checks of a position or a probe sequence that the caller passes in. -/

namespace Nvhm

/-- `std::byte`. -/
abbrev Byte := BitVec 8

/-- `state_t`: a signed byte that holds a fingerprint, `empty` or `tombstone`. -/
abbrev State := BitVec 8

/-- `lru_t`: an unsigned byte. -/
abbrev Lru := BitVec 8

/-- The slot was never used since the last rehash, or it was reclaimed. -/
def empty : State := 0x80#8

/-- The slot was used, then freed, but could not be reclaimed. -/
def tombstone : State := 0x81#8

def isHash (s : State) : Bool := decide (0 ≤ s.toInt)

def maxLru : Lru := 0xff#8

def defaultLru : Lru := 0x7f#8

/-- The states that a bucket can hold: a fingerprint, `empty` or `tombstone`. -/
def validState (s : State) : Bool := isHash s || s == empty || s == tombstone

@[simp] theorem isHash_empty : isHash empty = false := by decide
@[simp] theorem isHash_tombstone : isHash tombstone = false := by decide
@[simp] theorem empty_ne_tombstone : empty ≠ tombstone := by decide
@[simp] theorem tombstone_ne_empty : tombstone ≠ empty := by decide
@[simp] theorem validState_empty : validState empty = true := by decide
@[simp] theorem validState_tombstone : validState tombstone = true := by decide

theorem isHash_iff (s : State) : isHash s = true ↔ s.toNat < 128 := by
  unfold isHash
  rw [decide_eq_true_iff, BitVec.toInt_eq_toNat_cond]
  split_ifs with h <;> omega

theorem validState_of_isHash {s : State} (h : isHash s = true) : validState s = true := by
  simp [validState, h]

/-- A valid state that is not a fingerprint is `empty` or `tombstone`. -/
theorem eq_of_validState {s : State} (hv : validState s = true) (hs : isHash s = false) :
    s = empty ∨ s = tombstone := by
  simpa [validState, hs] using hv

theorem ne_empty_of_isHash {s : State} (h : isHash s = true) : s ≠ empty := by
  rintro rfl
  simp at h

theorem ne_tombstone_of_isHash {s : State} (h : isHash s = true) : s ≠ tombstone := by
  rintro rfl
  simp at h

/-! ### Errors -/

/-- What can go wrong in a call. -/
inductive Err where
  | overflow
  | invalidArgument
  | badPos
  | badSeq
  | tableFull
  | nextFull
  | stillFull
  | insertError
  | seqExhausted
  | resizeError
  | notTombstone
  | outOfFuel
deriving DecidableEq, Repr

section Bind
variable {ε α β : Type}

@[simp] theorem ok_bind (a : α) (f : α → Except ε β) : (Except.ok a >>= f) = f a := rfl

@[simp] theorem error_bind (e : ε) (f : α → Except ε β) :
    ((Except.error e : Except ε α) >>= f) = .error e := rfl

/-- A sequence of two calls succeeds if both do. -/
theorem bind_eq_ok {x : Except ε α} {f : α → Except ε β} {b : β} :
    x >>= f = .ok b ↔ ∃ a, x = .ok a ∧ f a = .ok b := by
  cases x <;> simp

/-- A sequence of two calls fails where one of them fails. -/
theorem bind_eq_error {x : Except ε α} {f : α → Except ε β} {e : ε} :
    x >>= f = .error e ↔ x = .error e ∨ ∃ a, x = .ok a ∧ f a = .error e := by
  cases x <;> simp

/-- Two computations are equal, and their result satisfies `P`. -/
def Agree (x y : Except ε α) (P : α → Prop) : Prop := x = y ∧ ∀ a, y = .ok a → P a

theorem Agree.ok {a : α} {P : α → Prop} (h : P a) : Agree (ε := ε) (.ok a) (.ok a) P :=
  ⟨rfl, fun _ hb => Except.ok.inj hb ▸ h⟩

theorem Agree.error (e : ε) (P : α → Prop) : Agree (.error e) (.error e) P :=
  ⟨rfl, fun _ hb => by cases hb⟩

theorem Agree.of_error_or {x : Except ε α} {P : α → Prop} (h : ∀ a, x = .ok a → P a) :
    Agree x x P := ⟨rfl, h⟩

theorem Agree.mono {x y : Except ε α} {P Q : α → Prop} (h : Agree x y P) (hPQ : ∀ a, P a → Q a) :
    Agree x y Q := ⟨h.1, fun a ha => hPQ a (h.2 a ha)⟩

theorem Agree.bind {x y : Except ε α} {f g : α → Except ε β} {P : α → Prop} {Q : β → Prop}
    (h : Agree x y P) (hfg : ∀ a, P a → Agree (f a) (g a) Q) : Agree (x >>= f) (y >>= g) Q := by
  obtain ⟨rfl, hP⟩ := h
  cases x with
  | error e => exact Agree.error e Q
  | ok a => exact hfg a (hP a rfl)

end Bind

/-! ### Words and integers -/

/-- `align_pos`. -/
def alignPos (pos mask : ℕ) : ℕ := pos &&& mask

/-- The complement of a mask in a 64-bit word. -/
def notMask (mask : ℕ) : ℕ := 2 ^ 64 - 1 - mask

/-- `make_aligned_mask`. -/
def makeAlignedMask (alignment n : ℕ) : ℕ := n - alignment

/-- `aligned_mask_to_capacity`. -/
def alignedMaskToCapacity (alignment mask : ℕ) : ℕ := mask + alignment

/-- `ceil_div`; the division of the source rounds toward zero. -/
def ceilDiv (x n : ℤ) : ℤ := (x + n - 1).tdiv n

/-- `bit_ceil` on `int_t`, for numbers from 0 to `2 ^ 62`.  The power of two above a larger number does
not fit the type: the source gets the least `int_t` there, which `resize` and `reserve` then raise
to the minimum capacity.  That is outside the model, which stops with an error. -/
def bitCeil (x : ℤ) : Except Err ℕ :=
  if 0 ≤ x ∧ x ≤ 2 ^ 62 then .ok (PowTwo.ceilPow x.toNat) else .error .overflow

/-- `n << 1` on a capacity. -/
def shl1 (n : ℕ) : Except Err ℕ := if 2 ^ 62 < 2 * n then .error .overflow else .ok (2 * n)

theorem bitCeil_eq {x : ℕ} (h : x ≤ 2 ^ 62) : bitCeil x = .ok (PowTwo.ceilPow x) := by
  rw [bitCeil, if_pos ⟨by omega, by omega⟩, Int.toNat_natCast]

/-- A result of `bit_ceil` is a power of two that fits `int_t`. -/
theorem bitCeil_ok {x : ℤ} {c : ℕ} (h : bitCeil x = .ok c) :
    0 ≤ x ∧ x ≤ 2 ^ 62 ∧ c = PowTwo.ceilPow x.toNat := by
  unfold bitCeil at h
  split_ifs at h with h1
  exact ⟨h1.1, h1.2, (Except.ok.inj h).symm⟩

theorem bitCeil_error {x : ℤ} {e : Err} (h : bitCeil x = .error e) :
    e = .overflow ∧ (x < 0 ∨ 2 ^ 62 < x) := by
  unfold bitCeil at h
  split_ifs at h with hx
  exact ⟨(Except.error.inj h).symm, by omega⟩

theorem shl1_error {n : ℕ} {e : Err} (h : shl1 n = .error e) :
    e = .overflow ∧ 2 ^ 62 < 2 * n := by
  unfold shl1 at h
  split_ifs at h with hn
  exact ⟨(Except.error.inj h).symm, hn⟩

theorem shl1_ok {n m : ℕ} (h : shl1 n = .ok m) : m = 2 * n ∧ 2 * n ≤ 2 ^ 62 := by
  unfold shl1 at h
  split_ifs at h with h1
  exact ⟨(Except.ok.inj h).symm, by omega⟩

end Nvhm
