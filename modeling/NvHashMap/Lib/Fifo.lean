import Mathlib.Data.List.TakeDrop

/-! # First in, first out

A queue of fixed capacity is used in two ways: a push into a full queue returns the oldest entry, and
a pop shortens the queue.  `IsFifo` says what one push and one pop do, for the list of entries that a
queue holds; `pushAll_eq` and `popAll_eq` are what follows for whole runs. -/

namespace Fifo

variable {Q ε : Type}

/-- Pushes, one after the other, with the entries that they return. -/
def pushAll (push : Q → ε → Option (ε × Q)) : List ε → Q → Option (List ε × Q)
  | [], q => some ([], q)
  | e :: es, q => do
      let (x, q) ← push q e
      let (xs, q) ← pushAll push es q
      some (x :: xs, q)

/-- Pops, one after the other, with the entries that they return. -/
def popAll (pop : Q → Option (ε × Q)) : ℕ → Q → Option (List ε × Q)
  | 0, q => some ([], q)
  | n + 1, q => do
      let (x, q) ← pop q
      let (xs, q) ← popAll pop n q
      some (x :: xs, q)

/-- What one push and one pop do; `holds q l` says that the entries of `q` are `l`, oldest first. -/
structure IsFifo (capacity : ℕ) (push : Q → ε → Option (ε × Q)) (pop : Q → Option (ε × Q))
    (holds : Q → List ε → Prop) : Prop where
  push : ∀ q x l e, holds q (x :: l) → l.length + 1 = capacity →
    ∃ q', push q e = some (x, q') ∧ holds q' (l ++ [e])
  pop : ∀ q x l, holds q (x :: l) → ∃ q', pop q = some (x, q') ∧ holds q' l

variable {capacity : ℕ} {push : Q → ε → Option (ε × Q)} {pop : Q → Option (ε × Q)}
  {holds : Q → List ε → Prop}

/-- The pushes return the entries in the order in which they came in, and leave the last ones. -/
theorem IsFifo.pushAll_eq (h : IsFifo capacity push pop holds) (hpos : 0 < capacity) :
    ∀ (es : List ε) {q : Q} {l : List ε}, holds q l → l.length = capacity →
      ∃ q', pushAll push es q = some ((l ++ es).take es.length, q') ∧
        holds q' ((l ++ es).drop es.length)
  | [], q, l, hq, _ => ⟨q, by simp [pushAll], by simpa using hq⟩
  | e :: es, q, l, hq, hl => by
      cases l with
      | nil => exact absurd hl (Nat.ne_of_lt hpos)
      | cons x l =>
          obtain ⟨q₁, hpush, hq₁⟩ := h.push q x l e hq hl
          obtain ⟨q', hrun, hq'⟩ := h.pushAll_eq hpos es hq₁ (by simpa using hl)
          rw [List.append_assoc, List.singleton_append] at hrun hq'
          refine ⟨q', ?_, hq'⟩
          unfold pushAll
          rw [hpush, Option.bind_eq_bind, Option.bind_some]
          dsimp only
          rw [hrun]
          rfl

/-- The pops return the entries, the oldest first. -/
theorem IsFifo.popAll_eq (h : IsFifo capacity push pop holds) :
    ∀ (n : ℕ) {q : Q} {l : List ε}, holds q l → n ≤ l.length →
      ∃ q', popAll pop n q = some (l.take n, q') ∧ holds q' (l.drop n)
  | 0, q, l, hq, _ => ⟨q, rfl, hq⟩
  | n + 1, q, l, hq, hn => by
      cases l with
      | nil => exact absurd hn (Nat.not_succ_le_zero n)
      | cons x l =>
          obtain ⟨q₁, hpop, hq₁⟩ := h.pop q x l hq
          obtain ⟨q', hrun, hq'⟩ := h.popAll_eq n hq₁ (Nat.le_of_succ_le_succ hn)
          refine ⟨q', ?_, hq'⟩
          unfold popAll
          rw [hpop, Option.bind_eq_bind, Option.bind_some]
          dsimp only
          rw [hrun]
          rfl

end Fifo
