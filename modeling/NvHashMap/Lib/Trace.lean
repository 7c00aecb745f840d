import Mathlib.Control.Monad.Writer

/-! # Computations with a trace

A computation may fail, and it lists the events on its way, also if it fails.  A traced copy of a
function is tied to the function by `Yields`: the copy has the result of the function, and lists the
given events. -/

variable {ι ε α β : Type}

/-- A computation that may fail, and that lists events of type `ι`. -/
abbrev Trace (ι ε α : Type) := ExceptT ε (Writer (List ι)) α

namespace Trace

/-- A result, after the given events. -/
def note (l : List ι) (r : Except ε α) : Trace ι ε α := ExceptT.mk (WriterT.mk (r, l))

/-- A result without events. -/
def lift (r : Except ε α) : Trace ι ε α := note [] r

/-- The computation has the result `r`, after the events `l`. -/
def Yields (x : Trace ι ε α) (r : Except ε α) (l : List ι) : Prop := x.run.run = (r, l)

theorem yields_note (l : List ι) (r : Except ε α) : (note l r).Yields r l := rfl

theorem yields_lift (r : Except ε α) : (lift r : Trace ι ε α).Yields r [] := rfl

theorem yields_pure (a : α) : (pure a : Trace ι ε α).Yields (.ok a) [] := rfl

/-- The rule for a computation that goes on. -/
theorem Yields.ok_bind {x : Trace ι ε α} {f : α → Trace ι ε β} {a : α} {r : Except ε β}
    {l l' : List ι} (hx : x.Yields (.ok a) l) (hf : (f a).Yields r l') :
    (x >>= f).Yields r (l ++ l') := by
  obtain rfl : x = note l (.ok a) := hx
  obtain hf : f a = note l' r := hf
  change ((ExceptT.bindCont f (.ok a)).run.1, l ++ (ExceptT.bindCont f (.ok a)).run.2) = (r, l ++ l')
  rw [ExceptT.bindCont, hf]
  rfl

/-- The rule for a computation that fails. -/
theorem Yields.error_bind {x : Trace ι ε α} {f : α → Trace ι ε β} {e : ε} {l : List ι}
    (hx : x.Yields (.error e) l) : (x >>= f).Yields (.error e) l := by
  obtain rfl : x = note l (.error e) := hx
  change (Except.error e, l ++ []) = (Except.error e, l)
  rw [List.append_nil]

/-- The rule for a computation whose last step lists no events. -/
theorem Yields.ok_pure {x : Trace ι ε α} {f : α → Trace ι ε β} {a : α} {b : β} {l : List ι}
    (hx : x.Yields (.ok a) l) (hf : f a = pure b) : (x >>= f).Yields (.ok b) l := by
  have hall := hx.ok_bind (f := f) (r := .ok b) (by rw [hf]; exact yields_pure b)
  rwa [List.append_nil] at hall

theorem lift_bind {f : α → Trace ι ε β} {a : α} {r : Except ε β} {l : List ι}
    (hf : (f a).Yields r l) : (lift (.ok a) >>= f).Yields r l := (yields_lift _).ok_bind hf

theorem note_bind {f : α → Trace ι ε β} {a : α} {r : Except ε β} {i : ι} {l : List ι}
    (hf : (f a).Yields r l) : (note [i] (.ok a) >>= f).Yields r (i :: l) :=
  (yields_note [i] _).ok_bind hf

end Trace
