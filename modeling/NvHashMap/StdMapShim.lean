import NvHashMap.Iteration

/-! # `std_map_shim`

`std_map_shim.hpp`, over a map: `erase(first, last)` erases at an advancing iterator
(`eraseRange`), and `entriesIn` are the entries of a range. -/

namespace Nvhm

open Buffer SlotCount

/-- The exceptions of `std_map_shim`, and the errors of the map below. -/
inductive ShimErr where
  | outOfRange (what : String)
  | runtimeError (what : String)
  | inner (e : Err)
  deriving DecidableEq, Repr

namespace Map
variable {κ ν : Type} {T : MapType κ} [Inhabited κ] [Inhabited ν]

/-! ### The calls -/

section Defs
variable (B : BucketOps)

/-- `erase(iterator&)`. -/
def eraseIter (m : Map T ν) (pos : ℤ) : Except ShimErr (Map T ν) :=
  if pos < 0 then .error (.inner .badPos)
  else
    match m.eraseAt B pos.toNat with
    | .ok ((true, _), m) => .ok m
    | .ok ((false, _), _) => .error (.outOfRange "The iterator did not point to a valid entry!")
    | .error e => .error (.inner e)

/-- The loop of `erase(first, last)`; the iterator advances in every round. -/
def eraseRangeLoop (last : ℤ) : ℕ → ℤ → Map T ν → Except ShimErr (ℤ × Map T ν)
  | 0, first, m => .ok (first, m)
  | n + 1, first, m =>
      if first < last then do
        let m ← m.eraseIter B first
        eraseRangeLoop last n (m.outer.next first) m
      else .ok (first, m)

/-- `erase(first, last)`. -/
def eraseRange (m : Map T ν) (first last : ℤ) : Except ShimErr (ℤ × Map T ν) :=
  if T.autoShrink then
    .error (.runtimeError "Erasing a range is not supported when `auto_shrink` is enabled!")
  else m.eraseRangeLoop B last (last - first).toNat first

/-- The entries in the slots from `a` to before `b`. -/
def entriesIn (m : Map T ν) (a b : ℤ) : Multiset (κ × ν × List Byte) :=
  collect m.capacity (fun p => m.containsAt p && decide (a ≤ p) && decide ((p : ℤ) < b)) m.entryAt

end Defs

/-! ### Entries of a range -/

section Range
variable {m : Map T ν}

theorem entriesIn_eq_zero {a b : ℤ} (h : b ≤ a) : m.entriesIn a b = 0 := by
  refine collect_eq_zero fun p _ => ?_
  simp only [Bool.and_eq_false_iff, decide_eq_false_iff_not]
  omega

/-- The range of the iterators from `begin` to `end` has all entries. -/
theorem entriesIn_all {a : ℤ} (h : ∀ p, m.Occupied p → a ≤ p) :
    m.entriesIn a m.outer.end_ = m.entries := by
  refine collect_congr (fun p hp => ?_) fun _ _ _ => rfl
  have hlt : (p : ℤ) < m.outer.end_ := Int.ofNat_lt.mpr hp
  cases hc : m.containsAt p with
  | false => rfl
  | true => simp [hlt, h p ⟨hp, hc⟩]

/-- `++` skips no entry. -/
theorem entriesIn_next (m : Map T ν) (a b : ℤ) :
    m.entriesIn (m.outer.next a) b = m.entriesIn (a + 1) b := by
  obtain ⟨-, hlt, hle⟩ := m.outer.next_spec a
  refine collect_congr (fun p hp => ?_) fun _ _ _ => rfl
  cases hc : m.containsAt p with
  | false => rfl
  | true =>
      have hiff : m.outer.next a ≤ p ↔ a + 1 ≤ (p : ℤ) :=
        ⟨fun h => by omega, fun h => hle p (fun _ _ => hc) (by omega)⟩
      simp [hiff]

/-- An erase at the start of a range. -/
theorem entriesIn_free (h : Shape m) {pos : ℕ} (ho : m.Occupied pos) (b : Bool) {last : ℤ}
    (hlt : (pos : ℤ) < last) :
    m.entriesIn pos last = m.entryAt pos ::ₘ (m.free b pos).entriesIn (pos + 1) last := by
  have hst := free_stateAt h b ho.1
  have hcap : (m.free b pos).capacity = m.capacity := (free_frame m b pos).capacity
  unfold entriesIn
  rw [hcap, free_entryAt]
  refine collect_insert ho.1 (by simp) ?_ (fun q hq => ?_) fun _ _ _ => rfl
  · simp [ho.2, hlt]
  · have hc : (m.free b pos).containsAt q = m.containsAt q := by
      rw [containsAt, containsAt, hst, Function.update_of_ne hq]
    rw [hc]
    congr 2
    exact decide_eq_decide.mpr (by omega)

end Range

/-! ### Kernels -/

section Agree
variable {B : BucketOps} (hB : B.Lawful T.kernelSize)
include hB

/-- The kernel does not matter. -/
theorem eraseIter_agree {m : Map T ν} (h : Sound m) (pos : ℤ) :
    Agree (m.eraseIter B pos) (m.eraseIter ideal pos) Sound := by
  obtain ⟨heq, hgood⟩ := eraseAt_agree hB h pos.toNat
  unfold eraseIter
  rw [heq]
  split_ifs
  · exact Agree.error _ _
  · cases hr : m.eraseAt ideal pos.toNat with
    | error e => exact Agree.error _ _
    | ok r =>
        obtain ⟨⟨b, p⟩, m'⟩ := r
        cases b with
        | false => exact Agree.error _ _
        | true => exact Agree.ok (hgood _ hr).sound

theorem eraseRangeLoop_agree (last : ℤ) : ∀ (n : ℕ) (first : ℤ) {m : Map T ν}, Sound m →
    Agree (m.eraseRangeLoop B last n first) (m.eraseRangeLoop ideal last n first) fun r => Sound r.2
  | 0, _, _, h => Agree.ok h
  | n + 1, first, m, h => by
      rw [eraseRangeLoop, eraseRangeLoop]
      split_ifs
      · exact (eraseIter_agree hB h first).bind fun m₁ h₁ => eraseRangeLoop_agree last n _ h₁
      · exact Agree.ok h

theorem eraseRange_agree {m : Map T ν} (h : Sound m) (first last : ℤ) :
    Agree (m.eraseRange B first last) (m.eraseRange ideal first last) fun r => Sound r.2 := by
  unfold eraseRange
  split_ifs
  · exact Agree.error _ _
  · exact eraseRangeLoop_agree hB last _ first h

end Agree

end Map

end Nvhm
