import NvHashMap.Lib.Trace
import NvHashMap.Map.Run

/-! # The probe sequences that a call starts

`startsInsert`, `startsErase` and `startsResize` list the keys whose probe sequences a call starts,
in the order of the source.  `reinsert`, `locateFirst`, `insertReusing` and `insertFresh` are one
probe loop each, for one key.  The traced functions are those of the map with that key noted at each
of these loops.  They have the results of the functions, and note the keys of the lists
(`traceResize_yields`, `traceInsert_yields`, `traceErase_yields`). -/

namespace Nvhm

open Trace

namespace Map
variable {κ ν : Type} {T : MapType κ} [Inhabited κ] [Inhabited ν] (B : BucketOps)

/-! ### The keys -/

/-- The keys whose sequences one attempt of `resize_` starts. -/
def startsReinsertAll (old : Map T ν) : List ℕ → Map T ν → List κ
  | [], _ => []
  | pos :: ps, m =>
      old.keyAt pos :: match reinsert B old m pos with
        | .ok (some m) => startsReinsertAll old ps m
        | _ => []

/-- The keys whose sequences the loop of `resize_` starts. -/
def startsRehash (old : Map T ν) : ℕ → ℕ → List κ
  | 0, _ => []
  | n + 1, end_ =>
      startsReinsertAll B old (old.positions B) (old.alloc end_).reset ++
        match reinsertAll B old (old.positions B) (old.alloc end_).reset, shl1 end_ with
        | .ok none, .ok end_ => if T.seq.isUnbounded then [] else startsRehash old n end_
        | _, _ => []

/-- The keys whose sequences `resize_` starts. -/
def startsResize (m : Map T ν) (end_ : ℕ) : List κ :=
  match m.resizeTarget end_ with
  | .ok end_ => if end_ = m.capacity then [] else startsRehash B m 64 end_
  | .error _ => []

/-- The keys whose sequences a growth starts, and those that follow. -/
def startsGrow (m : Map T ν) (next : Map T ν → List κ) : List κ :=
  match shl1 m.capacity with
  | .ok end_ =>
      startsResize B m end_ ++ match resize_ B m end_ with
        | .ok (_, m) => next m
        | .error _ => []
  | .error _ => []

/-- The keys whose sequences the outer loop of `insert_` starts. -/
def startsInsertLoop (key : κ) : ℕ → Map T ν → List κ
  | 0, _ => []
  | n + 1, m =>
      key :: match if m.numTombstone ≠ 0 then insertReusing B m key else insertFresh B m key with
        | .ok none => if T.seq.isUnbounded then [] else startsGrow B m (startsInsertLoop key n)
        | _ => []

/-- The keys whose sequences `insert_` starts. -/
def startsInsert (m : Map T ν) (key : κ) : List κ :=
  if m.isFull then
    startsGrow B m fun m => if m.isFull then [] else startsInsertLoop B key 64 m
  else startsInsertLoop B key 64 m

/-- The keys whose sequences `erase_first_` starts, if it does not scrub. -/
def startsErase (m : Map T ν) (key : κ) : List κ :=
  key :: match m.locateFirst B key with
    | .ok (some (pos, b), _) =>
        let m := m.free b pos
        if T.autoShrink && m.conf.shouldShrink m.capacity m.numEmpty m.numTombstone then
          startsResize B m (m.capacity / 2)
        else []
    | _ => []

/-! ### Traced calls -/

/-- `reinsertAll`. -/
def traceReinsertAll (old : Map T ν) : List ℕ → Map T ν → Trace κ Err (Option (Map T ν))
  | [], m => pure (some m)
  | pos :: ps, m => do
      match ← note [old.keyAt pos] (reinsert B old m pos) with
      | some m => traceReinsertAll old ps m
      | none => pure none

/-- `rehash`. -/
def traceRehash (old : Map T ν) : ℕ → ℕ → Trace κ Err (ℕ × Map T ν)
  | 0, _ => lift (.error .outOfFuel)
  | n + 1, end_ => do
      match ← traceReinsertAll B old (old.positions B) (old.alloc end_).reset with
      | some m => pure (end_, m)
      | none =>
          if T.seq.isUnbounded then lift (.error .resizeError)
          else do
            let end_ ← lift (shl1 end_)
            traceRehash old n end_

/-- `resize_`. -/
def traceResize (m : Map T ν) (end_ : ℕ) : Trace κ Err (ℕ × Map T ν) := do
  let end_ ← lift (m.resizeTarget end_)
  if end_ = m.capacity then pure (end_, m)
  else
    let (end_, m') ← traceRehash B m 64 end_
    pure (end_, m'.subEmpty m.size)

/-- The growth of a full table. -/
def traceGrow (m : Map T ν) : Trace κ Err (ℕ × Map T ν) := do
  let end_ ← lift (shl1 m.capacity)
  traceResize B m end_

/-- `insertLoop`. -/
def traceInsertLoop (key : κ) : ℕ → Map T ν → Trace κ Err (InsertResult T ν)
  | 0, _ => lift (.error .outOfFuel)
  | n + 1, m => do
      match ← note [key] (if m.numTombstone ≠ 0 then insertReusing B m key
          else insertFresh B m key) with
      | some r => pure r
      | none =>
          if T.seq.isUnbounded then lift (.error .insertError)
          else do
            let (_, m) ← traceGrow B m
            traceInsertLoop key n m

/-- `insert_`. -/
def traceInsert (m : Map T ν) (key : κ) : Trace κ Err (InsertResult T ν) :=
  if m.isFull then do
    let (_, m) ← traceGrow B m
    if m.isFull then lift (.error .stillFull) else traceInsertLoop B key 64 m
  else traceInsertLoop B key 64 m

/-- `auto_shrink_and_scub_`; what a scrub starts is given. -/
def traceAutoShrinkAndScub (scrubs : Map T ν → List κ) (m : Map T ν) (numBurried : ℤ) :
    Trace κ Err (Bool × Map T ν) :=
  if T.autoShrink && m.conf.shouldShrink m.capacity m.numEmpty m.numTombstone then do
    let (_, m) ← traceResize B m (m.capacity / 2)
    pure (false, m)
  else if T.autoScrub && (numBurried != 0) && m.conf.shouldScrub m.capacity m.numTombstone then do
    let (_, m) ← note (scrubs m) (scrub_ B m)
    pure (false, m)
  else pure (true, m)

/-- `erase_first_`. -/
def traceErase (scrubs : Map T ν → List κ) (m : Map T ν) (key : κ) :
    Trace κ Err ((Bool × Option ℕ × ProbeSeq) × Map T ν) := do
  match ← note [key] (m.locateFirst B key) with
  | (some (pos, haveEmpty), q) =>
      let (keep, m) ← traceAutoShrinkAndScub B scrubs (m.free haveEmpty pos)
        (if haveEmpty then 0 else 1)
      pure ((true, if keep then some pos else none, q), m)
  | (none, q) => pure ((false, none, q), m)

/-! ### What they note -/

theorem traceReinsertAll_yields (old : Map T ν) : ∀ (ps : List ℕ) (m : Map T ν),
    (traceReinsertAll B old ps m).Yields (reinsertAll B old ps m) (startsReinsertAll B old ps m)
  | [], m => yields_pure _
  | pos :: ps, m => by
      rw [traceReinsertAll, reinsertAll, startsReinsertAll]
      cases reinsert B old m pos with
      | error e => exact (yields_note _ _).error_bind
      | ok r =>
          refine note_bind ?_
          cases r with
          | some m => exact traceReinsertAll_yields old ps m
          | none => exact yields_pure _

theorem traceRehash_yields (old : Map T ν) : ∀ (n end_ : ℕ),
    (traceRehash B old n end_).Yields (rehash B old n end_) (startsRehash B old n end_)
  | 0, _ => yields_lift _
  | n + 1, end_ => by
      rw [traceRehash, rehash, startsRehash]
      have hn := traceReinsertAll_yields B old (old.positions B) (old.alloc end_).reset
      cases hr : reinsertAll B old (old.positions B) (old.alloc end_).reset with
      | error e =>
          rw [hr] at hn
          rw [List.append_nil]
          exact hn.error_bind
      | ok r =>
          rw [hr] at hn
          refine hn.ok_bind ?_
          cases r with
          | some m => exact yields_pure _
          | none =>
              dsimp only
              cases hend : shl1 end_ with
              | error e =>
                  split_ifs with hS
                  · exact yields_lift _
                  · exact (yields_lift _).error_bind
              | ok end_ =>
                  dsimp only
                  split_ifs with hS
                  · exact yields_lift _
                  · exact lift_bind (traceRehash_yields old n end_)

theorem traceResize_yields (m : Map T ν) (end_ : ℕ) :
    (traceResize B m end_).Yields (m.resize_ B end_) (m.startsResize B end_) := by
  rw [traceResize, resize_, startsResize]
  cases hend : m.resizeTarget end_ with
  | error e => exact (yields_lift _).error_bind
  | ok n =>
      refine lift_bind ?_
      rw [ok_bind]
      by_cases hcap : n = m.capacity
      · simp only [if_pos hcap]
        exact yields_pure _
      simp only [if_neg hcap]
      have hn := traceRehash_yields B m 64 n
      cases hr : rehash B m 64 n with
      | error e =>
          rw [hr] at hn
          exact hn.error_bind
      | ok r =>
          rw [hr] at hn
          exact hn.ok_pure rfl

/-- A growth, followed by a computation that starts the keys of `next`. -/
theorem traceGrow_bind (m : Map T ν) {α : Type} {f : Map T ν → Trace κ Err α}
    {g : Map T ν → Except Err α} {next : Map T ν → List κ}
    (hf : ∀ m, (f m).Yields (g m) (next m)) :
    (do let (_, m) ← traceGrow B m; f m : Trace κ Err α).Yields
      (do let (_, m) ← resize_ B m (← shl1 m.capacity); g m) (startsGrow B m next) := by
  rw [startsGrow]
  have hgrow : (traceGrow B m).Yields (do resize_ B m (← shl1 m.capacity))
      (match shl1 m.capacity with
        | .ok end_ => startsResize B m end_
        | .error _ => []) := by
    rw [traceGrow]
    cases hend : shl1 m.capacity with
    | error e => exact (yields_lift _).error_bind
    | ok end_ => exact lift_bind (traceResize_yields B m end_)
  cases hend : shl1 m.capacity with
  | error e =>
      rw [hend] at hgrow
      exact hgrow.error_bind
  | ok end_ =>
      rw [hend] at hgrow
      dsimp only
      rw [ok_bind] at hgrow ⊢
      cases hr : resize_ B m end_ with
      | error e =>
          rw [hr] at hgrow
          rw [List.append_nil]
          exact hgrow.error_bind
      | ok r =>
          rw [hr] at hgrow
          exact hgrow.ok_bind (hf r.2)

theorem traceInsertLoop_yields (key : κ) : ∀ (n : ℕ) (m : Map T ν),
    (traceInsertLoop B key n m).Yields (insertLoop B key n m) (startsInsertLoop B key n m)
  | 0, _ => yields_lift _
  | n + 1, m => by
      rw [traceInsertLoop, insertLoop, startsInsertLoop]
      -- the loops with and without tombstones end in the same way
      have hloop : ∀ x : Except Err (Option (InsertResult T ν)),
          (do match ← note [key] x with
              | some r => pure r
              | none =>
                  if T.seq.isUnbounded then lift (.error .insertError)
                  else do
                    let (_, m) ← traceGrow B m
                    traceInsertLoop B key n m : Trace κ Err (InsertResult T ν)).Yields
          (do match ← x with
              | some r => .ok r
              | none =>
                  if T.seq.isUnbounded then .error .insertError
                  else do
                    let (_, m) ← resize_ B m (← shl1 m.capacity)
                    insertLoop B key n m)
          (key :: match x with
            | .ok none => if T.seq.isUnbounded then [] else startsGrow B m (startsInsertLoop B key n)
            | _ => []) := by
        rintro (e | _ | r)
        · exact (yields_note [key] _).error_bind
        · refine note_bind ?_
          dsimp only
          rw [ok_bind]
          split_ifs with hS
          · exact yields_lift _
          · exact traceGrow_bind B m (traceInsertLoop_yields key n)
        · exact note_bind (yields_pure r)
      by_cases htomb : m.numTombstone ≠ 0
      · simp only [if_pos htomb]
        exact hloop _
      · simp only [if_neg htomb]
        exact hloop _

theorem traceInsert_yields (m : Map T ν) (key : κ) :
    (traceInsert B m key).Yields (m.insert B key) (m.startsInsert B key) := by
  rw [traceInsert, insert, startsInsert]
  have hgrown : ∀ m : Map T ν,
      (if m.isFull then lift (.error .stillFull) else traceInsertLoop B key 64 m).Yields
        (if m.isFull then .error .stillFull else insertLoop B key 64 m)
        (if m.isFull then [] else startsInsertLoop B key 64 m) := by
    intro m
    split_ifs with hstill
    · exact yields_lift _
    · exact traceInsertLoop_yields B key 64 m
  split_ifs with hfull
  · exact traceGrow_bind B m hgrown
  · exact traceInsertLoop_yields B key 64 m

theorem traceAutoShrinkAndScub_yields (scrubs : Map T ν → List κ) {m : Map T ν} {n : ℤ}
    (hno : m.wouldScrub n = false) :
    (traceAutoShrinkAndScub B scrubs m n).Yields (autoShrinkAndScub B m n)
      (if T.autoShrink && m.conf.shouldShrink m.capacity m.numEmpty m.numTombstone then
        startsResize B m (m.capacity / 2) else []) := by
  rw [wouldScrub] at hno
  rw [traceAutoShrinkAndScub, autoShrinkAndScub]
  cases hshrink : T.autoShrink && m.conf.shouldShrink m.capacity m.numEmpty m.numTombstone with
  | true =>
      simp only [if_true]
      have hn := traceResize_yields B m (m.capacity / 2)
      cases hr : resize_ B m (m.capacity / 2) with
      | error e =>
          rw [hr] at hn
          exact hn.error_bind
      | ok r =>
          rw [hr] at hn
          exact hn.ok_pure rfl
  | false =>
      rw [hshrink, Bool.not_false, Bool.true_and] at hno
      simp only [hno, Bool.false_eq_true, if_false]
      exact yields_pure _

/-- An erase that does not scrub notes the keys of the list. -/
theorem traceErase_yields (scrubs : Map T ν → List κ) {m : Map T ν} {key : κ}
    (hs : m.scrubArg B (.eraseFirst key : Op κ ν) = none) :
    (traceErase B scrubs m key).Yields (m.eraseFirst B key) (m.startsErase B key) := by
  rw [traceErase, eraseFirst, startsErase]
  rw [scrubArg] at hs
  cases hloc : m.locateFirst B key with
  | error e => exact (yields_note _ _).error_bind
  | ok r =>
      rw [hloc] at hs
      refine note_bind ?_
      obtain ⟨_ | ⟨pos, b⟩, q⟩ := r
      · exact yields_pure _
      have hno : (m.free b pos).wouldScrub (burried b) = false := by
        by_contra hc
        rw [onFree, onScrub, if_pos (Bool.eq_true_of_not_eq_false hc)] at hs
        cases hs
      have hn := traceAutoShrinkAndScub_yields B scrubs hno
      rw [burried] at hn
      rw [ok_bind]
      dsimp only
      unfold eraseSlot resetSlot
      cases hr : autoShrinkAndScub B (m.free b pos) (if b then 0 else 1) with
      | error e =>
          rw [hr] at hn
          exact hn.error_bind
      | ok r =>
          rw [hr] at hn
          exact hn.ok_pure rfl

end Map

end Nvhm
