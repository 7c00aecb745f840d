import NvHashMap.Map.Objects

/-! # Allocations that fail

What an exception of the allocator leaves of a map.

* `alloc_` changes the capacity first and allocates the states last; `allocThrow` is what it leaves
  when its allocation number `n` fails.
* `resize_` moves the old arrays to local variables before that.  `resizeThrow` counts the
  allocations of all its rounds.  In the first one the map owns new arrays only, in the others also
  those of the round before.
* Nothing catches the exception: what a call leaves is what its `resize_` leaves (`resizes` lists
  them), or its `alloc_`. -/

namespace Nvhm

open Arena

variable {κ ν : Type} {T : MapType κ}

namespace Part

/-- The allocations of `alloc_`, in their order. -/
def order : Part → ℕ
  | .values => 0
  | .blobs => 1
  | .keys => 2
  | .states => 3

/-- The length of an array. -/
def size (conf : Conf T.conf) (end_ : ℕ) : Part → ℕ
  | .blobs => end_ * conf.blobStride
  | _ => end_

end Part

/-- A map object after an exception: `owned` are the lengths of the arrays that it owns.  What the
arrays hold is not modelled. -/
structure Wreck (T : MapType κ) where
  conf : Conf T.conf
  bucketMask : ℕ
  owned : Part → Option ℕ

namespace Wreck

/-- `capacity`. -/
def capacity (w : Wreck T) : ℕ := alignedMaskToCapacity T.kernelSize w.bucketMask

/-- The arrays that are owned have the lengths that the capacity asks for. -/
def Sized (w : Wreck T) : Prop := ∀ p k, w.owned p = some k → k = p.size w.conf w.capacity

/-- All arrays are owned, and have the lengths that the capacity asks for. -/
def Whole (w : Wreck T) : Prop := ∀ p, w.owned p = some (p.size w.conf w.capacity)

theorem Whole.states {w : Wreck T} (h : w.Whole) : w.owned .states = some w.capacity := h .states

theorem Whole.sized {w : Wreck T} (h : w.Whole) : w.Sized :=
  fun p _ hk => Option.some.inj (hk.symm.trans (h p))

end Wreck

/-- `alloc_`, when its allocation number `n` fails. -/
def allocThrow (conf : Conf T.conf) (owned : Part → Option ℕ) (end_ n : ℕ) : Wreck T where
  conf := conf
  bucketMask := makeAlignedMask T.kernelSize end_
  owned p := if p.order < n then some (p.size conf end_) else owned p

theorem allocThrow_capacity (conf : Conf T.conf) (owned : Part → Option ℕ) {end_ : ℕ} (n : ℕ)
    (hK : T.kernelSize ≤ end_) : (allocThrow conf owned end_ n).capacity = end_ := by
  change end_ - T.kernelSize + T.kernelSize = end_
  omega

/-- If nothing was owned before, the arrays that are owned are new ones. -/
theorem allocThrow_sized (conf : Conf T.conf) {owned : Part → Option ℕ} {end_ : ℕ} (n : ℕ)
    (hK : T.kernelSize ≤ end_) (hnone : ∀ p, owned p = none) :
    (allocThrow conf owned end_ n).Sized := by
  intro p k hk
  rw [allocThrow_capacity conf owned n hK]
  unfold allocThrow at hk
  dsimp only at hk
  split_ifs at hk
  · exact (Option.some.inj hk).symm
  · rw [hnone] at hk
    cases hk

theorem allocThrow_states (conf : Conf T.conf) (owned : Part → Option ℕ) (end_ : ℕ) {n : ℕ}
    (hn : n < 4) : (allocThrow conf owned end_ n).owned .states = owned .states :=
  if_neg fun h : 3 < n => by omega

namespace Map
variable [Inhabited κ] [Inhabited ν]

/-- The loop of `resize_`, when the allocation number `n` fails.  Each round starts with the arrays of
the round before. -/
def rehashThrow (B : BucketOps) (old : Map T ν) : ℕ → ℕ → (Part → Option ℕ) → ℕ → Option (Wreck T)
  | 0, _, _, _ => none
  | d + 1, end_, owned, n =>
      if n < 4 then some (allocThrow old.conf owned end_ n)
      else
        match reinsertAll B old (old.positions B) (old.alloc end_).reset with
        | .ok none =>
            if T.seq.isUnbounded then none
            else
              match shl1 end_ with
              | .ok e => rehashThrow B old d e (fun p => some (p.size old.conf end_)) (n - 4)
              | .error _ => none
        | _ => none

/-- `resize_`, when its allocation number `n` fails; `none` if it does not make so many. -/
def resizeThrow (B : BucketOps) (m : Map T ν) (end_ n : ℕ) : Option (Wreck T) :=
  match m.resizeTarget end_ with
  | .ok e => if e = m.capacity then none else rehashThrow B m 64 e (fun _ => none) n
  | .error _ => none

/-! ### The calls of `resize_` -/

/-- A table and the capacity that `resize_` is asked for. -/
def resizeTo (m : Map T ν) : Except Err ℕ → List (Map T ν × ℕ)
  | .ok e => [(m, e)]
  | .error _ => []

def insertLoopResizes (B : BucketOps) (key : κ) : ℕ → Map T ν → List (Map T ν × ℕ)
  | 0, _ => []
  | n + 1, m =>
      match if m.numTombstone ≠ 0 then insertReusing B m key else insertFresh B m key with
      | .ok none =>
          if T.seq.isUnbounded then []
          else
            match shl1 m.capacity with
            | .ok e =>
                (m, e) :: match resize_ B m e with
                  | .ok r => insertLoopResizes B key n r.2
                  | .error _ => []
            | .error _ => []
      | _ => []

def insertResizes (B : BucketOps) (m : Map T ν) (key : κ) : List (Map T ν × ℕ) :=
  if m.isFull then
    match shl1 m.capacity with
    | .ok e =>
        (m, e) :: match resize_ B m e with
          | .ok r => if r.2.isFull then [] else insertLoopResizes B key 64 r.2
          | .error _ => []
    | .error _ => []
  else insertLoopResizes B key 64 m

/-- In `auto_shrink_and_scrub_`. -/
def shrinkResizes (m : Map T ν) : List (Map T ν × ℕ) :=
  if T.autoShrink && m.conf.shouldShrink m.capacity m.numEmpty m.numTombstone then
    [(m, m.capacity / 2)]
  else []

/-- After a search for the slot to free. -/
def freeResizes (m : Map T ν) : Except Err (Option (ℕ × Bool) × ProbeSeq) → List (Map T ν × ℕ)
  | .ok (some (p, b), _) => (m.free b p).shrinkResizes
  | _ => []

/-- After the loops of `erase_if_` and `erase_all_`. -/
def finishResizes (old m : Map T ν) : List (Map T ν × ℕ) :=
  if m.numEmpty - old.numEmpty + (m.numTombstone - old.numTombstone) = 0 then []
  else m.shrinkResizes

/-- The tables that a call passes to `resize_`, with the capacities. -/
def resizes (B : BucketOps) (m : Map T ν) : Op κ ν → List (Map T ν × ℕ)
  | .insert key => m.insertResizes B key
  | .eraseFirst key => m.freeResizes (m.locateFirst B key)
  | .eraseNext pos seq key =>
      if T.duplicates ∧ alignPos seq.psl m.bucketMask = seq.psl then
        m.freeResizes (m.locateNext B pos seq key)
      else []
  | .eraseAt pos =>
      if pos < m.capacity ∧ m.containsAt pos then
        let b := B.hasEmpty (m.bucket (alignPos pos (notMask (T.kernelSize - 1))))
        (m.free b pos).shrinkResizes
      else []
  | .eraseIf pred => m.finishResizes (freeIf B pred (offsets T.kernelSize m.capacity) m)
  | .eraseAll key =>
      if T.duplicates then
        match eraseAllLoop B m key with
        | .ok m' => m.finishResizes m'
        | .error _ => []
      else m.freeResizes (m.locateFirst B key)
  | .grow => m.resizeTo (shl1 m.capacity)
  | .shrink =>
      match m.shrinkTarget with
      | .ok e => if e = m.capacity then [] else [(m, e)]
      | .error _ => []
  | .resize n => m.resizeTo ((bitCeil n).map fun c => max c m.conf.minCapacity)
  | .reserve n =>
      if n ≤ m.capacity then []
      else m.resizeTo ((bitCeil n).map fun c => max c m.conf.minCapacity)
  | _ => []

/-- The capacity that `clear` passes to `alloc_`, if it does. -/
def clearAlloc (m : Map T ν) : Op κ ν → Option ℕ
  | .clear => if T.autoShrink && (m.conf.initCapacity != m.capacity) then some m.conf.initCapacity
      else none
  | .clearTo n =>
      match bitCeil (max n m.conf.minCapacity) with
      | .ok c => if c ≠ m.capacity then some c else none
      | .error _ => none
  | _ => none

/-- An allocation of the call fails, and the exception leaves `w`. -/
inductive Throws (B : BucketOps) (m : Map T ν) (op : Op κ ν) (w : Wreck T) : Prop
  | resize {m' : Map T ν} {end_ n : ℕ} (h : (m', end_) ∈ m.resizes B op)
      (hw : m'.resizeThrow B end_ n = some w)
  | clear {c n : ℕ} (h : m.clearAlloc op = some c) (hn : n < 4)
      (hw : w = allocThrow m.conf (fun p => some (m.parts p).length) c n)

/-! ### The tables of `resize_` -/

section Resizes
variable {B : BucketOps} (hB : B.Lawful T.kernelSize) {m : Map T ν} (h : Sound m)
include hB h

/-- A table that has grown. -/
theorem sound_of_grown {e : ℕ} (he : shl1 m.capacity = .ok e) {r : ℕ × Map T ν}
    (hr : m.resize_ B e = .ok r) : Sound r.2 := by
  have hcap := (isCapacity_shl1 h.toShape.isCapacity he).1
  obtain ⟨heq, hgood⟩ := resize_agree hB h (Or.inr hcap)
  exact (hgood r (heq ▸ hr)).sound

omit h in
theorem insertLoopResizes_sound (key : κ) : ∀ (n : ℕ) {m : Map T ν}, Sound m →
    ∀ x ∈ insertLoopResizes B key n m, Sound x.1
  | 0, _, _, x, hx => absurd hx List.not_mem_nil
  | n + 1, m, h, x, hx => by
      rw [insertLoopResizes] at hx
      split at hx
      · split_ifs at hx
        · exact absurd hx List.not_mem_nil
        split at hx
        · next e he =>
            rcases List.mem_cons.mp hx with rfl | hx
            · exact h
            split at hx
            · next r hr => exact insertLoopResizes_sound key n (sound_of_grown hB h he hr) x hx
            · exact absurd hx List.not_mem_nil
        · exact absurd hx List.not_mem_nil
      · exact absurd hx List.not_mem_nil

theorem insertResizes_sound (key : κ) : ∀ x ∈ m.insertResizes B key, Sound x.1 := by
  intro x hx
  unfold insertResizes at hx
  split_ifs at hx
  · split at hx
    · next e he =>
        rcases List.mem_cons.mp hx with rfl | hx
        · exact h
        split at hx
        · next r hr =>
            split_ifs at hx
            · exact absurd hx List.not_mem_nil
            · exact insertLoopResizes_sound hB key 64 (sound_of_grown hB h he hr) x hx
        · exact absurd hx List.not_mem_nil
    · exact absurd hx List.not_mem_nil
  · exact insertLoopResizes_sound hB key 64 h x hx

omit hB [Inhabited ν] in
theorem shrinkResizes_sound : ∀ x ∈ m.shrinkResizes, Sound x.1 := by
  intro x hx
  unfold shrinkResizes at hx
  split_ifs at hx
  · rw [List.mem_singleton.mp hx]
    exact h
  · exact absurd hx List.not_mem_nil

omit hB [Inhabited ν] in
theorem freeResizes_sound {r : Except Err (Option (ℕ × Bool) × ProbeSeq)}
    (hr : ∀ p b q, r = .ok (some (p, b), q) → p < m.capacity) :
    ∀ x ∈ m.freeResizes r, Sound x.1 := by
  intro x hx
  unfold freeResizes at hx
  split at hx
  · next p b q => exact shrinkResizes_sound (h.free (hr p b q rfl) b) x hx
  · exact absurd hx List.not_mem_nil

omit hB h [Inhabited ν] in
theorem finishResizes_sound {old : Map T ν} (h : Sound m) :
    ∀ x ∈ old.finishResizes m, Sound x.1 := by
  intro x hx
  unfold finishResizes at hx
  split_ifs at hx
  · exact absurd hx List.not_mem_nil
  · exact shrinkResizes_sound h x hx

omit hB [Inhabited ν] in
theorem resizeTo_sound (r : Except Err ℕ) : ∀ x ∈ m.resizeTo r, Sound x.1 := by
  intro x hx
  unfold resizeTo at hx
  split at hx
  · rw [List.mem_singleton.mp hx]
    exact h
  · exact absurd hx List.not_mem_nil

/-- The tables that a call passes to `resize_` are sound. -/
theorem resizes_sound (op : Op κ ν) : ∀ x ∈ m.resizes B op, Sound x.1 := by
  have hfirst : ∀ key, ∀ x ∈ m.freeResizes (m.locateFirst B key), Sound x.1 := by
    refine fun key => freeResizes_sound h fun p b q hr => ?_
    rw [locateFirst_eq hB h] at hr
    exact (locateFirst_stores h hr p b rfl).1.1.1
  intro x hx
  unfold resizes at hx
  cases op with
  | insert key => exact insertResizes_sound hB h key x hx
  | eraseFirst key => exact hfirst key x hx
  | eraseNext pos seq key =>
      dsimp only at hx
      split_ifs at hx
      · refine freeResizes_sound h (fun p b q hr => ?_) x hx
        rw [locateNext_eq hB h] at hr
        exact (locateNext_stores h hr p b rfl).1.1.1
      · exact absurd hx List.not_mem_nil
  | eraseAt pos =>
      dsimp only at hx
      split_ifs at hx with hpos
      · exact shrinkResizes_sound (h.free hpos.1 _) x hx
      · exact absurd hx List.not_mem_nil
  | eraseIf pred =>
      obtain ⟨heq, hkept⟩ := freeIf_agree hB pred (offsets T.kernelSize m.capacity) h
        fun o ho => h.mem_offsets.mp ho
      exact finishResizes_sound (heq ▸ hkept.sound) x hx
  | eraseAll key =>
      dsimp only at hx
      split_ifs at hx
      · split at hx
        · next m' hm' =>
            obtain ⟨heq, hkept⟩ := eraseAllLoop_agree hB h key
            exact finishResizes_sound (hkept m' (heq ▸ hm')).sound x hx
        · exact absurd hx List.not_mem_nil
      · exact hfirst key x hx
  | grow => exact resizeTo_sound h _ x hx
  | shrink =>
      dsimp only at hx
      split at hx
      · split_ifs at hx
        · exact absurd hx List.not_mem_nil
        · rw [List.mem_singleton.mp hx]
          exact h
      · exact absurd hx List.not_mem_nil
  | resize n => exact resizeTo_sound h _ x hx
  | reserve n =>
      dsimp only at hx
      split_ifs at hx
      · exact absurd hx List.not_mem_nil
      · exact resizeTo_sound h _ x hx
  | _ => exact absurd hx List.not_mem_nil

end Resizes

/-! ### What is left -/

/-- The allocation that fails is one of this round, or the next round has it. -/
theorem rehashThrow_cases {B : BucketOps} {old : Map T ν} {d end_ n : ℕ} {owned : Part → Option ℕ}
    {w : Wreck T} (hw : rehashThrow B old (d + 1) end_ owned n = some w) :
    n < 4 ∧ w = allocThrow old.conf owned end_ n ∨
      4 ≤ n ∧ ∃ e, shl1 end_ = .ok e ∧
        rehashThrow B old d e (fun p => some (p.size old.conf end_)) (n - 4) = some w := by
  rw [rehashThrow] at hw
  by_cases hn : n < 4
  · rw [if_pos hn] at hw
    exact Or.inl ⟨hn, (Option.some.inj hw).symm⟩
  · rw [if_neg hn] at hw
    refine Or.inr ⟨not_lt.mp hn, ?_⟩
    split at hw
    · split_ifs at hw
      split at hw
      · next e he => exact ⟨e, he, hw⟩
      · cases hw
    · cases hw

/-- In every round the states are those of the round before. -/
theorem rehashThrow_states {B : BucketOps} {old : Map T ν} : ∀ (d : ℕ) {end_ n : ℕ}
    {owned : Part → Option ℕ} {w : Wreck T}, (∀ e, owned .states = some e → 2 * e = end_) →
    rehashThrow B old d end_ owned n = some w → w.owned .states ≠ some w.capacity
  | 0, _, _, _, _, _, hw => by cases hw
  | d + 1, end_, n, owned, w, howned, hw => by
      rcases rehashThrow_cases hw with ⟨hn, rfl⟩ | ⟨-, e, he, hw⟩
      · rw [allocThrow_states _ _ _ hn]
        intro hs
        have htwice := howned _ hs
        have hcap : (allocThrow old.conf owned end_ n).capacity =
            end_ - T.kernelSize + T.kernelSize := rfl
        have := T.kernelSize_pos
        omega
      · refine rehashThrow_states d (fun e' he' => ?_) hw
        rw [← Option.some.inj he', (shl1_ok he).1]
        rfl

theorem resizeThrow_states {B : BucketOps} {m : Map T ν} {end_ n : ℕ} {w : Wreck T}
    (hw : m.resizeThrow B end_ n = some w) : w.owned .states ≠ some w.capacity := by
  unfold resizeThrow at hw
  split at hw
  · split_ifs at hw
    exact rehashThrow_states 64 (fun _ he => by cases he) hw
  · cases hw

/-! ### The lengths that are left -/

/-- In the rounds after the first the map owns states. -/
theorem rehashThrow_owns {B : BucketOps} {old : Map T ν} : ∀ (d : ℕ) {end_ n : ℕ}
    {owned : Part → Option ℕ} {w : Wreck T}, owned .states ≠ none →
    rehashThrow B old d end_ owned n = some w → w.owned .states ≠ none
  | 0, _, _, _, _, _, hw => by cases hw
  | d + 1, end_, n, owned, w, howned, hw => by
      rcases rehashThrow_cases hw with ⟨hn, rfl⟩ | ⟨-, e, -, hw⟩
      · rwa [allocThrow_states _ _ _ hn]
      · exact rehashThrow_owns d (Option.some_ne_none _) hw

/-- After a failure in the first round, and only then, the arrays that the map owns have the length
that its capacity asks for. -/
theorem resizeThrow_sized_iff {B : BucketOps} {m : Map T ν} (hm : Sound m) {end_ n : ℕ}
    {w : Wreck T} (hw : m.resizeThrow B end_ n = some w) : w.Sized ↔ n < 4 := by
  have hstates := resizeThrow_states hw
  unfold resizeThrow at hw
  split at hw
  · next e he =>
      split_ifs at hw
      rcases rehashThrow_cases hw with ⟨hn, rfl⟩ | ⟨hn, e', -, hw⟩
      · refine iff_of_true ?_ hn
        exact allocThrow_sized _ _ ((Conf.kernelSize_le hm.conf_valid).trans
          (minCapacity_le_resizeTarget he)) fun _ => rfl
      · refine iff_of_false (fun hs => ?_) (not_lt.mpr hn)
        obtain ⟨k, hk⟩ := Option.ne_none_iff_exists'.mp
          (rehashThrow_owns 63 (Option.some_ne_none _) hw)
        exact hstates (hk.trans (congrArg some (hs .states k hk)))
  · cases hw

omit [Inhabited ν] in
/-- `clear` allocates for another capacity. -/
theorem clearAlloc_spec {m : Map T ν} (hm : Sound m) {op : Op κ ν} {c : ℕ}
    (h : m.clearAlloc op = some c) : T.kernelSize ≤ c ∧ c ≠ m.capacity := by
  have hmin : T.kernelSize ≤ m.conf.minCapacity := Conf.kernelSize_le hm.conf_valid
  unfold clearAlloc at h
  cases op with
  | clear =>
      dsimp only at h
      split_ifs at h with hc
      obtain rfl := Option.some.inj h
      rw [Bool.and_eq_true, bne_iff_ne] at hc
      exact ⟨hmin.trans m.conf.min_le_init, hc.2⟩
  | clearTo n =>
      dsimp only at h
      cases hb : bitCeil (max n m.conf.minCapacity) with
      | error e =>
          rw [hb] at h
          cases h
      | ok c' =>
          rw [hb] at h
          dsimp only at h
          split_ifs at h with hc
          obtain rfl := Option.some.inj h
          obtain ⟨-, -, heq⟩ := bitCeil_ok hb
          have hle : (max n m.conf.minCapacity).toNat ≤ c' := heq ▸ PowTwo.le_ceilPow _
          exact ⟨by omega, hc⟩
  | _ => cases h

/-- No state array of the length that the capacity asks for. -/
theorem throws_states {B : BucketOps} {m : Map T ν} (hm : Sound m) {op : Op κ ν} {w : Wreck T}
    (h : m.Throws B op w) : w.owned .states ≠ some w.capacity := by
  cases h with
  | resize _ hw => exact resizeThrow_states hw
  | clear h hn hw =>
      obtain ⟨hK, hc⟩ := clearAlloc_spec hm h
      rw [hw, allocThrow_states _ _ _ hn, allocThrow_capacity _ _ _ hK]
      intro hs
      have hlen : m.states.length = _ := Option.some.inj hs
      rw [hm.states_length] at hlen
      exact hc hlen.symm

end Map

/-! ### Copy assignment -/

namespace Handle

/-- The lengths of the arrays of an object. -/
def owned (M : Memory (Part.Elem κ ν)) (h : Handle T) (p : Part) : Option ℕ :=
  (M.read p (h.ptr p)).map List.length

/-- Copy assignment from `m`, when its allocation number `n` fails. -/
def assignThrow (M : Memory (Part.Elem κ ν)) (h : Handle T) (m : Map T ν) (n : ℕ) : Wreck T :=
  allocThrow m.conf (h.owned M) m.capacity n

end Handle

namespace Program
variable [Inhabited κ] [Inhabited ν] {s : Program T ν}

omit [Inhabited κ] [Inhabited ν] in
theorem owned_of_load {M : Memory (Part.Elem κ ν)} {h : Handle T} {m : Map T ν}
    (hm : h.load M = some m) (hs : m.Shape) (p : Part) :
    h.owned M p = some (p.size m.conf m.capacity) := by
  unfold Handle.owned
  rw [(Handle.load_iff.mp hm).1 p, Option.map_some, Map.length_parts hs]
  cases p <;> rfl

omit [Inhabited ν] in
theorem assignThrow_whole {M : Memory (Part.Elem κ ν)} {h : Handle T} (hf : h.Fine M) {m : Map T ν}
    (hm : Map.Sound m) (hneed : NeedAlloc h m) {n : ℕ} (hn : n < 4) :
    (h.assignThrow M m n).Whole ↔
      m.capacity = h.capacity ∧ 2 ≤ n ∧ ∀ p, h.ptr p ≠ none := by
  have hcap : (h.assignThrow M m n).capacity = m.capacity :=
    allocThrow_capacity _ _ _ hm.kernelSize_le
  have hstates : (h.assignThrow M m n).owned .states = h.owned M .states :=
    allocThrow_states _ _ _ hn
  have howns := hf.owns_iff
  rcases hf with ⟨m', hm', hs'⟩ | ⟨hnull, -⟩
  · have howned := owned_of_load hm' hs'.toShape
    have hcap' := Handle.capacity_of_load hm'
    have hconf : h.conf = m'.conf := congrArg Handle.conf (Handle.load_iff.mp hm').2
    have howned' : ∀ {p : Part}, ¬ p.order < n →
        (h.assignThrow M m n).owned p = some (p.size h.conf h.capacity) := by
      intro p hp
      rw [hconf, hcap', ← howned p]
      exact if_neg hp
    constructor
    · intro hw
      have hsame : m.capacity = h.capacity := by
        have hw' := hw.states
        rw [howned' (p := .states) fun h : 3 < n => by omega, hcap] at hw'
        exact (Option.some.inj hw').symm
      refine ⟨hsame, ?_, howns.mpr ⟨m', hm'⟩⟩
      by_contra hlt
      have hblobs := hw .blobs
      rw [howned' (p := .blobs) fun h : 1 < n => by omega, hcap, ← hsame] at hblobs
      have hstride : m.capacity * h.conf.blobStride = m.capacity * m.conf.blobStride :=
        Option.some.inj hblobs
      exact hneed.resolve_left (not_not.mpr hsame)
        (Nat.eq_of_mul_eq_mul_left hm.capacity_pos hstride).symm
    · rintro ⟨hsame, hn, -⟩ p
      rw [hcap]
      by_cases hp : p.order < n
      · exact if_pos hp
      · rw [howned' hp, ← hsame]
        cases p with
        | values => exact absurd (Nat.lt_of_lt_of_le Nat.zero_lt_two hn) hp
        | blobs => exact absurd hn hp
        | keys => rfl
        | states => rfl
  · refine iff_of_false (fun hw => ?_) fun hc => hc.2.2 .keys (congrFun hnull .keys)
    have hw' := hw.states
    rw [hstates] at hw'
    unfold Handle.owned at hw'
    rw [hnull] at hw'
    cases hw'

omit [Inhabited ν] in
theorem assignThrow_sized {M : Memory (Part.Elem κ ν)} {h : Handle T} (hf : h.Fine M) {m : Map T ν}
    (hm : Map.Sound m) (hneed : NeedAlloc h m) {n : ℕ} (hn : n < 4) :
    (h.assignThrow M m n).Sized ↔
      m.capacity = h.capacity ∧ 2 ≤ n ∨ ∀ p, h.ptr p = none := by
  have hwhole := assignThrow_whole hf hm hneed hn
  have howns := hf.owns_iff
  rcases hf with ⟨m', hm', hs'⟩ | ⟨hnull, -⟩
  · have hptr : ∀ p, h.ptr p ≠ none := howns.mpr ⟨m', hm'⟩
    have howned := owned_of_load hm' hs'.toShape
    have hall : (h.assignThrow M m n).Sized ↔ (h.assignThrow M m n).Whole := by
      refine ⟨fun hs p => ?_, Wreck.Whole.sized⟩
      obtain ⟨k, hk⟩ : ∃ k, (h.assignThrow M m n).owned p = some k := by
        unfold Handle.assignThrow allocThrow
        dsimp only
        split_ifs
        · exact ⟨_, rfl⟩
        · exact ⟨_, howned p⟩
      rw [hk, ← hs p k hk]
    rw [hall, hwhole]
    constructor
    · rintro ⟨hcap, h2, -⟩
      exact Or.inl ⟨hcap, h2⟩
    · rintro (⟨hcap, h2⟩ | hnone)
      · exact ⟨hcap, h2, hptr⟩
      · exact absurd (hnone .keys) (hptr .keys)
  · refine iff_of_true ?_ (Or.inr (congrFun hnull))
    refine allocThrow_sized _ _ hm.kernelSize_le fun p => ?_
    unfold Handle.owned
    rw [hnull]
    rfl

/-- When an allocation fails in a call that changes the capacity, the map does not own a state array
of the length of its capacity; the arrays that it owns have that length exactly if the failure is in
the first round of `resize_`.  After a copy assignment they have it exactly if the capacity was the
same and the values and blobs were replaced, or the target had no arrays. -/
theorem alloc_throws (B : Kernel T.kernelSize) (hs : (programs B).Reachable s) :
    (∀ i m, s.load i = some m → ∀ op,
      (∀ w, m.Throws B.ops op w → w.owned .states ≠ some w.capacity) ∧
      (∀ x ∈ m.resizes B.ops op, ∀ n w, x.1.resizeThrow B.ops x.2 n = some w →
        (w.Sized ↔ n < 4)) ∧
      ∀ c, m.clearAlloc op = some c → ∀ n < 4,
        ¬ (allocThrow m.conf (fun p => some (m.parts p).length) c n).Sized) ∧
    ∀ (i j : ℕ) (h : Handle T) (m : Map T ν), s.maps[i]? = some h → s.load j = some m →
      NeedAlloc h m → ∀ n < 4,
        ((h.assignThrow s.memory m n).Whole ↔
          m.capacity = h.capacity ∧ 2 ≤ n ∧ ∀ p, h.ptr p ≠ none) ∧
        ((h.assignThrow s.memory m n).Sized ↔
          m.capacity = h.capacity ∧ 2 ≤ n ∨ ∀ p, h.ptr p = none) := by
  have hv := valid_of_reachable B hs
  refine ⟨fun i m hm op => ⟨fun w hw => Map.throws_states (hv.sound hm) hw, ?_, ?_⟩, ?_⟩
  · intro x hx n w hw
    exact Map.resizeThrow_sized_iff (Map.resizes_sound B.lawful (hv.sound hm) op x hx) hw
  · intro c hc n hn hsized
    have hstates := Map.throws_states (hv.sound hm) (.clear (B := B.ops) hc hn rfl)
    refine hstates ?_
    rw [allocThrow_states _ _ _ hn]
    exact congrArg some (hsized .states _ (allocThrow_states _ _ _ hn))
  · intro i j h m hi hj hneed n hn
    exact ⟨assignThrow_whole (hv.fine i h hi) (hv.sound hj) hneed hn,
      assignThrow_sized (hv.fine i h hi) (hv.sound hj) hneed hn⟩

/-- A map of words whose first allocation for `grow` fails. -/
theorem exists_throws_words : ∃ (s : Program (Map.wordMap 0 false) ℕ) (m : Map _ ℕ) (w : Wreck _),
    (programs (Map.wordKernel 0 false)).Reachable s ∧ s.load 0 = some m ∧
      m.Throws (Map.wordKernel 0 false).ops .grow w := by
  have hrun : ((start (Map.wordMap 0 false) ℕ).run (Map.wordKernel 0 false).ops
      [.construct (Map.wordConf 0 false), .call 0 (.insert 7)]).map
        (fun s => (s.load 0).map fun m =>
          ((shl1 m.capacity).toOption, (m.resizeThrow (Map.wordKernel 0 false).ops 16 0).isSome)) =
      some (some (some 16, true)) := by decide +kernel
  obtain ⟨s, hs, hs'⟩ := Option.map_eq_some_iff.mp hrun
  obtain ⟨m, hm, hm'⟩ := Option.map_eq_some_iff.mp hs'
  obtain ⟨hcap, hw⟩ := Prod.mk.inj hm'
  obtain ⟨w, hw⟩ := Option.isSome_iff_exists.mp hw
  refine ⟨s, m, w, reachable_of_run (Map.wordKernel 0 false) _ (.init rfl) hs, hm, .resize ?_ hw⟩
  unfold Map.resizes
  rw [toOption_eq_some hcap]
  exact List.mem_singleton.mpr rfl

theorem alloc_throws_words : ∃ (s : Program (Map.wordMap 0 false) ℕ) (m : Map _ ℕ) (w : Wreck _),
    s.load 0 = some m ∧ m.Throws (Map.wordKernel 0 false).ops .grow w ∧
      w.owned .states ≠ some w.capacity := by
  obtain ⟨s, m, w, hs, hm, hw⟩ := exists_throws_words
  exact ⟨s, m, w, hm, hw, ((alloc_throws (Map.wordKernel 0 false) hs).1 0 m hm .grow).1 w hw⟩

/-- The map that could not grow is not whole. -/
theorem grow_throws_words : ¬ ∀ s : Program (Map.wordMap 0 false) ℕ,
    (programs (Map.wordKernel 0 false)).Reachable s → ∀ i m, s.load i = some m → ∀ op w,
      m.Throws (Map.wordKernel 0 false).ops op w → w.Whole := by
  intro hall
  obtain ⟨s, m, w, hs, hm, hw⟩ := exists_throws_words
  have hv := valid_of_reachable (Map.wordKernel 0 false) hs
  exact Map.throws_states (hv.sound hm) hw (hall s hs 0 m hm .grow w hw).states

end Program

end Nvhm
