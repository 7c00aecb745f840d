import NvHashMap.Lib.Arena
import NvHashMap.Map.Run

/-! # Copies and moves

The special members of `map`, `swiss_map_base` and `raw_map_base`, over maps whose arrays live in a
memory.

* A `Handle` is a map object: the members that are not arrays, and one pointer for each array.  The
  defaulted moves take the pointers and leave everything else behind.
* `Handle.assign` is copy assignment.  The lowest layer decides from the capacity and the blob
  stride alone whether to allocate; each layer then copies its arrays.
* A `Program` has any number of maps and runs constructors, assignments and calls on them.  Objects
  that it destroys are left in the list: their arrays are not used again.
* `Program.Valid` is the invariant of programs: no array has two owners, and every map has all of
  its arrays, or none.  `step_rewrites` says what a command may change, and `copyAssign_iff` when
  copy assignment works: not when it leaves a map that was moved from without arrays. -/

namespace Nvhm

open Arena

/-- The arrays of a map, in the order in which the class layers declare them. -/
inductive Part where
  | values
  | blobs
  | keys
  | states
deriving DecidableEq, Repr

abbrev Part.Elem (κ ν : Type) : Part → Type
  | .values => ν
  | .blobs => Byte
  | .keys => κ
  | .states => State

variable {κ ν : Type} {T : MapType κ}

/-- A map object.  An array without elements has an address here; the source has a null pointer. -/
structure Handle (T : MapType κ) where
  conf : Conf T.conf
  bucketMask : ℕ
  growThreshold : ℕ
  ptr : Pointers Part
  numEmpty : ℤ
  numTombstone : ℤ

/-- The arrays of a map. -/
def Map.parts (m : Map T ν) : Arrays (Part.Elem κ ν)
  | .values => m.values
  | .blobs => m.blobs
  | .keys => m.keys
  | .states => m.states

/-- The object whose arrays are behind `p`. -/
def Map.handle (m : Map T ν) (p : Pointers Part) : Handle T where
  conf := m.conf
  bucketMask := m.bucketMask
  growThreshold := m.growThreshold
  ptr := p
  numEmpty := m.numEmpty
  numTombstone := m.numTombstone

namespace Handle

/-- `capacity`. -/
def capacity (h : Handle T) : ℕ := alignedMaskToCapacity T.kernelSize h.bucketMask

/-- The map with the members of the object and the given arrays. -/
def map (h : Handle T) (x : Arrays (Part.Elem κ ν)) : Map T ν where
  conf := h.conf
  bucketMask := h.bucketMask
  growThreshold := h.growThreshold
  values := x .values
  blobs := x .blobs
  keys := x .keys
  states := x .states
  numEmpty := h.numEmpty
  numTombstone := h.numTombstone

/-- The map of an object that has all its arrays. -/
def load (M : Memory (Part.Elem κ ν)) (h : Handle T) : Option (Map T ν) := do
  let values ← M.read .values (h.ptr .values)
  let blobs ← M.read .blobs (h.ptr .blobs)
  let keys ← M.read .keys (h.ptr .keys)
  let states ← M.read .states (h.ptr .states)
  some {
    conf := h.conf
    bucketMask := h.bucketMask
    growThreshold := h.growThreshold
    values := values
    blobs := blobs
    keys := keys
    states := states
    numEmpty := h.numEmpty
    numTombstone := h.numTombstone }

/-- What the defaulted moves leave of their source. -/
def movedFrom (h : Handle T) : Handle T := { h with ptr := fun _ => none }

/-- The copy constructors. -/
def copy (M : Memory (Part.Elem κ ν)) (other : Handle T) :
    Option (Memory (Part.Elem κ ν) × Handle T) := do
  let m ← other.load M
  let (M, p) := M.alloc m.parts
  some (M, m.handle p)

section Alloc
variable [Inhabited κ] [Inhabited ν]

/-- `alloc_`. -/
def alloc (M : Memory (Part.Elem κ ν)) (h : Handle T) (end_ : ℕ) :
    Memory (Part.Elem κ ν) × Handle T :=
  let m := (h.map (ν := ν) fun _ => []).alloc end_
  let (M, p) := M.alloc m.parts
  (M, m.handle p)

/-- `raw_map_base::operator=`. -/
def rawAssign (M : Memory (Part.Elem κ ν)) (h other : Handle T) :
    Option (Memory (Part.Elem κ ν) × Handle T) := do
  let end_ := other.capacity
  let needAlloc := end_ ≠ h.capacity ∨ other.conf.blobStride ≠ h.conf.blobStride
  let h := { h with conf := other.conf }
  let (M, h) := if needAlloc then h.alloc M end_ else (M, h)
  let M ← M.copyN .values (other.ptr .values) (h.ptr .values) end_
  let M ← M.copyN .blobs (other.ptr .blobs) (h.ptr .blobs) (end_ * h.conf.blobStride)
  some (M, h)

/-- `swiss_map_base::operator=`. -/
def swissAssign (M : Memory (Part.Elem κ ν)) (h other : Handle T) :
    Option (Memory (Part.Elem κ ν) × Handle T) := do
  let (M, h) ← h.rawAssign M other
  let M ← M.copyN .keys (other.ptr .keys) (h.ptr .keys) h.capacity
  some (M, h)

/-- `map::operator=`, for another object. -/
def assign (M : Memory (Part.Elem κ ν)) (h other : Handle T) :
    Option (Memory (Part.Elem κ ν) × Handle T) := do
  let (M, h) ← h.swissAssign M other
  let M ← M.copyN .states (other.ptr .states) (h.ptr .states) h.capacity
  some (M, { h with
    growThreshold := other.growThreshold
    numEmpty := other.numEmpty
    numTombstone := other.numTombstone })

/-- What a call leaves in memory.  Calls that change the capacity allocate, the others write into
the arrays that are there. -/
def store (M : Memory (Part.Elem κ ν)) (h : Handle T) (m : Map T ν) :
    Memory (Part.Elem κ ν) × Handle T :=
  if m.capacity = h.capacity then (M.write h.ptr m.parts, m.handle h.ptr)
  else
    let (M, p) := M.alloc m.parts
    (M, m.handle p)

/-- `clear` of an object without arrays, which has to allocate them. -/
def renew (M : Memory (Part.Elem κ ν)) (h : Handle T) (m : Map T ν) :
    Option (Memory (Part.Elem κ ν) × Handle T) :=
  if m.capacity = h.capacity then none else some (h.store M m)

/-- A call.  Of an object without arrays it can only be `clear` with another capacity: the other
calls do nothing, or they use the missing arrays. -/
def call (B : BucketOps) (M : Memory (Part.Elem κ ν)) (h : Handle T) (op : Map.Op κ ν) :
    Option (Memory (Part.Elem κ ν) × Handle T) :=
  match h.load M with
  | some m => do
      let r ← (m.step B op).toOption
      some (h.store M r.2)
  | none =>
      match op with
      | .clear => h.renew M (h.map (ν := ν) fun _ => []).clear.2
      | .clearTo n => do
          let r ← ((h.map (ν := ν) fun _ => []).clearTo n).toOption
          h.renew M r.2
      | _ => none

end Alloc

end Handle

/-! ### Programs -/

structure Program {κ : Type} (T : MapType κ) (ν : Type) where
  memory : Memory (Part.Elem κ ν)
  maps : List (Handle T)

inductive Command {κ : Type} (T : MapType κ) (ν : Type) where
  | construct (conf : Conf T.conf)
  | copy (j : ℕ)
  | move (j : ℕ)
  | copyAssign (i j : ℕ)
  | moveAssign (i j : ℕ)
  | call (i : ℕ) (op : Map.Op κ ν)

/-- The command may write to the map `k`. -/
def Command.Writes : Command T ν → ℕ → Prop
  | .construct _, _ => False
  | .copy _, _ => False
  | .move j, k => k = j
  | .copyAssign i _, k => k = i
  | .moveAssign i j, k => k = i ∨ k = j
  | .call i _, k => k = i

namespace Program

/-- The map `i`, if it has all its arrays. -/
def load (s : Program T ν) (i : ℕ) : Option (Map T ν) := s.maps[i]?.bind fun h => h.load s.memory

/-- No maps. -/
def start (T : MapType κ) (ν : Type) : Program T ν := ⟨fun _ => [], []⟩

section Runs
variable [Inhabited κ] [Inhabited ν]

/-- `none`: an exception, or an access to an array that is not there. -/
def step (B : BucketOps) (s : Program T ν) : Command T ν → Option (Program T ν)
  | .construct conf => do
      let m ← (Map.new T ν conf).toOption
      let (M, p) := s.memory.alloc m.parts
      some ⟨M, s.maps ++ [m.handle p]⟩
  | .copy j => do
      let other ← s.maps[j]?
      let (M, h) ← other.copy s.memory
      some ⟨M, s.maps ++ [h]⟩
  | .move j => do
      let other ← s.maps[j]?
      some ⟨s.memory, s.maps.set j other.movedFrom ++ [other]⟩
  | .copyAssign i j => do
      let h ← s.maps[i]?
      let other ← s.maps[j]?
      if i = j then some s
      else do
        let (M, h) ← h.assign s.memory other
        some ⟨M, s.maps.set i h⟩
  | .moveAssign i j => do
      let _ ← s.maps[i]?
      let other ← s.maps[j]?
      if i = j then some s
      else some ⟨s.memory, (s.maps.set j other.movedFrom).set i other⟩
  | .call i op => do
      let h ← s.maps[i]?
      let (M, h) ← h.call B s.memory op
      some ⟨M, s.maps.set i h⟩

def run (B : BucketOps) : List (Command T ν) → Program T ν → Option (Program T ν)
  | [], s => some s
  | c :: cs, s => do
      let s ← s.step B c
      s.run B cs

end Runs

end Program

/-! ### Loading -/

theorem Map.length_parts {m : Map T ν} (h : Map.Shape m) (i : Part) :
    (m.parts i).length = if i = .blobs then m.capacity * m.conf.blobStride else m.capacity := by
  cases i
  · exact h.values_length
  · exact h.blobs_length
  · exact h.keys_length
  · exact h.states_length

namespace Handle
variable {M M' : Memory (Part.Elem κ ν)} {h g : Handle T} {m : Map T ν}

theorem load_iff : h.load M = some m ↔ Holds M h.ptr m.parts ∧ h = m.handle h.ptr := by
  constructor
  · intro hm
    obtain ⟨values, hv, hm⟩ := Option.bind_eq_some_iff.mp hm
    obtain ⟨blobs, hb, hm⟩ := Option.bind_eq_some_iff.mp hm
    obtain ⟨keys, hk, hm⟩ := Option.bind_eq_some_iff.mp hm
    obtain ⟨states, hs, hm⟩ := Option.bind_eq_some_iff.mp hm
    obtain rfl := Option.some.inj hm
    refine ⟨fun i => ?_, rfl⟩
    cases i
    · exact hv
    · exact hb
    · exact hk
    · exact hs
  · rintro ⟨hM, heq⟩
    have hv := hM .values
    have hb := hM .blobs
    have hk := hM .keys
    have hs := hM .states
    unfold load
    rw [hv, hb, hk, hs, heq]
    rfl

theorem capacity_of_load (hm : h.load M = some m) : h.capacity = m.capacity := by
  rw [(load_iff.mp hm).2]
  rfl

/-- The frame rule for objects. -/
theorem load_changes {p : Pointers Part} (hm : h.load M = some m) (hc : Changes p M M')
    (ha : Apart h.ptr p) : h.load M' = some m := by
  obtain ⟨hM, heq⟩ := load_iff.mp hm
  exact load_iff.mpr ⟨hc.holds hM ha, heq⟩

theorem load_handle {p : Pointers Part} (hp : Holds M p m.parts) : (m.handle p).load M = some m :=
  load_iff.mpr ⟨hp, rfl⟩

section Fine
variable [Inhabited κ]

/-- The object has all its arrays, with the invariant of their contents, or none. -/
def Fine (M : Memory (Part.Elem κ ν)) (h : Handle T) : Prop :=
  (∃ m : Map T ν, h.load M = some m ∧ Map.Sound m) ∨
    (h.ptr = fun _ => none) ∧ h.conf.isValid = true

omit [Inhabited κ] in
theorem load_of_null (hn : h.ptr = fun _ => none) : h.load M = none := by
  unfold load
  rw [hn]
  rfl

theorem Fine.sound (hf : h.Fine M) (hm : h.load M = some m) : Map.Sound m := by
  rcases hf with ⟨m', hm', hs⟩ | ⟨hn, -⟩
  · rw [hm] at hm'
    rwa [Option.some.inj hm']
  · rw [load_of_null hn] at hm
    cases hm

theorem Fine.owns_iff (hf : h.Fine M) :
    (∀ p, h.ptr p ≠ none) ↔ ∃ m : Map T ν, h.load M = some m := by
  rcases hf with ⟨m, hm, -⟩ | ⟨hn, -⟩
  · refine ⟨fun _ => ⟨m, hm⟩, fun _ p hp => ?_⟩
    have hread := (load_iff.mp hm).1 p
    rw [hp] at hread
    cases hread
  · refine ⟨fun hp => absurd (congrFun hn .keys) (hp .keys), ?_⟩
    rintro ⟨m, hm⟩
    rw [load_of_null hn] at hm
    cases hm

theorem Fine.changes {p : Pointers Part} (hf : h.Fine M) (hc : Changes p M M')
    (ha : Apart h.ptr p) : h.Fine M' := by
  rcases hf with ⟨m, hm, hs⟩ | hn
  · exact Or.inl ⟨m, load_changes hm hc ha, hs⟩
  · exact Or.inr hn

theorem Fine.conf_valid (hf : h.Fine M) : h.conf.isValid = true := by
  rcases hf with ⟨m, hm, hs⟩ | ⟨-, hv⟩
  · rw [(load_iff.mp hm).2]
    exact hs.conf_valid
  · exact hv

theorem Fine.apart_alloc (hf : h.Fine M) (x : Arrays (Part.Elem κ ν)) :
    Apart h.ptr (M.alloc x).2 := by
  rcases hf with ⟨m, hm, -⟩ | ⟨hn, -⟩
  · exact Arena.apart_alloc (load_iff.mp hm).1 x
  · rw [hn]
    exact null_apart _

theorem Fine.movedFrom (hf : h.Fine M) : h.movedFrom.Fine M := Or.inr ⟨rfl, hf.conf_valid⟩

end Fine

end Handle

/-! ### What a command changes -/

namespace Program
variable [Inhabited κ] {s s' s'' : Program T ν}

/-- The invariant of programs. -/
structure Valid (s : Program T ν) : Prop where
  fine : ∀ (i : ℕ) (h : Handle T), s.maps[i]? = some h → h.Fine s.memory
  apart : ∀ (i j : ℕ) (h g : Handle T), s.maps[i]? = some h → s.maps[j]? = some g → i ≠ j →
    Apart h.ptr g.ptr

/-- The object `i` becomes `h`, and no other object changes. -/
structure Replaces (s s' : Program T ν) (i : ℕ) (h : Handle T) : Prop where
  new : s'.maps[i]? = some h
  others : ∀ k ≠ i, s'.maps[k]? = s.maps[k]?
  changes : Changes h.ptr s.memory s'.memory
  apart : ∀ k ≠ i, ∀ g, s.maps[k]? = some g → Apart g.ptr h.ptr
  fine : h.Fine s'.memory

theorem Valid.sound (hv : Valid s) {i : ℕ} {m : Map T ν} (hm : s.load i = some m) :
    Map.Sound m := by
  obtain ⟨h, hi, hload⟩ := Option.bind_eq_some_iff.mp hm
  exact (hv.fine i h hi).sound hload

theorem Replaces.valid {i : ℕ} {h : Handle T} (hr : Replaces s s' i h) (hv : Valid s) :
    Valid s' := by
  constructor
  · intro k g hk
    by_cases hki : k = i
    · rw [hki, hr.new] at hk
      rw [← Option.some.inj hk]
      exact hr.fine
    · rw [hr.others k hki] at hk
      exact (hv.fine k g hk).changes hr.changes (hr.apart k hki g hk)
  · intro k l f g hk hl hkl
    by_cases hki : k = i
    · have hli : l ≠ i := fun h => hkl (hki.trans h.symm)
      rw [hki, hr.new] at hk
      rw [hr.others l hli] at hl
      rw [← Option.some.inj hk]
      exact (hr.apart l hli g hl).symm
    · rw [hr.others k hki] at hk
      by_cases hli : l = i
      · rw [hli, hr.new] at hl
        rw [← Option.some.inj hl]
        exact hr.apart k hki f hk
      · rw [hr.others l hli] at hl
        exact hv.apart k l f g hk hl hkl

theorem Replaces.load {i k : ℕ} {h : Handle T} (hr : Replaces s s' i h) (hk : k ≠ i) {m : Map T ν}
    (hm : s.load k = some m) : s'.load k = some m := by
  obtain ⟨g, hg, hm⟩ := Option.bind_eq_some_iff.mp hm
  unfold Program.load
  rw [hr.others k hk, hg]
  exact Handle.load_changes hm hr.changes (hr.apart k hk g hg)

/-- Objects with an index in `W` are replaced, one after another. -/
inductive Rewrites (W : ℕ → Prop) : Program T ν → Program T ν → Prop where
  | refl (s : Program T ν) : Rewrites W s s
  | step {s s' s'' : Program T ν} {i : ℕ} {h : Handle T} (hi : W i) (hr : Replaces s s' i h)
      (hrs : Rewrites W s' s'') : Rewrites W s s''

theorem Rewrites.valid {W : ℕ → Prop} (hr : Rewrites W s s') (hv : Valid s) : Valid s' := by
  induction hr with
  | refl => exact hv
  | step _ hr _ ih => exact ih (hr.valid hv)

theorem Rewrites.load {W : ℕ → Prop} (hr : Rewrites W s s') {k : ℕ} (hk : ¬ W k) {m : Map T ν}
    (hm : s.load k = some m) : s'.load k = some m := by
  induction hr with
  | refl => exact hm
  | step hi hr _ ih =>
      refine ih (hr.load ?_ hm)
      rintro rfl
      exact hk hi

omit [Inhabited κ] in
theorem lt_of_load {k : ℕ} {m : Map T ν} (hm : s.load k = some m) : k < s.maps.length := by
  obtain ⟨h, hh, -⟩ := Option.bind_eq_some_iff.mp hm
  exact (List.getElem?_eq_some_iff.mp hh).1

/-- The object `h` can take the place `i` when the memory is `M`. -/
structure Ready (s : Program T ν) (i : ℕ) (M : Memory (Part.Elem κ ν)) (h : Handle T) : Prop where
  changes : Changes h.ptr s.memory M
  apart : ∀ k ≠ i, ∀ g, s.maps[k]? = some g → Apart g.ptr h.ptr
  fine : h.Fine M

variable {i j : ℕ} {M : Memory (Part.Elem κ ν)} {h : Handle T}

theorem Ready.set (hr : Ready s i M h) (hi : i < s.maps.length) :
    Replaces s ⟨M, s.maps.set i h⟩ i h where
  new := List.getElem?_set_self hi
  others _ hk := List.getElem?_set_ne hk.symm
  changes := hr.changes
  apart := hr.apart
  fine := hr.fine

theorem Ready.push (hr : Ready s s.maps.length M h) :
    Replaces s ⟨M, s.maps ++ [h]⟩ s.maps.length h where
  new := List.getElem?_concat_length
  others k hk := by
    by_cases hlt : k < s.maps.length
    · exact List.getElem?_append_left hlt
    · have hlen : (s.maps ++ [h]).length ≤ k := by
        rw [List.length_append, List.length_singleton]
        omega
      rw [List.getElem?_eq_none hlen, List.getElem?_eq_none (Nat.le_of_not_lt hlt)]
  changes := hr.changes
  apart := hr.apart
  fine := hr.fine

/-- New arrays. -/
theorem ready_alloc (hv : Valid s) (i : ℕ) {m : Map T ν} (hm : Map.Sound m) :
    Ready s i (s.memory.alloc m.parts).1 (m.handle (s.memory.alloc m.parts).2) where
  changes := changes_alloc _ _ _
  apart k _ g hg := (hv.fine k g hg).apart_alloc m.parts
  fine := Or.inl ⟨m, Handle.load_handle (holds_alloc _ _), hm⟩

theorem ready_movedFrom (hv : Valid s) (hi : s.maps[i]? = some h) :
    Ready s i s.memory h.movedFrom where
  changes := Changes.refl _ _
  apart _ _ g _ := apart_null g.ptr
  fine := (hv.fine i h hi).movedFrom

/-- The object that takes the arrays of `j`. -/
theorem ready_taken (hv : Valid s) (hj : s.maps[j]? = some h) (i : ℕ) :
    Ready ⟨s.memory, s.maps.set j h.movedFrom⟩ i s.memory h where
  changes := Changes.refl _ _
  apart k _ g hg := by
    have hset := (ready_movedFrom hv hj).set (List.getElem?_eq_some_iff.mp hj).1
    by_cases hkj : k = j
    · rw [hkj, hset.new] at hg
      rw [← Option.some.inj hg]
      exact null_apart _
    · rw [hset.others k hkj] at hg
      exact hv.apart k j g h hg hj hkj
  fine := hv.fine j h hj

theorem ready_store [Inhabited ν] (hv : Valid s) (hi : s.maps[i]? = some h) {m : Map T ν}
    (hm : Map.Sound m) (hc : m.capacity = h.capacity → ∃ m' : Map T ν, h.load s.memory = some m') :
    Ready s i (h.store s.memory m).1 (h.store s.memory m).2 := by
  unfold Handle.store
  split_ifs with hcap
  · obtain ⟨m', hm'⟩ := hc hcap
    refine ⟨changes_write _ _ _, fun k hk g hg => hv.apart k i g h hg hi hk, ?_⟩
    exact Or.inl ⟨m, Handle.load_handle (holds_write (Handle.load_iff.mp hm').1 _), hm⟩
  · exact ready_alloc hv i hm

end Program

/-! ### Copy assignment -/

namespace Handle
variable {M M' : Memory (Part.Elem κ ν)} {h g : Handle T} {m : Map T ν}

/-- The four copies. -/
theorem copies_spec {p q : Pointers Part} {x y : Arrays (Part.Elem κ ν)} (hq : Holds M q x)
    (hp : Holds M p y) (ha : Apart q p) (hl : ∀ i, (y i).length = (x i).length) :
    ∃ M₁ M₂ M₃ M₄, M.copyN .values (q .values) (p .values) (x .values).length = some M₁ ∧
      M₁.copyN .blobs (q .blobs) (p .blobs) (x .blobs).length = some M₂ ∧
      M₂.copyN .keys (q .keys) (p .keys) (x .keys).length = some M₃ ∧
      M₃.copyN .states (q .states) (p .states) (x .states).length = some M₄ ∧
      Holds M₄ p x ∧ Changes p M M₄ := by
  have hl₁ := length_update hl .values
  have hl₂ := length_update hl₁ .blobs
  have hl₃ := length_update hl₂ .keys
  obtain ⟨M₁, h₁, hq₁, hp₁, hc₁⟩ := copyN_spec hq hp ha (hl .values)
  obtain ⟨M₂, h₂, hq₂, hp₂, hc₂⟩ := copyN_spec hq₁ hp₁ ha (hl₁ .blobs)
  obtain ⟨M₃, h₃, hq₃, hp₃, hc₃⟩ := copyN_spec hq₂ hp₂ ha (hl₂ .keys)
  obtain ⟨M₄, h₄, -, hp₄, hc₄⟩ := copyN_spec hq₃ hp₃ ha (hl₃ .states)
  refine ⟨M₁, M₂, M₃, M₄, h₁, h₂, h₃, h₄, fun i => ?_, hc₁.trans (hc₂.trans (hc₃.trans hc₄))⟩
  have hi := hp₄ i
  cases i <;> exact hi

end Handle

namespace Program
variable [Inhabited κ] [Inhabited ν] {s s' : Program T ν}

/-- Copy assignment allocates. -/
def NeedAlloc (h : Handle T) (m : Map T ν) : Prop :=
  m.capacity ≠ h.capacity ∨ m.conf.blobStride ≠ h.conf.blobStride

/-- The arrays into which copy assignment copies. -/
theorem target_spec (hv : Valid s) {i : ℕ} {h : Handle T} (hi : s.maps[i]? = some h) {m : Map T ν}
    (hm : Map.Sound m) (hc : NeedAlloc h m ∨ ∃ m' : Map T ν, h.load s.memory = some m') :
    ∃ M g, ∃ y : Arrays (Part.Elem κ ν),
      (if m.capacity ≠ h.capacity ∨ m.conf.blobStride ≠ h.conf.blobStride then
        Handle.alloc s.memory { h with conf := m.conf } m.capacity
        else (s.memory, { h with conf := m.conf })) = (M, g) ∧
      g.conf = m.conf ∧ g.bucketMask = m.bucketMask ∧ Holds M g.ptr y ∧
      (∀ k, (y k).length = (m.parts k).length) ∧ Changes g.ptr s.memory M ∧
      ∀ k ≠ i, ∀ f, s.maps[k]? = some f → Apart f.ptr g.ptr := by
  have hmask : m.bucketMask + T.kernelSize = m.capacity := rfl
  by_cases hneed : m.capacity ≠ h.capacity ∨ m.conf.blobStride ≠ h.conf.blobStride
  · rw [if_pos hneed]
    have hcap := Map.alloc_capacity
      (({ h with conf := m.conf } : Handle T).map (ν := ν) fun _ => []) hm.kernelSize_le
    refine ⟨_, _, Map.parts _, rfl, rfl, ?_, holds_alloc _ _, fun k => ?_, changes_alloc _ _ _, ?_⟩
    · change m.capacity - T.kernelSize = m.bucketMask
      omega
    · rw [Map.length_parts hm.toShape, Map.length_parts (Map.alloc_shape _ hm.isCapacity
        hm.kernelSize_le), hcap]
      rfl
    · intro k _ f hf
      exact (hv.fine k f hf).apart_alloc fun _ => []
  · rw [if_neg hneed]
    obtain ⟨m', hm'⟩ := hc.resolve_left hneed
    obtain ⟨hcap, hstride⟩ := not_or.mp hneed
    rw [not_not] at hcap hstride
    obtain ⟨hM, hh⟩ := Handle.load_iff.mp hm'
    have hfine := (hv.fine i h hi).sound hm'
    have hcap' : m'.capacity = m.capacity := by rw [hcap, Handle.capacity_of_load hm']
    have hconf : h.conf = m'.conf := congrArg Handle.conf hh
    refine ⟨_, _, m'.parts, rfl, rfl, ?_, hM, fun k => ?_, Changes.refl _ _,
      fun k hk f hf => hv.apart k i f h hf hi hk⟩
    · change m.bucketMask + T.kernelSize = h.bucketMask + T.kernelSize at hcap
      exact (Nat.add_right_cancel hcap).symm
    · rw [Map.length_parts hm.toShape, Map.length_parts hfine.toShape, hcap', hstride, hconf]

/-- Copy assignment, when it does not have to use arrays that are missing. -/
theorem assign_spec (hv : Valid s) {i j : ℕ} (hij : i ≠ j) {h other : Handle T}
    (hi : s.maps[i]? = some h) (hj : s.maps[j]? = some other) {m : Map T ν} (hm : Map.Sound m)
    (hload : other.load s.memory = some m)
    (hc : NeedAlloc h m ∨ ∃ m' : Map T ν, h.load s.memory = some m') :
    ∃ M g, h.assign s.memory other = some (M, g) ∧ Ready s i M g ∧ g.load M = some m := by
  obtain ⟨hM, hother⟩ := Handle.load_iff.mp hload
  obtain ⟨M, g, y, htarget, hconf, hmask, hy, hl, hch, hap⟩ := target_spec hv hi hm hc
  have hj' := hap j hij.symm other hj
  obtain ⟨M₁, M₂, M₃, M₄, h₁, h₂, h₃, h₄, hM₄, hch₄⟩ :=
    Handle.copies_spec (hch.holds hM hj') hy hj' hl
  have hshape := hm.toShape
  have hcap : g.capacity = m.capacity := by
    unfold Handle.capacity Map.capacity
    rw [hmask]
  have hcap' : other.capacity = m.capacity := Handle.capacity_of_load hload
  have hconf' : other.conf = m.conf := congrArg Handle.conf hother
  replace h₁ : M.copyN .values (other.ptr .values) (g.ptr .values) m.capacity = some M₁ := by
    rw [← hshape.values_length]
    exact h₁
  replace h₂ : M₁.copyN .blobs (other.ptr .blobs) (g.ptr .blobs)
      (m.capacity * m.conf.blobStride) = some M₂ := by
    rw [← hshape.blobs_length]
    exact h₂
  replace h₃ : M₂.copyN .keys (other.ptr .keys) (g.ptr .keys) m.capacity = some M₃ := by
    rw [← hshape.keys_length]
    exact h₃
  replace h₄ : M₃.copyN .states (other.ptr .states) (g.ptr .states) m.capacity = some M₄ := by
    rw [← hshape.states_length]
    exact h₄
  have hload₄ : (m.handle g.ptr).load M₄ = some m := Handle.load_handle hM₄
  refine ⟨M₄, m.handle g.ptr, ?_, ⟨hch.trans hch₄, hap, Or.inl ⟨m, hload₄, hm⟩⟩, hload₄⟩
  unfold Handle.assign Handle.swissAssign Handle.rawAssign
  simp only [hcap', hconf', htarget, hconf, hcap, h₁, h₂, h₃, h₄, Option.bind_eq_bind,
    Option.bind_some]
  rw [hmask, hother]
  rfl

/-- Without arrays to copy into, and without allocating them. -/
theorem assign_null {M : Memory (Part.Elem κ ν)} {h other : Handle T} {m : Map T ν}
    (hm : m.Shape) (hload : other.load M = some m) (hn : h.ptr = fun _ => none)
    (hneed : ¬ NeedAlloc h m) : h.assign M other = none := by
  have hcap : other.capacity = m.capacity := Handle.capacity_of_load hload
  have hconf : other.conf = m.conf := congrArg Handle.conf (Handle.load_iff.mp hload).2
  unfold NeedAlloc at hneed
  unfold Handle.assign Handle.swissAssign Handle.rawAssign
  simp only [hcap, hconf, if_neg hneed, hn, copyN_null _ _ _ hm.capacity_pos, Option.bind_eq_bind,
    Option.bind_none]

/-- Without arrays to copy. -/
theorem assign_movedFrom {M : Memory (Part.Elem κ ν)} {h other : Handle T}
    (hn : other.ptr = fun _ => none) : h.assign M other = none := by
  have hpos : 0 < other.capacity := Nat.lt_of_lt_of_le T.kernelSize_pos (Nat.le_add_left _ _)
  unfold Handle.assign Handle.swissAssign Handle.rawAssign
  simp only [hn, copyN_missing _ _ _ hpos, Option.bind_eq_bind, Option.bind_none]

/-- Copy assignment needs the arrays of its source, and those of its target unless it allocates. -/
theorem assign_cases (hv : Valid s) {i j : ℕ} {h other : Handle T} (hi : s.maps[i]? = some h)
    (hj : s.maps[j]? = some other) {r : Memory (Part.Elem κ ν) × Handle T}
    (hr : h.assign s.memory other = some r) :
    ∃ m : Map T ν, other.load s.memory = some m ∧
      (NeedAlloc h m ∨ ∃ m' : Map T ν, h.load s.memory = some m') := by
  rcases hv.fine j other hj with ⟨m, hm, hs⟩ | ⟨hn, -⟩
  · refine ⟨m, hm, ?_⟩
    rcases hv.fine i h hi with ⟨m', hm', -⟩ | ⟨hn, -⟩
    · exact Or.inr ⟨m', hm'⟩
    · left
      by_contra hneed
      rw [assign_null hs.toShape hm hn hneed] at hr
      cases hr
  · rw [assign_movedFrom hn] at hr
    cases hr

/-! ### The step lemma -/

theorem toOption_eq_some {ε α : Type} {x : Except ε α} {a : α} (h : x.toOption = some a) :
    x = .ok a := by
  cases x with
  | error e => cases h
  | ok b => exact congrArg _ (Option.some.inj h)

/-- A call leaves an object with the invariant. -/
theorem ready_call (B : Kernel T.kernelSize) (hv : Valid s) {i : ℕ} {h : Handle T}
    (hi : s.maps[i]? = some h) {op : Map.Op κ ν} {r : Memory (Part.Elem κ ν) × Handle T}
    (hr : h.call B.ops s.memory op = some r) : Ready s i r.1 r.2 := by
  have hvalid := (hv.fine i h hi).conf_valid
  have hrenew : ∀ {m : Map T ν}, h.renew s.memory m = some r →
      (m.capacity ≠ h.capacity → Map.Sound m) → Ready s i r.1 r.2 := by
    intro m hr hm
    unfold Handle.renew at hr
    split_ifs at hr with hc
    rw [← Option.some.inj hr]
    exact ready_store hv hi (hm hc) fun h => absurd h hc
  have hclear : ∀ c, IsCapacity c → h.conf.minCapacity ≤ c →
      Map.Sound (((h.map (ν := ν) fun _ => []).alloc c).reset) := by
    intro c hc hmin
    exact (Map.alloc_shape _ hc ((Conf.kernelSize_le hvalid).trans hmin)).sound_reset hvalid
  unfold Handle.call at hr
  cases hload : h.load s.memory with
  | some m =>
      rw [hload] at hr
      obtain ⟨r', hr', hr⟩ := Option.bind_eq_some_iff.mp hr
      obtain ⟨heq, hgood⟩ := Map.step_agree B.lawful ((hv.fine i h hi).sound hload) op
      rw [← Option.some.inj hr]
      refine ready_store hv hi (hgood r' ?_).sound fun _ => ⟨m, hload⟩
      rw [← heq]
      exact toOption_eq_some hr'
  | none =>
      rw [hload] at hr
      cases op with
      | clear =>
          refine hrenew hr fun hne => ?_
          rcases Map.clear_cases (h.map (ν := ν) fun _ => []) with hc | hc
          · rw [hc] at hne
            exact absurd rfl hne
          · rw [hc]
            exact hclear _ h.conf.init_isCapacity h.conf.min_le_init
      | clearTo n =>
          obtain ⟨r', hr', hr⟩ := Option.bind_eq_some_iff.mp hr
          refine hrenew hr fun hne => ?_
          rcases Map.clearTo_cases (toOption_eq_some hr') with hc | ⟨c, hcap, hmin, hc⟩
          · rw [hc] at hne
            exact absurd rfl hne
          · rw [hc]
            exact hclear c hcap hmin
      | _ => cases hr

/-- The step lemma: a command replaces the objects that it writes to, and it may add one. -/
theorem step_rewrites (B : Kernel T.kernelSize) (hv : Valid s) {c : Command T ν}
    (hr : s.step B.ops c = some s') :
    Rewrites (fun k => c.Writes k ∨ s.maps.length ≤ k) s s' := by
  cases c with
  | construct conf =>
      obtain ⟨m, hm, hr⟩ := Option.bind_eq_some_iff.mp hr
      obtain rfl := Option.some.inj hr
      have hsound := (Map.new_spec (toOption_eq_some hm)).1.toSound
      exact .step (Or.inr le_rfl) (ready_alloc hv _ hsound).push (.refl _)
  | copy j =>
      obtain ⟨other, hj, hr⟩ := Option.bind_eq_some_iff.mp hr
      obtain ⟨⟨M, h⟩, hcopy, hr⟩ := Option.bind_eq_some_iff.mp hr
      obtain rfl := Option.some.inj hr
      obtain ⟨m, hm, hcopy⟩ := Option.bind_eq_some_iff.mp hcopy
      obtain ⟨rfl, rfl⟩ := Prod.mk.inj (Option.some.inj hcopy)
      exact .step (Or.inr le_rfl) (ready_alloc hv _ ((hv.fine j other hj).sound hm)).push (.refl _)
  | move j =>
      obtain ⟨other, hj, hr⟩ := Option.bind_eq_some_iff.mp hr
      obtain rfl := Option.some.inj hr
      have hset := (ready_movedFrom hv hj).set (List.getElem?_eq_some_iff.mp hj).1
      refine .step (Or.inl rfl) hset (.step (Or.inr ?_) (ready_taken hv hj _).push (.refl _))
      exact (List.length_set ..).ge
  | copyAssign i j =>
      obtain ⟨h, hi, hr⟩ := Option.bind_eq_some_iff.mp hr
      obtain ⟨other, hj, hr⟩ := Option.bind_eq_some_iff.mp hr
      split_ifs at hr with hij
      · rw [← Option.some.inj hr]
        exact .refl _
      · obtain ⟨⟨M, g⟩, hassign, hr⟩ := Option.bind_eq_some_iff.mp hr
        rw [← Option.some.inj hr]
        obtain ⟨m, hm, hc⟩ := assign_cases hv hi hj hassign
        obtain ⟨M', g', hassign', hready, -⟩ :=
          assign_spec hv hij hi hj ((hv.fine j other hj).sound hm) hm hc
        rw [hassign] at hassign'
        obtain ⟨rfl, rfl⟩ := Prod.mk.inj (Option.some.inj hassign')
        exact .step (Or.inl rfl) (hready.set (List.getElem?_eq_some_iff.mp hi).1) (.refl _)
  | moveAssign i j =>
      obtain ⟨h, hi, hr⟩ := Option.bind_eq_some_iff.mp hr
      obtain ⟨other, hj, hr⟩ := Option.bind_eq_some_iff.mp hr
      split_ifs at hr with hij
      · rw [← Option.some.inj hr]
        exact .refl _
      · rw [← Option.some.inj hr]
        have hset := (ready_movedFrom hv hj).set (List.getElem?_eq_some_iff.mp hj).1
        refine .step (Or.inl (Or.inr rfl)) hset
          (.step (Or.inl (Or.inl rfl)) ((ready_taken hv hj i).set ?_) (.refl _))
        rw [List.length_set]
        exact (List.getElem?_eq_some_iff.mp hi).1
  | call i op =>
      obtain ⟨h, hi, hr⟩ := Option.bind_eq_some_iff.mp hr
      obtain ⟨r, hcall, hr⟩ := Option.bind_eq_some_iff.mp hr
      obtain rfl := Option.some.inj hr
      exact .step (Or.inl rfl) ((ready_call B hv hi hcall).set (List.getElem?_eq_some_iff.mp hi).1)
        (.refl _)

/-! ### Runs -/

omit [Inhabited ν] in
theorem valid_start : Valid (start T ν) where
  fine _ _ h := by cases h
  apart _ _ _ _ h := by cases h

theorem Valid.step (B : Kernel T.kernelSize) (hv : Valid s) {c : Command T ν}
    (hr : s.step B.ops c = some s') : Valid s' := (step_rewrites B hv hr).valid hv

/-- A command changes no map that it does not write to. -/
theorem load_step (B : Kernel T.kernelSize) (hv : Valid s) {c : Command T ν} {k : ℕ} {m : Map T ν}
    (hm : s.load k = some m) (hc : ¬ c.Writes k) (hr : s.step B.ops c = some s') :
    s'.load k = some m := by
  refine (step_rewrites B hv hr).load (fun hk => ?_) hm
  rcases hk with hk | hk
  · exact hc hk
  · exact Nat.not_lt_of_le hk (lt_of_load hm)

/-- The run lemma. -/
theorem load_run (B : Kernel T.kernelSize) : ∀ (cs : List (Command T ν)) {s s' : Program T ν}
    {k : ℕ} {m : Map T ν}, Valid s → s.load k = some m → (∀ c ∈ cs, ¬ c.Writes k) →
    s.run B.ops cs = some s' → s'.load k = some m
  | [], s, s', k, m, _, hm, _, hr => by
      rw [← Option.some.inj hr]
      exact hm
  | c :: cs, s, s', k, m, hv, hm, hc, hr => by
      obtain ⟨s₁, hstep, hr⟩ := Option.bind_eq_some_iff.mp hr
      have hm₁ := load_step B hv hm (hc c List.mem_cons_self) hstep
      exact load_run B cs (hv.step B hstep) hm₁ (fun d hd => hc d (List.mem_cons_of_mem _ hd)) hr

/-- The programs that use maps of one type. -/
def programs (B : Kernel T.kernelSize) : System (Program T ν) where
  init s := s = start T ν
  next s s' := ∃ c, s.step B.ops c = some s'

theorem valid_of_reachable (B : Kernel T.kernelSize) (hs : (programs B).Reachable s) : Valid s := by
  refine hs.invariant (fun s hs => ?_) fun s s' hv hn => ?_
  · rw [show s = start T ν from hs]
    exact valid_start
  · obtain ⟨c, hc⟩ := hn
    exact hv.step B hc

theorem reachable_of_run (B : Kernel T.kernelSize) : ∀ (cs : List (Command T ν))
    {s s' : Program T ν}, (programs B).Reachable s → s.run B.ops cs = some s' →
    (programs B).Reachable s'
  | [], s, s', hs, hr => by
      rw [← Option.some.inj hr]
      exact hs
  | c :: cs, s, s', hs, hr => by
      obtain ⟨s₁, hstep, hr⟩ := Option.bind_eq_some_iff.mp hr
      exact reachable_of_run B cs (hs.next ⟨c, hstep⟩) hr

/-- Every array has one owner, and every map has all of its arrays, of the lengths that its capacity
asks for, or none. -/
theorem sole_owners (B : Kernel T.kernelSize) (hs : (programs B).Reachable s) :
    (∀ i h, s.maps[i]? = some h →
      (∃ m, s.load i = some m ∧ m.Shape ∧ m.capacity = h.capacity) ∨ ∀ p, h.ptr p = none) ∧
    ∀ (i j : ℕ) (h g : Handle T), s.maps[i]? = some h → s.maps[j]? = some g → i ≠ j →
      ∀ p a, h.ptr p = some a → g.ptr p ≠ some a := by
  have hv := valid_of_reachable B hs
  refine ⟨fun i h hi => ?_, hv.apart⟩
  rcases hv.fine i h hi with ⟨m, hm, hsound⟩ | ⟨hn, -⟩
  · refine Or.inl ⟨m, ?_, hsound.toShape, (Handle.capacity_of_load hm).symm⟩
    unfold Program.load
    rw [hi]
    exact hm
  · exact Or.inr (congrFun hn)

/-- Three maps: one that was moved from, one whose arrays were taken over, and a copy. -/
theorem sole_owners_words : ∃ s : Program (Map.wordMap 0 false) ℕ, s.maps.length = 3 ∧
    (∀ i h, s.maps[i]? = some h →
      (∃ m, s.load i = some m ∧ m.Shape ∧ m.capacity = h.capacity) ∨ ∀ p, h.ptr p = none) ∧
    ∀ (i j : ℕ) (h g : Handle (Map.wordMap 0 false)), s.maps[i]? = some h →
      s.maps[j]? = some g → i ≠ j → ∀ p a, h.ptr p = some a → g.ptr p ≠ some a := by
  have hrun : ((start (Map.wordMap 0 false) ℕ).run (Map.wordKernel 0 false).ops
      [.construct (Map.wordConf 0 false), .call 0 (.insert 7), .move 0, .copy 1]).map
        (fun s => s.maps.length) = some 3 := by decide +kernel
  obtain ⟨s, hs, hlen⟩ := Option.map_eq_some_iff.mp hrun
  have hreach := reachable_of_run (Map.wordKernel 0 false) _ (.init rfl) hs
  exact ⟨s, hlen, sole_owners (Map.wordKernel 0 false) hreach⟩

/-- What copy assignment is for.  It succeeds; the target has all its arrays, with the lengths that
its capacity asks for, and is the source in all its members; and as long as the source is not
written to, what the program does to the target and to other maps does not change the source. -/
def CopyAssigns (B : BucketOps) (s : Program T ν) (i j : ℕ) : Prop :=
  ∃ s' m, s.step B (.copyAssign i j) = some s' ∧ s.load j = some m ∧ s'.load i = some m ∧
    m.Shape ∧ s'.load j = some m ∧
    (i ≠ j → ∀ cs s'', (∀ c ∈ cs, ¬ c.Writes j) → s'.run B cs = some s'' → s''.load j = some m)

theorem step_copyAssign (B : BucketOps) {i j : ℕ} {h other : Handle T} (hi : s.maps[i]? = some h)
    (hj : s.maps[j]? = some other) : s.step B (.copyAssign i j) =
      if i = j then some s
      else h.assign s.memory other >>= fun r => some ⟨r.1, s.maps.set i r.2⟩ := by
  unfold Program.step
  dsimp only
  rw [hi, hj]
  rfl

/-- Copy assignment does what it is for exactly when it allocates or the target owns arrays. -/
theorem copyAssign_iff (B : Kernel T.kernelSize) (hs : (programs B).Reachable s) {i j : ℕ}
    {h : Handle T} (hi : s.maps[i]? = some h) {m : Map T ν} (hm : s.load j = some m) :
    CopyAssigns B.ops s i j ↔
      m.capacity ≠ h.capacity ∨ m.conf.blobStride ≠ h.conf.blobStride ∨ ∀ p, h.ptr p ≠ none := by
  have hv := valid_of_reachable B hs
  have hsound := hv.sound hm
  obtain ⟨other, hj, hload⟩ := Option.bind_eq_some_iff.mp hm
  rw [← or_assoc, (hv.fine i h hi).owns_iff]
  constructor
  · rintro ⟨s', m', hstep, -, -, -, -, -⟩
    rw [step_copyAssign B.ops hi hj] at hstep
    by_cases hij : i = j
    · subst hij
      obtain rfl := Option.some.inj (hi.symm.trans hj)
      exact Or.inr ⟨m, hload⟩
    · rw [if_neg hij] at hstep
      obtain ⟨r, hassign, -⟩ := Option.bind_eq_some_iff.mp hstep
      obtain ⟨m₁, hm₁, hc⟩ := assign_cases hv hi hj hassign
      rw [hload] at hm₁
      rwa [Option.some.inj hm₁]
  · intro hc
    by_cases hij : i = j
    · subst hij
      refine ⟨s, m, ?_, hm, hm, hsound.toShape, hm, fun h => absurd rfl h⟩
      rw [step_copyAssign B.ops hi hj, if_pos rfl]
    · obtain ⟨M, g, hassign, hready, hg⟩ := assign_spec hv hij hi hj hsound hload hc
      have hrep := hready.set (List.getElem?_eq_some_iff.mp hi).1
      have hstep : s.step B.ops (.copyAssign i j) = some ⟨M, s.maps.set i g⟩ := by
        rw [step_copyAssign B.ops hi hj, if_neg hij, hassign]
        rfl
      have hj' := hrep.load (Ne.symm hij) hm
      refine ⟨_, m, hstep, hm, ?_, hsound.toShape, hj', fun _ cs s'' hcs hr => ?_⟩
      · unfold Program.load
        rw [hrep.new]
        exact hg
      · exact load_run B cs (hv.step B hstep) hj' hcs hr

/-- Two maps of words, to which copy assignment can be applied. -/
theorem copyAssign_words :
    ∃ s : Program (Map.wordMap 0 false) ℕ, (programs (Map.wordKernel 0 false)).Reachable s ∧
      CopyAssigns (Map.wordKernel 0 false).ops s 0 1 := by
  have hrun : ((start (Map.wordMap 0 false) ℕ).run (Map.wordKernel 0 false).ops
      [.construct (Map.wordConf 0 false), .construct (Map.wordConf 0 false),
        .call 1 (.insert 7)]).map
        (fun s => (s.maps[0]?.map fun h =>
          [h.ptr .values, h.ptr .blobs, h.ptr .keys, h.ptr .states], (s.load 1).isSome)) =
      some (some [some 0, some 0, some 0, some 0], true) := by decide +kernel
  obtain ⟨s, hs, hs'⟩ := Option.map_eq_some_iff.mp hrun
  obtain ⟨hh, hm⟩ := Prod.mk.inj hs'
  obtain ⟨h, hi, hp⟩ := Option.map_eq_some_iff.mp hh
  obtain ⟨m, hm⟩ := Option.isSome_iff_exists.mp hm
  have hreach := reachable_of_run (Map.wordKernel 0 false) _ (.init rfl) hs
  obtain ⟨h₁, h₂, h₃, h₄⟩ : h.ptr .values = some 0 ∧ h.ptr .blobs = some 0 ∧ h.ptr .keys = some 0 ∧
      h.ptr .states = some 0 := by simpa using hp
  refine ⟨s, hreach, (copyAssign_iff (Map.wordKernel 0 false) hreach hi hm).mpr
    (Or.inr (Or.inr fun p => ?_))⟩
  cases p
  · rw [h₁]
    exact Option.some_ne_none 0
  · rw [h₂]
    exact Option.some_ne_none 0
  · rw [h₃]
    exact Option.some_ne_none 0
  · rw [h₄]
    exact Option.some_ne_none 0

/-- Two maps of words of the same capacity: the first one is moved from, and then assigned to. -/
theorem copyAssign_movedFrom : ¬ ∀ (s : Program (Map.wordMap 0 false) ℕ),
    (programs (Map.wordKernel 0 false)).Reachable s →
      ∀ i < s.maps.length, ∀ j m, s.load j = some m → CopyAssigns (Map.wordKernel 0 false).ops s i j := by
  intro hall
  have hrun : ((start (Map.wordMap 0 false) ℕ).run (Map.wordKernel 0 false).ops
      [.construct (Map.wordConf 0 false), .construct (Map.wordConf 0 false), .move 0]).map
        (fun s => (s.maps.length, (s.load 1).isSome,
          (s.step (Map.wordKernel 0 false).ops (.copyAssign 0 1)).isSome)) =
      some (3, true, false) := by decide +kernel
  obtain ⟨s, hs, hs'⟩ := Option.map_eq_some_iff.mp hrun
  obtain ⟨hlen, hs'⟩ := Prod.mk.inj hs'
  obtain ⟨hm, hstep⟩ := Prod.mk.inj hs'
  obtain ⟨m, hm⟩ := Option.isSome_iff_exists.mp hm
  have hreach := reachable_of_run (Map.wordKernel 0 false) _ (.init rfl) hs
  obtain ⟨s', -, hsome, -⟩ := hall s hreach 0 (by omega) 1 m hm
  rw [hsome] at hstep
  cases hstep

end Program

end Nvhm
