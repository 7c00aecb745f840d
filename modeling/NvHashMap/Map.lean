import NvHashMap.Hash
import NvHashMap.ProbeSeq
import NvHashMap.Conf
import NvHashMap.Bucket

/-! # The map

`map.hpp`, with the members that it takes from `raw_map_base.hpp` and `swiss_map_base.hpp`.  Every
function has the name of the source function it models and takes the kernel `B` as an argument.

* Arrays are lists; a fresh array holds a default element.  A position of the source that can be
  `npos` is an `Option ℕ`.
* A `const` function returns its result, a mutating one the new map as well.
* Every probe loop is a `probeLoop`.  It fails with the error it is given where the source asserts
  that `psl` is below the capacity, so its fuel is never used up.
* `keys[pos] != key` is the only use of a key's equality. -/

namespace Nvhm

open Buffer

/-- The template parameters of a map. -/
structure MapType (κ : Type) where
  key : KeyType κ
  layout : HashLayout
  conf : ConfType
  seq : SeqType
  duplicates : Bool
  autoShrink : Bool
  autoScrub : Bool

/-- `kernel_size`. -/
abbrev MapType.kernelSize {κ : Type} (T : MapType κ) : ℕ := T.conf.kernelSize

structure Map {κ : Type} (T : MapType κ) (ν : Type) where
  conf : Conf T.conf
  bucketMask : ℕ
  growThreshold : ℕ
  values : List ν
  blobs : List Byte
  keys : List κ
  states : List State
  numEmpty : ℤ
  numTombstone : ℤ

/-- `insert_op_t`. -/
inductive InsertOp where
  | found
  | insert
  | replace
deriving DecidableEq, Repr

/-! ### Probe loops -/

/-- What the body of a probe loop does: go on to the next bucket, or leave the function. -/
inductive Flow (σ α : Type) where
  | cont (s : σ)
  | done (a : α)

section ProbeLoop
variable {σ α : Type}

/-- `for (; seq.has_next(); seq += kernel_size)`, with the assertion on `psl` at its top.  The
body gets the sequence and the offset of its bucket; `exhausted` is what follows the loop. -/
def probeLoop (S : SeqType) (K mask end_ : ℕ) (full : Err)
    (body : ProbeSeq → ℕ → σ → Flow σ α) (exhausted : ProbeSeq → σ → α) :
    ℕ → ProbeSeq → σ → Except Err α
  | 0, _, _ => .error .outOfFuel
  | n + 1, q, s =>
      if q.hasNext S then
        if q.psl < end_ then
          match body q (alignPos (q.next S) mask) s with
          | .cont s => probeLoop S K mask end_ full body exhausted n (q.advance S K) s
          | .done a => .ok a
        else .error full
      else .ok (exhausted q s)

end ProbeLoop

/-- The offsets of the buckets of a table. -/
def offsets (K end_ : ℕ) : List ℕ := (List.range (end_ / K)).map (K * ·)

namespace Map
variable {κ ν : Type} {T : MapType κ}

/-! ### Reading a table -/

/-- `capacity`. -/
def capacity (m : Map T ν) : ℕ := alignedMaskToCapacity T.kernelSize m.bucketMask

/-- `state_at_`. -/
def stateAt (m : Map T ν) (pos : ℕ) : State := m.states.getD pos tombstone

/-- `key_at_`. -/
def keyAt [Inhabited κ] (m : Map T ν) (pos : ℕ) : κ := m.keys.getD pos default

/-- `value_at_`. -/
def valueAt [Inhabited ν] (m : Map T ν) (pos : ℕ) : ν := m.values.getD pos default

/-- The bytes of a blob that belong to the entry. -/
def blobAt (m : Map T ν) (pos : ℕ) : List Byte :=
  readAt m.blobs (pos * m.conf.blobStride) m.conf.blobSize

/-- `kernel_type::load(&states[off])`. -/
def bucket (m : Map T ν) (off : ℕ) : List State := readAt m.states off T.kernelSize

/-- `contains_at_`. -/
def containsAt (m : Map T ν) (pos : ℕ) : Bool := isHash (m.stateAt pos)

/-- `num_not_hash_slots_`. -/
def numNotHashSlots (m : Map T ν) : ℤ := m.numEmpty + m.numTombstone

/-- `size`. -/
def size (m : Map T ν) : ℤ := m.capacity - m.numNotHashSlots

/-- `is_full_`. -/
def isFull (m : Map T ν) : Bool := Conf.shouldGrowPrecalc m.numEmpty m.growThreshold

/-- `probe_seq_type seq{hash_to_pos<kernel_size>(hash)}`. -/
def initSeq (T : MapType κ) (key : κ) : ProbeSeq :=
  ProbeSeq.init T.seq (hashToPos T.layout T.conf.kernelBits (T.key.hash key))

/-- `hash_to_state(key_to_hash(key))`. -/
def keyState (T : MapType κ) (key : κ) : State := hashToState T.layout (T.key.hash key)

section Loops
variable {σ α : Type}

/-- A probe loop over the table `m`, for `key`. -/
def probe (m : Map T ν) (full : Err) (key : κ) (body : ProbeSeq → ℕ → σ → Flow σ α)
    (exhausted : ProbeSeq → σ → α) (s : σ) : Except Err α :=
  probeLoop T.seq T.kernelSize m.bucketMask m.capacity full body exhausted
    (m.capacity / T.kernelSize + 1) (initSeq T key) s

end Loops

/-- The positions that `for_each_` visits: bucket by bucket, the slots of `mask_hash`. -/
def positions (B : BucketOps) (m : Map T ν) : List ℕ :=
  (offsets T.kernelSize m.capacity).flatMap fun off => (B.hashes (m.bucket off)).map (off + ·)

/-- `for_each_`. -/
def forEach (B : BucketOps) (m : Map T ν) : List ℕ := m.positions B

/-- `for_each_state_`. -/
def forEachState (B : BucketOps) (m : Map T ν) : List State :=
  (offsets T.kernelSize m.capacity).flatMap fun off =>
    (B.hashes (m.bucket off)).map fun i => (m.bucket off).getD i tombstone

/-- `find_if_`. -/
def findIf (B : BucketOps) (m : Map T ν) (pred : ℕ → Bool) : Option ℕ :=
  (m.positions B).find? pred

section Keys
variable [Inhabited κ]

/-- The first slot of a list of candidates whose key is `key`. -/
def firstMatch (m : Map T ν) (off : ℕ) (key : κ) (slots : List ℕ) : Option ℕ :=
  slots.find? fun i => T.key.eq (m.keyAt (off + i)) key

/-! ### Searching -/

/-- The common part of `find_first_` and `erase_first_`: the slot of the key, and whether its
bucket has an empty slot. -/
def locateFirst (B : BucketOps) (m : Map T ν) (key : κ) :
    Except Err (Option (ℕ × Bool) × ProbeSeq) :=
  m.probe .tableFull key
    (fun q off () =>
      let k := m.bucket off
      match m.firstMatch off key (B.hits k (keyState T key)) with
      | some i => .done (some (off + i, B.hasEmpty k), q)
      | none => if B.hasEmpty k then .done (none, q) else .cont ())
    (fun q _ => (none, q)) ()

/-- `find_first_`. -/
def findFirst (B : BucketOps) (m : Map T ν) (key : κ) : Except Err (Option ℕ × ProbeSeq) := do
  let (r, q) ← m.locateFirst B key
  .ok (r.map Prod.fst, q)

/-- The search of `find_next_` from the bucket of `q` on; `above` is the slot from which the first
bucket is searched. -/
def nextLoop (B : BucketOps) (m : Map T ν) (key : κ) :
    ℕ → ProbeSeq → ℤ → Except Err (Option (ℕ × Bool) × ProbeSeq)
  | 0, _, _ => .error .outOfFuel
  | n + 1, q, above =>
      let off := alignPos (q.next T.seq) m.bucketMask
      let k := m.bucket off
      match m.firstMatch off key (B.hitsAbove k (keyState T key) above) with
      | some i => .ok (some (off + i, B.hasEmpty k), q)
      | none =>
          if B.hasEmpty k then .ok (none, q)
          else
            let q := q.advance T.seq T.kernelSize
            if q.hasNext T.seq then
              if q.psl < m.capacity then nextLoop B m key n q (-1) else .error .nextFull
            else .ok (none, q)

/-- The common part of `find_next_` and `erase_next_`: the checks of the arguments, the step to
the next bucket when `pos` is the last slot of its bucket, and the search.  It returns the slot
and whether its bucket has an empty slot. -/
def locateNext (B : BucketOps) (m : Map T ν) (pos : ℕ) (seq : ProbeSeq) (key : κ) :
    Except Err (Option (ℕ × Bool) × ProbeSeq) :=
  let K := T.kernelSize
  let off := alignPos pos (notMask (K - 1))
  let idx := alignPos pos (K - 1)
  if pos < m.capacity then
    if seq.hasNext T.seq ∧ alignPos (seq.next T.seq) m.bucketMask = off ∧ seq.psl < m.capacity then
      if K - 1 ≤ idx then
        let seq := seq.advance T.seq K
        if seq.hasNext T.seq then
          if seq.psl < m.capacity then nextLoop B m key (m.capacity / K + 1) seq (-1)
          else .error .nextFull
        else .ok (none, seq)
      else nextLoop B m key (m.capacity / K + 1) seq idx
    else .error .badSeq
  else .error .badPos

/-- `find_next_`. -/
def findNext (B : BucketOps) (m : Map T ν) (pos : ℕ) (seq : ProbeSeq) (key : κ) :
    Except Err (Option ℕ × ProbeSeq) :=
  if T.duplicates then do
    let (r, q) ← m.locateNext B pos seq key
    .ok (r.map Prod.fst, q)
  else .ok (none, seq)

/-- `for_each_(key)`: the visited positions, each with its sequence. -/
def forEachKey (B : BucketOps) (m : Map T ν) (key : κ) : Except Err (List (ℕ × ProbeSeq)) :=
  m.probe .tableFull key
    (fun q off (acc : List (ℕ × ProbeSeq)) =>
      let k := m.bucket off
      let found := (B.hits k (keyState T key)).filter fun i => T.key.eq (m.keyAt (off + i)) key
      let visited := found.map fun i => (off + i, q)
      if T.duplicates then
        if B.hasEmpty k then .done (acc ++ visited) else .cont (acc ++ visited)
      else
        match visited with
        | p :: _ => .done (acc ++ [p])
        | [] => if B.hasEmpty k then .done acc else .cont acc)
    (fun _ acc => acc) []

/-- `count`. -/
def count (B : BucketOps) (m : Map T ν) (key : κ) : Except Err ℕ := do
  let l ← m.forEachKey B key
  .ok l.length

end Keys

/-! ### Allocation and rehashing -/

/-- `alloc_`. -/
def alloc [Inhabited κ] [Inhabited ν] (m : Map T ν) (end_ : ℕ) : Map T ν :=
  { m with
    bucketMask := makeAlignedMask T.kernelSize end_
    growThreshold := m.conf.growThreshold end_
    values := List.replicate end_ default
    blobs := List.replicate (end_ * m.conf.blobStride) 0
    keys := List.replicate end_ default
    states := List.replicate end_ empty }

/-- `reset_`. -/
def reset (m : Map T ν) : Map T ν :=
  { m with
    states := List.replicate m.capacity empty
    numEmpty := m.capacity
    numTombstone := 0 }

/-- Copy the entry at `src` of the table `old` to the slot `dst` of the table `m`. -/
def copyEntry [Inhabited κ] [Inhabited ν] (m old : Map T ν) (src dst : ℕ) : Map T ν :=
  { m with
    states := m.states.set dst (keyState T (old.keyAt src))
    keys := m.keys.set dst (old.keyAt src)
    values := m.values.set dst (old.valueAt src)
    blobs := writeAt m.blobs (dst * m.conf.blobStride) (old.blobAt src) }

section Alloc
variable [Inhabited κ] [Inhabited ν]

/-- The constructor. -/
def new (T : MapType κ) (ν : Type) [Inhabited ν] (conf : Conf T.conf) : Except Err (Map T ν) :=
  if conf.isValid then
    .ok {
      conf := conf
      bucketMask := makeAlignedMask T.kernelSize conf.initCapacity
      growThreshold := conf.growThreshold conf.initCapacity
      values := List.replicate conf.initCapacity default
      blobs := List.replicate (conf.initCapacity * conf.blobStride) 0
      keys := List.replicate conf.initCapacity default
      states := List.replicate conf.initCapacity empty
      numEmpty := conf.initCapacity
      numTombstone := 0 }
  else .error .invalidArgument

/-- Re-insert the entry at `pos` of the old table; `none` when the probe sequence ends. -/
def reinsert (B : BucketOps) (old m : Map T ν) (pos : ℕ) : Except Err (Option (Map T ν)) :=
  m.probe .tableFull (old.keyAt pos)
    (fun _ off () =>
      match (B.notHashes (m.bucket off)).head? with
      | some i => .done (some (m.copyEntry old pos (off + i)))
      | none => .cont ())
    (fun _ _ => none) ()

/-- Re-insert all entries of the old table. -/
def reinsertAll (B : BucketOps) (old : Map T ν) : List ℕ → Map T ν → Except Err (Option (Map T ν))
  | [], m => .ok (some m)
  | pos :: ps, m => do
      match ← reinsert B old m pos with
      | some m => reinsertAll B old ps m
      | none => .ok none

/-- The loop of `resize_` over the capacity. -/
def rehash (B : BucketOps) (old : Map T ν) : ℕ → ℕ → Except Err (ℕ × Map T ν)
  | 0, _ => .error .outOfFuel
  | n + 1, end_ => do
      match ← reinsertAll B old (old.positions B) (old.alloc end_).reset with
      | some m => .ok (end_, m)
      | none =>
          if T.seq.isUnbounded then .error .resizeError
          else rehash B old n (← shl1 end_)

/-- The capacity that `resize_` chooses: it fits the entries and the reserve above them. -/
def resizeTarget (m : Map T ν) (end_ : ℕ) : Except Err ℕ := do
  let end_ := if end_ < m.conf.minCapacity then m.conf.minCapacity else end_
  let slots ← bitCeil m.size
  let need ← bitCeil (m.size + m.conf.growThreshold slots)
  .ok (max end_ need)

/-- `num_empty_ -= old_size`. -/
def subEmpty (m : Map T ν) (n : ℤ) : Map T ν := { m with numEmpty := m.numEmpty - n }

/-- `resize_`. -/
def resize_ (B : BucketOps) (m : Map T ν) (end_ : ℕ) : Except Err (ℕ × Map T ν) := do
  let end_ ← m.resizeTarget end_
  if end_ = m.capacity then .ok (end_, m)
  else
    let (end_, m') ← rehash B m 64 end_
    .ok (end_, m'.subEmpty m.size)

/-! ### Scrubbing -/

/-- The state of `scrub_`: the table, `num_moves` and `psl_bits`. -/
structure Scrub (T : MapType κ) (ν : Type) where
  map : Map T ν
  numMoves : ℕ
  pslBits : ℕ

/-- Where `scrub_` leaves an entry: in its bucket, or in a slot upstream. -/
inductive Upstream where
  | stay
  | move (pos : ℕ)
  | exhausted
deriving DecidableEq, Repr

/-- The probe loop of `scrub_` for the entry at `oldPos` of the bucket at `oldOff`. -/
def upstream (B : BucketOps) (m : Map T ν) (oldOff oldPos : ℕ) :
    Except Err (Upstream × ProbeSeq) :=
  m.probe .tableFull (m.keyAt oldPos)
    (fun q off () =>
      if off = oldOff then .done (.stay, q)
      else
        match (B.notHashes (m.bucket off)).head? with
        | some i => .done (.move (off + i), q)
        | none => .cont ())
    (fun q _ => (.exhausted, q)) ()

/-- Move an entry upstream; the slot it leaves becomes empty if its bucket had an empty slot. -/
def moveEntry (m : Map T ν) (hadEmpty : Bool) (oldPos newPos : ℕ) : Map T ν :=
  let m := m.copyEntry m oldPos newPos
  if hadEmpty then
    { m with
      states := m.states.set oldPos empty
      numEmpty := m.numEmpty + 1
      numTombstone := m.numTombstone - 1 }
  else { m with states := m.states.set oldPos tombstone }

/-- One entry of a pass. -/
def scrubSlot (B : BucketOps) (oldOff : ℕ) (hadEmpty : Bool) (oldPos : ℕ) (s : Scrub T ν) :
    Except Err (Scrub T ν) := do
  let (u, q) ← upstream B s.map oldOff oldPos
  let pslBits := s.pslBits ||| q.psl
  match u with
  | .stay => .ok { s with pslBits := pslBits }
  | .move newPos =>
      if s.map.stateAt newPos = tombstone then
        .ok ⟨moveEntry s.map hadEmpty oldPos newPos, s.numMoves + 1, pslBits⟩
      else .error .notTombstone
  | .exhausted => .error .seqExhausted

/-- The entries of one bucket; the bucket was loaded before the first of them. -/
def scrubSlots (B : BucketOps) (oldOff : ℕ) (hadEmpty : Bool) :
    List ℕ → Scrub T ν → Except Err (Scrub T ν)
  | [], s => .ok s
  | i :: is, s => do
      let s ← scrubSlot B oldOff hadEmpty (oldOff + i) s
      scrubSlots B oldOff hadEmpty is s

/-- One pass over the buckets. -/
def scrubPass (B : BucketOps) : List ℕ → Scrub T ν → Except Err (Scrub T ν)
  | [], s => .ok s
  | off :: offs, s => do
      let k := s.map.bucket off
      let s ← scrubSlots B off (B.hasEmpty k) (B.hashes k) s
      scrubPass B offs s

/-- The passes, until one makes at most one move. -/
def scrubPasses (B : BucketOps) : ℕ → Scrub T ν → Except Err (Scrub T ν)
  | 0, _ => .error .outOfFuel
  | n + 1, s => do
      let s' ← scrubPass B (offsets T.kernelSize s.map.capacity) { s with pslBits := 0 }
      if s'.numMoves - s.numMoves ≤ 1 then .ok s' else scrubPasses B n s'

/-- `kernel_type::store(k, &states[off])`. -/
def storeBucket (m : Map T ν) (off : ℕ) (k : List State) : Map T ν :=
  { m with states := writeAt m.states off k }

/-- Turn the tombstones of the given buckets into empty slots. -/
def pruneBuckets (B : BucketOps) : List ℕ → Map T ν → Map T ν
  | [], m => m
  | off :: offs, m =>
      pruneBuckets B offs (m.storeBucket off (B.notHashToEmpty (m.bucket off)))

/-- Turn all tombstones into empty slots. -/
def pruneAll (B : BucketOps) (m : Map T ν) : Map T ν :=
  { pruneBuckets B (offsets T.kernelSize m.capacity) m with
    numEmpty := m.numEmpty + m.numTombstone
    numTombstone := 0 }

/-- Turn a bucket of tombstones into an empty one. -/
def pruneBucket (m : Map T ν) (off : ℕ) : Map T ν :=
  { m.storeBucket off (List.replicate T.kernelSize empty) with
    numEmpty := m.numEmpty + T.kernelSize
    numTombstone := m.numTombstone - T.kernelSize }

/-- Turn the buckets that consist of tombstones into empty ones. -/
def pruneDead (B : BucketOps) : List ℕ → Map T ν → Map T ν
  | [], m => m
  | off :: offs, m =>
      if B.hasNotTombstone (m.bucket off) then pruneDead B offs m
      else pruneDead B offs (m.pruneBucket off)

/-- What `scrub_` does after the last pass. -/
def prune (B : BucketOps) (s : Scrub T ν) : Map T ν :=
  if s.numMoves = 0 then s.map
  else if s.pslBits = 0 then pruneAll B s.map
  else pruneDead B (offsets T.kernelSize s.map.capacity) s.map

/-- `scrub_`. -/
def scrub_ (B : BucketOps) (m : Map T ν) : Except Err (ℕ × Map T ν) :=
  if m.numTombstone = 0 then .ok (0, m)
  else do
    let s ← scrubPasses B (m.capacity * m.capacity + 2) ⟨m, 0, 0⟩
    .ok (s.numMoves, prune B s)

/-! ### Erasing -/

/-- Free a slot: it becomes empty next to an empty slot, else a tombstone. -/
def free (m : Map T ν) (haveEmptyNeighbor : Bool) (pos : ℕ) : Map T ν :=
  if haveEmptyNeighbor then
    { m with states := m.states.set pos empty, numEmpty := m.numEmpty + 1 }
  else { m with states := m.states.set pos tombstone, numTombstone := m.numTombstone + 1 }

/-- `auto_shrink_and_scub_`. -/
def autoShrinkAndScub (B : BucketOps) (m : Map T ν) (numBurried : ℤ) :
    Except Err (Bool × Map T ν) :=
  if T.autoShrink && m.conf.shouldShrink m.capacity m.numEmpty m.numTombstone then do
    let (_, m) ← resize_ B m (m.capacity / 2)
    .ok (false, m)
  else if T.autoScrub && (numBurried != 0) && m.conf.shouldScrub m.capacity m.numTombstone then do
    let (_, m) ← scrub_ B m
    .ok (false, m)
  else .ok (true, m)

/-- `reset_slot_`. -/
def resetSlot (B : BucketOps) (m : Map T ν) (haveEmptyNeighbor : Bool) (pos : ℕ) :
    Except Err (Bool × Map T ν) :=
  autoShrinkAndScub B (m.free haveEmptyNeighbor pos) (if haveEmptyNeighbor then 0 else 1)

/-- `reset_slot_`, followed by the choice between the position and `npos`. -/
def eraseSlot (B : BucketOps) (m : Map T ν) (haveEmptyNeighbor : Bool) (pos : ℕ) :
    Except Err (Option ℕ × Map T ν) := do
  let (keep, m) ← resetSlot B m haveEmptyNeighbor pos
  .ok (if keep then some pos else none, m)

/-- `erase_first_`. -/
def eraseFirst (B : BucketOps) (m : Map T ν) (key : κ) :
    Except Err ((Bool × Option ℕ × ProbeSeq) × Map T ν) := do
  match ← m.locateFirst B key with
  | (some (pos, haveEmpty), q) =>
      let (r, m) ← eraseSlot B m haveEmpty pos
      .ok ((true, r, q), m)
  | (none, q) => .ok ((false, none, q), m)

/-- `erase_next_`. -/
def eraseNext (B : BucketOps) (m : Map T ν) (pos : ℕ) (seq : ProbeSeq) (key : κ) :
    Except Err ((Bool × Option ℕ × ProbeSeq) × Map T ν) :=
  if T.duplicates then
    if alignPos seq.psl m.bucketMask = seq.psl then do
      match ← m.locateNext B pos seq key with
      | (some (pos, haveEmpty), q) =>
          let (r, m) ← eraseSlot B m haveEmpty pos
          .ok ((true, r, q), m)
      | (none, q) => .ok ((false, none, q), m)
    else .error .badSeq
  else .ok ((false, none, seq), m)

/-- `erase_at_`. -/
def eraseAt (B : BucketOps) (m : Map T ν) (pos : ℕ) : Except Err ((Bool × Option ℕ) × Map T ν) :=
  if pos < m.capacity then
    if m.containsAt pos then do
      let off := alignPos pos (notMask (T.kernelSize - 1))
      let (r, m) ← eraseSlot B m (B.hasEmpty (m.bucket off)) pos
      .ok ((true, r), m)
    else .ok ((false, some pos), m)
  else .error .badPos

/-- Free the given slots of a bucket that was loaded before. -/
def freeSlots (m : Map T ν) (haveEmptyNeighbor : Bool) (slots : List ℕ) : Map T ν :=
  slots.foldl (fun m pos => m.free haveEmptyNeighbor pos) m

/-- The end of `erase_if_` and `erase_all_`: count what was freed since `old`. -/
def finishErase (B : BucketOps) (old m : Map T ν) : Except Err (ℤ × Map T ν) :=
  let numEmptied := m.numEmpty - old.numEmpty
  let numBurried := m.numTombstone - old.numTombstone
  let numErased := numEmptied + numBurried
  if numErased = 0 then .ok (numErased, m)
  else do
    let (_, m) ← autoShrinkAndScub B m numBurried
    .ok (numErased, m)

/-- The loop of `erase_if_`. -/
def freeIf (B : BucketOps) (pred : ℕ → Bool) : List ℕ → Map T ν → Map T ν
  | [], m => m
  | off :: offs, m =>
      let k := m.bucket off
      let slots := ((B.hashes k).map (off + ·)).filter pred
      freeIf B pred offs (m.freeSlots (B.hasEmpty k) slots)

/-- `erase_if_`. -/
def eraseIf (B : BucketOps) (m : Map T ν) (pred : ℕ → Bool) : Except Err (ℤ × Map T ν) :=
  finishErase B m (freeIf B pred (offsets T.kernelSize m.capacity) m)

/-- The loop of `erase_all_`. -/
def eraseAllLoop (B : BucketOps) (m : Map T ν) (key : κ) : Except Err (Map T ν) :=
  m.probe .tableFull key
    (fun _ off m' =>
      let k := m'.bucket off
      let found := (B.hits k (keyState T key)).filter fun i => T.key.eq (m'.keyAt (off + i)) key
      let m' := m'.freeSlots (B.hasEmpty k) (found.map (off + ·))
      if B.hasEmpty k then .done m' else .cont m')
    (fun _ m' => m') m

/-- `erase_all_`. -/
def eraseAll (B : BucketOps) (m : Map T ν) (key : κ) : Except Err (ℤ × Map T ν) :=
  if T.duplicates then do
    let m' ← eraseAllLoop B m key
    finishErase B m m'
  else do
    let (r, m) ← eraseFirst B m key
    .ok (if r.1 then 1 else 0, m)

/-! ### Inserting -/

/-- Store the key in a free slot. -/
def occupy (m : Map T ν) (pos : ℕ) (key : κ) (stateIsEmpty : ℤ) : Map T ν :=
  { m with
    keys := m.keys.set pos key
    states := m.states.set pos (keyState T key)
    numEmpty := m.numEmpty - stateIsEmpty
    numTombstone := m.numTombstone - (1 - stateIsEmpty) }

/-- What `insert_` returns. -/
abbrev InsertResult (T : MapType κ) (ν : Type) := (ℕ × InsertOp × ProbeSeq) × Map T ν

/-- The search for a duplicate in one bucket. -/
def findInBucket (B : BucketOps) (m : Map T ν) (off : ℕ) (key : κ) : Option ℕ :=
  if T.duplicates then none
  else m.firstMatch off key (B.hits (m.bucket off) (keyState T key))

/-- The loop of `insert_` over a table with tombstones: it remembers the first tombstone. -/
def insertReusing (B : BucketOps) (m : Map T ν) (key : κ) :
    Except Err (Option (InsertResult T ν)) :=
  m.probe .tableFull key
    (fun q off (insPos : Option ℕ) =>
      let k := m.bucket off
      match m.findInBucket B off key with
      | some i => .done (some ((off + i, .found, q), m))
      | none =>
          match insPos with
          | none =>
              match (B.tombstones k).head? with
              | some i => .cont (some (off + i))
              | none =>
                  match (B.notHashes k).head? with
                  | none => .cont none
                  | some i => .done (some ((off + i, .insert, q), m.occupy (off + i) key 1))
          | some pos =>
              match (B.empties k).head? with
              | none => .cont (some pos)
              | some _ => .done (some ((pos, .insert, q), m.occupy pos key 0)))
    (fun _ _ => none) none

/-- The loop of `insert_` over a table without tombstones. -/
def insertFresh (B : BucketOps) (m : Map T ν) (key : κ) :
    Except Err (Option (InsertResult T ν)) :=
  m.probe .tableFull key
    (fun q off () =>
      let k := m.bucket off
      match m.findInBucket B off key with
      | some i => .done (some ((off + i, .found, q), m))
      | none =>
          match (B.notHashes k).head? with
          | none => .cont ()
          | some i => .done (some ((off + i, .insert, q), m.occupy (off + i) key 1)))
    (fun _ _ => none) ()

/-- The outer loop of `insert_`: a bounded probe sequence may end, then the table grows. -/
def insertLoop (B : BucketOps) (key : κ) : ℕ → Map T ν → Except Err (InsertResult T ν)
  | 0, _ => .error .outOfFuel
  | n + 1, m => do
      let r ← if m.numTombstone ≠ 0 then insertReusing B m key else insertFresh B m key
      match r with
      | some r => .ok r
      | none =>
          if T.seq.isUnbounded then .error .insertError
          else do
            let (_, m) ← resize_ B m (← shl1 m.capacity)
            insertLoop B key n m

/-- `insert_`. -/
def insert (B : BucketOps) (m : Map T ν) (key : κ) : Except Err (InsertResult T ν) :=
  if m.isFull then do
    let (_, m) ← resize_ B m (← shl1 m.capacity)
    if m.isFull then .error .stillFull else insertLoop B key 64 m
  else insertLoop B key 64 m

/-! ### Capacity -/

/-- `grow`. -/
def grow (B : BucketOps) (m : Map T ν) : Except Err (ℕ × Map T ν) := do
  resize_ B m (← shl1 m.capacity)

/-- `resize`, for a new capacity in the domain of `bitCeil`. -/
def resize (B : BucketOps) (m : Map T ν) (newCapacity : ℤ) : Except Err (ℕ × Map T ν) := do
  let n ← bitCeil newCapacity
  resize_ B m (max n m.conf.minCapacity)

/-- `reserve`, for a new capacity in the domain of `bitCeil`. -/
def reserve (B : BucketOps) (m : Map T ν) (newCapacity : ℤ) : Except Err (ℕ × Map T ν) :=
  if newCapacity ≤ m.capacity then .ok (m.capacity, m) else m.resize B newCapacity

/-- The loop of `shrink_target_`. -/
def shrinkTargetLoop (m : Map T ν) (minEnd : ℕ) : ℕ → ℕ → ℕ
  | 0, end_ => end_
  | n + 1, end_ =>
      if minEnd < end_ then
        if m.conf.shouldShrink end_ m.numEmpty m.numTombstone then
          shrinkTargetLoop m minEnd n (end_ / 2)
        else end_
      else end_

/-- `shrink_target_`. -/
def shrinkTarget (m : Map T ν) : Except Err ℕ := do
  let n ← bitCeil m.size
  .ok (shrinkTargetLoop m (max n m.conf.minCapacity) 64 m.capacity)

/-- `shrink`. -/
def shrink (B : BucketOps) (m : Map T ν) : Except Err (ℕ × Map T ν) := do
  let end_ ← m.shrinkTarget
  if end_ = m.capacity then .ok (end_, m) else resize_ B m end_

/-- `clear` without an argument. -/
def clear (m : Map T ν) : ℕ × Map T ν :=
  let m := if T.autoShrink && (m.conf.initCapacity != m.capacity) then m.alloc m.conf.initCapacity
    else m
  (m.reset.capacity, m.reset)

/-- `clear` with an argument in the domain of `bitCeil`. -/
def clearTo (m : Map T ν) (newCapacity : ℤ) : Except Err (ℕ × Map T ν) := do
  let n ← bitCeil (max newCapacity m.conf.minCapacity)
  let m := if n ≠ m.capacity then m.alloc n else m
  .ok (m.reset.capacity, m.reset)

/-! ### Values and blobs -/

/-- `set_value_at`. -/
def setValueAt (m : Map T ν) (pos : ℕ) (value : ν) : Except Err (Map T ν) :=
  if pos < m.capacity ∧ m.containsAt pos then .ok { m with values := m.values.set pos value }
  else .error .badPos

/-- `set_blob_at` with a byte count. -/
def setBlobAt (m : Map T ν) (pos : ℕ) (src : List Byte) : Except Err (Map T ν) :=
  if pos < m.capacity ∧ m.containsAt pos then
    if src.length ≤ m.conf.blobSize then
      .ok { m with blobs := writeAt m.blobs (pos * m.conf.blobStride) src }
    else .error .invalidArgument
  else .error .badPos

end Alloc

/-! ### Runs -/

/-- The calls of a program.  A position or a probe sequence that a call takes is one that the
program got from an earlier call; a call that gets another one is an error. -/
inductive Op (κ ν : Type) where
  | insert (key : κ)
  | findFirst (key : κ)
  | findNext (pos : ℕ) (seq : ProbeSeq) (key : κ)
  | findIf (pred : ℕ → Bool)
  | forEach
  | forEachKey (key : κ)
  | count (key : κ)
  | eraseFirst (key : κ)
  | eraseNext (pos : ℕ) (seq : ProbeSeq) (key : κ)
  | eraseAt (pos : ℕ)
  | eraseIf (pred : ℕ → Bool)
  | eraseAll (key : κ)
  | grow
  | shrink
  | resize (newCapacity : ℤ)
  | reserve (newCapacity : ℤ)
  | clear
  | clearTo (newCapacity : ℤ)
  | scrub
  | setValueAt (pos : ℕ) (value : ν)
  | setBlobAt (pos : ℕ) (src : List Byte)

/-- What a call returns. -/
inductive Result where
  | inserted (pos : ℕ) (op : InsertOp) (seq : ProbeSeq)
  | found (pos : Option ℕ) (seq : ProbeSeq)
  | position (pos : Option ℕ)
  | positions (l : List ℕ)
  | visited (l : List (ℕ × ProbeSeq))
  | erased (found : Bool) (pos : Option ℕ) (seq : ProbeSeq)
  | erasedAt (found : Bool) (pos : Option ℕ)
  | number (n : ℤ)
  | done
deriving DecidableEq, Repr

section Runs
variable [Inhabited κ] [Inhabited ν]

/-- One call. -/
def step (B : BucketOps) (m : Map T ν) : Op κ ν → Except Err (Result × Map T ν)
  | .insert key => do
      let ((pos, op, seq), m) ← m.insert B key
      .ok (.inserted pos op seq, m)
  | .findFirst key => do
      let (pos, seq) ← m.findFirst B key
      .ok (.found pos seq, m)
  | .findNext pos seq key => do
      let (pos, seq) ← m.findNext B pos seq key
      .ok (.found pos seq, m)
  | .findIf pred => .ok (.position (m.findIf B pred), m)
  | .forEach => .ok (.positions (m.forEach B), m)
  | .forEachKey key => do
      let l ← m.forEachKey B key
      .ok (.visited l, m)
  | .count key => do
      let n ← m.count B key
      .ok (.number n, m)
  | .eraseFirst key => do
      let ((found, pos, seq), m) ← m.eraseFirst B key
      .ok (.erased found pos seq, m)
  | .eraseNext pos seq key => do
      let ((found, pos, seq), m) ← m.eraseNext B pos seq key
      .ok (.erased found pos seq, m)
  | .eraseAt pos => do
      let ((found, pos), m) ← m.eraseAt B pos
      .ok (.erasedAt found pos, m)
  | .eraseIf pred => do
      let (n, m) ← m.eraseIf B pred
      .ok (.number n, m)
  | .eraseAll key => do
      let (n, m) ← m.eraseAll B key
      .ok (.number n, m)
  | .grow => do
      let (n, m) ← m.grow B
      .ok (.number n, m)
  | .shrink => do
      let (n, m) ← m.shrink B
      .ok (.number n, m)
  | .resize n => do
      let (n, m) ← m.resize B n
      .ok (.number n, m)
  | .reserve n => do
      let (n, m) ← m.reserve B n
      .ok (.number n, m)
  | .clear => .ok (.number m.clear.1, m.clear.2)
  | .clearTo n => do
      let (n, m) ← m.clearTo n
      .ok (.number n, m)
  | .scrub => do
      let (n, m) ← m.scrub_ B
      .ok (.number n, m)
  | .setValueAt pos value => do
      let m ← m.setValueAt pos value
      .ok (.done, m)
  | .setBlobAt pos src => do
      let m ← m.setBlobAt pos src
      .ok (.done, m)

/-- A sequence of calls. -/
def run (B : BucketOps) : List (Op κ ν) → Map T ν → Except Err (List Result × Map T ν)
  | [], m => .ok ([], m)
  | op :: ops, m => do
      let (r, m) ← m.step B op
      let (rs, m) ← run B ops m
      .ok (r :: rs, m)

/-- A sequence of calls on a new map. -/
def exec (T : MapType κ) (B : BucketOps) (conf : Conf T.conf) (ops : List (Op κ ν)) :
    Except Err (List Result × Map T ν) := do
  let m ← Map.new T ν conf
  run B ops m

end Runs

end Map

end Nvhm
