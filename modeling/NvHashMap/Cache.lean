import NvHashMap.Map

/-! # The cache

`cache.hpp`, with the members that it takes from `raw_map_base.hpp` and `swiss_map_base.hpp`.

* The state bytes and the LRU counters share one array: at twice the offset of a bucket lie its
  states, and behind them its counters.
* A `const` function that touches a counter returns the new cache as well.
* The probe sequence `linear_seq<0, kernel_size>` has one bucket, so there are no probe loops; its
  `psl` is zero, and the assertions that it is below the capacity are left out. -/

namespace Nvhm

open Buffer

/-- The template parameters of a cache. -/
structure CacheType (κ : Type) where
  key : KeyType κ
  layout : HashLayout
  conf : ConfType
  duplicates : Bool

/-- `kernel_size`. -/
abbrev CacheType.kernelSize {κ : Type} (T : CacheType κ) : ℕ := T.conf.kernelSize

/-- `linear_seq<0, kernel_size>`. -/
def CacheType.seq {κ : Type} (T : CacheType κ) : SeqType where
  kind := .linear
  alignment := 0
  maxLength := some T.kernelSize
  alignment_eq := alignment_zero

structure Cache {κ : Type} (T : CacheType κ) (ν : Type) where
  conf : Conf T.conf
  bucketMask : ℕ
  values : List ν
  blobs : List Byte
  keys : List κ
  statesAndLrus : List Byte
  numEmpty : ℤ

/-- `pos_to_pos2`. -/
def posToPos2 (K pos : ℕ) : ℕ := pos + alignPos pos (notMask (K - 1))

namespace Cache
variable {κ ν : Type} {T : CacheType κ}

/-! ### Reading -/

/-- `capacity`. -/
def capacity (m : Cache T ν) : ℕ := alignedMaskToCapacity T.kernelSize m.bucketMask

/-- `size`; a cache has no tombstones. -/
def size (m : Cache T ν) : ℤ := m.capacity - m.numEmpty

/-- `states_()[i]`. -/
def stateAtIdx (m : Cache T ν) (i : ℕ) : State := m.statesAndLrus.getD i tombstone

/-- `lrus_()[i]`. -/
def lruAtIdx (m : Cache T ν) (i : ℕ) : Lru := m.statesAndLrus.getD (T.kernelSize + i) 0

/-- `state_at_`. -/
def stateAt (m : Cache T ν) (pos : ℕ) : State := m.stateAtIdx (posToPos2 T.kernelSize pos)

/-- `lru_at_`. -/
def lruAt (m : Cache T ν) (pos : ℕ) : Lru := m.lruAtIdx (posToPos2 T.kernelSize pos)

/-- `contains_at_`. -/
def containsAt (m : Cache T ν) (pos : ℕ) : Bool := isHash (m.stateAt pos)

/-- `key_at_`. -/
def keyAt [Inhabited κ] (m : Cache T ν) (pos : ℕ) : κ := m.keys.getD pos default

/-- `value_at_`. -/
def valueAt [Inhabited ν] (m : Cache T ν) (pos : ℕ) : ν := m.values.getD pos default

/-- The bytes of a blob that belong to the entry. -/
def blobAt (m : Cache T ν) (pos : ℕ) : List Byte :=
  readAt m.blobs (pos * m.conf.blobStride) m.conf.blobSize

/-- `kernel_type::load(&states[off * 2])`. -/
def bucket (m : Cache T ν) (off : ℕ) : List State := readAt m.statesAndLrus (off * 2) T.kernelSize

/-- `kernel_type::load_lru(&lrus[off * 2])`. -/
def lrus (m : Cache T ν) (off : ℕ) : List Lru :=
  readAt m.statesAndLrus (T.kernelSize + off * 2) T.kernelSize

/-- `probe_seq_type seq{hash_to_pos<kernel_size>(hash)}`. -/
def initSeq (T : CacheType κ) (key : κ) : ProbeSeq :=
  ProbeSeq.init T.seq (hashToPos T.layout T.conf.kernelBits (T.key.hash key))

/-- `hash_to_state(key_to_hash(key))`. -/
def keyState (T : CacheType κ) (key : κ) : State := hashToState T.layout (T.key.hash key)

/-- `align_pos(seq.next(), bucket_mask)`: the only bucket of a key. -/
def home (m : Cache T ν) (key : κ) : ℕ := alignPos ((initSeq T key).next T.seq) m.bucketMask

/-! ### Writing -/

/-- `states[i] = s`. -/
def setState (m : Cache T ν) (i : ℕ) (s : State) : Cache T ν :=
  { m with statesAndLrus := m.statesAndLrus.set i s }

/-- `lrus[i] = l`. -/
def setLru (m : Cache T ν) (i : ℕ) (l : Lru) : Cache T ν :=
  { m with statesAndLrus := m.statesAndLrus.set (T.kernelSize + i) l }

/-- `kernel_type::store(k, &states[off * 2])`. -/
def storeBucket (m : Cache T ν) (off : ℕ) (k : List State) : Cache T ν :=
  { m with statesAndLrus := writeAt m.statesAndLrus (off * 2) k }

/-- `kernel_type::store_lru(l, &lrus[off * 2])`. -/
def storeLru (m : Cache T ν) (off : ℕ) (l : List Lru) : Cache T ν :=
  { m with statesAndLrus := writeAt m.statesAndLrus (T.kernelSize + off * 2) l }

/-- Load the counters of a bucket, update them for the slot `idx`, and store them. -/
def touch (B : BucketOps) (m : Cache T ν) (off idx : ℕ) : Cache T ν :=
  m.storeLru off (B.updateLru (m.lrus off) idx)

/-- `reset_slot_`. -/
def resetSlot (m : Cache T ν) (pos2 : ℕ) : Cache T ν :=
  { m.setState pos2 empty with numEmpty := m.numEmpty + 1 }

/-! ### Iterating -/

/-- The positions that `for_each_` visits: bucket by bucket, the slots of `mask_hash`. -/
def positions (B : BucketOps) (m : Cache T ν) : List ℕ :=
  (offsets T.kernelSize m.capacity).flatMap fun off => (B.hashes (m.bucket off)).map (off + ·)

/-- `for_each_`. -/
def forEach (B : BucketOps) (m : Cache T ν) : List ℕ := m.positions B

/-- The loop of `find_if_`. -/
def findIfLoop (B : BucketOps) (m : Cache T ν) (pred : ℕ → Bool) : List ℕ → Option ℕ × Cache T ν
  | [] => (none, m)
  | off :: offs =>
      match (B.hashes (m.bucket off)).find? fun i => pred (off + i) with
      | some i => (some (off + i), m.touch B off i)
      | none => findIfLoop B m pred offs

/-- `find_if_`. -/
def findIf (B : BucketOps) (m : Cache T ν) (pred : ℕ → Bool) : Option ℕ × Cache T ν :=
  findIfLoop B m pred (offsets T.kernelSize m.capacity)

section Keys
variable [Inhabited κ]

/-- The first slot of a list of candidates whose key is `key`. -/
def firstMatch (m : Cache T ν) (off : ℕ) (key : κ) (slots : List ℕ) : Option ℕ :=
  slots.find? fun i => T.key.eq (m.keyAt (off + i)) key

/-! ### Searching -/

/-- `find_first_`. -/
def findFirst (B : BucketOps) (m : Cache T ν) (key : κ) : (Option ℕ × ProbeSeq) × Cache T ν :=
  let off := m.home key
  match m.firstMatch off key (B.hits (m.bucket off) (keyState T key)) with
  | some i => ((some (off + i), initSeq T key), m.touch B off i)
  | none => ((none, initSeq T key), m)

/-- The checks of `find_next_` and `erase_next_`, and their search behind `pos`. -/
def locateNext (B : BucketOps) (m : Cache T ν) (pos : ℕ) (seq : ProbeSeq) (key : κ) :
    Except Err (ℕ × Option ℕ) :=
  let off := alignPos pos (notMask (T.kernelSize - 1))
  let idx := alignPos pos (T.kernelSize - 1)
  if pos < m.capacity then
    if seq.hasNext T.seq ∧ alignPos (seq.next T.seq) m.bucketMask = off ∧ seq.psl < m.capacity then
      .ok (off, m.firstMatch off key (B.hitsAbove (m.bucket off) (keyState T key) idx))
    else .error .badSeq
  else .error .badPos

/-- `find_next_`. -/
def findNext (B : BucketOps) (m : Cache T ν) (pos : ℕ) (seq : ProbeSeq) (key : κ) :
    Except Err ((Option ℕ × ProbeSeq) × Cache T ν) :=
  if T.duplicates then do
    match ← m.locateNext B pos seq key with
    | (off, some i) => .ok ((some (off + i), seq), m.touch B off i)
    | (_, none) => .ok ((none, seq), m)
  else .ok ((none, seq), m)

/-- `for_each_(key)`: the visited positions, each with the sequence. -/
def forEachKey (B : BucketOps) (m : Cache T ν) (key : κ) : List (ℕ × ProbeSeq) × Cache T ν :=
  let off := m.home key
  let found := (B.hits (m.bucket off) (keyState T key)).filter fun i =>
    T.key.eq (m.keyAt (off + i)) key
  let visited := if T.duplicates then found else found.take 1
  (visited.map fun i => (off + i, initSeq T key), visited.foldl (fun m i => m.touch B off i) m)

/-- `count`. -/
def count (B : BucketOps) (m : Cache T ν) (key : κ) : ℕ × Cache T ν :=
  let (l, m) := m.forEachKey B key
  (l.length, m)

/-! ### Erasing -/

/-- `erase_first_`. -/
def eraseFirst (B : BucketOps) (m : Cache T ν) (key : κ) :
    (Bool × Option ℕ × ProbeSeq) × Cache T ν :=
  let off := m.home key
  match m.firstMatch off key (B.hits (m.bucket off) (keyState T key)) with
  | some i => ((true, some (off + i), initSeq T key), m.resetSlot (off * 2 + i))
  | none => ((false, none, initSeq T key), m)

/-- `erase_next_`. -/
def eraseNext (B : BucketOps) (m : Cache T ν) (pos : ℕ) (seq : ProbeSeq) (key : κ) :
    Except Err ((Bool × Option ℕ × ProbeSeq) × Cache T ν) :=
  if T.duplicates then do
    match ← m.locateNext B pos seq key with
    | (off, some i) => .ok ((true, some (off + i), seq), m.resetSlot (off * 2 + i))
    | (_, none) => .ok ((false, none, seq), m)
  else .ok ((false, none, seq), m)

/-- `erase_at_`. -/
def eraseAt (m : Cache T ν) (pos : ℕ) : Except Err ((Bool × ℕ) × Cache T ν) :=
  if pos < m.capacity then
    let pos2 := posToPos2 T.kernelSize pos
    if isHash (m.stateAtIdx pos2) then .ok ((true, pos), m.resetSlot pos2) else .ok ((false, pos), m)
  else .error .badPos

/-- Free slots of a bucket that was loaded before. -/
def resetSlots (m : Cache T ν) (off : ℕ) (slots : List ℕ) : Cache T ν :=
  slots.foldl (fun m i => m.resetSlot (off * 2 + i)) m

/-- The loop of `erase_if_`. -/
def eraseIfLoop (B : BucketOps) (pred : ℕ → Bool) : List ℕ → Cache T ν → Cache T ν
  | [], m => m
  | off :: offs, m =>
      eraseIfLoop B pred offs
        (m.resetSlots off ((B.hashes (m.bucket off)).filter fun i => pred (off + i)))

/-- `erase_if_`. -/
def eraseIf (B : BucketOps) (m : Cache T ν) (pred : ℕ → Bool) : ℤ × Cache T ν :=
  let m' := eraseIfLoop B pred (offsets T.kernelSize m.capacity) m
  (m'.numEmpty - m.numEmpty, m')

/-- `erase_all_`. -/
def eraseAll (B : BucketOps) (m : Cache T ν) (key : κ) : ℤ × Cache T ν :=
  let off := m.home key
  let found := (B.hits (m.bucket off) (keyState T key)).filter fun i =>
    T.key.eq (m.keyAt (off + i)) key
  let m' := m.resetSlots off found
  (m'.numEmpty - m.numEmpty, m')

/-! ### Inserting -/

/-- Store the key in the slot `idx` of a bucket. -/
def place (m : Cache T ν) (off idx : ℕ) (key : κ) (op : InsertOp) : Cache T ν :=
  let m := { m with keys := m.keys.set (off + idx) key }
  let m := (m.setState (off * 2 + idx) (keyState T key)).setLru (off * 2 + idx) defaultLru
  { m with numEmpty := m.numEmpty - if op = .insert then 1 else 0 }

/-- The search for a duplicate in the bucket. -/
def findInBucket (B : BucketOps) (m : Cache T ν) (off : ℕ) (key : κ) : Option ℕ :=
  if T.duplicates then none
  else m.firstMatch off key (B.hits (m.bucket off) (keyState T key))

/-- `insert_`. -/
def insert (B : BucketOps) (m : Cache T ν) (key : κ) : (ℕ × InsertOp × ProbeSeq) × Cache T ν :=
  let off := m.home key
  match m.findInBucket B off key with
  | some i => ((off + i, .found, initSeq T key), m.touch B off i)
  | none =>
      match (B.notHashes (m.bucket off)).head? with
      | some i => ((off + i, .insert, initSeq T key), m.place off i key .insert)
      | none =>
          let i := B.minLruSlot (m.lrus off)
          ((off + i, .replace, initSeq T key), m.place off i key .replace)

end Keys

/-! ### Allocation and rehashing -/

/-- The loop of `reset_`. -/
def resetBuckets (K : ℕ) : List ℕ → List Byte → List Byte
  | [], a => a
  | off :: offs, a =>
      let a := writeAt a (off * 2) (List.replicate K empty)
      resetBuckets K offs (writeAt a (K + off * 2) (List.replicate K maxLru))

/-- `reset_`. -/
def reset (m : Cache T ν) : Cache T ν :=
  { m with
    statesAndLrus := resetBuckets T.kernelSize (offsets T.kernelSize m.capacity) m.statesAndLrus
    numEmpty := m.capacity }

section Alloc
variable [Inhabited κ] [Inhabited ν]

/-- `alloc_`. -/
def alloc (m : Cache T ν) (end_ : ℕ) : Cache T ν :=
  { m with
    bucketMask := makeAlignedMask T.kernelSize end_
    values := List.replicate end_ default
    blobs := List.replicate (end_ * m.conf.blobStride) 0
    keys := List.replicate end_ default
    statesAndLrus := List.replicate (end_ * 2) 0 }

/-- The constructor. -/
def new (T : CacheType κ) (ν : Type) [Inhabited ν] (conf : Conf T.conf) :
    Except Err (Cache T ν) :=
  if conf.isValid then
    let m : Cache T ν := {
      conf := conf
      bucketMask := makeAlignedMask T.kernelSize conf.initCapacity
      values := List.replicate conf.initCapacity default
      blobs := List.replicate (conf.initCapacity * conf.blobStride) 0
      keys := List.replicate conf.initCapacity default
      statesAndLrus := List.replicate (conf.initCapacity * 2) 0
      numEmpty := 0 }
    .ok m.reset
  else .error .invalidArgument

/-- Copy the entry at the slot `oldIdx` of a bucket of `old` to the slot `idx` of a bucket of `m`. -/
def copyEntry (m old : Cache T ν) (oldOff oldIdx off idx : ℕ) : Cache T ν :=
  let key := old.keyAt (oldOff + oldIdx)
  let m := { m with
    values := m.values.set (off + idx) (old.valueAt (oldOff + oldIdx))
    blobs := writeAt m.blobs ((off + idx) * m.conf.blobStride) (old.blobAt (oldOff + oldIdx))
    keys := m.keys.set (off + idx) key }
  (m.setState (off * 2 + idx) (keyState T key)).setLru (off * 2 + idx)
    (old.lruAtIdx (oldOff * 2 + oldIdx))

/-- Re-insert one entry of the old table; `num_insert` counts the slots that get filled. -/
def reinsert (B : BucketOps) (old : Cache T ν) (oldOff oldIdx : ℕ) (s : Cache T ν × ℕ) :
    Cache T ν × ℕ :=
  let (m, numInsert) := s
  let off := m.home (old.keyAt (oldOff + oldIdx))
  match (B.notHashes (m.bucket off)).head? with
  | some i => (m.copyEntry old oldOff oldIdx off i, numInsert + 1)
  | none =>
      let (newLru, i) := B.minLru (m.lrus off)
      if (old.lruAtIdx (oldOff * 2 + oldIdx)).toNat < newLru.toNat then (m, numInsert)
      else (m.copyEntry old oldOff oldIdx off i, numInsert)

/-- Re-insert the entries of the given buckets of the old table. -/
def reinsertAll (B : BucketOps) (old : Cache T ν) : List ℕ → Cache T ν × ℕ → Cache T ν × ℕ
  | [], s => s
  | oldOff :: offs, s =>
      reinsertAll B old offs
        ((B.hashes (old.bucket oldOff)).foldl (fun s i => reinsert B old oldOff i s) s)

/-- `resize_`. -/
def resize_ (B : BucketOps) (m : Cache T ν) (end_ : ℕ) : ℕ × Cache T ν :=
  let end_ := max end_ m.conf.minCapacity
  if end_ = m.capacity then (end_, m)
  else
    let (m', numInsert) :=
      reinsertAll B m (offsets T.kernelSize m.capacity) ((m.alloc end_).reset, 0)
    (end_, { m' with numEmpty := m'.numEmpty - numInsert })

/-! ### Scrubbing -/

/-- The loop of `scrub_`, with `num_erased`. -/
def scrubLoop (B : BucketOps) (threshold : Lru) : List ℕ → Cache T ν × ℕ → Cache T ν × ℕ
  | [], s => s
  | off :: offs, (m, numErased) =>
      let k0 := m.bucket off
      let k1 := B.toEmptyIfLruBelow k0 (m.lrus off) threshold
      scrubLoop B threshold offs (m.storeBucket off k1, numErased + B.countNotEqual k0 k1)

/-- `scrub_`. -/
def scrub_ (B : BucketOps) (m : Cache T ν) (threshold : Lru) : ℕ × Cache T ν :=
  if maxLru.toNat ≤ threshold.toNat then (0, m)
  else
    let (m', numErased) := scrubLoop B threshold (offsets T.kernelSize m.capacity) (m, 0)
    (numErased, { m' with numEmpty := m'.numEmpty + numErased })

/-! ### Capacity -/

/-- `grow`. -/
def grow (B : BucketOps) (m : Cache T ν) : Except Err (ℕ × Cache T ν) := do
  .ok (resize_ B m (← shl1 m.capacity))

/-- `resize`. -/
def resize (B : BucketOps) (m : Cache T ν) (newCapacity : ℤ) : Except Err (ℕ × Cache T ν) := do
  let n ← bitCeil newCapacity
  .ok (resize_ B m (max n m.conf.minCapacity))

/-- `reserve`. -/
def reserve (B : BucketOps) (m : Cache T ν) (newCapacity : ℤ) : Except Err (ℕ × Cache T ν) :=
  if newCapacity ≤ m.capacity then .ok (m.capacity, m) else m.resize B newCapacity

/-- `shrink_target_`. -/
def shrinkTarget (m : Cache T ν) : ℕ := max (m.capacity / 2) m.conf.minCapacity

/-- `shrink`. -/
def shrink (B : BucketOps) (m : Cache T ν) : ℕ × Cache T ν :=
  if m.shrinkTarget = m.capacity then (m.shrinkTarget, m) else resize_ B m m.shrinkTarget

/-- `clear` without an argument. -/
def clear (m : Cache T ν) : ℕ × Cache T ν := (m.capacity, m.reset)

/-- `clear` with an argument. -/
def clearTo (m : Cache T ν) (newCapacity : ℤ) : Except Err (ℕ × Cache T ν) := do
  let n ← bitCeil (max newCapacity m.conf.minCapacity)
  let m := if n ≠ m.capacity then m.alloc n else m
  .ok (m.capacity, m.reset)

/-! ### Values and blobs -/

/-- `set_value_at`. -/
def setValueAt (m : Cache T ν) (pos : ℕ) (value : ν) : Except Err (Cache T ν) :=
  if pos < m.capacity ∧ m.containsAt pos then .ok { m with values := m.values.set pos value }
  else .error .badPos

/-- `set_blob_at` with a byte count. -/
def setBlobAt (m : Cache T ν) (pos : ℕ) (src : List Byte) : Except Err (Cache T ν) :=
  if pos < m.capacity ∧ m.containsAt pos then
    if src.length ≤ m.conf.blobSize then
      .ok { m with blobs := writeAt m.blobs (pos * m.conf.blobStride) src }
    else .error .invalidArgument
  else .error .badPos

end Alloc

/-! ### Runs -/

/-- The calls of a program. -/
inductive Op (κ ν : Type) where
  | insert (key : κ)
  | findFirst (key : κ)
  | findNext (pos : ℕ) (seq : ProbeSeq) (key : κ)
  | findIf (pred : ℕ → Bool)
  | forEach
  | forEachKey (key : κ)
  | count (key : κ)
  | eraseFirst (key : κ)
  | eraseNext (pos : ℕ) (seq : ProbeSeq) (key : κ)
  | eraseAt (pos : ℕ)
  | eraseIf (pred : ℕ → Bool)
  | eraseAll (key : κ)
  | grow
  | shrink
  | resize (newCapacity : ℤ)
  | reserve (newCapacity : ℤ)
  | clear
  | clearTo (newCapacity : ℤ)
  | scrub (threshold : Lru)
  | setValueAt (pos : ℕ) (value : ν)
  | setBlobAt (pos : ℕ) (src : List Byte)

section Runs
variable [Inhabited κ] [Inhabited ν]

open Map (Result)

/-- One call. -/
def step (B : BucketOps) (m : Cache T ν) : Op κ ν → Except Err (Result × Cache T ν)
  | .insert key =>
      let ((pos, op, seq), m) := m.insert B key
      .ok (.inserted pos op seq, m)
  | .findFirst key =>
      let ((pos, seq), m) := m.findFirst B key
      .ok (.found pos seq, m)
  | .findNext pos seq key => do
      let ((pos, seq), m) ← m.findNext B pos seq key
      .ok (.found pos seq, m)
  | .findIf pred =>
      let (pos, m) := m.findIf B pred
      .ok (.position pos, m)
  | .forEach => .ok (.positions (m.forEach B), m)
  | .forEachKey key =>
      let (l, m) := m.forEachKey B key
      .ok (.visited l, m)
  | .count key =>
      let (n, m) := m.count B key
      .ok (.number n, m)
  | .eraseFirst key =>
      let ((found, pos, seq), m) := m.eraseFirst B key
      .ok (.erased found pos seq, m)
  | .eraseNext pos seq key => do
      let ((found, pos, seq), m) ← m.eraseNext B pos seq key
      .ok (.erased found pos seq, m)
  | .eraseAt pos => do
      let ((found, pos), m) ← m.eraseAt pos
      .ok (.erasedAt found (some pos), m)
  | .eraseIf pred =>
      let (n, m) := m.eraseIf B pred
      .ok (.number n, m)
  | .eraseAll key =>
      let (n, m) := m.eraseAll B key
      .ok (.number n, m)
  | .grow => do
      let (n, m) ← m.grow B
      .ok (.number n, m)
  | .shrink =>
      let (n, m) := m.shrink B
      .ok (.number n, m)
  | .resize n => do
      let (n, m) ← m.resize B n
      .ok (.number n, m)
  | .reserve n => do
      let (n, m) ← m.reserve B n
      .ok (.number n, m)
  | .clear => .ok (.number m.clear.1, m.clear.2)
  | .clearTo n => do
      let (n, m) ← m.clearTo n
      .ok (.number n, m)
  | .scrub threshold =>
      let (n, m) := m.scrub_ B threshold
      .ok (.number n, m)
  | .setValueAt pos value => do
      let m ← m.setValueAt pos value
      .ok (.done, m)
  | .setBlobAt pos src => do
      let m ← m.setBlobAt pos src
      .ok (.done, m)

/-- A sequence of calls. -/
def run (B : BucketOps) : List (Op κ ν) → Cache T ν → Except Err (List Result × Cache T ν)
  | [], m => .ok ([], m)
  | op :: ops, m => do
      let (r, m) ← m.step B op
      let (rs, m) ← run B ops m
      .ok (r :: rs, m)

/-- A sequence of calls on a new cache. -/
def exec (T : CacheType κ) (B : BucketOps) (conf : Conf T.conf) (ops : List (Op κ ν)) :
    Except Err (List Result × Cache T ν) := do
  let m ← Cache.new T ν conf
  run B ops m

end Runs

end Cache

end Nvhm
