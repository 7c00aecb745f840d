import NvHashMap.Map.Calls
import NvHashMap.Sharded.Iteration

/-! # Calls of a sharded container

`sharded.hpp`.

* The bits of a hash that choose the shard are masked with the number of shards.
* A call that takes a key goes to the shard of the key, a call that takes a position to the shard
  of the position.  The other calls go to all shards, one after another; a capacity is divided
  between them.
* `Sharded.call` is a call of a caller that knows no positions, as `Map.call` is for one map. -/

namespace Nvhm

/-- `prefetch_hint`: the hash, which is that of the inner hint, and `shard_idx_`. -/
structure PrefetchHint where
  hash : ℕ
  shardIdx : ℕ
deriving DecidableEq, Repr

variable {κ ν : Type} {T : MapType κ}

namespace Sharded

/-! ### Construction -/

theorem num_eq_replicate {n : ℤ}
    (h : 1 ≤ n ∧ n ≤ maxNumShards ∧ n.toNat.isPowerOfTwo) (m : Map T ν) :
    ∃ s ≤ numShardBits, (List.replicate n.toNat m).length = 2 ^ s := by
  obtain ⟨-, hle, s, hs⟩ := h
  refine ⟨s, ?_, by rw [List.length_replicate, hs]⟩
  have hpow : 2 ^ s ≤ 2 ^ numShardBits := by
    rw [← hs]
    simp only [maxNumShards, numShardBits] at hle ⊢
    omega
  exact (Nat.pow_le_pow_iff_right (by decide)).mp hpow

theorem num_eq_of_length (s : Sharded T ν) {l : List (Map T ν)} (h : l.length = s.shards.length) :
    ∃ k ≤ numShardBits, l.length = 2 ^ k := by
  rw [h]
  exact s.num_eq

theorem num_eq_set (s : Sharded T ν) (i : ℕ) (m : Map T ν) :
    ∃ k ≤ numShardBits, (s.shards.set i m).length = 2 ^ k := s.num_eq_of_length (List.length_set ..)

theorem length_cons {m m' : Map T ν} {l l' : List (Map T ν)} (h : l'.length = l.length) :
    (m' :: l').length = (m :: l).length := congrArg (· + 1) h

/-- The constructor. -/
def new [Inhabited κ] (T : MapType κ) (ν : Type) [Inhabited ν] (conf : Conf T.conf)
    (numShards : ℤ) : Except Err (Sharded T ν) :=
  if h : 1 ≤ numShards ∧ numShards ≤ maxNumShards ∧ numShards.toNat.isPowerOfTwo then do
    let m ← Map.new T ν conf
    .ok ⟨List.replicate numShards.toNat m, num_eq_replicate h m⟩
  else .error .invalidArgument

/-! ### Routing -/

/-- `shard_mask_`. -/
def shardMask (s : Sharded T ν) : ℕ := makeAlignedMask 1 s.numShards

/-- `to_shard_idx`. -/
def toShardIdx (s : Sharded T ν) (key : κ) : ℕ :=
  alignPos (hashToShardIdx T.layout (T.key.hash key)) s.shardMask

/-- The hint that `read_prefetch` and `write_prefetch` return. -/
def prefetch (s : Sharded T ν) (key : κ) : PrefetchHint where
  hash := T.key.hash key
  shardIdx := alignPos (hashToShardIdx T.layout (T.key.hash key)) s.shardMask

/-- `to_shard_idx`; a hint has to be one of this key. -/
def toShardIdxHint (s : Sharded T ν) (key : κ) : Option PrefetchHint → Except Err ℕ
  | none => .ok (s.toShardIdx key)
  | some hint => if s.prefetch key = hint then .ok hint.shardIdx else .error .invalidArgument

variable [Inhabited κ] [Inhabited ν]

def keyAt (s : Sharded T ν) (pos : ℕ × ℕ) : κ :=
  (s.shards[pos.1]?).elim default fun m => m.keyAt pos.2

def valueAt (s : Sharded T ν) (pos : ℕ × ℕ) : ν :=
  (s.shards[pos.1]?).elim default fun m => m.valueAt pos.2

/-! ### Calls of one shard -/

/-- The shard `i` after a call. -/
def setShard (s : Sharded T ν) (i : ℕ) (m : Map T ν) : Sharded T ν :=
  ⟨s.shards.set i m, s.num_eq_set i m⟩

/-- A call of the shard `i`. -/
def atShard (s : Sharded T ν) (i : ℕ) {α : Type} (f : Map T ν → Except Err (α × Map T ν)) :
    Except Err (α × Sharded T ν) :=
  match s.shards[i]? with
  | some m => do
      let (a, m) ← f m
      .ok (a, s.setShard i m)
  | none => .error .badPos

/-- `insert_ex`. -/
def insert (B : BucketOps) (s : Sharded T ν) (key : κ) (hint : Option PrefetchHint) :
    Except Err (((ℕ × ℕ) × InsertOp × ProbeSeq) × Sharded T ν) := do
  let i ← s.toShardIdxHint key hint
  let ((p, op, q), s) ← s.atShard i fun m => m.insert B key
  .ok (((i, p), op, q), s)

/-- `find_first` and `update_first`. -/
def findFirst (B : BucketOps) (s : Sharded T ν) (key : κ) (hint : Option PrefetchHint) :
    Except Err (Option (ℕ × ℕ) × ProbeSeq) := do
  let i ← s.toShardIdxHint key hint
  match s.shards[i]? with
  | some m => do
      let (p, q) ← m.findFirst B key
      .ok (p.map fun p => (i, p), q)
  | none => .error .badPos

/-- `for_each` over the entries of a key. -/
def forEachKey (B : BucketOps) (s : Sharded T ν) (key : κ) :
    Except Err (List ((ℕ × ℕ) × ProbeSeq)) :=
  let i := s.toShardIdx key
  match s.shards[i]? with
  | some m => do
      let l ← m.forEachKey B key
      .ok (l.map fun (p, q) => ((i, p), q))
  | none => .error .badPos

/-- `count`. -/
def count (B : BucketOps) (s : Sharded T ν) (key : κ) : Except Err ℕ :=
  match s.shards[s.toShardIdx key]? with
  | some m => m.count B key
  | none => .error .badPos

/-- `erase_first`. -/
def eraseFirst (B : BucketOps) (s : Sharded T ν) (key : κ) (hint : Option PrefetchHint) :
    Except Err ((Bool × Option (ℕ × ℕ) × ProbeSeq) × Sharded T ν) := do
  let i ← s.toShardIdxHint key hint
  let ((found, p, q), s) ← s.atShard i fun m => m.eraseFirst B key
  .ok ((found, p.map fun p => (i, p), q), s)

/-- `erase_all`. -/
def eraseAll (B : BucketOps) (s : Sharded T ν) (key : κ) : Except Err (ℤ × Sharded T ν) :=
  s.atShard (s.toShardIdx key) fun m => m.eraseAll B key

/-- `set_value_at`. -/
def setValueAt (s : Sharded T ν) (pos : ℕ × ℕ) (value : ν) : Except Err (Sharded T ν) := do
  let (_, s) ← s.atShard pos.1 fun m => do
    let m ← m.setValueAt pos.2 value
    .ok ((), m)
  .ok s

/-! ### Calls of all shards -/

/-- The loop over the shards; the numbers that they return are added up. -/
def eachShard {α : Type} [Zero α] [Add α] (f : ℕ → Map T ν → Except Err (α × Map T ν)) :
    ℕ → (l : List (Map T ν)) → Except Err (α × {l' : List (Map T ν) // l'.length = l.length})
  | _, [] => .ok (0, ⟨[], rfl⟩)
  | i, m :: l => do
      let (n, m') ← f i m
      let (k, ⟨l', h⟩) ← eachShard f (i + 1) l
      .ok (n + k, ⟨m' :: l', length_cons h⟩)

/-- `for_each_shard_`. -/
def forEachShard {α : Type} [Zero α] [Add α] (s : Sharded T ν)
    (f : ℕ → Map T ν → Except Err (α × Map T ν)) : Except Err (α × Sharded T ν) := do
  let (n, ⟨l, h⟩) ← eachShard f 0 s.shards
  .ok (n, ⟨l, s.num_eq_of_length h⟩)

/-- `count_if`. -/
def countIf (B : BucketOps) (s : Sharded T ν) (pred : ℕ × ℕ → Bool) : ℕ :=
  (s.forEach B).countP pred

/-- `erase_if`. -/
def eraseIf (B : BucketOps) (s : Sharded T ν) (pred : ℕ × ℕ → Bool) :
    Except Err (ℤ × Sharded T ν) :=
  s.forEachShard fun i m => m.eraseIf B fun p => pred (i, p)

/-- `grow`. -/
def grow (B : BucketOps) (s : Sharded T ν) : Except Err (ℕ × Sharded T ν) :=
  s.forEachShard fun _ m => m.grow B

/-- `shrink`. -/
def shrink (B : BucketOps) (s : Sharded T ν) : Except Err (ℕ × Sharded T ν) :=
  s.forEachShard fun _ m => m.shrink B

/-- `resize`. -/
def resize (B : BucketOps) (s : Sharded T ν) (newCapacity : ℤ) : Except Err (ℕ × Sharded T ν) :=
  let newCapacity := ceilDiv newCapacity s.numShards
  s.forEachShard fun _ m => m.resize B newCapacity

/-- `reserve`. -/
def reserve (B : BucketOps) (s : Sharded T ν) (newCapacity : ℤ) : Except Err (ℕ × Sharded T ν) :=
  let newCapacity := ceilDiv newCapacity s.numShards
  s.forEachShard fun _ m => m.reserve B newCapacity

/-- `clear` without an argument. -/
def clear (s : Sharded T ν) : Except Err (ℕ × Sharded T ν) :=
  s.forEachShard fun _ m => .ok m.clear

/-- `clear` with an argument. -/
def clearTo (s : Sharded T ν) (newCapacity : ℤ) : Except Err (ℕ × Sharded T ν) :=
  let newCapacity := ceilDiv newCapacity s.numShards
  s.forEachShard fun _ m => m.clearTo newCapacity

end Sharded

/-! ### Calls -/

section Calls
variable [Inhabited κ] [Inhabited ν]

namespace Sharded

def pairAt (s : Sharded T ν) (pos : ℕ × ℕ) : κ × ν := (s.keyAt pos, s.valueAt pos)

/-- The hint of a call. -/
def hintFor (s : Sharded T ν) (key : κ) (hinted : Bool) : Option PrefetchHint :=
  if hinted then some (s.prefetch key) else none

def call (B : BucketOps) (s : Sharded T ν) : Call κ ν → Except Err (View κ ν × Sharded T ν)
  | .insert key hinted => do
      let ((pos, op, _), s) ← s.insert B key (s.hintFor key hinted)
      .ok (.inserted op (s.pairAt pos), s)
  | .find key hinted => do
      let (pos, _) ← s.findFirst B key (s.hintFor key hinted)
      .ok (.found (pos.map s.pairAt), s)
  | .erase key hinted => do
      let ((found, _), s) ← s.eraseFirst B key (s.hintFor key hinted)
      .ok (.flag found, s)
  | .eraseAll key => do
      let (n, s) ← s.eraseAll B key
      .ok (.number n, s)
  | .count key => do
      let n ← s.count B key
      .ok (.number n, s)
  | .forEachKey key => do
      let l ← s.forEachKey B key
      .ok (.entries (l.map fun x => s.pairAt x.1), s)
  | .assign key value => do
      let (pos, _) ← s.findFirst B key none
      match pos with
      | some pos => do
          let s ← s.setValueAt pos value
          .ok (.flag true, s)
      | none => .ok (.flag false, s)
  | .forEach => .ok (.entries ((s.forEach B).map s.pairAt), s)
  | .countIf pred => .ok (.number (s.countIf B fun p => pred (s.keyAt p) (s.valueAt p)), s)
  | .eraseIf pred => do
      let (n, s) ← s.eraseIf B fun p => pred (s.keyAt p) (s.valueAt p)
      .ok (.number n, s)
  | .size => .ok (.number s.size, s)
  | .grow => do
      let (_, s) ← s.grow B
      .ok (.done, s)
  | .shrink => do
      let (_, s) ← s.shrink B
      .ok (.done, s)
  | .resize n => do
      let (_, s) ← s.resize B n
      .ok (.done, s)
  | .reserve n => do
      let (_, s) ← s.reserve B n
      .ok (.done, s)
  | .clear => do
      let (_, s) ← s.clear
      .ok (.done, s)
  | .clearTo n => do
      let (_, s) ← s.clearTo n
      .ok (.done, s)

end Sharded

end Calls

end Nvhm
