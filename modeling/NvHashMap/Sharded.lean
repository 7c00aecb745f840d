import NvHashMap.Iteration
import Mathlib.Data.Prod.Lex

/-! # Sharded containers

`sharded.hpp`.

* A sharded container holds a power of two of shards; all of them are built from the same
  configuration.
* An iterator is a shard index with an iterator of that shard, compared in this order.
* A step that leaves a shard hops over the shards without entries. -/

namespace Nvhm

/-! ### Iterators -/

/-- What an iterator asks of the shards: their number, what an inner iterator asks of each, and the
position that `begin` of each returns. -/
structure Shards where
  num : ℕ
  outer : ℕ → Outer
  begin_ : ℕ → ℤ

namespace Shards
variable (S : Shards)

/-- `shard_idx_` and `inner_`; the order is `operator<`. -/
abbrev Iter := ℕ ×ₗ ℤ

/-- `max_shard_idx`; `min_shard_idx` is zero. -/
def maxShardIdx : ℕ := S.num - 1

/-- The loop of `operator++`: `n` is the number of shards behind the current one. -/
def nextLoop : ℕ → ℕ → ℤ → Iter
  | 0, shardIdx, inner => toLex (shardIdx, inner)
  | n + 1, shardIdx, _ =>
      let shardIdx := shardIdx + 1
      let inner := S.begin_ shardIdx
      if (S.outer shardIdx).isRight inner then nextLoop n shardIdx inner
      else toLex (shardIdx, inner)

/-- `operator++`. -/
def next (it : Iter) : Iter :=
  let (shardIdx, inner) := ofLex it
  let inner := (S.outer shardIdx).next inner
  if (S.outer shardIdx).isRight inner then S.nextLoop (S.maxShardIdx - shardIdx) shardIdx inner
  else toLex (shardIdx, inner)

/-- The loop of `operator--`. -/
def prevLoop : ℕ → ℤ → Iter
  | 0, inner => toLex (0, inner)
  | shardIdx + 1, _ =>
      let inner := (S.outer shardIdx).prev (S.outer shardIdx).end_
      if Outer.isLeft inner then prevLoop shardIdx inner else toLex (shardIdx, inner)

/-- `operator--`. -/
def prev (it : Iter) : Iter :=
  let (shardIdx, inner) := ofLex it
  let inner := (S.outer shardIdx).prev inner
  if Outer.isLeft inner then S.prevLoop shardIdx inner else toLex (shardIdx, inner)

/-- `end`. -/
def end_ : Iter := toLex (S.maxShardIdx, (S.outer S.maxShardIdx).end_)

/-- `begin`. -/
def first : Iter :=
  match (List.range S.num).find? fun i => !(S.outer i).isRight (S.begin_ i) with
  | some i => toLex (i, S.begin_ i)
  | none => S.end_

/-- `operator-`; at most `fuel - 1` steps in each of the two loops. -/
def sub (fuel : ℕ) (lhs rhs : Iter) : Option ℤ := Cursor.distance S.next S.prev fuel lhs rhs

/-- The iterators of `for (it = begin; it != end; ++it)`. -/
def walk (fuel : ℕ) : Option (List Iter) := Cursor.traverse S.next S.end_ fuel S.first

/-- The iterators of `for (it = end; it != begin;) --it`. -/
def walkBack (fuel : ℕ) : Option (List Iter) := Cursor.traverseBack S.prev S.first fuel S.end_

/-- The iterators that a program gets from `begin` and `end` by `++` and `--`. -/
inductive Obtainable : Iter → Prop where
  | ofBegin : Obtainable S.first
  | ofEnd : Obtainable S.end_
  | next {it : Iter} : Obtainable it → Obtainable (S.next it)
  | prev {it : Iter} : Obtainable it → Obtainable (S.prev it)

end Shards

/-! ### The container -/

variable {κ ν : Type}

/-- A sharded map; the number of shards is what the constructor accepts. -/
structure Sharded (T : MapType κ) (ν : Type) where
  shards : List (Map T ν)
  num_eq : ∃ s ≤ numShardBits, shards.length = 2 ^ s

namespace Sharded
variable {T : MapType κ}

/-- `num_shards`. -/
def numShards (s : Sharded T ν) : ℕ := s.shards.length

theorem numShards_pos (s : Sharded T ν) : 0 < s.numShards := by
  obtain ⟨n, -, h⟩ := s.num_eq
  unfold numShards
  rw [h]
  exact Nat.two_pow_pos n

/-- `size`. -/
def size (s : Sharded T ν) : ℤ := (s.shards.map Map.size).sum

/-- `for_each`: the shards one after another, each entry as its shard index and its position. -/
def forEach (B : BucketOps) (s : Sharded T ν) : List (ℕ × ℕ) :=
  (List.range s.numShards).flatMap fun i =>
    ((s.shards[i]?).elim [] (Map.forEach B)).map fun pos => (i, pos)

/-- What the iterators ask of the shards. -/
def iterShards (B : BucketOps) (s : Sharded T ν) : Shards where
  num := s.numShards
  outer i := (s.shards[i]?).elim ⟨0, fun _ => false⟩ Map.outer
  begin_ i := (s.shards[i]?).elim 0 (Map.begin_ B)

end Sharded

end Nvhm
