import NvHashMap.Map

/-! # Calls without positions

A caller that knows no positions sees of a call what `View` says: keys and values instead of
positions, no capacities, and what is visited in no order. -/

namespace Nvhm

variable {κ ν : Type} {T : MapType κ}

/-- The calls of a caller that knows no positions.  A call with a hint uses one that was obtained
for the same key; `assign` writes to the position at which it finds the key. -/
inductive Call (κ ν : Type) where
  | insert (key : κ) (hinted : Bool)
  | find (key : κ) (hinted : Bool)
  | erase (key : κ) (hinted : Bool)
  | eraseAll (key : κ)
  | count (key : κ)
  | forEachKey (key : κ)
  | assign (key : κ) (value : ν)
  | forEach
  | countIf (pred : κ → ν → Bool)
  | eraseIf (pred : κ → ν → Bool)
  | size
  | grow
  | shrink
  | resize (newCapacity : ℤ)
  | reserve (newCapacity : ℤ)
  | clear
  | clearTo (newCapacity : ℤ)

/-- What a call returns, without positions, capacities and visiting order: a position is the key
and the value that are stored there. -/
inductive View (κ ν : Type) where
  | inserted (op : InsertOp) (entry : κ × ν)
  | found (entry : Option (κ × ν))
  | entries (l : Multiset (κ × ν))
  | flag (b : Bool)
  | number (n : ℤ)
  | done

section Calls
variable [Inhabited κ] [Inhabited ν]

namespace Map

/-- The key and the value at a position. -/
def pairAt (m : Map T ν) (pos : ℕ) : κ × ν := (m.keyAt pos, m.valueAt pos)

def call (B : BucketOps) (m : Map T ν) : Call κ ν → Except Err (View κ ν × Map T ν)
  | .insert key _ => do
      let ((pos, op, _), m) ← m.insert B key
      .ok (.inserted op (m.pairAt pos), m)
  | .find key _ => do
      let (pos, _) ← m.findFirst B key
      .ok (.found (pos.map m.pairAt), m)
  | .erase key _ => do
      let ((found, _), m) ← m.eraseFirst B key
      .ok (.flag found, m)
  | .eraseAll key => do
      let (n, m) ← m.eraseAll B key
      .ok (.number n, m)
  | .count key => do
      let n ← m.count B key
      .ok (.number n, m)
  | .forEachKey key => do
      let l ← m.forEachKey B key
      .ok (.entries (l.map fun x => m.pairAt x.1), m)
  | .assign key value => do
      let (pos, _) ← m.findFirst B key
      match pos with
      | some pos => do
          let m ← m.setValueAt pos value
          .ok (.flag true, m)
      | none => .ok (.flag false, m)
  | .forEach => .ok (.entries ((m.forEach B).map m.pairAt), m)
  | .countIf pred =>
      .ok (.number ((m.forEach B).countP fun p => pred (m.keyAt p) (m.valueAt p)), m)
  | .eraseIf pred => do
      let (n, m) ← m.eraseIf B fun p => pred (m.keyAt p) (m.valueAt p)
      .ok (.number n, m)
  | .size => .ok (.number m.size, m)
  | .grow => do
      let (_, m) ← m.grow B
      .ok (.done, m)
  | .shrink => do
      let (_, m) ← m.shrink B
      .ok (.done, m)
  | .resize n => do
      let (_, m) ← m.resize B n
      .ok (.done, m)
  | .reserve n => do
      let (_, m) ← m.reserve B n
      .ok (.done, m)
  | .clear => .ok (.done, m.clear.2)
  | .clearTo n => do
      let (_, m) ← m.clearTo n
      .ok (.done, m)

end Map

end Calls

end Nvhm
