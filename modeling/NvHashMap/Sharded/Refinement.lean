import NvHashMap.Map.Ledger
import NvHashMap.Sharded.Calls

/-! # A sharded map refines a map

A ledger falls into the parts that belong to the shards (`Ledger.only`).  A call that takes a key
changes one part (`only_after`, `only_after_ne`), a loop over the shards changes every part, and what
the shards list together is what the whole ledger lists (`lists_bind`).

A map and a sharded map that get the same calls are described by one ledger
(`Twin.inv_of_reachable`), hence they show the same (`sharded_refines`). -/

namespace Nvhm

variable {κ ν : Type} {T : MapType κ}

/-! ### Routing -/

/-- The shard of a key, among `num` shards. -/
def shardOf (T : MapType κ) (num : ℕ) (key : κ) : ℕ :=
  alignPos (hashToShardIdx T.layout (T.key.hash key)) (makeAlignedMask 1 num)

theorem shardOf_congr (num : ℕ) {k k' : κ} (h : T.key.eq k k' = true) :
    shardOf T num k = shardOf T num k' := by
  unfold shardOf
  rw [T.key.hash_congr h]

namespace Sharded

theorem toShardIdx_lt (s : Sharded T ν) (key : κ) : s.toShardIdx key < s.numShards := by
  obtain ⟨k, -, hk⟩ := s.num_eq
  unfold toShardIdx shardMask makeAlignedMask alignPos numShards
  rw [hk, Nat.and_two_pow_sub_one_eq_mod]
  exact Nat.mod_lt _ (Nat.two_pow_pos k)

/-- The shard of a key. -/
theorem exists_shard (s : Sharded T ν) (key : κ) :
    ∃ m, s.shards[s.toShardIdx key]? = some m :=
  ⟨_, List.getElem?_eq_getElem (s.toShardIdx_lt key)⟩

theorem toShardIdxHint_hintFor (s : Sharded T ν) (key : κ) (hinted : Bool) :
    s.toShardIdxHint key (s.hintFor key hinted) = .ok (s.toShardIdx key) := by
  cases hinted with
  | false => rfl
  | true =>
      unfold toShardIdxHint hintFor
      rw [if_pos rfl]
      exact if_pos rfl

theorem setShard_self {s : Sharded T ν} {i : ℕ} {m : Map T ν} (hm : s.shards[i]? = some m) :
    s.setShard i m = s := by
  obtain ⟨hi, rfl⟩ := List.getElem?_eq_some_iff.mp hm
  unfold setShard
  congr 1
  exact List.set_getElem_self hi

end Sharded

/-! ### The part of a ledger that a shard holds -/

namespace Ledger
variable {L : Ledger T.key ν} {num i : ℕ}

def onlyGet (L : Ledger T.key ν) (num i : ℕ) (k : κ) : Option (κ × Option ν) :=
  if shardOf T num k = i then L.get k else none

theorem onlyGet_congr (L : Ledger T.key ν) {num i : ℕ} {k k' : κ} (h : T.key.eq k k' = true) :
    L.onlyGet num i k = L.onlyGet num i k' := by
  unfold onlyGet
  rw [shardOf_congr num h, L.congr h]

theorem onlyGet_self (L : Ledger T.key ν) {num i : ℕ} {k : κ} {e : κ × Option ν}
    (h : L.onlyGet num i k = some e) : T.key.eq e.1 k = true := by
  unfold onlyGet at h
  split_ifs at h
  exact L.self h

/-- The keys of the shard `i`, among `num` shards. -/
def only (L : Ledger T.key ν) (num i : ℕ) : Ledger T.key ν :=
  ⟨L.onlyGet num i, L.onlyGet_congr, L.onlyGet_self⟩

theorem ext_get {Q : KeyType κ} {L L' : Ledger Q ν} (h : ∀ k, L.get k = L'.get k) : L = L' := by
  have hget : L.get = L'.get := funext h
  cases L
  cases L'
  congr

theorem only_get (L : Ledger T.key ν) (num i : ℕ) (k : κ) :
    (L.only num i).get k = if shardOf T num k = i then L.get k else none := rfl

theorem Known.only {h : History κ} (hk : L.Known h) (num i : ℕ) : (L.only num i).Known h := by
  intro k e he
  rw [only_get] at he
  split_ifs at he
  exact hk k e he

theorem only_filter (L : Ledger T.key ν) (p : κ × Option ν → Bool) (num i : ℕ) :
    (L.filter p).only num i = (L.only num i).filter p := by
  refine ext_get fun k => ?_
  change (if _ then (L.get k).filter p else none) = (if _ then L.get k else none).filter p
  split_ifs <;> rfl

theorem only_put (L : Ledger T.key ν) {key : κ} (v : Option ν) {num i : ℕ}
    (hi : shardOf T num key = i) : (L.put key v).only num i = (L.only num i).put key v := by
  refine ext_get fun k => ?_
  change (if shardOf T num k = i then L.putGet key v k else none) = (L.only num i).putGet key v k
  unfold putGet
  by_cases hk : T.key.eq k key = true
  · rw [if_pos hk, if_pos hk, shardOf_congr num hk, if_pos hi, only_get, if_pos hi]
  · rw [if_neg hk, if_neg hk, only_get]

/-- A key leaves the other shards alone. -/
theorem only_put_ne (L : Ledger T.key ν) {key : κ} (v : Option ν) {num i : ℕ}
    (hi : shardOf T num key ≠ i) : (L.put key v).only num i = L.only num i := by
  refine ext_get fun k => ?_
  change (if shardOf T num k = i then L.putGet key v k else none) =
    if shardOf T num k = i then L.get k else none
  unfold putGet
  by_cases hk : T.key.eq k key = true
  · rw [shardOf_congr num hk, if_neg hi, if_neg hi]
  · rw [if_neg hk]

theorem only_filter_ne (L : Ledger T.key ν) {key : κ} {num i : ℕ} (hi : shardOf T num key ≠ i) :
    (L.filter fun e => !T.key.eq e.1 key).only num i = L.only num i := by
  refine ext_get fun k => ?_
  change (if shardOf T num k = i then (L.get k).filter _ else none) =
    if shardOf T num k = i then L.get k else none
  split_ifs with hk
  · cases he : L.get k with
    | none => rfl
    | some e =>
        refine if_pos ?_
        rw [Bool.not_eq_true', Bool.eq_false_iff]
        intro heq
        rw [← shardOf_congr num heq, shardOf_congr num (L.self he)] at hi
        exact hi hk
  · rfl

variable [Inhabited ν]

/-- A call changes the part of its shard, or of every shard. -/
theorem only_after (L : Ledger T.key ν) (wrote : Bool) {c : Call κ ν} {num i : ℕ}
    (hi : ∀ key, c.key = some key → shardOf T num key = i) :
    (L.after wrote c).only num i = (L.only num i).after wrote c := by
  cases c with
  | insert key hinted =>
      have hkey := hi key rfl
      rw [after, after, only_get, if_pos hkey]
      split_ifs
      · rfl
      · exact L.only_put _ hkey
      · exact L.only_put _ hkey
  | assign key v =>
      have hkey := hi key rfl
      rw [after, after, only_get, if_pos hkey]
      split_ifs
      · exact L.only_put _ hkey
      · rfl
  | erase key hinted => exact L.only_filter _ num i
  | eraseAll key => exact L.only_filter _ num i
  | eraseIf pred => exact L.only_filter _ num i
  | clear => exact ext_get fun k => ite_self none
  | clearTo n => exact ext_get fun k => ite_self none
  | _ => rfl

theorem only_after_ne (L : Ledger T.key ν) (wrote : Bool) {c : Call κ ν} {key : κ} {num i : ℕ}
    (hc : c.key = some key) (hi : shardOf T num key ≠ i) :
    (L.after wrote c).only num i = L.only num i := by
  cases c with
  | insert k hinted =>
      obtain rfl := Option.some.inj hc
      rw [after]
      split_ifs
      · rfl
      · exact L.only_put_ne _ hi
      · exact L.only_put_ne _ hi
  | assign k v =>
      obtain rfl := Option.some.inj hc
      rw [after]
      split_ifs
      · exact L.only_put_ne _ hi
      · rfl
  | erase k hinted =>
      obtain rfl := Option.some.inj hc
      exact L.only_filter_ne hi
  | eraseAll k =>
      obtain rfl := Option.some.inj hc
      exact L.only_filter_ne hi
  | find k hinted => rfl
  | count k => rfl
  | forEachKey k => rfl
  | _ => cases hc

end Ledger

/-! ### Calls of a shard -/

section Calls
variable [Inhabited κ] [Inhabited ν]

namespace Sharded
variable {s : Sharded T ν} {i : ℕ} {m m' : Map T ν}

omit [Inhabited κ] [Inhabited ν] in
theorem getElem?_setShard (hm : s.shards[i]? = some m) :
    (s.setShard i m').shards[i]? = some m' := by
  unfold setShard
  rw [List.getElem?_set_self (List.getElem?_eq_some_iff.mp hm).1]

omit [Inhabited κ] [Inhabited ν] in
theorem getElem?_setShard_ne {j : ℕ} (hij : i ≠ j) :
    (s.setShard i m').shards[j]? = s.shards[j]? := List.getElem?_set_ne hij

omit [Inhabited κ] [Inhabited ν] in
theorem numShards_setShard : (s.setShard i m').numShards = s.numShards := List.length_set

theorem pairAt_eq (hm : s.shards[i]? = some m) (p : ℕ) : s.pairAt (i, p) = m.pairAt p := by
  unfold pairAt keyAt valueAt
  rw [hm]
  rfl

omit [Inhabited κ] [Inhabited ν] in
theorem atShard_eq (hm : s.shards[i]? = some m) {α : Type}
    (f : Map T ν → Except Err (α × Map T ν)) :
    s.atShard i f = f m >>= fun r => .ok (r.1, s.setShard i r.2) := by
  unfold atShard
  rw [hm]

/-- A call that takes a key is a call of its shard. -/
theorem call_of_key (B : BucketOps) {c : Call κ ν} {key : κ} (hc : c.key = some key)
    (hm : s.shards[s.toShardIdx key]? = some m) :
    s.call B c = m.call B c >>= fun r => .ok (r.1, s.setShard (s.toShardIdx key) r.2) := by
  have hself := setShard_self hm
  cases c with
  | insert k hinted =>
      obtain rfl := Option.some.inj hc
      rw [call, insert, toShardIdxHint_hintFor, ok_bind, atShard_eq hm, Map.call]
      cases m.insert B k with
      | error e => rfl
      | ok r =>
          simp only [ok_bind]
          rw [pairAt_eq (getElem?_setShard hm)]
  | find k hinted =>
      obtain rfl := Option.some.inj hc
      rw [call, findFirst, toShardIdxHint_hintFor, ok_bind, hm, Map.call]
      dsimp only
      cases m.findFirst B k with
      | error e => rfl
      | ok r =>
          have hpair : s.pairAt ∘ (fun p => (s.toShardIdx k, p)) = m.pairAt :=
            funext fun p => pairAt_eq hm p
          simp only [ok_bind, Option.map_map, hself, hpair]
  | erase k hinted =>
      obtain rfl := Option.some.inj hc
      rw [call, eraseFirst, toShardIdxHint_hintFor, ok_bind, atShard_eq hm, Map.call]
      cases m.eraseFirst B k <;> rfl
  | eraseAll k =>
      obtain rfl := Option.some.inj hc
      rw [call, eraseAll, atShard_eq hm, Map.call]
      cases m.eraseAll B k <;> rfl
  | count k =>
      obtain rfl := Option.some.inj hc
      rw [call, count, hm, Map.call]
      dsimp only
      cases m.count B k with
      | error e => rfl
      | ok n => simp only [ok_bind, hself]
  | forEachKey k =>
      obtain rfl := Option.some.inj hc
      rw [call, forEachKey, hm, Map.call]
      dsimp only
      cases m.forEachKey B k with
      | error e => rfl
      | ok l =>
          have hpair : ((fun x => s.pairAt x.1) ∘ fun x => ((s.toShardIdx k, x.1), x.2)) =
              fun x : ℕ × ProbeSeq => m.pairAt x.1 := funext fun x => pairAt_eq hm x.1
          simp only [ok_bind, List.map_map, hself, hpair]
  | assign k v =>
      obtain rfl := Option.some.inj hc
      rw [call, findFirst, toShardIdxHint, ok_bind, hm, Map.call]
      dsimp only
      cases m.findFirst B k with
      | error e => rfl
      | ok r =>
          obtain ⟨pos, q⟩ := r
          cases pos with
          | none => simp only [ok_bind, Option.map_none, hself]
          | some p =>
              simp only [ok_bind, Option.map_some, setValueAt, atShard_eq hm]
              cases m.setValueAt p v <;> rfl
  | _ => cases hc

/-! ### Calls of all shards -/

omit [Inhabited κ] [Inhabited ν] in
/-- The loop over the shards returns, or one of the shards overflows. -/
theorem eachShard_cases {α : Type} [Zero α] [Add α] {f : ℕ → Map T ν → Except Err (α × Map T ν)} :
    ∀ (i : ℕ) (l : List (Map T ν)),
      (∀ j m, l[j]? = some m → ∀ e, f (i + j) m = .error e → e = .overflow) →
      (eachShard f i l = .error .overflow ∧
        ∃ j m, l[j]? = some m ∧ f (i + j) m = .error .overflow) ∨
      ∃ (as : List α) (l' : List (Map T ν))
        (h : l'.length = l.length), eachShard f i l = .ok (as.sum, ⟨l', h⟩) ∧
        as.length = l.length ∧ ∀ j m, l[j]? = some m →
          ∃ a m', f (i + j) m = .ok (a, m') ∧ as[j]? = some a ∧ l'[j]? = some m'
  | i, [], _ => Or.inr ⟨[], [], rfl, rfl, rfl, fun j m hm => by cases hm⟩
  | i, m :: l, hf => by
      rw [eachShard]
      cases hm : f i m with
      | error e =>
          obtain rfl := hf 0 m rfl e hm
          exact Or.inl ⟨rfl, 0, m, rfl, hm⟩
      | ok r =>
          obtain ⟨a, m'⟩ := r
          have hrest := eachShard_cases (i + 1) l fun j m₁ hm₁ e he => by
            refine hf (j + 1) m₁ hm₁ e ?_
            rwa [Nat.add_comm j 1, ← Nat.add_assoc]
          rcases hrest with ⟨he, j, m₁, hm₁, hj⟩ | ⟨as, l', h, hr, hlen, hall⟩
          · refine Or.inl ⟨?_, j + 1, m₁, hm₁, ?_⟩
            · rw [ok_bind]
              dsimp only
              rw [he]
              rfl
            · rwa [Nat.add_comm j 1, ← Nat.add_assoc]
          · refine Or.inr ⟨a :: as, m' :: l', length_cons h, ?_, congrArg (· + 1) hlen, ?_⟩
            · rw [ok_bind]
              dsimp only
              rw [hr]
              rfl
            · intro j m₁ hm₁
              cases j with
              | zero =>
                  obtain rfl := Option.some.inj hm₁
                  exact ⟨a, m', hm, rfl, rfl⟩
              | succ j =>
                  have hj := hall j m₁ hm₁
                  rwa [Nat.add_assoc, Nat.add_comm 1 j] at hj

omit [Inhabited κ] [Inhabited ν] in
theorem forEachShard_cases {α : Type} [Zero α] [Add α]
    {f : ℕ → Map T ν → Except Err (α × Map T ν)}
    (hf : ∀ j m, s.shards[j]? = some m → ∀ e, f j m = .error e → e = .overflow) :
    (s.forEachShard f = .error .overflow ∧
      ∃ j m, s.shards[j]? = some m ∧ f j m = .error .overflow) ∨
    ∃ (as : List α) (s' : Sharded T ν),
      s.forEachShard f = .ok (as.sum, s') ∧ s'.numShards = s.numShards ∧
      as.length = s.numShards ∧ ∀ j m, s.shards[j]? = some m →
        ∃ a m', f j m = .ok (a, m') ∧ as[j]? = some a ∧ s'.shards[j]? = some m' := by
  unfold forEachShard
  rcases eachShard_cases (f := f) 0 s.shards (by simpa using hf) with
    ⟨he, j, m, hm, hj⟩ | ⟨as, l', h, hr, hlen, hall⟩
  · rw [he]
    exact Or.inl ⟨rfl, j, m, hm, by rwa [Nat.zero_add] at hj⟩
  · rw [hr]
    refine Or.inr ⟨as, ⟨l', s.num_eq_of_length h⟩, rfl, h, hlen, fun j m hm => ?_⟩
    have hj := hall j m hm
    rwa [Nat.zero_add] at hj

end Sharded

/-! ### Ledgers of all shards -/

namespace Ledger
variable {L : Ledger T.key ν} {h : History κ}

omit [Inhabited κ] [Inhabited ν] in
theorem Lists.unique {Q : KeyType κ} {L : Ledger Q ν} {M M' : Multiset (κ × Option ν)}
    (hM : L.Lists h M) (hM' : L.Lists h M') : M = M' :=
  (Multiset.Nodup.ext hM.nodup hM'.nodup).mpr fun y => (hM.mem_iff y).trans (hM'.mem_iff y).symm

omit [Inhabited κ] [Inhabited ν] in
/-- The shards together list all entries. -/
theorem lists_bind {num : ℕ} (hnum : ∀ key, shardOf T num key < num)
    {M : ℕ → Multiset (κ × Option ν)} (hM : ∀ i < num, (L.only num i).Lists h (M i)) :
    L.Lists h ((Multiset.range num).bind M) where
  nodup := by
    refine Multiset.nodup_bind.mpr ⟨fun i hi => (hM i (Multiset.mem_range.mp hi)).nodup, ?_⟩
    refine (Multiset.nodup_range num).pairwise fun i hi j hj hij => ?_
    refine Multiset.disjoint_left.mpr fun hy hy' => ?_
    have hshard : ∀ {i y}, i ∈ Multiset.range num → y ∈ M i → shardOf T num y.1 = i := by
      intro i y hi hy
      obtain ⟨k, e, he, rfl⟩ := ((hM i (Multiset.mem_range.mp hi)).mem_iff y).mp hy
      rw [only_get] at he
      split_ifs at he with hk
      exact (shardOf_congr num (L.self he)).trans hk
    exact hij ((hshard hi hy).symm.trans (hshard hj hy'))
  mem_iff y := by
    rw [Multiset.mem_bind]
    constructor
    · rintro ⟨i, hi, hy⟩
      obtain ⟨k, e, he, heq⟩ := ((hM i (Multiset.mem_range.mp hi)).mem_iff y).mp hy
      rw [only_get] at he
      split_ifs at he
      exact ⟨k, e, he, heq⟩
    · rintro ⟨k, e, he, heq⟩
      refine ⟨shardOf T num k, Multiset.mem_range.mpr (hnum k),
        ((hM _ (hnum k)).mem_iff y).mpr ⟨k, e, ?_, heq⟩⟩
      rw [only_get, if_pos rfl]
      exact he

end Ledger

namespace History
variable {Q : KeyType κ} {h : History κ} {c : Call κ ν}

omit [Inhabited κ] [Inhabited ν] in
theorem after_wrote {α : Type} {v : View κ α} (hw : (h.after Q c v).wrote = false) :
    h.wrote = false := by
  unfold after at hw
  split at hw
  · exact hw
  · cases hw
  · exact hw

omit [Inhabited κ] [Inhabited ν] in
/-- A call does not change what is known of other keys. -/
theorem after_stale_ne {α : Type} {v : View κ α} {key k : κ} (hc : c.key = some key)
    (hk : Q.eq k key = false) : (h.after Q c v).stale k = h.stale k := by
  unfold after
  split
  · obtain rfl := Option.some.inj hc
    exact if_neg (by rw [hk]; exact Bool.false_ne_true)
  · obtain rfl := Option.some.inj hc
    exact if_neg (by rw [hk]; exact Bool.false_ne_true)
  · rfl

end History

omit [Inhabited κ] in
/-- A call that takes a key shows nothing but its entry. -/
theorem View.of_of_key {x x' : Option (κ × Option ν)} {M : Multiset (κ × Option ν)}
    (M' : Multiset (κ × Option ν)) {c : Call κ ν} {key : κ} (hc : c.key = some key) :
    View.of x x' M c = View.of x x' M' c := by
  cases c <;> first | rfl | cases hc

omit [Inhabited κ] in
theorem Ledger.Shows.of_only {h : History κ} {L : Ledger T.key ν} {c : Call κ ν} {key : κ}
    (hc : c.key = some key) {num : ℕ} {v : View κ ν}
    (hv : (L.only num (shardOf T num key)).Shows h c v) {M : Multiset (κ × Option ν)}
    (hM : L.Lists h M) : L.Shows h c v := by
  obtain ⟨M', -, hv⟩ := hv
  refine ⟨M, hM, ?_⟩
  have hkey : ∀ k, c.key = some k → shardOf T num k = shardOf T num key := by
    intro k hk
    rw [hc] at hk
    rw [Option.some.inj hk]
  dsimp only at hv ⊢
  rw [hv, ← L.only_after h.wrote hkey, hc, View.of_of_key M hc]
  simp only [Option.bind_some, Ledger.only_get, if_pos]

theorem Map.Tracks.after_ne {h : History κ} {L : Ledger T.key ν} {m : Map T ν}
    {num i : ℕ} (ht : Map.Tracks h (L.only num i) m) {c : Call κ ν} (v : View κ ν) {key : κ}
    (hc : c.key = some key) (hi : shardOf T num key ≠ i) :
    Map.Tracks (h.after T.key c v) (L.only num i) m := by
  refine ⟨ht.inv, ht.describes, fun k e he h2 => ?_, fun hw => ht.fresh (History.after_wrote hw)⟩
  rw [History.after_stale_ne hc]
  · exact ht.known k e he h2
  · have hself := (L.only num i).self he
    rw [Ledger.only_get] at he
    split_ifs at he with hk
    rw [Bool.eq_false_iff]
    intro heq
    rw [← shardOf_congr num heq, shardOf_congr num hself] at hi
    exact hi hk

theorem countP_bind_range {α : Type} (p : α → Prop) [DecidablePred p] (num : ℕ)
    (M : ℕ → Multiset α) : ((Multiset.range num).bind M).countP p =
      ((List.range num).map fun i => (M i).countP p).sum := by
  rw [Multiset.countP_eq_card_filter, Multiset.filter_bind, Multiset.card_bind]
  simp only [Function.comp_def, ← Multiset.countP_eq_card_filter]
  rfl

/-- The call that reaches each of `num` shards. -/
def Call.share (num : ℕ) : Call κ ν → Call κ ν
  | .resize n => .resize (ceilDiv n num)
  | .reserve n => .reserve (ceilDiv n num)
  | .clearTo n => .clearTo (ceilDiv n num)
  | c => c

omit [Inhabited κ] [Inhabited ν] in
/-- A call with a key reaches its shard as it is. -/
theorem Call.share_of_key (num : ℕ) {c : Call κ ν} {key : κ} (hc : c.key = some key) :
    c.share num = c := by
  cases c <;> first | rfl | cases hc

namespace Sharded
variable {s : Sharded T ν} {h : History κ} {L : Ledger T.key ν}

/-- Every shard has its part of the ledger. -/
def Tracks (h : History κ) (L : Ledger T.key ν) (s : Sharded T ν) : Prop :=
  ∀ i m, s.shards[i]? = some m → Map.Tracks h (L.only s.numShards i) m

/-- The shown entries of all shards. -/
def shown (h : History κ) (s : Sharded T ν) : Multiset (κ × Option ν) :=
  (Multiset.range s.numShards).bind fun i => (s.shards[i]?).elim 0 (Map.shown h)

variable (hd : T.duplicates = false)
include hd

theorem Tracks.lists (hs : s.Tracks h L) : L.Lists h (s.shown h) := by
  refine Ledger.lists_bind s.toShardIdx_lt fun i hi => ?_
  obtain ⟨m, -, hm⟩ := getElem?_shards hi
  rw [hm]
  exact (hs i m hm).lists hd

/-- What the shards count is counted once. -/
theorem Tracks.sum_countP (hs : s.Tracks h L) {M : Multiset (κ × Option ν)} (hM : L.Lists h M)
    (p : κ × Option ν → Prop) [DecidablePred p] {as : List ℤ} (hlen : as.length = s.numShards)
    (has : ∀ (i : ℕ) (m : Map T ν), s.shards[i]? = some m →
      as[i]? = some ((m.shown h).countP p : ℤ)) : as.sum = M.countP p := by
  rw [hM.unique (hs.lists hd), shown, countP_bind_range, Nat.cast_list_sum, List.map_map]
  congr 1
  refine List.ext_getElem? fun i => ?_
  by_cases hi : i < s.numShards
  · obtain ⟨m, -, hm⟩ := getElem?_shards hi
    rw [has i m hm, List.getElem?_map, List.getElem?_range hi, Option.map_some, Function.comp_apply, hm]
    rfl
  · rw [List.getElem?_eq_none (by omega), List.getElem?_eq_none (by simp; omega)]

/-! ### Answers of a sharded map -/

omit hd in
theorem tracks_of_numShards_eq {h' : History κ} {L' : Ledger T.key ν} {s' : Sharded T ν}
    (hnum : s'.numShards = s.numShards)
    (hshards : ∀ i m', s'.shards[i]? = some m' → Map.Tracks h' (L'.only s.numShards i) m') :
    s'.Tracks h' L' := by
  intro i m' hm'
  rw [hnum]
  exact hshards i m' hm'

variable (B : Kernel T.kernelSize) (hS : T.seq.isUnbounded = true)

/-- The capacity that the call aims at in one of its shards leaves the range of `int_t`. -/
def CallOverflows (s : Sharded T ν) (c : Call κ ν) : Prop :=
  ∃ (i : ℕ) (m : Map T ν), s.shards[i]? = some m ∧
    (∀ key, c.key = some key → s.toShardIdx key = i) ∧ m.CallOverflows (c.share s.numShards)

/-- The call returns, and shows what the ledger says; else a capacity overflows. -/
def Answered (B : Kernel T.kernelSize) (h : History κ) (L : Ledger T.key ν) (s : Sharded T ν)
    (c : Call κ ν) : Prop :=
  (s.call B.ops c = .error .overflow ∧ s.CallOverflows c) ∨ ∃ v s', s.call B.ops c = .ok (v, s') ∧
    s'.numShards = s.numShards ∧ s'.Tracks (h.after T.key c v) (L.after h.wrote c) ∧ L.Shows h c v

/-- The call scrubs no table. -/
def CallsNoScrub (B : Kernel T.kernelSize) (s : Sharded T ν) (c : Call κ ν) : Prop :=
  ∀ i m, s.shards[i]? = some m → (∀ key, c.key = some key → s.toShardIdx key = i) →
    Map.CallsNoScrub B m c

include hS in
theorem Tracks.call_of_key (hs : s.Tracks h L) {c : Call κ ν} {key : κ} (hc : c.key = some key)
    (hop : s.CallsNoScrub B c)
    (hb : ∀ (i : ℕ) (m : Map T ν), s.shards[i]? = some m → c.Blind h m.IsKey) :
    Answered B h L s c := by
  obtain ⟨m, hm⟩ := s.exists_shard key
  have hkey : ∀ k, c.key = some k → s.toShardIdx k = s.toShardIdx key := by
    intro k hk
    rw [hc] at hk
    rw [Option.some.inj hk]
  have hans := Map.call_spec B hd hS (hs _ m hm) (hop _ m hm hkey) (hb _ m hm)
  rcases hans with ⟨he, hover⟩ | ⟨v, m', hr, ht, M, hM, hv⟩
  · refine Or.inl ⟨?_, _, m, hm, hkey, ?_⟩
    · rw [Sharded.call_of_key B.ops hc hm, he]
      rfl
    · rwa [Call.share_of_key _ hc]
  · refine Or.inr ⟨v, s.setShard (s.toShardIdx key) m', ?_, numShards_setShard, ?_,
      Ledger.Shows.of_only hc ⟨M, hM, hv⟩ (hs.lists hd)⟩
    · rw [Sharded.call_of_key B.ops hc hm, hr]
      rfl
    · refine tracks_of_numShards_eq numShards_setShard fun i m₁ hm₁ => ?_
      by_cases hi : s.toShardIdx key = i
      · obtain rfl := hi
        rw [getElem?_setShard hm] at hm₁
        obtain rfl := Option.some.inj hm₁
        rw [L.only_after h.wrote hkey]
        exact ht
      · rw [getElem?_setShard_ne hi] at hm₁
        rw [L.only_after_ne h.wrote hc hi]
        exact (hs i m₁ hm₁).after_ne v hc hi

end Sharded

omit [Inhabited κ] [Inhabited ν] in
theorem History.after_of_no_key {Q : KeyType κ} {h : History κ} {c : Call κ ν} (hc : c.key = none)
    {α : Type} (v : View κ α) : h.after Q c v = h := by
  cases c <;> first | rfl | cases hc

section Share
variable (num : ℕ) (c : Call κ ν)

omit [Inhabited κ] [Inhabited ν] in
theorem Call.share_key : (c.share num).key = c.key := by cases c <;> rfl

omit [Inhabited κ] in
theorem View.of_share (x x' : Option (κ × Option ν)) (M : Multiset (κ × Option ν)) :
    View.of x x' M (c.share num) = View.of x x' M c := by cases c <;> rfl

omit [Inhabited κ] in
theorem Ledger.after_share {Q : KeyType κ} (wrote : Bool) (L : Ledger Q ν) :
    L.after wrote (c.share num) = L.after wrote c := by cases c <;> rfl

omit [Inhabited κ] [Inhabited ν] in
theorem Call.blind_share {h : History κ} {keys : κ → Prop} :
    (c.share num).Blind h keys ↔ c.Blind h keys := by cases c <;> rfl

theorem Map.callsNoScrub_share (B : Kernel T.kernelSize) {m : Map T ν} :
    Map.CallsNoScrub B m (c.share num) ↔ Map.CallsNoScrub B m c := by cases c <;> rfl

end Share

namespace Sharded
variable {s : Sharded T ν} {h : History κ} {L : Ledger T.key ν} (hd : T.duplicates = false)
  (B : Kernel T.kernelSize) (hS : T.seq.isUnbounded = true) {c : Call κ ν} (hc : c.key = none)
  (hs : s.Tracks h L) (hop : s.CallsNoScrub B c)
  (hb : ∀ (i : ℕ) (m : Map T ν), s.shards[i]? = some m → c.Blind h m.IsKey)
include hd hS hc hs hop hb

/-- What each shard answers. -/
theorem Tracks.answered {i : ℕ} {m : Map T ν} (hm : s.shards[i]? = some m) :
    (m.call B.ops (c.share s.numShards) = .error .overflow ∧
      m.CallOverflows (c.share s.numShards)) ∨ ∃ v m', m.call B.ops (c.share s.numShards) = .ok (v, m') ∧
        Map.Tracks h ((L.after h.wrote c).only s.numShards i) m' ∧
        v.known h = View.of none none (m.shown h) c := by
  have hkey : ∀ {p : κ → Prop} key, c.key = some key → p key := by
    intro p key hk
    rw [hc] at hk
    cases hk
  have hans := Map.call_spec B hd hS (hs i m hm) (c := c.share s.numShards)
    ((Map.callsNoScrub_share _ c B).mpr (hop i m hm hkey))
    ((Call.blind_share _ c).mpr (hb i m hm))
  have hc' : (c.share s.numShards).key = none := (Call.share_key _ c).trans hc
  refine hans.imp_right ?_
  rintro ⟨v, m', hr, ht, M, hM, hv⟩
  rw [History.after_of_no_key hc', Ledger.after_share, ← L.only_after h.wrote hkey] at ht
  refine ⟨v, m', hr, ht, ?_⟩
  rw [hM.unique ((hs i m hm).lists hd)] at hv
  dsimp only at hv
  rw [History.after_of_no_key hc', hc', View.of_share] at hv
  exact hv

/-- A loop over the shards that makes the call of each. -/
theorem Tracks.loop {α : Type} [Zero α] [Add α] {f : ℕ → Map T ν → Except Err (α × Map T ν)}
    {g : α → View κ ν} (hf : ∀ (i : ℕ) (m : Map T ν), s.shards[i]? = some m →
      m.call B.ops (c.share s.numShards) = f i m >>= fun r => .ok (g r.1, r.2)) :
    (s.forEachShard f = .error .overflow ∧ s.CallOverflows c) ∨
    ∃ (as : List α) (s' : Sharded T ν),
      s.forEachShard f = .ok (as.sum, s') ∧ s'.numShards = s.numShards ∧
      s'.Tracks h (L.after h.wrote c) ∧ as.length = s.numShards ∧
      ∀ (i : ℕ) (m : Map T ν), s.shards[i]? = some m → ∃ a, as[i]? = some a ∧
        (g a).known h = View.of none none (m.shown h) c := by
  have hans := fun i m hm => Tracks.answered hd B hS hc hs hop hb (i := i) (m := m) hm
  have herr : ∀ j m, s.shards[j]? = some m → ∀ e, f j m = .error e → e = .overflow := by
    intro j m hm e he
    have hcall := hf j m hm
    rw [he, error_bind] at hcall
    rcases hans j m hm with ⟨hr, -⟩ | ⟨v, m', hr, -⟩
    · exact Except.error.inj (hcall.symm.trans hr)
    · cases hcall.symm.trans hr
  refine (forEachShard_cases herr).imp ?_ ?_
  · rintro ⟨he, j, m, hm, hj⟩
    have hcall := hf j m hm
    rw [hj, error_bind] at hcall
    rcases hans j m hm with ⟨-, hover⟩ | ⟨v, m', hr, -⟩
    · refine ⟨he, j, m, hm, fun key hk => ?_, hover⟩
      rw [hc] at hk
      cases hk
    · cases hcall.symm.trans hr
  rintro ⟨as, s', hr, hnum, hlen, hall⟩
  have hshard : ∀ i m, s.shards[i]? = some m → ∃ a m', as[i]? = some a ∧
      s'.shards[i]? = some m' ∧ Map.Tracks h ((L.after h.wrote c).only s.numShards i) m' ∧
      (g a).known h = View.of none none (m.shown h) c := by
    intro i m hm
    obtain ⟨a, m', hok, ha, hm'⟩ := hall i m hm
    have hcall := hf i m hm
    rw [hok, ok_bind] at hcall
    rcases hans i m hm with ⟨he, -⟩ | ⟨v, m'', hr, ht, hv⟩
    · cases he.symm.trans hcall
    · obtain ⟨rfl, rfl⟩ := Prod.mk.inj (Except.ok.inj (hr.symm.trans hcall))
      exact ⟨a, m'', ha, hm', ht, hv⟩
  refine ⟨as, s', hr, hnum, tracks_of_numShards_eq hnum fun i m' hm' => ?_, hlen, fun i m hm => ?_⟩
  · have hi : i < s.numShards := by
      rw [← hnum]
      exact (List.getElem?_eq_some_iff.mp hm').1
    obtain ⟨m, -, hm⟩ := getElem?_shards hi
    obtain ⟨a, m₁, -, hm₁, ht, -⟩ := hshard i m hm
    rw [hm'] at hm₁
    obtain rfl := Option.some.inj hm₁
    exact ht
  · obtain ⟨a, m', ha, -, -, hv⟩ := hshard i m hm
    exact ⟨a, ha, hv⟩

/-- A loop that shows nothing. -/
theorem Tracks.quiet {α : Type} [Zero α] [Add α] {f : ℕ → Map T ν → Except Err (α × Map T ν)}
    (hcall : s.call B.ops c = s.forEachShard f >>= fun r => .ok (.done, r.2))
    (hf : ∀ (i : ℕ) (m : Map T ν), s.shards[i]? = some m →
      m.call B.ops (c.share s.numShards) = f i m >>= fun r => .ok (.done, r.2))
    (hview : ∀ x x' M, View.of x x' M c = .done) : Answered B h L s c := by
  rcases Tracks.loop hd B hS hc hs hop hb (g := fun _ => .done) hf with
    ⟨he, hover⟩ | ⟨as, s', hr, hnum, ht, -, -⟩
  · refine Or.inl ⟨?_, hover⟩
    rw [hcall, he]
    rfl
  · refine Or.inr ⟨.done, s', by rw [hcall, hr]; rfl, hnum, ?_, s.shown h, hs.lists hd, ?_⟩
    · rw [History.after_of_no_key hc]
      exact ht
    · rw [hview]
      rfl

omit hd hS hc hop hb in
/-- A visitor of all shards is shown what the shards show. -/
theorem Tracks.known_forEach :
    ((s.forEach B.ops).map fun pos => h.show_ (s.keyAt pos, some (s.valueAt pos)) :
      Multiset (κ × Option ν)) = s.shown h := by
  rw [forEach, List.map_flatMap, ← Multiset.coe_bind]
  refine Multiset.bind_congr fun i hi => ?_
  obtain ⟨m, -, hm⟩ := getElem?_shards (List.mem_range.mp hi)
  have hpos : m.forEach B.ops = m.positions ideal :=
    Map.positions_eq B.lawful (hs i m hm).inv.toSound
  rw [hm, Option.elim_some, Option.elim_some, hpos, List.map_map, Map.shown, Multiset.coe_eq_coe]
  refine List.Perm.of_eq (List.map_congr_left fun p _ => ?_)
  have hpair := pairAt_eq hm p
  simp only [Function.comp_apply]
  exact congrArg (fun e => h.show_ (e.1, some e.2)) hpair

omit hd hS hc hop hb in
theorem Tracks.countIf_eq {pred : κ → ν → Bool}
    (hb : ∀ (i : ℕ) (m : Map T ν), s.shards[i]? = some m → ∀ k, m.IsKey k → h.stale k = true →
      ∀ v v', pred k v = pred k v') :
    s.countIf B.ops (fun pos => pred (s.keyAt pos) (s.valueAt pos)) =
      (s.shown h).countP fun e => pred e.1 (e.2.getD default) = true := by
  rw [← Tracks.known_forEach B hs, countIf, Multiset.coe_countP, List.countP_map]
  refine List.countP_congr fun pos hpos => ?_
  obtain ⟨i, p⟩ := pos
  obtain ⟨m, hm, hp⟩ := mem_forEach.mp hpos
  rw [Map.forEach, Map.positions_eq B.lawful (hs i m hm).inv.toSound,
    (hs i m hm).inv.mem_positions] at hp
  have hkey : s.keyAt (i, p) = m.keyAt p := congrArg Prod.fst (pairAt_eq hm p)
  simp only [Function.comp_apply, History.show_, decide_eq_true_eq]
  split_ifs with hstale
  · rw [hb i m hm _ ⟨p, hp, hkey.symm⟩ hstale (s.valueAt (i, p)) ((none : Option ν).getD default)]
  · rfl

omit hS hc hop hb in
theorem Tracks.size_eq : s.size = (s.shown h).card := by
  rw [← Multiset.countP_True, size]
  refine hs.sum_countP hd (hs.lists hd) _ (List.length_map _) fun i m hm => ?_
  rw [List.getElem?_map, hm, Option.map_some, (hs i m hm).inv.size_eq, Multiset.countP_True,
    (hs i m hm).inv.entries_eq, Map.shown, Multiset.coe_card, Multiset.coe_card, List.length_map,
    List.length_map]

/-- A call that takes no key. -/
theorem Tracks.call_of_no_key : Answered B h L s c := by
  have hafter : ∀ v : View κ ν, h.after T.key c v = h := History.after_of_no_key hc
  have reads : ∀ {v : View κ ν}, s.call B.ops c = .ok (v, s) → L.after h.wrote c = L →
      v.known h = View.of none none (s.shown h) c → Answered B h L s c := by
    intro v hr hL hv
    refine Or.inr ⟨v, s, hr, rfl, ?_, s.shown h, hs.lists hd, ?_⟩
    · rw [hafter, hL]
      exact hs
    · dsimp only
      rw [hafter, hc]
      exact hv
  have quiet := fun {α : Type} [Zero α] [Add α] f => Tracks.quiet (α := α) (f := f) hd B hS hc hs hop hb
  cases c with
  | forEach =>
      refine reads (v := .entries ((s.forEach B.ops).map s.pairAt)) rfl rfl ?_
      rw [View.of, ← Tracks.known_forEach B hs, View.known, Multiset.map_coe, List.map_map]
      rfl
  | countIf pred =>
      refine reads (v := .number (s.countIf B.ops _)) rfl rfl ?_
      rw [View.of, View.known, Tracks.countIf_eq B hs hb]
  | size =>
      refine reads (v := .number s.size) rfl rfl ?_
      rw [View.of, View.known, hs.size_eq hd]
  | eraseIf pred =>
      have hf : ∀ (i : ℕ) (m : Map T ν), s.shards[i]? = some m →
          m.call B.ops ((Call.eraseIf pred).share s.numShards) =
            (m.eraseIf B.ops fun p => pred (s.keyAt (i, p)) (s.valueAt (i, p))) >>=
              fun r => .ok (.number r.1, r.2) := by
        intro i m hm
        have hpair : (fun p => pred (s.keyAt (i, p)) (s.valueAt (i, p))) =
            fun p => pred (m.keyAt p) (m.valueAt p) := by
          funext p
          exact congrArg (fun e : κ × ν => pred e.1 e.2) (pairAt_eq hm p)
        rw [hpair]
        change m.call B.ops (.eraseIf pred) = _
        rw [Map.call]
      rcases Tracks.loop hd B hS hc hs hop hb hf with
        ⟨he, hover⟩ | ⟨as, s', hr, hnum, ht, hlen, has⟩
      · refine Or.inl ⟨?_, hover⟩
        rw [call, eraseIf, he]
        rfl
      · refine Or.inr ⟨.number as.sum, s', by rw [call, eraseIf, hr]; rfl, hnum, ?_, s.shown h,
          hs.lists hd, ?_⟩
        · rw [hafter]
          exact ht
        · have hsum := hs.sum_countP hd (hs.lists hd)
            (fun e => pred e.1 (e.2.getD default) = true) hlen fun i m hm => by
              obtain ⟨a, ha, hv⟩ := has i m hm
              rw [View.known, View.of, View.number.injEq] at hv
              rw [ha, hv]
          rw [View.of, View.known, hsum]
  | grow =>
      refine quiet (fun _ m => m.grow B.ops) ?_ (fun i m hm => ?_) fun _ _ _ => rfl
      · rw [call, grow]
      · change m.call B.ops .grow = _
        rw [Map.call]
  | shrink =>
      refine quiet (fun _ m => m.shrink B.ops) ?_ (fun i m hm => ?_) fun _ _ _ => rfl
      · rw [call, shrink]
      · change m.call B.ops .shrink = _
        rw [Map.call]
  | resize n =>
      refine quiet (fun _ m => m.resize B.ops (ceilDiv n s.numShards)) ?_ (fun i m hm => ?_)
        fun _ _ _ => rfl
      · rw [call, resize]
      · change m.call B.ops (.resize _) = _
        rw [Map.call]
  | reserve n =>
      refine quiet (fun _ m => m.reserve B.ops (ceilDiv n s.numShards)) ?_ (fun i m hm => ?_)
        fun _ _ _ => rfl
      · rw [call, reserve]
      · change m.call B.ops (.reserve _) = _
        rw [Map.call]
  | clear =>
      refine quiet (fun _ m => .ok m.clear) ?_ (fun i m hm => rfl) fun _ _ _ => rfl
      rw [call, clear]
  | clearTo n =>
      refine quiet (fun _ m => m.clearTo (ceilDiv n s.numShards)) ?_ (fun i m hm => ?_)
        fun _ _ _ => rfl
      · rw [call, clearTo]
      · change m.call B.ops (.clearTo _) = _
        rw [Map.call]
  | _ => cases hc

end Sharded

/-! ### Both kinds of map -/

omit [Inhabited κ] in
/-- Two answers that the ledger allows are the same, as far as values are known. -/
theorem Ledger.Shows.congr {Q : KeyType κ} {h : History κ} {L : Ledger Q ν} {c : Call κ ν}
    {v v' : View κ ν} (hv : L.Shows h c v) (hv' : L.Shows h c v') :
    h.after Q c v = h.after Q c v' ∧ v.known (h.after Q c v) = v'.known (h.after Q c v) := by
  obtain ⟨M, hM, hv⟩ := hv
  obtain ⟨M', hM', hv'⟩ := hv'
  obtain rfl := hM.unique hM'
  dsimp only at hv hv'
  suffices heq : h.after Q c v = h.after Q c v' by
    refine ⟨heq, ?_⟩
    rw [← heq] at hv'
    exact hv.trans hv'.symm
  cases c with
  | insert key hinted =>
      cases v with
      | inserted op e =>
          cases v' with
          | inserted op' e' =>
              simp only [View.known, View.of, Call.key, Option.bind_some, Option.isSome_map,
                View.inserted.injEq] at hv hv'
              rw [hv.1, hv'.1]
              split_ifs <;> rfl
          | _ => cases hv'
      | _ => cases hv
  | assign key value =>
      cases v with
      | flag b =>
          cases v' with
          | flag b' =>
              simp only [View.known, View.of, View.flag.injEq, Call.key, Option.bind_some,
                Option.isSome_map] at hv hv'
              rw [hv, hv']
          | _ => cases hv'
      | _ => cases hv
  | _ => rfl

/-- A map and a sharded map that get the same calls. -/
structure Twin (T : MapType κ) (ν : Type) where
  map : Map T ν
  sharded : Sharded T ν
  history : History κ

namespace Twin

/-- The same call of both. -/
def step (B : BucketOps) (t : Twin T ν) (c : Call κ ν) : Except Err (Twin T ν) := do
  let (v, map) ← t.map.call B c
  let (_, sharded) ← t.sharded.call B c
  .ok ⟨map, sharded, t.history.after T.key c v⟩

/-- The call scrubs no table, and its predicate depends on nothing but keys and known values. -/
structure Allowed (B : Kernel T.kernelSize) (t : Twin T ν) (c : Call κ ν) : Prop where
  map : Map.CallsNoScrub B t.map c
  sharded : t.sharded.CallsNoScrub B c
  blind : c.Blind t.history t.map.IsKey

variable (B : Kernel T.kernelSize) (conf conf' : Conf T.conf) (numShards : ℤ)

/-- The runs of both, the shards with a configuration of their own. -/
def runs : System (Twin T ν) where
  init t := Map.new T ν conf = .ok t.map ∧ Sharded.new T ν conf' numShards = .ok t.sharded ∧
    t.history = .start
  next t t' := ∃ c, t.Allowed B c ∧ t.step B.ops c = .ok t'

/-- One ledger describes both. -/
def Inv (t : Twin T ν) : Prop :=
  ∃ L : Ledger T.key ν, Map.Tracks t.history L t.map ∧ t.sharded.Tracks t.history L

variable {t : Twin T ν} (hd : T.duplicates = false) (hS : T.seq.isUnbounded = true)

/-- A key of a shard is a key of the map. -/
theorem isKey_of_shard {h : History κ} {L : Ledger T.key ν} {m m' : Map T ν}
    (hm : Map.Tracks h L m) {num i : ℕ} (hm' : Map.Tracks h (L.only num i) m') {k : κ}
    (hk : m'.IsKey k) : m.IsKey k := by
  obtain ⟨p, hp, rfl⟩ := hk
  have hst : m'.Stores (m'.keyAt p) p := ⟨hp, T.key.eq_refl _⟩
  obtain ⟨v, hv, -⟩ := hm'.describes.get_of_stores hst
  rw [Ledger.only_get] at hv
  split_ifs at hv
  obtain ⟨q, hq⟩ := Map.contains_iff.mp (hm.describes.stored (m'.keyAt p) (by rw [hv]; rfl))
  obtain ⟨w, hw, -⟩ := hm.describes.get_of_stores hq
  rw [hv] at hw
  exact ⟨q, hq.1, (congrArg Prod.fst (Option.some.inj hw)).symm⟩

include hd hS

theorem Inv.answers (hI : Inv t) {c : Call κ ν} (hc : t.Allowed B c) :
    (t.map.call B.ops c = .error .overflow ∧ t.map.CallOverflows c) ∨
    (t.sharded.call B.ops c = .error .overflow ∧ t.sharded.CallOverflows c) ∨
      ∃ v m v' s, t.map.call B.ops c = .ok (v, m) ∧ t.sharded.call B.ops c = .ok (v', s) ∧
        s.numShards = t.sharded.numShards ∧ Inv ⟨m, s, t.history.after T.key c v⟩ ∧
        v.known (t.history.after T.key c v) = v'.known (t.history.after T.key c v) := by
  obtain ⟨L, hm, hs⟩ := hI
  have hb : ∀ (i : ℕ) (m : Map T ν), t.sharded.shards[i]? = some m →
      c.Blind t.history m.IsKey := by
    intro i m hshard
    have hblind := hc.blind
    cases c with
    | countIf pred => exact fun k hk => hblind k (isKey_of_shard hm (hs i m hshard) hk)
    | eraseIf pred => exact fun k hk => hblind k (isKey_of_shard hm (hs i m hshard) hk)
    | _ => exact hblind
  have hsharded : Sharded.Answered B t.history L t.sharded c := by
    cases hkey : c.key with
    | some key => exact hs.call_of_key hd B hS hkey hc.sharded hb
    | none => exact hs.call_of_no_key hd B hS hkey hc.sharded hb
  rcases Map.call_spec B hd hS hm hc.map hc.blind with he | ⟨v, m, hr, hm', hv⟩
  · exact Or.inl he
  · rcases hsharded with he | ⟨v', s, hr', hnum, hs', hv'⟩
    · exact Or.inr (Or.inl he)
    · obtain ⟨hafter, hknown⟩ := hv.congr hv'
      refine Or.inr (Or.inr ⟨v, m, v', s, hr, hr', hnum, ⟨_, hm', ?_⟩, hknown⟩)
      rw [← hafter] at hs'
      exact hs'

omit hd hS in
/-- The constructor accepts exactly the powers of two up to `max_num_shards`. -/
theorem new_ok_iff {conf : Conf T.conf} {n : ℤ} :
    (∃ s, Sharded.new T ν conf n = .ok s) ↔
      conf.isValid = true ∧ ∃ k ≤ numShardBits, n = 2 ^ k := by
  constructor
  · rintro ⟨s, hs⟩
    unfold Sharded.new at hs
    split_ifs at hs with hn
    obtain ⟨m, hm, -⟩ := bind_eq_ok.mp hs
    obtain ⟨k, hk, hlen⟩ := Sharded.num_eq_replicate hn m
    rw [List.length_replicate] at hlen
    exact ⟨(Map.new_eq hm).2.1, k, hk, by rw [← Int.toNat_of_nonneg (by omega : 0 ≤ n), hlen]; rfl⟩
  · rintro ⟨hv, k, hk, rfl⟩
    have hle : 2 ^ k ≤ 2 ^ numShardBits := Nat.pow_le_pow_right two_pos hk
    have hpos := Nat.two_pow_pos k
    have hcast : ((2 : ℤ) ^ k) = ((2 ^ k : ℕ) : ℤ) := by push_cast; rfl
    have hn : 1 ≤ (2 : ℤ) ^ k ∧ (2 : ℤ) ^ k ≤ maxNumShards ∧ ((2 : ℤ) ^ k).toNat.isPowerOfTwo := by
      rw [hcast]
      refine ⟨by omega, ?_, k, rfl⟩
      simp only [maxNumShards, numShardBits] at hle ⊢
      omega
    unfold Sharded.new
    rw [dif_pos hn, Map.new, if_pos hv]
    exact ⟨_, rfl⟩

omit hd hS in
theorem inv_new (hm : Map.new T ν conf = .ok t.map)
    (hs : Sharded.new T ν conf' numShards = .ok t.sharded) (hh : t.history = .start) :
    Inv t ∧ t.sharded.numShards = numShards := by
  have hnew : ∀ {conf : Conf T.conf} {m : Map T ν}, Map.new T ν conf = .ok m →
      Map.Tracks .start Ledger.empty m := by
    intro conf m hm
    obtain ⟨hinv, hempty, -⟩ := Map.new_spec hm
    exact ⟨hinv, .of_empty hempty, Ledger.known_empty,
      fun _ => Map.values_of_new (S := (· = default)) rfl hm⟩
  unfold Sharded.new at hs
  split_ifs at hs with hn
  obtain ⟨m, hm', hs⟩ := bind_eq_ok.mp hs
  have hshards := Except.ok.inj hs
  refine ⟨⟨Ledger.empty, ?_, ?_⟩, ?_⟩
  · rw [hh]
    exact hnew hm
  · intro i m₁ hm₁
    rw [← hshards] at hm₁
    obtain rfl := List.eq_of_mem_replicate (List.mem_of_getElem? hm₁)
    rw [hh, show (Ledger.empty : Ledger T.key ν).only _ i = Ledger.empty from
      Ledger.ext_get fun k => ite_self none]
    exact hnew hm'
  · rw [← hshards]
    change ((List.replicate numShards.toNat m).length : ℤ) = numShards
    rw [List.length_replicate]
    omega

omit hd hS in
/-- Before the first write every value is known. -/
theorem stale_of_reachable (ht : (runs B conf conf' numShards).Reachable t)
    (hw : t.history.wrote = false) (key : κ) : t.history.stale key = false := by
  refine ht.invariant
    (I := fun t => t.history.wrote = false → ∀ key, t.history.stale key = false) (fun t hi => ?_)
    (fun t t' hi hn hw key => ?_) hw key
  · rw [hi.2.2]
    exact fun _ _ => rfl
  · obtain ⟨c, -, hr⟩ := hn
    obtain ⟨⟨v, m⟩, -, hr⟩ := bind_eq_ok.mp hr
    obtain ⟨⟨v', s⟩, -, hr⟩ := bind_eq_ok.mp hr
    obtain rfl := Except.ok.inj hr
    have hw' := History.after_wrote hw
    dsimp only
    unfold History.after
    split
    · dsimp only
      split_ifs
      · exact hw'
      · exact hi hw' key
    · dsimp only
      split_ifs
      · rfl
      · exact hi hw' key
    · exact hi hw' key

/-- Along every run of both, one ledger describes both. -/
theorem inv_of_reachable (ht : (runs B conf conf' numShards).Reachable t) :
    Inv t ∧ t.sharded.numShards = numShards := by
  refine ht.invariant (I := fun t => Inv t ∧ t.sharded.numShards = numShards) (fun t hi => ?_)
    fun t t' hi hn => ?_
  · obtain ⟨hm, hs, hh⟩ := hi
    exact inv_new conf conf' numShards hm hs hh
  · obtain ⟨c, hc, hr⟩ := hn
    obtain ⟨hinv, hnum⟩ := hi
    obtain ⟨⟨v, m⟩, hm, hr⟩ := bind_eq_ok.mp hr
    obtain ⟨⟨v', s⟩, hs, hr⟩ := bind_eq_ok.mp hr
    obtain rfl := Except.ok.inj hr
    rcases Inv.answers B hd hS hinv hc with ⟨he, -⟩ | ⟨he, -⟩ | ⟨v₁, m₁, v₂, s₂, hm₁, hs₂, hn, hI, -⟩
    · cases he.symm.trans hm
    · cases he.symm.trans hs
    · obtain ⟨rfl, rfl⟩ := Prod.mk.inj (Except.ok.inj (hm₁.symm.trans hm))
      obtain ⟨rfl, rfl⟩ := Prod.mk.inj (Except.ok.inj (hs₂.symm.trans hs))
      exact ⟨hI, by rw [← hnum]; exact congrArg Nat.cast hn⟩

end Twin

/-- A sharded map without duplicates refines a map: along every run of both through the same calls
without scrubbing, every key is stored in the shard `to_shard_idx` only, and every call returns the
same of both, except for positions, capacities, the visiting order and values that the caller has
not written since a key was inserted; values are the same as long as none was written at all.  Only
a call that aims at a capacity beyond `int_t` fails. -/
theorem sharded_refines (B : Kernel T.kernelSize) (conf conf' : Conf T.conf) (numShards : ℤ)
    (hd : T.duplicates = false) (hS : T.seq.isUnbounded = true) {t : Twin T ν}
    (ht : (Twin.runs B conf conf' numShards).Reachable t) :
    t.sharded.numShards = numShards ∧
      (∀ key, t.sharded.toShardIdx key < t.sharded.numShards) ∧
      (∀ i m key p, t.sharded.shards[i]? = some m → m.Stores key p →
        i = t.sharded.toShardIdx key) ∧
      (t.history.wrote = false → ∀ key, t.history.stale key = false) ∧
      ∀ c, t.Allowed B c →
        (t.map.call B.ops c = .error .overflow ∧ t.map.CallOverflows c) ∨
        (t.sharded.call B.ops c = .error .overflow ∧ t.sharded.CallOverflows c) ∨
          ∃ v m v' s, t.map.call B.ops c = .ok (v, m) ∧ t.sharded.call B.ops c = .ok (v', s) ∧
            v.known (t.history.after T.key c v) = v'.known (t.history.after T.key c v) := by
  obtain ⟨hI, hnum⟩ := Twin.inv_of_reachable B conf conf' numShards hd hS ht
  obtain ⟨L, hm, hs⟩ := hI
  refine ⟨hnum, t.sharded.toShardIdx_lt, fun i m key p hshard hp => ?_, ?_, fun c hc => ?_⟩
  · obtain ⟨v, hv, -⟩ := (hs i m hshard).describes.get_of_stores hp
    rw [Ledger.only_get] at hv
    split_ifs at hv with hi
    exact hi.symm
  · exact Twin.stale_of_reachable B conf conf' numShards ht
  · rcases Twin.Inv.answers B hd hS ⟨L, hm, hs⟩ hc with he | he | ⟨v, m, v', s, hr, hr', -, -, hv⟩
    · exact Or.inl he
    · exact Or.inr (Or.inl he)
    · exact Or.inr (Or.inr ⟨v, m, v', s, hr, hr', hv⟩)

namespace Twin

/-- A sequence of calls on new maps. -/
def exec (T : MapType κ) (B : BucketOps) (conf conf' : Conf T.conf) (numShards : ℤ)
    (cs : List (Call κ ν)) : Except Err (Twin T ν) := do
  let map ← Map.new T ν conf
  let sharded ← Sharded.new T ν conf' numShards
  cs.foldlM (step B) ⟨map, sharded, .start⟩

/-- A map that does not scrub by itself allows all calls whose predicates ignore values. -/
theorem allowed_of_noScrub (B : Kernel T.kernelSize) (hT : T.autoScrub = false) (t : Twin T ν)
    {c : Call κ ν} (hc : ∀ h keys, c.Blind h keys) : t.Allowed B c := by
  have hmap : ∀ m : Map T ν, Map.CallsNoScrub B m c := by
    intro m
    cases c with
    | erase key hinted => exact Map.scrubArg_of_noScrub hT _ _ (fun he => by cases he)
    | eraseAll key => exact Map.scrubArg_of_noScrub hT _ _ (fun he => by cases he)
    | eraseIf pred => exact Map.scrubArg_of_noScrub hT _ _ (fun he => by cases he)
    | _ => exact trivial
  exact ⟨hmap _, fun _ _ _ _ => hmap _, hc _ _⟩

theorem reachable_of_exec (B : Kernel T.kernelSize) (conf conf' : Conf T.conf) (numShards : ℤ)
    (hT : T.autoScrub = false) {cs : List (Call κ ν)} (hcs : ∀ c ∈ cs, ∀ h keys, c.Blind h keys)
    {t : Twin T ν} (hr : exec T B.ops conf conf' numShards cs = .ok t) :
    (runs B conf conf' numShards).Reachable t := by
  have hfold : ∀ (cs : List (Call κ ν)) (t₀ : Twin T ν), (∀ c ∈ cs, ∀ h keys, c.Blind h keys) →
      (runs B conf conf' numShards).Reachable t₀ → cs.foldlM (step B.ops) t₀ = .ok t →
      (runs B conf conf' numShards).Reachable t := by
    intro cs
    induction cs with
    | nil =>
        intro t₀ _ ht hr
        obtain rfl := Except.ok.inj hr
        exact ht
    | cons c cs ih =>
        intro t₀ hcs ht hr
        rw [List.foldlM_cons] at hr
        obtain ⟨t₁, h₁, hr⟩ := bind_eq_ok.mp hr
        refine ih t₁ (fun c hc => hcs c (List.mem_cons_of_mem _ hc)) (.next ht ⟨c, ?_, h₁⟩) hr
        exact allowed_of_noScrub B hT t₀ (hcs c List.mem_cons_self)
  obtain ⟨m, hm, hr⟩ := bind_eq_ok.mp hr
  obtain ⟨s, hs, hr⟩ := bind_eq_ok.mp hr
  exact hfold cs _ hcs (.init ⟨hm, hs, rfl⟩) hr

end Twin

/-- Four shards: keys that are routed by their upper bits, one of them by a hint. -/
theorem sharded_refines_words :
    let B := Map.wordKernel 1 false
    let conf := Map.wordConf 1 false
    ∃ t, Twin.exec (Map.wordMap 1 false) B.ops conf conf 4 [.insert 0 false,
        .insert (2 ^ 43) true, .insert (2 ^ 44) false, .assign (2 ^ 43) 5, .erase 0 false,
        .insert (2 ^ 43 + 2 ^ 44) false] = .ok t ∧
      (t.map.size, t.sharded.shards.map Map.size) = (3, [0, 1, 1, 1]) ∧
      (∀ i m key p, t.sharded.shards[i]? = some m → m.Stores key p →
        i = t.sharded.toShardIdx key) ∧
      ∀ c : Call (Fin (2 ^ 64)) ℕ, t.Allowed B c →
        (t.map.call B.ops c = .error .overflow ∧ t.map.CallOverflows c) ∨
        (t.sharded.call B.ops c = .error .overflow ∧ t.sharded.CallOverflows c) ∨
          ∃ v m v' s, t.map.call B.ops c = .ok (v, m) ∧ t.sharded.call B.ops c = .ok (v', s) ∧
            v.known (t.history.after wordKey c v) = v'.known (t.history.after wordKey c v) := by
  intro B conf
  have hsizes : (Twin.exec (Map.wordMap 1 false) B.ops conf conf 4 [.insert 0 false,
      .insert (2 ^ 43) true, .insert (2 ^ 44) false, .assign (2 ^ 43) 5, .erase 0 false,
      .insert (2 ^ 43 + 2 ^ 44) false]).map
        (fun t => (t.map.size, t.sharded.shards.map Map.size)) = .ok (3, [0, 1, 1, 1]) := by
    decide +kernel
  cases hr : Twin.exec (Map.wordMap 1 false) B.ops conf conf 4 [.insert 0 false,
      .insert (2 ^ 43) true, .insert (2 ^ 44) false, .assign (2 ^ 43) 5, .erase 0 false,
      .insert (2 ^ 43 + 2 ^ 44) false] with
  | error e =>
      rw [hr] at hsizes
      cases hsizes
  | ok t =>
      rw [hr] at hsizes
      have hreach := Twin.reachable_of_exec B conf conf 4 rfl (by simp [Call.Blind]) hr
      obtain ⟨-, -, hstored, -, hcalls⟩ := sharded_refines B conf conf 4 rfl rfl hreach
      exact ⟨t, rfl, Except.ok.inj hsizes, hstored, hcalls⟩

/-- The entry that a call finds. -/
def View.entry : View κ ν → Option (κ × ν)
  | .found e => e
  | _ => none

/-- A key that is not written shows what an erased one has left in its slot.  In the map that is the
value of key 0; the shard of the new key has not stored any other one. -/
theorem sharded_shows_erased :
    let B := Map.wordKernel 1 false
    let conf := Map.wordConf 1 false
    ∃ t v m v' s, Twin.exec (Map.wordMap 1 false) B.ops conf conf 4 [.insert 0 false, .assign 0 7,
        .erase 0 false, .insert (2 ^ 43) false] = .ok t ∧
      t.map.call B.ops (.find (2 ^ 43) false) = .ok (v, m) ∧
      t.sharded.call B.ops (.find (2 ^ 43) false) = .ok (v', s) ∧
      v.entry = some (2 ^ 43, 7) ∧ v'.entry = some (2 ^ 43, 0) := by
  intro B conf
  have hfound : (do
      let t ← Twin.exec (Map.wordMap 1 false) B.ops conf conf 4 [.insert 0 false, .assign 0 7,
        .erase 0 false, .insert (2 ^ 43) false]
      let (v, _) ← t.map.call B.ops (.find (2 ^ 43) false)
      let (v', _) ← t.sharded.call B.ops (.find (2 ^ 43) false)
      Except.ok (v.entry, v'.entry)) = .ok (some (2 ^ 43, 7), some (2 ^ 43, 0)) := by
    decide +kernel
  obtain ⟨t, ht, hfound⟩ := bind_eq_ok.mp hfound
  obtain ⟨⟨v, m⟩, hm, hfound⟩ := bind_eq_ok.mp hfound
  obtain ⟨⟨v', s⟩, hs, hfound⟩ := bind_eq_ok.mp hfound
  obtain ⟨hv, hv'⟩ := Prod.mk.inj (Except.ok.inj hfound)
  exact ⟨t, v, m, v', s, ht, hm, hs, hv, hv'⟩

end Calls

end Nvhm
