import NvHashMap.Map.Calls
import NvHashMap.Map.Refinement
import NvHashMap.Map.Values

/-! # Ledgers

A ledger says of every key under which key it is stored, and which value it has, if that is known;
it fixes what every call shows (`View.of`).  The value of a key is known unless the key was
inserted after the first write of a value and not written since (`History`): an insertion leaves in
the slot what was there.

`call_spec` is the step lemma: a map without duplicates that a ledger describes answers as the
ledger says, unless the capacity that the call aims at leaves the range of `int_t`. -/

namespace Nvhm

variable {κ ν : Type} {T : MapType κ}

/-! ### Histories -/

/-- Whether the caller has written a value, and the keys whose value is not known: those inserted
after the first write that were not written since. -/
structure History (κ : Type) where
  wrote : Bool
  stale : κ → Bool

namespace History
variable {α : Type}

/-- The history of a new container. -/
def start : History κ := ⟨false, fun _ => false⟩

/-- The history after a call, by what the call returned. -/
def after (Q : KeyType κ) (h : History κ) : Call κ ν → View κ α → History κ
  | .insert key _, .inserted .insert _ =>
      { h with stale := fun k => if Q.eq k key then h.wrote else h.stale k }
  | .assign key _, .flag true =>
      { wrote := true, stale := fun k => if Q.eq k key then false else h.stale k }
  | _, _ => h

/-- An entry as far as it is known. -/
def show_ (h : History κ) (e : κ × Option α) : κ × Option α :=
  (e.1, if h.stale e.1 then none else e.2)

end History

/-- The view without the values that are not known. -/
def View.known (h : History κ) : View κ ν → View κ (Option ν)
  | .inserted op e => .inserted op (h.show_ (e.1, some e.2))
  | .found e => .found (e.map fun e => h.show_ (e.1, some e.2))
  | .entries l => .entries (l.map fun e => h.show_ (e.1, some e.2))
  | .flag b => .flag b
  | .number n => .number n
  | .done => .done

/-- What the call shows does not depend on values that are not known. -/
def Call.Blind (h : History κ) (keys : κ → Prop) : Call κ ν → Prop
  | .countIf pred | .eraseIf pred =>
      ∀ k, keys k → h.stale k = true → ∀ v v', pred k v = pred k v'
  | _ => True

/-! ### Ledgers -/

/-- The stored key for every key that is stored, with its value, if that is known. -/
structure Ledger (Q : KeyType κ) (ν : Type) where
  get : κ → Option (κ × Option ν)
  congr : ∀ {k k'}, Q.eq k k' = true → get k = get k'
  self : ∀ {k e}, get k = some e → Q.eq e.1 k = true

namespace Ledger
variable {Q : KeyType κ}

theorem not_some {e : κ × Option ν} {p : Prop} (h : (none : Option (κ × Option ν)) = some e) :
    p := by cases h

/-- The ledger of an empty container. -/
def empty : Ledger Q ν := ⟨fun _ => none, fun _ => rfl, not_some⟩

def putGet (L : Ledger Q ν) (key : κ) (v : Option ν) (k : κ) : Option (κ × Option ν) :=
  if Q.eq k key then some (((L.get key).map Prod.fst).getD key, v) else L.get k

theorem putGet_congr (L : Ledger Q ν) {key : κ} {v : Option ν} {k k' : κ}
    (h : Q.eq k k' = true) : L.putGet key v k = L.putGet key v k' := by
  unfold putGet
  rw [Q.eq_congr_left h, L.congr h]

theorem eq_stored (L : Ledger Q ν) (key : κ) :
    Q.eq (((L.get key).map Prod.fst).getD key) key = true := by
  cases he : L.get key with
  | none => exact Q.eq_refl key
  | some e => exact L.self he

theorem putGet_self (L : Ledger Q ν) {key : κ} {v : Option ν} {k : κ} {e : κ × Option ν}
    (h : L.putGet key v k = some e) : Q.eq e.1 k = true := by
  unfold putGet at h
  split_ifs at h with hk
  · obtain rfl := Option.some.inj h
    exact Q.eq_trans (L.eq_stored key) (Q.eq_symm hk)
  · exact L.self h

/-- Store a key with a value; a stored key stays as it is. -/
def put (L : Ledger Q ν) (key : κ) (v : Option ν) : Ledger Q ν :=
  ⟨L.putGet key v, L.putGet_congr, L.putGet_self⟩

theorem filter_congr (L : Ledger Q ν) {p : κ × Option ν → Bool} {k k' : κ}
    (h : Q.eq k k' = true) : (L.get k).filter p = (L.get k').filter p := by
  rw [L.congr h]

theorem filter_self (L : Ledger Q ν) {p : κ × Option ν → Bool} {k : κ} {e : κ × Option ν}
    (h : (L.get k).filter p = some e) : Q.eq e.1 k = true :=
  L.self (Option.filter_eq_some_iff.mp h).1

/-- Keep the entries that satisfy `p`. -/
def filter (L : Ledger Q ν) (p : κ × Option ν → Bool) : Ledger Q ν :=
  ⟨fun k => (L.get k).filter p, L.filter_congr, L.filter_self⟩

/-- What a call does; `wrote` says whether a value was written before. -/
def after [Inhabited ν] (wrote : Bool) (L : Ledger Q ν) : Call κ ν → Ledger Q ν
  | .insert key _ =>
      if (L.get key).isSome then L else L.put key (if wrote then none else some default)
  | .erase key _ | .eraseAll key => L.filter fun e => !Q.eq e.1 key
  | .assign key v => if (L.get key).isSome then L.put key (some v) else L
  | .eraseIf pred => L.filter fun e => !pred e.1 (e.2.getD default)
  | .clear | .clearTo _ => empty
  | _ => L

/-- The entries that a visitor of all entries is shown. -/
structure Lists (L : Ledger Q ν) (h : History κ) (M : Multiset (κ × Option ν)) : Prop where
  nodup : M.Nodup
  mem_iff : ∀ y, y ∈ M ↔ ∃ k e, L.get k = some e ∧ h.show_ e = y

/-- Only values that are known are in the ledger. -/
def Known (L : Ledger Q ν) (h : History κ) : Prop :=
  ∀ k e, L.get k = some e → e.2 = none → h.stale e.1 = true

end Ledger

/-- The key of a call. -/
def Call.key : Call κ ν → Option κ
  | .insert key _ | .find key _ | .erase key _ | .eraseAll key => some key
  | .count key | .forEachKey key | .assign key _ => some key
  | _ => none

/-- What a call shows of its key, or of the entries `M`: `x` and `x'` are the entry of the key
before and after the call. -/
def View.of [Inhabited ν] (x x' : Option (κ × Option ν)) (M : Multiset (κ × Option ν)) :
    Call κ ν → View κ (Option ν)
  | .insert key _ => .inserted (if x.isSome then .found else .insert) (x'.getD (key, none))
  | .find _ _ => .found x
  | .erase _ _ | .assign _ _ => .flag x.isSome
  | .eraseAll _ | .count _ => .number (if x.isSome then 1 else 0)
  | .forEachKey _ => .entries (x.elim 0 fun e => {e})
  | .forEach => .entries M
  | .countIf pred | .eraseIf pred => .number (M.countP fun e => pred e.1 (e.2.getD default) = true)
  | .size => .number M.card
  | _ => .done

variable [Inhabited κ] [Inhabited ν]

/-! ### What a ledger says about a map -/

/-- The ledger describes the entries of the map. -/
structure Ledger.Describes (L : Ledger T.key ν) (m : Map T ν) : Prop where
  entry : ∀ e ∈ m.entries, ∃ v, L.get e.1 = some (e.1, v) ∧ ∀ w, v = some w → e.2.1 = w
  stored : ∀ k, (L.get k).isSome = true → m.Contains k

namespace Ledger.Describes
variable {L : Ledger T.key ν} {m m' : Map T ν} {h : History κ}

theorem get_of_stores (hL : L.Describes m) {key : κ} {p : ℕ} (hp : m.Stores key p) :
    ∃ v, L.get key = some (m.keyAt p, v) ∧ ∀ w, v = some w → m.valueAt p = w := by
  rw [L.congr (T.key.eq_symm hp.2)]
  exact hL.entry (m.entryAt p) (Map.mem_entries.mpr ⟨p, hp.1, rfl⟩)

theorem isSome_iff (hL : L.Describes m) (key : κ) :
    (L.get key).isSome = true ↔ m.Contains key := by
  refine ⟨hL.stored key, fun hc => ?_⟩
  obtain ⟨p, hp⟩ := Map.contains_iff.mp hc
  obtain ⟨v, hv, -⟩ := hL.get_of_stores hp
  rw [hv]
  rfl

theorem get_eq_none (hL : L.Describes m) {key : κ} (hc : ¬ m.Contains key) : L.get key = none := by
  rw [← Option.not_isSome_iff_eq_none, hL.isSome_iff]
  exact hc

/-- What is shown of a position. -/
theorem show_of_stores (hL : L.Describes m) (hk : L.Known h) {key : κ} {p : ℕ}
    (hp : m.Stores key p) :
    (L.get key).map h.show_ = some (h.show_ (m.keyAt p, some (m.valueAt p))) := by
  obtain ⟨v, hv, hw⟩ := hL.get_of_stores hp
  have hstale := hk key _ hv
  rw [hv]
  unfold History.show_
  dsimp only at hstale ⊢
  cases v with
  | none => rw [Option.map_some, hstale rfl, if_pos rfl, if_pos rfl]
  | some w => rw [Option.map_some, hw w rfl]

theorem of_entries_eq (hL : L.Describes m) (he : m'.entries = m.entries) : L.Describes m' := by
  refine ⟨?_, fun k hk => ?_⟩
  · rw [he]
    exact hL.entry
  · exact (Map.contains_congr he k).mpr (hL.stored k hk)

theorem of_empty (he : m.entries = 0) : (Ledger.empty : Ledger T.key ν).Describes m := by
  refine ⟨fun e h => ?_, fun k hk => by cases hk⟩
  rw [he] at h
  exact absurd h (Multiset.notMem_zero e)

/-- The first entry of a key. -/
theorem put (hL : L.Describes m) {key : κ} (hc : ¬ m.Contains key) {e : κ × ν × List Byte}
    (hk : e.1 = key) (he : m'.entries = e ::ₘ m.entries) {v : Option ν}
    (hv : ∀ w, v = some w → e.2.1 = w) : (L.put key v).Describes m' := by
  have hput : ∀ k, (L.put key v).get k = if T.key.eq k key then some (key, v) else L.get k := by
    intro k
    change L.putGet key v k = _
    rw [Ledger.putGet, hL.get_eq_none hc]
    rfl
  refine ⟨fun e' he' => ?_, fun k hs => ?_⟩
  · rw [he, Multiset.mem_cons] at he'
    rw [hput]
    rcases he' with rfl | he'
    · rw [hk, if_pos (T.key.eq_refl key)]
      exact ⟨v, rfl, hv⟩
    · rw [if_neg fun heq => hc ⟨e', he', heq⟩]
      exact hL.entry e' he'
  · rw [hput] at hs
    rw [Map.Contains, he]
    simp only [Multiset.mem_cons, exists_eq_or_imp, hk]
    split_ifs at hs with heq
    · exact Or.inl (T.key.eq_symm heq)
    · exact Or.inr (hL.stored k hs)

/-- The entries that an erase leaves. -/
theorem erase (hL : L.Describes m) (hm : Map.Sound m) {l : List ℕ}
    (he : Map.Erased m m' l) (hl : ∀ q ∈ l, m.Occupied q) {p : κ × Option ν → Bool}
    (hp : ∀ q, m.Occupied q → ∀ v, L.get (m.keyAt q) = some (m.keyAt q, v) →
      (p (m.keyAt q, v) = true ↔ q ∉ l)) : (L.filter p).Describes m' := by
  have hget : ∀ k, (L.filter p).get k = (L.get k).filter p := fun _ => rfl
  refine ⟨fun e hmem => ?_, fun k hs => ?_⟩
  · obtain ⟨q, hq, hn, rfl⟩ := (Map.mem_entries_of_erased hm he hl).mp hmem
    obtain ⟨v, hv, hw⟩ := hL.entry (m.entryAt q) (Map.mem_entries.mpr ⟨q, hq, rfl⟩)
    refine ⟨v, ?_, hw⟩
    rw [hget, Option.filter_eq_some_iff]
    exact ⟨hv, (hp q hq v hv).mpr hn⟩
  · rw [hget, Option.isSome_iff_exists] at hs
    obtain ⟨e, hs⟩ := hs
    obtain ⟨hk, hpe⟩ := Option.filter_eq_some_iff.mp hs
    obtain ⟨q, hq⟩ := Map.contains_iff.mp (hL.stored k (by rw [hk]; rfl))
    obtain ⟨v, hv, -⟩ := hL.get_of_stores hq
    rw [hk] at hv
    obtain rfl := Option.some.inj hv
    rw [← L.congr hq.2] at hk
    exact (Map.contains_of_erased hm he hl).mpr ⟨q, hq, (hp q hq.1 v hk).mp hpe⟩

/-- Writing a value. -/
theorem setValue (hL : L.Describes m) (hm : Map.Shape m) (hu : m.Unique) {key : κ} {p : ℕ}
    (hp : m.Stores key p) (value : ν) :
    (L.put key (some value)).Describes { m with values := m.values.set p value } := by
  obtain ⟨v, hv, -⟩ := hL.get_of_stores hp
  have hput : ∀ k, (L.put key (some value)).get k =
      if T.key.eq k key then some (m.keyAt p, some value) else L.get k := by
    intro k
    change L.putGet key (some value) k = _
    rw [Ledger.putGet, hv]
    rfl
  refine ⟨fun e he => ?_, fun k hs => ?_⟩
  · obtain ⟨q, hq, rfl⟩ := Map.mem_entries.mp he
    have hval : ({ m with values := m.values.set p value } : Map T ν).valueAt q =
        if q = p then value else m.valueAt q := by
      rw [Map.setValue_valueAt hm hp.1.1, Function.update_apply]
    have hocc : m.Occupied q := hq
    change ∃ v, (L.put key (some value)).get (m.keyAt q) = some (m.keyAt q, v) ∧
      ∀ w, v = some w → ({ m with values := m.values.set p value } : Map T ν).valueAt q = w
    rw [hput, hval]
    by_cases hqp : q = p
    · rw [hqp, if_pos hp.2, if_pos rfl]
      exact ⟨some value, rfl, fun w hw => Option.some.inj hw⟩
    · rw [if_neg hqp, if_neg fun heq => hqp (hu q p hocc hp.1 (T.key.eq_trans heq
        (T.key.eq_symm hp.2)))]
      exact hL.entry (m.entryAt q) (Map.mem_entries.mpr ⟨q, hocc, rfl⟩)
  · rw [hput] at hs
    rw [Map.contains_iff]
    change ∃ q, m.Stores k q
    split_ifs at hs with heq
    · exact ⟨p, hp.1, T.key.eq_trans hp.2 (T.key.eq_symm heq)⟩
    · exact Map.contains_iff.mp (hL.stored k hs)

/-- A visitor of all entries is shown what the ledger lists. -/
theorem lists (hL : L.Describes m) (hk : L.Known h) (hu : m.Unique) {l : List ℕ} (hn : l.Nodup)
    (hl : ∀ p, p ∈ l ↔ m.Occupied p) :
    L.Lists h (l.map fun p => h.show_ (m.keyAt p, some (m.valueAt p)) : List (κ × Option ν)) where
  nodup := by
    rw [Multiset.coe_nodup]
    refine List.Nodup.map_on (fun p hp q hq heq => ?_) hn
    have hkey : m.keyAt p = m.keyAt q := congrArg Prod.fst heq
    exact hu p q ((hl p).mp hp) ((hl q).mp hq) (hkey ▸ T.key.eq_refl _)
  mem_iff y := by
    rw [Multiset.mem_coe, List.mem_map]
    constructor
    · rintro ⟨p, hp, rfl⟩
      have hst : m.Stores (m.keyAt p) p := ⟨(hl p).mp hp, T.key.eq_refl _⟩
      have hs := hL.show_of_stores hk hst
      obtain ⟨e, he, heq⟩ := Option.map_eq_some_iff.mp hs
      exact ⟨_, e, he, heq⟩
    · rintro ⟨k, e, he, rfl⟩
      obtain ⟨p, hp⟩ := Map.contains_iff.mp (hL.stored k (by rw [he]; rfl))
      have hs := hL.show_of_stores hk hp
      rw [he] at hs
      exact ⟨p, (hl p).mpr hp.1, (Option.some.inj hs).symm⟩

end Ledger.Describes

/-! ### Answers -/

namespace Ledger
variable {Q : KeyType κ} {L : Ledger Q ν} {h : History κ}

omit [Inhabited κ] [Inhabited ν] in
theorem Known.filter (hk : L.Known h) (p : κ × Option ν → Bool) : (L.filter p).Known h :=
  fun k e he => hk k e (Option.filter_eq_some_iff.mp he).1

omit [Inhabited κ] [Inhabited ν] in
theorem known_empty : (Ledger.empty : Ledger Q ν).Known h := fun k e he => by cases he

omit [Inhabited κ] [Inhabited ν] in
/-- A value is known after an insertion if nothing was written before, and after a write. -/
theorem Known.put (hk : L.Known h) {key : κ} {v : Option ν} {stale : Bool} {wrote : Bool}
    (hv : v = none → stale = true) :
    (L.put key v).Known ⟨wrote, fun k => if Q.eq k key then stale else h.stale k⟩ := by
  intro k e he h2
  have hself := (L.put key v).self he
  change L.putGet key v k = some e at he
  dsimp only
  rw [Q.eq_congr_left hself]
  unfold putGet at he
  split_ifs at he ⊢
  · obtain rfl := Option.some.inj he
    exact hv h2
  · exact hk k e he h2

end Ledger

namespace Map

/-- A map with its ledger and its history. -/
structure Tracks (h : History κ) (L : Ledger T.key ν) (m : Map T ν) : Prop where
  inv : Inv m
  describes : L.Describes m
  known : L.Known h
  fresh : h.wrote = false → ValuesIn (· = default) m

variable (B : Kernel T.kernelSize)

/-- The call scrubs no table. -/
def CallsNoScrub (m : Map T ν) : Call κ ν → Prop
  | .erase key _ => NoScrub B m (.eraseFirst key)
  | .eraseAll key => NoScrub B m (.eraseAll key)
  | .eraseIf pred => NoScrub B m (.eraseIf fun p => pred (m.keyAt p) (m.valueAt p))
  | _ => True

/-- The capacity that the call aims at leaves the range of `int_t`. -/
def CallOverflows (m : Map T ν) : Call κ ν → Prop
  | .insert key _ => (Op.insert key : Op κ ν).Overflows m
  | .grow => (Op.grow : Op κ ν).Overflows m
  | .resize n => (Op.resize n : Op κ ν).Overflows m
  | .reserve n => (Op.reserve n : Op κ ν).Overflows m
  | .clearTo n => (Op.clearTo n : Op κ ν).Overflows m
  | _ => False

/-- The keys that are stored. -/
def IsKey (m : Map T ν) (k : κ) : Prop := ∃ p, m.Occupied p ∧ m.keyAt p = k

end Map

/-- What a call shows, as the ledger and the history have it. -/
def Ledger.Shows {Q : KeyType κ} (h : History κ) (L : Ledger Q ν) (c : Call κ ν) (v : View κ ν) :
    Prop :=
  let h' := h.after Q c v
  let entry (L : Ledger Q ν) := c.key.bind fun k => (L.get k).map h'.show_
  ∃ M, L.Lists h M ∧ v.known h' = View.of (entry L) (entry (L.after h.wrote c)) M c

namespace Map

/-- The shown entries of a map. -/
def shown (h : History κ) (m : Map T ν) : Multiset (κ × Option ν) :=
  ((m.positions ideal).map fun p => h.show_ (m.keyAt p, some (m.valueAt p)) : List (κ × Option ν))

section Answers
variable {h : History κ} {L : Ledger T.key ν} {m m' : Map T ν}

theorem Tracks.lists (ht : Tracks h L m) (hd : T.duplicates = false) : L.Lists h (m.shown h) :=
  ht.describes.lists ht.known (ht.inv.unique hd) ht.inv.positions_nodup
    fun _ => ht.inv.toSound.mem_positions

/-- A call that changes nothing. -/
theorem Tracks.of_entries_eq (ht : Tracks h L m) (hm : Inv m') (he : m'.entries = m.entries)
    (hv : h.wrote = false → ValuesIn (· = default) m') : Tracks h L m' :=
  ⟨hm, ht.describes.of_entries_eq he, ht.known, hv⟩

theorem Tracks.filter (ht : Tracks h L m) {l : List ℕ} (he : Erased m m' l)
    (hl : ∀ q ∈ l, m.Occupied q) {p : κ × Option ν → Bool}
    (hp : ∀ q, m.Occupied q → ∀ v, L.get (m.keyAt q) = some (m.keyAt q, v) →
      (p (m.keyAt q, v) = true ↔ q ∉ l)) (hv : h.wrote = false → ValuesIn (· = default) m') :
    Tracks h (L.filter p) m' :=
  ⟨he.inv, ht.describes.erase ht.inv.toSound he hl hp, ht.known.filter p, hv⟩

variable (B : Kernel T.kernelSize) (hd : T.duplicates = false) (hS : T.seq.isUnbounded = true)
include hd hS

omit hd in
/-- A call of the map in the words of `step`. -/
theorem Tracks.step (ht : Tracks h L m) (op : Op κ ν) (hop : NoScrub B m op)
    (hw : ∀ pos v, op ≠ .setValueAt pos v) :
    (∃ e, m.step B.ops op = .error e ∧ op.Rejects m e) ∨ ∃ r m', m.step B.ops op = .ok (r, m') ∧
      m.Outcome op r m' ∧ (h.wrote = false → ValuesIn (· = default) m') := by
  rcases step_outcome B hS ht.inv hop.scrubsOk with he | ⟨r, m', hr, ho⟩
  · exact Or.inl he
  · exact Or.inr ⟨r, m', hr, ho, fun hn => values_of_step (S := (· = default)) rfl (ht.fresh hn)
      (fun pos v he => absurd he (hw pos v)) hr⟩


/-- The call returns, and shows what the ledger says; else a capacity overflows. -/
def Answered (h : History κ) (L : Ledger T.key ν) (m : Map T ν) (c : Call κ ν) : Prop :=
  (m.call B.ops c = .error .overflow ∧ m.CallOverflows c) ∨ ∃ v m', m.call B.ops c = .ok (v, m') ∧
    Tracks (h.after T.key c v) (L.after h.wrote c) m' ∧ L.Shows h c v

theorem Tracks.insert (ht : Tracks h L m) (key : κ) (hinted : Bool) :
    Answered B h L m (.insert key hinted) := by
  rcases ht.step B hS (.insert key) rfl (fun _ _ he => by cases he) with
    ⟨e, he, hrej⟩ | ⟨r, m', hr, ho, hv⟩
  · obtain ⟨rfl, hover⟩ := hrej.resolve_right id
    rcases bind_eq_error.mp he with he | ⟨r, -, hr⟩
    · refine Or.inl ⟨?_, hover⟩
      rw [call, he]
      rfl
    · cases hr
  · obtain ⟨⟨⟨pos, op, q⟩, m₁⟩, hi, hr⟩ := bind_eq_ok.mp hr
    obtain ⟨rfl, rfl⟩ := Prod.mk.inj (Except.ok.inj hr)
    obtain ⟨hinv, hst, -, hcases⟩ := ho
    refine Or.inr ⟨.inserted op (m₁.pairAt pos), m₁, by rw [call, hi]; rfl, ?_⟩
    suffices hspec : Tracks (h.after T.key (.insert key hinted) (.inserted op (m₁.pairAt pos)))
        (L.after h.wrote (.insert key hinted)) m₁ ∧
        op = if (L.get key).isSome then .found else .insert by
      obtain ⟨ht', hop⟩ := hspec
      refine ⟨ht', m.shown h, ht.lists hd, ?_⟩
      have hshow := ht'.describes.show_of_stores ht'.known hst
      simp only [View.known, View.of, Call.key, Option.bind_some, Option.isSome_map, hshow,
        Option.getD_some, ← hop]
      rfl
    rcases hcases with ⟨rfl, -, he⟩ | ⟨rfl, hno, hk, he⟩
    · have hc : (L.get key).isSome = true := (ht.describes.isSome_iff key).mpr
        ((contains_congr he key).mp (contains_iff.mpr ⟨pos, hst⟩))
      rw [Ledger.after, if_pos hc, if_pos hc]
      exact ⟨ht.of_entries_eq hinv he hv, rfl⟩
    · have hnone := ht.describes.get_eq_none (hno hd)
      have hc : ¬ (L.get key).isSome = true := by simp [hnone]
      rw [Ledger.after, if_neg hc, if_neg hc]
      refine ⟨⟨hinv, ht.describes.put (hno hd) hk he fun w hw => ?_, ?_, hv⟩, rfl⟩
      · split_ifs at hw with hwrote
        have hfresh := hv (Bool.eq_false_of_not_eq_true hwrote)
        rw [← Option.some.inj hw]
        exact hfresh.valueAt (S := (· = default)) rfl pos
      · refine ht.known.put fun hw => ?_
        split_ifs at hw with hwrote
        exact hwrote


theorem Tracks.find (ht : Tracks h L m) (key : κ) (hinted : Bool) :
    Answered B h L m (.find key hinted) := by
  rcases ht.step B hS (.findFirst key) rfl (fun _ _ he => by cases he) with
    ⟨e, -, hrej⟩ | ⟨r, m', hr, ho, -⟩
  · exact absurd hrej (Op.not_rejects id (fun _ => id) e)
  · obtain ⟨⟨pos, q⟩, hi, hr⟩ := bind_eq_ok.mp hr
    obtain ⟨rfl, rfl⟩ := Prod.mk.inj (Except.ok.inj hr)
    refine Or.inr ⟨.found (pos.map m.pairAt), m, by rw [call, hi]; rfl, ht, m.shown h,
      ht.lists hd, ?_⟩
    have hl := ho.2
    have hget : (L.get key).map h.show_ =
        pos.map fun p => h.show_ (m.keyAt p, some (m.valueAt p)) := by
      cases pos with
      | some p => exact ht.describes.show_of_stores ht.known hl.stores
      | none =>
          rw [ht.describes.get_eq_none fun hc => ?_]
          · rfl
          · obtain ⟨p, hp⟩ := contains_iff.mp hc
            exact hl.not_stores ht.inv.toTable p hp
    simp only [View.known, View.of, Call.key, Option.bind_some, Option.map_map]
    exact congrArg _ hget.symm

omit hS in
/-- The slots of a key. -/
theorem Tracks.slots (ht : Tracks h L m) (key : κ) {l : List ℕ} (hn : l.Nodup)
    (hl : ∀ p, p ∈ l ↔ m.Stores key p) :
    (l.map (fun p => h.show_ (m.keyAt p, some (m.valueAt p))) : Multiset (κ × Option ν)) =
      ((L.get key).map h.show_).elim 0 fun e => {e} := by
  match l, hn, hl with
  | [], _, hl =>
      rw [ht.describes.get_eq_none fun hc => ?_]
      · rfl
      · obtain ⟨p, hp⟩ := contains_iff.mp hc
        cases (hl p).mpr hp
  | [p], _, hl =>
      rw [ht.describes.show_of_stores ht.known ((hl p).mp (List.mem_singleton.mpr rfl))]
      rfl
  | p :: q :: l, hn, hl =>
      have hp := (hl p).mp (by simp)
      have hq := (hl q).mp (by simp)
      have heq := ht.inv.unique hd p q hp.1 hq.1 (T.key.eq_trans hp.2 (T.key.eq_symm hq.2))
      simp [heq] at hn

theorem Tracks.forEachKey (ht : Tracks h L m) (key : κ) : Answered B h L m (.forEachKey key) := by
  rcases ht.step B hS (.forEachKey key) rfl (fun _ _ he => by cases he) with
    ⟨e, -, hrej⟩ | ⟨r, m', hr, ho, -⟩
  · exact absurd hrej (Op.not_rejects id (fun _ => id) e)
  · obtain ⟨l, hi, hr⟩ := bind_eq_ok.mp hr
    obtain ⟨rfl, rfl⟩ := Prod.mk.inj (Except.ok.inj hr)
    obtain ⟨-, j, hvis⟩ := ho
    refine Or.inr ⟨.entries (l.map fun x => m.pairAt x.1), m, by rw [call, hi]; rfl, ht,
      m.shown h, ht.lists hd, ?_⟩
    have hslots := ht.slots hd key (hvis.nodup ht.inv) fun p => hvis.mem_iff ht.inv p
    simp only [View.known, View.of, Call.key, Option.bind_some, Multiset.map_coe, List.map_map]
    rw [List.map_map] at hslots
    exact congrArg View.entries hslots

theorem Tracks.count (ht : Tracks h L m) (key : κ) : Answered B h L m (.count key) := by
  rcases ht.step B hS (.count key) rfl (fun _ _ he => by cases he) with
    ⟨e, -, hrej⟩ | ⟨r, m', hr, ho, -⟩
  · exact absurd hrej (Op.not_rejects id (fun _ => id) e)
  · obtain ⟨n, hi, hr⟩ := bind_eq_ok.mp hr
    obtain ⟨rfl, rfl⟩ := Prod.mk.inj (Except.ok.inj hr)
    obtain ⟨-, l, j, hvis, hn⟩ := ho
    refine Or.inr ⟨.number n, m, by rw [call, hi]; rfl, ht, m.shown h, ht.lists hd, ?_⟩
    have hslots := ht.slots hd key (hvis.nodup ht.inv) fun p => hvis.mem_iff ht.inv p
    have hcard := congrArg Multiset.card hslots
    rw [Multiset.coe_card, List.length_map, List.length_map] at hcard
    simp only [View.known, View.of, Call.key, Option.bind_some, Option.isSome_map, hn, hcard]
    cases L.get key <;> rfl

omit hd hS in
/-- The entries that a predicate selects, known or not. -/
theorem countP_shown {pred : κ → ν → Bool}
    (hb : ∀ k, m.IsKey k → h.stale k = true → ∀ v v', pred k v = pred k v') {l : List ℕ}
    (hl : ∀ p ∈ l, m.Occupied p) :
    (l.map (fun p => h.show_ (m.keyAt p, some (m.valueAt p))) : Multiset (κ × Option ν)).countP
      (fun e => pred e.1 (e.2.getD default) = true) =
        l.countP fun p => pred (m.keyAt p) (m.valueAt p) := by
  rw [Multiset.coe_countP, List.countP_map]
  refine List.countP_congr fun p hp => ?_
  simp only [Function.comp_apply, History.show_, decide_eq_true_eq]
  split_ifs with hs
  · rw [hb _ ⟨p, hl p hp, rfl⟩ hs _ (m.valueAt p)]
  · rfl

theorem Tracks.forEach (ht : Tracks h L m) : Answered B h L m .forEach := by
  rcases ht.step B hS .forEach rfl (fun _ _ he => by cases he) with
    ⟨e, -, hrej⟩ | ⟨r, m', hr, ho, -⟩
  · exact absurd hrej (Op.not_rejects id (fun _ => id) e)
  · obtain ⟨rfl, rfl⟩ := Prod.mk.inj (Except.ok.inj hr)
    obtain ⟨-, hn, hocc⟩ := ho
    refine Or.inr ⟨.entries ((m.forEach B.ops).map m.pairAt), m, rfl, ht, _,
      ht.describes.lists ht.known (ht.inv.unique hd) hn hocc, ?_⟩
    simp only [View.known, View.of, Multiset.map_coe, List.map_map]
    rfl

theorem Tracks.countIf (ht : Tracks h L m) {pred : κ → ν → Bool}
    (hb : (Call.countIf pred).Blind h m.IsKey) : Answered B h L m (.countIf pred) := by
  rcases ht.step B hS .forEach rfl (fun _ _ he => by cases he) with
    ⟨e, -, hrej⟩ | ⟨r, m', hr, ho, -⟩
  · exact absurd hrej (Op.not_rejects id (fun _ => id) e)
  · obtain ⟨rfl, rfl⟩ := Prod.mk.inj (Except.ok.inj hr)
    obtain ⟨-, hn, hocc⟩ := ho
    refine Or.inr ⟨_, m, rfl, ht, _,
      ht.describes.lists ht.known (ht.inv.unique hd) hn hocc, ?_⟩
    simp only [View.known, View.of]
    rw [countP_shown hb fun p hp => (hocc p).mp hp]

omit hS in
theorem Tracks.size (ht : Tracks h L m) : Answered B h L m .size := by
  refine Or.inr ⟨.number m.size, m, rfl, ht, m.shown h, ht.lists hd, ?_⟩
  simp only [View.known, View.of]
  rw [shown, Multiset.coe_card, List.length_map, ht.inv.size_eq, ht.inv.entries_eq,
    Multiset.coe_card, List.length_map]

omit hd hS in
/-- An erase of the slots of a key. -/
theorem Tracks.eraseKey (ht : Tracks h L m) {key : κ} {l : List ℕ} (he : Erased m m' l)
    (hl : ∀ q, q ∈ l ↔ m.Stores key q) (hv : h.wrote = false → ValuesIn (· = default) m') :
    Tracks h (L.filter fun e => !T.key.eq e.1 key) m' := by
  refine ht.filter he (fun q hq => ((hl q).mp hq).1) (fun q hq v _ => ?_) hv
  rw [Bool.not_eq_true', Bool.eq_false_iff, not_iff_not, hl]
  exact ⟨fun heq => ⟨hq, heq⟩, fun hst => hst.2⟩

theorem Tracks.erase (ht : Tracks h L m) (key : κ) (hinted : Bool)
    (hop : CallsNoScrub B m (.erase key hinted)) : Answered B h L m (.erase key hinted) := by
  rcases ht.step B hS (.eraseFirst key) hop (fun _ _ he => by cases he) with
    ⟨e, -, hrej⟩ | ⟨r, m', hr, ho, hv⟩
  · exact absurd hrej (Op.not_rejects id (fun _ => id) e)
  · obtain ⟨⟨⟨found, pos, q⟩, m₁⟩, hi, hr⟩ := bind_eq_ok.mp hr
    obtain ⟨rfl, rfl⟩ := Prod.mk.inj (Except.ok.inj hr)
    refine Or.inr ⟨.flag found, m₁, by rw [call, hi]; rfl, ?_⟩
    have hu := ht.inv.unique hd
    suffices hspec : Tracks h (L.filter fun e => !T.key.eq e.1 key) m₁ ∧
        (L.get key).isSome = found by
      refine ⟨hspec.1, m.shown h, ht.lists hd, ?_⟩
      simp only [View.known, View.of, Call.key, Option.bind_some, Option.isSome_map, hspec.2]
    rcases ho with ⟨rfl, p, hp, he⟩ | ⟨rfl, hno, rfl⟩
    · refine ⟨ht.eraseKey he (fun q => ?_) hv,
        (ht.describes.isSome_iff key).mpr (contains_iff.mpr ⟨p, hp⟩)⟩
      rw [List.mem_singleton]
      refine ⟨fun hq => hq ▸ hp, fun hq => ?_⟩
      exact hu q p hq.1 hp.1 (T.key.eq_trans hq.2 (T.key.eq_symm hp.2))
    · refine ⟨ht.eraseKey ht.inv.erased_nil (fun q => ?_) hv, ?_⟩
      · simp only [List.not_mem_nil, false_iff]
        exact fun hq => hno (contains_iff.mpr ⟨q, hq⟩)
      · rw [ht.describes.get_eq_none hno]
        rfl

theorem Tracks.eraseAll (ht : Tracks h L m) (key : κ)
    (hop : CallsNoScrub B m (.eraseAll key)) : Answered B h L m (.eraseAll key) := by
  rcases ht.step B hS (.eraseAll key) hop (fun _ _ he => by cases he) with
    ⟨e, -, hrej⟩ | ⟨r, m', hr, ho, hv⟩
  · exact absurd hrej (Op.not_rejects id (fun _ => id) e)
  · obtain ⟨⟨n, m₁⟩, hi, hr⟩ := bind_eq_ok.mp hr
    obtain ⟨rfl, rfl⟩ := Prod.mk.inj (Except.ok.inj hr)
    obtain ⟨l, rfl, he, hl⟩ := ho
    refine Or.inr ⟨.number l.length, m₁, by rw [call, hi]; rfl, ht.eraseKey he hl hv,
      m.shown h, ht.lists hd, ?_⟩
    have hcard := congrArg Multiset.card (ht.slots hd key he.nodup hl)
    rw [Multiset.coe_card, List.length_map] at hcard
    simp only [View.known, View.of, Call.key, Option.bind_some, Option.isSome_map, hcard]
    cases L.get key <;> rfl

theorem Tracks.eraseIf (ht : Tracks h L m) {pred : κ → ν → Bool}
    (hb : (Call.eraseIf pred).Blind h m.IsKey) (hop : CallsNoScrub B m (.eraseIf pred)) :
    Answered B h L m (.eraseIf pred) := by
  rcases ht.step B hS (.eraseIf fun p => pred (m.keyAt p) (m.valueAt p)) hop
    (fun _ _ he => by cases he) with ⟨e, -, hrej⟩ | ⟨r, m', hr, ho, hv⟩
  · exact absurd hrej (Op.not_rejects id (fun _ => id) e)
  · obtain ⟨⟨n, m₁⟩, hi, hr⟩ := bind_eq_ok.mp hr
    obtain ⟨rfl, rfl⟩ := Prod.mk.inj (Except.ok.inj hr)
    obtain ⟨l, rfl, he, hl⟩ := ho
    refine Or.inr ⟨.number l.length, m₁, by rw [call, hi]; rfl, ?_, m.shown h, ht.lists hd, ?_⟩
    · refine ht.filter he (fun q hq => ((hl q).mp hq).1) (fun q hq v hget => ?_) hv
      rw [Bool.not_eq_true', Bool.eq_false_iff, not_iff_not, hl]
      -- a value that the ledger does not have does not count
      have hpred : pred (m.keyAt q) (v.getD default) = pred (m.keyAt q) (m.valueAt q) := by
        obtain ⟨v', hv', hw⟩ := ht.describes.entry (m.entryAt q) (mem_entries.mpr ⟨q, hq, rfl⟩)
        change L.get (m.keyAt q) = some (m.keyAt q, v') at hv'
        change ∀ w, v' = some w → m.valueAt q = w at hw
        rw [hget] at hv'
        obtain rfl : v = v' := congrArg Prod.snd (Option.some.inj hv')
        cases v with
        | none => exact hb _ ⟨q, hq, rfl⟩ (ht.known _ _ hget rfl) _ _
        | some w => rw [hw w rfl, Option.getD_some]
      dsimp only
      rw [hpred]
      exact ⟨fun hp => ⟨hq, hp⟩, fun hp => hp.2⟩
    · have hperm : l.Perm ((m.positions ideal).filter fun p => pred (m.keyAt p) (m.valueAt p)) := by
        refine (List.perm_ext_iff_of_nodup he.nodup (ht.inv.positions_nodup.filter _)).mpr
          fun p => ?_
        rw [hl, List.mem_filter, ht.inv.mem_positions]
      simp only [View.known, View.of]
      rw [shown, countP_shown hb fun p hp => ht.inv.mem_positions.mp hp, hperm.length_eq,
        List.countP_eq_length_filter]

theorem Tracks.assign (ht : Tracks h L m) (key : κ) (value : ν) :
    Answered B h L m (.assign key value) := by
  rcases ht.step B hS (.findFirst key) rfl (fun _ _ he => by cases he) with
    ⟨e, -, hrej⟩ | ⟨r, m', hr, ho, -⟩
  · exact absurd hrej (Op.not_rejects id (fun _ => id) e)
  · obtain ⟨⟨pos, q⟩, hi, hr⟩ := bind_eq_ok.mp hr
    obtain ⟨rfl, rfl⟩ := Prod.mk.inj (Except.ok.inj hr)
    have hl := ho.2
    cases pos with
    | none =>
        have hnone : L.get key = none := by
          refine ht.describes.get_eq_none fun hc => ?_
          obtain ⟨p, hp⟩ := contains_iff.mp hc
          exact hl.not_stores ht.inv.toTable p hp
        refine Or.inr ⟨.flag false, m, by rw [call, hi]; rfl, ?_, m.shown h, ht.lists hd, ?_⟩
        · rw [Ledger.after, hnone]
          exact ht
        · simp only [View.known, View.of, Call.key, Option.bind_some, hnone]
          rfl
    | some p =>
        have hst : m.Stores key p := hl.stores
        have hsome : (L.get key).isSome = true :=
          (ht.describes.isSome_iff key).mpr (contains_iff.mpr ⟨p, hst⟩)
        have hset : m.setValueAt p value = .ok { m with values := m.values.set p value } := by
          rw [setValueAt, if_pos ⟨hst.1.1, hst.1.2⟩]
        refine Or.inr ⟨.flag true, { m with values := m.values.set p value },
          by rw [call, hi, ok_bind]; dsimp only; rw [hset]; rfl, ⟨?_, ?_, ?_, ?_⟩, m.shown h,
          ht.lists hd, ?_⟩
        · exact { ht.inv with values_length := List.length_set.trans ht.inv.values_length }
        · rw [Ledger.after, if_pos hsome]
          exact ht.describes.setValue ht.inv.toShape (ht.inv.unique hd) hst value
        · rw [Ledger.after, if_pos hsome]
          exact ht.known.put fun hw => by cases hw
        · intro hw
          cases hw
        · simp only [View.known, View.of, Call.key, Option.bind_some, Option.isSome_map, hsome]

/-- A call that shows nothing. -/
theorem Tracks.quiet (ht : Tracks h L m) {op : Op κ ν} {c : Call κ ν}
    (hcall : m.call B.ops c = m.step B.ops op >>= fun r => .ok (.done, r.2))
    (hop : NoScrub B m op) (hset : ∀ pos v, op ≠ .setValueAt pos v)
    (hrej : ∀ e, op.Rejects m e → e = .overflow ∧ m.CallOverflows c)
    (hh : ∀ v : View κ ν, h.after T.key c v = h) (hview : ∀ x x' M, View.of x x' M c = .done)
    (htracks : ∀ r m', m.Outcome op r m' → (h.wrote = false → ValuesIn (· = default) m') →
      Tracks h (L.after h.wrote c) m') : Answered B h L m c := by
  rcases ht.step B hS op hop hset with ⟨e, he, hr⟩ | ⟨r, m', hr, ho, hv⟩
  · obtain ⟨rfl, hover⟩ := hrej e hr
    refine Or.inl ⟨?_, hover⟩
    rw [hcall, he]
    rfl
  · refine Or.inr ⟨.done, m', by rw [hcall, hr]; rfl, ?_, m.shown h, ht.lists hd, ?_⟩
    · rw [hh]
      exact htracks r m' ho hv
    · rw [hview]
      rfl

/-- A call that only rebuilds the table. -/
theorem Tracks.tidy (ht : Tracks h L m) (op : Op κ ν) {c : Call κ ν}
    (hcall : m.call B.ops c = m.step B.ops op >>= fun r => .ok (.done, r.2))
    (hop : NoScrub B m op) (hset : ∀ pos v, op ≠ .setValueAt pos v)
    (hrej : ∀ e, op.Rejects m e → e = .overflow ∧ m.CallOverflows c)
    (hh : ∀ v : View κ ν, h.after T.key c v = h) (hview : ∀ x x' M, View.of x x' M c = .done)
    (hL : L.after h.wrote c = L) (ho : ∀ r m', m.Outcome op r m' → Tidied m m') :
    Answered B h L m c := by
  refine ht.quiet B hd hS hcall hop hset hrej hh hview fun r m' hout hv => ?_
  rw [hL]
  have htidy := ho r m' hout
  exact ht.of_entries_eq htidy.inv htidy.entries_eq hv

/-- A call that removes all entries. -/
theorem Tracks.wipe (ht : Tracks h L m) (op : Op κ ν) {c : Call κ ν}
    (hcall : m.call B.ops c = m.step B.ops op >>= fun r => .ok (.done, r.2))
    (hop : NoScrub B m op) (hset : ∀ pos v, op ≠ .setValueAt pos v)
    (hrej : ∀ e, op.Rejects m e → e = .overflow ∧ m.CallOverflows c)
    (hh : ∀ v : View κ ν, h.after T.key c v = h) (hview : ∀ x x' M, View.of x x' M c = .done)
    (hL : L.after h.wrote c = Ledger.empty) (ho : ∀ r m', m.Outcome op r m' → Cleared m m') :
    Answered B h L m c := by
  refine ht.quiet B hd hS hcall hop hset hrej hh hview fun r m' hout hv => ?_
  rw [hL]
  have hclear := ho r m' hout
  exact ⟨hclear.inv, .of_empty hclear.entries_eq, Ledger.known_empty, hv⟩

/-- The step lemma. -/
theorem call_spec (ht : Tracks h L m) {c : Call κ ν} (hop : CallsNoScrub B m c)
    (hb : c.Blind h m.IsKey) : Answered B h L m c := by
  cases c with
  | insert key hinted => exact ht.insert B hd hS key hinted
  | find key hinted => exact ht.find B hd hS key hinted
  | erase key hinted => exact ht.erase B hd hS key hinted hop
  | eraseAll key => exact ht.eraseAll B hd hS key hop
  | count key => exact ht.count B hd hS key
  | forEachKey key => exact ht.forEachKey B hd hS key
  | assign key value => exact ht.assign B hd hS key value
  | forEach => exact ht.forEach B hd hS
  | countIf pred => exact ht.countIf B hd hS hb
  | eraseIf pred => exact ht.eraseIf B hd hS hb hop
  | size => exact ht.size B hd
  | grow =>
      refine ht.tidy B hd hS .grow ?_ rfl (fun _ _ he => by cases he)
        (fun _ hrej => hrej.resolve_right id) (fun _ => rfl) (fun _ _ _ => rfl) rfl ?_
      · rw [call, step]
        cases m.grow B.ops <;> rfl
      · intro r m' ho
        cases r with
        | number n => exact ho
        | _ => exact ho.elim
  | shrink =>
      refine ht.tidy B hd hS .shrink ?_ rfl (fun _ _ he => by cases he)
        (fun e hrej => absurd hrej (Op.not_rejects id (fun _ => id) e)) (fun _ => rfl)
        (fun _ _ _ => rfl) rfl ?_
      · rw [call, step]
        cases m.shrink B.ops <;> rfl
      · intro r m' ho
        cases r with
        | number n => exact ho
        | _ => exact ho.elim
  | resize n =>
      refine ht.tidy B hd hS (.resize n) ?_ rfl (fun _ _ he => by cases he)
        (fun _ hrej => hrej.resolve_right id) (fun _ => rfl) (fun _ _ _ => rfl) rfl ?_
      · rw [call, step]
        cases m.resize B.ops n <;> rfl
      · intro r m' ho
        cases r with
        | number n => exact ho
        | _ => exact ho.elim
  | reserve n =>
      refine ht.tidy B hd hS (.reserve n) ?_ rfl (fun _ _ he => by cases he)
        (fun _ hrej => hrej.resolve_right id) (fun _ => rfl) (fun _ _ _ => rfl) rfl ?_
      · rw [call, step]
        cases m.reserve B.ops n <;> rfl
      · intro r m' ho
        cases r with
        | number n => exact ho
        | _ => exact ho.elim
  | clear =>
      refine ht.wipe B hd hS .clear rfl rfl (fun _ _ he => by cases he)
        (fun e hrej => absurd hrej (Op.not_rejects id (fun _ => id) e)) (fun _ => rfl)
        (fun _ _ _ => rfl) rfl ?_
      intro r m' ho
      cases r with
      | number n => exact ho
      | _ => exact ho.elim
  | clearTo n =>
      refine ht.wipe B hd hS (.clearTo n) ?_ rfl (fun _ _ he => by cases he)
        (fun _ hrej => hrej.resolve_right id) (fun _ => rfl) (fun _ _ _ => rfl) rfl ?_
      · rw [call, step]
        cases m.clearTo n <;> rfl
      · intro r m' ho
        cases r with
        | number n => exact ho
        | _ => exact ho.elim

end Answers

end Map

end Nvhm
