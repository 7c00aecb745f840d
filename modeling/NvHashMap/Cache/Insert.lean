import NvHashMap.Cache.Invariant
import NvHashMap.Kernel.ArrayKernel

/-! # Finding, inserting and erasing

A key is searched in one bucket.  `insert_cases` lists what `insert_` can do: it finds the key, it
fills an empty slot, or it puts the key in the place of another one. -/

namespace Nvhm

open Buffer SlotCount

variable {κ ν : Type} {T : CacheType κ} [Inhabited κ]

namespace Cache

/-- Some slot holds the key. -/
def Contains (m : Cache T ν) (key : κ) : Prop :=
  ∃ p < m.capacity, m.containsAt p = true ∧ T.key.eq (m.keyAt p) key = true

omit [Inhabited κ] in
theorem occupied_iff {m : Cache T ν} {p : ℕ} :
    m.table.Occupied p ↔ p < m.capacity ∧ m.containsAt p = true := by
  refine and_congr_right fun hp => ?_
  change isHash (m.table.stateAt p) = true ↔ _
  rw [table_stateAt m hp]
  rfl

theorem contains_iff {m : Cache T ν} {key : κ} : m.Contains key ↔ ∃ p, m.table.Stores key p := by
  refine exists_congr fun p => ?_
  rw [← and_assoc, ← occupied_iff]
  rfl

theorem Contains.of_stores {m : Cache T ν} {key : κ} {p : ℕ} (h : m.table.Stores key p) :
    m.Contains key := contains_iff.mpr ⟨p, h⟩

section Find
variable {m : Cache T ν} (h : Inv m)
include h

/-- The search for a key in its home bucket. -/
theorem Inv.firstMatch_cases (key : κ) :
    (∃ i, m.firstMatch (m.home key) key (ideal.hits (m.bucket (m.home key)) (keyState T key)) =
        some i ∧ m.IsSlot (m.home key) i ∧ m.table.Stores key (m.home key + i)) ∨
      m.firstMatch (m.home key) key (ideal.hits (m.bucket (m.home key)) (keyState T key)) = none ∧
        ¬ m.Contains key := by
  have hs := h.shape.isSlot_home key (kernelSize_pos T)
  have hle := h.sound.offset_add_le hs.dvd hs.lt
  have hmatch := h.sound.firstMatch_spec hle key
  have heq : m.table.firstMatch (m.home key) key (ideal.hits (m.table.bucket (m.home key))
      (Map.keyState T.toMapType key)) =
      m.firstMatch (m.home key) key (ideal.hits (m.bucket (m.home key)) (keyState T key)) := by
    rw [← bucket_eq h.shape hs.dvd hs.lt]
    rfl
  rw [heq] at hmatch
  cases hf : m.firstMatch (m.home key) key
      (ideal.hits (m.bucket (m.home key)) (keyState T key)) with
  | some i =>
      rw [hf] at hmatch
      exact Or.inl ⟨i, rfl, ⟨hs.dvd, hs.lt, hmatch.1⟩, hmatch.2⟩
  | none =>
      rw [hf] at hmatch
      refine Or.inr ⟨rfl, fun hc => ?_⟩
      obtain ⟨q, hq⟩ := contains_iff.mp hc
      obtain ⟨i, hi, rfl⟩ := MapType.exists_add_of_off_eq (h.off_of_stores hq)
      exact hmatch i hi hq

/-- `find_first_` finds a key exactly if it is stored. -/
theorem Inv.findFirst_spec (key : κ) :
    (∃ i, m.findFirst ideal key =
        ((some (m.home key + i), initSeq T key), m.touch ideal (m.home key) i) ∧
        m.IsSlot (m.home key) i ∧ m.table.Stores key (m.home key + i)) ∨
      m.findFirst ideal key = ((none, initSeq T key), m) ∧ ¬ m.Contains key := by
  unfold findFirst
  dsimp only
  rcases h.firstMatch_cases key with ⟨i, hi, hs, hst⟩ | ⟨hn, hc⟩
  · rw [hi]
    exact Or.inl ⟨i, rfl, hs, hst⟩
  · rw [hn]
    exact Or.inr ⟨rfl, hc⟩

theorem Inv.findFirst_isSome_iff (key : κ) :
    (m.findFirst ideal key).1.1.isSome = true ↔ m.Contains key := by
  rcases h.findFirst_spec key with ⟨i, heq, -, hst⟩ | ⟨heq, hn⟩
  · rw [heq]
    exact iff_of_true rfl (.of_stores hst)
  · rw [heq]
    exact iff_of_false (by simp) hn

theorem Inv.touch {o i : ℕ} (hs : m.IsSlot o i) : Inv (m.touch ideal o i) := by
  obtain ⟨hshape, ht⟩ := h.shape.touch hs
  exact h.same hshape ht

end Find

/-! ### Inserting -/

section Insert
variable {m : Cache T ν} (h : Inv m)
include h

omit h [Inhabited κ] in
theorem minLru_lt {l : List Lru} (hl : l.length = T.kernelSize) :
    (ideal.minLru l).2 < T.kernelSize := by
  change (minLruAux l.tail 1 (l.getD 0 0, 0)).2 < _
  rw [← minLruLoop_eq hl fun i => rfl]
  exact minLruLoop_lt (kernelSize_pos T) _

/-- The slot that `insert_` and `resize_` choose: an empty one if the bucket has one. -/
theorem Inv.slot_cases {o : ℕ} (hd : T.kernelSize ∣ o) (ho : o < m.capacity) :
    (∃ i, (ideal.notHashes (m.bucket o)).head? = some i ∧ m.IsSlot o i ∧
        m.table.stateAt (o + i) = empty) ∨
      (ideal.notHashes (m.bucket o)).head? = none ∧
        ∀ i < T.kernelSize, m.table.Occupied (o + i) := by
  have hle := h.sound.offset_add_le hd ho
  rw [bucket_eq h.shape hd ho]
  cases hf : (ideal.notHashes (m.table.bucket o)).head? with
  | some i =>
      obtain ⟨hi, hlt, hn⟩ := h.sound.head_spec (p := (!isHash ·)) hle hf
      refine Or.inl ⟨i, rfl, ⟨hd, ho, hi⟩, h.eq_empty hlt fun hocc => ?_⟩
      rw [hocc.isHash] at hn
      cases hn
  | none =>
      refine Or.inr ⟨rfl, fun i hi => ⟨lt_of_lt_of_le (Nat.add_lt_add_left hi o) hle, ?_⟩⟩
      have hnil : slots (!isHash ·) (m.table.bucket o) = [] := List.head?_eq_none_iff.mp hf
      have hstate := (h.sound.slots_bucket_eq_nil hle).mp hnil i hi
      rwa [Bool.not_eq_false'] at hstate

/-- A key that is stored nowhere is placed in its home bucket. -/
theorem Inv.place {o i : ℕ} (hs : m.IsSlot o i) {key : κ} (ho : o = m.home key) {op : InsertOp}
    (hop : op = .insert ↔ m.table.stateAt (o + i) = empty)
    (hnew : T.duplicates = false → ¬ m.Contains key) : Inv (m.place o i key op) := by
  obtain ⟨hshape, ht⟩ := h.shape.place hs key op
  have hlt := h.shape.add_lt hs
  have hf : Map.Frame m.table (m.place o i key op).table := ⟨rfl, rfl, rfl⟩
  have hst : (m.place o i key op).table.stateAt =
      Function.update m.table.stateAt (o + i) (keyState T key) := by
    rw [ht]
    exact Map.occupy_stateAt h.sound.toShape hlt key 1
  refine h.put hshape hf hlt hst ?_ ?_ (fun hd q hq => hnew hd (.of_stores hq)) ?_
  · rw [ht]
    exact Map.occupy_keyAt h.sound.toShape hlt key 1
  · rw [← ho]
    exact MapType.off_add (T := T.toMapType) hs.dvd hs.idx_lt
  · change m.numEmpty - (if op = InsertOp.insert then 1 else 0) = _
    simp only [hop]

/-- The search for a duplicate in the home bucket. -/
theorem Inv.findInBucket_cases (key : κ) :
    (∃ i, m.findInBucket ideal (m.home key) key = some i ∧ m.IsSlot (m.home key) i ∧
      T.duplicates = false ∧ m.table.Stores key (m.home key + i)) ∨
      m.findInBucket ideal (m.home key) key = none ∧
        (T.duplicates = false → ¬ m.Contains key) := by
  unfold findInBucket
  cases hd : T.duplicates with
  | true =>
      rw [if_pos rfl]
      exact Or.inr ⟨rfl, fun hc => by cases hc⟩
  | false =>
      rw [if_neg (by decide)]
      rcases h.firstMatch_cases key with ⟨i, hi, hsi, hst⟩ | ⟨hn, hc⟩
      · exact Or.inl ⟨i, hi, hsi, rfl, hst⟩
      · exact Or.inr ⟨hn, fun _ => hc⟩

/-- What `insert_` does. -/
theorem Inv.insert_cases (key : κ) :
    (∃ i, m.insert ideal key =
        ((m.home key + i, .found, initSeq T key), m.touch ideal (m.home key) i) ∧
        m.IsSlot (m.home key) i ∧ T.duplicates = false ∧ m.table.Stores key (m.home key + i)) ∨
      (T.duplicates = false → ¬ m.Contains key) ∧ ∃ i op,
        m.insert ideal key =
          ((m.home key + i, op, initSeq T key), m.place (m.home key) i key op) ∧
        m.IsSlot (m.home key) i ∧
        (op = .insert ∧ m.table.stateAt (m.home key + i) = empty ∨
          op = .replace ∧ m.table.Occupied (m.home key + i) ∧
            i = ideal.minLruSlot (m.lrus (m.home key))) := by
  have hs := h.shape.isSlot_home key (kernelSize_pos T)
  unfold Cache.insert
  dsimp only
  rcases h.findInBucket_cases key with ⟨i, hi, hsi, hd, hst⟩ | ⟨hn, hnew⟩
  · rw [hi]
    exact Or.inl ⟨i, rfl, hsi, hd, hst⟩
  · rw [hn]
    refine Or.inr ⟨hnew, ?_⟩
    dsimp only
    rcases h.slot_cases hs.dvd hs.lt with ⟨i, hi, hsi, he⟩ | ⟨hnone, hfull⟩
    · rw [hi]
      exact ⟨i, .insert, rfl, hsi, Or.inl ⟨rfl, he⟩⟩
    · rw [hnone]
      have hlt := minLru_lt (length_lrus h.shape hs.dvd hs.lt)
      exact ⟨_, .replace, rfl, ⟨hs.dvd, hs.lt, hlt⟩, Or.inr ⟨rfl, hfull _ hlt, rfl⟩⟩

theorem Inv.insert (key : κ) : Inv (m.insert ideal key).2 := by
  rcases h.insert_cases key with ⟨i, heq, hs, -, -⟩ | ⟨hnew, i, op, heq, hs, hop⟩
  · rw [heq]
    exact h.touch hs
  · rw [heq]
    refine h.place hs rfl ?_ hnew
    rcases hop with ⟨rfl, he⟩ | ⟨rfl, ho, -⟩
    · exact iff_of_true rfl he
    · exact iff_of_false (by decide) (ne_empty_of_isHash ho.isHash)

end Insert

/-! ### What an insert evicts -/

section Evict
variable {m m' : Cache T ν}

/-- After an insert of `key` the key is stored; at most one other key is gone, and one is gone
exactly if the insert says that it replaced one. -/
structure Evicts (m m' : Cache T ν) (key : κ) (op : InsertOp) : Prop where
  contains : m'.Contains key
  rest : ∀ k, m'.Contains k → m.Contains k ∨ T.key.eq key k = true
  evicted_eq : ∀ k k', m.Contains k → ¬ m'.Contains k → m.Contains k' → ¬ m'.Contains k' →
    T.key.eq k k' = true
  replace_iff : op = .replace ↔ ∃ k, m.Contains k ∧ ¬ m'.Contains k

/-- An insert that keeps all keys. -/
theorem Evicts.of_subset {key : κ} {op : InsertOp} (hc : m'.Contains key)
    (hrest : ∀ k, m'.Contains k → m.Contains k ∨ T.key.eq key k = true)
    (hsub : ∀ k, m.Contains k → m'.Contains k) (hop : op ≠ .replace) : Evicts m m' key op where
  contains := hc
  rest := hrest
  evicted_eq k _ hk hn := absurd (hsub k hk) hn
  replace_iff := iff_of_false hop fun ⟨k, hk, hn⟩ => hn (hsub k hk)

/-- What a cache stores after a key was put in a slot. -/
theorem stores_put {pos : ℕ} (hp : pos < m.capacity) (hf : Map.Frame m.table m'.table) {key : κ}
    (hst : m'.table.stateAt = Function.update m.table.stateAt pos (keyState T key))
    (hk : m'.table.keyAt = Function.update m.table.keyAt pos key) (k : κ) (q : ℕ) :
    m'.table.Stores k q ↔
      q = pos ∧ T.key.eq key k = true ∨ q ≠ pos ∧ m.table.Stores k q := by
  unfold Map.Stores
  rw [hk]
  by_cases hq : q = pos
  · subst hq
    rw [Function.update_self]
    have hocc : m'.table.Occupied q := by
      refine ⟨hf.capacity.symm ▸ hp, ?_⟩
      unfold Map.containsAt
      rw [hst, Function.update_self]
      exact Map.isHash_keyState T.toMapType key
    exact ⟨fun hc => Or.inl ⟨rfl, hc.2⟩, fun hc =>
      hc.elim (fun hc => ⟨hocc, hc.2⟩) fun hc => absurd rfl hc.1⟩
  · rw [Function.update_of_ne hq, Map.occupied_put hf hst hq]
    exact ⟨fun hc => Or.inr ⟨hq, hc⟩, fun hc =>
      hc.elim (fun hc => absurd hc.1 hq) fun hc => hc.2⟩

theorem stores_place (h : Inv m) {o i : ℕ} (hs : m.IsSlot o i) (key : κ) (op : InsertOp) (k : κ)
    (q : ℕ) : (m.place o i key op).table.Stores k q ↔
      q = o + i ∧ T.key.eq key k = true ∨ q ≠ o + i ∧ m.table.Stores k q := by
  obtain ⟨-, ht⟩ := h.shape.place hs key op
  have hlt := h.shape.add_lt hs
  have hf : Map.Frame m.table (m.place o i key op).table := ⟨rfl, rfl, rfl⟩
  refine stores_put hlt hf ?_ ?_ k q
  · rw [ht]
    exact Map.occupy_stateAt h.sound.toShape hlt key 1
  · rw [ht]
    exact Map.occupy_keyAt h.sound.toShape hlt key 1

theorem Inv.insert_evicts (h : Inv m) (hd : T.duplicates = false) (key : κ) :
    Evicts m (m.insert ideal key).2 key (m.insert ideal key).1.2.1 ∧
      (m.insert ideal key).2.table.Stores key (m.insert ideal key).1.1 := by
  rcases h.insert_cases key with ⟨i, heq, hs, -, hst⟩ | ⟨hnew, i, op, heq, hs, hop⟩
  · -- the key was there, and only a counter changes
    rw [heq]
    have ht := (h.shape.touch hs).2
    have hst' : (m.touch ideal (m.home key) i).table.Stores key (m.home key + i) := by
      rw [ht]
      exact hst
    refine ⟨.of_subset (.of_stores hst') (fun k hk => Or.inl ?_) (fun k hk => ?_)
      (fun hc => by cases hc), hst'⟩
    · obtain ⟨q, hq⟩ := contains_iff.mp hk
      rw [ht] at hq
      exact .of_stores hq
    · obtain ⟨q, hq⟩ := contains_iff.mp hk
      rw [← ht] at hq
      exact .of_stores hq
  · rw [heq]
    have hstores := stores_place h hs key op
    have hst' : (m.place (m.home key) i key op).table.Stores key (m.home key + i) :=
      (hstores key _).mpr (Or.inl ⟨rfl, T.key.eq_refl key⟩)
    have hrest : ∀ k, (m.place (m.home key) i key op).Contains k →
        m.Contains k ∨ T.key.eq key k = true := by
      intro k hk
      obtain ⟨q, hq⟩ := contains_iff.mp hk
      rcases (hstores k q).mp hq with ⟨-, he⟩ | ⟨-, hq⟩
      · exact Or.inr he
      · exact Or.inl (.of_stores hq)
    refine ⟨?_, hst'⟩
    rcases hop with ⟨rfl, he⟩ | ⟨rfl, ho, -⟩
    · refine .of_subset (.of_stores hst') hrest (fun k hk => ?_) (fun hc => by cases hc)
      obtain ⟨q, hq⟩ := contains_iff.mp hk
      refine .of_stores ((hstores k q).mpr (Or.inr ⟨?_, hq⟩))
      rintro rfl
      exact ne_empty_of_isHash hq.1.isHash he
    · -- a key is gone if it was in this slot
      have hgone : ∀ k, m.Contains k → ¬ (m.place (m.home key) i key .replace).Contains k →
          m.table.Stores k (m.home key + i) := by
        intro k hk hn
        obtain ⟨q, hq⟩ := contains_iff.mp hk
        by_cases heq : q = m.home key + i
        · exact heq ▸ hq
        · exact absurd (.of_stores ((hstores k q).mpr (Or.inr ⟨heq, hq⟩))) hn
      have hself : m.table.Stores (m.keyAt (m.home key + i)) (m.home key + i) :=
        ⟨ho, T.key.eq_refl _⟩
      refine ⟨.of_stores hst', hrest, fun k k' hk hn hk' hn' => ?_,
        iff_of_true rfl ⟨_, .of_stores hself, fun hc => ?_⟩⟩
      · exact T.key.eq_trans (T.key.eq_symm (hgone k hk hn).2) (hgone k' hk' hn').2
      · obtain ⟨q, hq⟩ := contains_iff.mp hc
        rcases (hstores _ q).mp hq with ⟨-, he⟩ | ⟨hne, hq⟩
        · exact hnew hd (.of_stores ⟨ho, T.key.eq_symm he⟩)
        · exact hne (h.unique hd q _ hq.1 ho hq.2)

end Evict

/-! ### Erasing -/

/-- The entries of the slots in `l` are freed. -/
structure Freed (m m' : Cache T ν) (l : List ℕ) : Prop where
  inv : Inv m'
  frame : Map.Frame m.table m'.table
  occupied : ∀ p, m'.table.Occupied p ↔ m.table.Occupied p ∧ p ∉ l
  keyAt : m'.table.keyAt = m.table.keyAt
  values : m'.values = m.values
  blobs : m'.blobs = m.blobs
  numEmpty : m'.numEmpty = m.numEmpty + l.length

section Erase
variable {m m' m'' : Cache T ν}

theorem Inv.freed_nil (h : Inv m) : Freed m m [] :=
  ⟨h, Map.Frame.refl _, fun _ => ⟨fun hp => ⟨hp, List.not_mem_nil⟩, fun hp => hp.1⟩, rfl, rfl, rfl,
    (add_zero _).symm⟩

theorem Freed.trans {l l' : List ℕ} (h : Freed m m' l) (h' : Freed m' m'' l') :
    Freed m m'' (l ++ l') where
  inv := h'.inv
  frame := h.frame.trans h'.frame
  occupied p := by
    rw [h'.occupied, h.occupied, List.mem_append, not_or, and_assoc]
  keyAt := h'.keyAt.trans h.keyAt
  values := h'.values.trans h.values
  blobs := h'.blobs.trans h.blobs
  numEmpty := by
    rw [h'.numEmpty, h.numEmpty, List.length_append]
    push_cast
    ring

theorem Inv.freed (h : Inv m) {o i : ℕ} (hs : m.IsSlot o i) (ho : m.table.Occupied (o + i)) :
    Freed m (m.resetSlot (o * 2 + i)) [o + i] := by
  obtain ⟨-, ht⟩ := h.shape.resetSlot hs
  have hst := Map.free_stateAt h.sound.toShape true ho.1
  have hf := Map.free_frame m.table true (o + i)
  refine ⟨h.free hs ho, ht ▸ hf, fun p => ?_, ?_, rfl, rfl, rfl⟩
  · rw [ht, List.mem_singleton]
    constructor
    · intro hp
      obtain ⟨hne, hp⟩ := Map.occupied_of_release hf (Map.isHash_freed true) hst hp
      exact ⟨hp, hne⟩
    · rintro ⟨hp, hne⟩
      exact (Map.occupied_put hf hst hne).mpr hp
  · rw [ht]
    exact Map.free_keyAt m.table true _

/-- Slots of one bucket are freed. -/
theorem Inv.freed_resetSlots {o : ℕ} (hd : T.kernelSize ∣ o) : ∀ (l : List ℕ) {m : Cache T ν},
    Inv m → o < m.capacity → l.Nodup →
    (∀ i ∈ l, i < T.kernelSize ∧ m.table.Occupied (o + i)) →
    Freed m (m.resetSlots o l) (l.map (o + ·))
  | [], m, h, _, _, _ => h.freed_nil
  | i :: l, m, h, ho, hnodup, hl => by
      obtain ⟨hnot, hnodup⟩ := List.nodup_cons.mp hnodup
      obtain ⟨hi, hocc⟩ := hl i List.mem_cons_self
      have hfirst := h.freed ⟨hd, ho, hi⟩ hocc
      have hrest := Inv.freed_resetSlots hd l hfirst.inv ho hnodup fun j hj => ?_
      · exact hfirst.trans hrest
      · obtain ⟨hj', hocc'⟩ := hl j (List.mem_cons_of_mem _ hj)
        refine ⟨hj', (hfirst.occupied _).mpr ⟨hocc', ?_⟩⟩
        rw [List.mem_singleton]
        intro hc
        obtain rfl : j = i := by omega
        exact hnot hj

/-- The slots that `mask_hash` lists. -/
theorem Inv.mem_hashes (h : Inv m) {o i : ℕ} (hd : T.kernelSize ∣ o) (ho : o < m.capacity) :
    i ∈ ideal.hashes (m.bucket o) ↔ i < T.kernelSize ∧ m.table.Occupied (o + i) := by
  have hle := h.sound.offset_add_le hd ho
  rw [bucket_eq h.shape hd ho]
  refine (h.sound.mem_slots_bucket (p := isHash) hle).trans (and_congr_right fun hi => ?_)
  exact ⟨fun hs => ⟨lt_of_lt_of_le (Nat.add_lt_add_left hi o) hle, hs⟩, fun hs => hs.2⟩

/-- The slots of a key in its home bucket. -/
theorem Inv.mem_matches (h : Inv m) (key : κ) {i : ℕ} :
    i ∈ (ideal.hits (m.bucket (m.home key)) (keyState T key)).filter
        (fun i => T.key.eq (m.keyAt (m.home key + i)) key) ↔
      i < T.kernelSize ∧ m.table.Stores key (m.home key + i) := by
  have hs := h.shape.isSlot_home key (kernelSize_pos T)
  rw [bucket_eq h.shape hs.dvd hs.lt]
  exact h.sound.mem_matches (h.sound.offset_add_le hs.dvd hs.lt) key

/-- The entries that the loop of `erase_if_` frees. -/
theorem Inv.freed_eraseIfLoop (pred : ℕ → Bool) : ∀ (offs : List ℕ) {m : Cache T ν}, Inv m →
    (∀ o ∈ offs, T.kernelSize ∣ o ∧ o < m.capacity) → offs.Nodup →
    ∃ l, Freed m (eraseIfLoop ideal pred offs m) l ∧
      ∀ p, p ∈ l ↔ m.table.Occupied p ∧ T.toMapType.off p ∈ offs ∧ pred p = true
  | [], m, h, _, _ => by
      refine ⟨[], h.freed_nil, fun p => iff_of_false List.not_mem_nil ?_⟩
      exact fun hc => List.not_mem_nil hc.2.1
  | o :: offs, m, h, ho, hnodup => by
      obtain ⟨hnot, hnodup⟩ := List.nodup_cons.mp hnodup
      obtain ⟨hd, hlt⟩ := ho o List.mem_cons_self
      have hhere : ∀ i, i ∈ (ideal.hashes (m.bucket o)).filter (fun i => pred (o + i)) ↔
          (i < T.kernelSize ∧ m.table.Occupied (o + i)) ∧ pred (o + i) = true := by
        intro i
        rw [List.mem_filter, h.mem_hashes hd hlt]
      have hfirst := h.freed_resetSlots hd _ hlt ((List.nodup_range.filter _).filter _)
        fun i hi =>
        ((hhere i).mp hi).1
      obtain ⟨l, hl, hmem⟩ := hfirst.inv.freed_eraseIfLoop pred offs
        (fun o' ho' => by
          rw [← m.table_capacity, ← hfirst.frame.capacity] at ho
          exact ho o' (List.mem_cons_of_mem _ ho')) hnodup
      refine ⟨_, hfirst.trans hl, fun p => ?_⟩
      rw [List.mem_append, hmem, hfirst.occupied, List.mem_cons, List.mem_map]
      constructor
      · rintro (⟨i, hi, rfl⟩ | ⟨⟨hp, -⟩, hoff, hpred⟩)
        · obtain ⟨⟨hi, hocc⟩, hpred⟩ := (hhere i).mp hi
          exact ⟨hocc, Or.inl (MapType.off_add (T := T.toMapType) hd hi), hpred⟩
        · exact ⟨hp, Or.inr hoff, hpred⟩
      · rintro ⟨hp, rfl | hoff, hpred⟩
        · obtain ⟨i, hi, heq⟩ := MapType.exists_add_of_off_eq (rfl : T.toMapType.off p = _)
          exact Or.inl ⟨i, (hhere i).mpr (heq ▸ ⟨⟨hi, hp⟩, hpred⟩), heq.symm⟩
        · refine Or.inr ⟨⟨hp, ?_⟩, hoff, hpred⟩
          rintro ⟨i, hi, rfl⟩
          rw [MapType.off_add (T := T.toMapType) hd ((hhere i).mp hi).1.1] at hoff
          exact hnot hoff

/-- What `erase_first_` does. -/
theorem Inv.eraseFirst_cases (h : Inv m) (key : κ) :
    (∃ p, (m.eraseFirst ideal key).1 = (true, some p, initSeq T key) ∧ m.table.Stores key p ∧
        Freed m (m.eraseFirst ideal key).2 [p]) ∨
      m.eraseFirst ideal key = ((false, none, initSeq T key), m) ∧ ¬ m.Contains key := by
  unfold eraseFirst
  dsimp only
  rcases h.firstMatch_cases key with ⟨i, hi, hs, hst⟩ | ⟨hn, hc⟩
  · rw [hi]
    exact Or.inl ⟨_, rfl, hst, h.freed hs hst.1⟩
  · rw [hn]
    exact Or.inr ⟨rfl, hc⟩

omit [Inhabited κ] in
theorem Shape.alignPos_eq (h : Shape m) {pos : ℕ} (hp : pos < m.capacity) :
    alignPos pos (notMask (T.kernelSize - 1)) = T.toMapType.off pos :=
  h.table.off_eq hp

theorem Shape.locateNext_eq_ok (h : Shape m) {B : BucketOps} {pos : ℕ} {seq : ProbeSeq} {key : κ}
    {r : ℕ × Option ℕ} (hr : m.locateNext B pos seq key = .ok r) :
    pos < m.capacity ∧ r = (T.toMapType.off pos, m.firstMatch (T.toMapType.off pos) key
      (B.hitsAbove (m.bucket (T.toMapType.off pos)) (keyState T key)
        (alignPos pos (T.kernelSize - 1)))) := by
  unfold locateNext at hr
  dsimp only at hr
  split_ifs at hr with hpos
  rw [h.alignPos_eq hpos] at hr
  exact ⟨hpos, (Except.ok.inj hr).symm⟩

/-- The slot that `find_next_` and `erase_next_` go to. -/
theorem Inv.locateNext_stores (h : Inv m) {pos : ℕ} {seq : ProbeSeq} {key : κ} {o i : ℕ}
    (hr : m.locateNext ideal pos seq key = .ok (o, some i)) :
    m.IsSlot o i ∧ m.table.Stores key (o + i) := by
  obtain ⟨hpos, heq⟩ := h.shape.locateNext_eq_ok hr
  obtain ⟨rfl, hi⟩ := Prod.mk.inj heq
  obtain ⟨j, hs, -⟩ := exists_isSlot hpos
  have hmem := List.mem_of_find?_eq_some hi.symm
  have hkey := List.find?_some hi.symm
  have hmatch := h.sound.mem_matches (i := i) (h.sound.offset_add_le hs.dvd hs.lt) key
  rw [← bucket_eq h.shape hs.dvd hs.lt] at hmatch
  obtain ⟨hlt, hst⟩ := hmatch.mp (List.mem_filter.mpr ⟨(List.mem_filter.mp hmem).1, hkey⟩)
  exact ⟨⟨hs.dvd, hs.lt, hlt⟩, hst⟩

/-- What `erase_next_` frees. -/
theorem Inv.eraseNext_cases (h : Inv m) {pos : ℕ} {seq : ProbeSeq} {key : κ}
    {r : (Bool × Option ℕ × ProbeSeq) × Cache T ν} (hr : m.eraseNext ideal pos seq key = .ok r) :
    (∃ p, r.1 = (true, some p, seq) ∧ m.table.Stores key p ∧ Freed m r.2 [p]) ∨
      r = ((false, none, seq), m) := by
  unfold eraseNext at hr
  split_ifs at hr
  · obtain ⟨⟨o, i⟩, hl, hr⟩ := bind_eq_ok.mp hr
    cases i with
    | some i =>
        obtain ⟨hs, hst⟩ := h.locateNext_stores hl
        obtain rfl := Except.ok.inj hr
        exact Or.inl ⟨_, rfl, hst, h.freed hs hst.1⟩
    | none => exact Or.inr (Except.ok.inj hr).symm
  · exact Or.inr (Except.ok.inj hr).symm

/-- What `find_next_` does. -/
theorem Inv.findNext_cases (h : Inv m) {pos : ℕ} {seq : ProbeSeq} {key : κ}
    {r : (Option ℕ × ProbeSeq) × Cache T ν} (hr : m.findNext ideal pos seq key = .ok r) :
    (∃ o i, r = ((some (o + i), seq), m.touch ideal o i) ∧ m.IsSlot o i ∧
        m.table.Stores key (o + i)) ∨ r = ((none, seq), m) := by
  unfold findNext at hr
  split_ifs at hr
  · obtain ⟨⟨o, i⟩, hl, hr⟩ := bind_eq_ok.mp hr
    cases i with
    | some i => exact Or.inl ⟨o, i, (Except.ok.inj hr).symm, h.locateNext_stores hl⟩
    | none => exact Or.inr (Except.ok.inj hr).symm
  · exact Or.inr (Except.ok.inj hr).symm

/-- What `erase_at_` frees. -/
theorem Inv.eraseAt_cases (h : Inv m) {pos : ℕ} {r : (Bool × ℕ) × Cache T ν}
    (hr : m.eraseAt pos = .ok r) :
    r.1 = (true, pos) ∧ m.table.Occupied pos ∧ Freed m r.2 [pos] ∨
      r = ((false, pos), m) ∧ ¬ m.table.Occupied pos := by
  unfold eraseAt at hr
  dsimp only at hr
  split_ifs at hr with hpos hst
  · obtain ⟨i, hs, heq⟩ := exists_isSlot hpos
    have hocc : m.table.Occupied pos := ⟨hpos, by
      rw [Map.containsAt, table_stateAt m hpos]
      exact hst⟩
    obtain rfl := Except.ok.inj hr
    refine Or.inl ⟨rfl, hocc, ?_⟩
    rw [heq] at hocc ⊢
    rw [posToPos2_add h.shape hs]
    exact h.freed hs hocc
  · refine Or.inr ⟨(Except.ok.inj hr).symm, fun hocc => hst ?_⟩
    rw [← Map.Occupied.isHash hocc, table_stateAt m hpos]
    rfl

/-- What `erase_if_` frees. -/
theorem Inv.freed_eraseIf (h : Inv m) (pred : ℕ → Bool) :
    ∃ l, Freed m (m.eraseIf ideal pred).2 l ∧ (m.eraseIf ideal pred).1 = l.length ∧
      ∀ p, p ∈ l ↔ m.table.Occupied p ∧ pred p = true := by
  obtain ⟨l, hl, hmem⟩ := h.freed_eraseIfLoop pred (offsets T.kernelSize m.capacity)
    (fun o ho => h.sound.mem_offsets.mp ho) (Map.offsets_nodup T.toMapType _)
  refine ⟨l, hl, ?_, fun p => (hmem p).trans ?_⟩
  · change (eraseIfLoop ideal pred _ m).numEmpty - m.numEmpty = _
    rw [hl.numEmpty]
    omega
  · refine ⟨fun hp => ⟨hp.1, hp.2.2⟩, fun hp => ⟨hp.1, ?_, hp.2⟩⟩
    exact h.sound.mem_offsets.mpr ⟨T.toMapType.dvd_off p,
      lt_of_le_of_lt (T.toMapType.off_le p) hp.1.1⟩

/-- What `erase_all_` frees. -/
theorem Inv.freed_eraseAll (h : Inv m) (key : κ) :
    ∃ l, Freed m (m.eraseAll ideal key).2 l ∧ (m.eraseAll ideal key).1 = l.length ∧
      ∀ p, p ∈ l ↔ m.table.Stores key p := by
  have hs := h.shape.isSlot_home key (kernelSize_pos T)
  have hfreed : Freed m (m.eraseAll ideal key).2 _ :=
    h.freed_resetSlots hs.dvd _ hs.lt ((List.nodup_range.filter _).filter _)
      fun i hi => ⟨((h.mem_matches key).mp hi).1, ((h.mem_matches key).mp hi).2.1⟩
  refine ⟨_, hfreed, ?_, fun p => ?_⟩
  · change (m.eraseAll ideal key).2.numEmpty - m.numEmpty = _
    rw [hfreed.numEmpty]
    omega
  · rw [List.mem_map]
    constructor
    · rintro ⟨i, hi, rfl⟩
      exact ((h.mem_matches key).mp hi).2
    · intro hp
      obtain ⟨i, hi, rfl⟩ := MapType.exists_add_of_off_eq (h.off_of_stores hp)
      exact ⟨i, (h.mem_matches key).mpr ⟨hi, hp⟩, rfl⟩

end Erase

end Cache

end Nvhm
