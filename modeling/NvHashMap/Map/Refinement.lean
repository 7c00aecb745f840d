import NvHashMap.Map.Run

/-! # A map without duplicates is a finite map

The abstract state says of every key whether it is stored, and which value was last assigned to
it; a key that was inserted has no value until one is assigned.  Positions mean nothing to it: a
call that takes one is given the key there.

`Refines a m` relates the abstract state to a map.  `Outcome.refines` is the step lemma, and
`map_refines` follows by induction over the run: along every run without scrubbing the map has its
invariant, refines the abstract state, and answers every call as that state says (`Answer`). -/

namespace Nvhm

open Buffer SlotCount

/-! ### The abstract map -/

/-- Per key: absent, stored, or stored with the value that was last assigned. -/
abbrev Abstract (κ ν : Type) := κ → Option (Option ν)

namespace Abstract
variable {κ ν : Type}

def put (Q : KeyType κ) (a : Abstract κ ν) (key : κ) (v : Option ν) : Abstract κ ν :=
  fun k => if Q.eq k key then some v else a k

open Classical in
/-- Remove the keys that satisfy `p`. -/
noncomputable def removeIf (a : Abstract κ ν) (p : κ → Prop) : Abstract κ ν :=
  fun k => if p k then none else a k

/-- Equal keys have the same entry. -/
def Respects (Q : KeyType κ) (a : Abstract κ ν) : Prop := ∀ k k', Q.eq k k' = true → a k = a k'

theorem Respects.put {Q : KeyType κ} {a : Abstract κ ν} (h : Respects Q a) (key : κ)
    (v : Option ν) : Respects Q (a.put Q key v) := by
  intro k k' hk
  rw [Abstract.put, Abstract.put, Q.eq_congr_left hk, h k k' hk]

theorem Respects.removeIf {Q : KeyType κ} {a : Abstract κ ν} (h : Respects Q a) {p : κ → Prop}
    (hp : ∀ k k', Q.eq k k' = true → (p k ↔ p k')) : Respects Q (a.removeIf p) := by
  intro k k' hk
  have hp' := hp k k' hk
  by_cases hk' : p k'
  · rw [Abstract.removeIf, Abstract.removeIf, if_pos (hp'.mpr hk'), if_pos hk']
  · rw [Abstract.removeIf, Abstract.removeIf, if_neg (hp'.not.mpr hk'), if_neg hk', h k k' hk]

theorem put_isSome {Q : KeyType κ} {a : Abstract κ ν} {key k : κ} {v : Option ν} :
    (a.put Q key v k).isSome = true ↔ Q.eq k key = true ∨ (a k).isSome = true := by
  rw [put]
  split_ifs with h <;> simp [h]

theorem removeIf_isSome {a : Abstract κ ν} {p : κ → Prop} {k : κ} :
    (a.removeIf p k).isSome = true ↔ (a k).isSome = true ∧ ¬ p k := by
  rw [removeIf]
  split_ifs with h <;> simp [h]

end Abstract

namespace Map
variable {κ ν : Type} {T : MapType κ} [Inhabited κ] [Inhabited ν]

/-! ### The entries that an erase leaves -/

omit [Inhabited ν] in
theorem Stores.congr {m : Map T ν} {k k' : κ} (hk : T.key.eq k k' = true) {p : ℕ} :
    m.Stores k p ↔ m.Stores k' p := by
  rw [Stores, Stores, T.key.eq_congr_right hk]

theorem mem_entries_of_erased {m m' : Map T ν} (h : Sound m) {l : List ℕ}
    (he : Erased m m' l) (hl : ∀ q ∈ l, m.Occupied q) {e : κ × ν × List Byte} :
    e ∈ m'.entries ↔ ∃ p, m.Occupied p ∧ p ∉ l ∧ m.entryAt p = e := by
  have hperm : (m.positions ideal).Perm (l ++ (m.positions ideal).filter (· ∉ l)) := by
    refine (List.perm_ext_iff_of_nodup h.positions_nodup ?_).mpr fun p => ?_
    · refine List.nodup_append'.mpr ⟨he.nodup, h.positions_nodup.filter _, fun p hp hq => ?_⟩
      simpa [hp] using (List.mem_filter.mp hq).2
    · rw [List.mem_append, List.mem_filter, h.mem_positions]
      by_cases hp : p ∈ l
      · simp [hp, hl p hp]
      · simp [hp]
  have hentries : m'.entries =
      (((m.positions ideal).filter (· ∉ l)).map m.entryAt : Multiset (κ × ν × List Byte)) := by
    have heq := he.entries_eq
    rw [h.entries_eq, Multiset.coe_eq_coe.mpr (hperm.map m.entryAt), List.map_append,
      ← Multiset.coe_add] at heq
    exact (Multiset.add_right_inj.mp heq).symm
  rw [hentries, Multiset.mem_coe, List.mem_map]
  constructor
  · rintro ⟨p, hp, rfl⟩
    obtain ⟨hp, hn⟩ := List.mem_filter.mp hp
    exact ⟨p, h.mem_positions.mp hp, by simpa using hn, rfl⟩
  · rintro ⟨p, hp, hn, rfl⟩
    exact ⟨p, List.mem_filter.mpr ⟨h.mem_positions.mpr hp, by simpa using hn⟩, rfl⟩

theorem contains_of_erased {m m' : Map T ν} (h : Sound m) {l : List ℕ}
    (he : Erased m m' l) (hl : ∀ q ∈ l, m.Occupied q) {key : κ} :
    m'.Contains key ↔ ∃ p, m.Stores key p ∧ p ∉ l := by
  simp only [Contains, mem_entries_of_erased h he hl]
  constructor
  · rintro ⟨_, ⟨p, hp, hn, rfl⟩, heq⟩
    exact ⟨p, ⟨hp, heq⟩, hn⟩
  · rintro ⟨p, ⟨hp, heq⟩, hn⟩
    exact ⟨_, ⟨p, hp, hn, rfl⟩, heq⟩

/-! ### Refinement -/

/-- The map holds the keys of the abstract state, with the values that were assigned. -/
structure Refines (a : Abstract κ ν) (m : Map T ν) : Prop where
  respects : a.Respects T.key
  stored : ∀ k, (a k).isSome = true ↔ m.Contains k
  value : ∀ e ∈ m.entries, ∀ v, a e.1 = some (some v) → e.2.1 = v

open Classical in
/-- What a call does to the abstract state. -/
noncomputable def abstractStep (m : Map T ν) (a : Abstract κ ν) : Op κ ν → Abstract κ ν
  | .insert key => if (a key).isSome then a else a.put T.key key none
  | .eraseFirst key => a.removeIf fun k => T.key.eq k key
  | .eraseAll key => a.removeIf fun k => T.key.eq k key
  | .eraseAt pos => a.removeIf fun k => m.Stores k pos
  | .eraseIf pred => a.removeIf fun k => ∃ p, m.Stores k p ∧ pred p = true
  | .clear => fun _ => none
  | .clearTo _ => fun _ => none
  | .setValueAt pos value => if m.Occupied pos then a.put T.key (m.keyAt pos) (some value) else a
  | _ => a

/-- What a call returns, in terms of the abstract state. -/
def Answer (m : Map T ν) (a : Abstract κ ν) : Op κ ν → Result → Map T ν → Prop
  | .insert key, .inserted pos op _, m' => m'.Stores key pos ∧
      (op = .found ↔ (a key).isSome = true) ∧ (op = .insert ↔ a key = none)
  | .findFirst key, .found pos _, _ =>
      match pos with
      | some p => m.Stores key p ∧ (a key).isSome = true ∧
          ∀ v, a key = some (some v) → m.valueAt p = v
      | none => a key = none
  | .findNext _ _ _, .found pos _, _ => pos = none
  | .findIf pred, .position pos, _ =>
      match pos with
      | some p => m.Occupied p ∧ pred p = true
      | none => ∀ p, m.Occupied p → pred p = false
  | .forEach, .positions l, _ => l.Nodup ∧ ∀ p, p ∈ l ↔ m.Occupied p
  | .forEachKey key, .visited l, _ => l.length = (if (a key).isSome then 1 else 0) ∧
      ∀ p, p ∈ l.map Prod.fst ↔ m.Stores key p
  | .count key, .number n, _ => n = if (a key).isSome then 1 else 0
  | .eraseFirst key, .erased found _ _, _ => found = (a key).isSome
  | .eraseNext _ _ _, .erased found _ _, _ => found = false
  | .eraseAt pos, .erasedAt found _, _ => found = true ↔ m.Occupied pos
  | .eraseIf pred, .number n, _ => n = ((m.positions ideal).filter pred).length
  | .eraseAll key, .number n, _ => n = if (a key).isSome then 1 else 0
  | .findFirst _, _, _ | .insert _, _, _ | .findNext _ _ _, _, _ | .findIf _, _, _ => False
  | .forEach, _, _ | .forEachKey _, _, _ | .count _, _, _ | .eraseFirst _, _, _ => False
  | .eraseNext _ _ _, _, _ | .eraseAt _, _, _ | .eraseIf _, _, _ | .eraseAll _, _, _ => False
  | _, _, _ => True

section Refines
variable {a : Abstract κ ν} {m m' : Map T ν}

theorem Refines.stores_iff (h : Refines a m) (key : κ) :
    (a key).isSome = true ↔ ∃ p, m.Stores key p := (h.stored key).trans contains_iff

theorem Refines.value_of_stores (h : Refines a m) {key : κ} {p : ℕ} (hp : m.Stores key p) {v : ν}
    (hv : a key = some (some v)) : m.valueAt p = v := by
  refine h.value (m.entryAt p) (mem_entries.mpr ⟨p, hp.1, rfl⟩) v ?_
  exact (h.respects _ _ hp.2).trans hv

/-- Only the entries count. -/
theorem Refines.of_entries_eq (h : Refines a m) (he : m'.entries = m.entries) : Refines a m' where
  respects := h.respects
  stored k := (h.stored k).trans (contains_congr he k).symm
  value := by
    rw [he]
    exact h.value

theorem Refines.of_empty (he : m.entries = 0) : Refines (fun _ => none) m where
  respects _ _ _ := rfl
  stored k := by simp [Contains, he]
  value := by simp [he]

/-- The first entry of a key. -/
theorem Refines.put_none (h : Refines a m) {key : κ} {e : κ × ν × List Byte}
    (hk : e.1 = key) (he : m'.entries = e ::ₘ m.entries) :
    Refines (a.put T.key key none) m' where
  respects := h.respects.put key none
  stored k := by
    rw [Abstract.put_isSome, h.stored, Contains, Contains, he]
    simp only [Multiset.mem_cons, exists_eq_or_imp, hk, T.key.eq_comm key k]
  value := by
    intro e' he' v hv
    rw [he, Multiset.mem_cons] at he'
    rw [Abstract.put] at hv
    split_ifs at hv with hek
    · cases hv
    · rcases he' with rfl | he'
      · exact absurd (hk ▸ T.key.eq_refl _) hek
      · exact h.value e' he' v hv

theorem Refines.erase (h : Refines a m) (hm : Sound m) {l : List ℕ} (he : Erased m m' l)
    (hl : ∀ q ∈ l, m.Occupied q) {p : κ → Prop}
    (hp : ∀ k, m.Contains k → (p k ↔ ∀ q, m.Stores k q → q ∈ l))
    (hcongr : ∀ k k', T.key.eq k k' = true → (p k ↔ p k')) : Refines (a.removeIf p) m' where
  respects := h.respects.removeIf hcongr
  stored k := by
    rw [Abstract.removeIf_isSome, h.stored, contains_of_erased hm he hl]
    constructor
    · rintro ⟨hc, hn⟩
      rw [hp k hc] at hn
      push Not at hn
      exact hn
    · rintro ⟨q, hq, hn⟩
      have hc : m.Contains k := contains_iff.mpr ⟨q, hq⟩
      exact ⟨hc, fun hpk => hn ((hp k hc).mp hpk q hq)⟩
  value := by
    intro e hmem v hv
    obtain ⟨q, hq, -, rfl⟩ := (mem_entries_of_erased hm he hl).mp hmem
    rw [Abstract.removeIf] at hv
    split_ifs at hv
    exact h.value _ (mem_entries.mpr ⟨q, hq, rfl⟩) v hv

/-- Blobs do not count. -/
theorem Refines.of_slots (h : Refines a m) (ho : ∀ p, m'.Occupied p ↔ m.Occupied p)
    (hk : m'.keyAt = m.keyAt) (hv : m'.valueAt = m.valueAt) : Refines a m' where
  respects := h.respects
  stored k := by
    rw [h.stored, contains_iff, contains_iff]
    simp only [Stores, ho, hk]
  value := by
    intro e he v hav
    obtain ⟨p, hp, rfl⟩ := mem_entries.mp he
    change a (m'.keyAt p) = _ at hav
    change m'.valueAt p = v
    rw [hk] at hav
    rw [hv]
    exact h.value _ (mem_entries.mpr ⟨p, (ho p).mp hp, rfl⟩) v hav

omit [Inhabited κ] in
theorem setValue_valueAt (h : Shape m) {pos : ℕ} (hp : pos < m.capacity) (value : ν) :
    ({ m with values := m.values.set pos value } : Map T ν).valueAt =
      Function.update m.valueAt pos value :=
  getD_set_eq_update (by rw [h.values_length]; exact hp) _ _

/-- Assigning a value. -/
theorem Refines.setValue (h : Refines a m) (hm : Sound m) (hu : m.Unique) {pos : ℕ}
    (hp : m.Occupied pos) (value : ν) : Refines (a.put T.key (m.keyAt pos) (some value))
      { m with values := m.values.set pos value } where
  respects := h.respects.put _ _
  stored k := by
    rw [Abstract.put_isSome, h.stored, contains_iff, contains_iff]
    change _ ↔ ∃ p, m.Stores k p
    refine ⟨fun hk => hk.elim (fun heq => ⟨pos, hp, T.key.eq_symm heq⟩) id, Or.inr⟩
  value := by
    intro e he v hav
    obtain ⟨p, ho, rfl⟩ := mem_entries.mp he
    change a.put T.key (m.keyAt pos) (some value) (m.keyAt p) = _ at hav
    change ({ m with values := m.values.set pos value } : Map T ν).valueAt p = v
    rw [setValue_valueAt hm.toShape hp.1]
    rw [Abstract.put] at hav
    split_ifs at hav with heq
    · obtain rfl := hu p pos ho hp heq
      rw [Function.update_self]
      exact Option.some.inj (Option.some.inj hav)
    · have hne : p ≠ pos := by
        rintro rfl
        exact heq (T.key.eq_refl _)
      rw [Function.update_of_ne hne]
      exact h.value _ (mem_entries.mpr ⟨p, ho, rfl⟩) v hav

/-- `insert_`, when the key is stored and when it is not. -/
theorem Refines.insert (h : Refines a m) {key : κ} {pos : ℕ} {op : InsertOp} {q : ProbeSeq}
    (hst : m'.Stores key pos)
    (hc : (op = .found ∧ T.duplicates = false ∧ m'.entries = m.entries) ∨
      (op = .insert ∧ (T.duplicates = false → ¬ m.Contains key) ∧ m'.keyAt pos = key ∧
        m'.entries = m'.entryAt pos ::ₘ m.entries)) (hd : T.duplicates = false) :
    Refines (abstractStep m a (.insert key)) m' ∧
      Answer m a (.insert key) (.inserted pos op q) m' := by
  rcases hc with ⟨rfl, -, he⟩ | ⟨rfl, hno, hk, he⟩
  · have hsome : (a key).isSome = true := by
      rw [h.stored, ← contains_congr he]
      exact contains_iff.mpr ⟨pos, hst⟩
    rw [abstractStep, if_pos hsome]
    refine ⟨h.of_entries_eq he, hst, iff_of_true rfl hsome, iff_of_false (by decide) ?_⟩
    rw [← Option.not_isSome_iff_eq_none]
    exact not_not.mpr hsome
  · have hnone : ¬ (a key).isSome = true := by
      rw [h.stored]
      exact hno hd
    rw [abstractStep, if_neg hnone]
    exact ⟨h.put_none hk he, hst, iff_of_false (by decide) hnone,
      iff_of_true rfl (Option.not_isSome_iff_eq_none.mp hnone)⟩

/-- An erase that frees the slots of one key. -/
theorem Refines.erase_key (h : Refines a m) (hm : Sound m) {l : List ℕ} (he : Erased m m' l)
    {key : κ} (hl : ∀ q, q ∈ l ↔ m.Stores key q) :
    Refines (a.removeIf fun k => T.key.eq k key = true) m' := by
  refine h.erase hm he (fun q hq => ((hl q).mp hq).1) (fun k hk => ?_) fun k k' hk => by
    rw [T.key.eq_congr_left hk]
  constructor
  · intro heq q hq
    exact (hl q).mpr ((Stores.congr heq).mp hq)
  · intro hall
    obtain ⟨q, hq⟩ := contains_iff.mp hk
    exact T.key.eq_trans (T.key.eq_symm hq.2) ((hl q).mp (hall q hq)).2

theorem Inv.erased_nil (h : Inv m) : Erased m m [] :=
  ⟨h, rfl, List.nodup_nil, by simp⟩

/-- The slots of a key, without duplicates. -/
theorem length_of_stores (hm : m.Unique) (h : Refines a m) {key : κ} {l : List ℕ} (hn : l.Nodup)
    (hl : ∀ p, p ∈ l ↔ m.Stores key p) : l.length = if (a key).isSome then 1 else 0 := by
  match l, hn, hl with
  | [], _, hl =>
      rw [if_neg]
      · rfl
      · rw [h.stores_iff]
        rintro ⟨p, hp⟩
        cases (hl p).mpr hp
  | [p], _, hl =>
      rw [if_pos ((h.stores_iff key).mpr ⟨p, (hl p).mp (List.mem_singleton.mpr rfl)⟩)]
      rfl
  | p :: q :: l, hn, hl =>
      have hp := (hl p).mp (by simp)
      have hq := (hl q).mp (by simp)
      have heq := hm p q hp.1 hq.1 (T.key.eq_trans hp.2 (T.key.eq_symm hq.2))
      simp [heq] at hn

/-- The step lemma. -/
theorem Outcome.refines (hd : T.duplicates = false) (hm : Inv m) (h : Refines a m) {op : Op κ ν}
    {r : Result} (ho : m.Outcome op r m') :
    Refines (abstractStep m a op) m' ∧ Answer m a op r m' := by
  have hu : m.Unique := hm.unique hd
  have same : m' = m → Refines a m' := by
    rintro rfl
    exact h
  cases op with
  | insert key => cases r with
    | inserted pos op q =>
        obtain ⟨-, hst, -, hc⟩ := ho
        exact h.insert hst hc hd
    | _ => exact ho.elim
  | findFirst key => cases r with
    | found pos q =>
        obtain ⟨rfl, hl⟩ := ho
        refine ⟨h, ?_⟩
        cases pos with
        | some p =>
            have hst : m'.Stores key p := hl.stores
            exact ⟨hst, (h.stores_iff key).mpr ⟨p, hst⟩, fun v hv => h.value_of_stores hst hv⟩
        | none =>
            change a key = none
            rw [← Option.not_isSome_iff_eq_none, h.stores_iff]
            rintro ⟨p, hp⟩
            exact hl.not_stores hm.toTable p hp
    | _ => exact ho.elim
  | findNext pos seq key => cases r with
    | found pos q => exact ⟨same ho.1, ho.2 hd⟩
    | _ => exact ho.elim
  | findIf pred => cases r with
    | position pos => exact ⟨same ho.1, ho.2⟩
    | _ => exact ho.elim
  | forEach => cases r with
    | positions l => exact ⟨same ho.1, ho.2⟩
    | _ => exact ho.elim
  | forEachKey key => cases r with
    | visited l =>
        obtain ⟨heq, j, hv⟩ := ho
        refine ⟨same heq, ?_, fun p => hv.mem_iff hm p⟩
        rw [← List.length_map (f := Prod.fst)]
        exact length_of_stores hu h (hv.nodup hm) fun p => hv.mem_iff hm p
    | _ => exact ho.elim
  | count key => cases r with
    | number n =>
        obtain ⟨heq, l, j, hv, rfl⟩ := ho
        refine ⟨same heq, ?_⟩
        have hlen := length_of_stores hu h (hv.nodup hm) fun p => hv.mem_iff hm p
        rw [List.length_map] at hlen
        simp only [Answer, hlen]
        split_ifs <;> rfl
    | _ => exact ho.elim
  | eraseFirst key => cases r with
    | erased found pos q =>
        rcases ho with ⟨rfl, p, hp, he⟩ | ⟨rfl, hno, rfl⟩
        · refine ⟨h.erase_key hm.toSound he (fun q => ?_), ((h.stores_iff key).mpr ⟨p, hp⟩).symm⟩
          rw [List.mem_singleton]
          refine ⟨fun hq => hq ▸ hp, fun hq => ?_⟩
          exact hu q p hq.1 hp.1 (T.key.eq_trans hq.2 (T.key.eq_symm hp.2))
        · have hnone : (a key).isSome = false := by
            rw [Bool.eq_false_iff, ne_eq, h.stored]
            exact hno
          refine ⟨h.erase_key hm.toSound hm.erased_nil fun q => ?_, hnone.symm⟩
          simp only [List.not_mem_nil, false_iff]
          exact fun hq => hno (contains_iff.mpr ⟨q, hq⟩)
    | _ => exact ho.elim
  | eraseNext pos seq key => cases r with
    | erased found pos q =>
        rcases ho with ⟨-, hd', -⟩ | ⟨rfl, heq⟩
        · rw [hd] at hd'
          cases hd'
        · exact ⟨same heq, rfl⟩
    | _ => exact ho.elim
  | eraseAt pos => cases r with
    | erasedAt found r =>
        have hstores : ∀ {l : List ℕ} {k : κ}, (∀ q, q ∈ l ↔ m.Occupied q ∧ q = pos) →
            m.Contains k → (m.Stores k pos ↔ ∀ q, m.Stores k q → q ∈ l) := by
          intro l k hl hk
          constructor
          · intro hp q hq
            exact (hl q).mpr ⟨hq.1, hu q pos hq.1 hp.1 (T.key.eq_trans hq.2 (T.key.eq_symm hp.2))⟩
          · intro hall
            obtain ⟨q, hq⟩ := contains_iff.mp hk
            exact ((hl q).mp (hall q hq)).2 ▸ hq
        have hcongr : ∀ k k', T.key.eq k k' = true → (m.Stores k pos ↔ m.Stores k' pos) :=
          fun k k' hk => Stores.congr hk
        rcases ho with ⟨rfl, hp, he⟩ | ⟨rfl, hp, rfl⟩
        · have hl : ∀ q, q ∈ [pos] ↔ m.Occupied q ∧ q = pos := by
            intro q
            rw [List.mem_singleton]
            exact ⟨fun hq => ⟨hq ▸ hp, hq⟩, fun hq => hq.2⟩
          exact ⟨h.erase hm.toSound he (fun q hq => ((hl q).mp hq).1) (fun k => hstores hl) hcongr,
            iff_of_true rfl hp⟩
        · have hl : ∀ q, q ∈ ([] : List ℕ) ↔ m'.Occupied q ∧ q = pos := by
            intro q
            simp only [List.not_mem_nil, false_iff]
            exact fun hq => hp (hq.2 ▸ hq.1)
          exact ⟨h.erase hm.toSound hm.erased_nil (by simp) (fun k => hstores hl) hcongr,
            iff_of_false Bool.false_ne_true hp⟩
    | _ => exact ho.elim
  | eraseIf pred => cases r with
    | number n =>
        obtain ⟨l, rfl, he, hl⟩ := ho
        refine ⟨h.erase hm.toSound he (fun q hq => ((hl q).mp hq).1) (fun k hk => ?_)
          (fun k k' hk => by simp only [Stores.congr hk]), ?_⟩
        · constructor
          · rintro ⟨p, hp, hpred⟩ q hq
            obtain rfl := hu p q hp.1 hq.1 (T.key.eq_trans hp.2 (T.key.eq_symm hq.2))
            exact (hl p).mpr ⟨hp.1, hpred⟩
          · intro hall
            obtain ⟨q, hq⟩ := contains_iff.mp hk
            exact ⟨q, hq, ((hl q).mp (hall q hq)).2⟩
        · refine congrArg _ (List.Perm.length_eq ?_)
          refine (List.perm_ext_iff_of_nodup he.nodup (hm.positions_nodup.filter _)).mpr fun p => ?_
          rw [hl, List.mem_filter, hm.mem_positions]
    | _ => exact ho.elim
  | eraseAll key => cases r with
    | number n =>
        obtain ⟨l, rfl, he, hl⟩ := ho
        refine ⟨h.erase_key hm.toSound he hl, ?_⟩
        simp only [Answer, length_of_stores hu h he.nodup hl]
        split_ifs <;> rfl
    | _ => exact ho.elim
  | grow => cases r with
    | number n => exact ⟨h.of_entries_eq (Tidied.entries_eq ho), trivial⟩
    | _ => exact ho.elim
  | shrink => cases r with
    | number n => exact ⟨h.of_entries_eq (Tidied.entries_eq ho), trivial⟩
    | _ => exact ho.elim
  | resize n => cases r with
    | number n => exact ⟨h.of_entries_eq (Tidied.entries_eq ho), trivial⟩
    | _ => exact ho.elim
  | reserve n => cases r with
    | number n => exact ⟨h.of_entries_eq (Tidied.entries_eq ho), trivial⟩
    | _ => exact ho.elim
  | scrub => cases r with
    | number n => exact ⟨h.of_entries_eq (Tidied.entries_eq ho), trivial⟩
    | _ => exact ho.elim
  | clear => cases r with
    | number n => exact ⟨Refines.of_empty (Cleared.entries_eq ho), trivial⟩
    | _ => exact ho.elim
  | clearTo n => cases r with
    | number n => exact ⟨Refines.of_empty (Cleared.entries_eq ho), trivial⟩
    | _ => exact ho.elim
  | setValueAt pos value => cases r with
    | done =>
        obtain ⟨hp, rfl⟩ := ho
        rw [abstractStep, if_pos hp]
        exact ⟨h.setValue hm.toSound hu hp value, trivial⟩
    | _ => exact ho.elim
  | setBlobAt pos src => cases r with
    | done =>
        obtain ⟨hp, hlen, rfl⟩ := ho
        exact ⟨h.of_slots (fun _ => Iff.rfl) rfl rfl, trivial⟩
    | _ => exact ho.elim

end Refines

/-! ### Runs -/

section Runs
variable (B : Kernel T.kernelSize) (conf : Conf T.conf)

/-- The runs of a map, each with the abstract state that its calls describe. -/
noncomputable def trackedRuns (P : Map T ν → Op κ ν → Prop) : System (Map T ν × Abstract κ ν) where
  init s := Map.new T ν conf = .ok s.1 ∧ s.2 = fun _ => none
  next s s' := ∃ op r, P s.1 op ∧ s.1.step B.ops op = .ok (r, s'.1) ∧
    s'.2 = abstractStep s.1 s.2 op

/-- Along a run that scrubs nothing, or only tables that come out of the scrub with their entries,
the map refines its abstract state. -/
theorem refines_of_reachable (hd : T.duplicates = false) (hS : T.seq.isUnbounded = true)
    {P : Map T ν → Op κ ν → Prop} (hP : ∀ m op, Inv m → P m op → ScrubsOk B m op)
    {s : Map T ν × Abstract κ ν} (hs : (trackedRuns B conf P).Reachable s) :
    Inv s.1 ∧ Refines s.2 s.1 := by
  refine hs.invariant (I := fun s => Inv s.1 ∧ Refines s.2 s.1) (fun s hi => ?_)
    fun s s' hi hn => ?_
  · obtain ⟨hm, ha⟩ := hi
    obtain ⟨hinv, hempty, -⟩ := new_spec hm
    rw [ha]
    exact ⟨hinv, Refines.of_empty hempty⟩
  · obtain ⟨op, r, hop, hr, ha⟩ := hn
    have ho := outcome_of_step B hS hi.1 (hP _ op hi.1 hop) hr
    rw [ha]
    exact ⟨(ho.inv hi.1).1, (ho.refines hd hi.1 hi.2).1⟩

/-- Every run has an abstract state. -/
theorem tracked_of_reachable {P : Map T ν → Op κ ν → Prop} {m : Map T ν}
    (hm : (runs B conf P).Reachable m) : ∃ a, (trackedRuns B conf P).Reachable (m, a) := by
  have hsim : System.Simulation (runs B conf P) (trackedRuns B conf P) fun m s => s.1 = m := by
    refine ⟨fun m hm => ⟨(m, fun _ => none), ⟨hm, rfl⟩, rfl⟩, ?_⟩
    rintro m m' ⟨m₁, a⟩ rfl ⟨op, r, hop, hr⟩
    exact ⟨(m', abstractStep _ a op), ⟨op, r, hop, hr, rfl⟩, rfl⟩
  obtain ⟨⟨m₁, a⟩, ha, rfl⟩ := hsim.reachable hm
  exact ⟨a, ha⟩

/-- A map without duplicates keeps its invariant along every run without scrubbing, it refines a
finite map, and it answers every call as the finite map says. -/
theorem map_refines (hd : T.duplicates = false) (hS : T.seq.isUnbounded = true) {m : Map T ν}
    {a : Abstract κ ν} (hm : (trackedRuns B conf (NoScrub B)).Reachable (m, a)) :
    Inv m ∧ Refines a m ∧ ∀ op : Op κ ν, NoScrub B m op →
      (∃ e, m.step B.ops op = .error e ∧ op.Rejects m e) ∨
        ∃ r m', m.step B.ops op = .ok (r, m') ∧ Answer m a op r m' := by
  obtain ⟨hinv, href⟩ := refines_of_reachable B conf hd hS (fun _ _ _ => NoScrub.scrubsOk B) hm
  refine ⟨hinv, href, fun op hop => ?_⟩
  rcases step_outcome B hS hinv hop.scrubsOk with he | ⟨r, m', hr, ho⟩
  · exact Or.inl he
  · exact Or.inr ⟨r, m', hr, (ho.refines hd hinv href).2⟩

end Runs

/-- A run that leaves a tombstone and grows. -/
theorem map_refines_words : ∃ rs m a,
    wordExec 1 false [.insert 0, .insert 8, .insert 16, .eraseFirst 0, .insert 1, .setValueAt 3 5,
        .grow] = .ok (rs, m) ∧ m.capacity = 16 ∧ Inv m ∧ Refines a m ∧
      ∀ op : Op (Fin (2 ^ 64)) ℕ, NoScrub (wordKernel 1 false) m op →
        (∃ e, m.step (wordKernel 1 false).ops op = .error e ∧ op.Rejects m e) ∨
          ∃ r m', m.step (wordKernel 1 false).ops op = .ok (r, m') ∧ Answer m a op r m' := by
  obtain ⟨rs, m, hr, -, hcap⟩ := exists_wordExec 1 false
    [.insert 0, .insert 8, .insert 16, .eraseFirst 0, .insert 1, .setValueAt 3 5, .grow]
    (fun r => r.2.capacity) 16 (by decide +kernel)
  obtain ⟨a, ha⟩ := tracked_of_reachable _ _
    (reachable_of_wordExec 1 false (by simp [Op.isScrub]) hr)
  exact ⟨rs, m, a, hr, hcap, map_refines (wordKernel 1 false) (wordConf 1 false) rfl rfl ha⟩

end Map

end Nvhm
