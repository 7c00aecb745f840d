import Mathlib.Data.List.Basic
import Mathlib.Data.List.GetD
import Mathlib.Logic.Function.Basic
import Mathlib.Data.List.Range
import Mathlib.Tactic.SplitIfs

/-! # Buffers

A buffer is a list of fixed length.  `readAt` loads a block, `writeAt` stores one, and `slots p`
lists the indices of a block whose entries satisfy `p`, in ascending order.  A stored block is
read back (`readAt_writeAt_self`), and a block next to it does not change
(`readAt_writeAt_of_disjoint`). -/

namespace Buffer
variable {α : Type*}

/-! ### Single entries -/

theorem getD_set (l : List α) (i j : ℕ) (a d : α) :
    (l.set i a).getD j d = if i = j ∧ j < l.length then a else l.getD j d := by
  simp only [List.getD_eq_getElem?_getD, List.getElem?_set]
  split_ifs with h1 h2 h3 h4 h5
  · rfl
  · omega
  · omega
  · subst h1
    rw [List.getElem?_eq_none (by omega)]
  · omega
  · rfl

theorem getD_set_self {l : List α} {i : ℕ} (hi : i < l.length) (a d : α) :
    (l.set i a).getD i d = a := by
  rw [getD_set, if_pos ⟨rfl, hi⟩]

theorem getD_set_ne {l : List α} {i j : ℕ} (h : i ≠ j) (a d : α) :
    (l.set i a).getD j d = l.getD j d := by
  rw [getD_set, if_neg (fun hc => h hc.1)]

theorem getD_set_eq_update {l : List α} {i : ℕ} (hi : i < l.length) (a d : α) :
    (fun j => (l.set i a).getD j d) = Function.update (fun j => l.getD j d) i a := by
  funext j
  by_cases hj : j = i
  · subst hj
    rw [Function.update_self, getD_set_self hi]
  · rw [Function.update_of_ne hj, getD_set_ne (Ne.symm hj)]

/-- Two buffers of one length with the same entries are equal. -/
theorem ext_getD {l l' : List α} (d : α) (hlen : l.length = l'.length)
    (h : ∀ i < l.length, l.getD i d = l'.getD i d) : l = l' := by
  apply List.ext_getElem hlen
  intro i hi hi'
  have := h i hi
  rwa [List.getD_eq_getElem _ _ hi, List.getD_eq_getElem _ _ hi'] at this

theorem getD_default {l : List α} {i : ℕ} (hi : i < l.length) (d d' : α) :
    l.getD i d = l.getD i d' := by
  rw [List.getD_eq_getElem _ _ hi, List.getD_eq_getElem _ _ hi]

theorem any_iff_getD {l : List α} {n : ℕ} (hn : l.length = n) (d : α) (p : α → Bool) :
    l.any p = true ↔ ∃ i < n, p (l.getD i d) = true := by
  rw [List.any_eq_true]
  constructor
  · rintro ⟨a, ha, hp⟩
    obtain ⟨i, hi, rfl⟩ := List.getElem_of_mem ha
    exact ⟨i, hn ▸ hi, by rwa [List.getD_eq_getElem _ _ hi]⟩
  · rintro ⟨i, hi, hp⟩
    rw [List.getD_eq_getElem _ _ (hn ▸ hi)] at hp
    exact ⟨_, List.getElem_mem _, hp⟩

/-- A buffer is the list of its entries. -/
theorem map_range_getD {l : List α} {n : ℕ} (hn : l.length = n) (d : α) :
    (List.range n).map (fun i => l.getD i d) = l := by
  refine ext_getD d (by simp [hn]) fun i hi => ?_
  rw [List.length_map, List.length_range] at hi
  simp [List.getD_eq_getElem?_getD, hi]

/-- A pass over the entries of a buffer. -/
theorem map_range_eq_map {β : Type*} {l : List α} {n : ℕ} (hn : l.length = n) (d : α) (f : α → β) :
    (List.range n).map (fun i => f (l.getD i d)) = l.map f := by
  conv_rhs => rw [← map_range_getD hn d, List.map_map]
  rfl

/-- A pass over the entries of two buffers. -/
theorem map_range_eq_zipWith {β γ : Type*} {l : List α} {l' : List β} {n : ℕ} (hn : l.length = n)
    (hn' : l'.length = n) (d : α) (d' : β) (f : α → β → γ) :
    (List.range n).map (fun i => f (l.getD i d) (l'.getD i d')) = List.zipWith f l l' := by
  conv_rhs => rw [← map_range_getD hn d, ← map_range_getD hn' d', List.zipWith_map]
  rw [List.zipWith_self]

/-! ### Blocks -/

/-- The block of `n` entries at `off`. -/
def readAt (l : List α) (off n : ℕ) : List α := (l.drop off).take n

/-- Overwrite the entries from `off` on. -/
def writeAt (l : List α) (off : ℕ) (b : List α) : List α :=
  l.take off ++ (b ++ l.drop (off + b.length))

theorem length_readAt {l : List α} {off n : ℕ} (h : off + n ≤ l.length) :
    (readAt l off n).length = n := by
  simp only [readAt, List.length_take, List.length_drop]
  omega

theorem length_writeAt {l : List α} {off : ℕ} {b : List α} (h : off + b.length ≤ l.length) :
    (writeAt l off b).length = l.length := by
  simp only [writeAt, List.length_append, List.length_take, List.length_drop]
  omega

theorem getElem?_readAt (l : List α) (off n i : ℕ) :
    (readAt l off n)[i]? = if i < n then l[off + i]? else none := by
  simp [readAt, List.getElem?_take, List.getElem?_drop]

theorem getElem?_writeAt {l : List α} {off : ℕ} (h : off ≤ l.length) (b : List α) (i : ℕ) :
    (writeAt l off b)[i]? =
      if i < off then l[i]? else if i < off + b.length then b[i - off]? else l[i]? := by
  have hlen : (l.take off).length = off := by
    rw [List.length_take]
    omega
  simp only [writeAt, List.getElem?_append, hlen, List.getElem?_take, List.getElem?_drop]
  split_ifs with h1 h2 h3 h4
  · rfl
  · rfl
  · omega
  · omega
  · congr 1
    omega

theorem getD_readAt (l : List α) (off n i : ℕ) (d : α) (hi : i < n) :
    (readAt l off n).getD i d = l.getD (off + i) d := by
  rw [List.getD_eq_getElem?_getD, getElem?_readAt, if_pos hi, List.getD_eq_getElem?_getD]

theorem getD_writeAt {l : List α} {off : ℕ} {b : List α} (h : off + b.length ≤ l.length) (i : ℕ)
    (d : α) : (writeAt l off b).getD i d =
      if off ≤ i ∧ i < off + b.length then b.getD (i - off) d else l.getD i d := by
  rw [List.getD_eq_getElem?_getD, getElem?_writeAt (by omega)]
  split_ifs with h1 h2 h3 h4
  · omega
  · exact (List.getD_eq_getElem?_getD).symm
  · exact (List.getD_eq_getElem?_getD).symm
  · omega
  · omega
  · exact (List.getD_eq_getElem?_getD).symm

theorem readAt_writeAt_self {l : List α} {off : ℕ} {b : List α} (h : off + b.length ≤ l.length) :
    readAt (writeAt l off b) off b.length = b := by
  apply List.ext_getElem?
  intro i
  rw [getElem?_readAt, getElem?_writeAt (by omega)]
  by_cases hi : i < b.length
  · rw [if_pos hi, if_neg (by omega), if_pos (by omega), Nat.add_sub_cancel_left]
  · rw [if_neg hi, List.getElem?_eq_none (by omega)]

theorem readAt_writeAt_of_disjoint {l : List α} {off off' n : ℕ} {b : List α}
    (h : off ≤ l.length) (hd : off' + n ≤ off ∨ off + b.length ≤ off') :
    readAt (writeAt l off b) off' n = readAt l off' n := by
  apply List.ext_getElem?
  intro i
  rw [getElem?_readAt, getElem?_readAt, getElem?_writeAt h]
  split_ifs <;> first | rfl | omega

theorem readAt_set_of_disjoint (l : List α) {off n pos : ℕ} (a : α)
    (hd : pos < off ∨ off + n ≤ pos) : readAt (l.set pos a) off n = readAt l off n := by
  apply List.ext_getElem?
  intro i
  rw [getElem?_readAt, getElem?_readAt]
  split_ifs with hi
  · rw [List.getElem?_set_ne (by omega)]
  · rfl

/-! ### Indices of a block -/

/-- The indices of the entries that satisfy `p`. -/
def slots (p : α → Bool) (b : List α) : List ℕ :=
  (List.range b.length).filter fun i => (b[i]?).any p

theorem mem_slots {p : α → Bool} {b : List α} {i : ℕ} :
    i ∈ slots p b ↔ ∃ h : i < b.length, p b[i] = true := by
  simp only [slots, List.mem_filter, List.mem_range]
  constructor
  · rintro ⟨h, hp⟩
    rw [List.getElem?_eq_getElem h] at hp
    exact ⟨h, hp⟩
  · rintro ⟨h, hp⟩
    rw [List.getElem?_eq_getElem h]
    exact ⟨h, hp⟩

theorem mem_slots_getD {p : α → Bool} {b : List α} {i : ℕ} (d : α) :
    i ∈ slots p b ↔ i < b.length ∧ p (b.getD i d) = true := by
  rw [mem_slots]
  constructor
  · rintro ⟨h, hp⟩
    exact ⟨h, by rwa [List.getD_eq_getElem _ _ h]⟩
  · rintro ⟨h, hp⟩
    exact ⟨h, by rwa [List.getD_eq_getElem _ _ h] at hp⟩

theorem slots_sorted (p : α → Bool) (b : List α) : (slots p b).Pairwise (· < ·) :=
  List.Pairwise.filter _ List.pairwise_lt_range

theorem slots_nodup (p : α → Bool) (b : List α) : (slots p b).Nodup :=
  (slots_sorted p b).imp fun h => Nat.ne_of_lt h

/-- The slots of a block, from its entries. -/
theorem slots_eq_filter {p : α → Bool} {b : List α} {n : ℕ} (hn : b.length = n) (d : α) :
    slots p b = (List.range n).filter fun i => p (b.getD i d) := by
  rw [slots, hn]
  refine List.filter_congr fun i hi => ?_
  have hlt : i < b.length := by
    rw [hn]
    exact List.mem_range.mp hi
  rw [List.getElem?_eq_getElem hlt, List.getD_eq_getElem _ _ hlt]
  rfl

/-- The first slot of a list of slots is the least one. -/
theorem head?_slots {p : α → Bool} {b : List α} {i : ℕ} (h : (slots p b).head? = some i) :
    (∃ hi : i < b.length, p b[i] = true) ∧ ∀ j ∈ slots p b, i ≤ j := by
  obtain ⟨t, ht⟩ : ∃ t, slots p b = i :: t := List.head?_eq_some_iff.mp h
  have hs := slots_sorted p b
  rw [ht] at hs
  refine ⟨mem_slots.mp (by rw [ht]; exact List.mem_cons_self), fun j hj => ?_⟩
  rw [ht] at hj
  rcases List.mem_cons.mp hj with rfl | hj
  · exact le_rfl
  · exact le_of_lt (List.rel_of_pairwise_cons hs hj)

end Buffer
