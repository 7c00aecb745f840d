import NvHashMap.Sharded

/-! # Iterating over a sharded container

The places of an iterator are the entries of all shards, the positions before the first shard and
those behind the last one.  `++` and `--` go from each place to its neighbours (`steps`): a loop
over the shards stops at the least place from an end on (`nextLoop_spec`), or at the greatest up
to a begin (`prevLoop_spec`). -/

namespace Nvhm

/-! ### Places -/

namespace Outer
variable {o : Outer} {l : List ℕ}

/-- No place of the table lies before `begin`. -/
theorem Lists.begin_le_of_place (h : Lists o l) {p : ℤ} (hp : p ∈ o.Places) (h0 : 0 ≤ p) :
    o.begin_ l.head? ≤ p := by
  rcases lt_or_ge p o.end_ with hlt | hge
  · have hc := hp h0 hlt
    unfold end_ at hlt
    have hle := h.begin_le_of_mem ((h.mem_iff p.toNat).mpr ⟨by omega, hc⟩)
    rwa [Int.toNat_of_nonneg h0] at hle
  · exact h.begin_le.trans hge

theorem begin_nonneg (o : Outer) (front : Option ℕ) : 0 ≤ o.begin_ front := by
  unfold begin_
  split <;> exact Int.natCast_nonneg _

theorem isRight_iff {p : ℤ} : o.isRight p = true ↔ o.end_ ≤ p := decide_eq_true_iff

theorem not_isRight_iff {p : ℤ} : o.isRight p = false ↔ p < o.end_ := by
  rw [← not_iff_not, Bool.not_eq_false, isRight_iff, not_lt]

theorem isLeft_iff {p : ℤ} : isLeft p = true ↔ p < 0 := decide_eq_true_iff

end Outer

namespace Shards

/-- The shards have the entries `l`, and every `begin` is that of its shard. -/
structure Lists (S : Shards) (l : ℕ → List ℕ) : Prop where
  num_pos : 0 < S.num
  lists : ∀ i < S.num, Outer.Lists (S.outer i) (l i)
  begin_eq : ∀ i < S.num, S.begin_ i = (S.outer i).begin_ (l i).head?

/-- A place of a shard; only the first shard has places before its table, and only the last one
has places behind it. -/
structure IsPlace (S : Shards) (i : ℕ) (p : ℤ) : Prop where
  lt : i < S.num
  mem : p ∈ (S.outer i).Places
  left : p < 0 → i = 0
  right : (S.outer i).end_ ≤ p → i = S.maxShardIdx

def Places (S : Shards) : Set Iter := {x | S.IsPlace (ofLex x).1 (ofLex x).2}

variable {S : Shards} {l : ℕ → List ℕ}

theorem lt_iff {i j : ℕ} {p q : ℤ} :
    (toLex (i, p) : Iter) < toLex (j, q) ↔ i < j ∨ i = j ∧ p < q := Prod.Lex.toLex_lt_toLex

theorem le_iff {i j : ℕ} {p q : ℤ} :
    (toLex (i, p) : Iter) ≤ toLex (j, q) ↔ i < j ∨ i = j ∧ p ≤ q := Prod.Lex.toLex_le_toLex

namespace Lists
variable (h : S.Lists l)
include h

theorem lt_num {i : ℕ} (hi : i ≤ S.maxShardIdx) : i < S.num := by
  have := h.num_pos
  unfold maxShardIdx at hi
  omega

theorem end_mem : S.end_ ∈ S.Places where
  lt := h.lt_num le_rfl
  mem := (S.outer _).end_mem
  left hneg := absurd hneg (not_lt.mpr (Int.natCast_nonneg _))
  right _ := rfl

/-! ### Hops -/

/-- From the end of a shard on, the loop of `++` stops at the least place. -/
theorem nextLoop_spec {n : ℕ} : ∀ {i : ℕ} {p : ℤ}, i + n = S.maxShardIdx →
    p ∈ (S.outer i).Places → (S.outer i).end_ ≤ p →
    S.nextLoop n i p ∈ S.Places ∧ toLex (i, p) ≤ S.nextLoop n i p ∧
      ∀ x ∈ S.Places, toLex (i, p) ≤ x → S.nextLoop n i p ≤ x := by
  induction n with
  | zero =>
      intro i p hi hp hend
      have hcap : 0 ≤ (S.outer i).end_ := Int.natCast_nonneg _
      have hlt : i < S.num := h.lt_num (by omega)
      refine ⟨⟨hlt, hp, fun hneg => ?_, fun _ => hi⟩, le_rfl, fun _ _ hx => hx⟩
      exact absurd (hcap.trans hend) (not_le.mpr hneg)
  | succ n ih =>
      intro i p hi hp hend
      have hlt : i + 1 < S.num := h.lt_num (by omega)
      have hlist := h.lists _ hlt
      have hbegin := hlist.begin_mem
      rw [← h.begin_eq _ hlt] at hbegin
      have hnonneg : 0 ≤ S.begin_ (i + 1) := by
        rw [h.begin_eq _ hlt]
        exact Outer.begin_nonneg _ _
      -- a place from the end of shard `i` on is not before `begin` of the next shard
      have hfrom : ∀ x ∈ S.Places, toLex (i, p) ≤ x → toLex (i + 1, S.begin_ (i + 1)) ≤ x := by
        rintro ⟨j, q⟩ hx hle
        have hplace : S.IsPlace j q := hx
        rcases le_iff.mp hle with hij | ⟨rfl, hpq⟩
        · refine le_iff.mpr ?_
          rcases Nat.lt_or_ge (i + 1) j with hj | hj
          · exact Or.inl hj
          · obtain rfl : j = i + 1 := by omega
            have h0 : 0 ≤ q := by
              by_contra hneg
              exact absurd (hplace.left (not_le.mp hneg)) (Nat.succ_ne_zero i)
            rw [h.begin_eq _ hlt]
            exact Or.inr ⟨rfl, hlist.begin_le_of_place hplace.mem h0⟩
        · have hmax := hplace.right (hend.trans hpq)
          omega
      have hstep : (toLex (i, p) : Iter) ≤ toLex (i + 1, S.begin_ (i + 1)) :=
        le_iff.mpr (Or.inl (Nat.lt_succ_self i))
      unfold nextLoop
      dsimp only
      split_ifs with hr
      · obtain ⟨hmem, hle, hleast⟩ := ih (i := i + 1) (by omega) hbegin (Outer.isRight_iff.mp hr)
        exact ⟨hmem, hstep.trans hle, fun x hx hix => hleast x hx (hfrom x hx hix)⟩
      · have hr' := Outer.not_isRight_iff.mp (Bool.eq_false_iff.mpr hr)
        exact ⟨⟨hlt, hbegin, fun hneg => absurd hneg (not_lt.mpr hnonneg),
          fun hge => absurd hge (not_le.mpr hr')⟩, hstep, hfrom⟩

omit h in
/-- Up to the begin of a shard, the loop of `--` stops at the greatest place. -/
theorem prevLoop_spec {i : ℕ} : ∀ {p : ℤ}, i < S.num → p ∈ (S.outer i).Places → p < 0 →
    S.prevLoop i p ∈ S.Places ∧ S.prevLoop i p ≤ toLex (i, p) ∧
      ∀ x ∈ S.Places, x ≤ toLex (i, p) → x ≤ S.prevLoop i p := by
  induction i with
  | zero =>
      intro p hlt hp hneg
      have hcap : 0 ≤ (S.outer 0).end_ := Int.natCast_nonneg _
      refine ⟨⟨hlt, hp, fun _ => rfl, fun hge => ?_⟩, le_rfl, fun _ _ hx => hx⟩
      exact absurd (hcap.trans hge) (not_le.mpr hneg)
  | succ i ih =>
      intro p hlt hp hneg
      obtain ⟨hmem, hend, hgreatest⟩ := (S.outer i).prev_spec (S.outer i).end_
      have hfrom : ∀ x ∈ S.Places, x ≤ toLex (i + 1, p) →
          x ≤ toLex (i, (S.outer i).prev (S.outer i).end_) := by
        rintro ⟨j, q⟩ hx hle
        have hplace : S.IsPlace j q := hx
        rcases le_iff.mp hle with hij | ⟨rfl, hqp⟩
        · refine le_iff.mpr ?_
          rcases Nat.lt_or_ge j i with hj | hj
          · exact Or.inl hj
          · obtain rfl : j = i := by omega
            refine Or.inr ⟨rfl, hgreatest q hplace.mem ?_⟩
            by_contra hge
            have hmax := hplace.right (not_lt.mp hge)
            unfold maxShardIdx at hmax
            omega
        · exact absurd (hplace.left (lt_of_le_of_lt hqp hneg)) (Nat.succ_ne_zero i)
      have hstep : (toLex (i, (S.outer i).prev (S.outer i).end_) : Iter) ≤ toLex (i + 1, p) :=
        le_iff.mpr (Or.inl (Nat.lt_succ_self i))
      unfold prevLoop
      dsimp only
      split_ifs with hl
      · obtain ⟨hm, hle, hg⟩ := ih (by omega) hmem (Outer.isLeft_iff.mp hl)
        exact ⟨hm, hle.trans hstep, fun x hx hxi => hg x hx (hfrom x hx hxi)⟩
      · have hi : i < S.num := by omega
        refine ⟨⟨hi, hmem, fun hn => ?_, fun hge => ?_⟩, hstep, hfrom⟩
        · exact absurd (Outer.isLeft_iff.mpr hn) hl
        · exact absurd hend (not_lt.mpr hge)

/-! ### Steps -/

theorem next_spec {x : Iter} (hx : x ∈ S.Places) : S.next x ∈ S.Places ∧ x < S.next x ∧
    ∀ y ∈ S.Places, x < y → S.next x ≤ y := by
  obtain ⟨i, p⟩ := x
  have hplace : S.IsPlace i p := hx
  obtain ⟨hmem, hlt, hleast⟩ := (S.outer i).next_spec p
  have hstep : (toLex (i, p) : Iter) < toLex (i, (S.outer i).next p) :=
    lt_iff.mpr (Or.inr ⟨rfl, hlt⟩)
  have hfrom : ∀ y ∈ S.Places, toLex (i, p) < y → toLex (i, (S.outer i).next p) ≤ y := by
    rintro ⟨j, q⟩ hy hxy
    have hplace' : S.IsPlace j q := hy
    rcases lt_iff.mp hxy with hij | ⟨rfl, hpq⟩
    · exact le_iff.mpr (Or.inl hij)
    · exact le_iff.mpr (Or.inr ⟨rfl, hleast q hplace'.mem hpq⟩)
  change S.next (toLex (i, p)) ∈ S.Places ∧ _ < S.next (toLex (i, p)) ∧
    ∀ y ∈ S.Places, _ → S.next (toLex (i, p)) ≤ y
  unfold next
  dsimp only [ofLex_toLex]
  split_ifs with hr
  · have hi : i + (S.maxShardIdx - i) = S.maxShardIdx := by
      have := hplace.lt
      unfold maxShardIdx
      omega
    obtain ⟨hm, hle, hl⟩ := h.nextLoop_spec hi hmem (Outer.isRight_iff.mp hr)
    exact ⟨hm, lt_of_lt_of_le hstep hle, fun y hy hxy => hl y hy (hfrom y hy hxy)⟩
  · refine ⟨⟨hplace.lt, hmem, fun hn => hplace.left (hlt.trans hn), fun hge => ?_⟩, hstep, hfrom⟩
    exact absurd (Outer.isRight_iff.mpr hge) hr

omit h in
theorem prev_spec {x : Iter} (hx : x ∈ S.Places) : S.prev x ∈ S.Places ∧ S.prev x < x ∧
    ∀ y ∈ S.Places, y < x → y ≤ S.prev x := by
  obtain ⟨i, p⟩ := x
  have hplace : S.IsPlace i p := hx
  obtain ⟨hmem, hlt, hgreatest⟩ := (S.outer i).prev_spec p
  have hstep : (toLex (i, (S.outer i).prev p) : Iter) < toLex (i, p) :=
    lt_iff.mpr (Or.inr ⟨rfl, hlt⟩)
  have hfrom : ∀ y ∈ S.Places, y < toLex (i, p) → y ≤ toLex (i, (S.outer i).prev p) := by
    rintro ⟨j, q⟩ hy hyx
    have hplace' : S.IsPlace j q := hy
    rcases lt_iff.mp hyx with hij | ⟨rfl, hqp⟩
    · exact le_iff.mpr (Or.inl hij)
    · exact le_iff.mpr (Or.inr ⟨rfl, hgreatest q hplace'.mem hqp⟩)
  change S.prev (toLex (i, p)) ∈ S.Places ∧ S.prev (toLex (i, p)) < _ ∧
    ∀ y ∈ S.Places, _ → y ≤ S.prev (toLex (i, p))
  unfold prev
  dsimp only [ofLex_toLex]
  split_ifs with hl
  · obtain ⟨hm, hle, hg⟩ := prevLoop_spec hplace.lt hmem (Outer.isLeft_iff.mp hl)
    exact ⟨hm, lt_of_le_of_lt hle hstep, fun y hy hyx => hg y hy (hfrom y hy hyx)⟩
  · refine ⟨⟨hplace.lt, hmem, fun hn => ?_, fun hge => hplace.right (hge.trans hlt.le)⟩, hstep,
      hfrom⟩
    exact absurd (Outer.isLeft_iff.mpr hn) hl

theorem steps : Cursor.Steps S.Places S.next S.prev where
  next_mem hp := (h.next_spec hp).1
  lt_next hp := (h.next_spec hp).2.1
  next_le hp hq hpq := (h.next_spec hp).2.2 _ hq hpq
  prev_mem hp := (prev_spec hp).1
  prev_lt hp := (prev_spec hp).2.1
  le_prev hp hq hqp := (prev_spec hp).2.2 _ hq hqp

theorem mem_of_obtainable {x : Iter} (hfirst : S.first ∈ S.Places) (hx : S.Obtainable x) :
    x ∈ S.Places := by
  induction hx with
  | ofBegin => exact hfirst
  | ofEnd => exact h.end_mem
  | next _ ih => exact (h.next_spec ih).1
  | prev _ ih => exact (prev_spec ih).1

end Lists

/-! ### The entries -/

/-- The entries of all shards, shard by shard. -/
def entries (S : Shards) (l : ℕ → List ℕ) : List Iter :=
  (List.range S.num).flatMap fun i => (l i).map fun p : ℕ => toLex (i, (p : ℤ))

theorem mem_entries {i : ℕ} {p : ℤ} :
    toLex (i, p) ∈ S.entries l ↔ i < S.num ∧ ∃ q ∈ l i, (q : ℤ) = p := by
  unfold entries
  rw [List.mem_flatMap]
  constructor
  · rintro ⟨j, hj, hm⟩
    obtain ⟨q, hq, heq⟩ := List.mem_map.mp hm
    obtain ⟨rfl, rfl⟩ := Prod.mk.inj (toLex.injective heq)
    exact ⟨List.mem_range.mp hj, q, hq, rfl⟩
  · rintro ⟨hi, q, hq, rfl⟩
    exact ⟨i, List.mem_range.mpr hi, List.mem_map.mpr ⟨q, hq, rfl⟩⟩

namespace Lists
variable (h : S.Lists l)
include h

theorem sorted : (S.entries l).Pairwise (· < ·) := by
  refine List.pairwise_flatMap.mpr ⟨fun i hi => ?_, ?_⟩
  · refine List.pairwise_map.mpr ((h.lists i (List.mem_range.mp hi)).sorted.imp fun hlt => ?_)
    exact lt_iff.mpr (Or.inr ⟨rfl, Int.ofNat_lt.mpr hlt⟩)
  · refine List.pairwise_lt_range.imp fun {i j} hij x hx y hy => ?_
    obtain ⟨p, -, rfl⟩ := List.mem_map.mp hx
    obtain ⟨q, -, rfl⟩ := List.mem_map.mp hy
    exact lt_iff.mpr (Or.inl hij)

/-- A shard whose `begin` is not its end has a first entry there. -/
theorem begin_mem {i : ℕ} (hi : i < S.num) (hr : (S.outer i).isRight (S.begin_ i) = false) :
    0 ≤ S.begin_ i ∧ S.begin_ i < (S.outer i).end_ ∧ S.begin_ i ∈ (S.outer i).Places := by
  have hlt := Outer.not_isRight_iff.mp hr
  rw [h.begin_eq i hi] at hlt ⊢
  exact ⟨Outer.begin_nonneg _ _, hlt, (h.lists i hi).begin_mem⟩

omit h in
/-- `begin` is the first entry, or the end. -/
theorem first_cases :
    (∃ i < S.num, S.first = toLex (i, S.begin_ i) ∧
      (S.outer i).isRight (S.begin_ i) = false ∧
      ∀ j < i, (S.outer j).isRight (S.begin_ j) = true) ∨
    S.first = S.end_ ∧ ∀ j < S.num, (S.outer j).isRight (S.begin_ j) = true := by
  unfold first
  split
  case h_1 i hi =>
    obtain ⟨hr, hmem, hbefore⟩ := List.find?_range_eq_some.mp hi
    refine Or.inl ⟨i, List.mem_range.mp hmem, rfl, by simpa using hr, fun j hj => ?_⟩
    simpa using hbefore j hj
  case h_2 hn =>
    refine Or.inr ⟨rfl, fun j hj => ?_⟩
    simpa using List.find?_range_eq_none.mp hn j hj

theorem first_mem : S.first ∈ S.Places := by
  rcases first_cases with ⟨i, hi, heq, hr, -⟩ | ⟨heq, -⟩
  · obtain ⟨h0, hlt, hmem⟩ := h.begin_mem hi hr
    rw [heq]
    exact ⟨hi, hmem, fun hn => absurd hn (not_lt.mpr h0), fun hge => absurd hge (not_le.mpr hlt)⟩
  · rw [heq]
    exact h.end_mem

/-- An entry of a shard is not before its `begin`, which is not its end. -/
theorem begin_le_of_mem {i q : ℕ} (hi : i < S.num) (hq : q ∈ l i) :
    S.begin_ i ≤ q ∧ (S.outer i).isRight (S.begin_ i) = false := by
  have hle := (h.lists i hi).begin_le_of_mem hq
  have hlt := (((h.lists i hi).mem_iff q).mp hq).1
  rw [← h.begin_eq i hi] at hle
  exact ⟨hle, Outer.not_isRight_iff.mpr (lt_of_le_of_lt hle (Int.ofNat_lt.mpr hlt))⟩

theorem entry_lt_end {x : Iter} (hx : x ∈ S.entries l) : x < S.end_ := by
  obtain ⟨i, p⟩ := x
  obtain ⟨hi, q, hq, rfl⟩ := mem_entries.mp hx
  have hlt := (((h.lists i hi).mem_iff q).mp hq).1
  refine lt_iff.mpr ?_
  rcases Nat.lt_or_ge i S.maxShardIdx with hmax | hmax
  · exact Or.inl hmax
  · obtain rfl : i = S.maxShardIdx := by
      unfold maxShardIdx at hmax ⊢
      omega
    exact Or.inr ⟨rfl, Int.ofNat_lt.mpr hlt⟩

theorem first_le_entry {x : Iter} (hx : x ∈ S.entries l) : S.first ≤ x := by
  obtain ⟨i, p⟩ := x
  obtain ⟨hi, q, hq, rfl⟩ := mem_entries.mp hx
  obtain ⟨hle, hr⟩ := h.begin_le_of_mem hi hq
  rcases first_cases with ⟨j, hj, heq, -, hbefore⟩ | ⟨-, hall⟩
  · rw [heq]
    refine le_iff.mpr ?_
    rcases Nat.lt_trichotomy j i with hji | rfl | hij
    · exact Or.inl hji
    · exact Or.inr ⟨rfl, hle⟩
    · rw [hbefore i hij] at hr
      cases hr
  · rw [hall i hi] at hr
    cases hr

theorem first_le_end : S.first ≤ S.end_ := by
  rcases first_cases with ⟨i, hi, heq, hr, -⟩ | ⟨heq, -⟩
  · obtain ⟨h0, hlt, hmem⟩ := h.begin_mem hi hr
    have hc := hmem h0 hlt
    have hin : (S.begin_ i).toNat ∈ l i := by
      refine ((h.lists i hi).mem_iff _).mpr ⟨?_, hc⟩
      unfold Outer.end_ at hlt
      omega
    refine le_of_lt (heq ▸ h.entry_lt_end (mem_entries.mpr ⟨hi, _, hin, ?_⟩))
    exact Int.toNat_of_nonneg h0
  · exact heq.le

/-- The places from `begin` to the end are the entries. -/
theorem mem_range (x : Iter) : x ∈ S.entries l ↔ x ∈ S.Places ∧ S.first ≤ x ∧ x < S.end_ := by
  constructor
  · intro hx
    refine ⟨?_, h.first_le_entry hx, h.entry_lt_end hx⟩
    obtain ⟨i, p⟩ := x
    obtain ⟨hi, q, hq, rfl⟩ := mem_entries.mp hx
    obtain ⟨hlt, hc⟩ := ((h.lists i hi).mem_iff q).mp hq
    refine ⟨hi, fun _ _ => hc, fun hn => ?_, fun hge => ?_⟩
    · exact absurd hn (not_lt.mpr (Int.natCast_nonneg q))
    · exact absurd hge (not_le.mpr (Int.ofNat_lt.mpr hlt))
  · rintro ⟨hx, hfirst, hend⟩
    obtain ⟨i, p⟩ := x
    have hplace : S.IsPlace i p := hx
    have hlt : p < (S.outer i).end_ := by
      by_contra hge
      have hmax := hplace.right (not_lt.mp hge)
      subst hmax
      rcases lt_iff.mp hend with hlt | ⟨-, hlt⟩
      · exact absurd hlt (lt_irrefl _)
      · exact absurd hlt hge
    have h0 : 0 ≤ p := by
      by_contra hneg
      have hzero := hplace.left (not_le.mp hneg)
      subst hzero
      -- `begin` is not before the first slot of the first shard
      rcases first_cases with ⟨j, hj, heq, hr, -⟩ | ⟨heq, -⟩
      · obtain ⟨hb, -, -⟩ := h.begin_mem hj hr
        rw [heq] at hfirst
        rcases le_iff.mp hfirst with hj0 | ⟨-, hle⟩
        · omega
        · exact hneg (hb.trans hle)
      · rw [heq] at hfirst
        exact absurd hend (not_lt.mpr hfirst)
    have hc := hplace.mem h0 hlt
    refine mem_entries.mpr ⟨hplace.lt, p.toNat, ?_, Int.toNat_of_nonneg h0⟩
    refine ((h.lists i hplace.lt).mem_iff _).mpr ⟨?_, hc⟩
    unfold Outer.end_ at hlt
    omega

end Lists

/-- What iterating over a sharded container does; `es` are the entries, shard by shard. -/
structure Iterates (S : Shards) (es : List Iter) : Prop where
  walk_eq : ∀ fuel, es.length < fuel → S.walk fuel = some es
  walkBack_eq : ∀ fuel, es.length < fuel → S.walkBack fuel = some es.reverse
  prev_next : ∀ it, S.Obtainable it → S.prev (S.next it) = it
  next_prev : ∀ it, S.Obtainable it → S.next (S.prev it) = it
  end_sub : ∀ fuel, es.length < fuel → S.sub fuel S.end_ S.first = some (es.length : ℤ)

theorem Lists.iterates (h : S.Lists l) : S.Iterates (S.entries l) where
  walk_eq _ hf := h.steps.traverse_eq h.first_mem h.end_mem h.first_le_end h.sorted h.mem_range hf
  walkBack_eq _ hf :=
    h.steps.traverseBack_eq h.first_mem h.end_mem h.first_le_end h.sorted h.mem_range hf
  prev_next _ hi := h.steps.prev_next (h.mem_of_obtainable h.first_mem hi)
  next_prev _ hi := h.steps.next_prev (h.mem_of_obtainable h.first_mem hi)
  end_sub _ hf :=
    h.steps.distance_eq h.first_mem h.end_mem h.first_le_end h.sorted h.mem_range hf

end Shards

/-! ### Sharded maps -/

namespace Sharded
variable {κ ν : Type} {T : MapType κ}

/-- The iterator at an entry. -/
def entryIter (x : ℕ × ℕ) : Shards.Iter := toLex (x.1, (x.2 : ℤ))

theorem getElem?_shards {s : Sharded T ν} {i : ℕ} (hi : i < s.numShards) :
    ∃ m ∈ s.shards, s.shards[i]? = some m :=
  ⟨s.shards[i], List.getElem_mem hi, List.getElem?_eq_getElem hi⟩

theorem map_forEach (B : BucketOps) (s : Sharded T ν) :
    (s.forEach B).map entryIter = (s.iterShards B).entries
      fun i => (s.shards[i]?).elim [] (Map.forEach B) := by
  unfold forEach Shards.entries
  rw [List.map_flatMap]
  simp only [List.map_map]
  rfl

theorem mem_forEach {B : BucketOps} {s : Sharded T ν} {i p : ℕ} :
    (i, p) ∈ s.forEach B ↔ ∃ m, s.shards[i]? = some m ∧ p ∈ m.forEach B := by
  unfold forEach
  rw [List.mem_flatMap]
  constructor
  · rintro ⟨j, hj, hm⟩
    obtain ⟨q, hq, heq⟩ := List.mem_map.mp hm
    obtain ⟨rfl, rfl⟩ := Prod.mk.inj heq
    obtain ⟨m, -, hm⟩ := getElem?_shards (List.mem_range.mp hj)
    rw [hm] at hq
    exact ⟨m, hm, hq⟩
  · rintro ⟨m, hm, hp⟩
    have hi : i < s.numShards := (List.getElem?_eq_some_iff.mp hm).1
    refine ⟨i, List.mem_range.mpr hi, List.mem_map.mpr ⟨p, ?_, rfl⟩⟩
    rw [hm]
    exact hp

theorem length_forEach (B : BucketOps) (s : Sharded T ν) :
    (s.forEach B).length = (s.shards.map fun m => (m.forEach B).length).sum := by
  have hshards : s.shards.map (fun m => (m.forEach B).length) =
      (List.range s.numShards).map
        fun i => ((s.shards[i]?).elim [] (Map.forEach B)).length := by
    refine List.ext_getElem (by simp [numShards]) fun i h1 h2 => ?_
    rw [List.length_map] at h1
    simp [List.getElem?_eq_getElem h1]
  unfold forEach
  rw [List.length_flatMap, hshards]
  simp only [List.length_map]

variable [Inhabited κ] [Inhabited ν]

theorem lists {B : BucketOps} (hB : B.Lawful T.kernelSize) {s : Sharded T ν}
    (hs : ∀ m ∈ s.shards, Map.Exact m) :
    (s.iterShards B).Lists fun i => (s.shards[i]?).elim [] (Map.forEach B) where
  num_pos := s.numShards_pos
  lists i hi := by
    obtain ⟨m, hm, heq⟩ := getElem?_shards hi
    change Outer.Lists ((s.shards[i]?).elim _ _) _
    rw [heq]
    exact ((hs m hm).iterates hB).1.toLists
  begin_eq i hi := by
    obtain ⟨m, hm, heq⟩ := getElem?_shards hi
    change (s.shards[i]?).elim _ _ = Outer.begin_ ((s.shards[i]?).elim _ _) _
    rw [heq]
    change m.outer.begin_ (m.front B) = m.outer.begin_ (m.forEach B).head?
    rw [Map.front_eq]
    rfl

variable (B : Kernel T.kernelSize) (conf : Conf T.conf)

/-- Over any number of shards, whatever was called on each: the steps from `begin` to `end` meet
every entry of every shard once, shard by shard, and the steps back meet the same entries in
reverse order; `++` and `--` undo each other at every iterator, also before the first entry; and
`end` is at distance `size` from `begin`. -/
theorem sharded_iteration {P : Map T ν → Map.Op κ ν → Prop} {s : Sharded T ν}
    (hs : ∀ m ∈ s.shards, (Map.runs B conf P).Reachable m) :
    (s.iterShards B.ops).Iterates ((s.forEach B.ops).map entryIter) ∧
      (s.forEach B.ops).Nodup ∧
      (∀ i p, (i, p) ∈ s.forEach B.ops ↔
        ∃ m, s.shards[i]? = some m ∧ p < m.capacity ∧ m.containsAt p = true) ∧
      ∀ fuel : ℕ, s.size < fuel →
        (s.iterShards B.ops).sub fuel (s.iterShards B.ops).end_ (s.iterShards B.ops).first =
          some s.size := by
  have hexact : ∀ m ∈ s.shards, Map.Exact m := fun m hm =>
    (Map.exact_of_reachable B conf (hs m hm)).1
  have hl := lists B.lawful hexact
  have hit := hl.iterates
  have hsorted := hl.sorted
  rw [← map_forEach] at hit hsorted
  have hsize : s.size = ((s.forEach B.ops).length : ℤ) := by
    have hsizes : s.shards.map Map.size =
        s.shards.map fun m => ((m.forEach B.ops).length : ℤ) :=
      List.map_congr_left fun m hm => ((hexact m hm).iterates B.lawful).2
    rw [size, hsizes, length_forEach, Nat.cast_list_sum, List.map_map]
    rfl
  refine ⟨hit, ?_, fun i p => ?_, fun fuel hf => ?_⟩
  · exact (List.pairwise_map.mp hsorted).imp fun hlt heq => hlt.ne (congrArg entryIter heq)
  · rw [mem_forEach]
    refine exists_congr fun m => and_congr_right fun hm => ?_
    exact ((hexact m (List.mem_of_getElem? hm)).iterates B.lawful).1.mem_iff p
  · have hd := hit.end_sub fuel
    rw [List.length_map] at hd
    rw [hsize] at hf ⊢
    exact hd (by exact_mod_cast hf)

/-- Four shards, of which the second one has entries. -/
theorem sharded_iteration_words : ∃ rs e rs' m,
    Map.wordExec 1 false [] = .ok (rs, e) ∧
      Map.wordExec 1 false [.insert 0, .insert 8, .insert 3] = .ok (rs', m) ∧
      ((Sharded.mk [e, m, e, e] ⟨2, by decide, rfl⟩).iterShards (Map.wordKernel 1 false).ops).walk 4 =
        some [toLex (1, 0), toLex (1, 1), toLex (1, 6)] ∧
      ((Sharded.mk [e, m, e, e] ⟨2, by decide, rfl⟩).iterShards
        (Map.wordKernel 1 false).ops).walkBack 4 =
          some [toLex (1, 6), toLex (1, 1), toLex (1, 0)] := by
  obtain ⟨rs, e, hr, hinv, he⟩ := Map.exists_wordExec 1 false []
    (fun r => r.2.positions ideal) [] (by decide +kernel)
  obtain ⟨rs', m, hr', hinv', hm⟩ := Map.exists_wordExec 1 false [.insert 0, .insert 8, .insert 3]
    (fun r => r.2.positions ideal) [0, 1, 6] (by decide +kernel)
  refine ⟨rs, e, rs', m, hr, hr', ?_⟩
  have hreach := Map.reachable_of_wordExec 1 false (by simp [Map.Op.isScrub]) hr
  have hreach' := Map.reachable_of_wordExec 1 false (by simp [Map.Op.isScrub]) hr'
  have hs := sharded_iteration (Map.wordKernel 1 false) (Map.wordConf 1 false)
    (s := Sharded.mk [e, m, e, e] ⟨2, by decide, rfl⟩) (by
      intro m' hm'
      simp only [List.mem_cons, List.not_mem_nil, or_false] at hm'
      rcases hm' with rfl | rfl | rfl | rfl
      · exact hreach
      · exact hreach'
      · exact hreach
      · exact hreach)
  have hl : (Sharded.mk [e, m, e, e] ⟨2, by decide, rfl⟩).forEach (Map.wordKernel 1 false).ops =
      [(1, 0), (1, 1), (1, 6)] := by
    have h0 : e.forEach (Map.wordKernel 1 false).ops = [] :=
      (Map.positions_eq (Map.wordKernel 1 false).lawful hinv).trans he
    have h1 : m.forEach (Map.wordKernel 1 false).ops = [0, 1, 6] :=
      (Map.positions_eq (Map.wordKernel 1 false).lawful hinv').trans hm
    simp [forEach, numShards, List.range_succ, h0, h1]
  rw [hl] at hs
  exact ⟨hs.1.walk_eq 4 (by decide), hs.1.walkBack_eq 4 (by decide)⟩

end Sharded

end Nvhm
