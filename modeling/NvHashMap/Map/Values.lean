import NvHashMap.Map.Run

/-! # Where values come from

No call invents a value: what the value array holds was there before, was written by the caller,
or is the default that a new array is filled with.  This needs neither an invariant nor a law of
the kernel: it is followed through every loop that copies entries, up to the step lemma
`values_of_step`. -/

namespace Nvhm

variable {κ ν : Type} {T : MapType κ} [Inhabited κ] [Inhabited ν]

namespace Map

/-- All values of the array satisfy `S`, also those in free slots. -/
def ValuesIn (S : ν → Prop) (m : Map T ν) : Prop := ∀ v ∈ m.values, S v

section Values
variable {S : ν → Prop} (hS : S default) {B : BucketOps} {m m' : Map T ν}

omit [Inhabited κ] [Inhabited ν] in
theorem ValuesIn.of_values_eq (h : ValuesIn S m) (he : m'.values = m.values) : ValuesIn S m' := by
  unfold ValuesIn
  rw [he]
  exact h

omit [Inhabited κ] [Inhabited ν] in
theorem ValuesIn.set (h : ValuesIn S m) {pos : ℕ} {v : ν} (hv : S v)
    (he : m'.values = m.values.set pos v) : ValuesIn S m' := by
  intro w hw
  rw [he] at hw
  rcases List.mem_or_eq_of_mem_set hw with hw | rfl
  · exact h w hw
  · exact hv

omit [Inhabited κ] [Inhabited ν] in
/-- What a probe loop returns, by an invariant of its state. -/
theorem probe_sat {σ α : Type} {full : Err} {key : κ} {body : ProbeSeq → ℕ → σ → Flow σ α}
    {exhausted : ProbeSeq → σ → α} {s : σ} {a : α} (I : σ → Prop) (P : α → Prop) (hs : I s)
    (hbody : ∀ q o s, I s → (body q o s).Sat I P) (hexh : ∀ q s, I s → P (exhausted q s))
    (hr : m.probe full key body exhausted s = .ok a) : P a := by
  have hloop : ∀ (n : ℕ) (q : ProbeSeq) (s : σ), I s →
      probeLoop T.seq T.kernelSize m.bucketMask m.capacity full body exhausted n q s = .ok a →
      P a := by
    intro n
    induction n with
    | zero =>
        intro q s _ hr
        cases hr
    | succ n ih =>
        intro q s hs hr
        rw [probeLoop] at hr
        split_ifs at hr with hn hp
        · have hb := hbody q (alignPos (q.next T.seq) m.bucketMask) s hs
          cases hbs : body q (alignPos (q.next T.seq) m.bucketMask) s with
          | cont s' =>
              rw [hbs] at hr hb
              exact ih _ s' hb hr
          | done a' =>
              rw [hbs] at hr hb
              obtain rfl := Except.ok.inj hr
              exact hb
        · obtain rfl := Except.ok.inj hr
          exact hexh q s hs
  exact hloop _ _ s hs hr

include hS

omit [Inhabited κ] in
theorem ValuesIn.valueAt (h : ValuesIn S m) (pos : ℕ) : S (m.valueAt pos) := by
  unfold Map.valueAt
  rw [List.getD_eq_getElem?_getD]
  cases hv : m.values[pos]? with
  | none => exact hS
  | some v => exact h v (List.mem_of_getElem? hv)

theorem ValuesIn.alloc (m : Map T ν) (end_ : ℕ) : ValuesIn S (m.alloc end_) := by
  intro v hv
  rw [List.eq_of_mem_replicate hv]
  exact hS

theorem ValuesIn.copyEntry {old : Map T ν} (h : ValuesIn S m) (ho : ValuesIn S old)
    (src dst : ℕ) : ValuesIn S (m.copyEntry old src dst) :=
  h.set (ho.valueAt hS src) rfl

/-! ### Rebuilding the table -/

theorem values_of_reinsert {old : Map T ν} (h : ValuesIn S m) (ho : ValuesIn S old) {pos : ℕ}
    (hr : reinsert B old m pos = .ok (some m')) : ValuesIn S m' := by
  refine probe_sat (fun _ => True) (fun r => ∀ m', r = some m' → ValuesIn S m') trivial ?_ ?_ hr
    m' rfl
  · intro q o _ _
    cases (B.notHashes (m.bucket o)).head? with
    | none => exact trivial
    | some i =>
        rintro _ ⟨⟩
        exact h.copyEntry hS ho pos (o + i)
  · intro q _ _ m' hm'
    cases hm'

theorem values_of_reinsertAll {old : Map T ν} (ho : ValuesIn S old) : ∀ (ps : List ℕ)
    {m : Map T ν}, ValuesIn S m → reinsertAll B old ps m = .ok (some m') → ValuesIn S m'
  | [], m, h, hr => by
      obtain rfl := Option.some.inj (Except.ok.inj hr)
      exact h
  | pos :: ps, m, h, hr => by
      rw [reinsertAll] at hr
      obtain ⟨r, hr', hr⟩ := bind_eq_ok.mp hr
      cases r with
      | none => cases hr
      | some m₁ => exact values_of_reinsertAll ho ps (values_of_reinsert hS h ho hr') hr

theorem values_of_rehash (h : ValuesIn S m) : ∀ (d end_ : ℕ) {r : ℕ × Map T ν},
    rehash B m d end_ = .ok r → ValuesIn S r.2
  | 0, _, _, hr => by cases hr
  | d + 1, end_, r, hr => by
      rw [rehash] at hr
      obtain ⟨r', hr', hr⟩ := bind_eq_ok.mp hr
      cases r' with
      | some m₁ =>
          obtain rfl := Except.ok.inj hr
          refine values_of_reinsertAll hS h _ ?_ hr'
          exact (ValuesIn.alloc hS m end_).of_values_eq rfl
      | none =>
          dsimp only at hr
          split_ifs at hr
          obtain ⟨n, -, hr⟩ := bind_eq_ok.mp hr
          exact values_of_rehash h d n hr

theorem values_of_resize_ (h : ValuesIn S m) {end_ : ℕ} {r : ℕ × Map T ν}
    (hr : m.resize_ B end_ = .ok r) : ValuesIn S r.2 := by
  obtain ⟨n, -, hr⟩ := bind_eq_ok.mp hr
  split_ifs at hr
  · obtain rfl := Except.ok.inj hr
    exact h
  · obtain ⟨r', hr', hr⟩ := bind_eq_ok.mp hr
    obtain rfl := Except.ok.inj hr
    exact (values_of_rehash hS h _ _ hr').of_values_eq rfl

/-! ### Scrubbing -/

theorem values_of_scrubSlot {o pos : ℕ} {b : Bool} {s s' : Scrub T ν} (h : ValuesIn S s.map)
    (hr : scrubSlot B o b pos s = .ok s') : ValuesIn S s'.map := by
  unfold scrubSlot at hr
  obtain ⟨⟨u, q⟩, -, hr⟩ := bind_eq_ok.mp hr
  cases u with
  | stay =>
      obtain rfl := Except.ok.inj hr
      exact h
  | exhausted => cases hr
  | move dst =>
      dsimp only at hr
      split_ifs at hr
      obtain rfl := Except.ok.inj hr
      refine (h.copyEntry hS h pos dst).of_values_eq ?_
      dsimp only
      unfold moveEntry
      split_ifs <;> rfl

theorem values_of_scrubSlots {o : ℕ} {b : Bool} : ∀ (l : List ℕ) {s s' : Scrub T ν},
    ValuesIn S s.map → scrubSlots B o b l s = .ok s' → ValuesIn S s'.map
  | [], s, s', h, hr => by
      obtain rfl := Except.ok.inj hr
      exact h
  | i :: l, s, s', h, hr => by
      rw [scrubSlots] at hr
      obtain ⟨s₁, h₁, hr⟩ := bind_eq_ok.mp hr
      exact values_of_scrubSlots l (values_of_scrubSlot hS h h₁) hr

theorem values_of_scrubPass : ∀ (offs : List ℕ) {s s' : Scrub T ν}, ValuesIn S s.map →
    scrubPass B offs s = .ok s' → ValuesIn S s'.map
  | [], s, s', h, hr => by
      obtain rfl := Except.ok.inj hr
      exact h
  | o :: offs, s, s', h, hr => by
      rw [scrubPass] at hr
      obtain ⟨s₁, h₁, hr⟩ := bind_eq_ok.mp hr
      exact values_of_scrubPass offs (values_of_scrubSlots hS _ h h₁) hr

theorem values_of_scrubPasses : ∀ (d : ℕ) {s s' : Scrub T ν}, ValuesIn S s.map →
    scrubPasses B d s = .ok s' → ValuesIn S s'.map
  | 0, _, _, _, hr => by cases hr
  | d + 1, s, s', h, hr => by
      rw [scrubPasses] at hr
      obtain ⟨s₁, h₁, hr⟩ := bind_eq_ok.mp hr
      have hv := values_of_scrubPass hS _ (s := { s with pslBits := 0 }) h h₁
      split_ifs at hr
      · obtain rfl := Except.ok.inj hr
        exact hv
      · exact values_of_scrubPasses d hv hr

omit [Inhabited κ] [Inhabited ν] hS in
theorem pruneBuckets_values : ∀ (offs : List ℕ) (m : Map T ν),
    (pruneBuckets B offs m).values = m.values
  | [], _ => rfl
  | _ :: offs, _ => pruneBuckets_values offs _

omit [Inhabited κ] [Inhabited ν] hS in
theorem pruneDead_values : ∀ (offs : List ℕ) (m : Map T ν), (pruneDead B offs m).values = m.values
  | [], _ => rfl
  | o :: offs, m => by
      rw [pruneDead]
      split_ifs
      · exact pruneDead_values offs m
      · exact pruneDead_values offs (m.pruneBucket o)

theorem values_of_scrub (h : ValuesIn S m) {r : ℕ × Map T ν} (hr : m.scrub_ B = .ok r) :
    ValuesIn S r.2 := by
  unfold scrub_ at hr
  split_ifs at hr
  · obtain rfl := Except.ok.inj hr
    exact h
  · obtain ⟨s, hs, hr⟩ := bind_eq_ok.mp hr
    obtain rfl := Except.ok.inj hr
    refine (values_of_scrubPasses hS _ (s := ⟨m, 0, 0⟩) h hs).of_values_eq ?_
    dsimp only
    unfold prune
    split_ifs
    · rfl
    · exact pruneBuckets_values _ _
    · exact pruneDead_values _ _

/-! ### Erasing -/

omit [Inhabited κ] [Inhabited ν] hS in
theorem free_values (m : Map T ν) (b : Bool) (pos : ℕ) : (m.free b pos).values = m.values := by
  unfold free
  split_ifs <;> rfl

omit [Inhabited κ] [Inhabited ν] hS in
theorem freeSlots_values (b : Bool) : ∀ (l : List ℕ) (m : Map T ν),
    (m.freeSlots b l).values = m.values
  | [], _ => rfl
  | pos :: l, m => (freeSlots_values b l (m.free b pos)).trans (free_values m b pos)

omit [Inhabited κ] [Inhabited ν] hS in
theorem freeIf_values (pred : ℕ → Bool) : ∀ (offs : List ℕ) (m : Map T ν),
    (freeIf B pred offs m).values = m.values
  | [], _ => rfl
  | _ :: offs, _ => (freeIf_values pred offs _).trans (freeSlots_values _ _ _)

theorem values_of_autoShrinkAndScub (h : ValuesIn S m) {n : ℤ} {r : Bool × Map T ν}
    (hr : autoShrinkAndScub B m n = .ok r) : ValuesIn S r.2 := by
  unfold autoShrinkAndScub at hr
  split_ifs at hr
  · obtain ⟨r', hr', hr⟩ := bind_eq_ok.mp hr
    obtain rfl := Except.ok.inj hr
    exact values_of_resize_ hS h hr'
  · obtain ⟨r', hr', hr⟩ := bind_eq_ok.mp hr
    obtain rfl := Except.ok.inj hr
    exact values_of_scrub hS h hr'
  · obtain rfl := Except.ok.inj hr
    exact h

theorem values_of_eraseSlot (h : ValuesIn S m) {b : Bool} {pos : ℕ} {r : Option ℕ × Map T ν}
    (hr : eraseSlot B m b pos = .ok r) : ValuesIn S r.2 := by
  unfold eraseSlot resetSlot at hr
  obtain ⟨r', hr', hr⟩ := bind_eq_ok.mp hr
  obtain rfl := Except.ok.inj hr
  exact values_of_autoShrinkAndScub hS (h.of_values_eq (free_values m b pos)) hr'

theorem values_of_eraseFirst (h : ValuesIn S m) {key : κ}
    {r : (Bool × Option ℕ × ProbeSeq) × Map T ν} (hr : m.eraseFirst B key = .ok r) :
    ValuesIn S r.2 := by
  unfold eraseFirst at hr
  obtain ⟨⟨r', q⟩, -, hr⟩ := bind_eq_ok.mp hr
  rcases r' with _ | ⟨pos, b⟩
  · obtain rfl := Except.ok.inj hr
    exact h
  · obtain ⟨r', hr', hr⟩ := bind_eq_ok.mp hr
    obtain rfl := Except.ok.inj hr
    exact values_of_eraseSlot hS h hr'

theorem values_of_eraseNext (h : ValuesIn S m) {pos : ℕ} {seq : ProbeSeq} {key : κ}
    {r : (Bool × Option ℕ × ProbeSeq) × Map T ν} (hr : m.eraseNext B pos seq key = .ok r) :
    ValuesIn S r.2 := by
  unfold eraseNext at hr
  split_ifs at hr
  · obtain ⟨⟨r', q⟩, -, hr⟩ := bind_eq_ok.mp hr
    rcases r' with _ | ⟨p, b⟩
    · obtain rfl := Except.ok.inj hr
      exact h
    · obtain ⟨r', hr', hr⟩ := bind_eq_ok.mp hr
      obtain rfl := Except.ok.inj hr
      exact values_of_eraseSlot hS h hr'
  · obtain rfl := Except.ok.inj hr
    exact h

theorem values_of_eraseAt (h : ValuesIn S m) {pos : ℕ} {r : (Bool × Option ℕ) × Map T ν}
    (hr : m.eraseAt B pos = .ok r) : ValuesIn S r.2 := by
  unfold eraseAt at hr
  split_ifs at hr
  · obtain ⟨r', hr', hr⟩ := bind_eq_ok.mp hr
    obtain rfl := Except.ok.inj hr
    exact values_of_eraseSlot hS h hr'
  · obtain rfl := Except.ok.inj hr
    exact h

theorem values_of_finishErase {old : Map T ν} (h : ValuesIn S m) {r : ℤ × Map T ν}
    (hr : finishErase B old m = .ok r) : ValuesIn S r.2 := by
  unfold finishErase at hr
  dsimp only at hr
  split_ifs at hr
  · obtain rfl := Except.ok.inj hr
    exact h
  · obtain ⟨r', hr', hr⟩ := bind_eq_ok.mp hr
    obtain rfl := Except.ok.inj hr
    exact values_of_autoShrinkAndScub hS h hr'

omit [Inhabited ν] hS in
theorem values_of_eraseAllLoop (h : ValuesIn S m) {key : κ} (hr : eraseAllLoop B m key = .ok m') :
    ValuesIn S m' := by
  refine probe_sat (ValuesIn S) (ValuesIn S) h (fun q o m₁ h₁ => ?_) (fun _ _ h => h) hr
  dsimp only
  split_ifs
  · exact h₁.of_values_eq (freeSlots_values _ _ _)
  · exact h₁.of_values_eq (freeSlots_values _ _ _)

theorem values_of_eraseAll (h : ValuesIn S m) {key : κ} {r : ℤ × Map T ν}
    (hr : m.eraseAll B key = .ok r) : ValuesIn S r.2 := by
  unfold eraseAll at hr
  split_ifs at hr
  · obtain ⟨m₁, hloop, hr⟩ := bind_eq_ok.mp hr
    exact values_of_finishErase hS (values_of_eraseAllLoop h hloop) hr
  · obtain ⟨r', hr', hr⟩ := bind_eq_ok.mp hr
    obtain rfl := Except.ok.inj hr
    exact values_of_eraseFirst hS h hr'

/-! ### Inserting -/

omit [Inhabited ν] hS in
theorem values_of_insertReusing (h : ValuesIn S m) {key : κ} {r : InsertResult T ν}
    (hr : insertReusing B m key = .ok (some r)) : ValuesIn S r.2 := by
  refine probe_sat (fun _ => True) (fun r => ∀ r', r = some r' → ValuesIn S r'.2) trivial ?_
    (fun _ _ _ _ hr => by cases hr) hr r rfl
  intro q o insPos _
  dsimp only
  split
  · rintro _ ⟨⟩
    exact h
  · split
    · split
      · exact trivial
      · split
        · exact trivial
        · rintro _ ⟨⟩
          exact h.of_values_eq rfl
    · split
      · exact trivial
      · rintro _ ⟨⟩
        exact h.of_values_eq rfl

omit [Inhabited ν] hS in
theorem values_of_insertFresh (h : ValuesIn S m) {key : κ} {r : InsertResult T ν}
    (hr : insertFresh B m key = .ok (some r)) : ValuesIn S r.2 := by
  refine probe_sat (fun _ => True) (fun r => ∀ r', r = some r' → ValuesIn S r'.2) trivial ?_
    (fun _ _ _ _ hr => by cases hr) hr r rfl
  intro q o _ _
  dsimp only
  split
  · rintro _ ⟨⟩
    exact h
  · split
    · exact trivial
    · rintro _ ⟨⟩
      exact h.of_values_eq rfl

theorem values_of_insertLoop {key : κ} : ∀ (d : ℕ) {m : Map T ν} {r : InsertResult T ν},
    ValuesIn S m → insertLoop B key d m = .ok r → ValuesIn S r.2
  | 0, _, _, _, hr => by cases hr
  | d + 1, m, r, h, hr => by
      rw [insertLoop] at hr
      by_cases ht : m.numTombstone ≠ 0
      · rw [if_pos ht] at hr
        obtain ⟨r', hr', hr⟩ := bind_eq_ok.mp hr
        cases r' with
        | some r' =>
            obtain rfl := Except.ok.inj hr
            exact values_of_insertReusing h hr'
        | none =>
            dsimp only at hr
            split_ifs at hr
            obtain ⟨n, -, hr⟩ := bind_eq_ok.mp hr
            obtain ⟨r'', hres, hr⟩ := bind_eq_ok.mp hr
            exact values_of_insertLoop d (values_of_resize_ hS h hres) hr
      · rw [if_neg ht] at hr
        obtain ⟨r', hr', hr⟩ := bind_eq_ok.mp hr
        cases r' with
        | some r' =>
            obtain rfl := Except.ok.inj hr
            exact values_of_insertFresh h hr'
        | none =>
            dsimp only at hr
            split_ifs at hr
            obtain ⟨n, -, hr⟩ := bind_eq_ok.mp hr
            obtain ⟨r'', hres, hr⟩ := bind_eq_ok.mp hr
            exact values_of_insertLoop d (values_of_resize_ hS h hres) hr

theorem values_of_insert (h : ValuesIn S m) {key : κ} {r : InsertResult T ν}
    (hr : m.insert B key = .ok r) : ValuesIn S r.2 := by
  unfold insert at hr
  split_ifs at hr
  · obtain ⟨n, -, hr⟩ := bind_eq_ok.mp hr
    obtain ⟨r', hres, hr⟩ := bind_eq_ok.mp hr
    dsimp only at hr
    split_ifs at hr
    exact values_of_insertLoop hS 64 (values_of_resize_ hS h hres) hr
  · exact values_of_insertLoop hS 64 h hr

/-! ### Calls -/

/-- A call leaves the values in `S`, if those that it writes are. -/
theorem values_of_step (h : ValuesIn S m) {op : Op κ ν}
    (hop : ∀ pos v, op = .setValueAt pos v → S v) {r : Result}
    (hr : m.step B op = .ok (r, m')) : ValuesIn S m' := by
  cases op with
  | insert key =>
      obtain ⟨⟨r', m₁⟩, hr', hr⟩ := bind_eq_ok.mp hr
      obtain ⟨-, rfl⟩ := Prod.mk.inj (Except.ok.inj hr)
      exact values_of_insert hS h hr'
  | findFirst key =>
      obtain ⟨r', -, hr⟩ := bind_eq_ok.mp hr
      obtain ⟨-, rfl⟩ := Prod.mk.inj (Except.ok.inj hr)
      exact h
  | findNext pos seq key =>
      obtain ⟨r', -, hr⟩ := bind_eq_ok.mp hr
      obtain ⟨-, rfl⟩ := Prod.mk.inj (Except.ok.inj hr)
      exact h
  | findIf pred =>
      obtain ⟨-, rfl⟩ := Prod.mk.inj (Except.ok.inj hr)
      exact h
  | forEach =>
      obtain ⟨-, rfl⟩ := Prod.mk.inj (Except.ok.inj hr)
      exact h
  | forEachKey key =>
      obtain ⟨r', -, hr⟩ := bind_eq_ok.mp hr
      obtain ⟨-, rfl⟩ := Prod.mk.inj (Except.ok.inj hr)
      exact h
  | count key =>
      obtain ⟨r', -, hr⟩ := bind_eq_ok.mp hr
      obtain ⟨-, rfl⟩ := Prod.mk.inj (Except.ok.inj hr)
      exact h
  | eraseFirst key =>
      obtain ⟨⟨r', m₁⟩, hr', hr⟩ := bind_eq_ok.mp hr
      obtain ⟨-, rfl⟩ := Prod.mk.inj (Except.ok.inj hr)
      exact values_of_eraseFirst hS h hr'
  | eraseNext pos seq key =>
      obtain ⟨⟨r', m₁⟩, hr', hr⟩ := bind_eq_ok.mp hr
      obtain ⟨-, rfl⟩ := Prod.mk.inj (Except.ok.inj hr)
      exact values_of_eraseNext hS h hr'
  | eraseAt pos =>
      obtain ⟨⟨r', m₁⟩, hr', hr⟩ := bind_eq_ok.mp hr
      obtain ⟨-, rfl⟩ := Prod.mk.inj (Except.ok.inj hr)
      exact values_of_eraseAt hS h hr'
  | eraseIf pred =>
      obtain ⟨⟨r', m₁⟩, hr', hr⟩ := bind_eq_ok.mp hr
      obtain ⟨-, rfl⟩ := Prod.mk.inj (Except.ok.inj hr)
      exact values_of_finishErase hS (h.of_values_eq (freeIf_values pred _ m)) hr'
  | eraseAll key =>
      obtain ⟨⟨r', m₁⟩, hr', hr⟩ := bind_eq_ok.mp hr
      obtain ⟨-, rfl⟩ := Prod.mk.inj (Except.ok.inj hr)
      exact values_of_eraseAll hS h hr'
  | grow =>
      obtain ⟨⟨n, m₁⟩, hr', hr⟩ := bind_eq_ok.mp hr
      obtain ⟨-, rfl⟩ := Prod.mk.inj (Except.ok.inj hr)
      obtain ⟨end_, -, hr'⟩ := bind_eq_ok.mp hr'
      exact values_of_resize_ hS h hr'
  | shrink =>
      obtain ⟨⟨n, m₁⟩, hr', hr⟩ := bind_eq_ok.mp hr
      obtain ⟨-, rfl⟩ := Prod.mk.inj (Except.ok.inj hr)
      obtain ⟨end_, -, hr'⟩ := bind_eq_ok.mp hr'
      split_ifs at hr'
      · obtain ⟨-, rfl⟩ := Prod.mk.inj (Except.ok.inj hr')
        exact h
      · exact values_of_resize_ hS h hr'
  | resize n =>
      obtain ⟨⟨n', m₁⟩, hr', hr⟩ := bind_eq_ok.mp hr
      obtain ⟨-, rfl⟩ := Prod.mk.inj (Except.ok.inj hr)
      obtain ⟨end_, -, hr'⟩ := bind_eq_ok.mp hr'
      exact values_of_resize_ hS h hr'
  | reserve n =>
      obtain ⟨⟨n', m₁⟩, hr', hr⟩ := bind_eq_ok.mp hr
      obtain ⟨-, rfl⟩ := Prod.mk.inj (Except.ok.inj hr)
      unfold reserve at hr'
      split_ifs at hr'
      · obtain ⟨-, rfl⟩ := Prod.mk.inj (Except.ok.inj hr')
        exact h
      · obtain ⟨end_, -, hr'⟩ := bind_eq_ok.mp hr'
        exact values_of_resize_ hS h hr'
  | clear =>
      obtain ⟨-, rfl⟩ := Prod.mk.inj (Except.ok.inj hr)
      unfold clear
      dsimp only
      split_ifs
      · exact (ValuesIn.alloc hS m _).of_values_eq rfl
      · exact h.of_values_eq rfl
  | clearTo n =>
      obtain ⟨r', hr', hr⟩ := bind_eq_ok.mp hr
      obtain ⟨-, rfl⟩ := Prod.mk.inj (Except.ok.inj hr)
      obtain ⟨c, -, hr'⟩ := bind_eq_ok.mp hr'
      obtain rfl := Except.ok.inj hr'
      dsimp only
      split_ifs
      · exact (ValuesIn.alloc hS m _).of_values_eq rfl
      · exact h.of_values_eq rfl
  | scrub =>
      obtain ⟨⟨n, m₁⟩, hr', hr⟩ := bind_eq_ok.mp hr
      obtain ⟨-, rfl⟩ := Prod.mk.inj (Except.ok.inj hr)
      exact values_of_scrub hS h hr'
  | setValueAt pos value =>
      obtain ⟨m₁, hr', hr⟩ := bind_eq_ok.mp hr
      obtain ⟨-, rfl⟩ := Prod.mk.inj (Except.ok.inj hr)
      unfold setValueAt at hr'
      split_ifs at hr'
      obtain rfl := Except.ok.inj hr'
      exact h.set (hop pos value rfl) rfl
  | setBlobAt pos src =>
      obtain ⟨m₁, hr', hr⟩ := bind_eq_ok.mp hr
      obtain ⟨-, rfl⟩ := Prod.mk.inj (Except.ok.inj hr)
      unfold setBlobAt at hr'
      split_ifs at hr'
      obtain rfl := Except.ok.inj hr'
      exact h.of_values_eq rfl

theorem values_of_new {conf : Conf T.conf} (hm : Map.new T ν conf = .ok m) : ValuesIn S m := by
  obtain ⟨-, -, heq⟩ := new_eq hm
  rw [heq]
  exact (ValuesIn.alloc hS m _).of_values_eq rfl

end Values

end Map

end Nvhm
