import NvHashMap.Map.Change

/-! # The keys of a map

Which keys can be stored in a map, whatever its flags and its probe sequences: a call stores no key
but its own, and a program that only passes keys with some property reaches only maps in which all
keys have it (`keysIn_of_reachable`). -/

namespace Nvhm

open Buffer SlotCount

variable {κ ν : Type} {T : MapType κ} [Inhabited κ] [Inhabited ν]

namespace Map

/-- The key that a call passes. -/
def Op.keys : Op κ ν → List κ
  | .insert key => [key]
  | .findFirst key => [key]
  | .findNext _ _ key => [key]
  | .forEachKey key => [key]
  | .count key => [key]
  | .eraseFirst key => [key]
  | .eraseNext _ _ key => [key]
  | .eraseAll key => [key]
  | _ => []

/-- All stored keys have a property. -/
def KeysIn (Q : κ → Prop) (m : Map T ν) : Prop := ∀ p, m.Occupied p → Q (m.keyAt p)

section Calls
variable {Q : κ → Prop} {m m' : Map T ν}

theorem keysIn_iff : KeysIn Q m ↔ ∀ e ∈ m.entries, Q e.1 := by
  constructor
  · intro hq e he
    obtain ⟨p, hp, rfl⟩ := mem_entries.mp he
    exact hq p hp
  · exact fun hq p hp => hq _ (mem_entries.mpr ⟨p, hp, rfl⟩)

theorem KeysIn.of_entries_le (hq : KeysIn Q m) (h : m'.entries ≤ m.entries) : KeysIn Q m' :=
  keysIn_iff.mpr fun e he => keysIn_iff.mp hq e (Multiset.mem_of_le h he)

theorem KeysIn.of_entries_eq (hq : KeysIn Q m) (h : m'.entries = m.entries) : KeysIn Q m' :=
  hq.of_entries_le h.le

theorem KeysIn.free (hq : KeysIn Q m) (h : Shape m) {pos : ℕ} (ho : m.Occupied pos) (b : Bool) :
    KeysIn Q (m.free b pos) := by
  refine hq.of_entries_le ?_
  rw [entries_release (free_frame m b pos) ho (isHash_freed b) (free_stateAt h b ho.1)
    fun q _ => by rw [free_entryAt]]
  exact Multiset.le_cons_self _ _

theorem KeysIn.freed (hq : KeysIn Q m) {l : List ℕ} (hf : Freed m m' l) : KeysIn Q m' := by
  refine hq.of_entries_le ?_
  rw [hf.entries_eq]
  exact Multiset.le_add_left _ _

theorem KeysIn.resize (hq : KeysIn Q m) (h : Exact m) {end_ n : ℕ}
    (hend : end_ ≤ m.conf.minCapacity ∨ IsCapacity end_)
    (hr : m.resize_ ideal end_ = .ok (n, m')) : KeysIn Q m' := by
  rcases resize_cases h hend with ⟨he, -⟩ | ⟨n', m'', hr', -, -, hc⟩
  · cases he.symm.trans hr
  · obtain ⟨-, rfl⟩ := Prod.mk.inj (Except.ok.inj (hr.symm.trans hr'))
    rcases hc with ⟨-, rfl⟩ | ⟨hb, -⟩
    · exact hq
    · exact hq.of_entries_eq hb.entries_eq

theorem KeysIn.autoShrinkAndScub (hq : KeysIn Q m) (h : Exact m) {n : ℤ} {b : Bool}
    (hr : autoShrinkAndScub ideal m n = .ok (b, m')) : KeysIn Q m' := by
  unfold Map.autoShrinkAndScub at hr
  split_ifs at hr
  · obtain ⟨r, hr', hr⟩ := bind_eq_ok.mp hr
    obtain ⟨-, rfl⟩ := Prod.mk.inj (Except.ok.inj hr)
    exact hq.resize h h.toShape.half_capacity hr'
  · obtain ⟨r, hr', hr⟩ := bind_eq_ok.mp hr
    obtain ⟨-, rfl⟩ := Prod.mk.inj (Except.ok.inj hr)
    exact hq.of_entries_eq (scrub_exact h hr').2.1
  · obtain ⟨-, rfl⟩ := Prod.mk.inj (Except.ok.inj hr)
    exact hq

theorem KeysIn.eraseSlot (hq : KeysIn Q m) (h : Exact m) {pos : ℕ} (ho : m.Occupied pos) {b : Bool}
    (hb : b = true ↔ m.HasEmpty (T.off pos)) {r : Option ℕ}
    (hr : eraseSlot ideal m b pos = .ok (r, m')) : KeysIn Q m' := by
  unfold Map.eraseSlot resetSlot at hr
  obtain ⟨⟨keep, m''⟩, hr', hr⟩ := bind_eq_ok.mp hr
  obtain ⟨-, rfl⟩ := Prod.mk.inj (Except.ok.inj hr)
  exact (hq.free h.toShape ho b).autoShrinkAndScub (h.free ho hb) hr'

theorem KeysIn.eraseFirst (hq : KeysIn Q m) (h : Exact m) {key : κ}
    {r : Bool × Option ℕ × ProbeSeq} (hr : m.eraseFirst ideal key = .ok (r, m')) :
    KeysIn Q m' := by
  unfold Map.eraseFirst at hr
  obtain ⟨⟨r', q⟩, hloc, hr⟩ := bind_eq_ok.mp hr
  rcases r' with _ | ⟨pos, b⟩
  · obtain ⟨-, rfl⟩ := Prod.mk.inj (Except.ok.inj hr)
    exact hq
  · obtain ⟨⟨r', m''⟩, hslot, hr⟩ := bind_eq_ok.mp hr
    obtain ⟨-, rfl⟩ := Prod.mk.inj (Except.ok.inj hr)
    obtain ⟨hst, hb⟩ := locateFirst_stores h.toSound hloc pos b rfl
    exact hq.eraseSlot h hst.1 hb hslot

theorem KeysIn.eraseNext (hq : KeysIn Q m) (h : Exact m) {pos : ℕ} {seq : ProbeSeq} {key : κ}
    {r : Bool × Option ℕ × ProbeSeq} (hr : m.eraseNext ideal pos seq key = .ok (r, m')) :
    KeysIn Q m' := by
  unfold Map.eraseNext at hr
  split_ifs at hr
  · obtain ⟨⟨r', q⟩, hloc, hr⟩ := bind_eq_ok.mp hr
    rcases r' with _ | ⟨p, b⟩
    · obtain ⟨-, rfl⟩ := Prod.mk.inj (Except.ok.inj hr)
      exact hq
    · obtain ⟨⟨r', m''⟩, hslot, hr⟩ := bind_eq_ok.mp hr
      obtain ⟨-, rfl⟩ := Prod.mk.inj (Except.ok.inj hr)
      obtain ⟨hst, hb⟩ := locateNext_stores h.toSound hloc p b rfl
      exact hq.eraseSlot h hst.1 hb hslot
  · obtain ⟨-, rfl⟩ := Prod.mk.inj (Except.ok.inj hr)
    exact hq

theorem KeysIn.eraseAt (hq : KeysIn Q m) (h : Exact m) {pos : ℕ} {r : Bool × Option ℕ}
    (hr : m.eraseAt ideal pos = .ok (r, m')) : KeysIn Q m' := by
  unfold Map.eraseAt at hr
  split_ifs at hr with hlt hc
  · rw [h.toShape.off_eq hlt] at hr
    obtain ⟨⟨r', m''⟩, hslot, hr⟩ := bind_eq_ok.mp hr
    obtain ⟨-, rfl⟩ := Prod.mk.inj (Except.ok.inj hr)
    exact hq.eraseSlot h ⟨hlt, hc⟩ (h.hasEmpty_iff (h.off_add_le hlt)) hslot
  · obtain ⟨-, rfl⟩ := Prod.mk.inj (Except.ok.inj hr)
    exact hq

theorem KeysIn.finishErase (hq : KeysIn Q m) {m₁ : Map T ν} {l : List ℕ} (hf : Freed m m₁ l)
    {n : ℤ} (hr : finishErase ideal m m₁ = .ok (n, m')) : KeysIn Q m' := by
  unfold Map.finishErase at hr
  dsimp only at hr
  split_ifs at hr with h0
  · obtain ⟨-, rfl⟩ := Prod.mk.inj (Except.ok.inj hr)
    exact hq.freed hf
  · obtain ⟨⟨b, m''⟩, hr', hr⟩ := bind_eq_ok.mp hr
    obtain ⟨-, rfl⟩ := Prod.mk.inj (Except.ok.inj hr)
    exact (hq.freed hf).autoShrinkAndScub hf.exact hr'

omit [Inhabited ν] in
/-- A placed key is the only one that a table gets. -/
theorem KeysIn.placed (hq : KeysIn Q m) (h : Exact m) {key : κ} (hkey : Q key)
    {r : ℕ × InsertOp × ProbeSeq} (hp : m.Placed key (some (r, m'))) : KeysIn Q m' := by
  obtain ⟨pos, op, q⟩ := r
  rcases hp with ⟨-, -, -, rfl⟩ | ⟨-, e, hv, rfl⟩
  · exact hq
  · intro p hp
    rw [occupy_keyAt h.toShape hv.lt]
    by_cases hpp : p = pos
    · rw [hpp, Function.update_self]
      exact hkey
    · rw [Function.update_of_ne hpp]
      exact hq p ((occupied_put (occupy_frame m pos key e)
        (occupy_stateAt h.toShape hv.lt key e) hpp).mp hp)

theorem KeysIn.insertLoop {key : κ} (hkey : Q key) {r : ℕ × InsertOp × ProbeSeq} :
    ∀ (d : ℕ) {m : Map T ν}, KeysIn Q m → Exact m → insertLoop ideal key d m = .ok (r, m') →
    KeysIn Q m'
  | 0, _, _, _, hr => by cases hr
  | d + 1, m, hq, h, hr => by
      obtain ⟨r', hplaced, heq⟩ := insertLoop_succ h key d
      rw [heq] at hr
      cases r' with
      | some r'' =>
          obtain rfl := Except.ok.inj hr
          exact hq.placed h hkey hplaced
      | none =>
          dsimp only at hr
          split_ifs at hr
          obtain ⟨end_, hend, hr⟩ := bind_eq_ok.mp hr
          obtain ⟨⟨n, m₁⟩, hres, hr⟩ := bind_eq_ok.mp hr
          obtain ⟨hb, -⟩ := grown_spec h hend hres
          exact insertLoop hkey d (hq.of_entries_eq hb.entries_eq) hb.exact hr

theorem KeysIn.insert (hq : KeysIn Q m) (h : Exact m) {key : κ} (hkey : Q key)
    {r : ℕ × InsertOp × ProbeSeq} (hr : m.insert ideal key = .ok (r, m')) : KeysIn Q m' := by
  unfold Map.insert at hr
  split_ifs at hr with hfull
  · obtain ⟨end_, hend, hr⟩ := bind_eq_ok.mp hr
    obtain ⟨⟨n, m₁⟩, hres, hr⟩ := bind_eq_ok.mp hr
    dsimp only at hr
    split_ifs at hr
    obtain ⟨hb, -⟩ := grown_spec h hend hres
    exact insertLoop hkey 64 (hq.of_entries_eq hb.entries_eq) hb.exact hr
  · exact insertLoop hkey 64 hq h hr

omit [Inhabited ν] in
theorem keysIn_of_free (h : ∀ p, ¬ m.Occupied p) : KeysIn Q m := fun p hp => absurd hp (h p)

/-- The step lemma: a call stores no key but its own. -/
theorem KeysIn.step (hq : KeysIn Q m) (h : Exact m) {op : Op κ ν} (hop : ∀ key ∈ op.keys, Q key)
    {r : Result} (hr : m.step ideal op = .ok (r, m')) : KeysIn Q m' := by
  cases op with
  | insert key =>
      obtain ⟨⟨r', m₁⟩, hr', hr⟩ := bind_eq_ok.mp hr
      obtain ⟨-, rfl⟩ := Prod.mk.inj (Except.ok.inj hr)
      exact hq.insert h (hop key List.mem_cons_self) hr'
  | findFirst key =>
      obtain ⟨r', -, hr⟩ := bind_eq_ok.mp hr
      obtain ⟨-, rfl⟩ := Prod.mk.inj (Except.ok.inj hr)
      exact hq
  | findNext pos seq key =>
      obtain ⟨r', -, hr⟩ := bind_eq_ok.mp hr
      obtain ⟨-, rfl⟩ := Prod.mk.inj (Except.ok.inj hr)
      exact hq
  | findIf pred =>
      obtain ⟨-, rfl⟩ := Prod.mk.inj (Except.ok.inj hr)
      exact hq
  | forEach =>
      obtain ⟨-, rfl⟩ := Prod.mk.inj (Except.ok.inj hr)
      exact hq
  | forEachKey key =>
      obtain ⟨r', -, hr⟩ := bind_eq_ok.mp hr
      obtain ⟨-, rfl⟩ := Prod.mk.inj (Except.ok.inj hr)
      exact hq
  | count key =>
      obtain ⟨r', -, hr⟩ := bind_eq_ok.mp hr
      obtain ⟨-, rfl⟩ := Prod.mk.inj (Except.ok.inj hr)
      exact hq
  | eraseFirst key =>
      obtain ⟨⟨r', m₁⟩, hr', hr⟩ := bind_eq_ok.mp hr
      obtain ⟨-, rfl⟩ := Prod.mk.inj (Except.ok.inj hr)
      exact hq.eraseFirst h hr'
  | eraseNext pos seq key =>
      obtain ⟨⟨r', m₁⟩, hr', hr⟩ := bind_eq_ok.mp hr
      obtain ⟨-, rfl⟩ := Prod.mk.inj (Except.ok.inj hr)
      exact hq.eraseNext h hr'
  | eraseAt pos =>
      obtain ⟨⟨r', m₁⟩, hr', hr⟩ := bind_eq_ok.mp hr
      obtain ⟨-, rfl⟩ := Prod.mk.inj (Except.ok.inj hr)
      exact hq.eraseAt h hr'
  | eraseIf pred =>
      obtain ⟨⟨r', m₁⟩, hr', hr⟩ := bind_eq_ok.mp hr
      obtain ⟨-, rfl⟩ := Prod.mk.inj (Except.ok.inj hr)
      obtain ⟨l, hf, -⟩ := freeIf_spec pred (offsets T.kernelSize m.capacity) h
        fun o ho => h.toShape.mem_offsets.mp ho
      exact hq.finishErase hf hr'
  | eraseAll key =>
      obtain ⟨⟨r', m₁⟩, hr', hr⟩ := bind_eq_ok.mp hr
      obtain ⟨-, rfl⟩ := Prod.mk.inj (Except.ok.inj hr)
      unfold eraseAll at hr'
      split_ifs at hr' with hd
      · obtain ⟨m₂, hloop, hr'⟩ := bind_eq_ok.mp hr'
        obtain ⟨l, hf, -⟩ := eraseAllLoop_freed h hloop
        exact hq.finishErase hf hr'
      · obtain ⟨⟨r'', m₂⟩, hfirst, hr'⟩ := bind_eq_ok.mp hr'
        obtain ⟨-, rfl⟩ := Prod.mk.inj (Except.ok.inj hr')
        exact hq.eraseFirst h hfirst
  | grow =>
      obtain ⟨⟨n, m₁⟩, hr', hr⟩ := bind_eq_ok.mp hr
      obtain ⟨-, rfl⟩ := Prod.mk.inj (Except.ok.inj hr)
      obtain ⟨end_, hend, hr'⟩ := bind_eq_ok.mp hr'
      exact hq.resize h (Or.inr (isCapacity_shl1 h.toShape.isCapacity hend).1) hr'
  | shrink =>
      obtain ⟨⟨n, m₁⟩, hr', hr⟩ := bind_eq_ok.mp hr
      obtain ⟨-, rfl⟩ := Prod.mk.inj (Except.ok.inj hr)
      obtain ⟨c, hc, hr'⟩ := bind_eq_ok.mp hr'
      split_ifs at hr'
      · obtain ⟨-, rfl⟩ := Prod.mk.inj (Except.ok.inj hr')
        exact hq
      · exact hq.resize h (Or.inr (shrinkTarget_isCapacity h.toSound hc)) hr'
  | resize n =>
      obtain ⟨⟨n', m₁⟩, hr', hr⟩ := bind_eq_ok.mp hr
      obtain ⟨-, rfl⟩ := Prod.mk.inj (Except.ok.inj hr)
      obtain ⟨c, hc, hr'⟩ := bind_eq_ok.mp hr'
      exact hq.resize h (Or.inr ((isCapacity_bitCeil hc).max m.conf.min_isCapacity)) hr'
  | reserve n =>
      obtain ⟨⟨n', m₁⟩, hr', hr⟩ := bind_eq_ok.mp hr
      obtain ⟨-, rfl⟩ := Prod.mk.inj (Except.ok.inj hr)
      unfold reserve at hr'
      split_ifs at hr'
      · obtain ⟨-, rfl⟩ := Prod.mk.inj (Except.ok.inj hr')
        exact hq
      · obtain ⟨c, hc, hr'⟩ := bind_eq_ok.mp hr'
        exact hq.resize h (Or.inr ((isCapacity_bitCeil hc).max m.conf.min_isCapacity)) hr'
  | clear =>
      obtain ⟨-, rfl⟩ := Prod.mk.inj (Except.ok.inj hr)
      rcases clear_cases m with hc | hc <;> rw [hc]
      · exact keysIn_of_free (reset_not_occupied m)
      · exact keysIn_of_free (reset_not_occupied _)
  | clearTo n =>
      obtain ⟨r', hr', hr⟩ := bind_eq_ok.mp hr
      obtain ⟨-, rfl⟩ := Prod.mk.inj (Except.ok.inj hr)
      rcases clearTo_cases hr' with hc | ⟨c, -, -, hc⟩ <;> rw [hc]
      · exact keysIn_of_free (reset_not_occupied m)
      · exact keysIn_of_free (reset_not_occupied _)
  | scrub =>
      obtain ⟨⟨n, m₁⟩, hr', hr⟩ := bind_eq_ok.mp hr
      obtain ⟨-, rfl⟩ := Prod.mk.inj (Except.ok.inj hr)
      exact hq.of_entries_eq (scrub_exact h hr').2.1
  | setValueAt pos value =>
      obtain ⟨m₁, hr', hr⟩ := bind_eq_ok.mp hr
      obtain ⟨-, rfl⟩ := Prod.mk.inj (Except.ok.inj hr)
      unfold setValueAt at hr'
      split_ifs at hr'
      obtain rfl := Except.ok.inj hr'
      exact hq
  | setBlobAt pos src =>
      obtain ⟨m₁, hr', hr⟩ := bind_eq_ok.mp hr
      obtain ⟨-, rfl⟩ := Prod.mk.inj (Except.ok.inj hr)
      unfold setBlobAt at hr'
      split_ifs at hr'
      obtain rfl := Except.ok.inj hr'
      exact hq

end Calls

/-- The run lemma. -/
theorem keysIn_of_reachable (B : Kernel T.kernelSize) (conf : Conf T.conf) {Q : κ → Prop}
    {P : Map T ν → Op κ ν → Prop} (hP : ∀ m op, P m op → ∀ key ∈ op.keys, Q key) {m : Map T ν}
    (hm : (runs B conf P).Reachable m) : KeysIn Q m := by
  have hinv : Exact m ∧ KeysIn Q m := by
    refine hm.invariant (I := fun m => Exact m ∧ KeysIn Q m) (fun m hm => ?_) fun m m' hi hn => ?_
    · obtain ⟨hinv, hnone, -⟩ := new_spec hm
      refine ⟨hinv.exact, keysIn_iff.mpr fun e he => ?_⟩
      rw [hnone] at he
      exact absurd he (Multiset.notMem_zero e)
    · obtain ⟨op, r, hop, hr⟩ := hn
      refine ⟨((changes_of_step B hi.1 hr).exact hi.1).1, ?_⟩
      rw [(step_agree B.lawful hi.1.toSound op).1] at hr
      exact hi.2.step hi.1 (hP m op hop) hr
  exact hinv.2

end Map

end Nvhm
