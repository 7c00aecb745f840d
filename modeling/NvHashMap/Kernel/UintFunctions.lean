import NvHashMap.Kernel.ArrayFunctions
import NvHashMap.Kernel.UintKernel

/-! # All functions of the integer kernels

The functions of `uint_kernel<Repr, false>` are correct (`correct`), so they agree with those of the
array kernel of the same size (`uint_agrees`): the bits of each mask are the marks of the slots, and
no carry, borrow or shift of a byte reaches another byte or the bits above the bucket. -/

namespace Nvhm

open Buffer Lanes SlotSet

namespace UintKernel
variable {k : ℕ}

/-! ### Definitions -/

def maskNot (fast : Bool) (x : Repr k) (s : State) : MaskRepr k := mask fast x s ^^^ msbs k

def maskNotEmpty (x : Repr k) : MaskRepr k := maskEmpty x ^^^ msbs k

/-- `hash_to_tombstone`. -/
def hashToTombstone (x : Repr k) : Repr k :=
  let m : MaskRepr k := x.setWidth _
  (msbs k ||| (((~~~m >>> 7) ||| m) &&& lsbs k)).setWidth _

variable (k)

/-- The functions of `uint_kernel`. -/
def fns (fast : Bool) : KernelFns (Repr k) (Repr k) (MaskRepr k) where
  maskType := (maskType k).ops (2 ^ k)
  load := load k
  store := store
  mask := mask fast
  maskNot := maskNot fast
  maskHash := maskHash
  maskNotHash := maskNotHash
  maskEmpty := maskEmpty
  maskNotEmpty := maskNotEmpty
  maskTombstone := maskTombstone
  maskNotTombstone := maskNotTombstone
  maskEqual := maskEqual
  maskNotEqual := maskNotEqual
  hasHash x := maskHash x != 0
  hasNotHash x := maskNotHash x != 0
  hasEmpty x := maskEmpty x != 0
  hasNotEmpty x := maskNotEmpty x != 0
  hasTombstone x := maskTombstone x != 0
  hasNotTombstone x := maskNotTombstone x != 0
  countEqual x y := (maskType k).count (maskEqual x y)
  countNotEqual x y := (maskType k).count (maskNotEqual x y)
  hashToTombstone := hashToTombstone
  notHashToEmpty := notHashToEmpty
  toEmpty := toEmpty
  stateAt := stateAt
  loadLru := load k
  storeLru := store
  minLru l := minLruLoop (2 ^ k) (stateAt l)
  maskMinLru := maskMinLru
  maskLruBelow := maskLruBelow
  updateLru := updateLru
  toEmptyIfLruBelow := toEmptyIfLruBelow
  lruAt := stateAt

/-- The sets that masks denote. -/
def sets : MaskSets (MaskRepr k) := ⟨(maskType k).IsMask (2 ^ k), (maskType k).toSet (2 ^ k)⟩

/-! ### The functions are correct -/

variable {k}

theorem store_load {l : List (BitVec 8)} (hl : l.length = 2 ^ k) : store (load k l) = l := by
  refine Eq.trans (List.map_congr_left fun i _ => ?_) (map_range_getD hl 0)
  exact stateAt_load hl i

variable (hk : k ≤ 4)
include hk

theorem isRepr : (maskType k).IsRepr (2 ^ k) where
  width := by
    change maskWidth _ = 32 ∨ maskWidth _ = 64 ∨ maskWidth _ = 128
    unfold maskWidth
    split_ifs
    · exact Or.inl rfl
    · exact Or.inr (Or.inl rfl)
    · exact Or.inr (Or.inr rfl)
  shift := le_rfl
  used := width_le hk

omit hk in
theorem Marks.denotes {m : MaskRepr k} {c : ℕ → Bool} (h : Marks m c) :
    (sets k).Denotes (2 ^ k) m c := by
  refine ⟨h.isMask, Finset.ext fun i => ?_⟩
  rw [sets, MaskType.mem_toSet, mem_below]
  refine and_congr_right fun hi => ?_
  rw [getLsbD_bit, h.mark i hi]

theorem marks_hashToTombstone {b : List State} (hb : IsBucket (2 ^ k) b) :
    store (hashToTombstone (load k b)) = b.map fun s => if isHash s then tombstone else s := by
  refine store_eq (by simp [hb.1]) fun i hi => ?_
  have hbyte : ∀ s : State, validState s = true → (0x80#8 ||| if (~~~s).getLsbD 7 || s.getLsbD 0
      then 1#8 else 0#8) = if isHash s then tombstone else s := by
    decide
  have hlow : ∀ z : BitVec 8, z &&& 1#8 = if z.getLsbD 0 then 1#8 else 0#8 := by decide
  have hi' : i < b.length := hb.1 ▸ hi
  rw [lane_or, lane_and, lane_or, lane_msbs hk hi, lane_lsbs hk hi, hlow, BitVec.getLsbD_or,
    getLsbD_ushiftRight_seven, lane_not_mask hk _ hi, lane_load hk hi,
    hbyte _ (hb.valid_getD hi 0), List.getD_eq_getElem _ _ hi',
    List.getD_eq_getElem _ _ (by simpa using hi'), List.getElem_map]

theorem toEmpty_spec {b : List State} (hb : b.length = 2 ^ k) {m : MaskRepr k}
    (hm : (sets k).valid m) : store (toEmpty (load k b) m) = emptied b ((sets k).toSet m) := by
  have hmarks : Marks m fun i => decide (i ∈ (sets k).toSet m) := by
    refine ⟨hm, fun i hi => ?_⟩
    rw [Bool.eq_iff_iff, decide_eq_true_iff, sets, MaskType.mem_toSet, getLsbD_bit]
    exact (and_iff_right hi).symm
  refine toEmpty_eq hk hmarks (by simp [emptied, hb]) fun i hi => ?_
  have hi' : i < b.length := hb ▸ hi
  simp [emptied, hi']

theorem updateLru_spec {l : List Lru} (hl : l.length = 2 ^ k) {n : MaskRepr k}
    (hn : (sets k).valid n) (hne : ((sets k).toSet n).Nonempty) :
    store (updateLru (load k l) n) = bumpLru l (((sets k).toSet n).min' hne) := by
  have hmem := ((sets k).toSet n).min'_mem hne
  have hlt : ((sets k).toSet n).min' hne < 2 ^ k := (MaskType.mem_toSet.mp hmem).1
  have hnext : (maskType k).next n = ((sets k).toSet n).min' hne :=
    (MaskType.implements (isRepr hk)).next n hn hne
  have hsingle : (maskType k).next ((maskType k).single (((sets k).toSet n).min' hne) true) =
      ((sets k).toSet n).min' hne := (maskType k).next_single (width_le hk) hlt
  rw [← updateLru_eq hk hl hlt, updateLru, updateLru, hnext, hsingle]

/-- Every function of `uint_kernel` without false positives is correct. -/
theorem correct : (fns k false).Correct (sets k) (2 ^ k) where
  maskType := MaskType.implements (isRepr hk)
  store_load b hb := store_load hb.1
  mask b s hb := (marks_mask hk s).denotes
  maskNot b s hb := ((marks_mask hk s).xor hk).denotes
  maskHash b hb := (marks_hash hk).denotes
  maskNotHash b hb := (marks_notHash hk).denotes
  maskEmpty b hb := (marks_empty hk hb).denotes
  maskNotEmpty b hb := ((marks_empty hk hb).xor hk).denotes
  maskTombstone b hb := (marks_tombstone hk hb).denotes
  maskNotTombstone b hb := ((marks_tombstone hk hb).xor hk).denotes
  maskEqual b b' hb hb' := (marks_equal hk).denotes
  maskNotEqual b b' hb hb' := ((marks_equal hk).xor hk).denotes
  hasHash b hb := (marks_hash hk).hasNext.trans (exists_slot hb.1 isHash)
  hasNotHash b hb := (marks_notHash hk).hasNext.trans (exists_slot_not hb.1)
  hasEmpty b hb := (marks_empty hk hb).hasNext.trans (exists_slot_eq hb.1 empty)
  hasNotEmpty b hb := ((marks_empty hk hb).xor hk).hasNext.trans (exists_slot_ne hb.1 empty)
  hasTombstone b hb := (marks_tombstone hk hb).hasNext.trans (exists_slot_eq hb.1 tombstone)
  hasNotTombstone b hb :=
    ((marks_tombstone hk hb).xor hk).hasNext.trans (exists_slot_ne hb.1 tombstone)
  countEqual b b' hb hb' := (marks_equal hk).denotes.count (MaskType.implements (isRepr hk))
  countNotEqual b b' hb hb' :=
    ((marks_equal hk).xor hk).denotes.count (MaskType.implements (isRepr hk))
  hashToTombstone b hb := marks_hashToTombstone hk hb
  notHashToEmpty b hb := notHashToEmpty_eq hk hb
  toEmpty b m hb hm := toEmpty_spec hk hb.1 hm
  stateAt b i hb hi := stateAt_load hb.1 i
  storeLru_loadLru l hl := store_load hl
  minLru l hl := minLruLoop_eq hl (stateAt_load hl)
  minLruSlot l hl := by
    have hlt := minLruLoop_lt (Nat.two_pow_pos k) (stateAt (load k l))
    refine ⟨((MaskType.implements (isRepr hk)).single _ hlt).1, ?_⟩
    refine ((maskType k).next_single (width_le hk) hlt).trans ?_
    exact congrArg Prod.snd (minLruLoop_eq hl (stateAt_load hl))
  maskLruBelow l t hl := (marks_lruBelow hk hl t).denotes
  updateLru l n hl hn hne := updateLru_spec hk hl hn hne
  toEmptyIfLruBelow b l t hb hl := toEmptyIfLruBelow_eq hk hb.1 hl t
  lruAt l i hl hi := stateAt_load hl i

end UintKernel

/-! ### Main result -/

/-- `uint_kernel<Repr, false>` of 1, 2, 4, 8 or 16 bytes agrees with the array kernel of the same
size on every bucket of valid states and all LRU counters; `mask_min_lru` marks the same slot. -/
theorem uint_agrees {k : ℕ} (hk : k ≤ 4) :
    (UintKernel.fns k false).Agrees (UintKernel.sets k) (ArrayKernel.wordFns (2 ^ k))
        (ArrayKernel.wordSets (2 ^ k)) (2 ^ k) ∧
      ∀ l : List Lru, l.length = 2 ^ k → (UintKernel.sets k).Same (ArrayKernel.wordSets (2 ^ k))
        ((UintKernel.fns k false).maskMinLru ((UintKernel.fns k false).loadLru l))
        ((ArrayKernel.wordFns (2 ^ k)).maskMinLru ((ArrayKernel.wordFns (2 ^ k)).loadLru l)) := by
  have hK : 2 ^ k ≤ 128 := (Nat.pow_le_pow_right two_pos hk).trans (by norm_num)
  have hbits := ArrayKernel.bitPerSlot_word hK
  refine ⟨(UintKernel.correct hk).agrees (ArrayKernel.correct hbits (Nat.two_pow_pos k)), ?_⟩
  intro l hl
  have hlt := minLruLoop_lt (Nat.two_pow_pos k) (ArrayKernel.lruAt l)
  have hloop : minLruLoop (2 ^ k) (UintKernel.stateAt (UintKernel.load k l)) =
      minLruLoop (2 ^ k) (ArrayKernel.lruAt l) :=
    (minLruLoop_eq hl (UintKernel.stateAt_load hl)).trans (minLruLoop_eq hl fun _ => rfl).symm
  have hu := (MaskType.implements (UintKernel.isRepr hk)).single _ hlt
  have ha := hbits.implements.single _ hlt
  change (UintKernel.sets k).Same _ ((UintKernel.maskType k).single
    (minLruLoop (2 ^ k) (UintKernel.stateAt (UintKernel.load k l))).2 true) _
  rw [hloop]
  exact ⟨hu.1, ha.1, hu.2.trans ha.2.symm⟩

/-- Four states and four counters in a word of 32 bits. -/
theorem uint_agrees_words :
    let F := UintKernel.fns 2 false
    let G := ArrayKernel.wordFns 4
    F.store (F.hashToTombstone (F.load [0x03, 0x02, empty, tombstone])) =
        G.store (G.hashToTombstone (G.load [0x03, 0x02, empty, tombstone])) ∧
      F.storeLru (F.updateLru (F.loadLru [0xff, 0x80, 0x01, 0x00]) (F.maskType.single 0)) =
        G.storeLru (G.updateLru (G.loadLru [0xff, 0x80, 0x01, 0x00]) (G.maskType.single 0)) := by
  intro F G
  have hb : IsBucket (2 ^ 2) [0x03, 0x02, empty, tombstone] := ⟨rfl, by decide⟩
  obtain ⟨hagree, -⟩ := uint_agrees (k := 2) (by decide)
  have hu := (UintKernel.correct (k := 2) (by decide)).maskType.single 0 (by decide)
  have ha := (ArrayKernel.bitPerSlot_word (by decide : 4 ≤ 128)).implements.single 0 (by decide)
  refine ⟨hagree.hashToTombstone _ hb, ?_⟩
  refine hagree.updateLru _ _ _ rfl ⟨hu.1, ha.1, hu.2.trans ha.2.symm⟩ ?_
  rw [hu.2]
  exact Finset.singleton_nonempty 0

end Nvhm
