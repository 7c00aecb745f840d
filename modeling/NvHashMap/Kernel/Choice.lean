import NvHashMap.Cache.Run
import NvHashMap.Kernel.UintKernel

/-! # The choice of the kernel

Nothing that a program sees depends on the kernel of a map or a cache: all kernels of one bucket
width run like the ideal one.  The fast mask of `uint_kernel` may list slots that do not match, but
only occupied ones, and the keys of all candidates are compared. -/

namespace Nvhm

variable {κ ν : Type} [Inhabited κ]

/-- The slots that a lawful kernel offers as candidates for a state. -/
theorem BucketOps.Lawful.occupied_of_mem {B : BucketOps} {K : ℕ} (hB : B.Lawful K)
    {b : List State} (hb : IsBucket K b) {s : State} (hs : isHash s = true) {i : ℕ}
    (hi : i ∈ B.hits b s) : i < K ∧ isHash (b.getD i tombstone) = true := by
  obtain ⟨c, heq, hc⟩ := hB.hits b s hb hs
  rw [heq, List.mem_filter, List.mem_range] at hi
  exact ⟨hi.1, (hc i hi.1).2 hi.2⟩

/-- Candidates in a bucket of a map. -/
theorem Map.Sound.occupied_of_candidate {T : MapType κ} {m : Map T ν} (h : Map.Sound m)
    {B : BucketOps} (hB : B.Lawful T.kernelSize) {o : ℕ} (hd : T.kernelSize ∣ o)
    (ho : o < m.capacity) (key : κ) {i : ℕ} (hi : i ∈ B.hits (m.bucket o) (Map.keyState T key)) :
    m.Occupied (o + i) := by
  obtain ⟨hlt, hs⟩ := hB.occupied_of_mem (h.isBucket hd ho) (Map.isHash_keyState T key) hi
  have hle := h.offset_add_le hd ho
  rw [Map.bucket_getD m o hlt] at hs
  exact ⟨by omega, hs⟩

/-- Candidates in a bucket of a cache. -/
theorem Cache.Inv.occupied_of_candidate {T : CacheType κ} {m : Cache T ν} (h : Cache.Inv m)
    {B : BucketOps} (hB : B.Lawful T.kernelSize) {o : ℕ} (hd : T.kernelSize ∣ o)
    (ho : o < m.capacity) (key : κ) {i : ℕ} (hi : i ∈ B.hits (m.bucket o) (Cache.keyState T key)) :
    o + i < m.capacity ∧ m.containsAt (o + i) = true := by
  rw [Cache.bucket_eq h.shape hd ho] at hi
  exact Cache.occupied_iff.mp (h.sound.occupied_of_candidate hB hd ho key hi)

section Choice
variable [Inhabited ν] {T : MapType κ} {U : CacheType κ}

/-- Two maps, or two caches, that differ only in the kernel return the same and end in the same
state, whatever is called; and the false positives of the fast mask are occupied slots. -/
theorem kernel_unobservable (hT : T.conf.kernelBits ≤ 4) (hU : U.conf.kernelBits ≤ 4) (fast : Bool)
    (confT : Conf T.conf) (confU : Conf U.conf) (opsT : List (Map.Op κ ν))
    (opsU : List (Cache.Op κ ν)) :
    Map.exec T (UintKernel.ops T.conf.kernelBits fast) confT opsT =
        Map.exec T (ArrayKernel.ops T.kernelSize) confT opsT ∧
      Cache.exec U (UintKernel.ops U.conf.kernelBits fast) confU opsU =
        Cache.exec U (ArrayKernel.ops U.kernelSize) confU opsU ∧
      (∀ rs m, Map.exec T (UintKernel.ops T.conf.kernelBits fast) confT opsT = .ok (rs, m) →
        ∀ o key i, T.kernelSize ∣ o → o < m.capacity →
          i ∈ (UintKernel.ops T.conf.kernelBits fast).hits (m.bucket o) (Map.keyState T key) →
          o + i < m.capacity ∧ m.containsAt (o + i) = true) ∧
      ∀ rs m, Cache.exec U (UintKernel.ops U.conf.kernelBits fast) confU opsU = .ok (rs, m) →
        ∀ o key i, U.kernelSize ∣ o → o < m.capacity →
          i ∈ (UintKernel.ops U.conf.kernelBits fast).hits (m.bucket o) (Cache.keyState U key) →
          o + i < m.capacity ∧ m.containsAt (o + i) = true := by
  have huT := UintKernel.lawful hT fast
  have huU := UintKernel.lawful hU fast
  have hKT : T.kernelSize ≤ 128 := (Nat.pow_le_pow_right two_pos hT).trans (by norm_num)
  have hKU : U.kernelSize ≤ 128 := (Nat.pow_le_pow_right two_pos hU).trans (by norm_num)
  have hmap := Map.exec_agree huT confT opsT
  have hcache := Cache.exec_agree huU confU opsU
  refine ⟨?_, ?_, fun rs m hr o key i hd ho hi => ?_, fun rs m hr o key i hd ho hi => ?_⟩
  · rw [hmap.1, (Map.exec_agree (ArrayKernel.lawful hKT T.kernelSize_pos) confT opsT).1]
  · rw [hcache.1,
      (Cache.exec_agree (ArrayKernel.lawful hKU (Cache.kernelSize_pos U)) confU opsU).1]
  · exact (hmap.2 _ (hmap.1.symm.trans hr)).occupied_of_candidate huT hd ho key hi
  · exact (hcache.2 _ (hcache.1.symm.trans hr)).occupied_of_candidate huU hd ho key hi

/-- A map and a cache of eight slots per bucket with the fast mask. -/
theorem kernel_unobservable_words :
    Map.exec (Map.wordMap 3 true) (UintKernel.ops 3 true) (Map.wordConf 3 true)
        [.insert 0, .insert 1, .insert 0, .count 0, .eraseFirst 1, .scrub] =
      Map.exec (Map.wordMap 3 true) (ArrayKernel.ops 8) (Map.wordConf 3 true)
        ([.insert 0, .insert 1, .insert 0, .count 0, .eraseFirst 1, .scrub] :
          List (Map.Op (Fin (2 ^ 64)) ℕ)) ∧
      Cache.exec (Cache.wordCache 3 false) (UintKernel.ops 3 true) (Map.wordConf 3 false)
        [.insert 0, .insert 1, .findFirst 0, .resize 64, .scrub 1] =
      Cache.exec (Cache.wordCache 3 false) (ArrayKernel.ops 8) (Map.wordConf 3 false)
        ([.insert 0, .insert 1, .findFirst 0, .resize 64, .scrub 1] :
          List (Cache.Op (Fin (2 ^ 64)) ℕ)) := by
  have h := kernel_unobservable (T := Map.wordMap 3 true) (U := Cache.wordCache 3 false)
    (ν := ℕ) (by decide : 3 ≤ 4) (by decide : 3 ≤ 4) true (Map.wordConf 3 true)
    (Map.wordConf 3 false) [.insert 0, .insert 1, .insert 0, .count 0, .eraseFirst 1, .scrub]
    [.insert 0, .insert 1, .findFirst 0, .resize 64, .scrub 1]
  exact ⟨h.1, h.2.1⟩

end Choice

end Nvhm
