import NvHashMap.Common

/-! # Keys and hashes

`hash.hpp`.

* A key type brings its equality and its hash function.  Nothing is asked of the hash function
  but that equal keys have equal hashes.
* A hash is split into a position, a state byte and a shard index, by one of two layouts. -/

namespace Nvhm

/-! ### Keys -/

/-- A key type: `==` is an equivalence, and equal keys have equal hashes (`key_to_hash`). -/
structure KeyType (κ : Type) where
  eq : κ → κ → Bool
  hash : κ → ℕ
  eq_refl : ∀ a, eq a a = true
  eq_symm : ∀ {a b}, eq a b = true → eq b a = true
  eq_trans : ∀ {a b c}, eq a b = true → eq b c = true → eq a c = true
  hash_lt : ∀ a, hash a < 2 ^ 64
  hash_congr : ∀ {a b}, eq a b = true → hash a = hash b

namespace KeyType
variable {κ : Type} (Q : KeyType κ)

theorem eq_comm (a b : κ) : Q.eq a b = Q.eq b a :=
  Bool.eq_iff_iff.mpr ⟨Q.eq_symm, Q.eq_symm⟩

theorem eq_congr_left {a b : κ} (h : Q.eq a b = true) (c : κ) : Q.eq a c = Q.eq b c :=
  Bool.eq_iff_iff.mpr ⟨Q.eq_trans (Q.eq_symm h), Q.eq_trans h⟩

theorem eq_congr_right {a b : κ} (h : Q.eq a b = true) (c : κ) : Q.eq c a = Q.eq c b := by
  rw [Q.eq_comm c a, Q.eq_comm c b, Q.eq_congr_left h]

end KeyType

/-- The key type of 64-bit words that are their own hash. -/
def wordKey : KeyType (Fin (2 ^ 64)) where
  eq a b := decide (a = b)
  hash a := a.val
  eq_refl _ := decide_eq_true rfl
  eq_symm h := decide_eq_true (of_decide_eq_true h).symm
  eq_trans h h' := decide_eq_true ((of_decide_eq_true h).trans (of_decide_eq_true h'))
  hash_lt a := a.isLt
  hash_congr h := congrArg Fin.val (of_decide_eq_true h)

/-! ### Hash layouts -/

inductive HashLayout where
  | traditional
  | monkeyWrench
deriving DecidableEq, Repr

def numStateBits : ℕ := 7
def stateMask : ℕ := 2 ^ numStateBits - 1
def maxNumShards : ℕ := 16384
def numShardBits : ℕ := 14

/-- `hash_to_pos`, for a kernel of `2 ^ numKernelBits` slots. -/
def hashToPos (layout : HashLayout) (numKernelBits h : ℕ) : ℕ :=
  match layout with
  | .traditional =>
      if numStateBits ≤ numKernelBits then h * 2 ^ (numKernelBits - numStateBits) % 2 ^ 64
      else h / 2 ^ (numStateBits - numKernelBits)
  | .monkeyWrench => h * 2 ^ numKernelBits % 2 ^ 64

/-- `hash_to_state`. -/
def hashToState (layout : HashLayout) (h : ℕ) : State :=
  match layout with
  | .traditional => BitVec.ofNat 8 (h &&& stateMask)
  | .monkeyWrench => BitVec.ofNat 8 (h / 2 ^ (64 - numStateBits))

/-- `hash_to_shard_idx`. -/
def hashToShardIdx (layout : HashLayout) (h : ℕ) : ℕ :=
  match layout with
  | .traditional => h / 2 ^ (64 - numShardBits)
  | .monkeyWrench => h / 2 ^ (64 - numStateBits - numShardBits)

theorem hashToPos_lt (layout : HashLayout) (k : ℕ) {h : ℕ} (hh : h < 2 ^ 64) :
    hashToPos layout k h < 2 ^ 64 := by
  cases layout with
  | traditional =>
      simp only [hashToPos]
      split_ifs
      · exact Nat.mod_lt _ (by decide)
      · exact lt_of_le_of_lt (Nat.div_le_self _ _) hh
  | monkeyWrench => exact Nat.mod_lt _ (by decide)

/-- A state byte made from a hash is a fingerprint. -/
theorem isHash_hashToState (layout : HashLayout) {h : ℕ} (hh : h < 2 ^ 64) :
    isHash (hashToState layout h) = true := by
  rw [isHash_iff]
  cases layout with
  | traditional =>
      have hle : h &&& stateMask ≤ 127 := Nat.and_le_right
      simp only [hashToState, BitVec.toNat_ofNat]
      exact lt_of_le_of_lt (Nat.mod_le _ _) (by omega)
  | monkeyWrench =>
      have hlt : h / 2 ^ (64 - numStateBits) < 128 := by
        rw [Nat.div_lt_iff_lt_mul (by decide)]
        exact hh
      simp only [hashToState, BitVec.toNat_ofNat]
      exact lt_of_le_of_lt (Nat.mod_le _ _) hlt

end Nvhm
