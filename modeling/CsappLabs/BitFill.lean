/-
# Filling a word below its top bit

The steps `n |= n >> 1; n |= n >> 2; n |= n >> 4; …` double the run of ones
that ends at the top bit of `n`.  `TopRun n k w` is the invariant: bit `k` is
the top bit and the `w` bits ending there are set.  Once the run reaches bit
`0`, the word is `2 ^ (k + 1) - 1`, and one more makes it the power of two that
rounds the original number up.
-/
import Mathlib

namespace BitFill

/-- Bit `k` is the top bit of `n` and the `w` bits from `k` downwards are set. -/
structure TopRun (n k w : ℕ) : Prop where
  set : ∀ i, i ≤ k → k < i + w → n.testBit i = true
  top : ∀ i, n.testBit i = true → i ≤ k

/-- A number between `2 ^ k` and `2 ^ (k + 1)` has its top bit at `k`. -/
theorem topRun_one {n k : ℕ} (hlo : 2 ^ k ≤ n) (hhi : n < 2 ^ (k + 1)) : TopRun n k 1 where
  set i hi hk := by
    obtain rfl : i = k := by omega
    rw [Nat.testBit_eq_decide_div_mod_eq, decide_eq_true_eq]
    have h1 : n / 2 ^ i = 1 := by
      apply Nat.div_eq_of_lt_le
      · simpa using hlo
      · rw [pow_succ] at hhi
        omega
    rw [h1]
  top i hi := by
    by_contra hc
    have hpow : 2 ^ (k + 1) ≤ 2 ^ i := Nat.pow_le_pow_right (by norm_num) (by omega)
    rw [Nat.testBit_lt_two_pow (lt_of_lt_of_le hhi hpow)] at hi
    exact absurd hi (by simp)

/-- One or-shift step doubles the run. -/
theorem TopRun.orShift {n k w : ℕ} (h : TopRun n k w) : TopRun (n ||| n >>> w) k (2 * w) where
  set i hi hk := by
    rw [Nat.testBit_or, Nat.testBit_shiftRight, Bool.or_eq_true]
    by_cases hw : k < i + w
    · exact Or.inl (h.set i hi hw)
    · exact Or.inr (h.set (w + i) (by omega) (by omega))
  top i hi := by
    rw [Nat.testBit_or, Nat.testBit_shiftRight, Bool.or_eq_true] at hi
    rcases hi with hi | hi
    · exact h.top i hi
    · have := h.top (w + i) hi
      omega

/-- A run that reaches bit `0` fills the word. -/
theorem TopRun.eq_two_pow_sub_one {n k w : ℕ} (h : TopRun n k w) (hw : k < w) :
    n = 2 ^ (k + 1) - 1 := by
  apply Nat.eq_of_testBit_eq
  intro i
  rw [Nat.testBit_two_pow_sub_one]
  by_cases hi : i ≤ k
  · rw [h.set i hi (by omega), decide_eq_true (by omega)]
  · rw [decide_eq_false (by omega), Bool.eq_false_iff]
    exact fun hb => hi (h.top i hb)

end BitFill
