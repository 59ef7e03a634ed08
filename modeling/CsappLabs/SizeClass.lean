/-
# The size class of a block

`U` computes the index of the free list for a block size: five or-shift steps
on a 32-bit word, an increment and a bit scan.  Up to `2 ^ 31` it is the
rounded-up binary logarithm (`U_eq_clog`), so list `i` holds the sizes above
`2 ^ (i - 1)` and up to `2 ^ i`.
-/
import CsappLabs.BitFill
import CsappLabs.Mm

open BitFill

namespace Malloc

/-- The scan stops at the bit of a power of two. -/
theorem uScan_two_pow {k : ℕ} : ∀ {fuel u : ℕ}, u ≤ k → k < u + fuel →
    uScan (2 ^ k) fuel u = some k := by
  intro fuel
  induction fuel with
  | zero => intro u hu hk; omega
  | succ fuel ih =>
      intro u hu hk
      rw [uScan, Nat.shiftRight_eq_div_pow, Nat.and_one_is_mod]
      rcases Nat.eq_or_lt_of_le hu with rfl | hlt
      · rw [Nat.div_self (by positivity), if_pos (by norm_num)]
      · have hdiv : 2 ^ k / 2 ^ u = 2 * 2 ^ (k - u - 1) := by
          rw [Nat.pow_div hu (by norm_num), ← pow_succ']
          congr 1
          omega
        rw [hdiv, if_neg (by simp)]
        exact ih hlt (by omega)

/-- **`U` is the rounded-up logarithm.** -/
theorem U_eq_clog {s : ℕ} (h1 : 1 ≤ s) (h2 : s ≤ 2 ^ 31) : U s = some (Nat.clog 2 s) := by
  rw [U, if_neg (by omega)]
  rcases Nat.eq_or_lt_of_le h1 with rfl | hs
  · decide
  · -- `k` is the top bit of `s - 1`; each or-shift doubles the run of ones below it
    obtain ⟨k, hk⟩ : ∃ k, k = Nat.log 2 (s - 1) := ⟨_, rfl⟩
    have hlo : 2 ^ k ≤ s - 1 := hk ▸ Nat.pow_log_le_self 2 (by omega)
    have hhi : s - 1 < 2 ^ (k + 1) := hk ▸ Nat.lt_pow_succ_log_self (by norm_num) _
    have hk31 : k < 31 := by
      by_contra hc
      have : 2 ^ 31 ≤ 2 ^ k := Nat.pow_le_pow_right (by norm_num) (by omega)
      omega
    have hfill := (topRun_one hlo hhi).orShift.orShift.orShift.orShift.orShift.eq_two_pow_sub_one
      (by omega)
    have hclog : Nat.clog 2 s = k + 1 := by
      apply le_antisymm
      · exact Nat.clog_le_of_le_pow (by omega)
      · exact (Nat.lt_clog_iff_pow_lt (by norm_num)).mpr (by omega)
    have hpow : 2 ^ (k + 1) ≤ 2 ^ 31 := Nat.pow_le_pow_right (by norm_num) (by omega)
    simp only [Nat.mul_one, Nat.reduceMul] at hfill
    simp only [hfill, hclog]
    rw [Nat.sub_add_cancel Nat.one_le_two_pow, u32, Nat.mod_eq_of_lt (by omega)]
    exact uScan_two_pow (by omega) (by omega)

/-- List `i` holds the sizes from `2 ^ (i - 1)` (exclusive) to `2 ^ i`. -/
theorem clog_eq_iff {s i : ℕ} (hi : 1 ≤ i) :
    Nat.clog 2 s = i ↔ 2 ^ (i - 1) < s ∧ s ≤ 2 ^ i := by
  rw [← Nat.lt_clog_iff_pow_lt (by norm_num), ← Nat.clog_le_iff_le_pow (by norm_num)]
  omega

/-- A list passes the filter of `find_fit` when its sizes go up to that size. -/
theorem le_maxSize_iff {s i : ℕ} : s ≤ maxSize i ↔ Nat.clog 2 s ≤ i := by
  rw [maxSize, Nat.one_shiftLeft, Nat.clog_le_iff_le_pow (by norm_num)]

/-- **The size class is the rounded-up logarithm**, and the filter of `find_fit` passes the
lists from the class on. -/
theorem size_class {s : ℕ} (h1 : 1 ≤ s) (h2 : s ≤ 2 ^ 31) :
    ∃ u, U s = some u ∧ s ≤ 2 ^ u ∧ (∀ v, s ≤ 2 ^ v → u ≤ v) ∧
      ∀ i < N, (s ≤ maxSize i ↔ u ≤ i) := by
  refine ⟨Nat.clog 2 s, U_eq_clog h1 h2, ?_, fun v hv => ?_, fun i _ => le_maxSize_iff⟩
  · exact Nat.le_pow_clog (by norm_num) s
  · exact Nat.clog_le_of_le_pow hv

/-- The size behind a power of two. -/
theorem size_class_nine : ∃ u, U 9 = some u ∧ 9 ≤ 2 ^ u ∧ (∀ v, 9 ≤ 2 ^ v → u ≤ v) ∧
    ∀ i < N, (9 ≤ maxSize i ↔ u ≤ i) := size_class (by norm_num) (by norm_num)

end Malloc
