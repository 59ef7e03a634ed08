/-
# Numerals in a base

The characters of a number in a base of at most 36, as `printf` and its relatives write them:
`numeral` has no leading zeros, and `signed` has a minus sign for the negative numbers.
`value` and `signedValue` read them.
-/
import CsappLabs.CString

open CString

namespace Radix

/-! ## Digits -/

/-- The character of a digit. -/
def digit (d : ℕ) : UInt8 := if d < 10 then UInt8.ofNat (d + 48) else UInt8.ofNat (d - 10 + 97)

/-- The digit of a character. -/
def digitValue (c : UInt8) : ℕ := if c < 97 then c.toNat - 48 else c.toNat - 97 + 10

/-- The minus sign. -/
def minus : UInt8 := 45

theorem digitValue_digit : ∀ d < 36, digitValue (digit d) = d := by decide

theorem digit_ne : ∀ d < 36, digit d ≠ 0 ∧ digit d ≠ minus := by decide

theorem isdigit_digit : ∀ d < 10, isdigit (digit d) = true := by decide

/-- The digits of a number, the lowest one first. -/
def digits (b n : ℕ) : List ℕ := if n = 0 then [0] else Nat.digits b n

theorem digits_of_lt {b n : ℕ} (h : n < b) : digits b n = [n] := by
  rw [digits]
  split_ifs with hn
  · rw [hn]
  · exact Nat.digits_of_lt b n hn h

/-- The lowest digit comes off. -/
theorem digits_of_le {b n : ℕ} (hb : 1 < b) (h : b ≤ n) :
    digits b n = n % b :: digits b (n / b) := by
  have hdiv : 0 < n / b := Nat.div_pos h (by omega)
  rw [digits, digits, if_neg (by omega), if_neg (by omega), Nat.digits_def' hb (by omega)]

theorem digits_lt {b n d : ℕ} (hb : 1 < b) (hd : d ∈ digits b n) : d < b := by
  rw [digits] at hd
  split_ifs at hd with hn
  · rw [List.mem_singleton] at hd
    omega
  · exact Nat.digits_lt_base hb hd

theorem ofDigits_digits (b n : ℕ) : Nat.ofDigits b (digits b n) = n := by
  rw [digits]
  split_ifs with hn
  · rw [hn, Nat.ofDigits_singleton]
  · exact Nat.ofDigits_digits b n

theorem digits_ne_nil (b n : ℕ) : digits b n ≠ [] := by
  rw [digits]
  split_ifs with hn
  · exact List.cons_ne_nil 0 []
  · exact Nat.digits_ne_nil_iff_ne_zero.mpr hn

theorem length_digits_le {b n k : ℕ} (hb : 1 < b) (hk : 0 < k) (h : n < b ^ k) :
    (digits b n).length ≤ k := by
  rw [digits]
  split_ifs with hn
  · exact hk
  · exact (Nat.digits_length_le_iff hb n).mpr h

/-! ## Numerals -/

/-- The numeral of a number. -/
def numeral (b n : ℕ) : List UInt8 := ((digits b n).map digit).reverse

/-- The number that a numeral denotes. -/
def value (b : ℕ) (s : List UInt8) : ℕ := Nat.ofDigits b (s.reverse.map digitValue)

/-- The numeral of an integer. -/
def signed (b : ℕ) (z : ℤ) : List UInt8 :=
  if z < 0 then minus :: numeral b z.natAbs else numeral b z.natAbs

/-- The integer that a numeral denotes. -/
def signedValue (b : ℕ) (s : List UInt8) : ℤ :=
  if s.head? = some minus then -(value b s.tail : ℤ) else value b s

theorem mem_numeral {b n : ℕ} (hb : 1 < b) {c : UInt8} (hc : c ∈ numeral b n) :
    ∃ d < b, c = digit d := by
  rw [numeral, List.mem_reverse, List.mem_map] at hc
  obtain ⟨d, hd, rfl⟩ := hc
  exact ⟨d, digits_lt hb hd, rfl⟩

theorem numeral_ne_nil (b n : ℕ) : numeral b n ≠ [] := by
  rw [numeral, Ne, List.reverse_eq_nil_iff, List.map_eq_nil_iff]
  exact digits_ne_nil b n

theorem length_numeral_le {b n k : ℕ} (hb : 1 < b) (hk : 0 < k) (h : n < b ^ k) :
    (numeral b n).length ≤ k := by
  rw [numeral, List.length_reverse, List.length_map]
  exact length_digits_le hb hk h

theorem length_signed_le {b k : ℕ} {z : ℤ} (hb : 1 < b) (hk : 0 < k) (h : z.natAbs < b ^ k) :
    (signed b z).length ≤ k + 1 := by
  have hle := length_numeral_le hb hk h
  rw [signed]
  split_ifs
  · exact Nat.succ_le_succ hle
  · omega

section

variable {b : ℕ}

/-- A numeral has no NUL and no sign. -/
theorem notMem_numeral (hb : 1 < b) (hle : b ≤ 36) (n : ℕ) :
    (0 : UInt8) ∉ numeral b n ∧ minus ∉ numeral b n := by
  constructor
  · intro hc
    obtain ⟨d, hd, heq⟩ := mem_numeral hb hc
    exact (digit_ne d (by omega)).1 heq.symm
  · intro hc
    obtain ⟨d, hd, heq⟩ := mem_numeral hb hc
    exact (digit_ne d (by omega)).2 heq.symm

theorem nul_notMem_signed (hb : 1 < b) (hle : b ≤ 36) (z : ℤ) : (0 : UInt8) ∉ signed b z := by
  have hnot := (notMem_numeral hb hle z.natAbs).1
  rw [signed]
  split_ifs
  · rw [List.mem_cons, not_or]
    exact ⟨by decide, hnot⟩
  · exact hnot

/-- **What is written is what is read**, for a natural number. -/
theorem value_numeral (hb : 1 < b) (hle : b ≤ 36) (n : ℕ) : value b (numeral b n) = n := by
  have hmap : ((digits b n).map digit).map digitValue = digits b n := by
    rw [List.map_map]
    refine (List.map_congr_left fun d hd => ?_).trans (List.map_id _)
    have hlt := digits_lt hb hd
    exact digitValue_digit d (by omega)
  rw [value, numeral, List.reverse_reverse, hmap, ofDigits_digits]

/-- **What is written is what is read**, for an integer. -/
theorem signedValue_signed (hb : 1 < b) (hle : b ≤ 36) (z : ℤ) :
    signedValue b (signed b z) = z := by
  have hvalue := value_numeral hb hle z.natAbs
  by_cases hz : z < 0
  · rw [signed, if_pos hz, signedValue, List.head?_cons, if_pos rfl, List.tail_cons, hvalue]
    omega
  · rw [signed, if_neg hz, signedValue, if_neg, hvalue]
    · omega
    · intro hhead
      exact (notMem_numeral hb hle z.natAbs).2 (List.mem_of_head? hhead)

end

end Radix
