/-
# The Sio package

`sio_putl` of `csapp.c` writes a `long` from a signal handler.  `sio_ltoa` puts the digits into
an array with the lowest one first, and `sio_reverse` turns the string round in place.

The negation of the smallest `long` overflows, which C leaves undefined; for every other one
the string is its numeral, in any base (`sioLtoa_signed`).
-/
import CsappLabs.Radix

open CString Radix

namespace Sio

/-! ## The package -/

/-- The smallest `long`. -/
def LONG_MIN : ℤ := -2 ^ 63

/-- A `long`. -/
def IsLong (v : ℤ) : Prop := LONG_MIN ≤ v ∧ v < 2 ^ 63

/-- The loop of `sio_reverse`. -/
def reverseLoop (s : ℕ → UInt8) (i j : ℕ) : ℕ → UInt8 :=
  if i < j then
    reverseLoop (Function.update (Function.update s i (s j)) j (s i)) (i + 1) (j - 1)
  else s
termination_by j - i

/-- `sio_reverse`, of a string in an array of `N` characters. -/
def sioReverse (N : ℕ) (s : ℕ → UInt8) : Option (ℕ → UInt8) := do
  let l ← stringAt N s 0
  some (reverseLoop s 0 (l.length - 1))

/-- The loop of `sio_ltoa`, and the index after it. -/
def ltoaLoop {b : ℕ} (hb : 1 < b) (v i : ℕ) (s : ℕ → UInt8) : (ℕ → UInt8) × ℕ :=
  if _hv : 0 < v / b then ltoaLoop hb (v / b) (i + 1) (Function.update s i (digit (v % b)))
  else (Function.update s i (digit (v % b)), i + 1)
termination_by v
decreasing_by exact Nat.div_lt_self (Nat.pos_of_div_pos _hv) hb

/-- `sio_ltoa(v, s, b)`, where `s` has `N` characters. -/
def sioLtoa {b : ℕ} (hb : 1 < b) (N : ℕ) (v : ℤ) (s : ℕ → UInt8) : Option (ℕ → UInt8) :=
  -- `-v` does not exist
  if v = LONG_MIN then none
  else
    let r := ltoaLoop hb v.natAbs 0 s
    let r := if v < 0 then (Function.update r.1 r.2 minus, r.2 + 1) else r
    if r.2 < N then sioReverse N (Function.update r.1 r.2 0) else none

/-- `sio_strlen`, with `k` characters of the array from `i` on. -/
def sioStrlen (s : ℕ → UInt8) : ℕ → ℕ → Option ℕ
  | 0, _ => none
  | k + 1, i => if s i = 0 then some i else sioStrlen s k (i + 1)

/-- `sio_puts`: the bytes that are passed to `write`. -/
def sioPuts (N : ℕ) (s : ℕ → UInt8) : Option (List UInt8) := do
  let n ← sioStrlen s N 0
  some ((List.range' 0 n).map s)

/-- `sio_putl`, with what was in its array. -/
def sioPutl (s : ℕ → UInt8) (v : ℤ) : Option (List UInt8) := do
  let s ← sioLtoa (show 1 < 10 by decide) 128 v s
  sioPuts 128 s

/-! ## The loops -/

/-- The characters of a part of the array change places. -/
theorem reverseLoop_apply (s : ℕ → UInt8) (i j k : ℕ) :
    reverseLoop s i j k = if i ≤ k ∧ k ≤ j then s (i + j - k) else s k := by
  fun_induction reverseLoop s i j with
  | case1 s i j hij ih =>
      rw [ih]
      by_cases hin : i + 1 ≤ k ∧ k ≤ j - 1
      · -- strictly inside, where the two updates are not seen
        rw [if_pos hin, if_pos (by omega), show i + 1 + (j - 1) - k = i + j - k by omega,
          Function.update_of_ne (by omega), Function.update_of_ne (by omega)]
      · rw [if_neg hin]
        by_cases hj : k = j
        · subst hj
          rw [Function.update_self, if_pos (by omega), Nat.add_sub_cancel]
        · rw [Function.update_of_ne hj]
          by_cases hi : k = i
          · subst hi
            rw [Function.update_self, if_pos (by omega), Nat.add_sub_cancel_left]
          · rw [Function.update_of_ne hi, if_neg (by omega)]
  | case2 s i j hij =>
      split_ifs with hin
      · rw [show i + j - k = k by omega]
      · rfl

/-- **The string is turned round.** -/
theorem stringAt_sioReverse {N : ℕ} {s : ℕ → UInt8} {l : List UInt8}
    (h : stringAt N s 0 = some l) :
    ∃ s', sioReverse N s = some s' ∧ stringAt N s' 0 = some l.reverse := by
  obtain ⟨hnul, hlen, hcells, hend⟩ := stringAt_eq_some.mp h
  refine ⟨reverseLoop s 0 (l.length - 1), by rw [sioReverse, h]; rfl, ?_⟩
  refine stringAt_eq_some.mpr ⟨by rwa [List.mem_reverse], by rwa [List.length_reverse], ?_, ?_⟩
  · intro i hi
    rw [List.length_reverse] at hi
    have hcell := hcells (l.length - 1 - i) (by omega)
    rw [reverseLoop_apply, if_pos (by omega), List.getElem_reverse, ← hcell]
    congr 1
    omega
  · rw [List.length_reverse, reverseLoop_apply]
    rw [Nat.zero_add] at hend ⊢
    split_ifs with hin
    · -- only for the empty string
      rw [show 0 + (l.length - 1) - l.length = l.length by omega]
      exact hend
    · exact hend

/-- The digits, with the lowest one first. -/
theorem ltoaLoop_eq {b : ℕ} (hb : 1 < b) (v i : ℕ) (s : ℕ → UInt8) :
    ltoaLoop hb v i s = (putAt s i ((digits b v).map digit), i + (digits b v).length) := by
  fun_induction ltoaLoop hb v i s with
  | case1 v i s hv ih =>
      have hle : b ≤ v := (Nat.div_pos_iff.mp hv).2
      rw [ih, digits_of_le hb hle, List.map_cons, putAt, List.length_cons]
      congr 1
      omega
  | case2 v i s hv =>
      have hlt : v < b := by
        by_contra hge
        exact hv (Nat.div_pos (by omega) (by omega))
      rw [digits_of_lt hlt, Nat.mod_eq_of_lt hlt]
      rfl

theorem sioStrlen_eq (s : ℕ → UInt8) (k i : ℕ) :
    sioStrlen s k i = (scan s k i).map fun l => i + l.length := by
  induction k generalizing i with
  | zero => rfl
  | succ k ih =>
      rw [sioStrlen, scan]
      split_ifs
      · rfl
      · rw [ih, Option.map_map]
        congr 1
        funext l
        show i + 1 + l.length = i + (l.length + 1)
        omega

/-- The whole string is written. -/
theorem sioPuts_eq {N : ℕ} {s : ℕ → UInt8} {l : List UInt8} (h : stringAt N s 0 = some l) :
    sioPuts N s = some l := by
  have hscan : scan s N 0 = some l := h
  obtain ⟨-, -, hcells, -⟩ := stringAt_eq_some.mp h
  rw [sioPuts, sioStrlen_eq, hscan]
  show some ((List.range' 0 (0 + l.length)).map s) = some l
  congr 1
  refine List.ext_getElem (by simp) fun i hi hi' => ?_
  have hcell := hcells i hi'
  rw [List.getElem_map, List.getElem_range', ← hcell, Nat.one_mul]

/-! ## What is written -/

/-- The characters before the string is turned round, and the NUL. -/
theorem stringAt_written {N : ℕ} (s : ℕ → UInt8) {l : List UInt8} (hnul : (0 : UInt8) ∉ l)
    (hlen : l.length < N) : stringAt N (Function.update (putAt s 0 l) l.length 0) 0 = some l := by
  have hseq : Function.update (putAt s 0 l) l.length 0 = strcpy s l := by
    rw [strcpy, putAt_append, Nat.zero_add]
    rfl
  rw [hseq]
  exact stringAt_strcpy s hnul hlen

/-- What the loop and the sign leave is the numeral backwards. -/
theorem exists_backwards {b : ℕ} (hb : 1 < b) {N : ℕ} {v : ℤ} (hmin : v ≠ LONG_MIN)
    (hroom : (signed b v).length < N) (s : ℕ → UInt8) :
    ∃ l, l.reverse = signed b v ∧
      sioLtoa hb N v s = sioReverse N (Function.update (putAt s 0 l) l.length 0) := by
  have hrev : ((digits b v.natAbs).map digit).reverse = numeral b v.natAbs := rfl
  have hlen := congrArg List.length hrev
  rw [List.length_reverse, List.length_map] at hlen
  rw [sioLtoa, if_neg hmin, ltoaLoop_eq, Nat.zero_add]
  rw [signed] at hroom ⊢
  by_cases hneg : v < 0
  · rw [if_pos hneg, List.length_cons] at hroom
    simp only [if_pos hneg]
    refine ⟨(digits b v.natAbs).map digit ++ [minus], by rw [List.reverse_concat, hrev], ?_⟩
    have hlast : Function.update (putAt s 0 ((digits b v.natAbs).map digit))
        (digits b v.natAbs).length minus =
        putAt s 0 ((digits b v.natAbs).map digit ++ [minus]) := by
      rw [putAt_append, Nat.zero_add, List.length_map]
      rfl
    rw [hlast, List.length_append, List.length_map]
    exact if_pos (by omega)
  · rw [if_neg hneg] at hroom
    simp only [if_neg hneg]
    refine ⟨(digits b v.natAbs).map digit, hrev, ?_⟩
    rw [List.length_map]
    exact if_pos (by omega)

/-- The numeral of a `long` is short. -/
theorem length_signed {b k : ℕ} (hb : 1 < b) (hk : 0 < k) (hpow : 2 ^ 63 ≤ b ^ k) {v : ℤ}
    (hv : IsLong v) (hmin : v ≠ LONG_MIN) : (signed b v).length ≤ k + 1 := by
  obtain ⟨hlow, hhigh⟩ := hv
  rw [LONG_MIN] at hlow hmin
  have habs : v.natAbs < 2 ^ 63 := by omega
  exact length_signed_le hb hk (habs.trans_le hpow)

/-- **`sio_ltoa`** is defined for every `long` but the smallest one, and leaves its numeral, in
any base and whatever was in the array. -/
theorem sioLtoa_signed {b : ℕ} (hb : 1 < b) (hle : b ≤ 36) {N : ℕ} (hN : 64 < N) {v : ℤ}
    (hv : IsLong v) (s : ℕ → UInt8) :
    (sioLtoa hb N v s = none ↔ v = LONG_MIN) ∧
      ∀ s' ∈ sioLtoa hb N v s, stringAt N s' 0 = some (signed b v) := by
  by_cases hmin : v = LONG_MIN
  · have hnone : sioLtoa hb N v s = none := by rw [sioLtoa, if_pos hmin]
    rw [hnone]
    exact ⟨iff_of_true rfl hmin, by simp⟩
  · have hshort := length_signed hb (show 0 < 63 by decide) (Nat.pow_le_pow_left hb 63) hv hmin
    have hnul := nul_notMem_signed hb hle v
    obtain ⟨l, hl, heq⟩ := exists_backwards hb hmin (N := N) (by omega) s
    rw [← hl, List.length_reverse] at hshort
    rw [← hl, List.mem_reverse] at hnul
    have hroom : l.length < N := by omega
    obtain ⟨s', hs', hstring⟩ := stringAt_sioReverse (stringAt_written s hnul hroom)
    rw [heq, hs', ← hl]
    refine ⟨iff_of_false (Option.some_ne_none s') hmin, fun t ht => ?_⟩
    obtain rfl := Option.mem_some_iff.mp ht
    exact hstring

/-- **`sio_putl`** writes the decimal numeral of every `long` but the smallest one, in at most
20 characters, and what it writes can be read back; on the smallest one it is undefined. -/
theorem sioPutl_signed (s : ℕ → UInt8) {v : ℤ} (hv : IsLong v) :
    (sioPutl s v = none ↔ v = LONG_MIN) ∧
      ∀ out ∈ sioPutl s v, out = signed 10 v ∧ signedValue 10 out = v ∧ out.length ≤ 20 := by
  obtain ⟨hnone, hsome⟩ := @sioLtoa_signed 10 (by decide) (by decide) 128 (by decide) v hv s
  rw [sioPutl]
  rcases hltoa : sioLtoa (show 1 < 10 by decide) 128 v s with _ | s'
  · exact ⟨iff_of_true rfl (hnone.mp hltoa), by simp⟩
  · have hmin : v ≠ LONG_MIN := fun h => Option.some_ne_none s' (hltoa ▸ hnone.mpr h)
    have hputs : sioPuts 128 s' = some (signed 10 v) := sioPuts_eq (hsome s' hltoa)
    have hlen := @length_signed 10 19 (by decide) (by decide) (by decide) v hv hmin
    have hvalue := @signedValue_signed 10 (by decide) (by decide) v
    show (sioPuts 128 s' = none ↔ v = LONG_MIN) ∧ ∀ out ∈ sioPuts 128 s', _
    rw [hputs]
    refine ⟨iff_of_false (Option.some_ne_none _) hmin, fun out hout => ?_⟩
    obtain rfl := Option.mem_some_iff.mp hout
    exact ⟨rfl, hvalue, hlen⟩

/-- A negative number, in an array of zeroes. -/
theorem sioPutl_signed_negative :
    ∃ out, sioPutl (fun _ => 0) (-120) = some out ∧ out = signed 10 (-120) ∧
      signedValue 10 out = -120 ∧ out.length ≤ 20 := by
  obtain ⟨hnone, hsome⟩ := sioPutl_signed (fun _ => 0) (v := -120)
    ⟨by norm_num [LONG_MIN], by norm_num⟩
  rcases hout : sioPutl (fun _ => 0) (-120) with _ | out
  · exact absurd (hnone.mp hout) (by norm_num [LONG_MIN])
  · exact ⟨out, rfl, hsome out hout⟩

example : sioPutl (fun _ => 0) (-120) = some [45, 49, 50, 48] := by decide +kernel

end Sio
