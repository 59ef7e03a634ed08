/-
# Strings in arrays of characters

An array of characters is a map on its indices, with a size `N` that the accesses have
to respect.  A string is what stands in the array up to the first NUL; there is none
when no NUL comes before the end of the array.

The functions of `string.h` that only read are functions on the characters of a string;
positions count from its start.
-/
import Mathlib

namespace CString

/-- The characters of a literal. -/
def text (s : String) : List UInt8 := s.toList.map fun c => UInt8.ofNat c.toNat

/-- What stands before the first NUL. -/
def cstring (s : List UInt8) : List UInt8 := s.takeWhile fun c => c ≠ 0

/-- The characters from `p` to the first NUL, among the next `k`. -/
def scan (b : ℕ → UInt8) : ℕ → ℕ → Option (List UInt8)
  | 0, _ => none
  | k + 1, p => if b p = 0 then some [] else (scan b k (p + 1)).map (b p :: ·)

/-- The string at `p` in an array of size `N`. -/
def stringAt (N : ℕ) (b : ℕ → UInt8) (p : ℕ) : Option (List UInt8) := scan b (N - p) p

/-- Characters put into an array, from `p` on. -/
def putAt (b : ℕ → UInt8) (p : ℕ) : List UInt8 → ℕ → UInt8
  | [] => b
  | c :: s => putAt (Function.update b p c) (p + 1) s

/-- `strcpy`, of a string. -/
def strcpy (b : ℕ → UInt8) (s : List UInt8) : ℕ → UInt8 := putAt b 0 (s ++ [0])

/-- `tolower`. -/
def tolower (c : UInt8) : UInt8 := if 65 ≤ c ∧ c ≤ 90 then c + 32 else c

/-- `strcasecmp` returns 0, for the string at `p` and another one. -/
def strcasecmp (b : ℕ → UInt8) (p : ℕ) : List UInt8 → Bool
  | [] => b p = 0
  | c :: s => tolower (b p) = tolower c && strcasecmp b (p + 1) s

/-- `strncasecmp` returns 0. -/
def strncasecmp (s t : List UInt8) (n : ℕ) : Bool := (s.take n).map tolower = (t.take n).map tolower

/-- `strchr`. -/
def strchr (s : List UInt8) (c : UInt8) : Option ℕ := s.idxOf? c

/-- `strstr`. -/
def strstr (s needle : List UInt8) : Option ℕ :=
  if needle.isPrefixOf s then some 0
  else match s with
    | [] => none
    | _ :: s => (strstr s needle).map (· + 1)

/-- `isdigit`. -/
def isdigit (c : UInt8) : Bool := 48 ≤ c ∧ c ≤ 57

/-- `isspace`. -/
def isspace (c : UInt8) : Bool := c = 32 ∨ (9 ≤ c ∧ c ≤ 13)

/-- What `sscanf` finds for a number of `%s`: words, after white space. -/
def words : ℕ → List UInt8 → List (List UInt8)
  | 0, _ => []
  | k + 1, s =>
      let s := s.dropWhile isspace
      if s = [] then []
      else (s.takeWhile fun c => ¬ isspace c) :: words k (s.dropWhile fun c => ¬ isspace c)

/-! ## Strings and the cells of an array -/

theorem scan_eq_some {b : ℕ → UInt8} {k p : ℕ} {s : List UInt8} :
    scan b k p = some s ↔ (0 : UInt8) ∉ s ∧ s.length < k ∧
      (∀ i (h : i < s.length), b (p + i) = s[i]) ∧ b (p + s.length) = 0 := by
  induction k generalizing p s with
  | zero => simp [scan]
  | succ k ih =>
      rw [scan]
      split_ifs with hp
      · cases s with
        | nil => simp [hp]
        | cons c s =>
            refine iff_of_false (by simp) ?_
            rintro ⟨hmem, -, hcells, -⟩
            have hc : b p = c := hcells 0 (by simp)
            exact hmem (by simp [← hc, hp])
      · cases s with
        | nil =>
            refine iff_of_false (by simp) ?_
            rintro ⟨-, -, -, hend⟩
            exact hp hend
        | cons c s =>
            rw [Option.map_eq_some_iff]
            constructor
            · rintro ⟨s', hs', heq⟩
              obtain ⟨rfl, rfl⟩ := List.cons.inj heq
              obtain ⟨hmem, hlen, hcells, hend⟩ := ih.mp hs'
              refine ⟨?_, by simpa using hlen, ?_, ?_⟩
              · rw [List.mem_cons, not_or]
                exact ⟨fun h => hp h.symm, hmem⟩
              · intro i hi
                cases i with
                | zero => rfl
                | succ i =>
                    have := hcells i (by simpa using hi)
                    rw [List.getElem_cons_succ, ← this, Nat.add_assoc, Nat.add_comm 1]
              · rw [List.length_cons, Nat.add_comm s'.length, ← Nat.add_assoc]
                exact hend
            · rintro ⟨hmem, hlen, hcells, hend⟩
              have hc : b p = c := hcells 0 (by simp)
              rw [List.mem_cons, not_or] at hmem
              refine ⟨s, ih.mpr ⟨hmem.2, by simpa using hlen, ?_, ?_⟩, by rw [hc]⟩
              · intro i hi
                have := hcells (i + 1) (by simpa using hi)
                rw [List.getElem_cons_succ] at this
                rw [← this, Nat.add_assoc, Nat.add_comm 1]
              · rw [List.length_cons, Nat.add_comm s.length, ← Nat.add_assoc] at hend
                exact hend

/-- **The string at `p`**, cell by cell. -/
theorem stringAt_eq_some {N : ℕ} {b : ℕ → UInt8} {p : ℕ} {s : List UInt8} :
    stringAt N b p = some s ↔ (0 : UInt8) ∉ s ∧ p + s.length < N ∧
      (∀ i (h : i < s.length), b (p + i) = s[i]) ∧ b (p + s.length) = 0 := by
  rw [stringAt, scan_eq_some]
  constructor
  · rintro ⟨hmem, hlen, hrest⟩
    exact ⟨hmem, by omega, hrest⟩
  · rintro ⟨hmem, hlen, hrest⟩
    exact ⟨hmem, by omega, hrest⟩

/-- A suffix of a string is a string. -/
theorem stringAt_add {N : ℕ} {b : ℕ → UInt8} {p : ℕ} {s t : List UInt8}
    (h : stringAt N b p = some (s ++ t)) : stringAt N b (p + s.length) = some t := by
  obtain ⟨hmem, hlen, hcells, hend⟩ := stringAt_eq_some.mp h
  rw [List.length_append] at hlen hend
  refine stringAt_eq_some.mpr ⟨fun ht => hmem (by simp [ht]), by omega, ?_, ?_⟩
  · intro i hi
    have := hcells (s.length + i) (by simp; omega)
    rw [List.getElem_append_right (by omega)] at this
    simpa [Nat.add_assoc] using this
  · rw [Nat.add_assoc]
    exact hend

theorem stringAt_drop {N : ℕ} {b : ℕ → UInt8} {p : ℕ} {s : List UInt8}
    (h : stringAt N b 0 = some s) (hp : p ≤ s.length) : stringAt N b p = some (s.drop p) := by
  rw [← List.take_append_drop p s] at h
  have := stringAt_add h
  rwa [List.length_take_of_le hp, Nat.zero_add] at this

/-- Without a NUL there is no string. -/
theorem stringAt_eq_none {N : ℕ} {b : ℕ → UInt8} {p : ℕ}
    (h : ∀ j, p ≤ j → j < N → b j ≠ 0) : stringAt N b p = none := by
  rw [Option.eq_none_iff_forall_ne_some]
  intro s hs
  obtain ⟨-, hlen, -, hend⟩ := stringAt_eq_some.mp hs
  exact h _ (Nat.le_add_right p _) hlen hend

/-- Another character in a string. -/
theorem stringAt_update {N : ℕ} {b : ℕ → UInt8} {s : List UInt8} {i : ℕ} {c : UInt8}
    (h : stringAt N b 0 = some s) (hi : i < s.length) (hc : c ≠ 0) :
    stringAt N (Function.update b i c) 0 = some (s.set i c) := by
  obtain ⟨hmem, hlen, hcells, hend⟩ := stringAt_eq_some.mp h
  refine stringAt_eq_some.mpr ⟨?_, by simpa using hlen, ?_, ?_⟩
  · intro hset
    rcases List.mem_or_eq_of_mem_set hset with h | h
    · exact hmem h
    · exact hc h.symm
  · intro j hj
    rw [List.length_set] at hj
    rw [Nat.zero_add, List.getElem_set]
    by_cases hij : i = j
    · rw [if_pos hij, ← hij, Function.update_self]
    · rw [if_neg hij, Function.update_of_ne (Ne.symm hij), ← hcells j hj, Nat.zero_add]
  · rw [List.length_set, Function.update_of_ne (by omega)]
    exact hend

/-- A character in the place of the NUL, when the next cell is another NUL. -/
theorem stringAt_extend {N : ℕ} {b : ℕ → UInt8} {s : List UInt8} {c : UInt8}
    (h : stringAt N b 0 = some s) (hc : c ≠ 0) (hlen : s.length + 1 < N)
    (hnext : b (s.length + 1) = 0) :
    stringAt N (Function.update b s.length c) 0 = some (s ++ [c]) := by
  obtain ⟨hmem, -, hcells, -⟩ := stringAt_eq_some.mp h
  refine stringAt_eq_some.mpr ⟨?_, by simpa using hlen, ?_, ?_⟩
  · rw [List.mem_append, List.mem_singleton, not_or]
    exact ⟨hmem, Ne.symm hc⟩
  · intro j hj
    rw [List.length_append, List.length_singleton] at hj
    rw [Nat.zero_add]
    by_cases hjs : j = s.length
    · subst hjs
      simp
    · rw [Function.update_of_ne hjs, List.getElem_append_left (by omega), ← hcells j (by omega),
        Nat.zero_add]
  · rw [List.length_append, List.length_singleton, Nat.zero_add, Function.update_of_ne (by omega)]
    exact hnext

theorem scan_congr {b b' : ℕ → UInt8} {k p : ℕ} (h : ∀ j, p ≤ j → b' j = b j) :
    scan b' k p = scan b k p := by
  induction k generalizing p with
  | zero => rfl
  | succ k ih => rw [scan, scan, h p le_rfl, ih fun j hj => h j (by omega)]

/-- The first character of a string, and the rest. -/
theorem stringAt_succ {N : ℕ} (b : ℕ → UInt8) {p : ℕ} (hp : p < N) :
    stringAt N b p = if b p = 0 then some [] else (stringAt N b (p + 1)).map (b p :: ·) := by
  have hsucc : N - p = (N - (p + 1)) + 1 := by omega
  rw [stringAt, stringAt, hsucc, scan]

/-- Another character before a string. -/
theorem stringAt_update_of_lt {N : ℕ} (b : ℕ → UInt8) {i p : ℕ} (c : UInt8) (h : i < p) :
    stringAt N (Function.update b i c) p = stringAt N b p :=
  scan_congr fun _ hj => Function.update_of_ne (by omega) ..

/-- A character in the place of the NUL: the string goes on with what stood behind it. -/
theorem stringAt_overwrite_end {N : ℕ} {b : ℕ → UInt8} {s : List UInt8} {c : UInt8}
    (h : stringAt N b 0 = some s) (hc : c ≠ 0) :
    stringAt N (Function.update b s.length c) s.length =
      (stringAt N b (s.length + 1)).map (c :: ·) := by
  have hlen := (stringAt_eq_some.mp h).2.1
  rw [stringAt_succ _ (by omega), Function.update_self, if_neg hc,
    stringAt_update_of_lt b c (Nat.lt_succ_self _)]

theorem stringAt_overwrite {N : ℕ} {b : ℕ → UInt8} {s t : List UInt8} {c : UInt8}
    (h : stringAt N b 0 = some s) (hc : c ≠ 0) (ht : stringAt N b (s.length + 1) = some t) :
    stringAt N (Function.update b s.length c) 0 = some (s ++ c :: t) := by
  obtain ⟨hmem, -, hcells, -⟩ := stringAt_eq_some.mp h
  have hend := stringAt_overwrite_end h hc
  rw [ht, Option.map_some] at hend
  obtain ⟨hmem', hlen', hcells', hend'⟩ := stringAt_eq_some.mp hend
  refine stringAt_eq_some.mpr ⟨?_, ?_, fun i hi => ?_, ?_⟩
  · rw [List.mem_append, not_or]
    exact ⟨hmem, hmem'⟩
  · rw [List.length_append]
    omega
  · by_cases his : i < s.length
    · rw [List.getElem_append_left his, Nat.zero_add, Function.update_of_ne (by omega),
        ← hcells i his, Nat.zero_add]
    · rw [List.length_append] at hi
      have hcell := hcells' (i - s.length) (by omega)
      have hsum : s.length + (i - s.length) = i := by omega
      rw [hsum] at hcell
      rw [Nat.zero_add, hcell, List.getElem_append_right (by omega)]
  · rw [List.length_append, Nat.zero_add]
    exact hend'

/-- A string stays when a cell behind it is written. -/
theorem stringAt_update_of_gt {N : ℕ} {b : ℕ → UInt8} {q d : ℕ} {w : List UInt8} (c : UInt8)
    (h : stringAt N b q = some w) (hd : q + w.length < d) :
    stringAt N (Function.update b d c) q = some w := by
  obtain ⟨hnul, hlen, hcells, hend⟩ := stringAt_eq_some.mp h
  refine stringAt_eq_some.mpr ⟨hnul, hlen, fun i hi => ?_, ?_⟩
  · rw [Function.update_of_ne (by omega)]
    exact hcells i hi
  · rw [Function.update_of_ne (by omega)]
    exact hend

/-- A NUL in a string ends it. -/
theorem stringAt_cut {N : ℕ} {b : ℕ → UInt8} {q : ℕ} {w r : List UInt8} {c : UInt8}
    (h : stringAt N b q = some (w ++ c :: r)) :
    stringAt N (Function.update b (q + w.length) 0) q = some w := by
  obtain ⟨hnul, hlen, hcells, -⟩ := stringAt_eq_some.mp h
  rw [List.length_append] at hlen
  refine stringAt_eq_some.mpr ⟨fun hw => hnul (by simp [hw]), by omega, fun i hi => ?_, ?_⟩
  · rw [Function.update_of_ne (by omega), hcells i (by rw [List.length_append]; omega),
      List.getElem_append_left hi]
  · exact Function.update_self ..

theorem putAt_apply (b : ℕ → UInt8) (p : ℕ) (s : List UInt8) (j : ℕ) :
    putAt b p s j = if h : p ≤ j ∧ j < p + s.length then s[j - p] else b j := by
  induction s generalizing b p with
  | nil => rw [putAt, dif_neg (by rw [List.length_nil]; omega)]
  | cons c s ih =>
      rw [putAt, ih]
      by_cases hj : j = p
      · subst hj
        rw [dif_neg (by omega), dif_pos (by simp), Function.update_self]
        simp
      · by_cases hin : p + 1 ≤ j ∧ j < p + 1 + s.length
        · rw [dif_pos hin, dif_pos (by simp; omega)]
          have hsucc : j - p = (j - (p + 1)) + 1 := by omega
          simp only [hsucc, List.getElem_cons_succ]
        · rw [dif_neg hin, dif_neg (by simp; omega), Function.update_of_ne hj]

/-- One piece after the other. -/
theorem putAt_append (b : ℕ → UInt8) (p : ℕ) (s t : List UInt8) :
    putAt b p (s ++ t) = putAt (putAt b p s) (p + s.length) t := by
  induction s generalizing b p with
  | nil => rfl
  | cons c s ih =>
      rw [List.cons_append, putAt, putAt, ih, List.length_cons]
      congr 1
      omega

/-- `strcpy` leaves the cells after the NUL. -/
theorem strcpy_after (b : ℕ → UInt8) {s : List UInt8} {j : ℕ} (h : s.length < j) :
    strcpy b s j = b j := by
  rw [strcpy, putAt_apply, dif_neg (by simp; omega)]

theorem strcpy_before (b : ℕ → UInt8) {s : List UInt8} {j : ℕ} (h : j < s.length) :
    strcpy b s j = s[j] := by
  rw [strcpy, putAt_apply, dif_pos (by simp; omega)]
  simp [List.getElem_append_left h]

theorem strcpy_end (b : ℕ → UInt8) (s : List UInt8) : strcpy b s s.length = 0 := by
  rw [strcpy, putAt_apply, dif_pos (by simp)]
  simp

/-- **What was copied is the string.** -/
theorem stringAt_strcpy {N : ℕ} (b : ℕ → UInt8) {s : List UInt8} (hnul : (0 : UInt8) ∉ s)
    (hlen : s.length < N) : stringAt N (strcpy b s) 0 = some s := by
  refine stringAt_eq_some.mpr ⟨hnul, by omega, ?_, ?_⟩
  · intro i hi
    rw [Nat.zero_add, strcpy_before b hi]
  · rw [Nat.zero_add, strcpy_end]

/-- An array whose first character was set to NUL. -/
theorem stringAt_cleared {N : ℕ} (hN : 0 < N) (b : ℕ → UInt8) :
    stringAt N (Function.update b 0 0) 0 = some [] := by
  refine stringAt_eq_some.mpr ⟨List.not_mem_nil, by simpa using hN, by simp, ?_⟩
  exact Function.update_self ..

/-! ## Comparing and searching -/

/-- The first cell of a string. -/
theorem stringAt_nil {N : ℕ} {b : ℕ → UInt8} {p : ℕ} (h : stringAt N b p = some []) : b p = 0 :=
  (stringAt_eq_some.mp h).2.2.2

theorem stringAt_cons {N : ℕ} {b : ℕ → UInt8} {p : ℕ} {c : UInt8} {s : List UInt8}
    (h : stringAt N b p = some (c :: s)) : b p = c ∧ c ≠ 0 ∧ stringAt N b (p + 1) = some s := by
  obtain ⟨hmem, -, hcells, -⟩ := stringAt_eq_some.mp h
  refine ⟨hcells 0 (by simp), ?_, stringAt_add (s := [c]) h⟩
  rintro rfl
  exact hmem List.mem_cons_self

/-- What stands behind the NUL. -/
theorem stringAt_behind {N : ℕ} {b : ℕ → UInt8} {q : ℕ} {w r : List UInt8} {c : UInt8}
    (h : stringAt N b q = some (w ++ c :: r)) :
    stringAt N (Function.update b (q + w.length) 0) (q + w.length + 1) = some r := by
  rw [stringAt_update_of_lt _ _ (Nat.lt_succ_self _)]
  exact (stringAt_cons (stringAt_add h)).2.2

/-- The first character of a string. -/
theorem stringAt_head {N : ℕ} {b : ℕ → UInt8} {q : ℕ} {w : List UInt8} {c : UInt8} (hc : c ≠ 0)
    (h : stringAt N b q = some w) : b q = c ↔ w.head? = some c := by
  cases w with
  | nil =>
      rw [stringAt_nil h]
      exact iff_of_false (Ne.symm hc) (by simp)
  | cons d w =>
      rw [(stringAt_cons h).1, List.head?_cons, Option.some.injEq]

theorem tolower_eq_zero {c : UInt8} (h : tolower c = 0) : c = 0 := by
  unfold tolower at h
  split_ifs at h with hc
  · -- an upper-case letter is far from the wrap
    have hle : c.toNat ≤ 90 := UInt8.le_iff_toNat_le.mp hc.2
    have hsum := congrArg UInt8.toNat h
    rw [UInt8.toNat_add] at hsum
    simp only [UInt8.reduceToNat, UInt8.toNat_zero] at hsum
    omega
  · exact h

/-- `strcasecmp` reads the string only. -/
theorem strcasecmp_eq {b : ℕ → UInt8} {N p : ℕ} {s t : List UInt8}
    (h : stringAt N b p = some s) (ht : (0 : UInt8) ∉ t) :
    strcasecmp b p t = decide (s.map tolower = t.map tolower) := by
  induction t generalizing p s with
  | nil =>
      rw [strcasecmp]
      cases s with
      | nil => simp [stringAt_nil h]
      | cons c s =>
          obtain ⟨hp, hc, -⟩ := stringAt_cons h
          simp [hp, hc]
  | cons c t ih =>
      rw [List.mem_cons, not_or] at ht
      rw [strcasecmp]
      cases s with
      | nil =>
          have hne : tolower (b p) ≠ tolower c := by
            rw [stringAt_nil h]
            exact fun heq => ht.1 (tolower_eq_zero heq.symm).symm
          simp [hne]
      | cons d s =>
          obtain ⟨hp, -, hrest⟩ := stringAt_cons h
          rw [ih hrest ht.2, hp]
          simp

/-- `strchr` splits the string. -/
theorem strchr_eq_some {s : List UInt8} {c : UInt8} {i : ℕ} :
    strchr s c = some i ↔ ∃ l r, s = l ++ c :: r ∧ c ∉ l ∧ i = l.length := by
  rw [strchr, List.idxOf?_eq_some_iff]
  constructor
  · rintro ⟨hi, hc, hbefore⟩
    refine ⟨s.take i, s.drop (i + 1), ?_, ?_, by rw [List.length_take_of_le hi.le]⟩
    · rw [← hc, List.getElem_cons_drop, List.take_append_drop]
    · intro hmem
      obtain ⟨j, hj, heq⟩ := List.mem_take_iff_getElem.mp hmem
      exact hbefore j (by omega) heq
  · rintro ⟨l, r, rfl, hc, rfl⟩
    refine ⟨by simp, by simp, fun j hj heq => hc ?_⟩
    rw [List.getElem_append_left hj] at heq
    exact heq ▸ List.getElem_mem hj

/-- The first occurrence, and none. -/
theorem strchr_append {c : UInt8} {l : List UInt8} (hc : c ∉ l) (r : List UInt8) :
    strchr (l ++ c :: r) c = some l.length := strchr_eq_some.mpr ⟨l, r, rfl, hc, rfl⟩

theorem strchr_eq_none {c : UInt8} {s : List UInt8} : strchr s c = none ↔ c ∉ s :=
  List.idxOf?_eq_none_iff

/-- What comes before the first character of the needle is skipped. -/
theorem strstr_append {c : UInt8} {l : List UInt8} (hc : c ∉ l) (s needle : List UInt8) :
    strstr (l ++ s) (c :: needle) = (strstr s (c :: needle)).map (· + l.length) := by
  induction l with
  | nil => simp
  | cons d l ih =>
      rw [List.mem_cons, not_or] at hc
      have hpre : ¬ (c :: needle).isPrefixOf (d :: (l ++ s)) = true := by simp [hc.1]
      rw [List.cons_append, strstr, if_neg hpre, ih hc.2, Option.map_map]
      rfl

theorem strstr_prefix (needle s : List UInt8) : strstr (needle ++ s) needle = some 0 := by
  have hpre : needle.isPrefixOf (needle ++ s) = true :=
    List.isPrefixOf_iff_prefix.mpr (List.prefix_append needle s)
  rw [strstr.eq_def, if_pos hpre]

/-- A search for a character that is not there. -/
theorem strstr_eq_none {s needle : List UInt8} {c : UInt8} (hc : c ∉ s) :
    strstr s (c :: needle) = none := by
  induction s with
  | nil => rfl
  | cons d s ih =>
      rw [List.mem_cons, not_or] at hc
      rw [strstr, if_neg, ih hc.2]
      · rfl
      · simp [hc.1]

/-- A needle is found when it is somewhere in the string. -/
theorem strstr_isSome {s needle : List UInt8} :
    (strstr s needle).isSome = true ↔ needle <:+: s := by
  induction s with
  | nil =>
      rw [strstr]
      split_ifs with hpre
      · exact iff_of_true rfl (List.isPrefixOf_iff_prefix.mp hpre).isInfix
      · refine iff_of_false Bool.false_ne_true fun hinfix => hpre ?_
        rw [List.infix_nil.mp hinfix]
        rfl
  | cons c s ih =>
      rw [strstr]
      split_ifs with hpre
      · exact iff_of_true rfl (List.isPrefixOf_iff_prefix.mp hpre).isInfix
      · rw [Option.isSome_map, ih, List.infix_cons_iff]
        exact (or_iff_right fun h => hpre (List.isPrefixOf_iff_prefix.mpr h)).symm

/-- What was found lies within the string. -/
theorem strstr_le {s needle : List UInt8} {p : ℕ} (h : strstr s needle = some p) :
    p + needle.length ≤ s.length := by
  induction s generalizing p with
  | nil =>
      rw [strstr] at h
      split_ifs at h with hpre
      · obtain rfl := Option.some.inj h
        have := (List.isPrefixOf_iff_prefix.mp hpre).length_le
        omega
  | cons c s ih =>
      rw [strstr] at h
      split_ifs at h with hpre
      · obtain rfl := Option.some.inj h
        have := (List.isPrefixOf_iff_prefix.mp hpre).length_le
        omega
      · obtain ⟨q, hq, rfl⟩ := Option.map_eq_some_iff.mp h
        have := ih hq
        rw [List.length_cons]
        omega

/-! ## Words -/

/-- A word has no white space in it. -/
theorem mem_words {k : ℕ} {s w : List UInt8} (hw : w ∈ words k s) :
    w ≠ [] ∧ ∀ c ∈ w, isspace c = false := by
  induction k generalizing s with
  | zero => cases hw
  | succ k ih =>
      rw [words] at hw
      split_ifs at hw with hnil
      · cases hw
      · rcases List.mem_cons.mp hw with rfl | hw
        · refine ⟨?_, fun c hc => by simpa using List.mem_takeWhile_imp hc⟩
          obtain ⟨c, rest, hrest⟩ := List.exists_cons_of_ne_nil hnil
          have hc : isspace c = false := by
            have hhead := List.head?_dropWhile_not isspace s
            rw [hrest] at hhead
            simpa using hhead
          rw [hrest, List.takeWhile_cons_of_pos (by simp [hc])]
          exact List.cons_ne_nil _ _
        · exact ih hw

/-- The words are parts of the string, in their order. -/
theorem words_sublist (k : ℕ) (s : List UInt8) : (words k s).flatten.Sublist s := by
  induction k generalizing s with
  | zero => exact List.nil_sublist s
  | succ k ih =>
      rw [words]
      have hdrop := List.dropWhile_sublist (l := s) isspace
      split_ifs
      · exact List.nil_sublist s
      · rw [List.flatten_cons]
        refine List.Sublist.trans ?_ hdrop
        conv_rhs => rw [← List.takeWhile_append_dropWhile (p := fun c => ¬ isspace c)
          (l := s.dropWhile isspace)]
        exact (ih _).append_left _

theorem words_space {k : ℕ} {d : UInt8} {s : List UInt8} (hd : isspace d = true) :
    words k (d :: s) = words k s := by
  cases k with
  | zero => rfl
  | succ k => rw [words, words, List.dropWhile_cons_of_pos hd]

/-- The first word of a string. -/
theorem words_word {k : ℕ} {w s : List UInt8} {d : UInt8} (hw : w ≠ [])
    (hnot : ∀ c ∈ w, isspace c = false) (hd : isspace d = true) :
    words (k + 1) (w ++ d :: s) = w :: words k s := by
  obtain ⟨c, w', rfl⟩ := List.exists_cons_of_ne_nil hw
  have hdrop : ((c :: w') ++ d :: s).dropWhile isspace = (c :: w') ++ d :: s := by
    rw [List.cons_append, List.dropWhile_cons_of_neg]
    simp [hnot c List.mem_cons_self]
  have hkeep : ∀ a ∈ c :: w', (fun c => decide (¬ isspace c = true)) a = true := by
    intro a ha
    simp [hnot a ha]
  rw [words, hdrop, if_neg (by simp), List.takeWhile_append_of_pos hkeep, List.dropWhile_append_of_pos hkeep,
    List.takeWhile_cons_of_neg (by simp [hd]), List.dropWhile_cons_of_neg (by simp [hd]),
    words_space hd, List.append_nil]

theorem cstring_eq_self {s : List UInt8} (h : (0 : UInt8) ∉ s) : cstring s = s := by
  rw [cstring, List.takeWhile_eq_self_iff]
  intro c hc
  apply decide_eq_true
  rintro rfl
  exact h hc

/-- The string goes on behind characters other than NUL. -/
theorem cstring_append {l : List UInt8} (h : (0 : UInt8) ∉ l) (r : List UInt8) :
    cstring (l ++ r) = l ++ cstring r := by
  apply List.takeWhile_append_of_pos
  intro c hc
  apply decide_eq_true
  rintro rfl
  exact h hc

/-- It ends with the first NUL. -/
theorem cstring_nul {l : List UInt8} (h : (0 : UInt8) ∉ l) (r : List UInt8) :
    cstring (l ++ 0 :: r) = l := by
  rw [cstring_append h]
  exact List.append_nil l

end CString
