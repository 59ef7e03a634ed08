/-
# The conversions of scanf

A conversion skips white space and takes the longest item that it can: `word` for `%s`, and
`integer` for `%d` and `%u`, without the bounds of the type.  A numeral that is followed by
another character is read as its number (`integer_signed`).
-/
import CsappLabs.Radix

open CString Radix

namespace Scanf

/-- What a conversion finds: an item, no item, or the end of the file. -/
inductive Found (α : Type)
  | item (a : α) (rest : List UInt8)
  | mismatch (rest : List UInt8)
  | eof

/-- `%s`. -/
def word (s : List UInt8) : Option (List UInt8 × List UInt8) :=
  let t := s.dropWhile isspace
  if t = [] then none
  else some (t.takeWhile fun c => ¬ isspace c, t.dropWhile fun c => ¬ isspace c)

/-- A sign, and what is behind it. -/
def splitSign : List UInt8 → Bool × List UInt8
  | [] => (false, [])
  | c :: s => if c = minus then (true, s) else if c = 43 then (false, s) else (false, c :: s)

/-- `%d` and `%u`. -/
def integer (s : List UInt8) : Found ℤ :=
  let t := s.dropWhile isspace
  if t = [] then .eof
  else
    let (negative, u) := splitSign t
    let ds := u.takeWhile isdigit
    if ds = [] then .mismatch u
    else .item (if negative then -(value 10 ds : ℤ) else value 10 ds) (u.dropWhile isdigit)

/-! ## Words -/

@[simp] theorem word_nil : word [] = none := rfl

theorem word_space {d : UInt8} (hd : isspace d = true) (s : List UInt8) :
    word (d :: s) = word s := by
  rw [word, word, List.dropWhile_cons_of_pos hd]

theorem word_word {w : List UInt8} (hw : w ≠ []) (hnot : ∀ c ∈ w, isspace c = false) {d : UInt8}
    (hd : isspace d = true) (s : List UInt8) : word (w ++ d :: s) = some (w, d :: s) := by
  obtain ⟨c, w', rfl⟩ := List.exists_cons_of_ne_nil hw
  have hdrop : ((c :: w') ++ d :: s).dropWhile isspace = (c :: w') ++ d :: s := by
    rw [List.cons_append, List.dropWhile_cons_of_neg]
    simp [hnot c List.mem_cons_self]
  have hkeep : ∀ a ∈ c :: w', (fun c => decide (¬ isspace c = true)) a = true := by
    intro a ha
    simp [hnot a ha]
  rw [word, hdrop]
  show (if (c :: w') ++ d :: s = [] then none else some (_, _)) = _
  rw [if_neg (by simp), List.takeWhile_append_of_pos hkeep, List.dropWhile_append_of_pos hkeep,
    List.takeWhile_cons_of_neg (by simp [hd]), List.dropWhile_cons_of_neg (by simp [hd]),
    List.append_nil]

theorem length_dropWhile_le {α : Type} (p : α → Bool) (s : List α) :
    (s.dropWhile p).length ≤ s.length :=
  (List.dropWhile_sublist p).length_le

/-- A word takes at least one character. -/
theorem word_length {s w rest : List UInt8} (h : word s = some (w, rest)) :
    rest.length < s.length ∧ w ≠ [] := by
  rw [word] at h
  split_ifs at h with hnil
  obtain ⟨rfl, rfl⟩ := Prod.mk.inj (Option.some.inj h)
  obtain ⟨c, t, ht⟩ := List.exists_cons_of_ne_nil hnil
  have hc : isspace c = false := by
    have hhead := List.head?_dropWhile_not isspace s
    rw [ht] at hhead
    simpa using hhead
  have hle := length_dropWhile_le isspace s
  rw [ht] at hle ⊢
  rw [List.takeWhile_cons_of_pos (by simp [hc]), List.dropWhile_cons_of_pos (by simp [hc])]
  refine ⟨?_, List.cons_ne_nil _ _⟩
  exact lt_of_lt_of_le (Nat.lt_succ_of_le (length_dropWhile_le _ t)) hle

/-! ## Numbers -/

theorem integer_space {d : UInt8} (hd : isspace d = true) (s : List UInt8) :
    integer (d :: s) = integer s := by
  rw [integer, integer, List.dropWhile_cons_of_pos hd]

theorem length_splitSign_le (s : List UInt8) : (splitSign s).2.length ≤ s.length := by
  cases s with
  | nil => rfl
  | cons c s =>
      rw [splitSign]
      split_ifs
      · exact Nat.le_succ _
      · exact Nat.le_succ _
      · rfl

/-- What is left behind a number. -/
theorem integer_length {s rest : List UInt8}
    (h : (∃ z, integer s = .item z rest) ∨ integer s = .mismatch rest) :
    rest.length ≤ s.length := by
  have hle := (length_splitSign_le (s.dropWhile isspace)).trans (length_dropWhile_le isspace s)
  rw [integer] at h
  rcases hsign : splitSign (s.dropWhile isspace) with ⟨negative, u⟩
  rw [hsign] at h hle
  simp only at h hle
  generalize (if negative = true then -(value 10 (u.takeWhile isdigit) : ℤ)
    else value 10 (u.takeWhile isdigit)) = number at h
  split_ifs at h with hnil hds
  · rcases h with ⟨z, h⟩ | h <;> cases h
  · rcases h with ⟨z, h⟩ | h
    · cases h
    · cases h
      exact hle
  · rcases h with ⟨z, h⟩ | h
    · cases h
      exact (length_dropWhile_le isdigit u).trans hle
    · cases h

theorem digit_plain : ∀ d < 10, isspace (digit d) = false ∧ digit d ≠ 43 := by decide

/-- The digits of a numeral. -/
theorem isdigit_numeral {n : ℕ} {c : UInt8} (hc : c ∈ numeral 10 n) :
    isdigit c = true ∧ isspace c = false ∧ c ≠ minus ∧ c ≠ 43 := by
  obtain ⟨d, hd, rfl⟩ := mem_numeral (by decide) hc
  exact ⟨isdigit_digit d hd, (digit_plain d hd).1, (digit_ne d (by omega)).2, (digit_plain d hd).2⟩

theorem isspace_signed {z : ℤ} {c : UInt8} (hc : c ∈ signed 10 z) : isspace c = false := by
  rw [signed] at hc
  split_ifs at hc
  · rcases List.mem_cons.mp hc with rfl | hc
    · decide
    · exact (isdigit_numeral hc).2.1
  · exact (isdigit_numeral hc).2.1

theorem signed_ne_nil (z : ℤ) : signed 10 z ≠ [] := by
  rw [signed]
  split_ifs
  · exact List.cons_ne_nil _ _
  · exact numeral_ne_nil 10 _

/-- The sign of a numeral. -/
theorem splitSign_signed (z : ℤ) (s : List UInt8) :
    splitSign (signed 10 z ++ s) = (decide (z < 0), numeral 10 z.natAbs ++ s) := by
  rw [signed]
  split_ifs with hz
  · rw [List.cons_append, splitSign, if_pos rfl, decide_eq_true hz]
  · obtain ⟨c, t, ht⟩ := List.exists_cons_of_ne_nil (numeral_ne_nil 10 z.natAbs)
    have hc := isdigit_numeral (n := z.natAbs) (c := c) (by rw [ht]; exact List.mem_cons_self)
    rw [ht, List.cons_append, splitSign, if_neg hc.2.2.1, if_neg hc.2.2.2, decide_eq_false hz]

/-- **A numeral is read** up to the next character that is not a digit. -/
theorem integer_signed (z : ℤ) {s : List UInt8} (hs : s.takeWhile isdigit = []) :
    integer (signed 10 z ++ s) = .item z s := by
  obtain ⟨c, t, ht⟩ := List.exists_cons_of_ne_nil (signed_ne_nil z)
  have hdrop : (signed 10 z ++ s).dropWhile isspace = signed 10 z ++ s := by
    rw [ht, List.cons_append, List.dropWhile_cons_of_neg]
    simp [isspace_signed (z := z) (c := c) (by rw [ht]; exact List.mem_cons_self)]
  have hkeep : ∀ c ∈ numeral 10 z.natAbs, isdigit c = true := fun c hc => (isdigit_numeral hc).1
  have hrest : s.dropWhile isdigit = s := by
    have hsplit := List.takeWhile_append_dropWhile (p := isdigit) (l := s)
    rwa [hs, List.nil_append] at hsplit
  rw [integer, hdrop, splitSign_signed]
  simp only
  rw [if_neg (by rw [ht]; simp), List.takeWhile_append_of_pos hkeep,
    List.dropWhile_append_of_pos hkeep, hs, hrest, List.append_nil, if_neg (numeral_ne_nil _ _),
    value_numeral (by decide) (by decide)]
  congr 1
  by_cases hz : z < 0
  · rw [decide_eq_true hz, if_pos rfl]
    omega
  · rw [decide_eq_false hz, if_neg (by decide)]
    omega

end Scanf
