/-
# The numerals that `Atoi` accepts

A numeral is an optional minus sign and decimal digits.  `Atoi` returns its value when that is
an `int`, -2 when it is not, and -1 for the strings that are no numerals; but a minus sign
alone passes the loop and gives 0.

`atoiRecord` is `Atoi` with a record of its arithmetic.  The accumulator is tested after each
digit, so it stays far from the limits of `int64_t`.  The index is an `int`, and a numeral may
have any number of leading zeros.
-/
import CsappLabs.FgBg
import CsappLabs.Effects

open CString Effects Effects.Prog

namespace Shell

/-! ## Numerals -/

/-- The number that digits denote. -/
def decimal (ds : List UInt8) : ℤ := (Nat.ofDigits 10 (ds.reverse.map fun c => c.toNat - 48) : ℕ)

/-- `s` is a numeral, and `v` is its value. -/
inductive Numeral : List UInt8 → ℤ → Prop where
  | digits {ds : List UInt8} : ds ≠ [] → (∀ c ∈ ds, isdigit c) → Numeral ds (decimal ds)
  | minus {ds : List UInt8} : ds ≠ [] → (∀ c ∈ ds, isdigit c) → Numeral (45 :: ds) (-decimal ds)

/-- An `int`. -/
def IsInt (v : ℤ) : Prop := INT_MIN ≤ v ∧ v ≤ INT_MAX

/-! ## The arithmetic -/

/-- A result of an `int64_t` operation, or of an `int` operation or conversion. -/
inductive Arith : Type where
  | int64 (n : ℤ) : Arith
  | int (n : ℤ) : Arith
  deriving DecidableEq, Repr

/-- The result is a value of its type. -/
def Arith.Fits : Arith → Prop
  | .int64 n => -(2 ^ 63) ≤ n ∧ n ≤ 2 ^ 63 - 1
  | .int n => IsInt n

/-- The loop of `Atoi` with its arithmetic: `i` is the index of the next character. -/
def atoiLoopRecord (f : Bool) : ℤ → ℤ → List UInt8 → Prog Arith Unit ℤ
  | _, res, [] => do
      record (if f then [.int64 (-res)] else [])
      let res := if f then -res else res
      emit (.int res)
      pure res
  | i, res, c :: s => do
      if isdigit c then
        emit (.int64 (res * 10))
        let res := res * 10 + (c.toNat - 48)
        emit (.int64 res)
        record (if f then [.int64 (-res)] else [])
        if (f = false ∧ res > INT_MAX) ∨ (f = true ∧ -res < INT_MIN) then pure (-2)
        else
          emit (.int (i + 1))
          atoiLoopRecord f (i + 1) res s
      else pure (-1)

/-- `Atoi` with its arithmetic. -/
def atoiRecord (s : List UInt8) : Prog Arith Unit ℤ :=
  if s = [] then pure (-1)
  else
    let f := decide (s.head? = some 45)
    atoiLoopRecord f (if f then 1 else 0) 0 (if f then s.tail else s)

/-- **`Atoi` accepts exactly the numerals of type `int`**, and its arithmetic does not
overflow. -/
structure AcceptsInts (s : List UInt8) : Prop where
  value : ∀ v, Numeral s v → IsInt v → Atoi s = v
  range : ∀ v, Numeral s v → ¬ IsInt v → Atoi s = -2
  format : (∀ v, ¬ Numeral s v) → (∀ p v, p <+: s → Numeral p v → IsInt v) → Atoi s = -1
  fits : ∀ e ∈ (atoiRecord s).events, e.Fits

/-- The record changes nothing. -/
theorem erases_atoiLoopRecord (f : Bool) (i res : ℤ) (s : List UInt8) :
    Erases (atoiLoopRecord f i res s) (some (atoiLoop f res s)) := by
  induction s generalizing i res with
  | nil => cases f <;> rfl
  | cons c s ih =>
      rw [atoiLoopRecord, atoiLoop]
      by_cases hc : isdigit c = true
      · rw [if_pos hc, if_pos hc]
        refine .emit_bind _ (.emit_bind _ (.bind_some (a := ()) rfl ?_))
        simp only
        split_ifs
        · exact .pure _
        · exact .emit_bind _ (ih _ _)
      · rw [if_neg hc, if_neg hc]
        exact .pure _

theorem erases_atoiRecord (s : List UInt8) : Erases (atoiRecord s) (some (Atoi s)) := by
  rw [atoiRecord, Atoi]
  split_ifs
  · exact .pure _
  · exact erases_atoiLoopRecord _ _ _ _

/-! ## What the loop computes -/

/-- The accumulator after some digits. -/
def horner (res : ℤ) (ds : List UInt8) : ℤ := ds.foldl (fun res c => res * 10 + (c.toNat - 48)) res

theorem horner_cons (res : ℤ) (c : UInt8) (ds : List UInt8) :
    horner res (c :: ds) = horner (res * 10 + (c.toNat - 48)) ds := rfl

theorem isdigit_iff {c : UInt8} : isdigit c = true ↔ 48 ≤ c.toNat ∧ c.toNat ≤ 57 := by
  rw [isdigit, decide_eq_true_eq, UInt8.le_iff_toNat_le, UInt8.le_iff_toNat_le]
  rfl

/-- The accumulator never gets smaller. -/
theorem le_horner {res : ℤ} {ds : List UInt8} (hres : 0 ≤ res) (hds : ∀ c ∈ ds, isdigit c) :
    res ≤ horner res ds := by
  induction ds generalizing res with
  | nil => exact le_rfl
  | cons c ds ih =>
      rw [List.forall_mem_cons, isdigit_iff] at hds
      have hnext : 0 ≤ res * 10 + ((c.toNat : ℤ) - 48) := by omega
      have hle := ih hnext hds.2
      rw [horner_cons]
      omega

/-- **The loop computes the number that the digits denote.** -/
theorem horner_eq_decimal {ds : List UInt8} (hds : ∀ c ∈ ds, isdigit c) :
    horner 0 ds = decimal ds := by
  induction ds using List.reverseRecOn with
  | nil => rfl
  | append_singleton ds c ih =>
      have hc := isdigit_iff.mp (hds c (by simp))
      have hds : horner 0 ds = decimal ds := ih fun x hx => hds x (by simp [hx])
      have hlast : horner 0 (ds ++ [c]) = horner 0 ds * 10 + (c.toNat - 48) := by
        rw [horner, List.foldl_append]
        rfl
      rw [hlast, hds, decimal, decimal, List.reverse_append, List.reverse_singleton,
        List.singleton_append, List.map_cons, Nat.ofDigits_cons]
      push_cast [hc.1]
      ring

theorem decimal_nonneg (ds : List UInt8) : 0 ≤ decimal ds := Int.natCast_nonneg _

/-- The largest accumulator that passes the tests. -/
def limit (f : Bool) : ℤ := if f then -INT_MIN else INT_MAX

/-- The value that the sign and the digits denote. -/
def signed (f : Bool) (n : ℤ) : ℤ := if f then -n else n

/-- The two tests. -/
theorem tests_iff {f : Bool} {res : ℤ} :
    (f = false ∧ res > INT_MAX) ∨ (f = true ∧ -res < INT_MIN) ↔ limit f < res := by
  cases f with
  | false => simp [limit]
  | true => simp [limit, neg_lt]

/-- A value from the loop is an `int` when it passes the tests. -/
theorem isInt_signed {f : Bool} {n : ℤ} (hn : 0 ≤ n) : IsInt (signed f n) ↔ n ≤ limit f := by
  rw [IsInt, signed, limit, INT_MIN, INT_MAX]
  cases f with
  | false =>
      simp only [Bool.false_eq_true, if_false]
      omega
  | true =>
      simp only [if_true]
      omega

/-- **The loop of `Atoi`**, by the digits at the start of what is left. -/
theorem atoiLoop_eq {f : Bool} {res : ℤ} {s : List UInt8} (hres : 0 ≤ res) (hle : res ≤ limit f) :
    atoiLoop f res s =
      if limit f < horner res (s.takeWhile isdigit) then -2
      else if s.dropWhile isdigit = [] then signed f (horner res (s.takeWhile isdigit))
      else -1 := by
  induction s generalizing res with
  | nil =>
      show signed f res = if limit f < res then -2 else if [] = [] then signed f res else -1
      rw [if_neg (by omega), if_pos rfl]
  | cons c s ih =>
      rw [atoiLoop]
      by_cases hc : isdigit c = true
      · have hdigit := isdigit_iff.mp hc
        rw [if_pos hc, List.takeWhile_cons_of_pos hc, List.dropWhile_cons_of_pos hc, horner_cons]
        simp only [tests_iff]
        by_cases hlt : limit f < res * 10 + (c.toNat - 48)
        · -- the accumulator does not come back below the limit
          have hnext : 0 ≤ res * 10 + ((c.toNat : ℤ) - 48) := by omega
          have hdigits : ∀ x ∈ s.takeWhile isdigit, isdigit x := fun x hx =>
            List.mem_takeWhile_imp hx
          have hle := le_horner hnext hdigits
          rw [if_pos hlt, if_pos (by omega)]
        · rw [if_neg hlt, ih (by omega) (by omega)]
      · rw [if_neg hc, List.takeWhile_cons_of_neg hc, List.dropWhile_cons_of_neg hc]
        show -1 = if limit f < res then -2 else if c :: s = [] then signed f res else -1
        rw [if_neg (by omega), if_neg (List.cons_ne_nil c s)]

/-- **The arithmetic of the loop fits** when the index does: it counts the digits of an `int`. -/
theorem fits_atoiLoopRecord {f : Bool} {i res : ℤ} {s : List UInt8} (hi : 0 ≤ i)
    (hiMax : i ≤ INT_MAX) (hres : 0 ≤ res) (hle : res ≤ limit f) :
    (∀ e ∈ (atoiLoopRecord f i res s).events, e.Fits) ↔
      ∀ ds, ds <+: s → (∀ c ∈ ds, isdigit c) → horner res ds ≤ limit f →
        i + ds.length ≤ INT_MAX := by
  have hlimit : limit f ≤ 2 ^ 31 := by cases f <;> simp [limit, INT_MAX, INT_MIN]
  induction s generalizing i res with
  | nil =>
      refine iff_of_true ?_ fun ds hds _ _ => ?_
      · have hint := (isInt_signed (f := f) hres).mpr hle
        cases f with
        | false =>
            rintro e he
            obtain rfl := List.mem_singleton.mp he
            exact hint
        | true =>
            intro e he
            rcases List.mem_cons.mp he with rfl | he
            · exact ⟨by omega, by omega⟩
            · obtain rfl := List.mem_singleton.mp he
              exact hint
      · rw [List.prefix_nil.mp hds]
        simpa using hiMax
  | cons c s ih =>
      rw [atoiLoopRecord]
      by_cases hc : isdigit c = true
      · have hdigit := isdigit_iff.mp hc
        rw [if_pos hc]
        have hwide : ∀ n : ℤ, -(2 ^ 40) ≤ n → n ≤ 2 ^ 40 → (Arith.int64 n).Fits :=
          fun n hn hn' => ⟨by omega, by omega⟩
        have hfirst := hwide (res * 10) (by omega) (by omega)
        have hsecond := hwide (res * 10 + (c.toNat - 48)) (by omega) (by omega)
        have hthird : ∀ e ∈ (if f then [Arith.int64 (-(res * 10 + (c.toNat - 48)))] else []),
            e.Fits := by
          intro e he
          split_ifs at he
          · obtain rfl := List.mem_singleton.mp he
            exact hwide _ (by omega) (by omega)
          · cases he
        simp only [events_emit_bind, record_bind, List.forall_mem_cons, List.forall_mem_append,
          hfirst, hsecond, true_and, tests_iff]
        by_cases hlt : limit f < res * 10 + (c.toNat - 48)
        · -- the loop ends here, and so does every accepted prefix
          rw [if_pos hlt]
          refine iff_of_true ⟨hthird, fun e he => absurd he (by simp)⟩ fun ds hds hdigits hle => ?_
          rcases List.prefix_cons_iff.mp hds with rfl | ⟨ds, rfl, -⟩
          · simpa using hiMax
          · rw [List.forall_mem_cons] at hdigits
            have hnext : 0 ≤ res * 10 + ((c.toNat : ℤ) - 48) := by omega
            have hmono := le_horner hnext hdigits.2
            rw [horner_cons] at hle
            omega
        · rw [if_neg hlt]
          simp only [events_emit_bind, List.forall_mem_cons]
          constructor
          · rintro ⟨-, hindex, hrest⟩ ds hds hdigits hle
            rcases List.prefix_cons_iff.mp hds with rfl | ⟨ds, rfl, hrest'⟩
            · simpa using hiMax
            · have hlen := (ih (by omega) hindex.2 (by omega) (by omega)).mp hrest ds hrest'
                (fun x hx => hdigits x (List.mem_cons_of_mem c hx)) hle
              rw [List.length_cons]
              push_cast
              omega
          · intro h
            have hindex : i + 1 ≤ INT_MAX :=
              h [c] (List.prefix_append [c] s) (by simpa using hc) (not_lt.mp hlt)
            have hmin : INT_MIN ≤ i + 1 := by
              rw [INT_MIN]
              omega
            refine ⟨hthird, ⟨hmin, hindex⟩, ?_⟩
            refine (ih (by omega) hindex (by omega) (by omega)).mpr fun ds hds hdigits hle => ?_
            have hlen := h (c :: ds) (List.cons_prefix_cons.mpr ⟨rfl, hds⟩)
              (List.forall_mem_cons.mpr ⟨hc, hdigits⟩) hle
            rw [List.length_cons] at hlen
            push_cast at hlen
            omega
      · rw [if_neg hc]
        refine iff_of_true (fun e he => absurd he (by simp)) fun ds hds hdigits _ => ?_
        rcases List.prefix_cons_iff.mp hds with rfl | ⟨ds, rfl, -⟩
        · simpa using hiMax
        · exact absurd (hdigits c List.mem_cons_self) hc

/-! ## The sign -/

/-- The sign of a numeral. -/
def sign (f : Bool) : List UInt8 := if f then [45] else []

/-- A string is a sign, and what comes behind it. -/
structure Signs (s : List UInt8) (f : Bool) (rest : List UInt8) : Prop where
  eq : s = sign f ++ rest
  plus : f = false → rest.head? ≠ some 45

theorem exists_signs (s : List UInt8) : ∃ f rest, Signs s f rest := by
  by_cases h : s.head? = some 45
  · obtain ⟨rest, rfl⟩ := List.head?_eq_some_iff.mp h
    exact ⟨true, rest, rfl, nofun⟩
  · exact ⟨false, s, rfl, fun _ => h⟩

theorem numeral_iff {s : List UInt8} {v : ℤ} : Numeral s v ↔
    ∃ f ds, s = sign f ++ ds ∧ ds ≠ [] ∧ (∀ c ∈ ds, isdigit c) ∧ v = signed f (decimal ds) := by
  constructor
  · intro h
    cases h with
    | digits hne hds => exact ⟨false, s, rfl, hne, hds, rfl⟩
    | @minus ds hne hds => exact ⟨true, ds, rfl, hne, hds, rfl⟩
  · rintro ⟨f, ds, rfl, hne, hds, rfl⟩
    cases f with
    | false => exact .digits hne hds
    | true => exact .minus hne hds

section

variable {s rest : List UInt8} {f : Bool}

/-- **The numerals at the start of a string**: they have its sign. -/
theorem Signs.numeral_prefix (h : Signs s f rest) {p : List UInt8} {v : ℤ} :
    p <+: s ∧ Numeral p v ↔ ∃ ds, p = sign f ++ ds ∧ ds <+: rest ∧ ds ≠ [] ∧
      (∀ c ∈ ds, isdigit c) ∧ v = signed f (decimal ds) := by
  rw [numeral_iff, h.eq]
  constructor
  · rintro ⟨hp, f', ds, rfl, hne, hds, rfl⟩
    obtain ⟨c, ds, rfl⟩ := List.exists_cons_of_ne_nil hne
    have hc := hds c List.mem_cons_self
    cases f with
    | false =>
        cases f' with
        | false => exact ⟨c :: ds, rfl, hp, hne, hds, rfl⟩
        | true =>
            -- the string does not start with a minus sign
            obtain ⟨more, hmore⟩ := hp
            refine absurd ?_ (h.plus rfl)
            rw [show rest = 45 :: (c :: ds ++ more) from hmore.symm]
            rfl
    | true =>
        cases f' with
        | false =>
            obtain ⟨rfl, -⟩ := List.cons_prefix_cons.mp hp
            exact absurd hc (by decide)
        | true => exact ⟨c :: ds, rfl, (List.cons_prefix_cons.mp hp).2, hne, hds, rfl⟩
  · rintro ⟨ds, rfl, hp, hne, hds, rfl⟩
    exact ⟨(List.prefix_append_right_inj _).mpr hp, f, ds, rfl, hne, hds, rfl⟩

/-- The string is a numeral when digits stand behind its sign. -/
theorem Signs.numeral (h : Signs s f rest) {v : ℤ} : Numeral s v ↔
    rest ≠ [] ∧ (∀ c ∈ rest, isdigit c) ∧ v = signed f (decimal rest) := by
  constructor
  · intro hv
    obtain ⟨ds, heq, -, hne, hds, rfl⟩ := h.numeral_prefix.mp ⟨List.prefix_rfl, hv⟩
    rw [h.eq, List.append_cancel_left_eq] at heq
    rw [heq]
    exact ⟨hne, hds, rfl⟩
  · rintro ⟨hne, hds, rfl⟩
    exact numeral_iff.mpr ⟨f, rest, h.eq, hne, hds, rfl⟩

theorem zero_le_limit (f : Bool) : 0 ≤ limit f := by cases f <;> decide

/-- `Atoi` runs its loop behind the sign. -/
theorem Signs.loop (h : Signs s f rest) (hs : s ≠ []) : Atoi s = atoiLoop f 0 rest ∧
    atoiRecord s = atoiLoopRecord f (if f then 1 else 0) 0 rest := by
  rw [Atoi, atoiRecord, if_neg hs, if_neg hs, h.eq]
  cases f with
  | true => exact ⟨rfl, rfl⟩
  | false =>
      have hplus := decide_eq_false (h.plus rfl)
      simp only [sign, Bool.false_eq_true, if_false, List.nil_append, hplus, and_self]

/-- **What `Atoi` returns.** -/
theorem Signs.atoi (h : Signs s f rest) (hs : s ≠ []) :
    Atoi s = if limit f < decimal (rest.takeWhile isdigit) then -2
      else if rest.dropWhile isdigit = [] then signed f (decimal (rest.takeWhile isdigit))
      else -1 := by
  have hdigits : ∀ c ∈ rest.takeWhile isdigit, isdigit c := fun c hc => List.mem_takeWhile_imp hc
  rw [(h.loop hs).1, atoiLoop_eq le_rfl (zero_le_limit f), horner_eq_decimal hdigits]

/-- **When the arithmetic of `Atoi` fits.** -/
theorem Signs.fits (h : Signs s f rest) (hs : s ≠ []) :
    (∀ e ∈ (atoiRecord s).events, e.Fits) ↔
      ∀ p v, p <+: s → Numeral p v → IsInt v → p.length ≤ INT_MAX := by
  have hlen : (sign f).length = if f then 1 else 0 := by cases f <;> rfl
  rw [(h.loop hs).2, fits_atoiLoopRecord (by cases f <;> decide) (by cases f <;> decide) le_rfl
    (zero_le_limit f)]
  constructor
  · intro hfits p v hp hv hint
    obtain ⟨ds, rfl, hds, -, hdigits, rfl⟩ := h.numeral_prefix.mp ⟨hp, hv⟩
    rw [isInt_signed (decimal_nonneg ds), ← horner_eq_decimal hdigits] at hint
    have hle := hfits ds hds hdigits hint
    rw [List.length_append, hlen]
    cases f with
    | false => simpa using hle
    | true =>
        push_cast
        exact hle
  · intro hlong ds hds hdigits hle
    cases ds with
    | nil => cases f <;> decide
    | cons c ds =>
        rw [horner_eq_decimal hdigits, ← isInt_signed (decimal_nonneg _)] at hle
        obtain ⟨hp, hv⟩ := h.numeral_prefix.mpr
          ⟨c :: ds, rfl, hds, List.cons_ne_nil c ds, hdigits, rfl⟩
        have hle := hlong _ _ hp hv hle
        rw [List.length_append, hlen] at hle
        cases f with
        | false => simpa using hle
        | true =>
            push_cast at hle
            exact hle

/-- **The values of `Atoi`**: all of them are right, but that of a minus sign alone. -/
theorem Signs.values (h : Signs s f rest) (hs : s ≠ []) (hminus : s ≠ [45]) :
    (∀ v, Numeral s v → IsInt v → Atoi s = v) ∧ (∀ v, Numeral s v → ¬ IsInt v → Atoi s = -2) ∧
    ((∀ v, ¬ Numeral s v) → (∀ p v, p <+: s → Numeral p v → IsInt v) → Atoi s = -1) := by
  have hall : (∀ c ∈ rest, isdigit c) →
      rest.takeWhile isdigit = rest ∧ rest.dropWhile isdigit = [] := fun hrest =>
    ⟨List.takeWhile_eq_self_iff.mpr hrest, List.dropWhile_eq_nil_iff.mpr hrest⟩
  refine ⟨fun v hv hint => ?_, fun v hv hint => ?_, fun hnone hstart => ?_⟩
  · obtain ⟨-, hrest, rfl⟩ := h.numeral.mp hv
    rw [isInt_signed (decimal_nonneg rest)] at hint
    rw [h.atoi hs, (hall hrest).1, (hall hrest).2, if_neg (not_lt.mpr hint), if_pos rfl]
  · obtain ⟨-, hrest, rfl⟩ := h.numeral.mp hv
    rw [isInt_signed (decimal_nonneg rest)] at hint
    rw [h.atoi hs, (hall hrest).1, if_pos (not_le.mp hint)]
  · have hdigits : ∀ c ∈ rest.takeWhile isdigit, isdigit c := fun c hc => List.mem_takeWhile_imp hc
    have hle : decimal (rest.takeWhile isdigit) ≤ limit f := by
      by_cases hempty : rest.takeWhile isdigit = []
      · rw [hempty]
        exact zero_le_limit f
      · obtain ⟨hp, hv⟩ := h.numeral_prefix.mpr
          ⟨_, rfl, List.takeWhile_prefix isdigit, hempty, hdigits, rfl⟩
        exact (isInt_signed (decimal_nonneg _)).mp (hstart _ _ hp hv)
    have hdrop : rest.dropWhile isdigit ≠ [] := by
      intro hdrop
      have hrest := List.dropWhile_eq_nil_iff.mp hdrop
      have hempty : rest = [] := by
        by_contra hne
        exact hnone _ (h.numeral.mpr ⟨hne, hrest, rfl⟩)
      -- only the sign is left
      rw [h.eq, hempty, List.append_nil] at hs hminus
      cases f with
      | false => exact hs rfl
      | true => exact hminus rfl
    rw [h.atoi hs, if_neg (not_lt.mpr hle), if_neg hdrop]

end

/-- No numeral begins the empty string. -/
theorem not_numeral_nil (v : ℤ) : ¬ Numeral [] v := by
  intro h
  cases h with
  | digits hne => exact hne rfl

/-- No numeral begins a minus sign alone. -/
theorem not_numeral_minus {p : List UInt8} {v : ℤ} (hp : p <+: [45]) : ¬ Numeral p v := by
  have hsigns : Signs [45] true [] := ⟨rfl, nofun⟩
  intro hv
  obtain ⟨ds, -, hds, hne, -⟩ := hsigns.numeral_prefix.mp ⟨hp, hv⟩
  exact hne (List.prefix_nil.mp hds)

theorem atoi_minus : Atoi [45] = 0 := by decide

/-- The loop sees no character, and nothing says that a digit is missing. -/
theorem minus_accepted : ¬ AcceptsInts [45] := by
  intro h
  have hformat := h.format (fun v => not_numeral_minus List.prefix_rfl)
    fun p v hp hv => absurd hv (not_numeral_minus hp)
  rw [atoi_minus] at hformat
  omega

/-- **When `Atoi` accepts exactly the numerals**: the string is not a minus sign alone, and the
numerals of type `int` at its start have at most `INT_MAX` characters. -/
theorem accepts_ints_iff (s : List UInt8) : AcceptsInts s ↔
    s ≠ [45] ∧ ∀ p v, p <+: s → Numeral p v → IsInt v → p.length ≤ INT_MAX := by
  by_cases hs : s = []
  · subst hs
    refine iff_of_true ?_ ⟨by simp, fun p v hp hv => ?_⟩
    · exact ⟨fun v hv => absurd hv (not_numeral_nil v), fun v hv => absurd hv (not_numeral_nil v),
        fun _ _ => rfl, fun e he => absurd he (by simp [atoiRecord])⟩
    · rw [List.prefix_nil.mp hp] at hv
      exact absurd hv (not_numeral_nil v)
  · obtain ⟨f, rest, hsigns⟩ := exists_signs s
    constructor
    · intro h
      refine ⟨?_, (hsigns.fits hs).mp h.fits⟩
      rintro rfl
      exact minus_accepted h
    · rintro ⟨hminus, hlong⟩
      obtain ⟨hvalue, hrange, hformat⟩ := hsigns.values hs hminus
      exact ⟨hvalue, hrange, hformat, (hsigns.fits hs).mpr hlong⟩

/-- The minus sign alone: it is not a numeral, and `Atoi` returns 0. -/
theorem not_accepts_ints_minus : (∀ v, ¬ Numeral [45] v) ∧ Atoi [45] = 0 ∧ ¬ AcceptsInts [45] :=
  ⟨fun _ => not_numeral_minus List.prefix_rfl, atoi_minus, minus_accepted⟩

end Shell
