/-
# The tokens of a command line

A command line is words with spaces between them.  A word that begins with a single quote goes
to the next single quote, and may have spaces in it; any other word goes to the next space.
The newline at the end of the line counts as a space.  A word without its end is no token.
-/
import CsappLabs.CString

open CString

namespace Shell

/-- A token: its characters, and whether they stood between single quotes. -/
structure Token where
  quoted : Bool
  text : List UInt8
  deriving DecidableEq, Repr

/-- The character that ends a token. -/
def delimiter (quoted : Bool) : UInt8 := if quoted then 39 else 32

/-- Where a character of the line stands: between two tokens, or inside of one, of which `w` is
read. -/
inductive Mode : Type where
  | between : Mode
  | inside (quoted : Bool) (w : List UInt8) : Mode

/-- The tokens in the rest of a line. -/
def tokensFrom : Mode → List UInt8 → List Token
  | .between, [] => []
  | .between, c :: s =>
      if c = 32 then tokensFrom .between s
      else if c = 39 then tokensFrom (.inside true []) s
      else tokensFrom (.inside false [c]) s
  | .inside _ _, [] => []
  | .inside quoted w, c :: s =>
      if c = delimiter quoted then ⟨quoted, w⟩ :: tokensFrom .between s
      else tokensFrom (.inside quoted (w ++ [c])) s

/-- **The tokens of a command line**, whose last character counts as a space. -/
def tokens (line : List UInt8) : List Token := tokensFrom .between (line.dropLast ++ [32])

/-- The background marker: the character `&` on its own, without quotes. -/
def marker : Token := ⟨false, [38]⟩

/-- The characters of the tokens. -/
def texts (ts : List Token) : List (List UInt8) := ts.map Token.text

/-! ## Between the tokens -/

def spaces (n : ℕ) : List UInt8 := List.replicate n 32

theorem tokensFrom_space (s : List UInt8) : tokensFrom .between (32 :: s) = tokensFrom .between s :=
  if_pos rfl

theorem tokensFrom_quote (s : List UInt8) :
    tokensFrom .between (39 :: s) = tokensFrom (.inside true []) s := rfl

theorem tokensFrom_spaces (n : ℕ) (s : List UInt8) :
    tokensFrom .between (spaces n ++ s) = tokensFrom .between s := by
  induction n with
  | zero => rfl
  | succ n ih =>
      show tokensFrom .between (32 :: (spaces n ++ s)) = _
      rw [tokensFrom_space]
      exact ih

/-- The spaces before a token do not matter. -/
theorem tokensFrom_dropWhile (s : List UInt8) :
    tokensFrom .between (s.dropWhile (· = 32)) = tokensFrom .between s := by
  induction s with
  | nil => rfl
  | cons c s ih =>
      by_cases hc : c = 32
      · subst hc
        rw [tokensFrom_space, List.dropWhile_cons_of_pos (by simp)]
        exact ih
      · rw [List.dropWhile_cons_of_neg (by simpa using hc)]

/-- The first character of a word. -/
theorem tokensFrom_word {c : UInt8} (hspace : c ≠ 32) (hquote : c ≠ 39) (s : List UInt8) :
    tokensFrom .between (c :: s) = tokensFrom (.inside false []) (c :: s) := by
  show (if c = 32 then _ else if c = 39 then _ else _) = if c = 32 then _ else _
  rw [if_neg hspace, if_neg hquote, if_neg hspace]
  rfl

/-! ## Inside a token -/

section

variable {quoted : Bool} {l : List UInt8}

/-- **A token ends at the next delimiter.** -/
theorem tokensFrom_delimiter (hl : delimiter quoted ∉ l) (w r : List UInt8) :
    tokensFrom (.inside quoted w) (l ++ delimiter quoted :: r) =
      ⟨quoted, w ++ l⟩ :: tokensFrom .between r := by
  induction l generalizing w with
  | nil =>
      rw [List.append_nil]
      exact if_pos rfl
  | cons c l ih =>
      rw [List.mem_cons, not_or] at hl
      have hrest := ih hl.2 (w ++ [c])
      rw [List.append_assoc] at hrest
      show (if c = delimiter quoted then _ else _) = _
      rw [if_neg (Ne.symm hl.1)]
      exact hrest

/-- A word without its end is dropped. -/
theorem tokensFrom_open (hl : delimiter quoted ∉ l) (w : List UInt8) :
    tokensFrom (.inside quoted w) l = [] := by
  induction l generalizing w with
  | nil => rfl
  | cons c l ih =>
      rw [List.mem_cons, not_or] at hl
      show (if c = delimiter quoted then _ else _) = _
      rw [if_neg (Ne.symm hl.1)]
      exact ih hl.2 _

/-- The token at the start of a string is what `strchr` finds. -/
theorem tokensFrom_strchr (quoted : Bool) (s : List UInt8) :
    (tokensFrom (.inside quoted []) s = [] ∧ strchr s (delimiter quoted) = none) ∨
    ∃ w r, s = w ++ delimiter quoted :: r ∧ strchr s (delimiter quoted) = some w.length ∧
      tokensFrom (.inside quoted []) s = ⟨quoted, w⟩ :: tokensFrom .between r := by
  cases h : strchr s (delimiter quoted) with
  | none => exact Or.inl ⟨tokensFrom_open (strchr_eq_none.mp h) [], rfl⟩
  | some i =>
      obtain ⟨w, r, rfl, hw, rfl⟩ := strchr_eq_some.mp h
      exact Or.inr ⟨w, r, rfl, rfl, tokensFrom_delimiter hw [] r⟩

end

end Shell
