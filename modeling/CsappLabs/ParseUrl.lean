/-
# What `parseUrl` makes of a URL

One equation for each shape of a URL.  The hostname and the port are copied without a NUL
(`splitUrl_eq`), so the strings that their arrays hold afterwards end where the old
contents of the arrays have one.  When no slash follows the scheme, the slash that
`parseUrl` adds takes the place of the NUL of the URL, and the path runs into the old
contents of that array.
-/
import CsappLabs.Doit

open CString Relay

namespace Proxy

/-- The path and the host of a URL without a port: `rest` is what follows the scheme, and
the path starts at its `i`-th character. -/
def Frame.withHost (f : Frame) (rest : List UInt8) (i : ℕ) : Frame :=
  { f with
    uri := strcpy f.uri (rest.drop i)
    hostname := strncpy f.hostname 0 rest i }

/-- The path, the host and the port of a URL whose host ends at its `j`-th character. -/
def Frame.withPort (f : Frame) (rest : List UInt8) (i j : ℕ) : Frame :=
  { f with
    uri := strcpy f.uri (rest.drop i)
    hostname := strncpy f.hostname 0 rest j
    port := strncpy f.port 0 (rest.drop (j + 1)) (i - (j + 1)) }

/-- The host of a URL ends at its path, or at a colon before that.  A colon behind the start
of the path makes the length of the port negative. -/
def Frame.split (f : Frame) (rest : List UInt8) (i : ℕ) : Option (Frame × ℤ) :=
  match strchr rest colon with
  | none => some (f.withHost rest i, 0)
  | some j => if j < i then some (f.withPort rest i j, 0) else none

theorem copyPart_eq (dst : ℕ → UInt8) (src : List UInt8) {n : ℕ} (h : n ≤ MAXLINE) :
    copyPart dst src n = some (strncpy dst 0 src n) := by
  rw [copyPart, if_pos ⟨Int.natCast_nonneg n, by omega⟩, Int.toNat_natCast]

/-- **The split of a URL**, in an array that holds the string `w`. -/
theorem splitUrl_eq {f : Frame} {w : List UInt8} {p i : ℕ}
    (hurl : stringAt MAXLINE f.url 0 = some w) (hi : p + i ≤ w.length) :
    splitUrl f p (p + i) = f.split (w.drop p) i := by
  have hlen := (stringAt_eq_some.mp hurl).2.1
  have hpath : w.drop (p + i) = (w.drop p).drop i := List.drop_drop.symm
  unfold splitUrl Frame.split
  simp only [stringAt_drop hurl hi, stringAt_drop hurl (show p ≤ w.length by omega),
    Option.bind_eq_bind, Option.bind_some]
  cases hcolon : strchr (w.drop p) colon with
  | none =>
      have hdiff : ((p + i : ℕ) : ℤ) - (p : ℕ) = (i : ℕ) := by omega
      simp only [hdiff, copyPart_eq f.hostname _ (show i ≤ MAXLINE by omega), Option.bind_some,
        hpath, Frame.withHost]
  | some j =>
      obtain ⟨l, r, hsplit, -, rfl⟩ := strchr_eq_some.mp hcolon
      have hj : p + l.length < w.length := by
        have := congrArg List.length hsplit
        simp only [List.length_drop, List.length_append, List.length_cons] at this
        omega
      have hdiff : ((p + l.length : ℕ) : ℤ) - (p : ℕ) = (l.length : ℕ) := by omega
      have hafter : w.drop (p + l.length + 1) = (w.drop p).drop (l.length + 1) := by
        rw [List.drop_drop]
        rfl
      simp only [hdiff, copyPart_eq f.hostname _ (show l.length ≤ MAXLINE by omega),
        stringAt_drop hurl (show p + l.length + 1 ≤ w.length by omega), Option.bind_some]
      by_cases hlt : l.length < i
      · have hport : ((p + i : ℕ) : ℤ) - ((p + l.length : ℕ) + 1) = (i - (l.length + 1) : ℕ) := by
          omega
        rw [if_pos hlt, hport, copyPart_eq f.port _ (by omega), hafter]
        simp only [Option.bind_some, hpath, Frame.withPort]
      · -- the length of the port is negative, so `strncpy` writes past the array
        have hneg : copyPart f.port (w.drop (p + l.length + 1))
            (((p + i : ℕ) : ℤ) - ((p + l.length : ℕ) + 1)) = none := by
          rw [copyPart, if_neg (by omega)]
        rw [if_neg hlt, hneg]
        rfl

/-- A path that runs over the end of its array. -/
theorem splitUrl_none {f : Frame} {i : ℕ} (p : ℕ) (hpath : stringAt MAXLINE f.url i = none) :
    splitUrl f p i = none := by
  rw [splitUrl, hpath]
  rfl

/-! ## The shapes of a URL -/

section

variable {f : Frame} {u : List UInt8} {p : ℕ}

/-- A URL without a scheme: the path stays as it was. -/
theorem parseUrl_noScheme (hurl : stringAt MAXLINE f.url 0 = some u)
    (hscheme : strstr u (text "://") = none) :
    parseUrl f = some ({ f with
      port := Function.update f.port 0 0
      hostname := Function.update f.hostname 0 0 }, 0) := by
  unfold parseUrl
  simp only [hurl, hscheme, Option.bind_eq_bind, Option.bind_some]

/-- A URL of another scheme. -/
theorem parseUrl_otherScheme (hurl : stringAt MAXLINE f.url 0 = some u)
    (hscheme : strstr u (text "://") = some p)
    (hother : strncasecmp u (text "http://") 7 = false) : parseUrl f = some (f, -1) := by
  unfold parseUrl
  simp only [hurl, hscheme, hother, Option.bind_eq_bind, Option.bind_some, if_true]

/-- A URL with a path. -/
theorem parseUrl_slash (hurl : stringAt MAXLINE f.url 0 = some u)
    (hscheme : strstr u (text "://") = some p)
    (hhttp : strncasecmp u (text "http://") 7 = true) {i : ℕ}
    (hslash : strchr (u.drop (p + 3)) slash = some i) :
    parseUrl f = splitUrl f (p + 3) (p + 3 + i) := by
  unfold parseUrl
  simp only [hurl, hscheme, hhttp, hslash, Option.bind_eq_bind, Option.bind_some, if_false,
    Bool.true_eq_false]

/-- A URL without a path: a slash is put in the place of its NUL. -/
theorem parseUrl_noSlash (hurl : stringAt MAXLINE f.url 0 = some u)
    (hscheme : strstr u (text "://") = some p)
    (hhttp : strncasecmp u (text "http://") 7 = true)
    (hslash : strchr (u.drop (p + 3)) slash = none) :
    parseUrl f = splitUrl { f with url := Function.update f.url u.length slash } (p + 3)
      u.length := by
  unfold parseUrl
  simp only [hurl, hscheme, hhttp, hslash, Option.bind_eq_bind, Option.bind_some, if_false,
    Bool.true_eq_false]

/-- The scheme lies within the URL. -/
theorem scheme_le (hscheme : strstr u (text "://") = some p) : p + 3 ≤ u.length := by
  have := strstr_le hscheme
  rwa [show (text "://").length = 3 by simp [text]] at this

end

/-! ## What the arrays hold afterwards -/

/-- What is left of another request behind the `n`-th character. -/
def leftover (n : ℕ) : ℕ → UInt8 := fun j => if j = n then 120 else 0

/-- The string ends where the copy ends, when the array was zero. -/
theorem stringAt_strncpy_zero {src : List UInt8} {n : ℕ} (hnul : (0 : UInt8) ∉ src)
    (hn : n ≤ src.length) (hlen : src.length < MAXLINE) :
    stringAt MAXLINE (strncpy (fun _ => 0) 0 src n) 0 = some (src.take n) := by
  refine stringAt_eq_some.mpr ⟨fun h => hnul (List.mem_of_mem_take h), ?_, ?_, ?_⟩
  · rw [List.length_take_of_le hn]
    omega
  · intro i hi
    rw [List.length_take_of_le hn] at hi
    rw [strncpy_apply hnul hn, dif_pos (by omega), List.getElem_take]
    simp
  · rw [List.length_take_of_le hn, strncpy_apply hnul hn, dif_neg (by omega)]

/-- Otherwise what is left runs into it. -/
theorem stringAt_strncpy_leftover {src : List UInt8} {n : ℕ} (hnul : (0 : UInt8) ∉ src)
    (hn : n ≤ src.length) (hlen : src.length + 1 < MAXLINE) :
    stringAt MAXLINE (strncpy (leftover n) 0 src n) 0 = some (src.take n ++ [120]) := by
  refine stringAt_eq_some.mpr ⟨?_, ?_, ?_, ?_⟩
  · rw [List.mem_append, not_or]
    exact ⟨fun h => hnul (List.mem_of_mem_take h), by decide⟩
  · rw [List.length_append, List.length_take_of_le hn, List.length_singleton]
    omega
  · intro i hi
    rw [List.length_append, List.length_take_of_le hn, List.length_singleton] at hi
    rw [strncpy_apply hnul hn]
    by_cases hin : i < n
    · rw [dif_pos (by omega), List.getElem_append_left (by rw [List.length_take_of_le hn]; exact hin),
        List.getElem_take]
      simp
    · obtain rfl : i = n := by omega
      rw [dif_neg (by omega), List.getElem_append_right (by rw [List.length_take_of_le hn])]
      simp [leftover]
  · rw [List.length_append, List.length_take_of_le hn, List.length_singleton,
      strncpy_apply hnul hn, dif_neg (by omega), leftover, if_neg (by omega)]

end Proxy
