/-
# `parseline`, `builtin_cmd` and the start of `eval`

`parseline` copies the command line to a static array, puts a NUL behind each token there, and
points `argv` to the tokens; it writes NULL behind the last one.  A token that begins with `&`
in the last place is dropped.  Both functions are programs with a record: the index of each
write to `argv`.

The array and `argv` keep what an earlier line has left.  The loop takes the tokens of the
line one by one (`buildArgv_spec`), whatever spaces and quotes there are.
-/
import CsappLabs.Tokens
import CsappLabs.FgBg
import CsappLabs.Effects

open CString Effects Effects.Prog

namespace Shell

def MAXLINE : ℕ := 1024

def MAXARGS : ℕ := 128

/-- The static `array` of `parseline`, and the pointers to it in `argv`; `none` is NULL. -/
structure Args where
  array : ℕ → UInt8
  argv : ℕ → Option ℕ

/-- The arrays before the first line. -/
def zeroed : Args where
  array := fun _ => 0
  argv := fun _ => none

/-- What goes wrong: an access outside of the array, or through a null pointer. -/
inductive Fault : Type where
  | outside : Fault
  | null : Fault
  deriving DecidableEq, Repr

/-! ## `parseline` -/

/-- `while (*buf && (*buf == ' ')) buf++`, in the last `k` cells of the array. -/
def skipSpaces (array : ℕ → UInt8) : ℕ → ℕ → Option ℕ
  | 0, _ => none
  | k + 1, buf =>
      if array buf ≠ 0 ∧ array buf = 32 then skipSpaces array k (buf + 1) else some buf

/-- The start of a token, behind its quote, and its delimiter. -/
def findDelim (array : ℕ → UInt8) (buf : ℕ) : Option (ℕ × Option ℕ) :=
  if array buf = 39 then do
    let rest ← stringAt MAXLINE array (buf + 1)
    pure (buf + 1, (strchr rest 39).map (buf + 1 + ·))
  else do
    let rest ← stringAt MAXLINE array buf
    pure (buf, (strchr rest 32).map (buf + ·))

/-- The next token: this stands before the loop of `parseline`, and at its end. -/
def nextToken (array : ℕ → UInt8) (buf : ℕ) : Option (ℕ × Option ℕ) := do
  let buf ← skipSpaces array (MAXLINE - buf) buf
  findDelim array buf

/-- `while (delim)`: each round takes a cell of the array at least, and `k` of them are left.  The
result is the array, `argv` and `argc`. -/
def buildArgv : ℕ → Args → ℕ → ℕ × Option ℕ → Prog ℕ Fault (Args × ℕ)
  | 0, _, _, _ => stop .outside
  | _ + 1, args, argc, (_, none) => pure (args, argc)
  | k + 1, args, argc, (buf, some delim) => do
      emit argc
      let argv := Function.update args.argv argc (some buf)
      let array := Function.update args.array delim 0
      let next ← require .outside (nextToken array (delim + 1))
      buildArgv k ⟨array, argv⟩ (argc + 1) next

/-- The part of `parseline` behind its loop. -/
def endArgv (args : Args) (argc : ℕ) : Prog ℕ Fault (Args × ℤ) := do
  emit argc
  let args := { args with argv := Function.update args.argv argc none }
  if argc = 0 then pure (args, 1)
  else
    let last ← require .null (args.argv (argc - 1))
    if args.array last = 38 then
      emit (argc - 1)
      pure ({ args with argv := Function.update args.argv (argc - 1) none }, 1)
    else pure (args, 0)

/-- `parseline`, with the indices of its writes to `argv`.  An empty line has no last character
to replace, and a long one does not fit in the array. -/
def parseline (args : Args) (cmdline : List UInt8) : Prog ℕ Fault (Args × ℤ) :=
  if cmdline = [] ∨ MAXLINE ≤ cmdline.length then stop .outside
  else do
    let array := strcpy args.array cmdline
    let array := Function.update array (cmdline.length - 1) 32
    let next ← require .outside (nextToken array 0)
    let (args, argc) ← buildArgv MAXLINE { args with array := array } 0 next
    endArgv args argc

/-! ## `builtin_cmd` and `eval` -/

/-- The string that a pointer of `argv` points to. -/
def Args.read (args : Args) (i : ℕ) : Prog ℕ Fault (List UInt8) := do
  let p ← require .null (args.argv i)
  require .outside (stringAt MAXLINE args.array p)

/-- The start of `do_bgfg`: without an argument it does nothing. -/
def doBgfg (args : Args) (cmd : List UInt8) : Prog ℕ Fault Command :=
  match args.argv 1 with
  | none => pure .other
  | some p => do
      let arg ← require .outside (stringAt MAXLINE args.array p)
      if arg = [] then pure .other else pure (bgfg (cmd = text "fg") arg)

/-- `builtin_cmd`: what the shell does, when the command is a builtin one. -/
def builtinCmd (args : Args) : Prog ℕ Fault (Option Command) := do
  let cmd ← args.read 0
  if cmd = text "quit" then pure (some .quit)
  else if cmd = text "jobs" then pure (some .other)
  else if cmd = text "bg" ∨ cmd = text "fg" then do
    let c ← doBgfg args cmd
    pure (some c)
  else if cmd = text "&" ∨ cmd = text "" then pure (some .other)
  else pure none

/-- `eval` behind the call of `parseline`: what the shell does for the line. -/
def evalArgs (cmdline : List UInt8) (args : Args) (bg : ℤ) : Prog ℕ Fault (Args × Command) := do
  let builtin ← builtinCmd args
  match builtin with
  | some c => pure (args, c)
  | none => pure (args, .run (bg ≠ 0) (String.ofList (cmdline.map fun c => Char.ofNat c.toNat)))

/-- `eval`, up to what the shell does for the line. -/
def eval (args : Args) (cmdline : List UInt8) : Prog ℕ Fault (Args × Command) := do
  let (args, bg) ← parseline args cmdline
  evalArgs cmdline args bg

/-! ## The next token -/

section

variable {array : ℕ → UInt8} {p : ℕ} {s : List UInt8}

/-- The spaces at the start of a string are skipped. -/
theorem skipSpaces_spec {k : ℕ} (h : stringAt MAXLINE array p = some s) (hk : s.length < k) :
    ∃ buf, p ≤ buf ∧ skipSpaces array k p = some buf ∧
      stringAt MAXLINE array buf = some (s.dropWhile (· = 32)) := by
  induction s generalizing p k with
  | nil =>
      obtain ⟨k, rfl⟩ := Nat.exists_eq_succ_of_ne_zero (show k ≠ 0 by omega)
      refine ⟨p, le_rfl, ?_, h⟩
      exact if_neg fun hp => hp.1 (stringAt_nil h)
  | cons c s ih =>
      obtain ⟨k, rfl⟩ := Nat.exists_eq_succ_of_ne_zero (show k ≠ 0 by omega)
      obtain ⟨hc, hne, hrest⟩ := stringAt_cons h
      rw [List.length_cons] at hk
      by_cases hspace : c = 32
      · obtain ⟨buf, hle, hskip, hbuf⟩ := ih hrest (k := k) (by omega)
        refine ⟨buf, by omega, ?_, ?_⟩
        · rw [skipSpaces, hc, if_pos ⟨hne, hspace⟩]
          exact hskip
        · rw [List.dropWhile_cons_of_pos (by simpa using hspace)]
          exact hbuf
      · refine ⟨p, le_rfl, ?_, ?_⟩
        · rw [skipSpaces, hc, if_neg fun hp => hspace hp.2]
        · rw [List.dropWhile_cons_of_neg (by simpa using hspace)]
          exact h

/-- The delimiter of a token, in a string without spaces at its start. -/
theorem findDelim_spec (h : stringAt MAXLINE array p = some s) (hs : s.head? ≠ some 32) :
    (tokensFrom .between s = [] ∧ ∃ buf, findDelim array p = some (buf, none)) ∨
    ∃ buf quoted w r, p ≤ buf ∧ tokensFrom .between s = ⟨quoted, w⟩ :: tokensFrom .between r ∧
      findDelim array p = some (buf, some (buf + w.length)) ∧
      stringAt MAXLINE array buf = some (w ++ delimiter quoted :: r) := by
  cases s with
  | nil =>
      have hp := stringAt_nil h
      refine Or.inl ⟨rfl, p, ?_⟩
      rw [findDelim, hp, if_neg (by decide), h]
      rfl
  | cons c s =>
      obtain ⟨hc, -, hrest⟩ := stringAt_cons h
      rw [findDelim, hc]
      by_cases hquote : c = 39
      · rw [if_pos hquote, hrest, hquote, tokensFrom_quote]
        rcases tokensFrom_strchr true s with ⟨htokens, hdelim⟩ | ⟨w, r, rfl, hdelim, htokens⟩
        · refine Or.inl ⟨htokens, p + 1, ?_⟩
          show some (p + 1, (strchr s (delimiter true)).map (p + 1 + ·)) = _
          rw [hdelim]
          rfl
        · refine Or.inr ⟨p + 1, true, w, r, by omega, htokens, ?_, hrest⟩
          show some (p + 1,
            (strchr (w ++ delimiter true :: r) (delimiter true)).map (p + 1 + ·)) = _
          rw [hdelim]
          rfl
      · have hspace : c ≠ 32 := fun hc => hs (congrArg some hc)
        rw [if_neg hquote, h, tokensFrom_word hspace hquote]
        rcases tokensFrom_strchr false (c :: s) with ⟨htokens, hdelim⟩ |
          ⟨w, r, heq, hdelim, htokens⟩
        · refine Or.inl ⟨htokens, p, ?_⟩
          show some (p, (strchr (c :: s) (delimiter false)).map (p + ·)) = _
          rw [hdelim]
          rfl
        · refine Or.inr ⟨p, false, w, r, le_rfl, htokens, ?_, heq ▸ h⟩
          show some (p, (strchr (c :: s) (delimiter false)).map (p + ·)) = _
          rw [hdelim]
          rfl

/-- **The next token**: there is none, or it is the first token of the rest of the line. -/
theorem nextToken_spec (h : stringAt MAXLINE array p = some s) :
    (tokensFrom .between s = [] ∧ ∃ buf, nextToken array p = some (buf, none)) ∨
    ∃ buf quoted w r, p ≤ buf ∧ tokensFrom .between s = ⟨quoted, w⟩ :: tokensFrom .between r ∧
      nextToken array p = some (buf, some (buf + w.length)) ∧
      stringAt MAXLINE array buf = some (w ++ delimiter quoted :: r) := by
  have hlen := (stringAt_eq_some.mp h).2.1
  obtain ⟨buf, hle, hskip, hbuf⟩ := skipSpaces_spec h (k := MAXLINE - p) (by omega)
  have hhead : (s.dropWhile (· = 32)).head? ≠ some 32 := by
    intro hhead
    have hnot := List.head?_dropWhile_not (fun c : UInt8 => decide (c = 32)) s
    rw [hhead] at hnot
    simp at hnot
  have hnext : nextToken array p = findDelim array buf := by
    rw [nextToken, hskip]
    rfl
  rw [hnext, ← tokensFrom_dropWhile]
  rcases findDelim_spec hbuf hhead with hnone | ⟨start, quoted, w, r, hstart, hrest⟩
  · exact Or.inl hnone
  · exact Or.inr ⟨start, quoted, w, r, hle.trans hstart, hrest⟩

theorem nextToken_isSome (h : stringAt MAXLINE array p = some s) :
    ∃ next, nextToken array p = some next := by
  rcases nextToken_spec h with ⟨-, buf, hbuf⟩ | ⟨buf, quoted, w, r, -, -, hbuf, -⟩
  · exact ⟨_, hbuf⟩
  · exact ⟨_, hbuf⟩

end

/-! ## The loop -/

/-- The first pointers of `argv` point to strings that end before the cell `p`. -/
def Stored (args : Args) (p : ℕ) (ws : List (List UInt8)) : Prop :=
  ∀ i (h : i < ws.length), ∃ q, args.argv i = some q ∧ q + (ws[i]).length < p ∧
    stringAt MAXLINE args.array q = some ws[i]

/-- **A round of the loop** stores a token behind the others. -/
theorem Stored.push {args : Args} {p : ℕ} {ws : List (List UInt8)} (h : Stored args p ws) {buf : ℕ}
    (hp : p ≤ buf) {w r : List UInt8} {c : UInt8}
    (hbuf : stringAt MAXLINE args.array buf = some (w ++ c :: r)) :
    Stored ⟨Function.update args.array (buf + w.length) 0,
      Function.update args.argv ws.length (some buf)⟩ (buf + w.length + 1) (ws ++ [w]) := by
  intro i hi
  rw [List.length_append, List.length_singleton] at hi
  by_cases hlast : i = ws.length
  · subst hlast
    refine ⟨buf, Function.update_self .., ?_, ?_⟩
    · simp
    · simpa using stringAt_cut hbuf
  · have hbefore : i < ws.length := by omega
    obtain ⟨q, hq, hlt, hstring⟩ := h i hbefore
    rw [List.getElem_append_left hbefore]
    refine ⟨q, ?_, by omega, stringAt_update_of_gt 0 hstring (by omega)⟩
    rw [← hq]
    exact Function.update_of_ne hlast ..

theorem buildArgv_round (k : ℕ) (args : Args) (argc buf delim : ℕ) :
    buildArgv (k + 1) args argc (buf, some delim) = emit argc >>= fun _ =>
      require .outside (nextToken (Function.update args.array delim 0) (delim + 1)) >>= fun next =>
        buildArgv k ⟨Function.update args.array delim 0,
          Function.update args.argv argc (some buf)⟩ (argc + 1) next := rfl

/-- **The loop stores the tokens** of the rest of the line behind the others, and writes to
`argv` once for each of them. -/
theorem buildArgv_spec {k p : ℕ} {args : Args} {s : List UInt8} {ws : List (List UInt8)}
    {next : ℕ × Option ℕ} (hs : stringAt MAXLINE args.array p = some s) (hk : MAXLINE ≤ p + k)
    (hws : Stored args p ws) (hnext : nextToken args.array p = some next) :
    ∃ args' p', Stored args' p' (ws ++ texts (tokensFrom .between s)) ∧
      buildArgv k args ws.length next =
        ⟨List.range' ws.length (tokensFrom .between s).length,
          .ok (args', ws.length + (tokensFrom .between s).length)⟩ := by
  induction k generalizing p args s ws next with
  | zero =>
      have hlen := (stringAt_eq_some.mp hs).2.1
      omega
  | succ k ih =>
      rcases nextToken_spec hs with ⟨htokens, buf, hbuf⟩ |
        ⟨buf, quoted, w, r, hle, htokens, hbuf, hstring⟩
      · obtain rfl := Option.some.inj (hnext.symm.trans hbuf)
        rw [htokens]
        refine ⟨args, p, ?_, rfl⟩
        rw [texts, List.map_nil, List.append_nil]
        exact hws
      · obtain rfl := Option.some.inj (hnext.symm.trans hbuf)
        have hrest := stringAt_behind hstring
        obtain ⟨next, hnext⟩ := nextToken_isSome hrest
        obtain ⟨args', p', hstored, hloop⟩ := ih hrest (by omega) (hws.push hle hstring) hnext
        rw [List.length_append, List.length_singleton] at hloop
        refine ⟨args', p', ?_, ?_⟩
        · rw [htokens]
          rw [List.append_assoc] at hstored
          exact hstored
        · rw [buildArgv_round, hnext, require_some, pure_bind, hloop, htokens, List.length_cons,
            List.range'_succ, Nat.add_right_comm, Nat.add_assoc ws.length]
          rfl

/-! ## The end of `argv` -/

/-- `argv` is a list of strings, with NULL behind them. -/
structure Args.Holds (args : Args) (ws : List (List UInt8)) : Prop where
  words : ∀ i (h : i < ws.length), ∃ q, args.argv i = some q ∧
    stringAt MAXLINE args.array q = some ws[i]
  null : args.argv ws.length = none

/-- The last string begins with `&`. -/
def endsWithAmp (ws : List (List UInt8)) : Bool := ws.getLast?.any fun w => w.head? = some 38

/-- The strings that `parseline` keeps. -/
def kept (ws : List (List UInt8)) : List (List UInt8) := if endsWithAmp ws then ws.dropLast else ws

/-- NULL is written behind the strings that are kept. -/
theorem Args.Holds.cut {args : Args} {ws ws' : List (List UInt8)}
    (h : ∀ i (h : i < ws.length), ∃ q, args.argv i = some q ∧
      stringAt MAXLINE args.array q = some ws[i]) (hws : ws' <+: ws) :
    Args.Holds { args with argv := Function.update args.argv ws'.length none } ws' := by
  refine ⟨fun i hi => ?_, Function.update_self ..⟩
  have hle := hws.length_le
  obtain ⟨q, hq, hstring⟩ := h i (by omega)
  rw [hws.getElem hi]
  refine ⟨q, ?_, hstring⟩
  rw [← hq]
  exact Function.update_of_ne (by omega) ..

/-- **The end of `parseline`**: the last string is dropped when it begins with `&`. -/
theorem endArgv_spec {args : Args} {p : ℕ} {ws : List (List UInt8)} (h : Stored args p ws) :
    ∃ args', args'.Holds (kept ws) ∧ endArgv args ws.length =
      ⟨ws.length :: if endsWithAmp ws then [ws.length - 1] else [],
        .ok (args', if ws = [] ∨ endsWithAmp ws then 1 else 0)⟩ := by
  have hwords : ∀ i (h : i < ws.length), ∃ q, args.argv i = some q ∧
      stringAt MAXLINE args.array q = some ws[i] := by
    intro i hi
    obtain ⟨q, hq, -, hstring⟩ := h i hi
    exact ⟨q, hq, hstring⟩
  have hcut := Args.Holds.cut hwords List.prefix_rfl
  rcases List.eq_nil_or_concat ws with rfl | ⟨front, w, rfl⟩
  · exact ⟨_, hcut, rfl⟩
  · rw [List.concat_eq_append] at hcut ⊢
    have hsucc : (front ++ [w]).length = front.length + 1 := by simp
    obtain ⟨q, hq, hstring⟩ := hcut.words front.length (by omega)
    rw [List.getElem_concat_length rfl] at hstring
    have hlast := stringAt_head (show (38 : UInt8) ≠ 0 by decide) hstring
    have hamp : endsWithAmp (front ++ [w]) = decide (w.head? = some 38) := by
      rw [endsWithAmp, List.getLast?_concat]
      rfl
    have hne : front ++ [w] ≠ [] := by simp
    rw [hsucc] at hq
    rw [endArgv, if_neg (by omega), hsucc, Nat.add_sub_cancel, hq, hamp, kept, hamp]
    by_cases hhead : w.head? = some 38
    · have hfront := Args.Holds.cut hcut.words (List.prefix_append front [w])
      simp only [require_some, Prog.pure_bind, if_pos (hlast.mpr hhead), decide_eq_true hhead,
        if_true, List.dropLast_concat, or_true]
      rw [hsucc] at hfront
      exact ⟨_, hfront, rfl⟩
    · simp only [require_some, Prog.pure_bind, if_neg (mt hlast.mp hhead), decide_eq_false hhead,
        hne, Bool.false_eq_true, if_false, or_self]
      rw [hsucc] at hcut
      exact ⟨_, hcut, rfl⟩

/-! ## The whole line -/

/-- A line that `eval` gets from `fgets`: it is not empty, it has no NUL, and it fits. -/
structure IsLine (cmdline : List UInt8) : Prop where
  ne_nil : cmdline ≠ []
  nul : (0 : UInt8) ∉ cmdline
  length : cmdline.length ≤ MAXLINE - 1

/-- The copy of the line, with a space in the place of its last character. -/
theorem IsLine.copied {cmdline : List UInt8} (h : IsLine cmdline) (array : ℕ → UInt8) :
    stringAt MAXLINE (Function.update (strcpy array cmdline) (cmdline.length - 1) 32) 0 =
      some (cmdline.dropLast ++ [32]) := by
  obtain ⟨hne, hnul, hlen⟩ := h
  have hpos := List.length_pos_iff.mpr hne
  have hcopy := stringAt_update (c := 32)
    (stringAt_strcpy array hnul (show cmdline.length < MAXLINE by rw [MAXLINE] at *; omega))
    (show cmdline.length - 1 < cmdline.length by omega) (by decide)
  rw [hcopy]
  apply congrArg some
  rcases List.eq_nil_or_concat cmdline with rfl | ⟨front, c, rfl⟩
  · exact absurd rfl hne
  · rw [List.concat_eq_append, List.dropLast_concat]
    simp

/-- **What `parseline` does**, whatever an earlier line has left: it writes to `argv` from the
start, keeps the tokens but for a last one that begins with `&`, and returns 1 for that, and for
a line without tokens. -/
theorem parseline_spec {cmdline : List UInt8} (h : IsLine cmdline) (args : Args) :
    ∃ args', args'.Holds (kept (texts (tokens cmdline))) ∧ parseline args cmdline =
      ⟨List.range ((tokens cmdline).length + 1) ++
          if endsWithAmp (texts (tokens cmdline)) then [(tokens cmdline).length - 1] else [],
        .ok (args',
          if tokens cmdline = [] ∨ endsWithAmp (texts (tokens cmdline)) then 1 else 0)⟩ := by
  have hs := h.copied args.array
  obtain ⟨next, hnext⟩ := nextToken_isSome hs
  have hempty : Stored
      ⟨Function.update (strcpy args.array cmdline) (cmdline.length - 1) 32, args.argv⟩ 0 [] :=
    fun i hi => absurd hi (Nat.not_lt_zero i)
  obtain ⟨args₁, p, hstored, hloop⟩ :=
    buildArgv_spec (k := MAXLINE) hs (Nat.le_add_left ..) hempty hnext
  rw [List.nil_append, ← tokens] at hstored
  rw [List.length_nil, Nat.zero_add, ← List.range_eq_range', ← tokens] at hloop
  obtain ⟨args', hholds, hend⟩ := endArgv_spec hstored
  have hlen : (texts (tokens cmdline)).length = (tokens cmdline).length := List.length_map _
  have hnil : texts (tokens cmdline) = [] ↔ tokens cmdline = [] := List.map_eq_nil_iff
  have hfits : ¬ (cmdline = [] ∨ MAXLINE ≤ cmdline.length) := by
    rw [not_or, not_le]
    exact ⟨h.ne_nil, Nat.lt_of_le_pred (by decide) h.length⟩
  simp only [hlen, hnil] at hend
  refine ⟨args', hholds, ?_⟩
  rw [parseline, if_neg hfits]
  simp only [hnext, require_some, Prog.pure_bind]
  rw [hloop, bind_of_ok rfl]
  show Prog.mk (_ ++ (endArgv args₁ _).events) (endArgv args₁ _).result = _
  rw [hend, List.range_succ, List.append_assoc]
  rfl

section

variable {cmdline : List UInt8}

/-- The writes to `argv`: the last one may be that of the token behind the others. -/
theorem mem_parseline {args : Args} (h : IsLine cmdline) {i : ℕ} :
    i ∈ (parseline args cmdline).events ↔ i ≤ (tokens cmdline).length := by
  obtain ⟨args', -, hparse⟩ := parseline_spec h args
  rw [hparse]
  simp only [List.mem_append, List.mem_range]
  constructor
  · rintro (hi | hi)
    · omega
    · split_ifs at hi
      · rw [List.mem_singleton] at hi
        omega
      · cases hi
  · intro hi
    exact Or.inl (by omega)

theorem endsWithAmp_iff {ws : List (List UInt8)} :
    endsWithAmp ws = true ↔ ∃ w, ws.getLast? = some w ∧ w.head? = some 38 := by
  rw [endsWithAmp, Option.any_eq_true]
  simp only [decide_eq_true_eq]

/-- The last token decides. -/
theorem endsWithAmp_texts {ts : List Token} {t : Token} (ht : ts.getLast? = some t) :
    endsWithAmp (texts ts) = true ↔ t.text.head? = some 38 := by
  have hlast : (texts ts).getLast? = some t.text := by
    rw [texts, List.getLast?_map, ht]
    rfl
  rw [endsWithAmp_iff, hlast]
  simp only [Option.some.injEq, exists_eq_left']

/-- A line whose last token begins with `&`. -/
theorem parseline_amp (h : IsLine cmdline) (args : Args) {t : Token}
    (ht : (tokens cmdline).getLast? = some t) (hamp : t.text.head? = some 38) :
    ∃ args', (parseline args cmdline).result = .ok (args', 1) ∧
      args'.Holds (texts (tokens cmdline)).dropLast := by
  obtain ⟨args', hholds, hparse⟩ := parseline_spec h args
  have hends := (endsWithAmp_texts ht).mpr hamp
  rw [kept, if_pos hends] at hholds
  rw [if_pos (Or.inr hends)] at hparse
  exact ⟨args', congrArg Prog.result hparse, hholds⟩

/-- Any other line that has a token. -/
theorem parseline_plain (h : IsLine cmdline) (args : Args) {t : Token}
    (ht : (tokens cmdline).getLast? = some t) (hplain : t.text.head? ≠ some 38) :
    ∃ args', (parseline args cmdline).result = .ok (args', 0) ∧
      args'.Holds (texts (tokens cmdline)) := by
  obtain ⟨args', hholds, hparse⟩ := parseline_spec h args
  have hends := mt (endsWithAmp_texts ht).mp hplain
  have hne : tokens cmdline ≠ [] := by
    rintro hnil
    rw [hnil] at ht
    cases ht
  rw [kept, if_neg hends] at hholds
  rw [if_neg (not_or.mpr ⟨hne, hends⟩)] at hparse
  exact ⟨args', congrArg Prog.result hparse, hholds⟩

end

end Shell
