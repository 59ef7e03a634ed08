/-
# `eval` on any line

What `eval` makes of a line, by its tokens.  The tests of `builtin_cmd` are about the strings
that `argv` holds (`builtinCmd_spec`), so the line is safe when a string is left in `argv` and
there is room for all of them (`safe_iff`).  A blank line and a lone `&` leave none: the test
for NULL that `parseline` makes for itself is missing in `eval`.

The test for the background looks at one character of the last token, after the quotes are
gone (`drops_marker_only_iff`).
-/
import CsappLabs.Parseline

open CString Effects Effects.Prog

namespace Shell

/-! ## `builtin_cmd` on a list of strings -/

/-- `do_bgfg`, on the strings behind the command. -/
def bgfgOf (cmd : List UInt8) : List (List UInt8) → Command
  | [] => .other
  | arg :: _ => if arg = [] then .other else bgfg (cmd = text "fg") arg

/-- `builtin_cmd`, on the command and the strings behind it. -/
def builtinOf (cmd : List UInt8) (rest : List (List UInt8)) : Option Command :=
  if cmd = text "quit" then some .quit
  else if cmd = text "jobs" then some .other
  else if cmd = text "bg" ∨ cmd = text "fg" then some (bgfgOf cmd rest)
  else if cmd = text "&" ∨ cmd = text "" then some .other
  else none

section

variable {args : Args} {cmd : List UInt8} {rest : List (List UInt8)}

theorem Args.Holds.read (h : args.Holds (cmd :: rest)) : args.read 0 = pure cmd := by
  obtain ⟨q, hq, hstring⟩ := h.words 0 (Nat.succ_pos _)
  rw [Args.read, hq, require_some, Prog.pure_bind, hstring]
  rfl

theorem doBgfg_spec (h : args.Holds (cmd :: rest)) :
    doBgfg args cmd = pure (bgfgOf cmd rest) := by
  cases rest with
  | nil =>
      have hnull : args.argv 1 = none := h.null
      rw [doBgfg, hnull]
      rfl
  | cons arg rest =>
      obtain ⟨q, hq, hstring⟩ := h.words 1 (by simp)
      have harg : stringAt MAXLINE args.array q = some arg := hstring
      rw [doBgfg, hq]
      simp only [harg, require_some, Prog.pure_bind, bgfgOf]
      split_ifs <;> rfl

/-- **`builtin_cmd` reads the strings of `argv`.** -/
theorem builtinCmd_spec (h : args.Holds (cmd :: rest)) :
    builtinCmd args = pure (builtinOf cmd rest) := by
  rw [builtinCmd, h.read, Prog.pure_bind, builtinOf, doBgfg_spec h]
  split_ifs <;> rfl

/-- Without strings it reads through NULL. -/
theorem builtinCmd_null (h : args.Holds []) : builtinCmd args = stop .null := by
  have hnull : args.argv 0 = none := h.null
  rw [builtinCmd, Args.read, hnull]
  rfl

end

/-! ## The strings that are kept -/

section

variable {ws : List (List UInt8)}

theorem kept_prefix (ws : List (List UInt8)) : kept ws <+: ws := by
  rw [kept]
  split_ifs
  · exact List.dropLast_prefix ws
  · exact List.prefix_rfl

/-- **No string is left** when there was none, or one that begins with `&`. -/
theorem kept_eq_nil : kept ws = [] ↔ ws = [] ∨ ∃ w, ws = [w] ∧ w.head? = some 38 := by
  rcases List.eq_nil_or_concat ws with rfl | ⟨front, w, rfl⟩
  · exact iff_of_true rfl (Or.inl rfl)
  · rw [List.concat_eq_append]
    have hlast : (front ++ [w]).getLast? = some w := List.getLast?_concat
    rw [kept]
    by_cases hamp : endsWithAmp (front ++ [w]) = true
    · have hamp' := endsWithAmp_iff.mp hamp
      rw [if_pos hamp, List.dropLast_concat]
      simp only [hlast, Option.some.injEq, exists_eq_left'] at hamp'
      cases front with
      | nil => simpa using hamp'
      | cons v front => simp
    · have hamp' := mt endsWithAmp_iff.mpr hamp
      rw [if_neg hamp]
      simp only [hlast, Option.some.injEq, exists_eq_left'] at hamp'
      cases front with
      | nil => simpa using hamp'
      | cons v front => simp

end

/-! ## The line -/

section

variable {cmdline : List UInt8}

/-- What `eval` does behind a call of `parseline` that returns. -/
theorem eval_eq {args args' : Args} {es : List ℕ} {bg : ℤ}
    (h : parseline args cmdline = ⟨es, .ok (args', bg)⟩) : eval args cmdline =
      ⟨es ++ (evalArgs cmdline args' bg).events, (evalArgs cmdline args' bg).result⟩ := by
  rw [eval, h, bind_of_ok rfl]

/-- Without a string, `eval` stops in `builtin_cmd`. -/
theorem eval_null (h : IsLine cmdline) (args : Args) (hkept : kept (texts (tokens cmdline)) = []) :
    eval args cmdline = ⟨(parseline args cmdline).events, .error .null⟩ := by
  obtain ⟨args', hholds, hparse⟩ := parseline_spec h args
  rw [hkept] at hholds
  rw [eval_eq hparse, hparse, evalArgs, builtinCmd_null hholds, stop_bind, events_stop,
    List.append_nil]
  rfl

/-- **Otherwise the first string is the command**, and a program runs in the background when the
last token begins with `&`. -/
theorem eval_command (h : IsLine cmdline) (args : Args) {cmd : List UInt8}
    {rest : List (List UInt8)} (hkept : kept (texts (tokens cmdline)) = cmd :: rest) :
    ∃ args', args'.Holds (cmd :: rest) ∧ eval args cmdline = ⟨(parseline args cmdline).events,
      .ok (args', (builtinOf cmd rest).getD (.run (endsWithAmp (texts (tokens cmdline)))
        (String.ofList (cmdline.map fun c => Char.ofNat c.toNat))))⟩ := by
  obtain ⟨args', hholds, hparse⟩ := parseline_spec h args
  have hne : tokens cmdline ≠ [] := by
    intro hnil
    rw [hnil] at hkept
    cases hkept
  rw [hkept] at hholds
  refine ⟨args', hholds, ?_⟩
  rw [eval_eq hparse, hparse, evalArgs, builtinCmd_spec hholds, Prog.pure_bind]
  simp only [hne, false_or]
  cases builtinOf cmd rest with
  | some c =>
      rw [events_pure, List.append_nil]
      rfl
  | none =>
      rw [events_pure, List.append_nil]
      cases endsWithAmp (texts (tokens cmdline)) <;> rfl

/-- The line has no command word: no token, or an empty one or `&` in the first place. -/
def NoCommand (cmdline : List UInt8) : Prop :=
  ∀ w, (texts (tokens cmdline)).head? = some w → w = [] ∨ w = [38]

/-- **`eval` is safe on a line**: the writes to `argv` stay inside of it, nothing is read through
NULL, and without a command word nothing happens to the shell. -/
structure Safe (args : Args) (cmdline : List UInt8) : Prop where
  writes : ∀ i ∈ (eval args cmdline).events, i < MAXARGS
  reads : ∃ r, (eval args cmdline).result = .ok r
  quiet : NoCommand cmdline → ∀ args' c, (eval args cmdline).result = .ok (args', c) →
    ∀ s, command s c = s

/-- `builtin_cmd` returns for the empty command, and for `&`. -/
theorem builtinOf_quiet {cmd : List UInt8} (h : cmd = [] ∨ cmd = [38]) (rest : List (List UInt8)) :
    builtinOf cmd rest = some .other := by
  rcases h with rfl | rfl <;> simp [builtinOf, text]

/-- A safe line leaves a string in `argv`. -/
theorem Safe.kept {args : Args} (hsafe : Safe args cmdline) (h : IsLine cmdline) :
    kept (texts (tokens cmdline)) ≠ [] := by
  intro hkept
  obtain ⟨r, hr⟩ := hsafe.reads
  rw [eval_null h args hkept] at hr
  cases hr

theorem eval_events {args : Args} (h : IsLine cmdline) :
    (eval args cmdline).events = (parseline args cmdline).events := by
  cases hkept : Shell.kept (texts (tokens cmdline)) with
  | nil => rw [eval_null h args hkept]
  | cons cmd rest =>
      obtain ⟨args', -, heval⟩ := eval_command h args hkept
      rw [heval]

/-- The tokens of a line that leaves a string in `argv`. -/
theorem kept_tokens {ts : List Token} : kept (texts ts) ≠ [] ↔
    ts ≠ [] ∧ ¬ ∃ t, ts = [t] ∧ t.text.head? = some 38 := by
  have hsingle : (∃ w, texts ts = [w] ∧ w.head? = some 38) ↔
      ∃ t, ts = [t] ∧ t.text.head? = some 38 := by
    constructor
    · rintro ⟨w, hw, hhead⟩
      obtain ⟨t, rfl, rfl⟩ := List.map_eq_singleton_iff.mp hw
      exact ⟨t, rfl, hhead⟩
    · rintro ⟨t, rfl, hhead⟩
      exact ⟨t.text, rfl, hhead⟩
  rw [ne_eq, kept_eq_nil, not_or, hsingle, texts, List.map_eq_nil_iff]

/-- Without a command word nothing happens. -/
theorem eval_quiet (h : IsLine cmdline) {args args' : Args} {c : Command}
    (hkept : kept (texts (tokens cmdline)) ≠ []) (hno : NoCommand cmdline)
    (heval : (eval args cmdline).result = .ok (args', c)) : c = .other := by
  obtain ⟨cmd, rest, hcons⟩ := List.exists_cons_of_ne_nil hkept
  obtain ⟨args₁, -, hrun⟩ := eval_command h args hcons
  have hstart := kept_prefix (texts (tokens cmdline))
  rw [hcons] at hstart
  obtain ⟨more, hmore⟩ := hstart
  have hcmd : cmd = [] ∨ cmd = [38] := by
    apply hno
    rw [← hmore]
    rfl
  rw [hrun, builtinOf_quiet hcmd] at heval
  have hpair := Except.ok.inj heval
  exact (congrArg Prod.snd hpair).symm

/-- **When `eval` is safe**: the line has a token, there are less than `MAXARGS`, and not only
one that begins with `&`. -/
theorem safe_iff (h : IsLine cmdline) (args : Args) : Safe args cmdline ↔
    tokens cmdline ≠ [] ∧ (tokens cmdline).length < MAXARGS ∧
      ¬ ∃ t, tokens cmdline = [t] ∧ t.text.head? = some 38 := by
  have hwrites : (∀ i ∈ (eval args cmdline).events, i < MAXARGS) ↔
      (tokens cmdline).length < MAXARGS := by
    rw [eval_events h]
    simp only [mem_parseline h]
    exact ⟨fun hi => hi _ le_rfl, fun hlt i hi => lt_of_le_of_lt hi hlt⟩
  constructor
  · intro hsafe
    obtain ⟨hne, hamp⟩ := kept_tokens.mp (hsafe.kept h)
    exact ⟨hne, hwrites.mp hsafe.writes, hamp⟩
  · rintro ⟨hne, hlt, hamp⟩
    have hkept := kept_tokens.mpr ⟨hne, hamp⟩
    obtain ⟨cmd, rest, hcons⟩ := List.exists_cons_of_ne_nil hkept
    obtain ⟨args', -, hrun⟩ := eval_command h args hcons
    refine ⟨hwrites.mpr hlt, ⟨_, congrArg Prog.result hrun⟩, fun hno args₁ c hc s => ?_⟩
    rw [eval_quiet h hkept hno hc]
    rfl

end

/-- The line `ls &`. -/
theorem safe_ls : Safe zeroed [108, 115, 32, 38, 10] := by
  refine (safe_iff ⟨by decide, by decide, by decide⟩ zeroed).mpr ⟨by decide, by decide, ?_⟩
  rintro ⟨t, ht, -⟩
  have hlen : (tokens [108, 115, 32, 38, 10]).length = [t].length := congrArg List.length ht
  exact absurd hlen (show ¬ 2 = 1 by decide)

/-- A blank line, and a lone `&`: `builtin_cmd` reads through NULL. -/
theorem not_safe_blank : (IsLine [32, 10] ∧ NoCommand [32, 10] ∧ ¬ Safe zeroed [32, 10]) ∧
    IsLine [38, 10] ∧ NoCommand [38, 10] ∧ ¬ Safe zeroed [38, 10] := by
  have hblank : IsLine [32, 10] := ⟨by decide, by decide, by decide⟩
  have hamp : IsLine [38, 10] := ⟨by decide, by decide, by decide⟩
  refine ⟨⟨hblank, ?_, fun hsafe => hsafe.kept hblank (by decide)⟩, hamp, ?_,
    fun hsafe => hsafe.kept hamp (by decide)⟩
  · intro w hw
    cases hw
  · intro w hw
    exact Or.inr (Option.some.inj hw).symm

/-! ## The background -/

/-- **Only the background marker is dropped**: a last token that is the marker makes a background
job, and any other line keeps all of its tokens. -/
structure DropsMarkerOnly (args : Args) (cmdline : List UInt8) : Prop where
  writes : ∀ i ∈ (parseline args cmdline).events, i < MAXARGS
  result : ∃ args' bg, (parseline args cmdline).result = .ok (args', bg) ∧
    if (tokens cmdline).getLast? = some marker then
      bg = 1 ∧ args'.Holds (texts (tokens cmdline)).dropLast
    else bg = 0 ∧ args'.Holds (texts (tokens cmdline))

section

variable {cmdline : List UInt8}

/-- A last token that begins with `&` is dropped, so it has to be the marker. -/
theorem DropsMarkerOnly.last {args : Args} (hdrops : DropsMarkerOnly args cmdline)
    (h : IsLine cmdline) {t : Token} (ht : (tokens cmdline).getLast? = some t)
    (hamp : t.text.head? = some 38) : t = marker := by
  by_contra hne
  obtain ⟨args', hparse, -⟩ := parseline_amp h args ht hamp
  obtain ⟨args₁, bg, hresult, hif⟩ := hdrops.result
  rw [ht, if_neg fun heq => hne (Option.some.inj heq)] at hif
  have hpair := Except.ok.inj (hparse.symm.trans hresult)
  have hbg : 1 = bg := congrArg Prod.snd hpair
  omega

/-- **When only the marker is dropped**: a last token that begins with `&` is the marker. -/
theorem drops_marker_only_iff (h : IsLine cmdline) (hne : tokens cmdline ≠ [])
    (hlt : (tokens cmdline).length < MAXARGS) (args : Args) : DropsMarkerOnly args cmdline ↔
      ∀ t, (tokens cmdline).getLast? = some t → t.text.head? = some 38 → t = marker := by
  constructor
  · intro hdrops t ht hamp
    exact hdrops.last h ht hamp
  · intro hlast
    refine ⟨fun i hi => lt_of_le_of_lt ((mem_parseline h).mp hi) hlt, ?_⟩
    obtain ⟨t, ht⟩ := Option.ne_none_iff_exists'.mp (mt List.getLast?_eq_none_iff.mp hne)
    by_cases hamp : t.text.head? = some 38
    · obtain ⟨args', hparse, hholds⟩ := parseline_amp h args ht hamp
      refine ⟨args', 1, hparse, ?_⟩
      rw [ht, hlast t ht hamp, if_pos rfl]
      exact ⟨rfl, hholds⟩
    · obtain ⟨args', hparse, hholds⟩ := parseline_plain h args ht hamp
      have hne : ¬ some t = some marker := by
        rintro heq
        obtain rfl := Option.some.inj heq
        exact hamp rfl
      refine ⟨args', 0, hparse, ?_⟩
      rw [ht, if_neg hne]
      exact ⟨rfl, hholds⟩

end

/-- The line `a &`. -/
theorem drops_marker_only_plain : DropsMarkerOnly zeroed [97, 32, 38, 10] := by
  refine (drops_marker_only_iff ⟨by decide, by decide, by decide⟩ (by decide) (by decide)
    zeroed).mpr fun t ht _ => ?_
  exact (Option.some.inj ht).symm

/-- The lines `a '&'` and `a &b`: the last argument is dropped. -/
theorem not_drops_marker_only :
    (IsLine [97, 32, 39, 38, 39, 10] ∧
      tokens [97, 32, 39, 38, 39, 10] = [⟨false, [97]⟩, ⟨true, [38]⟩] ∧
      ¬ DropsMarkerOnly zeroed [97, 32, 39, 38, 39, 10]) ∧
    IsLine [97, 32, 38, 98, 10] ∧
      tokens [97, 32, 38, 98, 10] = [⟨false, [97]⟩, ⟨false, [38, 98]⟩] ∧
      ¬ DropsMarkerOnly zeroed [97, 32, 38, 98, 10] := by
  have hquoted : IsLine [97, 32, 39, 38, 39, 10] := ⟨by decide, by decide, by decide⟩
  have hword : IsLine [97, 32, 38, 98, 10] := ⟨by decide, by decide, by decide⟩
  refine ⟨⟨hquoted, by decide, fun hdrops => ?_⟩, hword, by decide, fun hdrops => ?_⟩
  · exact absurd (hdrops.last hquoted (t := ⟨true, [38]⟩) (by decide) rfl) (by decide)
  · exact absurd (hdrops.last hword (t := ⟨false, [38, 98]⟩) (by decide) rfl) (by decide)

end Shell
