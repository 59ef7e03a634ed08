/-
# Command lines and their arguments

A list of arguments, each with or without quotes, is written on a line with any spaces around
the arguments, and with the background marker behind them or not.  `parseline` finds the
arguments again (`parseline_render`).
-/
import CsappLabs.Parseline

open CString

namespace Shell

/-- An argument as it can stand on a line: between quotes it has no quote; otherwise it is not
empty, has no space, and does not begin with a quote. -/
structure Arg where
  token : Token
  nul : (0 : UInt8) ∉ token.text
  newline : (10 : UInt8) ∉ token.text
  ends : delimiter token.quoted ∉ token.text
  begins : token.quoted = false → token.text ≠ [] ∧ token.text.head? ≠ some 39

/-- The marker, as the last word of a line. -/
def markerArg : Arg := ⟨marker, by decide, by decide, by decide, by decide⟩

/-- The characters of an argument on a line. -/
def Arg.render (arg : Arg) : List UInt8 :=
  if arg.token.quoted then 39 :: (arg.token.text ++ [39]) else arg.token.text

/-- An argument behind another one: `gap + 1` spaces, and the argument. -/
def piece (p : ℕ × Arg) : List UInt8 := spaces (p.1 + 1) ++ p.2.render

/-- A command line: its first argument, and the others with the gaps before them.  In the
background the marker follows, with a gap before it. -/
structure CommandLine where
  lead : ℕ
  first : Arg
  rest : List (ℕ × Arg)
  background : Option ℕ
  trail : ℕ

namespace CommandLine

/-- The arguments. -/
def args (l : CommandLine) : List Arg := l.first :: l.rest.map Prod.snd

/-- What follows the first argument. -/
def pieces (l : CommandLine) : List (ℕ × Arg) :=
  l.rest ++ l.background.toList.map fun gap => (gap, markerArg)

/-- The characters of the line, with its newline. -/
def render (l : CommandLine) : List UInt8 :=
  spaces l.lead ++ (l.first.render ++ (l.pieces.flatMap piece ++ spaces l.trail)) ++ [10]

end CommandLine

/-! ## The tokens of a rendered line -/

/-- **An argument is one token**, when a space follows. -/
theorem tokensFrom_render (arg : Arg) {s : List UInt8} (hs : s.head? = some 32) :
    tokensFrom .between (arg.render ++ s) = arg.token :: tokensFrom .between s := by
  obtain ⟨r, rfl⟩ := List.head?_eq_some_iff.mp hs
  obtain ⟨⟨quoted, w⟩, -, -, hends, hbegins⟩ := arg
  cases quoted with
  | true =>
      show tokensFrom .between (39 :: (w ++ [39]) ++ 32 :: r) = _
      rw [List.cons_append, tokensFrom_quote, List.append_assoc]
      exact tokensFrom_delimiter hends [] (32 :: r)
  | false =>
      obtain ⟨hne, hquote⟩ := hbegins rfl
      obtain ⟨c, w, rfl⟩ := List.exists_cons_of_ne_nil hne
      have hspace : c ≠ 32 := by
        rintro rfl
        exact hends List.mem_cons_self
      show tokensFrom .between (c :: (w ++ 32 :: r)) = _
      rw [tokensFrom_word hspace fun hc => hquote (congrArg some hc), tokensFrom_space]
      exact tokensFrom_delimiter hends [] r

/-- The pieces of a line begin with a space, and so does what follows them. -/
theorem head_pieces (ps : List (ℕ × Arg)) (s : List UInt8) :
    (ps.flatMap piece ++ 32 :: s).head? = some 32 := by
  cases ps with
  | nil => rfl
  | cons p ps => rfl

/-- **The arguments behind the first one.** -/
theorem tokensFrom_pieces (ps : List (ℕ × Arg)) (s : List UInt8) :
    tokensFrom .between (ps.flatMap piece ++ 32 :: s) =
      ps.map (fun p => p.2.token) ++ tokensFrom .between s := by
  induction ps with
  | nil => exact tokensFrom_space s
  | cons p ps ih =>
      rw [List.flatMap_cons, piece, List.append_assoc, List.append_assoc,
        tokensFrom_spaces, tokensFrom_render p.2 (head_pieces ps s), ih]
      rfl

namespace CommandLine

/-- **The tokens of a rendered line.** -/
theorem tokens_render (l : CommandLine) :
    tokens l.render = l.args.map Arg.token ++ l.background.toList.map fun _ => marker := by
  have htrail : spaces l.trail ++ [32] = 32 :: spaces l.trail := by
    rw [spaces, ← List.replicate_succ', List.replicate_succ]
  have hend : tokensFrom .between (spaces l.trail) = [] := by
    have hspaces := tokensFrom_spaces l.trail []
    rw [List.append_nil] at hspaces
    exact hspaces
  rw [tokens, render, List.dropLast_concat, List.append_assoc, List.append_assoc, List.append_assoc,
    htrail, tokensFrom_spaces, tokensFrom_render _ (head_pieces _ _), tokensFrom_pieces, hend,
    List.append_nil, pieces, args]
  simp [markerArg, Function.comp_def]

theorem nul_render (l : CommandLine) : (0 : UInt8) ∉ l.render := by
  have hspaces : ∀ n, (0 : UInt8) ∉ spaces n := fun n h =>
    absurd (List.eq_of_mem_replicate h) (by decide)
  have harg : ∀ arg : Arg, (0 : UInt8) ∉ arg.render := by
    intro arg
    rw [Arg.render]
    split_ifs
    · simpa using arg.nul
    · exact arg.nul
  have hpiece : ∀ p : ℕ × Arg, (0 : UInt8) ∉ piece p := by
    intro p
    rw [piece, List.mem_append, not_or]
    exact ⟨hspaces _, harg _⟩
  simp only [render, List.mem_append, List.mem_flatMap, not_or]
  refine ⟨⟨hspaces _, harg _, fun ⟨p, _, hp⟩ => hpiece p hp, hspaces _⟩, by decide⟩

/-- A rendered line that fits. -/
theorem isLine_render {l : CommandLine} (hlen : l.render.length < MAXLINE) : IsLine l.render :=
  ⟨by simp [render], l.nul_render, Nat.le_pred_of_lt hlen⟩

theorem texts_args (l : CommandLine) :
    texts (l.args.map Arg.token) = l.args.map fun arg => arg.token.text := List.map_map

end CommandLine

/-- **`parseline` undoes the rendering of a line**: `argv` is the arguments and NULL, and the
result says whether the marker was there. -/
theorem parseline_render (l : CommandLine) (hcount : l.args.length ≤ MAXARGS - 2)
    (hlast : ∀ arg, l.args.getLast? = some arg → arg.token.text.head? ≠ some 38)
    (hlen : l.render.length < MAXLINE) (args : Args) :
    (∀ i ∈ (parseline args l.render).events, i < MAXARGS) ∧
    ∃ args', (parseline args l.render).result =
        .ok (args', if l.background.isSome then 1 else 0) ∧
      args'.Holds (l.args.map fun arg => arg.token.text) := by
  have hline := CommandLine.isLine_render hlen
  have htokens := l.tokens_render
  constructor
  · intro i hi
    have hle := (mem_parseline hline).mp hi
    have hmarker : (l.background.toList.map fun _ => marker).length ≤ 1 := by
      cases l.background <;> simp
    rw [htokens, List.length_append, List.length_map] at hle
    rw [MAXARGS] at hcount ⊢
    omega
  · cases hbg : l.background with
    | none =>
        have hargs : tokens l.render = l.args.map Arg.token := by
          rw [htokens, hbg]
          exact List.append_nil _
        obtain ⟨arg, harg⟩ : ∃ arg, l.args.getLast? = some arg := ⟨_, List.getLast?_cons⟩
        have htoken : (tokens l.render).getLast? = some arg.token := by
          rw [hargs, List.getLast?_map, harg]
          rfl
        obtain ⟨args', hparse, hholds⟩ := parseline_plain hline args htoken (hlast arg harg)
        rw [hargs, l.texts_args] at hholds
        exact ⟨args', hparse, hholds⟩
    | some gap =>
        have hargs : tokens l.render = l.args.map Arg.token ++ [marker] := by
          rw [htokens, hbg]
          rfl
        have htoken : (tokens l.render).getLast? = some marker := by
          rw [hargs]
          exact List.getLast?_concat
        obtain ⟨args', hparse, hholds⟩ := parseline_amp hline args htoken rfl
        rw [hargs, texts, List.map_append, List.map_singleton, List.dropLast_concat, ← texts,
          l.texts_args] at hholds
        exact ⟨args', hparse, hholds⟩

/-- The word `ls`. -/
def lsArg : Arg := ⟨⟨false, [108, 115]⟩, by decide, by decide, by decide, by decide⟩

/-- An empty argument, and one with a space. -/
def emptyArg : Arg := ⟨⟨true, []⟩, by decide, by decide, by decide, by decide⟩

def spacedArg : Arg := ⟨⟨true, [97, 32, 98]⟩, by decide, by decide, by decide, by decide⟩

/-- The line `  ls '' 'a b'  & `. -/
def quotedLine : CommandLine := ⟨2, lsArg, [(0, emptyArg), (0, spacedArg)], some 1, 1⟩

/-- Three arguments, in the background. -/
theorem parseline_render_quoted :
    quotedLine.render = [32, 32, 108, 115, 32, 39, 39, 32, 39, 97, 32, 98, 39, 32, 32, 38, 32, 10] ∧
    ∃ args', (parseline zeroed quotedLine.render).result = .ok (args', 1) ∧
      args'.Holds [[108, 115], [], [97, 32, 98]] := by
  have hlast : ∀ arg, quotedLine.args.getLast? = some arg → arg.token.text.head? ≠ some 38 := by
    intro arg harg
    obtain rfl : spacedArg = arg := Option.some.inj harg
    decide
  have hrender := parseline_render quotedLine (by decide) hlast (by decide) zeroed
  exact ⟨by decide, hrender.2⟩

end Shell
