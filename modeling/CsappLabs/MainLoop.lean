/-
# The read/eval loop of the shell

`main` reads a line with `fgets` and gives it to `eval`, until the end of the input, or `quit`.
The arrays of `parseline` keep what an earlier line has left in them; nothing that the shell does
depends on it: the loop does what an interpreter does that looks at one line after the other
(`mainLoop_interprets`).  The lines that it sees are those of the input exactly when each of them
fits into the buffer (`commandLines_iff`).
-/
import CsappLabs.EvalLine

open CString Effects Effects.Prog

namespace Shell

/-- `fgets`, with room for so many characters: what is stored, what is left to read, and whether
the input has ended. -/
def fgets : ℕ → List UInt8 → List UInt8 × List UInt8 × Bool
  | 0, s => ([], s, false)
  | _ + 1, [] => ([], [], true)
  | k + 1, c :: s =>
      if c = 10 then ([c], s, false)
      else
        let (line, rest, eof) := fgets k s
        (c :: line, rest, eof)

/-- How the shell ends: behind the end of the input, after an error of it, with `quit`, or by an
access outside of its arrays. -/
inductive Ending : Type where
  | eof : Ending
  | readError : Ending
  | quit : Ending
  | crash : Ending
  deriving DecidableEq, Repr

/-- What `main` does behind the last line, for an input that ends or fails there. -/
def lastRead (fails : Bool) : Ending := if fails then .readError else .eof

/-- What is stored and what is left are the input. -/
theorem fgets_append (k : ℕ) (s : List UInt8) : (fgets k s).1 ++ (fgets k s).2.1 = s := by
  induction k generalizing s with
  | zero => rfl
  | succ k ih =>
      cases s with
      | nil => rfl
      | cons c s =>
          rw [fgets]
          split_ifs
          · rfl
          · exact congrArg (c :: ·) (ih s)

theorem fgets_length (k : ℕ) (s : List UInt8) : (fgets k s).1.length ≤ k := by
  induction k generalizing s with
  | zero => exact le_rfl
  | succ k ih =>
      cases s with
      | nil => exact Nat.zero_le _
      | cons c s =>
          rw [fgets]
          split_ifs
          · exact Nat.succ_le_succ (Nat.zero_le k)
          · exact Nat.succ_le_succ (ih s)

/-- A line that was read has a character. -/
theorem fgets_ne_nil {k : ℕ} (hk : 0 < k) {s : List UInt8} (h : (fgets k s).2.2 = false) :
    (fgets k s).1 ≠ [] := by
  obtain ⟨k, rfl⟩ := Nat.exists_eq_succ_of_ne_zero hk.ne'
  cases s with
  | nil => cases h
  | cons c s =>
      rw [fgets]
      split_ifs <;> exact List.cons_ne_nil _ _

/-- The rest is shorter. -/
theorem fgets_rest {s line rest : List UInt8}
    (h : fgets (MAXLINE - 1) s = (line, rest, false)) : rest.length < s.length := by
  have hne := fgets_ne_nil (k := MAXLINE - 1) (by decide) (s := s) (by rw [h])
  have happend := congrArg List.length (fgets_append (MAXLINE - 1) s)
  rw [h] at hne happend
  rw [List.length_append] at happend
  have hpos := List.length_pos_of_ne_nil hne
  simp only at hpos happend
  omega

/-- The loop of `main`: the commands that are carried out, and how the shell ends.  A write
behind the end of `argv` is an end too. -/
def mainLoop (fails : Bool) (args : Args) (s : List UInt8) : List Command × Ending :=
  match _ : fgets (MAXLINE - 1) s with
  | (_, _, true) => ([], lastRead fails)
  | (line, rest, false) =>
      if ∃ i ∈ (eval args (cstring line)).events, MAXARGS ≤ i then ([], .crash)
      else
        match (eval args (cstring line)).result with
        | .error _ => ([], .crash)
        | .ok (args', c) =>
            if c = .quit then ([c], .quit)
            else
              let (cs, ending) := mainLoop fails args' rest
              (c :: cs, ending)
termination_by s.length
decreasing_by exact fgets_rest (by assumption)

/-! ## The interpreter -/

/-- What a line means; a line without a string for `argv`, or with too many, has no meaning. -/
def meaning (line : List UInt8) : Option Command :=
  if MAXARGS ≤ (tokens line).length then none
  else
    match kept (texts (tokens line)) with
    | [] => none
    | cmd :: rest => some ((builtinOf cmd rest).getD (.run (endsWithAmp (texts (tokens line)))
        (String.ofList (line.map fun c => Char.ofNat c.toNat))))

/-- Line by line. -/
def interpret (fails : Bool) : List (List UInt8) → List Command × Ending
  | [] => ([], lastRead fails)
  | line :: lines =>
      match meaning line with
      | none => ([], .crash)
      | some c =>
          if c = .quit then ([c], .quit)
          else
            let (cs, ending) := interpret fails lines
            (c :: cs, ending)

/-- The strings that `fgets` leaves for `eval`. -/
def commandLines (s : List UInt8) : List (List UInt8) :=
  match _ : fgets (MAXLINE - 1) s with
  | (_, _, true) => []
  | (line, rest, false) => cstring line :: commandLines rest
termination_by s.length
decreasing_by exact fgets_rest (by assumption)

/-- A string that was read is empty, when it begins with NUL, or a line. -/
theorem isLine_cstring {k : ℕ} (hk : k ≤ MAXLINE - 1) (s : List UInt8) :
    cstring (fgets k s).1 = [] ∨ IsLine (cstring (fgets k s).1) := by
  by_cases hnil : cstring (fgets k s).1 = []
  · exact .inl hnil
  · refine .inr ⟨hnil, fun hmem => ?_, ?_⟩
    · exact absurd (List.mem_takeWhile_imp hmem) (by decide)
    · exact (List.takeWhile_sublist _).length_le.trans ((fgets_length k s).trans hk)

/-- **`eval` does what the line means**, whatever the arrays hold. -/
theorem eval_meaning (args : Args) {line : List UInt8} (h : line = [] ∨ IsLine line) :
    (meaning line = none ∧ ((∃ i ∈ (eval args line).events, MAXARGS ≤ i) ∨
        ∃ f, (eval args line).result = .error f)) ∨
      ∃ c args', meaning line = some c ∧ (¬ ∃ i ∈ (eval args line).events, MAXARGS ≤ i) ∧
        (eval args line).result = .ok (args', c) := by
  rcases h with rfl | h
  · exact .inl ⟨rfl, .inr ⟨.outside, rfl⟩⟩
  · have hwrites : (∃ i ∈ (eval args line).events, MAXARGS ≤ i) ↔
        MAXARGS ≤ (tokens line).length := by
      rw [eval_events h]
      simp only [mem_parseline h]
      exact ⟨fun ⟨i, hle, hi⟩ => hi.trans hle, fun hle => ⟨_, le_rfl, hle⟩⟩
    by_cases hmany : MAXARGS ≤ (tokens line).length
    · refine .inl ⟨?_, .inl (hwrites.mpr hmany)⟩
      rw [meaning, if_pos hmany]
    · rw [meaning, if_neg hmany]
      cases hkept : kept (texts (tokens line)) with
      | nil =>
          refine .inl ⟨rfl, .inr ⟨.null, ?_⟩⟩
          rw [eval_null h args hkept]
      | cons cmd rest =>
          obtain ⟨args', -, hrun⟩ := eval_command h args hkept
          refine .inr ⟨_, args', rfl, fun hi => hmany (hwrites.mp hi), ?_⟩
          rw [hrun]

/-- **The loop is the interpreter**: what the shell does, and how it ends, are what the lines mean
one by one, whatever the arrays hold at the start and whatever the lines leave in them. -/
theorem mainLoop_interprets (fails : Bool) (args : Args) (s : List UInt8) :
    mainLoop fails args s = interpret fails (commandLines s) := by
  rw [mainLoop, commandLines]
  split
  · rfl
  · next line rest hread =>
      have hline : cstring line = [] ∨ IsLine (cstring line) := by
        have hline := isLine_cstring (le_refl (MAXLINE - 1)) s
        rwa [hread] at hline
      rw [interpret]
      rcases eval_meaning args hline with ⟨hnone, hbad⟩ | ⟨c, args', hsome, hgood, hresult⟩
      · rw [hnone]
        split_ifs with hi
        · rfl
        · obtain ⟨f, hf⟩ := hbad.resolve_left hi
          rw [hf]
      · rw [hsome, if_neg hgood, hresult]
        simp only
        split_ifs with hquit
        · rfl
        · have hless := fgets_rest hread
          rw [mainLoop_interprets fails args' rest]
termination_by s.length

/-! ## The lines of the input -/

/-- The lines of an input, with their ends, and what follows the last one. -/
def splitLines : List UInt8 → List (List UInt8) × List UInt8
  | [] => ([], [])
  | c :: s =>
      if c = 10 then ([c] :: (splitLines s).1, (splitLines s).2)
      else
        match (splitLines s).1 with
        | [] => ([], c :: (splitLines s).2)
        | line :: lines => ((c :: line) :: lines, (splitLines s).2)

/-- Only the last character of a line is its end. -/
theorem splitLines_spec (s : List UInt8) :
    (splitLines s).1.flatten ++ (splitLines s).2 = s ∧
      (∀ line ∈ (splitLines s).1, ∃ w, (10 : UInt8) ∉ w ∧ line = w ++ [10]) ∧
      (10 : UInt8) ∉ (splitLines s).2 := by
  induction s with
  | nil => exact ⟨rfl, by simp [splitLines], List.not_mem_nil⟩
  | cons c s ih =>
      obtain ⟨hjoin, hlines, htail⟩ := ih
      rw [splitLines]
      split_ifs with hc
      · refine ⟨?_, List.forall_mem_cons.mpr ⟨⟨[], List.not_mem_nil, ?_⟩, hlines⟩, htail⟩
        · rw [List.flatten_cons, List.append_assoc, hjoin, List.singleton_append]
        · rw [hc, List.nil_append]
      · cases hfirst : (splitLines s).1 with
        | nil =>
            rw [hfirst] at hjoin
            refine ⟨congrArg (c :: ·) hjoin, by simp, ?_⟩
            rw [List.mem_cons, not_or]
            exact ⟨fun heq => hc heq.symm, htail⟩
        | cons line lines =>
            rw [hfirst] at hjoin hlines
            rw [List.forall_mem_cons] at hlines
            obtain ⟨⟨w, hw, rfl⟩, hlines⟩ := hlines
            refine ⟨congrArg (c :: ·) hjoin, List.forall_mem_cons.mpr ⟨⟨c :: w, ?_, rfl⟩, hlines⟩,
              htail⟩
            rw [List.mem_cons, not_or]
            exact ⟨fun heq => hc heq.symm, hw⟩

/-- A line that fits. -/
theorem fgets_line {k : ℕ} {w : List UInt8} (hw : (10 : UInt8) ∉ w) (hk : w.length < k)
    (s : List UInt8) : fgets k (w ++ [10] ++ s) = (w ++ [10], s, false) := by
  induction w generalizing k with
  | nil =>
      obtain ⟨k, rfl⟩ := Nat.exists_eq_succ_of_ne_zero (Nat.ne_zero_of_lt hk)
      rfl
  | cons c w ih =>
      obtain ⟨k, rfl⟩ := Nat.exists_eq_succ_of_ne_zero (Nat.ne_zero_of_lt hk)
      rw [List.mem_cons, not_or] at hw
      rw [List.cons_append, List.cons_append, fgets, if_neg fun heq => hw.1 heq.symm,
        ih hw.2 (Nat.lt_of_succ_lt_succ hk)]

/-- A piece of a line that does not fit. -/
theorem fgets_piece {k : ℕ} {w : List UInt8} (hw : (10 : UInt8) ∉ w) (hk : k ≤ w.length)
    (s : List UInt8) : fgets k (w ++ s) = (w.take k, w.drop k ++ s, false) := by
  induction w generalizing k with
  | nil =>
      obtain rfl := Nat.le_zero.mp hk
      rfl
  | cons c w ih =>
      rw [List.mem_cons, not_or] at hw
      cases k with
      | zero => rfl
      | succ k =>
          rw [List.cons_append, fgets, if_neg fun heq => hw.1 heq.symm,
            ih hw.2 (Nat.le_of_succ_le_succ hk)]
          rfl

/-- The end of the input. -/
theorem fgets_tail {k : ℕ} {w : List UInt8} (hw : (10 : UInt8) ∉ w) (hk : w.length < k) :
    fgets k w = (w, [], true) := by
  induction w generalizing k with
  | nil =>
      obtain ⟨k, rfl⟩ := Nat.exists_eq_succ_of_ne_zero (Nat.ne_zero_of_lt hk)
      rfl
  | cons c w ih =>
      obtain ⟨k, rfl⟩ := Nat.exists_eq_succ_of_ne_zero (Nat.ne_zero_of_lt hk)
      rw [List.mem_cons, not_or] at hw
      rw [fgets, if_neg fun heq => hw.1 heq.symm, ih hw.2 (Nat.lt_of_succ_lt_succ hk)]

theorem commandLines_eof {s line rest : List UInt8}
    (h : fgets (MAXLINE - 1) s = (line, rest, true)) : commandLines s = [] := by
  rw [commandLines]
  split
  · rfl
  · next line' rest' hread => rw [h] at hread; cases hread

theorem commandLines_line {s line rest : List UInt8}
    (h : fgets (MAXLINE - 1) s = (line, rest, false)) :
    commandLines s = cstring line :: commandLines rest := by
  rw [commandLines]
  split
  · next line' rest' hread => rw [h] at hread; cases hread
  · next line' rest' hread =>
      rw [h] at hread
      cases hread
      rfl

theorem cstring_eq_self_iff {s : List UInt8} : cstring s = s ↔ (0 : UInt8) ∉ s := by
  refine ⟨fun h hmem => ?_, cstring_eq_self⟩
  rw [← h] at hmem
  exact absurd (List.mem_takeWhile_imp hmem) (by decide)

/-- The lines, one after the other. -/
theorem commandLines_flatten {lines : List (List UInt8)} {tail : List UInt8}
    (hlines : ∀ line ∈ lines, ∃ w, (10 : UInt8) ∉ w ∧ line = w ++ [10])
    (htail : (10 : UInt8) ∉ tail) :
    commandLines (lines.flatten ++ tail) = lines ↔
      (∀ line ∈ lines, line.length < MAXLINE ∧ (0 : UInt8) ∉ line) ∧
        tail.length < MAXLINE - 1 := by
  induction lines with
  | nil =>
      rw [List.flatten_nil, List.nil_append]
      by_cases hshort : tail.length < MAXLINE - 1
      · rw [commandLines_eof (fgets_tail htail hshort)]
        simpa using hshort
      · have hpiece := fgets_piece htail (not_lt.mp hshort) []
        rw [List.append_nil] at hpiece
        rw [commandLines_line hpiece]
        simpa using hshort
  | cons line lines ih =>
      rw [List.forall_mem_cons] at hlines
      obtain ⟨⟨w, hw, rfl⟩, hlines⟩ := hlines
      rw [List.flatten_cons, List.append_assoc, List.forall_mem_cons]
      by_cases hshort : w.length < MAXLINE - 1
      · have hlength : (w ++ [10]).length < MAXLINE := by
          rw [List.length_append, List.length_singleton]
          omega
        rw [commandLines_line (fgets_line hw hshort _), List.cons.injEq, cstring_eq_self_iff,
          ih hlines, and_assoc, and_assoc]
        exact ⟨fun ⟨hnul, hrest⟩ => ⟨hlength, hnul, hrest⟩, fun ⟨_, hnul, hrest⟩ => ⟨hnul, hrest⟩⟩
      · have hpiece := fgets_piece hw (not_lt.mp hshort) ([10] ++ (lines.flatten ++ tail))
        rw [← List.append_assoc] at hpiece
        rw [commandLines_line hpiece, List.cons.injEq]
        refine iff_of_false (fun ⟨hfirst, _⟩ => ?_) fun ⟨⟨⟨hlength, _⟩, _⟩, _⟩ => ?_
        · -- the first piece is shorter than the line
          have hlen := congrArg List.length hfirst
          have hle := (List.takeWhile_sublist (fun c : UInt8 => decide (c ≠ 0))
            (l := w.take (MAXLINE - 1))).length_le
          rw [← cstring, hlen, List.length_append, List.length_singleton, List.length_take] at hle
          omega
        · rw [List.length_append, List.length_singleton] at hlength
          omega

/-- **The lines that `eval` gets** are the lines of the input exactly when each of them, with its
end, fits into the buffer and has no NUL, and what follows the last one is shorter than the
buffer; that part is never evaluated then. -/
theorem commandLines_iff (s : List UInt8) :
    commandLines s = (splitLines s).1 ↔
      (∀ line ∈ (splitLines s).1, line.length < MAXLINE ∧ (0 : UInt8) ∉ line) ∧
        (splitLines s).2.length < MAXLINE - 1 := by
  obtain ⟨hjoin, hlines, htail⟩ := splitLines_spec s
  have hiff := commandLines_flatten hlines htail
  rwa [hjoin] at hiff

/-- Three lines, and one without an end. -/
example : splitLines (text "ls\njobs\nquit\nls") =
    ([text "ls\n", text "jobs\n", text "quit\n"], text "ls") := by
  decide +kernel

end Shell
