/-
# checktrace.pl

The script reads a trace line by line, keeps the ids that have a block in a hash, and prints the
trace again, with a request that frees each id that is left.  Fields are strings here: `01` and
`1` are two ids.  What the script prints is balanced: it prints the same when it reads it again,
and calls it balanced (`checktrace_again`).

Of the third line Perl takes the number at its start, and 0 when there is none.  Left out are the
lines where it is a floating number, and sums that are printed with an exponent (`newNumOps`).
-/
import CsappLabs.TraceFormat

open CString Radix TraceFile

namespace Checktrace

/-- Why the script dies. -/
inductive Reason
  | reallocWithoutAlloc
  | allocWithoutFree
  | reusedId
  | freeOfUnallocated
  | freeOfFreed
  | residue
  deriving DecidableEq

/-- The message, with the number of the line when it has one. -/
structure Die where
  linenum : Option ℕ
  reason : Reason
  deriving DecidableEq

/-- The lines of a file, as `<STDIN>` and `chomp` give them. -/
def lines : List UInt8 → List (List UInt8)
  | [] => []
  | c :: s =>
      if c = newline then [] :: lines s
      else
        match lines s with
        | [] => [[c]]
        | l :: ls => (c :: l) :: ls

/-- A string as a condition: the empty string and `0` are false. -/
def Falsy (s : List UInt8) : Prop := s = [] ∨ s = [48]

instance : DecidablePred Falsy := fun s => inferInstanceAs (Decidable (s = [] ∨ s = [48]))

/-- `%HASH`: keys and values. -/
abbrev Hash := List (List UInt8 × List UInt8)

/-- `$HASH{$id}`, where a missing value is the empty string. -/
def Hash.get (h : Hash) (id : List UInt8) : List UInt8 := (h.lookup id).getD []

/-- `delete $HASH{$id}`. -/
def Hash.delete (h : Hash) (id : List UInt8) : Hash := h.filter fun e => e.1 ≠ id

/-- `$HASH{$id} = $cmd`. -/
def Hash.put (h : Hash) (id cmd : List UInt8) : Hash := (id, cmd) :: h.delete id

/-- `keys %HASH`. -/
def Hash.keys (h : Hash) : List (List UInt8) := h.map Prod.fst

/-- `! $s`, as a string. -/
def notString (s : List UInt8) : List UInt8 := if Falsy s then [49] else []

/-- The hash, and `@lines`. -/
structure State where
  hash : Hash
  lines : List (List UInt8)

/-- `split(" ", $line)`: the command and the id. -/
def fields (line : List UInt8) : List UInt8 × List UInt8 :=
  ((words 2 line).getD 0 [], (words 2 line).getD 1 [])

/-- The tests of a request, and the hash after it. -/
def request (linenum : ℕ) (cmd id : List UInt8) (h : Hash) : Except Die Hash :=
  if cmd = [charR] then
    if Falsy (h.get id) then .error ⟨some linenum, .reallocWithoutAlloc⟩ else .ok h
  else if cmd = [charA] ∧ h.get id = [charA] then .error ⟨some linenum, .allocWithoutFree⟩
  else if cmd = [charA] ∧ h.get id = [charF] then .error ⟨some linenum, .reusedId⟩
  else if cmd = [charF] ∧ id ∉ h.keys then .error ⟨some linenum, .freeOfUnallocated⟩
  -- the negation binds stronger than the comparison
  else if cmd = [charF] ∧ notString (h.get id) = [charF] then
    .error ⟨some linenum, .freeOfFreed⟩
  else if cmd = [charF] then .ok (h.delete id)
  else .ok (h.put id cmd)

/-- A round of the loop. -/
def step (linenum : ℕ) (line : List UInt8) (st : State) : Except Die State :=
  if Falsy (fields line).1 then .ok st
  else (request linenum (fields line).1 (fields line).2 st.hash).map fun h =>
    ⟨h, st.lines ++ [line]⟩

/-- The loop over the lines, for the number of the line before. -/
def loop : ℕ → List (List UInt8) → State → Except Die State
  | _, [], st => .ok st
  | linenum, line :: rest, st =>
      (step (linenum + 1) line st).bind fun st' => loop (linenum + 1) rest st'

/-- A sum, printed with all its digits. -/
def printSum (lo hi z : ℤ) (n : ℕ) : Option (List UInt8) :=
  if lo ≤ z ∧ z + n < hi then some (signed 10 (z + n)) else none

/-- The sum of two integers of 64 bits. -/
def printInteger (z : ℤ) (n : ℕ) : Option (List UInt8) := printSum (-2 ^ 63) (2 ^ 64) z n

/-- The sum of two floating numbers, which are printed with 15 digits. -/
def printFloating (z : ℤ) (n : ℕ) : Option (List UInt8) := printSum (1 - 10 ^ 15) (10 ^ 15) z n

/-- What the number may go on with: a fraction, an exponent, the name of an infinity or of no
number. -/
def goesOn (rest : List UInt8) : Bool := rest.head?.any (· ∈ text ".#eEiInNqQsS")

/-- `$old_num_ops + $new_ops`, printed. -/
def newNumOps (old : List UInt8) (newOps : ℕ) : Option (List UInt8) :=
  match Scanf.integer old with
  | .item z rest =>
      if rest.all isspace then printInteger z newOps
      -- the number ends before the line does, and becomes a floating one
      else if goesOn rest then none
      else printFloating z newOps
  | .mismatch rest => if goesOn rest then none else printFloating 0 newOps
  | .eof => printFloating 0 newOps

/-- `print "$line\n"`, for each line. -/
def printed (ls : List (List UInt8)) : List UInt8 := ls.flatMap (· ++ [newline])

/-- `sort keys %HASH`. -/
def sortedKeys (h : Hash) : List (List UInt8) := h.keys.insertionSort (· ≤ ·)

/-- The loop that prints the requests to free, for these keys. -/
def printFrees (h : Hash) : List (List UInt8) → List UInt8 × Option Die
  | [] => ([], none)
  | key :: keys =>
      if h.get key ≠ [charA] ∧ h.get key ≠ [charR] then ([], some ⟨none, .residue⟩)
      else
        let (out, die) := printFrees h keys
        (printed [charF :: space :: key] ++ out, die)

/-- The script, with or without `-s`: what it prints, and the message that it dies with. -/
def checktrace (summary : Bool) (input : List UInt8) : Option (List UInt8 × Option Die) :=
  let header := lines input
  match loop 4 ((lines input).drop 4) ⟨[], []⟩ with
  | .error e => some ([], some e)
  | .ok st =>
      if summary then
        some (if st.hash = [] then text "Balanced trace.\n" else text "Unbalanced tree.\n", none)
      else
        match newNumOps (header.getD 2 []) st.hash.length with
        | none => none
        | some num =>
            let (out, die) := printFrees st.hash (sortedKeys st.hash)
            some (printed ([header.getD 0 [], header.getD 1 [], num, header.getD 3 []] ++ st.lines)
              ++ out, die)

/-! ## Lines -/

/-- A line and the rest. -/
theorem lines_append {l : List UInt8} (hl : newline ∉ l) (s : List UInt8) :
    lines (l ++ newline :: s) = l :: lines s := by
  induction l with
  | nil => rw [List.nil_append, lines, if_pos rfl]
  | cons c l ih =>
      rw [List.mem_cons, not_or] at hl
      rw [List.cons_append, lines, if_neg fun heq => hl.1 heq.symm, ih hl.2]

/-- Lines that were printed are read. -/
theorem lines_printed {ls : List (List UInt8)} (hls : ∀ l ∈ ls, newline ∉ l) :
    lines (printed ls) = ls := by
  induction ls with
  | nil => rfl
  | cons l ls ih =>
      rw [List.forall_mem_cons] at hls
      rw [printed, List.flatMap_cons, List.append_assoc, List.singleton_append,
        lines_append hls.1]
      exact congrArg (l :: ·) (ih hls.2)

/-- A line has no line end in it. -/
theorem newline_notMem_lines {s l : List UInt8} (hl : l ∈ lines s) : newline ∉ l := by
  induction s generalizing l with
  | nil => cases hl
  | cons c s ih =>
      rw [lines] at hl
      split_ifs at hl with hc
      · rcases List.mem_cons.mp hl with rfl | hl
        · exact List.not_mem_nil
        · exact ih hl
      · rcases hs : lines s with _ | ⟨l', ls⟩
        · rw [hs, List.mem_singleton] at hl
          rw [hl, List.mem_singleton]
          exact fun heq => hc heq.symm
        · rw [hs] at hl ih
          rcases List.mem_cons.mp hl with rfl | hl
          · rw [List.mem_cons, not_or]
            exact ⟨fun heq => hc heq.symm, ih List.mem_cons_self⟩
          · exact ih (List.mem_cons_of_mem _ hl)

@[simp] theorem printed_append (ls ls' : List (List UInt8)) :
    printed (ls ++ ls') = printed ls ++ printed ls' := List.flatMap_append

/-! ## The hash -/

theorem keys_delete (h : Hash) (id : List UInt8) :
    (h.delete id).keys = h.keys.filter (· ≠ id) := by
  rw [Hash.keys, Hash.keys, Hash.delete, List.filter_map]
  rfl

/-- Keys stand once, and are fields of lines. -/
structure Clean (h : Hash) : Prop where
  nodup : h.keys.Nodup
  field : ∀ key ∈ h.keys, ∀ c ∈ key, isspace c = false

theorem Clean.delete {h : Hash} (hh : Clean h) (id : List UInt8) : Clean (h.delete id) := by
  constructor
  · rw [keys_delete]
    exact hh.nodup.filter _
  · intro key hkey
    rw [keys_delete] at hkey
    exact hh.field key (List.mem_of_mem_filter hkey)

theorem Clean.put {h : Hash} (hh : Clean h) {id : List UInt8}
    (hid : ∀ c ∈ id, isspace c = false) (cmd : List UInt8) : Clean (h.put id cmd) := by
  have hkeys : (h.put id cmd).keys = id :: (h.delete id).keys := rfl
  constructor
  · rw [hkeys, List.nodup_cons, keys_delete]
    exact ⟨by simp, hh.nodup.filter _⟩
  · rw [hkeys, List.forall_mem_cons]
    exact ⟨hid, (hh.delete id).field⟩

/-- An id is a word, or empty. -/
theorem isspace_fields {line : List UInt8} {c : UInt8} (hc : c ∈ (fields line).2) :
    isspace c = false := by
  have hc : c ∈ ((words 2 line)[1]?).getD [] := hc
  rcases hid : (words 2 line)[1]? with _ | id
  · rw [hid] at hc
    cases hc
  · rw [hid] at hc
    exact (mem_words (List.mem_of_getElem? hid)).2 c hc

/-- The fields of a request to free. -/
theorem fields_free {key : List UInt8} (hkey : ∀ c ∈ key, isspace c = false) :
    fields (charF :: space :: key) = ([charF], key) := by
  have hfirst : words 2 (charF :: space :: key) = [charF] :: words 1 key :=
    words_word (w := [charF]) (List.cons_ne_nil _ _) (by simp [isspace, charF]) (by decide)
  rw [fields, hfirst]
  rcases key with _ | ⟨c, key⟩
  · rfl
  · have hdrop : (c :: key).dropWhile isspace = c :: key := by
      rw [List.dropWhile_cons_of_neg]
      simp [hkey c List.mem_cons_self]
    have hkeep : (c :: key).takeWhile (fun c => ¬ isspace c) = c :: key := by
      rw [List.takeWhile_eq_self_iff]
      intro d hd
      simp [hkey d hd]
    rw [words, hdrop, if_neg (List.cons_ne_nil c key), hkeep]
    rfl

/-! ## Requests -/

/-- What a request does to the hash, when the script goes on. -/
theorem request_cases {n : ℕ} {cmd id : List UInt8} {h h' : Hash}
    (hok : request n cmd id h = .ok h') :
    (h' = h ∨ h' = h.delete id ∨ h' = h.put id cmd) ∧ ∀ m, request m cmd id h = .ok h' := by
  unfold request at hok ⊢
  split_ifs at hok ⊢
  · cases hok
    exact ⟨.inl rfl, fun m => rfl⟩
  · cases hok
    exact ⟨.inr (.inl rfl), fun m => rfl⟩
  · cases hok
    exact ⟨.inr (.inr rfl), fun m => rfl⟩

/-- An id that has a block is freed. -/
theorem request_free {h : Hash} {id : List UInt8} (hid : id ∈ h.keys) (n : ℕ) :
    request n [charF] id h = .ok (h.delete id) := by
  have hnot : notString (h.get id) ≠ [charF] := by
    rw [notString]
    split_ifs <;> decide
  rw [request, if_neg (by decide), if_neg (by simp [charF, charA]),
    if_neg (by simp [charF, charA]), if_neg (by simp [hid]), if_neg fun heq => hnot heq.2,
    if_pos rfl]

theorem loop_append (n : ℕ) (ls ls' : List (List UInt8)) (st : State) :
    loop n (ls ++ ls') st = (loop n ls st).bind (loop (n + ls.length) ls') := by
  induction ls generalizing n st with
  | nil => rfl
  | cons line ls ih =>
      rw [List.cons_append, loop, loop, List.length_cons]
      cases step (n + 1) line st with
      | error e => rfl
      | ok st' =>
          show loop (n + 1) (ls ++ ls') st' = (loop (n + 1) ls st').bind _
          rw [ih]
          congr 2
          omega

/-- **The lines that are kept** do what all lines did. -/
theorem loop_kept {n : ℕ} {ls : List (List UInt8)} {st st' : State}
    (hok : loop n ls st = .ok st') (hclean : Clean st.hash) (hls : ∀ l ∈ ls, newline ∉ l) :
    Clean st'.hash ∧ ∃ kept, st'.lines = st.lines ++ kept ∧ (∀ l ∈ kept, newline ∉ l) ∧
      ∀ m acc, loop m kept ⟨st.hash, acc⟩ = .ok ⟨st'.hash, acc ++ kept⟩ := by
  induction ls generalizing n st with
  | nil =>
      cases hok
      refine ⟨hclean, [], (List.append_nil _).symm, by simp, fun m acc => ?_⟩
      rw [List.append_nil]
      rfl
  | cons line ls ih =>
      rw [List.forall_mem_cons] at hls
      rw [loop] at hok
      by_cases hblank : Falsy (fields line).1
      · -- the line is not kept
        rw [step, if_pos hblank] at hok
        exact ih hok hclean hls.2
      · rcases hrequest : request (n + 1) (fields line).1 (fields line).2 st.hash with e | h
        · rw [step, if_neg hblank, hrequest] at hok
          cases hok
        · rw [step, if_neg hblank, hrequest] at hok
          obtain ⟨hcases, hany⟩ := request_cases hrequest
          have hclean' : Clean h := by
            rcases hcases with rfl | rfl | rfl
            · exact hclean
            · exact hclean.delete _
            · exact hclean.put (fun c hc => isspace_fields hc) _
          have hrest : loop (n + 1) ls ⟨h, st.lines ++ [line]⟩ = .ok st' := hok
          obtain ⟨hend, kept, hlines, hkept, hrun⟩ := ih hrest hclean' hls.2
          refine ⟨hend, line :: kept, ?_, List.forall_mem_cons.mpr ⟨hls.1, hkept⟩, fun m acc => ?_⟩
          · rw [hlines, List.append_assoc, List.singleton_append]
          · rw [loop, step, if_neg hblank]
            simp only
            rw [hany (m + 1)]
            show loop (m + 1) kept ⟨h, acc ++ [line]⟩ = _
            rw [hrun, List.append_assoc, List.singleton_append]

/-- The line that frees an id. -/
def freeLine (key : List UInt8) : List UInt8 := charF :: space :: key

/-- **The requests that are added** free all ids. -/
theorem loop_frees {keys : List (List UInt8)} {h : Hash} (hperm : h.keys.Perm keys)
    (hclean : Clean h) (n : ℕ) (acc : List (List UInt8)) :
    loop n (keys.map freeLine) ⟨h, acc⟩ = .ok ⟨[], acc ++ keys.map freeLine⟩ := by
  induction keys generalizing h n acc with
  | nil =>
      have hnil : h = [] := List.map_eq_nil_iff.mp hperm.eq_nil
      rw [hnil, List.map_nil, List.append_nil]
      rfl
  | cons key keys ih =>
      have hkey : key ∈ h.keys := hperm.mem_iff.mpr List.mem_cons_self
      have hfields := fields_free (hclean.field key hkey)
      have hnodup := hperm.nodup_iff.mp hclean.nodup
      have hperm' : (h.delete key).keys.Perm keys := by
        have hfilter : (key :: keys).filter (· ≠ key) = keys := by
          rw [List.nodup_cons] at hnodup
          rw [List.filter_cons_of_neg (by simp), List.filter_eq_self]
          intro k hk
          apply decide_eq_true
          rintro rfl
          exact hnodup.1 hk
        rw [keys_delete, ← hfilter]
        exact hperm.filter _
      have htrue : ¬ Falsy [charF] := by decide
      rw [List.map_cons, loop, step, freeLine, hfields, if_neg htrue, request_free hkey]
      show loop (n + 1) (keys.map freeLine) ⟨h.delete key, acc ++ [_]⟩ = _
      rw [ih hperm' (hclean.delete key), List.append_assoc]
      rfl

/-- What is printed when the script does not die. -/
theorem printFrees_eq {h : Hash} {keys : List (List UInt8)} {out : List UInt8}
    (hok : printFrees h keys = (out, none)) : out = printed (keys.map freeLine) := by
  induction keys generalizing out with
  | nil =>
      cases hok
      rfl
  | cons key keys ih =>
      rw [printFrees] at hok
      split_ifs at hok with hvalue
      · cases hok
      rcases hrest : printFrees h keys with ⟨out', die⟩
      rw [hrest] at hok
      cases hok
      rw [ih hrest, ← printed_append]
      rfl

theorem newline_notMem_signed (z : ℤ) : newline ∉ signed 10 z := by
  intro hmem
  exact absurd (Scanf.isspace_signed hmem) (by decide)

theorem printSum_integer {lo hi z : ℤ} {n : ℕ} {num : List UInt8} (hlo : -2 ^ 63 ≤ lo)
    (hhi : hi ≤ 2 ^ 64) (h : printSum lo hi z n = some num) :
    ∃ z : ℤ, -2 ^ 63 ≤ z ∧ z < 2 ^ 64 ∧ num = signed 10 z := by
  rw [printSum] at h
  split_ifs at h with hfits
  cases h
  exact ⟨z + n, by omega, by omega, rfl⟩

/-- What is printed is an integer of 64 bits, whatever the third line was. -/
theorem newNumOps_integer {old num : List UInt8} {n : ℕ} (h : newNumOps old n = some num) :
    ∃ z : ℤ, -2 ^ 63 ≤ z ∧ z < 2 ^ 64 ∧ num = signed 10 z := by
  have hfloating : ∀ {z : ℤ}, printFloating z n = some num →
      ∃ z : ℤ, -2 ^ 63 ≤ z ∧ z < 2 ^ 64 ∧ num = signed 10 z :=
    fun h => printSum_integer (by norm_num) (by norm_num) h
  rw [newNumOps] at h
  split at h
  · split_ifs at h
    · exact printSum_integer le_rfl le_rfl h
    · exact hfloating h
  · split_ifs at h
    exact hfloating h
  · exact hfloating h

/-- The sum is printed as a number, and stays when nothing is added. -/
theorem newNumOps_again {old num : List UInt8} {n : ℕ} (h : newNumOps old n = some num) :
    newNumOps num 0 = some num ∧ newline ∉ num := by
  obtain ⟨z, hlo, hhi, rfl⟩ := newNumOps_integer h
  have hread : Scanf.integer (signed 10 z) = .item z [] := by
    have hread := Scanf.integer_signed z (s := []) rfl
    rwa [List.append_nil] at hread
  have hagain : -2 ^ 63 ≤ z ∧ z + (0 : ℕ) < 2 ^ 64 := by
    rw [Nat.cast_zero, add_zero]
    exact ⟨hlo, hhi⟩
  refine ⟨?_, newline_notMem_signed _⟩
  rw [newNumOps, hread]
  show printInteger z 0 = _
  rw [printInteger, printSum, if_pos hagain, Nat.cast_zero, add_zero]

/-- A number of requests with a word behind it, and a word alone. -/
example : newNumOps (text " 5 requests") 2 = some (text "7") ∧
    newNumOps (text "abc") 2 = some (text "2") := by
  decide +kernel

/-! ## The script -/

theorem newline_notMem_getD (s : List UInt8) (k : ℕ) : newline ∉ (lines s).getD k [] := by
  rw [List.getD_eq_getElem?_getD]
  rcases hline : (lines s)[k]? with _ | l
  · exact List.not_mem_nil
  · exact newline_notMem_lines (List.mem_of_getElem? hline)

/-- What is printed, when the script does not die. -/
theorem checktrace_cases {s out : List UInt8} (h : checktrace false s = some (out, none)) :
    ∃ st num, loop 4 ((lines s).drop 4) ⟨[], []⟩ = .ok st ∧
      newNumOps ((lines s).getD 2 []) st.hash.length = some num ∧
      out = printed ([(lines s).getD 0 [], (lines s).getD 1 [], num, (lines s).getD 3 []] ++
        (st.lines ++ (sortedKeys st.hash).map freeLine)) := by
  rw [checktrace] at h
  rcases hloop : loop 4 ((lines s).drop 4) ⟨[], []⟩ with e | st
  · rw [hloop] at h
    cases h
  · rw [hloop] at h
    rcases hnum : newNumOps ((lines s).getD 2 []) st.hash.length with _ | num
    · simp only [hnum] at h
      cases h
    · rcases hfrees : printFrees st.hash (sortedKeys st.hash) with ⟨out', die⟩
      simp only [hnum, hfrees] at h
      cases h
      refine ⟨st, num, rfl, hnum, ?_⟩
      rw [printFrees_eq hfrees, ← printed_append, List.append_assoc]

/-- **The output is balanced**: the script prints the same when it reads what it has printed, and
calls it balanced. -/
theorem checktrace_again {s out : List UInt8} (h : checktrace false s = some (out, none)) :
    checktrace false out = some (out, none) ∧
      checktrace true out = some (text "Balanced trace.\n", none) := by
  obtain ⟨st, num, hloop, hnum, rfl⟩ := checktrace_cases h
  obtain ⟨hagain, hnumline⟩ := newNumOps_again hnum
  obtain ⟨hclean, kept, hlines, hkept, hrun⟩ := loop_kept hloop
    ⟨List.nodup_nil, by simp [Hash.keys]⟩
    fun l hl => newline_notMem_lines (List.mem_of_mem_drop hl)
  rw [List.nil_append] at hlines
  have hfrees : ∀ l ∈ (sortedKeys st.hash).map freeLine, newline ∉ l := by
    intro l hl hmem
    obtain ⟨key, hkey, rfl⟩ := List.mem_map.mp hl
    have hkey := (List.perm_insertionSort _ _).mem_iff.mp hkey
    rcases List.mem_cons.mp hmem with hc | hmem
    · exact absurd hc (by decide)
    · rcases List.mem_cons.mp hmem with hc | hmem
      · exact absurd hc (by decide)
      · exact absurd (hclean.field key hkey newline hmem) (by decide)
  -- the lines of the output
  generalize hout : [(lines s).getD 0 [], (lines s).getD 1 [], num, (lines s).getD 3 []] ++
    (st.lines ++ (sortedKeys st.hash).map freeLine) = ls
  have hls : ∀ l ∈ ls, newline ∉ l := by
    intro l hl
    rw [← hout, hlines] at hl
    simp only [List.mem_append, List.mem_cons, List.not_mem_nil, or_false] at hl
    rcases hl with (rfl | rfl | rfl | rfl) | hl | hl
    · exact newline_notMem_getD s 0
    · exact newline_notMem_getD s 1
    · exact hnumline
    · exact newline_notMem_getD s 3
    · exact hkept l hl
    · exact hfrees l hl
  have hread := lines_printed hls
  have hend : loop 4 (ls.drop 4) ⟨[], []⟩ = .ok ⟨[], ls.drop 4⟩ := by
    have hdrop : ls.drop 4 = kept ++ (sortedKeys st.hash).map freeLine := by
      rw [← hout, hlines]
      rfl
    rw [hdrop, loop_append, hrun, List.nil_append]
    exact loop_frees (List.perm_insertionSort _ _).symm hclean _ _
  constructor
  · have hthird : ls.getD 2 [] = num := by
      rw [← hout]
      rfl
    have hprinted : [ls.getD 0 [], ls.getD 1 [], num, ls.getD 3 []] ++ ls.drop 4 = ls := by
      rw [← hout]
      rfl
    rw [checktrace, hread, hend]
    simp only [hthird, hagain, List.length_nil]
    show some (printed ([ls.getD 0 [], ls.getD 1 [], num, ls.getD 3 []] ++ ls.drop 4) ++ [],
      none) = _
    rw [hprinted, List.append_nil]
  · rw [checktrace, hread, hend]
    rfl

/-- A trace with one block that is not freed. -/
theorem checktrace_again_one :
    checktrace false (text "20\n1\n2\n1\na 0 5\nf 0\n") =
        some (text "20\n1\n2\n1\na 0 5\nf 0\n", none) ∧
      checktrace true (text "20\n1\n2\n1\na 0 5\nf 0\n") =
        some (text "Balanced trace.\n", none) :=
  @checktrace_again (text "20\n1\n1\n1\na 0 5\n") _ (by decide +kernel)

/-! ## What the script never says -/

/-- No value is `f`: an id that is freed leaves the hash. -/
def NoneFreed (h : Hash) : Prop := ∀ e ∈ h, e.2 ≠ [charF]

theorem NoneFreed.get {h : Hash} (hh : NoneFreed h) (id : List UInt8) : h.get id ≠ [charF] := by
  rw [Hash.get]
  rcases hid : h.lookup id with _ | v
  · exact List.cons_ne_nil _ _ ∘ Eq.symm
  · obtain ⟨l, r, rfl, -⟩ := List.lookup_eq_some_iff.mp hid
    exact hh (id, v) (by simp)

/-- A request keeps the hash so, and dies for another reason. -/
theorem NoneFreed.request {h : Hash} (hh : NoneFreed h) (n : ℕ) (cmd id : List UInt8) :
    (∀ h', request n cmd id h = .ok h' → NoneFreed h') ∧
      ∀ e, request n cmd id h = .error e → e.reason ≠ .reusedId ∧ e.reason ≠ .freeOfFreed := by
  have hget := hh.get id
  have hnot : notString (h.get id) ≠ [charF] := by
    rw [notString]
    split_ifs <;> decide
  have hdelete : NoneFreed (h.delete id) := fun e he => hh e (List.mem_of_mem_filter he)
  unfold Checktrace.request
  constructor
  · intro h' hok
    split_ifs at hok with _ _ _ _ _ _ hfree
    · cases hok
      exact hh
    · cases hok
      exact hdelete
    · cases hok
      exact List.forall_mem_cons.mpr ⟨hfree, hdelete⟩
  · intro e he
    split_ifs at he with _ _ _ hreused _ hfreed
    · cases he
      exact ⟨by simp, by simp⟩
    · cases he
      exact ⟨by simp, by simp⟩
    · exact absurd hreused.2 hget
    · cases he
      exact ⟨by simp, by simp⟩
    · exact absurd hfreed.2 hnot

theorem NoneFreed.loop {n : ℕ} {ls : List (List UInt8)} {st : State} (hh : NoneFreed st.hash)
    {e : Die} (he : loop n ls st = .error e) :
    e.reason ≠ .reusedId ∧ e.reason ≠ .freeOfFreed := by
  induction ls generalizing n st with
  | nil => cases he
  | cons line ls ih =>
      rw [Checktrace.loop] at he
      by_cases hblank : Falsy (fields line).1
      · rw [step, if_pos hblank] at he
        exact ih hh he
      · have hrequest := hh.request (n + 1) (fields line).1 (fields line).2
        rw [step, if_neg hblank] at he
        rcases hresult : Checktrace.request (n + 1) (fields line).1 (fields line).2 st.hash with
          e' | h'
        · rw [hresult] at he
          cases he
          exact hrequest.2 _ hresult
        · rw [hresult] at he
          have hrest : Checktrace.loop (n + 1) ls ⟨h', st.lines ++ [line]⟩ = .error e := he
          have hnext : NoneFreed (State.mk h' (st.lines ++ [line])).hash := hrequest.1 h' hresult
          exact ih hnext hrest

theorem printFrees_die {h : Hash} {keys : List (List UInt8)} {out : List UInt8} {e : Die}
    (he : printFrees h keys = (out, some e)) : e.reason = .residue := by
  induction keys generalizing out with
  | nil => cases he
  | cons key keys ih =>
      rw [printFrees] at he
      split_ifs at he
      · cases he
        rfl
      rcases hrest : printFrees h keys with ⟨out', die⟩
      rw [hrest] at he
      cases he
      exact ih hrest

/-- **Two of the messages are never printed**: that an id is used again, and that a block is freed
twice.  The hash forgets an id that is freed, so the script accepts a trace that uses it again,
and a second free is one of an unallocated block. -/
theorem checktrace_reasons {summary : Bool} {s out : List UInt8} {e : Die}
    (h : checktrace summary s = some (out, some e)) :
    e.reason ≠ .reusedId ∧ e.reason ≠ .freeOfFreed := by
  rw [checktrace] at h
  rcases hloop : loop 4 ((lines s).drop 4) ⟨[], []⟩ with e' | st
  · rw [hloop] at h
    cases h
    have hnone : NoneFreed (State.mk [] []).hash := fun e he => absurd he List.not_mem_nil
    exact hnone.loop hloop
  · rw [hloop] at h
    cases summary with
    | true => cases h
    | false =>
        rcases hnum : newNumOps ((lines s).getD 2 []) st.hash.length with _ | num
        · simp only [hnum] at h
          cases h
        · rcases hfrees : printFrees st.hash (sortedKeys st.hash) with ⟨out', die⟩
          simp only [hnum, hfrees] at h
          cases h
          rw [printFrees_die hfrees]
          exact ⟨by simp, by simp⟩

/-- A block is freed twice: the script dies, at the line of the second free. -/
theorem checktrace_reasons_twice :
    ∃ e, checktrace false (text "20\n1\n3\n1\na 0 5\nf 0\nf 0\n") = some ([], some e) ∧
      e.linenum = some 7 ∧ e.reason ≠ .reusedId ∧ e.reason ≠ .freeOfFreed := by
  have hrun : checktrace false (text "20\n1\n3\n1\na 0 5\nf 0\nf 0\n") =
      some ([], some ⟨some 7, .freeOfUnallocated⟩) := by
    decide +kernel
  exact ⟨_, hrun, rfl, checktrace_reasons hrun⟩

/-- An id is used again, and the trace is accepted. -/
example : checktrace true (text "20\n1\n4\n1\na 0 5\nf 0\na 0 5\nf 0\n") =
    some (text "Balanced trace.\n", none) := by
  decide +kernel

end Checktrace
