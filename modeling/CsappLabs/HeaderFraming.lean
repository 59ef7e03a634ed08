/-
# Header lines of any length

What the header loop does with a line of the client, `"\r\n"` included.  A line is read in
one piece or in several, and each piece is sent as a string (`pass_line`).  A piece that is
`"\r\n"` ends the loop, so a line whose length is a multiple of `MAXLINE - 1` is taken for
the end of the headers (`stops_in_line`); and a NUL hides the rest of its piece.
-/
import CsappLabs.HeaderLoop

open Effects Effects.Prog CString Relay WhileLoop

namespace Proxy

/-- The lines with their ends. -/
def terminated (xs : List (List UInt8)) : List UInt8 := (xs.map (· ++ crlf)).flatten

@[simp] theorem terminated_nil : terminated [] = [] := rfl

@[simp] theorem terminated_cons (x : List UInt8) (xs : List (List UInt8)) :
    terminated (x :: xs) = x ++ (crlf ++ terminated xs) := by
  simp [terminated]

/-- The loop stops at the empty line, and what it has written is the lines. -/
def Framed (buf : List UInt8) (xs : List (List UInt8)) (rest : List UInt8) : Prop :=
  ∃ s', HeaderEnds (headerInit buf (terminated xs ++ (crlf ++ rest))).read s' ∧
    s'.input = rest ∧ s'.written = terminated xs

/-- A line that is sent as it is. -/
def Sent (x : List UInt8) : Prop := (0 : UInt8) ∉ x ∧ ¬ (MAXLINE - 1) ∣ x.length

/-! ## One piece -/

section

variable {s s' : HeaderState}

/-- A piece that is not the end is sent, and the next one is read. -/
theorem ends_piece {piece rest : List UInt8}
    (hread : rioReadlineb MAXLINE s.input = (piece, rest)) (hne : piece ≠ [])
    (hgoes : cstring piece ≠ crlf) :
    HeaderEnds s.read s' ↔ HeaderEnds (HeaderState.read
      ⟨s.seen.note (cstring piece), piece, rest, s.written ++ cstring piece⟩) s' := by
  rw [read_of_piece hread hne]
  exact ends_of_cond hgoes

/-- The end of the headers. -/
theorem ends_crlf {rest : List UInt8} (hread : rioReadlineb MAXLINE s.input = (crlf, rest)) :
    HeaderEnds s.read s' ↔ s' = { s with buf := crlf, input := rest } := by
  rw [read_of_piece hread (by rw [crlf_eq]; simp)]
  exact ends_of_not (not_not.mpr cstring_crlf)

/-- A line that fits. -/
theorem rioReadlineb_line {line : List UInt8} (hline : newline ∉ line)
    (hlen : line.length < MAXLINE - 1) (rest : List UInt8) :
    rioReadlineb MAXLINE (line ++ newline :: rest) = (line ++ [newline], rest) :=
  readlinebLoop_line hline hlen

/-- A full piece. -/
theorem rioReadlineb_full {line : List UInt8} (hline : newline ∉ line)
    (hlen : line.length = MAXLINE - 1) (rest : List UInt8) :
    rioReadlineb MAXLINE (line ++ rest) = (line, rest) := by
  rw [rioReadlineb, ← hlen]
  exact readlinebLoop_full hline rest

theorem rioReadlineb_crlf (rest : List UInt8) :
    rioReadlineb MAXLINE (crlf ++ rest) = (crlf, rest) := by
  rw [crlf_eq]
  exact @rioReadlineb_line [13] (by decide) (by decide) rest

/-- A short piece with its newline, when the line ends in `"\r\n"`. -/
theorem rioReadlineb_short {x : List UInt8} (hx : newline ∉ x) (hlen : x.length + 1 < MAXLINE - 1)
    (more : List UInt8) : rioReadlineb MAXLINE (x ++ (crlf ++ more)) = (x ++ crlf, more) := by
  have hread := rioReadlineb_line (notMem_cr hx) (by rw [List.length_append]; exact hlen) more
  rw [append_crlf, hread, crlf_eq, List.append_assoc]
  rfl

end

/-! ## What a string keeps of a piece -/

theorem length_cstring_le (piece : List UInt8) : (cstring piece).length ≤ piece.length :=
  (List.takeWhile_sublist _).length_le

/-- A NUL hides what follows it. -/
theorem length_cstring_lt {piece : List UInt8} (h : (0 : UInt8) ∈ piece) :
    (cstring piece).length < piece.length := by
  obtain ⟨l, r, rfl, hl⟩ := List.eq_append_cons_of_mem h
  rw [cstring_nul hl, List.length_append, List.length_cons]
  omega

/-- What is sent of a line: all of it, or less when there is a NUL. -/
structure Written (line w : List UInt8) : Prop where
  whole : (0 : UInt8) ∉ line → w = line
  less : (0 : UInt8) ∈ line → w.length < line.length

namespace Written

theorem cstring (piece : List UInt8) : Written piece (cstring piece) :=
  ⟨cstring_eq_self, length_cstring_lt⟩

theorem length_le {line w : List UInt8} (h : Written line w) : w.length ≤ line.length := by
  by_cases hnul : (0 : UInt8) ∈ line
  · exact (h.less hnul).le
  · rw [h.whole hnul]

/-- A line in two parts. -/
theorem append {l l' w w' : List UInt8} (h : Written l w) (h' : Written l' w') :
    Written (l ++ l') (w ++ w') := by
  constructor
  · intro hnul
    rw [List.mem_append, not_or] at hnul
    rw [h.whole hnul.1, h'.whole hnul.2]
  · intro hnul
    have hle := h.length_le
    have hle' := h'.length_le
    rw [List.length_append, List.length_append]
    rcases List.mem_append.mp hnul with hnul | hnul
    · have := h.less hnul
      omega
    · have := h'.less hnul
      omega

end Written

/-! ## A line -/

theorem append_cr (x : List UInt8) : x ++ crlf = (x ++ [13]) ++ [newline] := by
  rw [crlf_eq, List.append_assoc]
  rfl

/-- A short line is not the end of the headers when it is not empty. -/
theorem goes_short {x : List UInt8} (hx : newline ∉ x) (hne : x ≠ []) :
    cstring (x ++ crlf) ≠ crlf := by
  rw [append_cr, Ne, cstring_line_eq_crlf (notMem_cr hx)]
  intro heq
  exact hne (List.append_cancel_right (heq.trans (List.nil_append [13]).symm))

/-- The first piece of a long line. -/
theorem exists_full {x : List UInt8} (h : MAXLINE - 1 ≤ x.length) :
    ∃ y z, x = y ++ z ∧ y.length = MAXLINE - 1 :=
  ⟨_, _, (List.take_append_drop (MAXLINE - 1) x).symm, List.length_take_of_le h⟩

theorem length_lt_of_full {y z : List UInt8} (h : y.length = MAXLINE - 1) :
    z.length < (y ++ z).length := by
  rw [List.length_append, h, MAXLINE]
  omega

/-- A full piece of a line is sent, and the rest of the line is read. -/
theorem ends_full {y z more : List UInt8} (hy : newline ∉ y) (hlen : y.length = MAXLINE - 1)
    {s : HeaderState} (hs : s.input = (y ++ z) ++ (crlf ++ more)) (s' : HeaderState) :
    HeaderEnds s.read s' ↔ HeaderEnds (HeaderState.read
      ⟨s.seen.note (cstring y), y, z ++ (crlf ++ more), s.written ++ cstring y⟩) s' := by
  have hread : rioReadlineb MAXLINE s.input = (y, z ++ (crlf ++ more)) := by
    rw [hs, List.append_assoc]
    exact rioReadlineb_full hy hlen _
  have hne : y ≠ [] := by
    rintro rfl
    exact absurd hlen (by decide)
  exact ends_piece hread hne (goes_of_notMem hy)

/-- A line whose newline is a piece of its own. -/
theorem ends_split {x more : List UInt8} (hx : newline ∉ x) (hlen : x.length + 1 = MAXLINE - 1)
    {s : HeaderState} (hs : s.input = x ++ (crlf ++ more)) (s' : HeaderState) :
    HeaderEnds s.read s' ↔ HeaderEnds (HeaderState.read
      ⟨(s.seen.note (cstring (x ++ [13]))).note (cstring [newline]), [newline], more,
        s.written ++ (cstring (x ++ [13]) ++ cstring [newline])⟩) s' := by
  have hread : rioReadlineb MAXLINE s.input = (x ++ [13], newline :: more) := by
    rw [hs, append_crlf]
    exact rioReadlineb_full (notMem_cr hx) (by rw [List.length_append]; exact hlen) _
  have hread' : rioReadlineb MAXLINE (newline :: more) = ([newline], more) :=
    @rioReadlineb_line [] List.not_mem_nil (by decide) more
  have hgoes : cstring [newline] ≠ crlf := by
    rw [crlf_eq]
    decide
  rw [ends_piece hread (by simp) (goes_of_notMem (notMem_cr hx)),
    ends_piece hread' (by simp) hgoes, List.append_assoc]

/-- **A line is passed**, in as many pieces as it takes, when its length is no multiple of
that of a full piece. -/
theorem pass_line {x more : List UInt8} (hx : newline ∉ x) (hdvd : ¬ (MAXLINE - 1) ∣ x.length)
    {s : HeaderState} (hs : s.input = x ++ (crlf ++ more)) :
    ∃ seen buf w, Written (x ++ crlf) w ∧ ∀ s', HeaderEnds s.read s' ↔
      HeaderEnds (HeaderState.read ⟨seen, buf, more, s.written ++ w⟩) s' := by
  induction hn : x.length using Nat.strong_induction_on generalizing x s with
  | _ n ih =>
      have hne : x ≠ [] := by
        rintro rfl
        exact hdvd (dvd_zero _)
      by_cases hshort : x.length + 1 < MAXLINE - 1
      · -- in one piece
        have hread : rioReadlineb MAXLINE s.input = (x ++ crlf, more) := by
          rw [hs]
          exact rioReadlineb_short hx hshort more
        exact ⟨_, _, _, .cstring _, fun s' =>
          ends_piece hread (by simp [hne]) (goes_short hx hne)⟩
      · by_cases hlast : x.length + 1 = MAXLINE - 1
        · have hwritten := (Written.cstring (x ++ [13])).append (.cstring [newline])
          rw [← append_cr] at hwritten
          exact ⟨_, _, _, hwritten, ends_split hx hlast hs⟩
        · -- a full piece, and the rest of the line
          obtain ⟨y, z, rfl, hy⟩ := exists_full (show MAXLINE - 1 ≤ x.length by omega)
          rw [List.mem_append, not_or] at hx
          rw [List.length_append, hy, Nat.dvd_add_right dvd_rfl] at hdvd
          obtain ⟨seen, buf, w, hw, hends⟩ := ih _ (hn ▸ length_lt_of_full hy) hx.2 hdvd
            (s := ⟨s.seen.note (cstring y), y, z ++ (crlf ++ more), s.written ++ cstring y⟩) rfl rfl
          have hwritten := (Written.cstring y).append hw
          rw [← List.append_assoc] at hwritten
          refine ⟨seen, buf, cstring y ++ w, hwritten, fun s' => ?_⟩
          rw [ends_full hx.1 hy hs, hends, List.append_assoc]

/-- **A line is taken for the end of the headers** when its length is a multiple of that of a
full piece: the loop stops behind it. -/
theorem stops_in_line {x more : List UInt8} (hx : newline ∉ x) (hdvd : (MAXLINE - 1) ∣ x.length)
    {s s' : HeaderState} (hs : s.input = x ++ (crlf ++ more)) (h : HeaderEnds s.read s') :
    s'.input = more := by
  induction hn : x.length using Nat.strong_induction_on generalizing x s with
  | _ n ih =>
      by_cases hne : x = []
      · subst hne
        have hread : rioReadlineb MAXLINE s.input = (crlf, more) := by
          rw [hs]
          exact rioReadlineb_crlf more
        rw [(ends_crlf hread).mp h]
      · have hpos := List.length_pos_of_ne_nil hne
        obtain ⟨y, z, rfl, hy⟩ := exists_full (Nat.le_of_dvd hpos hdvd)
        rw [List.mem_append, not_or] at hx
        rw [List.length_append, hy, Nat.dvd_add_right dvd_rfl] at hdvd
        exact ih _ (hn ▸ length_lt_of_full hy) hx.2 hdvd rfl ((ends_full hx.1 hy hs s').mp h) rfl

/-! ## A block -/

/-- What a run of the loop writes is not longer than what it reads. -/
theorem ends_length {s s' : HeaderState} (h : HeaderEnds s s') :
    s'.written.length + crlf.length + s'.input.length ≤
      s.written.length + s.buf.length + s.input.length := by
  induction h with
  | @exit s hexit =>
      have hbuf := length_cstring_le s.buf
      rw [not_not.mp hexit] at hbuf
      omega
  | @body s s' hgoes hends ih =>
      have hne : s.input ≠ [] := fun hempty =>
        not_ends_of_empty hgoes hempty s' (.body hgoes hends)
      have hread := (length_read (s := s.send) hne).1
      have hsend : s.send.written.length = s.written.length + (cstring s.buf).length :=
        List.length_append
      have hbuf := length_cstring_le s.buf
      have hwritten : (headerBody s).written = s.send.written := rfl
      have hinput : s.send.input = s.input := rfl
      rw [hwritten] at ih
      rw [hinput] at hread
      have hbody : (headerBody s).buf.length + (headerBody s).input.length = s.input.length := hread
      omega

/-- The same from a read on. -/
theorem ends_read_length {s s' : HeaderState} (hne : s.input ≠ []) (h : HeaderEnds s.read s') :
    s'.written.length + crlf.length + s'.input.length ≤ s.written.length + s.input.length := by
  have hread := (length_read hne).1
  have hle := ends_length h
  have hwritten : s.read.written = s.written := rfl
  rw [hwritten] at hle
  omega

/-- A block of lines, from a read on. -/
theorem framed_from {xs : List (List UInt8)} (hxs : ∀ x ∈ xs, x ≠ [] ∧ newline ∉ x)
    {rest : List UInt8} {s : HeaderState} (hs : s.input = terminated xs ++ (crlf ++ rest)) :
    (∃ s', HeaderEnds s.read s' ∧ s'.input = rest ∧ s'.written = s.written ++ terminated xs) ↔
      ∀ x ∈ xs, Sent x := by
  induction xs generalizing s with
  | nil =>
      have hread : rioReadlineb MAXLINE s.input = (crlf, rest) := by
        rw [hs]
        exact rioReadlineb_crlf rest
      refine iff_of_true ⟨_, (ends_crlf hread).mpr rfl, rfl, ?_⟩ (by simp)
      rw [terminated_nil, List.append_nil]
  | cons x xs ih =>
      rw [List.forall_mem_cons] at hxs ⊢
      obtain ⟨⟨-, hx⟩, hxs⟩ := hxs
      have hs : s.input = x ++ (crlf ++ (terminated xs ++ (crlf ++ rest))) := by
        rw [hs, terminated_cons]
        simp only [List.append_assoc]
      by_cases hdvd : (MAXLINE - 1) ∣ x.length
      · -- the loop stops too early
        refine iff_of_false ?_ fun h => h.1.2 hdvd
        rintro ⟨s', hends, hinput, -⟩
        have hstop := congrArg List.length (stops_in_line hx hdvd hs hends)
        rw [hinput, crlf_eq] at hstop
        simp only [List.length_append, List.length_cons, List.length_nil] at hstop
        omega
      · obtain ⟨seen, buf, w, hw, hends⟩ := pass_line hx hdvd hs
        simp only [hends]
        by_cases hnul : (0 : UInt8) ∈ x
        · -- something of the line is missing
          refine iff_of_false ?_ fun h => h.1.1 hnul
          rintro ⟨s', hends', hinput, hwritten⟩
          have hle := ends_read_length (by simp [crlf_eq]) hends'
          have hlt := hw.less (List.mem_append_left _ hnul)
          rw [hinput, hwritten, terminated_cons] at hle
          simp only [List.length_append] at hle hlt
          omega
        · have hnul' : (0 : UInt8) ∉ x ++ crlf := by
            rw [List.mem_append, not_or, crlf_eq]
            exact ⟨hnul, by decide⟩
          have hrest := ih hxs
            (s := ⟨seen, buf, terminated xs ++ (crlf ++ rest), s.written ++ w⟩) rfl
          rw [hw.whole hnul'] at hrest ⊢
          rw [and_iff_right ⟨hnul, hdvd⟩, ← hrest]
          simp only [terminated_cons, List.append_assoc]

/-- **When the headers are framed exactly**: no line has a NUL, and no line is a multiple of
`MAXLINE - 1` long. -/
theorem framed_iff (buf : List UInt8) {xs : List (List UInt8)}
    (hxs : ∀ x ∈ xs, x ≠ [] ∧ newline ∉ x) (rest : List UInt8) :
    Framed buf xs rest ↔ ∀ x ∈ xs, Sent x :=
  framed_from hxs (s := headerInit buf (terminated xs ++ (crlf ++ rest))) rfl

theorem framed_short : Framed [] [[65], [66, 67]] [68] :=
  (framed_iff [] (by decide) [68]).mpr (by simp [Sent, MAXLINE])

/-- A line of `MAXLINE - 1` characters. -/
theorem not_framed_long : ¬ Framed [] [List.replicate (MAXLINE - 1) 65] [] := by
  rintro ⟨s', hends, hinput, -⟩
  have hnot : newline ∉ List.replicate (MAXLINE - 1) (65 : UInt8) := by
    intro h
    exact absurd (List.eq_of_mem_replicate h) (by decide)
  have hinit :
      (headerInit [] (terminated [List.replicate (MAXLINE - 1) 65] ++ (crlf ++ []))).input =
        List.replicate (MAXLINE - 1) 65 ++ (crlf ++ crlf) := by
    simp [headerInit]
  have hstop := stops_in_line hnot (by simp) hinit hends
  rw [hinput, crlf_eq] at hstop
  exact absurd hstop (by simp)

end Proxy
