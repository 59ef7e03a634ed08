/-
# The loop over the header lines

The loop of `doit` between the request line and the headers that the proxy adds: its
variables, its body, and when it ends.  `forwardHeaders` is what it sends and what it has
seen (`forwardHeaders_of_ends`, `forwardHeaders_of_not_ends`).

The loop is left when `buf` is `"\r\n"`.  `Rio_readlineb` returns at most `MAXLINE - 1` bytes
of a line, so the rest of a long line can be `"\r\n"` too.  At the end of the stream it
leaves `buf` as it was, and the loop goes on for ever.
-/
import CsappLabs.Doit
import CsappLabs.WhileLoop

open Effects Effects.Prog CString Relay WhileLoop

namespace Relay

/-- A full piece of a line. -/
theorem readlinebLoop_full {line : List UInt8} (hline : newline ∉ line) (rest : List UInt8) :
    readlinebLoop line.length (line ++ rest) = (line, rest) := by
  induction line with
  | nil => rfl
  | cons c line ih =>
      rw [List.mem_cons, not_or] at hline
      rw [List.length_cons, List.cons_append, readlinebLoop, if_neg (Ne.symm hline.1), ih hline.2]

/-- The end of a stream. -/
theorem readlinebLoop_end {n : ℕ} {stream : List UInt8} (hline : newline ∉ stream)
    (hlen : stream.length ≤ n) : readlinebLoop n stream = (stream, []) := by
  induction stream generalizing n with
  | nil => cases n <;> rfl
  | cons c stream ih =>
      obtain ⟨k, rfl⟩ : ∃ k, n = k + 1 := ⟨n - 1, by simp at hlen; omega⟩
      rw [List.mem_cons, not_or] at hline
      rw [readlinebLoop, if_neg (Ne.symm hline.1), ih hline.2 (by simpa using hlen)]

/-- Nothing is lost, and something is read. -/
theorem length_rioReadlineb {stream : List UInt8} (h : stream ≠ []) :
    (rioReadlineb MAXLINE stream).1.length + (rioReadlineb MAXLINE stream).2.length =
      stream.length ∧ 0 < (rioReadlineb MAXLINE stream).1.length := by
  constructor
  · rw [rioReadlineb, ← List.length_append, readlinebLoop_append]
  · exact Nat.pos_of_ne_zero fun h0 => h (readlinebLoop_eq_nil h0)

/-- A stream goes on with a line that fits, with a longer one, or with no line at all. -/
theorem stream_cases (n : ℕ) (stream : List UInt8) :
    (∃ line rest, stream = line ++ newline :: rest ∧ newline ∉ line ∧ line.length < n) ∨
      (∃ line rest, stream = line ++ rest ∧ newline ∉ line ∧ line.length = n) ∨
      (newline ∉ stream ∧ stream.length < n) := by
  by_cases hmem : newline ∈ stream
  · obtain ⟨line, rest, rfl, hline⟩ := List.eq_append_cons_of_mem hmem
    by_cases hlen : line.length < n
    · exact Or.inl ⟨line, rest, rfl, hline, hlen⟩
    · refine Or.inr (Or.inl ⟨line.take n, line.drop n ++ newline :: rest, ?_, ?_, ?_⟩)
      · rw [← List.append_assoc, List.take_append_drop]
      · exact fun h => hline (List.mem_of_mem_take h)
      · exact List.length_take_of_le (by omega)
  · by_cases hlen : stream.length < n
    · exact Or.inr (Or.inr ⟨hmem, hlen⟩)
    · refine Or.inr (Or.inl ⟨stream.take n, stream.drop n, (List.take_append_drop n stream).symm,
        fun h => hmem (List.mem_of_mem_take h), List.length_take_of_le (by omega)⟩)

end Relay

namespace Proxy

/-! ## The loop -/

/-- The variables of the loop, and the bytes that it has written to the origin server. -/
structure HeaderState where
  seen : Seen
  buf : List UInt8
  input : List UInt8
  written : List UInt8

/-- `strcmp(buf, "\r\n") != 0`. -/
def HeaderState.Goes (s : HeaderState) : Prop := cstring s.buf ≠ crlf

/-- `Rio_readlineb(&rio, buf, MAXLINE)`. -/
def HeaderState.read (s : HeaderState) : HeaderState :=
  let r := readLine s.buf s.input
  { s with buf := r.1, input := r.2 }

/-- The line is sent, and its name is looked for. -/
def HeaderState.send (s : HeaderState) : HeaderState :=
  { s with seen := s.seen.note (cstring s.buf), written := s.written ++ cstring s.buf }

/-- The body of the loop. -/
def headerBody (s : HeaderState) : HeaderState := s.send.read

/-- The loop ends in `s'` when it starts in `s`. -/
def HeaderEnds : HeaderState → HeaderState → Prop := Ends HeaderState.Goes headerBody

/-- Before the first line is read: `buf` holds the request line. -/
def headerInit (buf input : List UInt8) : HeaderState :=
  ⟨⟨false, false, false, false⟩, buf, input, []⟩

/-! ## What is read -/

section

variable {s : HeaderState}

theorem read_of_empty (h : s.input = []) : s.read = s := by
  obtain ⟨seen, buf, input, written⟩ := s
  subst h
  rfl

/-- What is read from a stream that goes on. -/
theorem read_of_piece {piece rest : List UInt8}
    (h : rioReadlineb MAXLINE s.input = (piece, rest)) (hne : piece ≠ []) :
    s.read = { s with buf := piece, input := rest } := by
  have hlen : ¬ piece.length = 0 := fun h0 => hne (List.eq_nil_of_length_eq_zero h0)
  simp only [HeaderState.read, readLine, h, hlen, if_false]

/-- Nothing is lost. -/
theorem length_read (h : s.input ≠ []) :
    s.read.buf.length + s.read.input.length = s.input.length ∧ 0 < s.read.buf.length := by
  have hlen := length_rioReadlineb h
  rw [read_of_piece Prod.mk.eta.symm (List.ne_nil_of_length_pos hlen.2)]
  exact hlen

/-- **At the end of the stream** the loop goes on for ever. -/
theorem not_ends_of_empty (hbuf : s.Goes) (hinput : s.input = []) (s' : HeaderState) :
    ¬ HeaderEnds s s' := by
  have hinv : ∀ s : HeaderState, s.Goes ∧ s.input = [] →
      s.Goes ∧ (headerBody s).Goes ∧ (headerBody s).input = [] := by
    rintro s ⟨hgoes, hempty⟩
    have hread : headerBody s = s.send := read_of_empty hempty
    rw [hread]
    exact ⟨hgoes, hgoes, hempty⟩
  exact not_ends hinv ⟨hbuf, hinput⟩ s'

/-- A round shortens the stream. -/
theorem length_body (h : s.input ≠ []) : (headerBody s).input.length < s.input.length := by
  have hlen := length_read (s := s.send) h
  show s.send.read.input.length < s.send.input.length
  omega

end

/-! ## `forwardHeaders` -/

/-- The bytes sent to the origin server. -/
def forwarded (es : List Event) : List UInt8 :=
  (es.map fun
    | .forward s => s
    | _ => []).flatten

@[simp] theorem forwarded_nil : forwarded [] = [] := rfl

@[simp] theorem forwarded_cons (s : List UInt8) (es : List Event) :
    forwarded (.forward s :: es) = s ++ forwarded es := rfl

@[simp] theorem forwarded_append (es es' : List Event) :
    forwarded (es ++ es') = forwarded es ++ forwarded es' := by
  simp [forwarded]

/-- The loop with enough rounds. -/
theorem headerLoop_of_ends {s s' : HeaderState} (h : HeaderEnds s s') {fuel : ℕ}
    (hfuel : s.input.length < fuel) :
    (headerLoop fuel s.seen s.buf s.input).result = .ok s'.seen ∧
      s'.written = s.written ++ forwarded (headerLoop fuel s.seen s.buf s.input).events := by
  induction h generalizing fuel with
  | @exit s hexit =>
      obtain ⟨k, rfl⟩ : ∃ k, fuel = k + 1 := ⟨fuel - 1, by omega⟩
      rw [headerLoop, if_pos (not_not.mp hexit)]
      exact ⟨rfl, (List.append_nil _).symm⟩
  | @body s s' hgoes hends ih =>
      obtain ⟨k, rfl⟩ : ∃ k, fuel = k + 1 := ⟨fuel - 1, by omega⟩
      have hne : s.input ≠ [] := fun hempty =>
        not_ends_of_empty hgoes hempty s' (.body hgoes hends)
      have hlt := length_body hne
      obtain ⟨hresult, hwritten⟩ := @ih k (by omega)
      rw [headerLoop, if_neg hgoes]
      refine ⟨hresult, ?_⟩
      rw [hwritten, events_emit_bind, forwarded_cons, ← List.append_assoc]
      rfl

theorem headerLoop_of_not_ends {s : HeaderState} (h : ∀ s', ¬ HeaderEnds s s') (fuel : ℕ) :
    (headerLoop fuel s.seen s.buf s.input).result = .error .hang := by
  induction fuel generalizing s with
  | zero => rfl
  | succ fuel ih =>
      have hgoes : s.Goes := by
        by_contra hexit
        exact h s (.exit hexit)
      rw [headerLoop, if_neg hgoes]
      exact ih (s := headerBody s) fun s' hends => h s' (.body hgoes hends)

/-- **`forwardHeaders` is the loop**: what it has seen, and what it sends. -/
theorem forwardHeaders_of_ends {buf input : List UInt8} {s' : HeaderState}
    (h : HeaderEnds (headerInit buf input).read s') :
    (forwardHeaders buf input).result = .ok s'.seen ∧
      s'.written = forwarded (forwardHeaders buf input).events :=
  headerLoop_of_ends h (Nat.lt_succ_self _)

/-- A loop that does not end. -/
theorem forwardHeaders_of_not_ends {buf input : List UInt8}
    (h : ∀ s', ¬ HeaderEnds (headerInit buf input).read s') :
    (forwardHeaders buf input).result = .error .hang :=
  headerLoop_of_not_ends h _

/-! ## When the loop ends -/

/-- Somewhere in the stream `"\r\n"` is a piece of its own: it ends a line of which a
number of full pieces came before, none for an empty line. -/
def BlankLine (input : List UInt8) : Prop :=
  ∃ before line after, input = before ++ (line ++ (crlf ++ after)) ∧
    (before = [] ∨ ∃ b, before = b ++ [newline]) ∧ newline ∉ line ∧ (MAXLINE - 1) ∣ line.length

theorem crlf_eq : crlf = [13, newline] := by
  simp [crlf, text, newline]

theorem newline_mem_crlf : newline ∈ crlf := by
  rw [crlf_eq]
  simp

/-- The carriage return belongs to the content of a line. -/
theorem notMem_cr {x : List UInt8} (hx : newline ∉ x) : newline ∉ x ++ [13] := by
  rw [List.mem_append, not_or]
  exact ⟨hx, by decide⟩

theorem append_crlf (x more : List UInt8) :
    x ++ (crlf ++ more) = (x ++ [13]) ++ newline :: more := by
  rw [crlf_eq]
  simp

/-- The characters of a string are among those of its buffer. -/
theorem mem_of_mem_cstring {s : List UInt8} {c : UInt8} (h : c ∈ cstring s) : c ∈ s :=
  (List.takeWhile_sublist _).subset h

/-- A piece of a long line goes on. -/
theorem goes_of_notMem {s : List UInt8} (h : newline ∉ s) : cstring s ≠ crlf := by
  intro heq
  exact h (mem_of_mem_cstring (heq ▸ newline_mem_crlf))

theorem cstring_crlf : cstring crlf = crlf := by
  rw [crlf_eq]
  rfl

/-- A whole line is `"\r\n"` only when its content is. -/
theorem cstring_line_eq_crlf {line : List UInt8} (hline : newline ∉ line) :
    cstring (line ++ [newline]) = crlf ↔ line = [13] := by
  constructor
  · intro heq
    -- the string goes up to the newline, so there is no NUL before
    have hnul : (0 : UInt8) ∉ line := by
      intro hmem
      obtain ⟨l, r, rfl, hl⟩ := List.eq_append_cons_of_mem hmem
      rw [List.append_assoc, List.cons_append, cstring_nul hl] at heq
      exact hline (by simp [heq, newline_mem_crlf])
    rw [cstring_eq_self (by simp [hnul, newline]), crlf_eq] at heq
    exact List.append_cancel_right (heq.trans (List.singleton_append (l := [newline])).symm)
  · rintro rfl
    rw [← cstring_crlf, crlf_eq]
    rfl

/-- The first occurrence of a character splits a list in one way. -/
theorem append_cons_inj {c : UInt8} {l l' r r' : List UInt8} (hl : c ∉ l) (hl' : c ∉ l')
    (h : l ++ c :: r = l' ++ c :: r') : l = l' ∧ r = r' := by
  rcases List.append_eq_append_iff.mp h with ⟨m, rfl, hm⟩ | ⟨m, rfl, hm⟩
  all_goals
    cases m with
    | nil => simpa [eq_comm] using hm
    | cons d m =>
        obtain ⟨rfl, -⟩ := List.cons.inj hm
        simp at hl hl'

namespace BlankLine

/-- After a whole line. -/
theorem line_iff {line rest : List UInt8} (hline : newline ∉ line)
    (hlen : line.length < MAXLINE - 1) :
    BlankLine (line ++ newline :: rest) ↔ line = [13] ∨ BlankLine rest := by
  constructor
  · rintro ⟨before, l, after, heq, rfl | ⟨b, rfl⟩, hl, hdvd⟩
    · -- the line itself
      have hsplit : line ++ newline :: rest = (l ++ [13]) ++ newline :: after := by
        rw [← append_crlf]
        exact heq
      obtain ⟨rfl, -⟩ := append_cons_inj hline (notMem_cr hl) hsplit
      rw [List.length_append, List.length_singleton] at hlen
      have hzero := Nat.eq_zero_of_dvd_of_lt hdvd (by omega)
      rw [List.eq_nil_of_length_eq_zero hzero]
      exact Or.inl rfl
    · -- a later one
      refine Or.inr ?_
      by_cases hb : newline ∈ b
      · obtain ⟨l₁, l₂, rfl, hl₁⟩ := List.eq_append_cons_of_mem hb
        have hsplit : line ++ newline :: rest =
            l₁ ++ newline :: (l₂ ++ [newline] ++ (l ++ (crlf ++ after))) := by
          rw [heq]
          simp
        obtain ⟨rfl, rfl⟩ := append_cons_inj hline hl₁ hsplit
        exact ⟨_, l, after, rfl, Or.inr ⟨l₂, rfl⟩, hl, hdvd⟩
      · have hsplit : line ++ newline :: rest = b ++ newline :: (l ++ (crlf ++ after)) := by
          rw [heq]
          simp
        obtain ⟨rfl, rfl⟩ := append_cons_inj hline hb hsplit
        exact ⟨[], l, after, rfl, Or.inl rfl, hl, hdvd⟩
  · rintro (rfl | ⟨before, l, after, rfl, hbefore, hl, hdvd⟩)
    · exact ⟨[], [], rest, by rw [crlf_eq]; rfl, Or.inl rfl, List.not_mem_nil, dvd_zero _⟩
    · refine ⟨line ++ newline :: before, l, after, by simp, Or.inr ?_, hl, hdvd⟩
      rcases hbefore with rfl | ⟨b, rfl⟩
      · exact ⟨line, rfl⟩
      · exact ⟨line ++ newline :: b, by simp⟩

/-- After a full piece of a line. -/
theorem full_iff {line rest : List UInt8} (hline : newline ∉ line)
    (hlen : line.length = MAXLINE - 1) : BlankLine (line ++ rest) ↔ BlankLine rest := by
  constructor
  · rintro ⟨before, l, after, heq, rfl | ⟨b, rfl⟩, hl, hdvd⟩
    · rw [List.nil_append] at heq
      rcases List.append_eq_append_iff.mp heq with ⟨m, rfl, rfl⟩ | ⟨m, rfl, hm⟩
      · -- the line goes on
        rw [List.mem_append, not_or] at hl
        rw [List.length_append, hlen] at hdvd
        exact ⟨[], m, after, rfl, Or.inl rfl, hl.2, (Nat.dvd_add_right dvd_rfl).mp hdvd⟩
      · -- it would end within the piece
        cases m with
        | nil =>
            rw [List.append_nil] at hline
            exact ⟨[], [], after, hm.symm, Or.inl rfl, List.not_mem_nil, dvd_zero _⟩
        | cons c m =>
            exfalso
            rw [List.length_append, List.length_cons] at hlen
            have hzero := Nat.eq_zero_of_dvd_of_lt hdvd (by omega)
            obtain ⟨d, m, rfl⟩ : ∃ d m', m = d :: m' := by
              refine List.exists_cons_of_length_pos ?_
              rw [MAXLINE] at hlen
              omega
            rw [crlf_eq, List.cons_append, List.cons_append, List.cons_append] at hm
            obtain ⟨-, hm⟩ := List.cons.inj hm
            obtain ⟨rfl, -⟩ := List.cons.inj hm
            simp at hline
    · rw [List.append_assoc b] at heq
      rcases List.append_eq_append_iff.mp heq with ⟨m, rfl, rfl⟩ | ⟨m, rfl, hm⟩
      · exact ⟨m ++ [newline], l, after, by simp, Or.inr ⟨m, rfl⟩, hl, hdvd⟩
      · cases m with
        | nil => exact ⟨[newline], l, after, hm.symm, Or.inr ⟨[], rfl⟩, hl, hdvd⟩
        | cons c m =>
            obtain ⟨rfl, -⟩ := List.cons.inj hm
            simp at hline
  · rintro ⟨before, l, after, rfl, rfl | ⟨b, rfl⟩, hl, hdvd⟩
    · refine ⟨[], line ++ l, after, by simp, Or.inl rfl, ?_, ?_⟩
      · rw [List.mem_append, not_or]
        exact ⟨hline, hl⟩
      · rw [List.length_append, hlen]
        exact Dvd.dvd.add dvd_rfl hdvd
    · exact ⟨line ++ (b ++ [newline]), l, after, by simp, Or.inr ⟨line ++ b, by simp⟩, hl, hdvd⟩

/-- A blank line has a newline. -/
theorem newline_mem {input : List UInt8} (h : BlankLine input) : newline ∈ input := by
  obtain ⟨before, l, after, rfl, -⟩ := h
  simp [newline_mem_crlf]

/-- **One piece of the stream.** -/
theorem piece_iff {input : List UInt8} (hne : input ≠ []) :
    BlankLine input ↔ cstring (rioReadlineb MAXLINE input).1 = crlf ∨
      BlankLine (rioReadlineb MAXLINE input).2 := by
  rw [rioReadlineb]
  rcases stream_cases (MAXLINE - 1) input with ⟨line, rest, rfl, hline, hlen⟩ |
    ⟨line, rest, rfl, hline, hlen⟩ | ⟨hline, hlen⟩
  · rw [readlinebLoop_line hline hlen, line_iff hline hlen, cstring_line_eq_crlf hline]
  · rw [full_iff hline hlen, ← hlen, readlinebLoop_full hline]
    exact ⟨Or.inr, fun h => h.resolve_left (goes_of_notMem hline)⟩
  · rw [readlinebLoop_end hline hlen.le]
    refine iff_of_false (fun h => hline h.newline_mem) ?_
    rintro (h | h)
    · exact goes_of_notMem hline h
    · exact absurd h.newline_mem List.not_mem_nil

end BlankLine

/-- **When the loop ends**, from the test of its condition on. -/
theorem ends_iff {s : HeaderState} :
    (∃ s', HeaderEnds s s') ↔ cstring s.buf = crlf ∨ BlankLine s.input := by
  induction hn : s.input.length using Nat.strong_induction_on generalizing s with
  | _ n ih =>
      by_cases hexit : cstring s.buf = crlf
      · exact iff_of_true ⟨s, .exit (not_not.mpr hexit)⟩ (Or.inl hexit)
      · by_cases hempty : s.input = []
        · refine iff_of_false ?_ ?_
          · rintro ⟨s', hends⟩
            exact not_ends_of_empty hexit hempty s' hends
          · rintro (h | h)
            · exact hexit h
            · rw [hempty] at h
              exact absurd h.newline_mem List.not_mem_nil
        · have hpiece : (headerBody s).buf = (rioReadlineb MAXLINE s.input).1 ∧
              (headerBody s).input = (rioReadlineb MAXLINE s.input).2 := by
            have hne : (rioReadlineb MAXLINE s.input).1 ≠ [] := fun h0 =>
              hempty (readlinebLoop_eq_nil (congrArg List.length h0))
            have hread := read_of_piece (s := s.send) (Prod.mk.eta.symm) hne
            exact ⟨congrArg HeaderState.buf hread, congrArg HeaderState.input hread⟩
          have hlt := length_body hempty
          have hrest := ih _ (hn ▸ hlt) rfl
          rw [hpiece.1, hpiece.2, ← BlankLine.piece_iff hempty] at hrest
          rw [or_iff_right hexit, ← hrest]
          exact exists_congr fun s' => ends_of_cond hexit

/-- From the read before it on. -/
theorem read_ends_iff {s : HeaderState} (hbuf : s.Goes) :
    (∃ s', HeaderEnds s.read s') ↔ BlankLine s.input := by
  rw [ends_iff]
  by_cases hempty : s.input = []
  · rw [read_of_empty hempty]
    exact or_iff_right hbuf
  · have hne : (rioReadlineb MAXLINE s.input).1 ≠ [] := fun h0 =>
      hempty (readlinebLoop_eq_nil (congrArg List.length h0))
    rw [read_of_piece (Prod.mk.eta.symm) hne]
    exact (BlankLine.piece_iff hempty).symm

/-- The line that `doit` sends first: `sprintf(buf, "%s %s %s\r\n", method, uri, version)`. -/
def requestLine (method uri version : List UInt8) : List UInt8 :=
  method ++ text " " ++ uri ++ text " " ++ version ++ crlf

/-- The request line has a space. -/
theorem goes_requestLine {method : List UInt8} (hnul : (0 : UInt8) ∉ method)
    (uri version input : List UInt8) : (headerInit (requestLine method uri version) input).Goes := by
  intro heq
  have hspace : (32 : UInt8) ∈ cstring (requestLine method uri version) := by
    have hseq : requestLine method uri version =
        method ++ (32 :: (uri ++ text " " ++ version ++ crlf)) := by
      simp [requestLine, text]
    have hcs : cstring (32 :: (uri ++ text " " ++ version ++ crlf)) =
        32 :: cstring (uri ++ text " " ++ version ++ crlf) :=
      cstring_append (l := [32]) (by decide) _
    rw [hseq, cstring_append hnul, hcs]
    exact List.mem_append_right _ List.mem_cons_self
  rw [show cstring (requestLine method uri version) = crlf from heq, crlf_eq] at hspace
  revert hspace
  decide

/-- **The header loop ends** exactly when the stream has a blank line. -/
theorem header_loop_ends_iff {method : List UInt8} (hnul : (0 : UInt8) ∉ method)
    (uri version input : List UInt8) :
    (∃ s', HeaderEnds (headerInit (requestLine method uri version) input).read s') ↔
      BlankLine input := read_ends_iff (goes_requestLine hnul uri version input)

/-- Two header lines and a blank line: the loop sends both lines. -/
theorem header_loop_ends_crlf :
    forwarded (forwardHeaders (requestLine (text "GET") (text "/") (text "HTTP/1.0"))
      (text "Host: h\r\nAccept: */*\r\n\r\n")).events =
        text "Host: h\r\nAccept: */*\r\n" ∧
    ∃ s', HeaderEnds (headerInit (requestLine (text "GET") (text "/") (text "HTTP/1.0"))
      (text "Host: h\r\nAccept: */*\r\n\r\n")).read s' := by
  refine ⟨by decide +kernel, (header_loop_ends_iff (by simp [text]) _ _ _).mpr
    ⟨text "Host: h\r\nAccept: */*\r\n", [], [], by decide +kernel,
      Or.inr ⟨text "Host: h\r\nAccept: */*\r", by decide +kernel⟩, List.not_mem_nil, dvd_zero _⟩⟩

/-- A stream that ends before the blank line. -/
theorem not_header_loop_ends :
    ¬ ∃ s', HeaderEnds (headerInit (requestLine (text "GET") (text "/") (text "HTTP/1.0")) []).read
      s' := by
  rw [read_ends_iff (goes_requestLine (by simp [text]) _ _ _)]
  exact fun h => absurd h.newline_mem List.not_mem_nil

end Proxy
