/-
# The four standard headers

The header block that `doit` sends: the lines of the client, the default lines of the
headers that the tests of the loop have not seen, and the empty line.

The tests look for a name anywhere in a line, as it is spelled, and one after the other:
`"Host:"`, `"User-Agent:"`, `"Connection:"`, `"Proxy-Connection:"`.  The last is never reached
with success, because `"Proxy-Connection:"` contains `"Connection:"`.
-/
import CsappLabs.HeaderFraming

open Effects Effects.Prog CString Relay WhileLoop

namespace Proxy

/-- A header of the client. -/
structure HeaderLine where
  name : List UInt8
  value : List UInt8

namespace HeaderLine

/-- `Name: value` without its end. -/
def content (h : HeaderLine) : List UInt8 := h.name ++ text ": " ++ h.value

def line (h : HeaderLine) : List UInt8 := h.content ++ crlf

/-- Names are compared without regard to case. -/
def Is (name : List UInt8) (h : HeaderLine) : Bool := h.name.map tolower = name.map tolower

/-- The line is one line of a string that fits into the buffer. -/
structure Valid (h : HeaderLine) : Prop where
  name : colon ∉ h.name
  newline : newline ∉ h.content
  nul : (0 : UInt8) ∉ h.content
  fits : h.line.length < MAXLINE - 1

end HeaderLine

/-- The lines of some headers. -/
def headerLines (hs : List HeaderLine) : List UInt8 := (hs.map HeaderLine.line).flatten

/-- The client sent a header of this name. -/
def sent (name : List UInt8) (hs : List HeaderLine) : Bool := hs.any (HeaderLine.Is name)

/-- The names of the four headers. -/
def standard : List (List UInt8) :=
  [text "Host", text "User-Agent", text "Connection", text "Proxy-Connection"]

/-- The four headers, with the values that the proxy gives them. -/
def defaults (hostname : List UInt8) : List HeaderLine :=
  [⟨text "Host", hostname⟩,
    ⟨text "User-Agent",
      text "Mozilla/5.0 (X11; Linux x86_64; rv:10.0.3) Gecko/20120305 Firefox/10.0.3"⟩,
    ⟨text "Connection", text "close"⟩,
    ⟨text "Proxy-Connection", text "close"⟩]

/-- Those that the client did not send. -/
def unsent (hostname : List UInt8) (hs : List HeaderLine) : List HeaderLine :=
  (defaults hostname).filter fun d => !sent d.name hs

/-- What `doit` sends after the request line. -/
def headerBlock (buf hostname input : List UInt8) : Run Unit := do
  let seen ← forwardHeaders buf input
  addHeaders seen hostname

theorem sendRequest_eq (f : Frame) (hostname input : List UInt8) :
    sendRequest f hostname input = (do
      let method ← readString f.method
      let uri ← readString f.uri
      let version ← readString f.version
      let buf ← sprintf (requestLine method uri version)
      emit (.forward buf)
      headerBlock buf hostname input) := rfl

/-- Every one of the four headers goes out exactly once: the lines of the client, the default
lines of those that it did not send, and the empty line. -/
structure OnceEach (buf hostname : List UInt8) (hs : List HeaderLine) (rest : List UInt8) :
    Prop where
  returns : (headerBlock buf hostname (headerLines hs ++ (crlf ++ rest))).result = .ok ()
  sends : forwarded (headerBlock buf hostname (headerLines hs ++ (crlf ++ rest))).events =
    headerLines hs ++ (headerLines (unsent hostname hs) ++ crlf)
  once : ∀ name ∈ standard, (hs ++ unsent hostname hs).countP (HeaderLine.Is name) = 1

/-! ## The tests of the loop -/

def hostTest (line : List UInt8) : Bool := (strstr line (text "Host:")).isSome

def uaTest (line : List UInt8) : Bool := !hostTest line && (strstr line (text "User-Agent:")).isSome

def connTest (line : List UInt8) : Bool :=
  !hostTest line && !uaTest line && (strstr line (text "Connection:")).isSome

/-- The tests see the headers that the client sent, and it sent no `Proxy-Connection`. -/
structure Detected (hs : List HeaderLine) : Prop where
  host : sent (text "Host") hs = hs.any fun h => hostTest h.line
  ua : sent (text "User-Agent") hs = hs.any fun h => uaTest h.line
  conn : sent (text "Connection") hs = hs.any fun h => connTest h.line
  proxyConn : sent (text "Proxy-Connection") hs = false

/-- `"Proxy-Connection:"` contains `"Connection:"`. -/
theorem strstr_connection {line : List UInt8}
    (h : (strstr line (text "Proxy-Connection:")).isSome = true) :
    (strstr line (text "Connection:")).isSome = true := by
  rw [strstr_isSome] at h ⊢
  refine List.IsInfix.trans ⟨text "Proxy-", [], ?_⟩ h
  simp [text]

theorem note_host (seen : Seen) (line : List UInt8) :
    (seen.note line).host = (seen.host || hostTest line) := by
  unfold Seen.note hostTest
  split_ifs <;> simp [*]

theorem note_ua (seen : Seen) (line : List UInt8) :
    (seen.note line).ua = (seen.ua || uaTest line) := by
  unfold Seen.note uaTest hostTest
  split_ifs <;> simp [*]

theorem note_conn (seen : Seen) (line : List UInt8) :
    (seen.note line).conn = (seen.conn || connTest line) := by
  unfold Seen.note connTest uaTest hostTest
  split_ifs <;> simp [*]

/-- The last test never succeeds. -/
theorem note_proxyConn (seen : Seen) (line : List UInt8) :
    (seen.note line).proxyConn = seen.proxyConn := by
  unfold Seen.note
  split_ifs with _ _ hconn hproxy
  · rfl
  · rfl
  · rfl
  · exact absurd (strstr_connection hproxy) hconn
  · rfl

/-- A flag that a test sets, after some lines. -/
theorem foldl_note {flag : Seen → Bool} {test : List UInt8 → Bool}
    (h : ∀ seen line, flag (seen.note line) = (flag seen || test line)) (hs : List HeaderLine)
    (seen : Seen) :
    flag (hs.foldl (fun seen h => seen.note h.line) seen) =
      (flag seen || hs.any fun h => test h.line) := by
  induction hs generalizing seen with
  | nil => simp
  | cons x hs ih => rw [List.foldl_cons, ih, h, List.any_cons, Bool.or_assoc]

theorem foldl_proxyConn (hs : List HeaderLine) (seen : Seen) :
    (hs.foldl (fun seen h => seen.note h.line) seen).proxyConn = seen.proxyConn := by
  induction hs generalizing seen with
  | nil => rfl
  | cons x hs ih => rw [List.foldl_cons, ih, note_proxyConn]

/-! ## The lines of the client -/

namespace HeaderLine

theorem content_ne (h : HeaderLine) : h.content ≠ [] := by
  simp [content, text]

namespace Valid

variable {h : HeaderLine}

theorem length_content (hv : h.Valid) : h.content.length + 1 < MAXLINE - 1 := by
  have hfits := hv.fits
  rw [line, List.length_append, crlf_eq] at hfits
  simp only [List.length_cons, List.length_nil] at hfits
  omega

theorem cstring_line (hv : h.Valid) : cstring h.line = h.line := by
  refine cstring_eq_self ?_
  rw [line, List.mem_append, not_or, crlf_eq]
  exact ⟨hv.nul, by decide⟩

end Valid

end HeaderLine

/-- The loop over the lines of the client. -/
theorem ends_lines {hs : List HeaderLine} (hvalid : ∀ h ∈ hs, h.Valid) {rest : List UInt8}
    {s s' : HeaderState} (hs' : s.input = headerLines hs ++ (crlf ++ rest)) :
    HeaderEnds s.read s' ↔
      s' = ⟨hs.foldl (fun seen h => seen.note h.line) s.seen, crlf, rest,
        s.written ++ headerLines hs⟩ := by
  induction hs generalizing s with
  | nil =>
      have hread : rioReadlineb MAXLINE s.input = (crlf, rest) := by
        rw [hs']
        exact rioReadlineb_crlf rest
      rw [ends_crlf hread]
      simp [headerLines]
  | cons h hs ih =>
      rw [List.forall_mem_cons] at hvalid
      obtain ⟨hv, hvalid⟩ := hvalid
      have hread : rioReadlineb MAXLINE s.input =
          (h.line, headerLines hs ++ (crlf ++ rest)) := by
        have hseq : headerLines (h :: hs) ++ (crlf ++ rest) =
            h.content ++ (crlf ++ (headerLines hs ++ (crlf ++ rest))) := by
          simp [headerLines, HeaderLine.line]
        rw [hs', hseq]
        exact rioReadlineb_short hv.newline hv.length_content _
      have hgoes := goes_short hv.newline (h.content_ne)
      rw [ends_piece hread (by simp [HeaderLine.line, HeaderLine.content_ne]) hgoes,
        hv.cstring_line, ih hvalid (s := ⟨_, _, _, _⟩) rfl]
      simp [headerLines]

/-- What the loop has seen. -/
def seenIn (hs : List HeaderLine) : Seen :=
  hs.foldl (fun seen h => seen.note h.line) ⟨false, false, false, false⟩

theorem forwardHeaders_lines {hs : List HeaderLine} (hvalid : ∀ h ∈ hs, h.Valid)
    (buf rest : List UInt8) :
    (forwardHeaders buf (headerLines hs ++ (crlf ++ rest))).result = .ok (seenIn hs) ∧
      forwarded (forwardHeaders buf (headerLines hs ++ (crlf ++ rest))).events = headerLines hs := by
  have hends := (ends_lines hvalid
    (s := headerInit buf (headerLines hs ++ (crlf ++ rest))) rfl).mpr rfl
  obtain ⟨hresult, hwritten⟩ := forwardHeaders_of_ends hends
  exact ⟨hresult, hwritten.symm⟩

/-! ## The lines that the proxy adds -/

/-- A program that returns after it has sent some bytes to the origin server. -/
structure Sends (x : Run Unit) (bs : List UInt8) : Prop where
  result : x.result = .ok ()
  bytes : forwarded x.events = bs

/-- A line that is left out when its header was seen. -/
def part (seen : Bool) (line : List UInt8) : List UInt8 := if seen then [] else line

theorem sends_line (line : List UInt8) : Sends (emit (.forward line)) line :=
  ⟨rfl, List.append_nil line⟩

/-- A line, and what follows it. -/
theorem Sends.after {x : Run Unit} {bs : List UInt8} (h : Sends x bs) (line : List UInt8) :
    Sends (emit (.forward line) >>= fun _ => x) (line ++ bs) :=
  ⟨h.result, congrArg (line ++ ·) h.bytes⟩

/-- A line that is sent unless its header was seen. -/
theorem Sends.unless {x : Run Unit} {bs : List UInt8} (h : Sends x bs) (seen : Bool)
    (line : List UInt8) :
    Sends (if seen = false then emit (.forward line) >>= fun _ => x else x)
      (part seen line ++ bs) := by
  cases seen with
  | false => exact h.after line
  | true => exact h

/-- The lines that are added, and the empty line. -/
def addedLines (seen : Seen) (hostname : List UInt8) : List UInt8 :=
  part seen.host (text "Host: " ++ hostname ++ crlf) ++ (part seen.ua userAgentHdr ++
    (part seen.conn (text "Connection: close\r\n") ++
      (part seen.proxyConn (text "Proxy-Connection: close\r\n") ++ crlf)))

theorem length_hostLine (hostname : List UInt8) :
    (text "Host: " ++ hostname ++ crlf).length = hostname.length + 8 := by
  simp [text, crlf]

theorem sends_addHeaders {seen : Seen} {hostname : List UInt8}
    (hroom : seen.host = true ∨ hostname.length + 8 < MAXLINE) :
    Sends (addHeaders seen hostname) (addedLines seen hostname) := by
  have hrest := (((sends_line crlf).unless
    seen.proxyConn (text "Proxy-Connection: close\r\n")).unless
    seen.conn (text "Connection: close\r\n")).unless seen.ua userAgentHdr
  unfold addHeaders
  cases hhost : seen.host with
  | true =>
      rw [if_neg (by decide), addedLines, hhost]
      exact hrest
  | false =>
      rw [if_pos rfl, sprintf, if_pos]
      · have hline := hrest.after (text "Host: " ++ hostname ++ crlf)
        rw [addedLines, hhost]
        exact hline
      · rw [length_hostLine]
        rw [hhost] at hroom
        exact hroom.resolve_left Bool.false_ne_true

/-- A name of a host that is too long for the buffer. -/
theorem addHeaders_crash {seen : Seen} {hostname : List UInt8} (hseen : seen.host = false)
    (hroom : ¬ hostname.length + 8 < MAXLINE) :
    (addHeaders seen hostname).result = .error .crash := by
  rw [addHeaders, if_pos hseen, sprintf, if_neg (by rw [length_hostLine]; exact hroom)]
  rfl

/-! ## Reading the flags off the bytes -/

/-- Two parts that start with another character than what follows. -/
theorem part_cancel {c : UInt8} {l x y : List UInt8} {a b : Bool} (hx : x.head? ≠ some c)
    (hy : y.head? ≠ some c) (h : part a (c :: l) ++ x = part b (c :: l) ++ y) : a = b ∧ x = y := by
  cases a <;> cases b
  · exact ⟨rfl, List.append_cancel_left h⟩
  · exact absurd (congrArg List.head? h.symm) hy
  · exact absurd (congrArg List.head? h) hx
  · exact ⟨rfl, h⟩

theorem head_part {c d : UInt8} {l x : List UInt8} (b : Bool) (hd : d ≠ c)
    (hx : x.head? ≠ some c) : (part b (d :: l) ++ x).head? ≠ some c := by
  cases b with
  | true => exact hx
  | false => exact fun h => hd (Option.some.inj h)

/-- The flags can be read off the lines that are added. -/
theorem addedLines_inj {seen seen' : Seen} {hostname : List UInt8}
    (h : addedLines seen hostname = addedLines seen' hostname) : seen = seen' := by
  have hhost : text "Host: " ++ hostname ++ crlf = 72 :: (text "ost: " ++ hostname ++ crlf) := by
    simp [text]
  have hua : ∃ l, userAgentHdr = 85 :: l := ⟨_, by simp [userAgentHdr, text]; rfl⟩
  have hconn : ∃ l, text "Connection: close\r\n" = 67 :: l := ⟨_, by simp [text]; rfl⟩
  have hproxy : ∃ l, text "Proxy-Connection: close\r\n" = 80 :: l := ⟨_, by simp [text]; rfl⟩
  obtain ⟨ua, hua⟩ := hua
  obtain ⟨conn, hconn⟩ := hconn
  obtain ⟨proxy, hproxy⟩ := hproxy
  obtain ⟨a₁, a₂, a₃, a₄⟩ := seen
  obtain ⟨b₁, b₂, b₃, b₄⟩ := seen'
  simp only [addedLines, hhost, hua, hconn, hproxy] at h
  -- what follows a line starts with another character
  have hend : ∀ c : UInt8, c ≠ 13 → crlf.head? ≠ some c := by
    intro c hc
    rw [crlf_eq]
    exact fun heq => hc (Option.some.inj heq).symm
  have hend₄ : ∀ (d : Bool) (c : UInt8), c ≠ 13 → c ≠ 80 →
      (part d (80 :: proxy) ++ crlf).head? ≠ some c := fun d c h h₄ =>
    head_part d h₄.symm (hend c h)
  have hend₃ : ∀ (d d' : Bool) (c : UInt8), c ≠ 13 → c ≠ 80 → c ≠ 67 →
      (part d (67 :: conn) ++ (part d' (80 :: proxy) ++ crlf)).head? ≠ some c := fun d d' c h h₄ h₃ =>
    head_part d h₃.symm (hend₄ d' c h h₄)
  obtain ⟨rfl, h₂⟩ := part_cancel (c := 72)
    (head_part _ (by decide) (hend₃ _ _ _ (by decide) (by decide) (by decide)))
    (head_part _ (by decide) (hend₃ _ _ _ (by decide) (by decide) (by decide))) h
  obtain ⟨rfl, h₃⟩ := part_cancel (c := 85) (hend₃ _ _ _ (by decide) (by decide) (by decide))
    (hend₃ _ _ _ (by decide) (by decide) (by decide)) h₂
  obtain ⟨rfl, h₄⟩ := part_cancel (c := 67) (hend₄ _ _ (by decide) (by decide))
    (hend₄ _ _ (by decide) (by decide)) h₃
  obtain ⟨rfl, -⟩ := part_cancel (c := 80) (hend _ (by decide)) (hend _ (by decide)) h₄
  rfl

/-! ## The default lines -/

/-- The headers that the client sent. -/
def sentIn (hs : List HeaderLine) : Seen :=
  ⟨sent (text "Host") hs, sent (text "User-Agent") hs, sent (text "Connection") hs,
    sent (text "Proxy-Connection") hs⟩

/-- A header, or nothing, in front of others. -/
theorem headerLines_cons_if (b : Bool) (d : HeaderLine) (ds : List HeaderLine) :
    headerLines (if !b then d :: ds else ds) = part b d.line ++ headerLines ds := by
  cases b <;> simp [headerLines, part]

theorem line_userAgent : HeaderLine.line ⟨text "User-Agent",
    text "Mozilla/5.0 (X11; Linux x86_64; rv:10.0.3) Gecko/20120305 Firefox/10.0.3"⟩ =
      userAgentHdr := by
  simp [HeaderLine.line, HeaderLine.content, userAgentHdr, crlf, text]

/-- **The default lines** are those of the headers that were not sent. -/
theorem headerLines_unsent (hostname : List UInt8) (hs : List HeaderLine) :
    headerLines (unsent hostname hs) ++ crlf = addedLines (sentIn hs) hostname := by
  have hhost : HeaderLine.line ⟨text "Host", hostname⟩ = text "Host: " ++ hostname ++ crlf := by
    simp [HeaderLine.line, HeaderLine.content, text]
  have hconn : HeaderLine.line ⟨text "Connection", text "close"⟩ =
      text "Connection: close\r\n" := by
    simp [HeaderLine.line, HeaderLine.content, crlf, text]
  have hproxy : HeaderLine.line ⟨text "Proxy-Connection", text "close"⟩ =
      text "Proxy-Connection: close\r\n" := by
    simp [HeaderLine.line, HeaderLine.content, crlf, text]
  simp only [unsent, defaults, List.filter_cons, List.filter_nil, headerLines_cons_if, hhost,
    line_userAgent, hconn, hproxy, addedLines, sentIn, List.append_assoc]
  rfl

/-- The four names are different, whatever their case. -/
theorem is_default {hostname name : List UInt8} (hname : name ∈ standard) {d : HeaderLine}
    (hd : d ∈ defaults hostname) : HeaderLine.Is name d = true ↔ d.name = name := by
  simp only [standard, defaults, List.mem_cons, List.not_mem_nil, or_false] at hname hd
  rcases hname with rfl | rfl | rfl | rfl <;> rcases hd with rfl | rfl | rfl | rfl <;>
    simp [HeaderLine.Is, text, tolower]

/-- A default line is added once or not at all. -/
theorem countP_unsent {name : List UInt8} (hname : name ∈ standard) (hostname : List UInt8)
    (hs : List HeaderLine) :
    (unsent hostname hs).countP (HeaderLine.Is name) = if sent name hs then 0 else 1 := by
  rw [unsent, List.countP_filter]
  cases hsent : sent name hs with
  | true =>
      refine List.countP_eq_zero.mpr fun d hd h => ?_
      rw [Bool.and_eq_true, is_default hname hd] at h
      rw [h.1, hsent] at h
      exact Bool.false_ne_true h.2
  | false =>
      have hone : standard.count name = 1 := by
        refine List.count_eq_one_of_mem ?_ hname
        simp [standard, text]
      have hmap : standard = (defaults hostname).map HeaderLine.name := rfl
      rw [hmap, List.count, List.countP_map] at hone
      rw [if_neg Bool.false_ne_true, ← hone]
      refine List.countP_congr fun d hd => ?_
      rw [Bool.and_eq_true, is_default hname hd]
      constructor
      · rintro ⟨rfl, -⟩
        simp
      · intro h
        have heq : d.name = name := by simpa using h
        exact ⟨heq, by rw [heq, hsent]; rfl⟩

theorem once_unsent {hs : List HeaderLine} {hostname : List UInt8}
    (hone : ∀ name ∈ standard, hs.countP (HeaderLine.Is name) ≤ 1) :
    ∀ name ∈ standard, (hs ++ unsent hostname hs).countP (HeaderLine.Is name) = 1 := by
  intro name hname
  have hle := hone name hname
  rw [List.countP_append, countP_unsent hname]
  cases hsent : sent name hs with
  | true =>
      obtain ⟨h, hmem, his⟩ := List.any_eq_true.mp hsent
      have hpos := List.countP_pos_iff.mpr ⟨h, hmem, his⟩
      simp only [if_true]
      omega
  | false =>
      have hzero : hs.countP (HeaderLine.Is name) = 0 := by
        refine List.countP_eq_zero.mpr fun h hmem his => ?_
        rw [sent, List.any_eq_false] at hsent
        exact hsent h hmem his
      rw [hzero]
      rfl

/-- What the tests have seen. -/
theorem seenIn_eq (hs : List HeaderLine) :
    seenIn hs = ⟨hs.any fun h => hostTest h.line, hs.any fun h => uaTest h.line,
      hs.any fun h => connTest h.line, false⟩ := by
  have hhost := @foldl_note Seen.host _ note_host hs ⟨false, false, false, false⟩
  have hua := @foldl_note Seen.ua _ note_ua hs ⟨false, false, false, false⟩
  have hconn := @foldl_note Seen.conn _ note_conn hs ⟨false, false, false, false⟩
  have hproxy := foldl_proxyConn hs ⟨false, false, false, false⟩
  simp only [Bool.false_or] at hhost hua hconn hproxy
  show (⟨(seenIn hs).host, (seenIn hs).ua, (seenIn hs).conn, (seenIn hs).proxyConn⟩ : Seen) = _
  exact (Seen.mk.injEq ..).mpr ⟨hhost, hua, hconn, hproxy⟩

theorem seenIn_eq_iff {hs : List HeaderLine} : seenIn hs = sentIn hs ↔ Detected hs := by
  rw [seenIn_eq, sentIn, Seen.mk.injEq]
  constructor
  · rintro ⟨h₁, h₂, h₃, h₄⟩
    exact ⟨h₁.symm, h₂.symm, h₃.symm, h₄.symm⟩
  · rintro ⟨h₁, h₂, h₃, h₄⟩
    exact ⟨h₁.symm, h₂.symm, h₃.symm, h₄.symm⟩

/-! ## The header block -/

section

variable {hs : List HeaderLine} (hvalid : ∀ h ∈ hs, h.Valid) (buf hostname rest : List UInt8)
include hvalid

theorem headerBlock_lines :
    headerBlock buf hostname (headerLines hs ++ (crlf ++ rest)) =
      ⟨(forwardHeaders buf (headerLines hs ++ (crlf ++ rest))).events ++
        (addHeaders (seenIn hs) hostname).events, (addHeaders (seenIn hs) hostname).result⟩ :=
  bind_of_ok (forwardHeaders_lines hvalid buf rest).1 _

/-- The bytes of the block tell what was seen. -/
theorem detected_of_onceEach (h : OnceEach buf hostname hs rest) :
    Detected hs ∧ (sent (text "Host") hs = true ∨ hostname.length + 8 < MAXLINE) := by
  obtain ⟨hreturns, hsends, -⟩ := h
  rw [headerBlock_lines hvalid] at hreturns hsends
  by_cases hroom : (seenIn hs).host = true ∨ hostname.length + 8 < MAXLINE
  · have hadded := (sends_addHeaders hroom).bytes
    rw [forwarded_append, (forwardHeaders_lines hvalid buf rest).2, hadded,
      headerLines_unsent] at hsends
    have heq := addedLines_inj (List.append_cancel_left hsends)
    rw [heq] at hroom
    exact ⟨seenIn_eq_iff.mp heq, hroom⟩
  · rw [not_or, Bool.not_eq_true] at hroom
    rw [addHeaders_crash hroom.1 hroom.2] at hreturns
    cases hreturns

/-- **When each header goes out exactly once**: the tests see what the client sent, and the
name of the host fits when it is needed. -/
theorem once_each_iff (hone : ∀ name ∈ standard, hs.countP (HeaderLine.Is name) ≤ 1) :
    OnceEach buf hostname hs rest ↔
      Detected hs ∧ (sent (text "Host") hs = true ∨ hostname.length + 8 < MAXLINE) := by
  refine ⟨detected_of_onceEach hvalid buf hostname rest, fun ⟨hdetected, hroom⟩ => ?_⟩
  have hblock := headerBlock_lines hvalid buf hostname rest
  rw [seenIn_eq_iff.mpr hdetected] at hblock
  have hadded : Sends (addHeaders (sentIn hs) hostname) (addedLines (sentIn hs) hostname) :=
    sends_addHeaders hroom
  refine ⟨?_, ?_, once_unsent hone⟩
  · rw [hblock]
    exact hadded.result
  · rw [hblock, forwarded_append, (forwardHeaders_lines hvalid buf rest).2, hadded.bytes,
      headerLines_unsent]

end

/-- A client that sends a host and a connection header. -/
def twoHeaders : List HeaderLine :=
  [⟨text "Host", text "h"⟩, ⟨text "Connection", text "close"⟩]

theorem once_each_two : OnceEach [] (text "h") twoHeaders [] := by
  refine (once_each_iff ?_ [] (text "h") [] ?_).mpr ⟨⟨?_, ?_, ?_, ?_⟩, Or.inl ?_⟩
  · simp only [twoHeaders, List.forall_mem_cons]
    refine ⟨⟨?_, ?_, ?_, ?_⟩, ⟨?_, ?_, ?_, ?_⟩, by simp⟩
    all_goals simp [HeaderLine.line, HeaderLine.content, text, crlf, colon, newline, MAXLINE]
  · simp [standard, twoHeaders, HeaderLine.Is, text, tolower]
  · simp [sent, twoHeaders, HeaderLine.Is, text, tolower, hostTest, strstr, HeaderLine.line,
      HeaderLine.content, crlf]
  · simp [sent, twoHeaders, HeaderLine.Is, text, tolower, uaTest, hostTest, strstr,
      HeaderLine.line, HeaderLine.content, crlf]
  · simp [sent, twoHeaders, HeaderLine.Is, text, tolower, connTest, uaTest, hostTest, strstr,
      HeaderLine.line, HeaderLine.content, crlf]
  · simp [sent, twoHeaders, HeaderLine.Is, text, tolower]
  · simp [sent, twoHeaders, HeaderLine.Is, text, tolower]

/-- A client that sends `Proxy-Connection: close`. -/
theorem not_once_each_proxy :
    (∀ h ∈ [(⟨text "Proxy-Connection", text "close"⟩ : HeaderLine)], h.Valid) ∧
      (∀ name ∈ standard, [(⟨text "Proxy-Connection", text "close"⟩ : HeaderLine)].countP
        (HeaderLine.Is name) ≤ 1) ∧
      ¬ OnceEach [] (text "h") [⟨text "Proxy-Connection", text "close"⟩] [] := by
  have hvalid : ∀ h ∈ [(⟨text "Proxy-Connection", text "close"⟩ : HeaderLine)], h.Valid := by
    rw [List.forall_mem_singleton]
    constructor
    all_goals simp [HeaderLine.line, HeaderLine.content, text, crlf, colon, newline, MAXLINE]
  refine ⟨hvalid, by simp [standard, HeaderLine.Is, text, tolower], fun h => ?_⟩
  have hsent := (detected_of_onceEach hvalid [] _ [] h).1.proxyConn
  simp [sent, HeaderLine.Is] at hsent

end Proxy
