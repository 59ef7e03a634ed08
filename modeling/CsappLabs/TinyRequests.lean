/-
# What Tiny makes of a request

The headers are skipped up to a line that is `"\r\n"`, so `read_requesthdrs` returns exactly
when the input has such a line (`HeadersEnd`); a client that sends less and closes its end
keeps the server busy for ever.

`target` is the file that a URI names, and the arguments for a CGI program; `parse_uri` computes
it when the file name fits into its array (`parseUri_fits`, `parseUri_crash`).

`Returns` lists the ends of `doit`, and `serve_ok_iff` says when the server gets through a list
of connections, and that nothing behind the first other one is served.
-/
import CsappLabs.Tiny

open Effects Effects.Prog CString Relay
open Proxy (crlf slash BlankLine isGet)

namespace Tiny

/-! ## The headers -/

/-- The headers end: there is a blank line; or nothing was sent behind the request line, and
`buf` has a blank line from a call before. -/
def HeadersEnd (hdrs : ℕ → UInt8) (input : List UInt8) : Prop :=
  BlankLine input ∨ (input = [] ∧ stringAt MAXLINE hdrs 0 = some crlf)

/-- The loop goes on to the blank line. -/
theorem hdrsLoop_pure {fuel : ℕ} {buf input : List UInt8} (hfuel : input.length < fuel)
    (h : cstring buf = crlf ∨ BlankLine input) :
    ∃ rest, hdrsLoop fuel buf input = pure rest := by
  induction fuel generalizing buf input with
  | zero => exact absurd hfuel (Nat.not_lt_zero _)
  | succ fuel ih =>
      rw [hdrsLoop]
      by_cases hbuf : cstring buf = crlf
      · rw [if_pos hbuf]
        exact ⟨input, rfl⟩
      · have hblank := h.resolve_left hbuf
        have hne : input ≠ [] := by
          rintro rfl
          exact absurd hblank.newline_mem List.not_mem_nil
        obtain ⟨hlen, hpos⟩ := length_rioReadlineb hne
        rw [if_neg hbuf, readLine, if_neg hpos.ne']
        exact ih (by omega) ((BlankLine.piece_iff hne).mp hblank)

/-- Without one it never ends, whatever the number of rounds. -/
theorem hdrsLoop_hang {buf input : List UInt8} (hbuf : cstring buf ≠ crlf)
    (hblank : ¬ BlankLine input) (fuel : ℕ) : hdrsLoop fuel buf input = stop .hang := by
  induction fuel generalizing buf input with
  | zero => rfl
  | succ fuel ih =>
      rw [hdrsLoop, if_neg hbuf]
      by_cases hne : input = []
      · subst hne
        exact ih hbuf hblank
      · have hpos := (length_rioReadlineb hne).2
        rw [BlankLine.piece_iff hne, not_or] at hblank
        rw [readLine, if_neg hpos.ne']
        exact ih hblank.1 hblank.2

theorem readRequesthdrs_pure {hdrs : ℕ → UInt8} {input : List UInt8} (h : HeadersEnd hdrs input) :
    ∃ rest, readRequesthdrs hdrs input = pure rest := by
  rcases h with hblank | ⟨rfl, hbuf⟩
  · have hne : input ≠ [] := by
      rintro rfl
      exact absurd hblank.newline_mem List.not_mem_nil
    have hpos := (length_rioReadlineb hne).2
    rw [readRequesthdrs, if_neg hpos.ne']
    exact hdrsLoop_pure (Nat.lt_succ_self _) ((BlankLine.piece_iff hne).mp hblank)
  · have hcs : cstring crlf = crlf := Proxy.cstring_crlf
    refine ⟨[], ?_⟩
    rw [readRequesthdrs, readString, hbuf]
    show hdrsLoop 1 crlf [] = pure []
    rw [hdrsLoop, if_pos hcs]

/-- The server does not come back from the headers. -/
theorem readRequesthdrs_stop {hdrs : ℕ → UInt8} {input : List UInt8} (h : ¬ HeadersEnd hdrs input) :
    ∃ s, readRequesthdrs hdrs input = stop s := by
  rw [HeadersEnd, not_or, not_and] at h
  obtain ⟨hblank, hbuf⟩ := h
  by_cases hne : input = []
  · subst hne
    rw [readRequesthdrs]
    rcases hstring : stringAt MAXLINE hdrs 0 with _ | buf
    · exact ⟨.crash, by rw [readString, hstring]; rfl⟩
    · have hnul := (stringAt_eq_some.mp hstring).1
      have hgoes : cstring buf ≠ crlf := by
        rw [cstring_eq_self hnul]
        rintro rfl
        exact hbuf rfl hstring
      exact ⟨.hang, by rw [readString, hstring]; exact hdrsLoop_hang hgoes hblank 1⟩
  · have hpos := (length_rioReadlineb hne).2
    rw [BlankLine.piece_iff hne, not_or] at hblank
    refine ⟨.hang, ?_⟩
    rw [readRequesthdrs, if_neg hpos.ne']
    exact hdrsLoop_hang hblank.1 hblank.2 _

/-! ## The URI -/

/-- What a URI asks for: a file name, and the arguments when it is the name of a program. -/
structure Target where
  filename : List UInt8
  queryString : Option (List UInt8)
  deriving DecidableEq, Repr

/-- A URI with `cgi-bin` in it names a program, and its arguments are behind the first
question mark; another one names a file, `home.html` when it ends with a slash. -/
def target (uri : List UInt8) : Target :=
  if text "cgi-bin" <:+: uri then
    ⟨text "." ++ uri.takeWhile (· ≠ questionMark),
      some ((uri.dropWhile (· ≠ questionMark)).drop 1)⟩
  else if uri.getLast? = some slash then ⟨text "." ++ uri ++ text "home.html", none⟩
  else ⟨text "." ++ uri, none⟩

/-- `strcat`. -/
theorem strcat_fits {b : ℕ → UInt8} {t s : List UInt8} (ht : stringAt MAXLINE b 0 = some t)
    (hnul : (0 : UInt8) ∉ s) (hlen : (t ++ s).length < MAXLINE) :
    ∃ b', strcat b s = some b' ∧ stringAt MAXLINE b' 0 = some (t ++ s) := by
  obtain ⟨hnul', -, hcells, -⟩ := stringAt_eq_some.mp ht
  have hsum : t.length + s.length < MAXLINE := by rwa [List.length_append] at hlen
  refine ⟨putAt b t.length (s ++ [0]), ?_, ?_⟩
  · rw [strcat, ht]
    exact if_pos hsum
  · refine stringAt_eq_some.mpr ⟨by simp [hnul, hnul'], by simpa using hlen, fun i hi => ?_, ?_⟩
    · rw [putAt_apply]
      by_cases hi' : i < t.length
      · rw [dif_neg (by omega), hcells i hi', List.getElem_append_left hi']
      · have hj : i - t.length < s.length := by
          rw [List.length_append] at hi
          omega
        rw [dif_pos (by simp; omega)]
        simp only [Nat.zero_add]
        rw [List.getElem_append_left hj, List.getElem_append_right (by omega)]
    · rw [putAt_apply, dif_pos (by simp)]
      simp

theorem strcat_crash {b : ℕ → UInt8} {t s : List UInt8} (ht : stringAt MAXLINE b 0 = some t)
    (hlen : ¬ (t ++ s).length < MAXLINE) : strcat b s = none := by
  rw [List.length_append] at hlen
  rw [strcat, ht]
  exact if_neg hlen

/-- The name that both branches of `parse_uri` begin with. -/
theorem strcat_dot {b : ℕ → UInt8} {s : List UInt8} (hnul : (0 : UInt8) ∉ s) :
    ((text "." ++ s).length < MAXLINE → ∃ b', strcat (strcpy b (text ".")) s = some b' ∧
        stringAt MAXLINE b' 0 = some (text "." ++ s)) ∧
      (¬ (text "." ++ s).length < MAXLINE → strcat (strcpy b (text ".")) s = none) := by
  have hdot : stringAt MAXLINE (strcpy b (text ".")) 0 = some (text ".") :=
    stringAt_strcpy b (by simp [text]) (by simp [text, MAXLINE])
  exact ⟨strcat_fits hdot hnul, strcat_crash hdot⟩

/-- What `strchr` finds is where `takeWhile` stops. -/
theorem strchr_takeWhile {s : List UInt8} {c : UInt8} {i : ℕ} (h : strchr s c = some i) :
    s.takeWhile (· ≠ c) = s.take i ∧ (s.dropWhile (· ≠ c)).drop 1 = s.drop (i + 1) := by
  obtain ⟨l, r, rfl, hl, rfl⟩ := strchr_eq_some.mp h
  have hpos : ∀ d ∈ l, (decide (d ≠ c)) = true := by
    intro d hd
    apply decide_eq_true
    rintro rfl
    exact hl hd
  rw [List.takeWhile_append_of_pos hpos, List.dropWhile_append_of_pos hpos]
  constructor
  · simp
  · rw [List.dropWhile_cons_of_neg (by simp)]
    simp

/-- `parse_uri` computed the target: whether it is static, and its strings. -/
structure Parsed (t : Target) (f : Frame) (isStatic : Bool) : Prop where
  isStatic : isStatic = t.queryString.isNone
  filename : stringAt MAXLINE f.filename 0 = some t.filename
  cgiargs : ∀ q ∈ t.queryString, stringAt MAXLINE f.cgiargs 0 = some q

/-- A name that fits so far, and the last character of the URI. -/
theorem staticName_of_strcat {b b₁ : ℕ → UInt8} {uri : List UInt8} {last : UInt8}
    (h : strcat (strcpy b (text ".")) uri = some b₁) (hlast : uri.getLast? = some last) :
    staticName b uri = if last = slash then strcat b₁ (text "home.html") else some b₁ := by
  rw [staticName, h, hlast]
  rfl

/-- The target of a URI without `cgi-bin`. -/
theorem target_static {uri : List UInt8} (hstatic : ¬ text "cgi-bin" <:+: uri) {last : UInt8}
    (hlast : uri.getLast? = some last) :
    target uri = ⟨text "." ++ uri ++ (if last = slash then text "home.html" else []), none⟩ := by
  rw [target, if_neg hstatic, hlast]
  by_cases hslash : last = slash
  · rw [if_pos (congrArg some hslash), if_pos hslash]
  · rw [if_neg (fun h => hslash (Option.some.inj h)), if_neg hslash, List.append_nil]

/-- The name of a file. -/
theorem staticName_eq (b : ℕ → UInt8) {uri : List UInt8} (hnul : (0 : UInt8) ∉ uri)
    (hstatic : ¬ text "cgi-bin" <:+: uri) {last : UInt8} (hlast : uri.getLast? = some last) :
    ((target uri).filename.length < MAXLINE → ∃ b', staticName b uri = some b' ∧
        stringAt MAXLINE b' 0 = some (target uri).filename) ∧
      (¬ (target uri).filename.length < MAXLINE → staticName b uri = none) := by
  obtain ⟨hfits, hcrash⟩ := strcat_dot (b := b) hnul
  have hhome : (0 : UInt8) ∉ text "home.html" := by simp [text]
  rw [target_static hstatic hlast]
  simp only
  by_cases hshort : (text "." ++ uri).length < MAXLINE
  · obtain ⟨b₁, hb₁, hstring⟩ := hfits hshort
    rw [staticName_of_strcat hb₁ hlast]
    by_cases hslash : last = slash
    · rw [if_pos hslash, if_pos hslash]
      exact ⟨strcat_fits hstring hhome, strcat_crash hstring⟩
    · rw [if_neg hslash, if_neg hslash, List.append_nil]
      exact ⟨fun _ => ⟨b₁, rfl, hstring⟩, fun hlong => absurd hshort hlong⟩
  · have hnone : staticName b uri = none := by
      rw [staticName, hcrash hshort]
      rfl
    refine ⟨fun hlen => absurd ?_ hshort, fun _ => hnone⟩
    exact lt_of_le_of_lt (List.sublist_append_left _ _).length_le hlen

/-- The arguments of a program, and what is left of the URI. -/
theorem splitArgs_eq {f : Frame} {uri : List UInt8} (huri : stringAt MAXLINE f.uri 0 = some uri) :
    stringAt MAXLINE (splitArgs f uri).uri 0 = some (uri.takeWhile (· ≠ questionMark)) ∧
      stringAt MAXLINE (splitArgs f uri).cgiargs 0 =
        some ((uri.dropWhile (· ≠ questionMark)).drop 1) := by
  obtain ⟨hnul, hlen, -, -⟩ := stringAt_eq_some.mp huri
  rcases hmark : strchr uri questionMark with _ | i
  · have hsplit : splitArgs f uri = { f with cgiargs := strcpy f.cgiargs [] } := by
      rw [splitArgs, hmark]
    have hall : ∀ c ∈ uri, (decide (c ≠ questionMark)) = true := by
      intro c hc
      apply decide_eq_true
      rintro rfl
      exact strchr_eq_none.mp hmark hc
    rw [hsplit, List.takeWhile_eq_self_iff.mpr hall, List.dropWhile_eq_nil_iff.mpr hall]
    exact ⟨huri, stringAt_strcpy f.cgiargs List.not_mem_nil (by decide)⟩
  · obtain ⟨htake, hdrop⟩ := strchr_takeWhile hmark
    have hsplit : splitArgs f uri = { f with
        cgiargs := strcpy f.cgiargs (uri.drop (i + 1))
        uri := Function.update f.uri i 0 } := by
      rw [splitArgs, hmark]
    rw [hsplit, htake, hdrop]
    constructor
    · obtain ⟨l, r, rfl, -, rfl⟩ := strchr_eq_some.mp hmark
      have hcut := stringAt_cut huri
      rw [Nat.zero_add] at hcut
      rw [List.take_left' rfl]
      exact hcut
    · refine stringAt_strcpy f.cgiargs (fun h => hnul (List.mem_of_mem_drop h)) ?_
      rw [List.length_drop]
      omega

theorem isNone_strstr {s needle : List UInt8} (h : ¬ needle <:+: s) :
    (strstr s needle).isNone = true := by
  rw [← strstr_isSome, Bool.not_eq_true, Option.isSome_eq_false_iff] at h
  exact h

section

variable {f : Frame} {uri : List UInt8}

/-- The static branch. -/
theorem parseUri_static (huri : stringAt MAXLINE f.uri 0 = some uri)
    (hstatic : ¬ text "cgi-bin" <:+: uri) :
    parseUri f = (staticName f.filename uri).map fun filename =>
      ({ f with cgiargs := strcpy f.cgiargs [], filename := filename }, true) := by
  rw [parseUri, huri]
  show (if (strstr uri (text "cgi-bin")).isNone then _ else _) = _
  rw [if_pos (isNone_strstr hstatic)]
  cases staticName f.filename uri <;> rfl

/-- The dynamic branch. -/
theorem parseUri_dynamic (huri : stringAt MAXLINE f.uri 0 = some uri)
    (hdynamic : text "cgi-bin" <:+: uri) :
    parseUri f = (strcat (strcpy (splitArgs f uri).filename (text "."))
      (uri.takeWhile (· ≠ questionMark))).map fun filename =>
        ({ splitArgs f uri with filename := filename }, false) := by
  have hsome : ¬ (strstr uri (text "cgi-bin")).isNone = true := by
    rw [Option.isNone_iff_eq_none, ← Ne, Option.ne_none_iff_isSome, strstr_isSome]
    exact hdynamic
  rw [parseUri, huri]
  show (if (strstr uri (text "cgi-bin")).isNone then _ else _) = _
  rw [if_neg hsome, (splitArgs_eq huri).1]
  show (strcat (strcpy (splitArgs f uri).filename (text ".")) _ >>= _) = _
  cases strcat (strcpy (splitArgs f uri).filename (text ".")) (uri.takeWhile (· ≠ questionMark)) <;>
    rfl

/-- The target of a URI with `cgi-bin`. -/
theorem target_dynamic (hdynamic : text "cgi-bin" <:+: uri) :
    target uri = ⟨text "." ++ uri.takeWhile (· ≠ questionMark),
      some ((uri.dropWhile (· ≠ questionMark)).drop 1)⟩ := if_pos hdynamic

/-- **`parse_uri` computes the target** of a URI, when its file name fits. -/
theorem parseUri_fits (huri : stringAt MAXLINE f.uri 0 = some uri) (hne : uri ≠ [])
    (hlen : (target uri).filename.length < MAXLINE) :
    ∃ f' isStatic, parseUri f = some (f', isStatic) ∧ Parsed (target uri) f' isStatic := by
  by_cases hdynamic : text "cgi-bin" <:+: uri
  · obtain ⟨hcut, hargs⟩ := splitArgs_eq huri
    rw [target_dynamic hdynamic] at hlen ⊢
    have hnul : (0 : UInt8) ∉ uri.takeWhile (· ≠ questionMark) := (stringAt_eq_some.mp hcut).1
    obtain ⟨b', hb', hstring⟩ := (strcat_dot (b := (splitArgs f uri).filename) hnul).1 hlen
    rw [parseUri_dynamic huri hdynamic, hb']
    refine ⟨{ splitArgs f uri with filename := b' }, false, rfl, rfl, hstring, fun q hq => ?_⟩
    obtain rfl := Option.mem_some_iff.mp hq
    exact hargs
  · obtain ⟨last, hlast⟩ := Option.isSome_iff_exists.mp (List.getLast?_isSome.mpr hne)
    have hnul := (stringAt_eq_some.mp huri).1
    obtain ⟨b', hb', hstring⟩ := (staticName_eq f.filename hnul hdynamic hlast).1 hlen
    rw [parseUri_static huri hdynamic, hb']
    rw [target_static hdynamic hlast] at hstring ⊢
    exact ⟨_, true, rfl, rfl, hstring, by simp⟩

/-- It reads or writes outside of an array when the URI is empty, or the file name does not
fit. -/
theorem parseUri_crash (huri : stringAt MAXLINE f.uri 0 = some uri)
    (h : ¬ (uri ≠ [] ∧ (target uri).filename.length < MAXLINE)) : parseUri f = none := by
  by_cases hdynamic : text "cgi-bin" <:+: uri
  · have hne : uri ≠ [] := by
      rintro rfl
      rw [List.infix_nil] at hdynamic
      simp [text] at hdynamic
    have hlen : ¬ (target uri).filename.length < MAXLINE := fun hlen => h ⟨hne, hlen⟩
    rw [target_dynamic hdynamic] at hlen
    have hnul : (0 : UInt8) ∉ uri.takeWhile (· ≠ questionMark) :=
      (stringAt_eq_some.mp (splitArgs_eq huri).1).1
    rw [parseUri_dynamic huri hdynamic, (strcat_dot hnul).2 hlen]
    rfl
  · rw [parseUri_static huri hdynamic]
    rcases hlast : uri.getLast? with _ | last
    · rw [staticName, hlast]
      cases strcat (strcpy f.filename (text ".")) uri <;> rfl
    · have hne : uri ≠ [] := by
        rintro rfl
        cases hlast
      have hnul := (stringAt_eq_some.mp huri).1
      rw [(staticName_eq f.filename hnul hdynamic hlast).2 fun hlen => h ⟨hne, hlen⟩]
      rfl

end

/-! ## The answer -/

/-- The line of an error page that names its cause fits into `buf`. -/
def PageFits (longmsg cause : List UInt8) : Prop := longmsg.length + cause.length + 7 < MAXLINE

/-- What `send` does before something else. -/
theorem result_send_bind {s : List UInt8} (hs : s.length < MAXLINE) (f : Unit → Run Unit) :
    (send s >>= f).result = (f ()).result := by
  rw [send, if_pos hs]
  rfl

theorem result_send_crash {s : List UInt8} (hs : ¬ s.length < MAXLINE) (f : Unit → Run Unit) :
    (send s >>= f).result = .error .crash := by
  rw [send, if_neg hs]
  rfl

/-- When an error page is sent. -/
theorem clienterror_ok_iff {cause errnum shortmsg longmsg : List UInt8}
    (hshort : errnum.length + shortmsg.length < 100) :
    (clienterror cause errnum shortmsg longmsg).result = .ok () ↔ PageFits longmsg cause := by
  have hstatus : (text "HTTP/1.0 " ++ errnum ++ text " " ++ shortmsg ++ text "\r\n").length <
      MAXLINE := by
    simp [text, MAXLINE]
    omega
  have htitle : (errnum ++ text ": " ++ shortmsg ++ text "\r\n").length < MAXLINE := by
    simp [text, MAXLINE]
    omega
  have hlen : (text "<p>" ++ longmsg ++ text ": " ++ cause ++ text "\r\n").length =
      longmsg.length + cause.length + 7 := by
    simp [text]
    omega
  rw [clienterror, result_send_bind hstatus, result_send_bind (by simp [text, MAXLINE]),
    result_send_bind (by simp [text, MAXLINE]), result_send_bind (by simp [text, MAXLINE]),
    result_send_bind htitle, PageFits, ← hlen]
  by_cases hfits : (text "<p>" ++ longmsg ++ text ": " ++ cause ++ text "\r\n").length < MAXLINE
  · rw [result_send_bind hfits, send, if_pos (by simp [text, MAXLINE])]
    exact iff_of_true rfl hfits
  · rw [result_send_crash hfits]
    exact iff_of_false (by simp) hfits

/-- The mode of the file allows what the target asks for. -/
def File.Allows (file : File) (t : Target) : Prop :=
  file.isReg = true ∧ (if t.queryString.isNone then file.canRead else file.canExecute) = true

/-- The message when it does not. -/
def refusal (t : Target) : List UInt8 :=
  if t.queryString.isNone then text "Tiny couldn't read the file"
  else text "Tiny couldn't run the CGI program"

/-- The request for a target is answered: with an error page that fits, by a program, or with a
file that can be opened and mapped. -/
def Answered (files : Files) (t : Target) : Prop :=
  match files t.filename with
  | none => PageFits (text "Tiny couldn't find this file") t.filename
  | some file =>
      (file.Allows t → t.queryString = none → file.opens = true ∧ 0 < filesize file) ∧
        (¬ file.Allows t → PageFits (refusal t) t.filename)

theorem length_getFiletype (filename : List UInt8) : (getFiletype filename).length ≤ 10 := by
  unfold getFiletype
  split_ifs <;> simp [text]

/-- The parameter is an `int`. -/
theorem natAbs_filesize (file : File) : (filesize file).natAbs ≤ 2147483648 := by
  have hlow : -(((2 ^ 32 : ℕ) : ℤ) / 2) ≤ filesize file := Int.le_bmod (by norm_num)
  have hhigh : filesize file < (((2 ^ 32 : ℕ) : ℤ) + 1) / 2 := Int.bmod_lt (by norm_num)
  norm_num at hlow hhigh
  omega

/-- The number in `Content-length` is short. -/
theorem length_filesize (file : File) : (Radix.signed 10 (filesize file)).length ≤ 10 + 1 := by
  have hpow : (2147483648 : ℕ) < 10 ^ 10 := by norm_num
  exact Radix.length_signed_le (by norm_num) (by norm_num) ((natAbs_filesize file).trans_lt hpow)

/-- The header lines fit into `buf`. -/
theorem length_headerLine (name : List UInt8) {value : List UInt8} (hname : name.length ≤ 16)
    (hvalue : value.length ≤ 10 + 1) : (name ++ value ++ crlf ++ crlf).length < MAXLINE ∧
      (name ++ value ++ crlf).length < MAXLINE := by
  have hcrlf : crlf.length = 2 := by rw [Proxy.crlf_eq]; rfl
  have hmax : 31 < MAXLINE := by decide
  simp only [List.length_append, hcrlf]
  omega

/-- What `serve_static` sends before the file. -/
theorem serveStatic_eq (filename : List UInt8) (file : File) :
    serveStatic filename file = (do
      record [.reply (text "HTTP/1.0 200 OK\r\n"), .reply (text "Server: Tiny Web Server\r\n"),
        .reply (text "Content-length: " ++ Radix.signed 10 (filesize file) ++ crlf),
        .reply (text "Content-type: " ++ getFiletype filename ++ crlf ++ crlf)]
      if file.opens then
        let srcp ← require .exit (mmap file)
        emit (.reply srcp)
      else stop .exit) := by
  have hsize := length_filesize file
  have htype := length_getFiletype filename
  have hlength := (length_headerLine (text "Content-length: ") (by simp [text]) hsize).2
  have hkind := (length_headerLine (text "Content-type: ") (by simp [text])
    (htype.trans (Nat.le_succ 10))).1
  rw [serveStatic, send, if_pos (by simp [text, MAXLINE]), send, if_pos (by simp [text, MAXLINE]),
    send, if_pos hlength, send, if_pos hkind]
  rfl

/-- A file is sent when it can be opened and mapped. -/
theorem serveStatic_ok_iff (filename : List UInt8) (file : File) :
    (serveStatic filename file).result = .ok () ↔ file.opens = true ∧ 0 < filesize file := by
  rw [serveStatic_eq, record_bind]
  by_cases hopens : file.opens = true
  · rw [if_pos hopens, mmap]
    split_ifs with hsize
    · exact iff_of_true rfl ⟨hopens, hsize⟩
    · exact iff_of_false (by intro h; cases h) fun h => hsize h.2
  · rw [if_neg hopens]
    exact iff_of_false (by intro h; cases h) fun h => hopens h.1

theorem serveDynamic_ok (filename cgiargs : List UInt8) :
    (serveDynamic filename cgiargs).result = .ok () := by
  rw [serveDynamic, result_send_bind (by simp [text, MAXLINE]),
    result_send_bind (by simp [text, MAXLINE])]
  rfl

section

variable {files : Files} {f : Frame} {t : Target} {isStatic : Bool}

/-- The answer, for the file that `stat` finds. -/
theorem Parsed.respond (h : Parsed t f isStatic) :
    respond files f isStatic = (match files t.filename with
      | none => clienterror t.filename (text "404") (text "Not found")
          (text "Tiny couldn't find this file")
      | some file =>
          if isStatic then
            if file.isReg ∧ file.canRead then serveStatic t.filename file
            else clienterror t.filename (text "403") (text "Forbidden")
              (text "Tiny couldn't read the file")
          else if file.isReg ∧ file.canExecute then do
            let cgiargs ← readString f.cgiargs
            serveDynamic t.filename cgiargs
          else clienterror t.filename (text "403") (text "Forbidden")
            (text "Tiny couldn't run the CGI program")) := by
  rw [Tiny.respond, readString, h.filename]
  rfl

/-- What the mode allows, for the kind of content. -/
theorem Parsed.allows (h : Parsed t f isStatic) (file : File) :
    file.Allows t ↔
      if isStatic then file.isReg ∧ file.canRead else file.isReg ∧ file.canExecute := by
  rw [File.Allows, ← h.isStatic]
  cases isStatic <;> rfl

/-- **When the answer returns.** -/
theorem Parsed.respond_ok_iff (h : Parsed t f isStatic) :
    (Tiny.respond files f isStatic).result = .ok () ↔ Answered files t := by
  have hnotFound : (text "404").length + (text "Not found").length < 100 := by simp [text]
  have hforbidden : (text "403").length + (text "Forbidden").length < 100 := by simp [text]
  have hstatic := h.isStatic
  have hallows := h.allows
  rw [h.respond, Answered]
  rcases files t.filename with _ | file
  · exact clienterror_ok_iff hnotFound
  · simp only [hallows]
    cases isStatic with
    | true =>
        have hnone : t.queryString = none := Option.isNone_iff_eq_none.mp hstatic.symm
        have hrefusal : refusal t = text "Tiny couldn't read the file" := if_pos hstatic.symm
        simp only [if_true, hnone, hrefusal, true_implies]
        by_cases hmode : file.isReg = true ∧ file.canRead = true
        · rw [if_pos hmode, serveStatic_ok_iff]
          exact ⟨fun hsent => ⟨fun _ => hsent, fun hnot => absurd hmode hnot⟩, fun hans => hans.1 hmode⟩
        · rw [if_neg hmode, clienterror_ok_iff hforbidden]
          exact ⟨fun hfits => ⟨fun hmode' => absurd hmode' hmode, fun _ => hfits⟩,
            fun hans => hans.2 hmode⟩
    | false =>
        have hsome : t.queryString.isNone = false := hstatic.symm
        obtain ⟨q, hq⟩ := Option.isSome_iff_exists.mp (Option.isNone_eq_false_iff.mp hsome)
        have hrefusal : refusal t = text "Tiny couldn't run the CGI program" :=
          if_neg (by rw [hsome]; decide)
        simp only [Bool.false_eq_true, if_false, hq, reduceCtorEq, false_implies, implies_true,
          true_and, hrefusal]
        by_cases hmode : file.isReg = true ∧ file.canExecute = true
        · rw [if_pos hmode, readString, h.cgiargs q hq]
          exact iff_of_true (serveDynamic_ok _ _) fun hnot => absurd hmode hnot
        · rw [if_neg hmode, clienterror_ok_iff hforbidden]
          exact ⟨fun hfits _ => hfits, fun hans => hans hmode⟩

end

/-! ## The transaction -/

/-- The stack after `sscanf`. -/
def scanned (f : Frame) (input : List UInt8) : Frame :=
  scanRequest f (rioReadlineb MAXLINE input).1

/-- What is behind the request line. -/
def behind (input : List UInt8) : List UInt8 := (rioReadlineb MAXLINE input).2

/-- The request is for this URI: the method is `GET`, and the headers end.  The arrays may hold
words of an earlier request where this one has none. -/
structure Asks (f : Frame) (input uri : List UInt8) : Prop where
  ne : input ≠ []
  method : strcasecmp (scanned f input).method 0 (text "GET") = true
  headers : HeadersEnd f.hdrs (behind input)
  uri : stringAt MAXLINE (scanned f input).uri 0 = some uri

/-- A URI that `parse_uri` can handle: it is not empty, and its file name fits. -/
def Fits (uri : List UInt8) : Prop := uri ≠ [] ∧ (target uri).filename.length < MAXLINE

/-- The request is for another method, and the page that says so fits. -/
def Refused (f : Frame) (input : List UInt8) : Prop :=
  strcasecmp (scanned f input).method 0 (text "GET") = false ∧
    ∃ m, stringAt MAXLINE (scanned f input).method 0 = some m ∧
      PageFits (text "Tiny does not implement this method") m

/-- **When `doit` returns**: the client sends nothing, a request with another method, or one
for a URI that is answered. -/
inductive Returns (files : Files) (f : Frame) (input : List UInt8) : Prop
  | eof : input = [] → Returns files f input
  | refused : input ≠ [] → Refused f input → Returns files f input
  | answered {uri : List UInt8} : Asks f input uri → Fits uri → Answered files (target uri) →
      Returns files f input

section

variable {files : Files} {f : Frame} {input uri : List UInt8}

@[simp] theorem scanned_hdrs (f : Frame) (input : List UInt8) : (scanned f input).hdrs = f.hdrs := by
  unfold scanned scanRequest
  split <;> rfl

/-- A client that sends something. -/
theorem doit_eq (hne : input ≠ []) :
    doit files f input = (
      if strcasecmp (scanned f input).method 0 (text "GET") then do
        let _ ← readRequesthdrs f.hdrs (behind input)
        let (g, isStatic) ← require .crash (parseUri (scanned f input))
        respond files g isStatic
      else do
        let method ← readString (scanned f input).method
        clienterror method (text "501") (text "Not Implemented")
          (text "Tiny does not implement this method")) := by
  have hpos := (length_rioReadlineb hne).2
  have hhdrs := scanned_hdrs f input
  rw [doit, if_neg hpos.ne', ← hhdrs]
  rfl

/-- **A request for a URI** is answered when the URI can be handled. -/
theorem Asks.doit (files : Files) (h : Asks f input uri) (hfits : Fits uri) :
    ∃ g isStatic, Parsed (target uri) g isStatic ∧
      Tiny.doit files f input = respond files g isStatic := by
  obtain ⟨g, isStatic, hparse, hparsed⟩ := parseUri_fits h.uri hfits.1 hfits.2
  obtain ⟨rest, hrest⟩ := readRequesthdrs_pure h.headers
  refine ⟨g, isStatic, hparsed, ?_⟩
  rw [doit_eq h.ne, if_pos h.method, hrest, hparse]
  rfl

/-- Another one makes the server crash. -/
theorem Asks.doit_crash (h : Asks f input uri) (hfits : ¬ Fits uri) :
    Tiny.doit files f input = stop .crash := by
  obtain ⟨rest, hrest⟩ := readRequesthdrs_pure h.headers
  rw [doit_eq h.ne, if_pos h.method, hrest, parseUri_crash h.uri hfits]
  rfl

/-- A request for another method. -/
theorem doit_refused_iff (hne : input ≠ [])
    (hget : strcasecmp (scanned f input).method 0 (text "GET") = false) :
    (doit files f input).result = .ok () ↔ Refused f input := by
  have hshort : (text "501").length + (text "Not Implemented").length < 100 := by simp [text]
  rw [doit_eq hne, if_neg (by rw [hget]; decide), readString, Refused, and_iff_right hget]
  rcases stringAt MAXLINE (scanned f input).method 0 with _ | m
  · refine iff_of_false (by intro h; cases h) ?_
    rintro ⟨m, hm, -⟩
    cases hm
  · show (clienterror m _ _ _).result = .ok () ↔ _
    rw [clienterror_ok_iff hshort]
    constructor
    · exact fun hfits => ⟨m, rfl, hfits⟩
    · rintro ⟨m', hm', hfits⟩
      obtain rfl := Option.some.inj hm'
      exact hfits

/-- A `GET`. -/
theorem doit_get_iff (hne : input ≠ [])
    (hget : strcasecmp (scanned f input).method 0 (text "GET") = true) :
    (doit files f input).result = .ok () ↔
      ∃ uri, Asks f input uri ∧ Fits uri ∧ Answered files (target uri) := by
  constructor
  · intro hok
    by_cases hheaders : HeadersEnd f.hdrs (behind input)
    · rcases huri : stringAt MAXLINE (scanned f input).uri 0 with _ | uri
      · -- the URI has no end, which `parse_uri` runs past
        obtain ⟨rest, hrest⟩ := readRequesthdrs_pure hheaders
        have hcrash : parseUri (scanned f input) = none := by
          rw [parseUri, huri]
          rfl
        rw [doit_eq hne, if_pos hget, hrest, hcrash] at hok
        cases hok
      · have hasks : Asks f input uri := ⟨hne, hget, hheaders, huri⟩
        by_cases hfits : Fits uri
        · obtain ⟨g, isStatic, hparsed, heq⟩ := hasks.doit files hfits
          rw [heq, hparsed.respond_ok_iff] at hok
          exact ⟨uri, hasks, hfits, hok⟩
        · rw [hasks.doit_crash hfits] at hok
          cases hok
    · obtain ⟨s, hs⟩ := readRequesthdrs_stop hheaders
      rw [doit_eq hne, if_pos hget, hs] at hok
      cases hok
  · rintro ⟨uri, hasks, hfits, hans⟩
    obtain ⟨g, isStatic, hparsed, heq⟩ := hasks.doit files hfits
    rw [heq]
    exact hparsed.respond_ok_iff.mpr hans

/-- **When a connection is served.** -/
theorem doit_ok_iff : (doit files f input).result = .ok () ↔ Returns files f input := by
  by_cases hne : input = []
  · subst hne
    exact iff_of_true rfl (.eof rfl)
  · cases hget : strcasecmp (scanned f input).method 0 (text "GET") with
    | false =>
        rw [doit_refused_iff hne hget]
        refine ⟨.refused hne, fun h => ?_⟩
        cases h with
        | eof heof => exact absurd heof hne
        | refused _ href => exact href
        | answered hasks => exact absurd (hget.symm.trans hasks.method) Bool.false_ne_true
    | true =>
        rw [doit_get_iff hne hget]
        constructor
        · rintro ⟨uri, hasks, hfits, hans⟩
          exact .answered hasks hfits hans
        · intro h
          cases h with
          | eof heof => exact absurd heof hne
          | refused _ href => exact absurd (href.1.symm.trans hget) Bool.false_ne_true
          | answered hasks hfits hans => exact ⟨_, hasks, hfits, hans⟩

end

/-- The server gets through its connections when each of them is one that returns. -/
theorem serve_returns (cs : List Connection) :
    (serve cs).result = .ok () ↔ ∀ c ∈ cs, Returns c.files c.frame c.input := by
  induction cs with
  | nil => exact iff_of_true rfl (by simp)
  | cons c cs ih =>
      rw [List.forall_mem_cons, ← ih, ← doit_ok_iff, serve]
      constructor
      · intro h
        obtain ⟨u, hdoit, hserve, -⟩ := bind_eq_ok h
        exact ⟨hdoit, hserve⟩
      · rintro ⟨hdoit, hserve⟩
        rw [bind_of_ok hdoit]
        exact hserve

/-- What comes behind a connection that does not return is not served. -/
theorem serve_cut {c : Connection} (h : ¬ Returns c.files c.frame c.input)
    (before after : List Connection) :
    serve (before ++ c :: after) = serve (before ++ [c]) := by
  induction before with
  | nil =>
      rw [List.nil_append, List.nil_append, serve, serve]
      cases hdoit : (doit c.files c.frame c.input).result with
      | ok u => exact absurd (doit_ok_iff.mp hdoit) h
      | error s => rw [bind_of_error hdoit, bind_of_error hdoit]
  | cons b before ih =>
      rw [List.cons_append, List.cons_append, serve, serve]
      congr 1
      funext u
      exact ih

/-- **When the server gets through its connections**: each of them is one that returns.  What
comes behind the first other one is not served. -/
theorem serve_ok_iff (cs : List Connection) :
    ((serve cs).result = .ok () ↔ ∀ c ∈ cs, Returns c.files c.frame c.input) ∧
    ∀ before c after, cs = before ++ c :: after → ¬ Returns c.files c.frame c.input →
      serve cs = serve (before ++ [c]) := by
  refine ⟨serve_returns cs, ?_⟩
  rintro before c after rfl hnot
  exact serve_cut hnot before after

end Tiny
