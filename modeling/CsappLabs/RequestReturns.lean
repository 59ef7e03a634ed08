/-
# When a request is sent

`headerLoop` sends the lines of the client up to the blank line, when there is one, and never
ends otherwise; `addHeaders` crashes when the name of the host does not fit.  So a request is
sent when it is accepted, the connection is made and its lines fit (`takes_forwardRequest`).
The writes are counted: they are the calls that may fail.
-/
import CsappLabs.DoitFaults

open Effects Effects.Prog CString Relay WhileLoop

namespace Proxy

/-! ## The header loop, piece by piece -/

/-- The pieces before the one that is `"\r\n"`. -/
def headerPieces (input : List UInt8) : List (List UInt8) :=
  (readlines input.length input).takeWhile fun piece => cstring piece ≠ crlf

/-- What the loop has seen of them. -/
def seenAfter (input : List UInt8) : Seen :=
  (headerPieces input).foldl (fun seen piece => seen.note (cstring piece))
    ⟨false, false, false, false⟩

/-- The events of the loop, from a read on. -/
theorem headerLoop_pieces {fuel k : ℕ} {s : HeaderState} (hfuel : s.input.length ≤ fuel)
    (hblank : BlankLine s.input) (hk : s.read.input.length < k) :
    headerLoop k s.seen s.read.buf s.read.input =
      ⟨((readlines fuel s.input).takeWhile fun piece => cstring piece ≠ crlf).map
          fun piece => .forward (cstring piece),
        .ok (((readlines fuel s.input).takeWhile fun piece => cstring piece ≠ crlf).foldl
          (fun seen piece => seen.note (cstring piece)) s.seen)⟩ := by
  induction fuel generalizing s k with
  | zero =>
      rw [List.eq_nil_of_length_eq_zero (Nat.le_zero.mp hfuel)] at hblank
      exact absurd hblank.newline_mem List.not_mem_nil
  | succ fuel ih =>
      have hne : s.input ≠ [] := fun h => by
        rw [h] at hblank
        exact absurd hblank.newline_mem List.not_mem_nil
      obtain ⟨k, rfl⟩ : ∃ k', k = k' + 1 := ⟨k - 1, by omega⟩
      obtain ⟨hsum, hpos⟩ := length_rioReadlineb hne
      have hread := read_of_piece (s := s) Prod.mk.eta.symm (List.ne_nil_of_length_pos hpos)
      have hpieces : readlines (fuel + 1) s.input = (rioReadlineb MAXLINE s.input).1 ::
          readlines fuel (rioReadlineb MAXLINE s.input).2 := by
        rw [readlines]
        exact if_neg hpos.ne'
      rw [hread] at hk ⊢
      rw [hpieces, headerLoop]
      by_cases hexit : cstring (rioReadlineb MAXLINE s.input).1 = crlf
      · simp only [if_pos hexit]
        rw [List.takeWhile_cons_of_neg (by simp [hexit])]
        rfl
      · simp only [if_neg hexit]
        rw [List.takeWhile_cons_of_pos (by simp [hexit])]
        have hrest := ((BlankLine.piece_iff hne).mp hblank).resolve_left hexit
        have hne' : (rioReadlineb MAXLINE s.input).2 ≠ [] := fun h => by
          rw [h] at hrest
          exact absurd hrest.newline_mem List.not_mem_nil
        let s' : HeaderState := ⟨s.seen.note (cstring (rioReadlineb MAXLINE s.input).1),
          (rioReadlineb MAXLINE s.input).1, (rioReadlineb MAXLINE s.input).2, []⟩
        have hlt : s'.read.input.length < k := by
          have hlen := length_read (s := s') hne'
          have hinput : s'.input = (rioReadlineb MAXLINE s.input).2 := rfl
          rw [hinput] at hlen
          simp only at hk
          omega
        have hloop := ih (s := s') (show (rioReadlineb MAXLINE s.input).2.length ≤ fuel by omega)
          hrest hlt
        exact congrArg (fun x => emit (.forward (cstring (rioReadlineb MAXLINE s.input).1)) >>=
          fun _ => x) hloop

/-- **What the loop sends and has seen**, when there is a blank line. -/
theorem forwardHeaders_of_blankLine {input : List UInt8} (hblank : BlankLine input)
    (buf : List UInt8) :
    forwardHeaders buf input =
      ⟨(headerPieces input).map fun piece => .forward (cstring piece), .ok (seenAfter input)⟩ :=
  headerLoop_pieces (s := headerInit buf input) le_rfl hblank (Nat.lt_succ_self _)

namespace Faults

/-- A stream with a blank line does not fail before its end. -/
theorem not_short_of_blankLine {s : Stream} (h : BlankLine s.bytes) : ¬ s.Short :=
  fun hs => hs.2.1 h.newline_mem

/-- The loop ends before the stream does. -/
theorem headerLoop_of_ends {s s' : HeaderState} (h : HeaderEnds s s') (fuel : ℕ) (fails : Bool) :
    headerLoop fuel s.seen s.buf ⟨s.input, fails⟩ = Proxy.headerLoop fuel s.seen s.buf s.input := by
  induction h generalizing fuel with
  | @exit s hexit =>
      cases fuel with
      | zero => rfl
      | succ fuel =>
          rw [headerLoop, Proxy.headerLoop, if_pos (not_not.mp hexit), if_pos (not_not.mp hexit)]
  | @body s s' hgoes hends ih =>
      cases fuel with
      | zero => rfl
      | succ fuel =>
          have hblank : BlankLine s.input := (read_ends_iff (s := s.send) hgoes).mp ⟨s', hends⟩
          have hshort := not_short_of_blankLine (s := ⟨s.input, fails⟩) hblank
          rw [headerLoop, Proxy.headerLoop, if_neg hgoes, if_neg hgoes, readLine_eq s.buf hshort]
          exact congrArg (fun x => emit (.forward (cstring s.buf)) >>= fun _ => x) (ih fuel)

/-- The loop does not end. -/
theorem headerLoop_of_not_ends {s : HeaderState} (h : ∀ s', ¬ HeaderEnds s s') (fuel : ℕ)
    (fails : Bool) (seen : Seen) :
    (headerLoop fuel s.seen s.buf ⟨s.input, fails⟩).result ≠ .ok seen := by
  induction fuel generalizing s with
  | zero =>
      intro h
      cases h
  | succ fuel ih =>
      have hgoes : s.Goes := by
        by_contra hexit
        exact h s (.exit hexit)
      rw [headerLoop, if_neg hgoes, result_emit_bind]
      by_cases hshort : (⟨s.input, fails⟩ : Stream).Short
      · rw [readLine, RioReadlineb, Stream.rioReadlineb_of_short hshort]
        intro h
        cases h
      · rw [readLine_eq s.buf hshort]
        exact ih (s := headerBody s) fun s' hends => h s' (.body hgoes hends)

end Faults

/-! ## Calls that write -/

/-- A program that returns after `n` writes. -/
abbrev Takes {α : Type} (x : Run α) (a : α) (n : ℕ) : Prop := Prog.Takes Event.isWrite x a n

/-- The writes of the header loop. -/
def headerWrites (input : List UInt8) : ℕ :=
  (headerPieces input).countP fun piece => cstring piece ≠ []

namespace Faults

theorem takes_forwardHeaders {buf : List UInt8} (hbuf : cstring buf ≠ crlf) {s : Stream}
    {seen : Seen} {n : ℕ} :
    Takes (forwardHeaders buf s) seen n ↔
      BlankLine s.bytes ∧ seen = seenAfter s.bytes ∧ n = headerWrites s.bytes := by
  have hiff := read_ends_iff (s := headerInit buf s.bytes) hbuf
  by_cases hblank : BlankLine s.bytes
  · obtain ⟨s', hends⟩ := hiff.mpr hblank
    have heq : forwardHeaders buf s = Proxy.forwardHeaders buf s.bytes := by
      rw [forwardHeaders, readLine_eq buf (not_short_of_blankLine hblank)]
      exact headerLoop_of_ends hends _ s.fails
    have hcount : ((headerPieces s.bytes).map fun piece =>
        Event.forward (cstring piece)).countP Event.isWrite = headerWrites s.bytes := by
      rw [List.countP_map]
      rfl
    rw [heq, forwardHeaders_of_blankLine hblank]
    constructor
    · rintro ⟨hresult, rfl⟩
      exact ⟨hblank, (Except.ok.inj hresult).symm, hcount⟩
    · rintro ⟨-, rfl, rfl⟩
      exact ⟨rfl, hcount⟩
  · refine iff_of_false (fun h => ?_) fun h => hblank h.1
    have hresult := h.result
    by_cases hshort : s.Short
    · rw [forwardHeaders, readLine, RioReadlineb, Stream.rioReadlineb_of_short hshort] at hresult
      cases hresult
    · rw [forwardHeaders, readLine_eq buf hshort] at hresult
      refine headerLoop_of_not_ends (s := (headerInit buf s.bytes).read) (fun s' hends => ?_) _
        s.fails seen hresult
      exact hblank (hiff.mp ⟨s', hends⟩)

end Faults

/-- An error page is seven writes. -/
theorem takes_clienterror {cause errnum shortmsg longmsg : List UInt8} {u : Unit} {n : ℕ} :
    Takes (clienterror cause errnum shortmsg longmsg) u n ↔ n = 7 := by
  have hcount : (clienterror cause errnum shortmsg longmsg).events.countP Event.isWrite = 7 := by
    simp [clienterror, Event.isWrite, text]
  constructor
  · rintro ⟨-, rfl⟩
    exact hcount
  · rintro rfl
    exact ⟨rfl, hcount⟩

/-- The lines that the proxy adds. -/
def addedCount (seen : Seen) : ℕ :=
  (!seen.host).toNat + ((!seen.ua).toNat + ((!seen.conn).toNat + (!seen.proxyConn).toNat))

/-- A write, and what follows it. -/
theorem takes_write {e : Event} (he : e.isWrite = true) {α : Type} {x : Run α} {a : α} {n : ℕ} :
    Takes (emit e >>= fun _ => x) a n ↔ ∃ m, Takes x a m ∧ n = 1 + m := by
  rw [Takes, Prog.Takes.emit_bind_iff, if_pos he]

/-- Another event, and what follows it. -/
theorem takes_event {e : Event} (he : e.isWrite = false) {α : Type} {x : Run α} {a : α} {n : ℕ} :
    Takes (emit e >>= fun _ => x) a n ↔ Takes x a n := by
  rw [Takes, Prog.Takes.emit_bind_iff, he]
  simp

/-- A line that is sent unless its header was seen. -/
theorem takes_unless {s : List UInt8} (hs : s ≠ []) (seen : Bool) {x : Run Unit}
    {N : ℕ} (hx : ∀ n, Takes x () n ↔ n = N) (n : ℕ) :
    Takes (if seen = false then emit (.forward s) >>= fun _ => x else x) () n ↔
      n = (!seen).toNat + N := by
  cases seen with
  | true =>
      rw [if_neg (by decide), hx]
      simp
  | false =>
      rw [if_pos rfl, takes_write (e := .forward s) (decide_eq_true hs)]
      simp only [hx]
      simp

theorem takes_addHeaders {seen : Seen} {hostname : List UInt8} {n : ℕ} :
    Takes (addHeaders seen hostname) () n ↔
      (seen.host = true ∨ hostname.length + 8 < MAXLINE) ∧ n = addedCount seen + 1 := by
  have hcrlf : ∀ n, Takes (emit (.forward crlf)) () n ↔ n = 1 := by
    intro n
    rw [Takes, Prog.Takes.emit_iff, Event.isWrite, crlf_eq]
    rfl
  have hrest := takes_unless (s := userAgentHdr) (by simp [userAgentHdr, text]) seen.ua
    (takes_unless (s := text "Connection: close\r\n") (by simp [text]) seen.conn
      (takes_unless (s := text "Proxy-Connection: close\r\n") (by simp [text]) seen.proxyConn
        hcrlf))
  have hsum : addedCount seen + 1 = (!seen.host).toNat +
      ((!seen.ua).toNat + ((!seen.conn).toNat + ((!seen.proxyConn).toNat + 1))) := by
    rw [addedCount]
    omega
  rw [hsum]
  by_cases hroom : seen.host = true ∨ hostname.length + 8 < MAXLINE
  · rw [and_iff_right hroom]
    unfold addHeaders
    cases hhost : seen.host with
    | true =>
        rw [if_neg (by decide)]
        simpa using hrest n
    | false =>
        rw [hhost] at hroom
        have hlen := hroom.resolve_left Bool.false_ne_true
        rw [if_pos rfl, sprintf, if_pos (by rw [length_hostLine]; exact hlen)]
        exact (takes_unless (s := text "Host: " ++ hostname ++ crlf) (by simp [text]) false
          hrest n)
  · refine iff_of_false (fun h => ?_) fun h => hroom h.1
    rw [not_or, Bool.not_eq_true] at hroom
    have hresult := h.result
    rw [addHeaders_crash hroom.1 hroom.2] at hresult
    cases hresult

namespace Faults

/-- The strings of the request line. -/
structure Request where
  method : List UInt8
  uri : List UInt8
  version : List UInt8
  hostname : List UInt8
  port : List UInt8

/-- The writes of a request. -/
def requestWrites (rest : List UInt8) : ℕ :=
  1 + (headerWrites rest + (addedCount (seenAfter rest) + 1))

/-- From the request line on. -/
theorem takes_requestLine {method : List UInt8} (hnul : (0 : UInt8) ∉ method)
    {uri version hostname : List UInt8} {s : Stream} {n : ℕ} :
    Takes (sprintf (requestLine method uri version) >>= fun buf =>
        emit (.forward buf) >>= fun _ => forwardHeaders buf s >>= fun seen =>
          addHeaders seen hostname) () n ↔
      (requestLine method uri version).length < MAXLINE ∧ BlankLine s.bytes ∧
        ((seenAfter s.bytes).host = true ∨ hostname.length + 8 < MAXLINE) ∧
        n = requestWrites s.bytes := by
  by_cases hlen : (requestLine method uri version).length < MAXLINE
  · have hbuf : cstring (requestLine method uri version) ≠ crlf :=
      goes_requestLine hnul uri version []
    have hwrite : Event.isWrite (.forward (requestLine method uri version)) = true := by
      simp [Event.isWrite, requestLine, text]
    rw [sprintf, if_pos hlen, Prog.pure_bind, takes_write hwrite, and_iff_right hlen]
    simp only [Takes, Prog.Takes.bind_iff]
    constructor
    · rintro ⟨m, ⟨seen, k, l, hheaders, hadded, rfl⟩, rfl⟩
      obtain ⟨hblank, rfl, rfl⟩ := (takes_forwardHeaders hbuf).mp hheaders
      obtain ⟨hroom, rfl⟩ := takes_addHeaders.mp hadded
      exact ⟨hblank, hroom, rfl⟩
    · rintro ⟨hblank, hroom, rfl⟩
      exact ⟨_, ⟨_, _, _, (takes_forwardHeaders hbuf).mpr ⟨hblank, rfl, rfl⟩,
        takes_addHeaders.mpr ⟨hroom, rfl⟩, rfl⟩, rfl⟩
  · rw [sprintf, if_neg hlen, stop_bind]
    exact iff_of_false (Prog.Takes.not_stop _ _ _) fun h => hlen h.1

/-- The strings of a request, in their arrays. -/
structure Request.In (r : Request) (f : Frame) : Prop where
  method : stringAt MAXLINE f.method 0 = some r.method
  uri : stringAt MAXLINE f.uri 0 = some r.uri
  version : stringAt MAXLINE f.version 0 = some r.version
  hostname : stringAt MAXLINE f.hostname 0 = some r.hostname
  port : stringAt MAXLINE f.port 0 = some r.port

/-- The request can be sent. -/
structure Request.Fits (r : Request) (rest : List UInt8) : Prop where
  line : (requestLine r.method r.uri r.version).length < MAXLINE
  blank : BlankLine rest
  room : (seenAfter rest).host = true ∨ r.hostname.length + 8 < MAXLINE

/-- `parseUrl` and `parseVersion` accept the request, with the arrays afterwards. -/
def Parsed (f f' : Frame) : Prop :=
  ∃ f₁ rc rc', parseUrl f = some (f₁, rc) ∧ ¬ rc < 0 ∧ parseVersion f₁ = some (f', rc') ∧ ¬ rc' < 0

/-- `parseUrl` or `parseVersion` refuses the request. -/
inductive BadRequest (f : Frame) : Prop
  | url {f₁ : Frame} {rc : ℤ} : parseUrl f = some (f₁, rc) → rc < 0 → BadRequest f
  | version {f₁ f₂ : Frame} {rc rc' : ℤ} : parseUrl f = some (f₁, rc) → ¬ rc < 0 →
      parseVersion f₁ = some (f₂, rc') → rc' < 0 → BadRequest f

/-- A request that is forwarded. -/
structure Forwarded (o : Origins) (f f' : Frame) (r : Request) (rest : List UInt8) : Prop where
  parsed : Parsed f f'
  strings : r.In f'
  connects : 0 ≤ openClientfd (o.dial r.hostname r.port)
  fits : r.Fits rest

/-- An error page, and nothing more. -/
theorem takes_page {α : Type} {cause errnum shortmsg longmsg : List UInt8} {a b : α} {n : ℕ} :
    Takes (clienterror cause errnum shortmsg longmsg >>= fun _ => pure a) b n ↔ a = b ∧ n = 7 := by
  rw [Takes, Prog.Takes.bind_iff]
  simp only [Prog.Takes.pure_iff]
  constructor
  · rintro ⟨u, k, m, hpage, ⟨rfl, rfl⟩, rfl⟩
    exact ⟨rfl, takes_clienterror.mp hpage⟩
  · rintro ⟨rfl, rfl⟩
    exact ⟨(), 7, 0, takes_clienterror.mpr rfl, ⟨rfl, rfl⟩, rfl⟩

/-- The request is sent once the connection is made. -/
theorem takes_connected {o : Origins} {f : Frame} {s : Stream} {r : Option Frame} {n : ℕ} :
    Takes (readString f.hostname >>= fun hostname => readString f.port >>= fun port =>
        emit (.connect hostname port) >>= fun _ =>
          OpenClientfd (o.dial hostname port) >>= fun clientfd =>
            if clientfd < 0 then
              clienterror [] (text "500") [] (text "Clientfd Error") >>= fun _ => pure none
            else sendRequest f hostname s >>= fun _ => pure (some f)) r n ↔
      ∃ req : Request, req.In f ∧ 0 ≤ openClientfd (o.dial req.hostname req.port) ∧
        req.Fits s.bytes ∧ r = some f ∧ n = requestWrites s.bytes := by
  simp only [readString, OpenClientfd_bind, Takes, Prog.Takes.require_bind_iff]
  constructor
  · rintro ⟨hostname, hhost, port, hport, h⟩
    rw [← Takes, takes_event rfl] at h
    by_cases hconn : 0 ≤ openClientfd (o.dial hostname port)
    · rw [if_pos hconn, Takes, Prog.Takes.bind_iff] at h
      obtain ⟨u, k, m, hsend, hpure, rfl⟩ := h
      obtain ⟨rfl, rfl⟩ := Prog.Takes.pure_iff.mp hpure
      simp only [sendRequest, readString, Prog.Takes.require_bind_iff] at hsend
      obtain ⟨method, hmethod, uri, huri, version, hversion, hsend⟩ := hsend
      have hnul := (stringAt_eq_some.mp hmethod).1
      obtain ⟨hline, hblank, hroom, rfl⟩ := (takes_requestLine hnul).mp hsend
      exact ⟨⟨method, uri, version, hostname, port⟩, ⟨hmethod, huri, hversion, hhost, hport⟩,
        hconn, ⟨hline, hblank, hroom⟩, rfl, rfl⟩
    · rw [if_neg hconn] at h
      exact absurd h (Prog.Takes.not_stop _ _ _)
  · rintro ⟨req, hin, hconn, hfits, rfl, rfl⟩
    refine ⟨_, hin.hostname, _, hin.port, ?_⟩
    have hnul := (stringAt_eq_some.mp hin.method).1
    have hsend := (takes_requestLine hnul).mpr ⟨hfits.line, hfits.blank, hfits.room, rfl⟩
    rw [← Takes, takes_event rfl, if_pos hconn, Takes, Prog.Takes.bind_iff]
    refine ⟨(), _, 0, ?_, Prog.Takes.pure_iff.mpr ⟨rfl, rfl⟩, rfl⟩
    simp only [sendRequest, readString, Prog.Takes.require_bind_iff]
    exact ⟨_, hin.method, _, hin.uri, _, hin.version, hsend⟩

/-- **A request ends** with an error page, or it is forwarded. -/
theorem takes_forwardRequest {o : Origins} {f : Frame} {s : Stream} {r : Option Frame} {n : ℕ} :
    Takes (forwardRequest o f s) r n ↔
      (BadRequest f ∧ r = none ∧ n = 7) ∨
      ∃ f' req, Forwarded o f f' req s.bytes ∧ r = some f' ∧ n = requestWrites s.bytes := by
  rw [forwardRequest, Takes, Prog.Takes.require_bind_iff]
  constructor
  · rintro ⟨⟨f₁, rc⟩, hparse, h⟩
    simp only at h
    split_ifs at h with hrc
    · obtain ⟨rfl, rfl⟩ := takes_page.mp h
      exact Or.inl ⟨.url hparse hrc, rfl, rfl⟩
    · obtain ⟨⟨f₂, rc'⟩, hversion, h⟩ := Prog.Takes.require_bind_iff.mp h
      simp only at h
      split_ifs at h with hrc'
      · obtain ⟨rfl, rfl⟩ := takes_page.mp h
        exact Or.inl ⟨.version hparse hrc hversion hrc', rfl, rfl⟩
      · obtain ⟨req, hin, hconn, hfits, rfl, rfl⟩ := takes_connected.mp h
        exact Or.inr ⟨f₂, req, ⟨⟨f₁, rc, rc', hparse, hrc, hversion, hrc'⟩, hin, hconn, hfits⟩,
          rfl, rfl⟩
  · rintro (⟨hbad, rfl, rfl⟩ | ⟨f', req, ⟨⟨f₁, rc, rc', hparse, hrc, hversion, hrc'⟩, hin, hconn,
      hfits⟩, rfl, rfl⟩)
    · cases hbad with
      | @url f₁ rc hparse hrc =>
          refine ⟨(f₁, rc), hparse, ?_⟩
          simp only [if_pos hrc]
          exact takes_page.mpr ⟨rfl, rfl⟩
      | @version f₁ f₂ rc rc' hparse hrc hversion hrc' =>
          refine ⟨(f₁, rc), hparse, ?_⟩
          simp only [if_neg hrc]
          refine Prog.Takes.require_bind_iff.mpr ⟨(f₂, rc'), hversion, ?_⟩
          simp only [if_pos hrc']
          exact takes_page.mpr ⟨rfl, rfl⟩
    · refine ⟨(f₁, rc), hparse, ?_⟩
      simp only [if_neg hrc]
      refine Prog.Takes.require_bind_iff.mpr ⟨(f', rc'), hversion, ?_⟩
      simp only [if_neg hrc']
      exact takes_connected.mpr ⟨req, hin, hconn, hfits, rfl, rfl⟩

end Faults

end Proxy
