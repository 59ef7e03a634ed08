/-
# One transaction, with calls that fail

`doit` again, when its reads, its writes and the connection to the origin server may fail.
The wrappers `Rio_readlineb`, `Rio_writen` and `Open_clientfd` call `unix_error` then, which
ends the process.

A connection delivers bytes, and then EOF or an error (`Stream`).  `Open_clientfd` is given
what `getaddrinfo` returns and how the calls for each address end (`Attempt`).  A write that
fails ends the run, so the events are those of a run without failing writes up to the first
one (`transaction`); a write of no bytes calls nothing.

Without failing reads this is the `doit` of before (`doit_eq`).
-/
import CsappLabs.HeaderBlock
import CsappLabs.CacheAnswers

open Effects Effects.Prog CString Relay WhileLoop

namespace Proxy

/-! ## Reading -/

/-- What the reads of a connection find: some bytes, and then an error or EOF. -/
structure Stream where
  bytes : List UInt8
  fails : Bool

namespace Stream

/-- The loop of `rio_readlineb`; `none` is the return value -1. -/
def readlinebLoop : ℕ → Stream → Option (List UInt8 × Stream)
  | 0, s => some ([], s)
  | n + 1, s =>
      match s.bytes with
      | [] => if s.fails then none else some ([], s)
      | c :: bytes =>
          if c = newline then some ([c], { s with bytes := bytes })
          else (readlinebLoop n { s with bytes := bytes }).map fun r => (c :: r.1, r.2)

/-- `rio_readlineb`. -/
def rioReadlineb (maxlen : ℕ) (s : Stream) : Option (List UInt8 × Stream) :=
  s.readlinebLoop (maxlen - 1)

/-- The error comes before the end of the line. -/
def Short (s : Stream) : Prop :=
  s.fails = true ∧ newline ∉ s.bytes ∧ s.bytes.length < MAXLINE - 1

theorem readlinebLoop_of_short {n : ℕ} {s : Stream} (hfails : s.fails = true)
    (hline : newline ∉ s.bytes) (hlen : s.bytes.length < n) : s.readlinebLoop n = none := by
  obtain ⟨bytes, fails⟩ := s
  subst hfails
  induction bytes generalizing n with
  | nil =>
      obtain ⟨k, rfl⟩ : ∃ k, n = k + 1 := ⟨n - 1, by simp at hlen; omega⟩
      rfl
  | cons c bytes ih =>
      obtain ⟨k, rfl⟩ : ∃ k, n = k + 1 := ⟨n - 1, by simp at hlen; omega⟩
      simp only [List.mem_cons, not_or] at hline
      rw [readlinebLoop]
      simp only [if_neg (Ne.symm hline.1), ih hline.2 (by simpa using hlen), Option.map_none]

theorem readlinebLoop_of_not_short {n : ℕ} {s : Stream}
    (h : ¬ (s.fails = true ∧ newline ∉ s.bytes ∧ s.bytes.length < n)) :
    s.readlinebLoop n = some ((Relay.readlinebLoop n s.bytes).1,
      { s with bytes := (Relay.readlinebLoop n s.bytes).2 }) := by
  induction n generalizing s with
  | zero => rfl
  | succ n ih =>
      obtain ⟨bytes, fails⟩ := s
      cases bytes with
      | nil =>
          have hfails : fails = false := by simpa using h
          subst hfails
          rfl
      | cons c bytes =>
          rw [readlinebLoop, Relay.readlinebLoop]
          by_cases hc : c = newline
          · simp only [if_pos hc]
          · simp only [if_neg hc]
            have hrest := ih (s := ⟨bytes, fails⟩) fun hs => h ⟨hs.1, by simp [Ne.symm hc, hs.2.1],
              by simpa using hs.2.2⟩
            rw [hrest]
            rfl

/-- **A read fails** when the error comes before the end of the line. -/
theorem rioReadlineb_of_short {s : Stream} (h : s.Short) : s.rioReadlineb MAXLINE = none :=
  readlinebLoop_of_short h.1 h.2.1 h.2.2

/-- Otherwise it is the read of before. -/
theorem rioReadlineb_of_not_short {s : Stream} (h : ¬ s.Short) :
    s.rioReadlineb MAXLINE = some ((Relay.rioReadlineb MAXLINE s.bytes).1,
      { s with bytes := (Relay.rioReadlineb MAXLINE s.bytes).2 }) :=
  readlinebLoop_of_not_short h

theorem not_short {s : Stream} (h : s.fails = false) : ¬ s.Short := fun hs =>
  Bool.false_ne_true (h.symm.trans hs.1)

end Stream

/-! ## Connecting -/

/-- How `socket`, `connect` and `close` end for one address. -/
structure Attempt where
  socket : ℤ
  connect : Bool
  close : Bool

/-- The loop of `open_clientfd` over the addresses. -/
def connectLoop : List Attempt → ℤ
  | [] => -1
  | p :: listp =>
      if p.socket < 0 then connectLoop listp
      else if p.connect then p.socket
      else if p.close = false then -1
      else connectLoop listp

/-- `open_clientfd`, for what `getaddrinfo` returns. -/
def openClientfd : Option (List Attempt) → ℤ
  | none => -2
  | some listp => connectLoop listp

/-- The origin servers: the addresses of each host and port, and what is sent back. -/
structure Origins where
  dial : List UInt8 → List UInt8 → Option (List Attempt)
  response : Stream

/-- Without failing reads. -/
def Origins.net (o : Origins) : Net :=
  ⟨fun hostname port => decide (0 ≤ openClientfd (o.dial hostname port)), o.response.bytes⟩

/-! ## The transaction -/

namespace Faults

/-- `Rio_readlineb`: the process ends when the read fails. -/
def RioReadlineb (s : Stream) : Run (List UInt8 × Stream) :=
  require .exit (s.rioReadlineb MAXLINE)

/-- `Open_clientfd`: the process ends when no connection is made. -/
def OpenClientfd (addresses : Option (List Attempt)) : Run ℤ :=
  let rc := openClientfd addresses
  if rc < 0 then stop .exit else pure rc

/-- `Rio_readlineb(&rio, buf, MAXLINE)`: at EOF the buffer stays as it was. -/
def readLine (buf : List UInt8) (s : Stream) : Run (List UInt8 × Stream) := do
  let r ← RioReadlineb s
  pure (if r.1.length = 0 then (buf, r.2) else r)

/-- The loop over the header lines. -/
def headerLoop : ℕ → Seen → List UInt8 → Stream → Run Seen
  | 0, _, _, _ => stop .hang
  | fuel + 1, seen, buf, s =>
      if cstring buf = crlf then pure seen
      else do
        emit (.forward (cstring buf))
        let r ← readLine buf s
        headerLoop fuel (seen.note (cstring buf)) r.1 r.2

/-- The header lines of the client. -/
def forwardHeaders (buf : List UInt8) (s : Stream) : Run Seen := do
  let r ← readLine buf s
  headerLoop (r.2.bytes.length + 1) ⟨false, false, false, false⟩ r.1 r.2

/-- The request line, the headers of the client, and those of the proxy. -/
def sendRequest (f : Frame) (hostname : List UInt8) (s : Stream) : Run Unit := do
  let method ← readString f.method
  let uri ← readString f.uri
  let version ← readString f.version
  let buf ← sprintf (requestLine method uri version)
  emit (.forward buf)
  let seen ← forwardHeaders buf s
  addHeaders seen hostname

/-- From the parsing of the URL to the end of the request; `none` after an error page. -/
def forwardRequest (o : Origins) (f : Frame) (s : Stream) : Run (Option Frame) := do
  let (f, rc) ← require .crash (parseUrl f)
  if rc < 0 then
    clienterror [] (text "500") [] (text "parseUrl Error")
    pure none
  else
    let (f, rc) ← require .crash (parseVersion f)
    if rc < 0 then
      clienterror [] (text "500") [] (text "parseVersion Error")
      pure none
    else
      let hostname ← readString f.hostname
      let port ← readString f.port
      emit (.connect hostname port)
      let clientfd ← OpenClientfd (o.dial hostname port)
      if clientfd < 0 then
        clienterror [] (text "500") [] (text "Clientfd Error")
        pure none
      else
        sendRequest f hostname s
        pure (some f)

/-- The loop over the response. -/
def responseLoop : ℕ → Option CacheData → Stream → Run (Option CacheData)
  | 0, _, _ => stop .hang
  | fuel + 1, revData, s => do
      let r ← RioReadlineb s
      if r.1.length = 0 then pure revData
      else
        emit (.reply r.1)
        let revData ← require .crash (tryCache revData r.1)
        responseLoop fuel revData r.2

/-- The response is sent to the client, and stored when it fits. -/
def receiveResponse (o : Origins) (f : Frame) (rev : CacheData) (lru : Cache) : Run Cache := do
  match ← responseLoop (o.response.bytes.length + 1) (some rev) o.response with
  | none => pure lru
  | some d =>
      let url ← readString f.url
      storeObject lru url d

/-- After the request: nothing more after an error page. -/
def afterRequest (o : Origins) (rev : CacheData) (lru : Cache) : Option Frame → Run Cache
  | none => pure lru
  | some f => receiveResponse o f rev lru

/-- A request that is not answered from the cache. -/
def fetch (o : Origins) (f : Frame) (rev : CacheData) (lru : Cache) (s : Stream) : Run Cache := do
  if strcasecmp f.method 0 (text "GET") then
    let f ← forwardRequest o f s
    afterRequest o rev lru f
  else
    clienterror [] (text "500") [] (text "Method Not Supported")
    pure lru

/-- `doit`, on what the client sends. -/
def doit (o : Origins) (f : Frame) (rev : CacheData) (lru : Cache) (s : Stream) : Run Cache := do
  let r ← RioReadlineb s
  if r.1.length = 0 then pure lru
  else
    let f := scanRequest f r.1
    let url ← readString f.url
    let (lru, data) ← require .crash (Lru.lruGet lru url)
    emit (.lookup url data.isSome)
    match data with
    | some d =>
        let s ← require .crash (hit d)
        emit (.reply s)
        pure lru
    | none => fetch o f rev lru r.2

end Faults

/-- The calls of `Rio_writen` that write something. -/
def Event.isWrite : Event → Bool
  | .forward s => s ≠ []
  | .reply s => s ≠ []
  | .errorPage s => s ≠ []
  | _ => false

/-- `doit`, when `writes n` says whether its `n`-th write succeeds. -/
def transaction (writes : ℕ → Bool) (o : Origins) (f : Frame) (rev : CacheData) (lru : Cache)
    (client : Stream) : Run Cache :=
  cut Event.isWrite writes .exit (Faults.doit o f rev lru client)

/-! ## Without failing reads -/

namespace Faults

variable {o : Origins} {s : Stream}

theorem RioReadlineb_eq (h : ¬ s.Short) :
    RioReadlineb s = pure ((Relay.rioReadlineb MAXLINE s.bytes).1,
      { s with bytes := (Relay.rioReadlineb MAXLINE s.bytes).2 }) := by
  rw [RioReadlineb, Stream.rioReadlineb_of_not_short h, require_some]

theorem readLine_eq (buf : List UInt8) (h : ¬ s.Short) :
    readLine buf s = pure ((Proxy.readLine buf s.bytes).1,
      { s with bytes := (Proxy.readLine buf s.bytes).2 }) := by
  rw [readLine, RioReadlineb_eq h, pure_bind, Proxy.readLine]
  by_cases hlen : (Relay.rioReadlineb MAXLINE s.bytes).1.length = 0
  · simp only [if_pos hlen]
  · simp only [if_neg hlen]

theorem headerLoop_eq (hs : s.fails = false) (fuel : ℕ) (seen : Seen) (buf : List UInt8) :
    headerLoop fuel seen buf s = Proxy.headerLoop fuel seen buf s.bytes := by
  induction fuel generalizing seen buf s with
  | zero => rfl
  | succ fuel ih =>
      rw [headerLoop, Proxy.headerLoop, readLine_eq buf (Stream.not_short hs)]
      simp only [pure_bind, ih (s := { s with bytes := (Proxy.readLine buf s.bytes).2 }) hs]

theorem forwardHeaders_eq (hs : s.fails = false) (buf : List UInt8) :
    forwardHeaders buf s = Proxy.forwardHeaders buf s.bytes := by
  rw [forwardHeaders, readLine_eq buf (Stream.not_short hs), pure_bind,
    headerLoop_eq (s := { s with bytes := (Proxy.readLine buf s.bytes).2 }) hs]
  rfl

/-- The connection is made, or the process ends. -/
theorem OpenClientfd_bind {α : Type} (addresses : Option (List Attempt)) (x y : Run α) :
    (OpenClientfd addresses >>= fun clientfd => if clientfd < 0 then x else y) =
      if 0 ≤ openClientfd addresses then y else stop .exit := by
  rw [OpenClientfd]
  by_cases hrc : openClientfd addresses < 0
  · rw [if_pos hrc, if_neg (by omega), stop_bind]
  · rw [if_neg hrc, if_pos (by omega), pure_bind, if_neg hrc]

theorem forwardRequest_eq (hs : s.fails = false) (f : Frame) :
    forwardRequest o f s = Proxy.forwardRequest o.net f s.bytes := by
  unfold forwardRequest Proxy.forwardRequest
  simp only [OpenClientfd_bind, sendRequest, forwardHeaders_eq hs, Origins.net, decide_eq_true_eq]
  rfl

/-- The pieces of a stream that ends with EOF. -/
theorem responseLoop_eq (hs : s.fails = false) {fuel k : ℕ} (hfuel : s.bytes.length < fuel)
    (hk : s.bytes.length ≤ k) (revData : Option CacheData) :
    responseLoop fuel revData s = Proxy.responseLoop revData (readlines k s.bytes) := by
  induction fuel generalizing s k revData with
  | zero => exact absurd hfuel (Nat.not_lt_zero _)
  | succ fuel ih =>
      rw [responseLoop, RioReadlineb_eq (Stream.not_short hs), pure_bind]
      by_cases hempty : s.bytes = []
      · have hpieces : readlines k s.bytes = [] := by
          rw [hempty]
          cases k <;> rfl
        rw [hpieces, hempty]
        rfl
      · obtain ⟨hsum, hpos⟩ := length_rioReadlineb hempty
        obtain ⟨k, rfl⟩ : ∃ k', k = k' + 1 := ⟨k - 1, by omega⟩
        have hpieces : readlines (k + 1) s.bytes = (Relay.rioReadlineb MAXLINE s.bytes).1 ::
            readlines k (Relay.rioReadlineb MAXLINE s.bytes).2 := by
          rw [readlines]
          exact if_neg hpos.ne'
        rw [hpieces, Proxy.responseLoop, if_neg hpos.ne', if_neg hpos.ne']
        have hlt : (Relay.rioReadlineb MAXLINE s.bytes).2.length < fuel := by omega
        have hle : (Relay.rioReadlineb MAXLINE s.bytes).2.length ≤ k := by omega
        simp only [ih (s := ⟨(Relay.rioReadlineb MAXLINE s.bytes).2, s.fails⟩) hs hlt hle]

theorem receiveResponse_eq (ho : o.response.fails = false) (f : Frame) (rev : CacheData)
    (lru : Cache) : receiveResponse o f rev lru = Proxy.receiveResponse o.net f rev lru := by
  rw [receiveResponse, responseLoop_eq ho (Nat.lt_succ_self _) le_rfl]
  rfl

/-- **Without failing reads**, this is `doit`. -/
theorem doit_eq (hs : s.fails = false) (ho : o.response.fails = false) (f : Frame)
    (rev : CacheData) (lru : Cache) :
    doit o f rev lru s = Proxy.doit o.net f rev lru s.bytes := by
  have hafter : ∀ (lru : Cache) (r : Option Frame),
      afterRequest o rev lru r = Proxy.afterRequest o.net rev lru r := by
    intro lru r
    cases r with
    | none => rfl
    | some f => exact receiveResponse_eq ho f rev lru
  have hfetch : ∀ (f : Frame) (lru : Cache) (rest : List UInt8),
      fetch o f rev lru { s with bytes := rest } = Proxy.fetch o.net f rev lru rest := by
    intro f lru rest
    have hforward := forwardRequest_eq (o := o) (s := { s with bytes := rest }) hs f
    simp only [fetch, Proxy.fetch, hforward, hafter]
  rw [doit, RioReadlineb_eq (Stream.not_short hs), Proxy.doit, Prog.pure_bind]
  by_cases hlen : (Relay.rioReadlineb MAXLINE s.bytes).1.length = 0
  · simp only [if_pos hlen]
  · simp only [if_neg hlen]
    apply congrArg
    funext url
    apply congrArg
    funext found
    apply congrArg
    funext _
    cases found.2 with
    | some d => rfl
    | none => exact hfetch _ _ _

end Faults

end Proxy
