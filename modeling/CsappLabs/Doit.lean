/-
# One transaction of the proxy

`doit` of `proxy.c` with what it calls, as programs that leave a record of what they do:
what is looked up and stored in the cache, what is sent to the client and to the origin
server, and which host and port are passed to `Open_clientfd`.

The arrays on the stack of `doit` hold what was there before the call until they are
written.  The array `buf` is written whole by every `Rio_readlineb` and `sprintf`, so it
is only the characters that were put there last.  A run crashes when it reads past the
end of an array or writes outside of it, or follows a null pointer; `exit` is the
`unix_error` of a wrapper; `hang` is a loop that never ends.

What the client sends is a list of bytes, after which it closes its end; so is the
answer of the origin server.  Reads and writes succeed.  What is printed on `stderr` is
left out.
-/
import CsappLabs.Effects
import CsappLabs.CString
import CsappLabs.LruRecency
import CsappLabs.Relay

open Effects Effects.Prog CString Relay

namespace Proxy

/-- What the rest of the world sees of a transaction, and what the cache does. -/
inductive Event : Type where
  | lookup (url : List UInt8) (hit : Bool) : Event
  | connect (hostname port : List UInt8) : Event
  | forward (s : List UInt8) : Event
  | reply (s : List UInt8) : Event
  | errorPage (s : List UInt8) : Event
  | store (url : List UInt8) (len : ℤ) (content : Option (List UInt8)) : Event
  | evict (url : List UInt8) : Event
  deriving DecidableEq, Repr

/-- Why a transaction does not return. -/
inductive Stop : Type where
  | crash : Stop
  | exit : Stop
  | hang : Stop
  deriving DecidableEq, Repr

abbrev Run (α : Type) : Type := Prog Event Stop α

abbrev Cache : Type := Lru.LRUCache (List UInt8) CacheData

/-- The arrays of `doit`. -/
structure Frame where
  method : ℕ → UInt8
  url : ℕ → UInt8
  uri : ℕ → UInt8
  version : ℕ → UInt8
  hostname : ℕ → UInt8
  port : ℕ → UInt8

/-- The origin servers: whether a connection is made, and what is sent back on it. -/
structure Net where
  opens : List UInt8 → List UInt8 → Bool
  response : List UInt8

/-! ## The request -/

def slash : UInt8 := 47

def colon : UInt8 := 58

/-- `sscanf(buf, "%s %s %s", method, url, version)`. -/
def scanRequest (f : Frame) (buf : List UInt8) : Frame :=
  match words 3 (cstring buf) with
  | [] => f
  | [m] => { f with method := strcpy f.method m }
  | [m, u] => { f with method := strcpy f.method m, url := strcpy f.url u }
  | m :: u :: v :: _ =>
      { f with method := strcpy f.method m, url := strcpy f.url u, version := strcpy f.version v }

/-- `strncpy` into an array of `MAXLINE` characters; the length is a `size_t`. -/
def copyPart (dst : ℕ → UInt8) (src : List UInt8) (n : ℤ) : Option (ℕ → UInt8) :=
  if 0 ≤ n ∧ n ≤ MAXLINE then some (strncpy dst 0 src n.toNat) else none

/-- The part of `parseUrl` after the two checks of the scheme: `p` is behind `://`, and
`uriStart` where the path starts. -/
def splitUrl (f : Frame) (p uriStart : ℕ) : Option (Frame × ℤ) := do
  let path ← stringAt MAXLINE f.url uriStart
  let f := { f with uri := strcpy f.uri path }
  let rest ← stringAt MAXLINE f.url p
  match strchr rest colon with
  | none =>
      -- the assignment to `port` does not reach the caller
      let hostname ← copyPart f.hostname rest (uriStart - p)
      some ({ f with hostname := hostname }, 0)
  | some i =>
      let colonAt := p + i
      let hostname ← copyPart f.hostname rest (colonAt - p)
      let after ← stringAt MAXLINE f.url (colonAt + 1)
      let port ← copyPart f.port after (uriStart - (colonAt + 1))
      some ({ f with hostname := hostname, port := port }, 0)

/-- `parseUrl(url, uri, hostname, port)`, and what it returns. -/
def parseUrl (f : Frame) : Option (Frame × ℤ) := do
  let url ← stringAt MAXLINE f.url 0
  let n := url.length
  match strstr url (text "://") with
  | none =>
      some ({ f with
        port := Function.update f.port 0 0
        hostname := Function.update f.hostname 0 0 }, 0)
  | some p =>
      if strncasecmp url (text "http://") 7 = false then some (f, -1)
      else
        match strchr (url.drop (p + 3)) slash with
        | none => splitUrl { f with url := Function.update f.url n slash } (p + 3) n
        | some i => splitUrl f (p + 3) (p + 3 + i)

/-- `parseVersion(version)`, and what it returns. -/
def parseVersion (f : Frame) : Option (Frame × ℤ) :=
  if strcasecmp f.version 0 (text "http/1.1") then do
    let v ← stringAt MAXLINE f.version 0
    some ({ f with version := Function.update f.version (v.length - 1) 48 }, 0)
  else some (f, -1)

/-- `clienterror`. -/
def clienterror (cause errnum shortmsg longmsg : List UInt8) : Run Unit := do
  emit (.errorPage (text "HTTP/1.0 " ++ errnum ++ text " " ++ shortmsg ++ text "\r\n"))
  emit (.errorPage (text "Content-type: text/html\r\n\r\n"))
  emit (.errorPage (text "<html><title>Tiny Error</title>"))
  emit (.errorPage (text "<body bgcolor=ffffff>\r\n"))
  emit (.errorPage (errnum ++ text ": " ++ shortmsg ++ text "\r\n"))
  emit (.errorPage (text "<p>" ++ longmsg ++ text ": " ++ cause ++ text "\r\n"))
  emit (.errorPage (text "<hr><em>The Tiny Web server</em>\r\n"))

/-! ## What is sent to the origin server -/

def userAgentHdr : List UInt8 :=
  text "User-Agent: Mozilla/5.0 (X11; Linux x86_64; rv:10.0.3) Gecko/20120305 Firefox/10.0.3\r\n"

/-- The end of a line. -/
def crlf : List UInt8 := text "\r\n"

/-- `Rio_readlineb(&rio, buf, MAXLINE)`: at the end of the input the buffer stays as it
was. -/
def readLine (buf input : List UInt8) : List UInt8 × List UInt8 :=
  let r := rioReadlineb MAXLINE input
  if r.1.length = 0 then (buf, r.2) else r

/-- `sprintf` into `buf`. -/
def sprintf (s : List UInt8) : Run (List UInt8) :=
  if s.length < MAXLINE then pure s else stop .crash

/-- The header lines that were seen. -/
structure Seen where
  host : Bool
  ua : Bool
  conn : Bool
  proxyConn : Bool
  deriving DecidableEq, Repr

/-- The tests of a header line. -/
def Seen.note (seen : Seen) (line : List UInt8) : Seen :=
  if (strstr line (text "Host:")).isSome then { seen with host := true }
  else if (strstr line (text "User-Agent:")).isSome then { seen with ua := true }
  else if (strstr line (text "Connection:")).isSome then { seen with conn := true }
  else if (strstr line (text "Proxy-Connection:")).isSome then { seen with proxyConn := true }
  else seen

/-- The loop over the header lines. -/
def headerLoop : ℕ → Seen → List UInt8 → List UInt8 → Run Seen
  | 0, _, _, _ => stop .hang
  | fuel + 1, seen, buf, input =>
      if cstring buf = crlf then pure seen
      else do
        emit (.forward (cstring buf))
        let r := readLine buf input
        headerLoop fuel (seen.note (cstring buf)) r.1 r.2

/-- The header lines of the client, with `buf` as it is before the first.  At the end of
the input the loop tests the same line for ever, so more rounds than there are bytes
never end. -/
def forwardHeaders (buf input : List UInt8) : Run Seen :=
  let r := readLine buf input
  headerLoop (r.2.length + 1) ⟨false, false, false, false⟩ r.1 r.2

/-- The headers that the proxy adds, and the empty line. -/
def addHeaders (seen : Seen) (hostname : List UInt8) : Run Unit := do
  if seen.host = false then
    let buf ← sprintf (text "Host: " ++ hostname ++ crlf)
    emit (.forward buf)
  if seen.ua = false then
    emit (.forward userAgentHdr)
  if seen.conn = false then
    emit (.forward (text "Connection: close\r\n"))
  if seen.proxyConn = false then
    emit (.forward (text "Proxy-Connection: close\r\n"))
  emit (.forward crlf)

/-- The string in an array of `doit`. -/
def readString (b : ℕ → UInt8) : Run (List UInt8) := require .crash (stringAt MAXLINE b 0)

/-- The request line, the headers of the client, and those of the proxy. -/
def sendRequest (f : Frame) (hostname input : List UInt8) : Run Unit := do
  let method ← readString f.method
  let uri ← readString f.uri
  let version ← readString f.version
  let buf ← sprintf (method ++ text " " ++ uri ++ text " " ++ version ++ crlf)
  emit (.forward buf)
  let seen ← forwardHeaders buf input
  addHeaders seen hostname

/-- From the parsing of the URL to the end of the request; `none` after an error page. -/
def forwardRequest (net : Net) (f : Frame) (input : List UInt8) : Run (Option Frame) := do
  let (f, rc) ← require .crash (parseUrl f)
  if rc < 0 then
    clienterror [] (text "500") [] (text "parseUrl Error")
    pure none
  else
    let (f, rc) ← require .crash (parseVersion f)
    if rc < 0 then
      clienterror [] (text "500") [] (text "parseVersion Error")
      pure none
    else
      let hostname ← readString f.hostname
      let port ← readString f.port
      emit (.connect hostname port)
      if net.opens hostname port then
        sendRequest f hostname input
        pure (some f)
      else stop .exit

/-! ## The response -/

/-- The loop over the response. -/
def responseLoop (revData : Option CacheData) : List (List UInt8) → Run (Option CacheData)
  | [] => pure revData
  | buf :: pieces =>
      if buf.length = 0 then pure revData
      else do
        emit (.reply buf)
        let revData ← require .crash (tryCache revData buf)
        responseLoop revData pieces

/-- The key that `lru_put` evicts. -/
def evicted (lru : Cache) (url : List UInt8) : Option (List UInt8) :=
  match Lru.lruFind lru url with
  | some none => if lru.capacity = lru.size then some (lru.key (lru.nxt lru.head)) else none
  | _ => none

/-- `lru_put`, with a record of what was stored and evicted. -/
def storeObject (lru : Cache) (url : List UInt8) (d : CacheData) : Run Cache := do
  let lru' ← require .crash (Lru.lruPut lru url d)
  emit (.store url d.len (hit d))
  match evicted lru url with
  | some k =>
      emit (.evict k)
      pure lru'
  | none => pure lru'

/-- The response is sent to the client, and stored when it fits. -/
def receiveResponse (net : Net) (f : Frame) (rev : CacheData) (lru : Cache) : Run Cache := do
  match ← responseLoop (some rev) (readlines net.response.length net.response) with
  | none => pure lru
  | some d =>
      let url ← readString f.url
      storeObject lru url d

/-- After the request: nothing more after an error page. -/
def afterRequest (net : Net) (rev : CacheData) (lru : Cache) : Option Frame → Run Cache
  | none => pure lru
  | some f => receiveResponse net f rev lru

/-! ## The transaction -/

/-- A request that is not answered from the cache; `rev` is what `Malloc` would return. -/
def fetch (net : Net) (f : Frame) (rev : CacheData) (lru : Cache) (input : List UInt8) :
    Run Cache := do
  if strcasecmp f.method 0 (text "GET") then
    let f ← forwardRequest net f input
    afterRequest net rev lru f
  else
    clienterror [] (text "500") [] (text "Method Not Supported")
    pure lru

/-- `doit`, on what the client sends. -/
def doit (net : Net) (f : Frame) (rev : CacheData) (lru : Cache) (input : List UInt8) :
    Run Cache :=
  let r := rioReadlineb MAXLINE input
  if r.1.length = 0 then pure lru
  else do
    let f := scanRequest f r.1
    let url ← readString f.url
    let (lru, data) ← require .crash (Lru.lruGet lru url)
    emit (.lookup url data.isSome)
    match data with
    | some d =>
        let s ← require .crash (hit d)
        emit (.reply s)
        pure lru
    | none => fetch net f rev lru r.2

/-- What the proxy meets on one connection: the origin servers, its stack, and the bytes of
the client. -/
structure Transaction where
  net : Net
  frame : Frame
  input : List UInt8

/-- Transactions one after the other; `rev i` is what `Malloc` would return in the `i`-th. -/
def serve (rev : ℕ → CacheData) (lru : Cache) : List Transaction → Run Cache
  | [] => pure lru
  | t :: ts => do
      let lru ← doit t.net t.frame (rev 0) lru t.input
      serve (fun i => rev (i + 1)) lru ts

/-- A stack that is all zero. -/
def blank : Frame := ⟨fun _ => 0, fun _ => 0, fun _ => 0, fun _ => 0, fun _ => 0, fun _ => 0⟩

/-- Memory for a cache, all zero. -/
def zeroedMemory : Cache where
  capacity := 0
  size := 0
  head := 0
  tail := 0
  pre := fun _ => 0
  nxt := fun _ => 0
  key := fun _ => []
  data := fun _ => zeroed
  brk := 1

/-- Every connection is made, and nothing is sent back. -/
def silent : Net := ⟨fun _ _ => true, []⟩

/-! ## The events of the parts -/

section

variable {P : Event → Prop}

theorem emits_clienterror (h : ∀ s, P (.errorPage s))
    (cause errnum shortmsg longmsg : List UInt8) :
    Emits P (clienterror cause errnum shortmsg longmsg) := by
  intro e he
  simp only [clienterror, events_emit_bind, events_emit, List.mem_cons, List.not_mem_nil,
    or_false] at he
  rcases he with rfl | rfl | rfl | rfl | rfl | rfl | rfl <;> exact h _

theorem emits_sprintf (s : List UInt8) : Emits P (sprintf s) := by
  unfold sprintf
  exact Emits.ite (.pure _) (.stop _)

theorem emits_headerLoop (h : ∀ s, P (.forward s)) (fuel : ℕ) (seen : Seen)
    (buf input : List UInt8) : Emits P (headerLoop fuel seen buf input) := by
  induction fuel generalizing seen buf input with
  | zero => exact .stop _
  | succ fuel ih =>
      unfold headerLoop
      split_ifs
      · exact .pure _
      · exact Emits.bind (.emit (h _)) fun _ => ih _ _ _

theorem emits_addHeaders (h : ∀ s, P (.forward s)) (seen : Seen) (hostname : List UInt8) :
    Emits P (addHeaders seen hostname) := by
  have hforward : ∀ s, Emits P (emit (.forward s) : Run Unit) := fun s => .emit (h s)
  have hadd : ∀ (b : Bool) (s : List UInt8) {x : Run Unit}, Emits P x →
      Emits P (if b = false then emit (.forward s) >>= fun _ => x else x) :=
    fun b s x hx => Emits.ite (Emits.bind (hforward s) fun _ => hx) hx
  have hrest := hadd seen.ua userAgentHdr (hadd seen.conn (text "Connection: close\r\n")
    (hadd seen.proxyConn (text "Proxy-Connection: close\r\n") (hforward crlf)))
  exact Emits.ite (Emits.bind (emits_sprintf _) fun s => Emits.bind (hforward s) fun _ => hrest)
    hrest

theorem emits_responseLoop (h : ∀ s, P (.reply s)) (revData : Option CacheData)
    (pieces : List (List UInt8)) : Emits P (responseLoop revData pieces) := by
  induction pieces generalizing revData with
  | nil => exact .pure _
  | cons buf pieces ih =>
      unfold responseLoop
      split_ifs
      · exact .pure _
      · exact Emits.bind (.emit (h _)) fun _ => Emits.bind (.require _ _) fun _ => ih _

theorem emits_sendRequest (h : ∀ s, P (.forward s)) (f : Frame) (hostname input : List UInt8) :
    Emits P (sendRequest f hostname input) := by
  unfold sendRequest
  refine Emits.bind (.require _ _) fun _ => Emits.bind (.require _ _) fun _ =>
    Emits.bind (.require _ _) fun _ => Emits.bind (emits_sprintf _) fun _ => ?_
  exact Emits.bind (.emit (h _)) fun _ =>
    Emits.bind (emits_headerLoop h _ _ _ _) fun _ => emits_addHeaders h _ _

theorem emits_forwardRequest (h : ∀ s, P (.forward s))
    (hconnect : ∀ hostname port, P (.connect hostname port))
    (hpage : ∀ longmsg, Emits P (clienterror [] (text "500") [] longmsg))
    (net : Net) (f : Frame) (input : List UInt8) : Emits P (forwardRequest net f input) := by
  have hrefused : ∀ longmsg, Emits P
      (clienterror [] (text "500") [] longmsg >>= fun _ => (pure none : Run (Option Frame))) :=
    fun longmsg => Emits.bind (hpage longmsg) fun _ => .pure _
  unfold forwardRequest
  refine Emits.bind (.require _ _) fun _ => Emits.ite (hrefused _) ?_
  refine Emits.bind (.require _ _) fun _ => Emits.ite (hrefused _) ?_
  refine Emits.bind (.require _ _) fun _ => Emits.bind (.require _ _) fun _ => ?_
  exact Emits.bind (.emit (hconnect _ _)) fun _ =>
    Emits.ite (Emits.bind (emits_sendRequest h _ _ _) fun _ => .pure _) (.stop _)

theorem emits_storeObject (hstore : ∀ url len content, P (.store url len content))
    (hevict : ∀ url, P (.evict url)) (lru : Cache) (url : List UInt8) (d : CacheData) :
    Emits P (storeObject lru url d) := by
  unfold storeObject
  refine Emits.bind (.require _ _) fun lru' => Emits.bind (.emit (hstore _ _ _)) fun _ => ?_
  cases evicted lru url with
  | some k => exact Emits.bind (.emit (hevict k)) fun _ => .pure _
  | none => exact .pure _

end

/-! ## What a miss does -/

/-- The string in an array is known. -/
theorem readString_eq {b : ℕ → UInt8} {s : List UInt8} (h : stringAt MAXLINE b 0 = some s) :
    readString b = pure s := by
  rw [readString, h, require_some]

/-- **A request that is not answered from the cache.** -/
theorem doit_miss {net : Net} {f : Frame} {rev : CacheData} {lru lru' : Cache}
    {input line rest url : List UInt8} (hread : rioReadlineb MAXLINE input = (line, rest))
    (hline : line ≠ []) (hurl : stringAt MAXLINE (scanRequest f line).url 0 = some url)
    (hget : Lru.lruGet lru url = some (lru', none)) :
    doit net f rev lru input =
      (emit (.lookup url false) >>= fun _ => fetch net (scanRequest f line) rev lru' rest) := by
  rw [doit, hread]
  simp only
  rw [if_neg (by rwa [List.length_eq_zero_iff]), readString_eq hurl, pure_bind, hget, require_some,
    pure_bind]
  rfl

/-- A look-up that misses. -/
theorem lruGet_miss {lru : Cache} {es : List (List UInt8 × CacheData)} (hold : Lru.Holds lru es)
    {url : List UInt8} (hmiss : url ∉ es.map Prod.fst) :
    ∃ lru', Lru.lruGet lru url = some (lru', none) ∧ Lru.Holds lru' es ∧
      lru'.size = lru.size ∧ lru'.capacity = lru.capacity := by
  obtain ⟨lru', hget, hold', hsize, hcap⟩ := Lru.lruGet_spec hold url
  rw [Lru.valueOf_eq_none.mpr hmiss] at hget
  rw [Lru.getEntries, Lru.valueOf_eq_none.mpr hmiss] at hold'
  exact ⟨lru', hget, hold', hsize, hcap⟩

end Proxy
