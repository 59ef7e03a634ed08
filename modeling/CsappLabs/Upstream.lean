/-
# What is sent upstream

Whether the old contents of the stack of `doit` decide about a request that is not
answered from the cache: about its error page, the host and the port it connects to, or
the bytes it sends to the origin server.

They do whenever the request gets so far that the hostname is used: its array is never
terminated by `parseUrl`.  `Determined` lists the other requests, those that end with an
error page, a crash or a refused connection before anything is forwarded.
-/
import CsappLabs.ParseUrl

open Effects Effects.Prog CString Relay

namespace Proxy

/-- What the decision about a request, and the origin server, see. -/
def Event.upstream : Event → Bool
  | .connect _ _ => true
  | .forward _ => true
  | .errorPage _ => true
  | _ => false

def upstream (x : Run Cache) : List Event := x.events.filter Event.upstream

/-- The old contents of the arrays of the URL, its path, host and port decide nothing. -/
def Independent (net : Net) (rev : CacheData) (lru : Cache) (input : List UInt8) : Prop :=
  ∀ f₁ f₂ : Frame, f₁.method = f₂.method → f₁.version = f₂.version →
    upstream (doit net f₁ rev lru input) = upstream (doit net f₂ rev lru input)

def isGet (m : List UInt8) : Bool := m.map tolower = (text "GET").map tolower

def isHttp11 (v : List UInt8) : Bool := v.map tolower = (text "http/1.1").map tolower

/-- The requests about which old contents decide nothing: another method; no scheme, and
another version or a refused connection; another scheme; a path, and another version or a
colon only behind the host. -/
inductive Determined (net : Net) (m u v : List UInt8) : Prop where
  | method : isGet m = false → Determined net m u v
  | noScheme : strstr u (text "://") = none →
      isHttp11 v = false ∨ net.opens [] [] = false → Determined net m u v
  | otherScheme {p : ℕ} : strstr u (text "://") = some p →
      strncasecmp u (text "http://") 7 = false → Determined net m u v
  | version {p i : ℕ} : strstr u (text "://") = some p →
      strncasecmp u (text "http://") 7 = true → strchr (u.drop (p + 3)) slash = some i →
      isHttp11 v = false → Determined net m u v
  | port {p i j : ℕ} : strstr u (text "://") = some p →
      strncasecmp u (text "http://") 7 = true → strchr (u.drop (p + 3)) slash = some i →
      strchr (u.drop (p + 3)) colon = some j → i ≤ j → Determined net m u v

/-! ## Up to the connection -/

/-- The stack after `sscanf` has found three words. -/
def Frame.scanned (f : Frame) (m u v : List UInt8) : Frame :=
  { f with method := strcpy f.method m, url := strcpy f.url u, version := strcpy f.version v }

/-- Three words of a line that fits into the buffer. -/
structure ThreeWords (line m u v : List UInt8) : Prop where
  words : words 3 (cstring line) = [m, u, v]
  le : line.length ≤ MAXLINE - 1

namespace ThreeWords

variable {line m u v : List UInt8}

theorem scanRequest (h : ThreeWords line m u v) (f : Frame) :
    scanRequest f line = f.scanned m u v := by
  rw [Proxy.scanRequest, h.words]
  rfl

/-- The words take no more room than the line. -/
theorem length_le (h : ThreeWords line m u v) :
    m.length + u.length + v.length ≤ MAXLINE - 1 := by
  have hsub := (words_sublist 3 (cstring line)).length_le
  have hcs : (cstring line).length ≤ line.length := (List.takeWhile_sublist _).length_le
  rw [h.words] at hsub
  simp only [List.flatten_cons, List.flatten_nil, List.append_nil, List.length_append] at hsub
  have := h.le
  omega

theorem ne_nil (h : ThreeWords line m u v) : line ≠ [] := by
  rintro rfl
  exact absurd h.words (by simp [cstring, CString.words])

theorem nul_notMem (h : ThreeWords line m u v) : (0 : UInt8) ∉ m ++ u ++ v := by
  intro hmem
  have hsub := (words_sublist 3 (cstring line)).subset
  rw [h.words] at hsub
  have hcs : (0 : UInt8) ∈ cstring line := hsub (by simpa [or_assoc] using hmem)
  have hnot := List.mem_takeWhile_imp hcs
  simp at hnot

theorem nul_notMem_drop (h : ThreeWords line m u v) (k : ℕ) : (0 : UInt8) ∉ u.drop k := by
  intro hmem
  exact h.nul_notMem (by simp [List.mem_of_mem_drop hmem])

theorem stringAt_method (h : ThreeWords line m u v) (f : Frame) :
    stringAt MAXLINE (f.scanned m u v).method 0 = some m := by
  have hnul := h.nul_notMem
  have hlen := h.length_le
  simp only [List.mem_append, not_or] at hnul
  exact stringAt_strcpy _ hnul.1.1 (by rw [MAXLINE] at hlen ⊢; omega)

theorem stringAt_url (h : ThreeWords line m u v) (f : Frame) :
    stringAt MAXLINE (f.scanned m u v).url 0 = some u := by
  have hnul := h.nul_notMem
  have hlen := h.length_le
  simp only [List.mem_append, not_or] at hnul
  exact stringAt_strcpy _ hnul.1.2 (by rw [MAXLINE] at hlen ⊢; omega)

theorem stringAt_version (h : ThreeWords line m u v) (f : Frame) :
    stringAt MAXLINE (f.scanned m u v).version 0 = some v := by
  have hnul := h.nul_notMem
  have hlen := h.length_le
  simp only [List.mem_append, not_or] at hnul
  exact stringAt_strcpy _ hnul.2 (by rw [MAXLINE] at hlen ⊢; omega)

end ThreeWords

/-- The words of a line that was read. -/
theorem threeWords {input line rest m u v : List UInt8}
    (hread : rioReadlineb MAXLINE input = (line, rest))
    (hwords : words 3 (cstring line) = [m, u, v]) : ThreeWords line m u v := by
  refine ⟨hwords, ?_⟩
  have := length_readlinebLoop (MAXLINE - 1) input
  rw [rioReadlineb] at hread
  rwa [hread] at this

theorem strcasecmp_method {f : Frame} {m : List UInt8}
    (hm : stringAt MAXLINE f.method 0 = some m) :
    strcasecmp f.method 0 (text "GET") = isGet m := strcasecmp_eq hm (by simp [text])

theorem strcasecmp_version {f : Frame} {v : List UInt8}
    (hv : stringAt MAXLINE f.version 0 = some v) :
    strcasecmp f.version 0 (text "http/1.1") = isHttp11 v := strcasecmp_eq hv (by simp [text])

/-- The version is another one. -/
theorem parseVersion_bad {f : Frame} {v : List UInt8} (hv : stringAt MAXLINE f.version 0 = some v)
    (hbad : isHttp11 v = false) : parseVersion f = some (f, -1) := by
  rw [parseVersion, strcasecmp_version hv, hbad]
  rfl

/-- The version is the right one, and made an older one. -/
theorem parseVersion_ok {f : Frame} {v : List UInt8} (hv : stringAt MAXLINE f.version 0 = some v)
    (hok : isHttp11 v = true) :
    parseVersion f =
      some ({ f with version := Function.update f.version (v.length - 1) 48 }, 0) := by
  rw [parseVersion, strcasecmp_version hv, hok, if_pos rfl, hv]
  rfl

/-- A URL with a path, as `sscanf` left it. -/
theorem parseUrl_path {line m u v : List UInt8} (hthree : ThreeWords line m u v) {p i : ℕ}
    (hscheme : strstr u (text "://") = some p)
    (hhttp : strncasecmp u (text "http://") 7 = true)
    (hslash : strchr (u.drop (p + 3)) slash = some i) (f : Frame) :
    parseUrl (f.scanned m u v) = (f.scanned m u v).split (u.drop (p + 3)) i := by
  have hurl := hthree.stringAt_url f
  have hle := scheme_le hscheme
  have hi : p + 3 + i ≤ u.length := by
    obtain ⟨l, r, hsplit, -, rfl⟩ := strchr_eq_some.mp hslash
    have := congrArg List.length hsplit
    simp only [List.length_drop, List.length_append, List.length_cons] at this
    omega
  rw [parseUrl_slash hurl hscheme hhttp hslash, splitUrl_eq hurl hi]

theorem length_of_isGet {m : List UInt8} (h : isGet m = true) : m.length = 3 := by
  rw [isGet, decide_eq_true_eq] at h
  have := congrArg List.length h
  rwa [List.length_map, show ((text "GET").map tolower).length = 3 by simp [text]] at this

theorem length_of_isHttp11 {v : List UInt8} (h : isHttp11 v = true) : v.length = 8 := by
  rw [isHttp11, decide_eq_true_eq] at h
  have := congrArg List.length h
  rwa [List.length_map, show ((text "http/1.1").map tolower).length = 8 by simp [text]] at this

section

variable {net : Net} {f f' f'' : Frame} {rest : List UInt8}

theorem forwardRequest_crash (hparse : parseUrl f = none) :
    forwardRequest net f rest = stop .crash := by
  rw [forwardRequest, hparse, require_none, stop_bind]

theorem forwardRequest_badUrl (hparse : parseUrl f = some (f', -1)) :
    forwardRequest net f rest =
      (clienterror [] (text "500") [] (text "parseUrl Error") >>= fun _ => pure none) := by
  rw [forwardRequest, hparse, require_some, pure_bind]
  rfl

theorem forwardRequest_badVersion (hparse : parseUrl f = some (f', 0))
    (hversion : parseVersion f' = some (f'', -1)) :
    forwardRequest net f rest =
      (clienterror [] (text "500") [] (text "parseVersion Error") >>= fun _ => pure none) := by
  rw [forwardRequest, hparse, require_some, pure_bind]
  simp only
  rw [if_neg (by decide), hversion, require_some, pure_bind]
  rfl

theorem forwardRequest_connect {hostname port : List UInt8} (hparse : parseUrl f = some (f', 0))
    (hversion : parseVersion f' = some (f'', 0))
    (hhost : stringAt MAXLINE f''.hostname 0 = some hostname)
    (hport : stringAt MAXLINE f''.port 0 = some port) :
    forwardRequest net f rest =
      (emit (.connect hostname port) >>= fun _ =>
        if net.opens hostname port then
          sendRequest f'' hostname rest >>= fun _ => pure (some f'')
        else stop .exit) := by
  rw [forwardRequest, hparse, require_some, pure_bind]
  simp only
  rw [if_neg (by decide), hversion, require_some, pure_bind]
  simp only
  rw [if_neg (by decide), readString_eq hhost, pure_bind, readString_eq hport, pure_bind]

end

/-! ## Requests that are decided -/

section

variable {net : Net} {rev : CacheData} {lru lru' : Cache} {input line rest m u v : List UInt8}

/-- A miss, with the stack that `sscanf` leaves. -/
theorem ThreeWords.doit_miss (hthree : ThreeWords line m u v)
    (hread : rioReadlineb MAXLINE input = (line, rest))
    (hget : Lru.lruGet lru u = some (lru', none)) (f : Frame) :
    doit net f rev lru input =
      (emit (.lookup u false) >>= fun _ => fetch net (f.scanned m u v) rev lru' rest) := by
  have hurl : stringAt MAXLINE (Proxy.scanRequest f line).url 0 = some u := by
    rw [hthree.scanRequest]
    exact hthree.stringAt_url f
  rw [Proxy.doit_miss hread hthree.ne_nil hurl hget, hthree.scanRequest]

/-- What is decided about a miss, and sent, is what `fetch` does. -/
theorem upstream_doit (hthree : ThreeWords line m u v)
    (hread : rioReadlineb MAXLINE input = (line, rest))
    (hget : Lru.lruGet lru u = some (lru', none)) (f : Frame) :
    upstream (doit net f rev lru input) = upstream (fetch net (f.scanned m u v) rev lru' rest) := by
  rw [upstream, hthree.doit_miss hread hget f, events_emit_bind]
  rfl

theorem fetch_get {f : Frame} (hthree : ThreeWords line m u v) (hm : isGet m = true) :
    fetch net (f.scanned m u v) rev lru rest =
      (forwardRequest net (f.scanned m u v) rest >>= afterRequest net rev lru) := by
  rw [fetch, strcasecmp_method (hthree.stringAt_method f), if_pos hm]

/-- Nothing is sent to the origin server, and `doit` does not go on to a response. -/
structure Unsent (x : Run (Option Frame)) : Prop where
  events : Emits (fun e => ∀ s, e ≠ .forward s) x
  result : ∀ o, x.result = .ok o → o = none

theorem unsent_page (longmsg : List UInt8) :
    Unsent (clienterror [] (text "500") [] longmsg >>= fun _ => pure none) := by
  refine ⟨Emits.bind (emits_clienterror (fun _ => nofun) _ _ _ _) fun _ => .pure _, ?_⟩
  rintro o ⟨⟩
  rfl

theorem unsent_crash : Unsent (stop .crash) := ⟨.stop _, nofun⟩

/-- Where the hostname is not used, the request is handled alike on every stack, and is not
sent. -/
theorem Determined.forwardRequest_eq (h : Determined net m u v) (hthree : ThreeWords line m u v)
    (hm : isGet m = true) :
    ∃ x, Unsent x ∧ ∀ f : Frame, forwardRequest net (f.scanned m u v) rest = x := by
  cases h with
  | method hnot => exact absurd hm (by simp [hnot])
  | otherScheme hscheme hother =>
      exact ⟨_, unsent_page _, fun f =>
        forwardRequest_badUrl (parseUrl_otherScheme (hthree.stringAt_url f) hscheme hother)⟩
  | noScheme hscheme hor =>
      have hparse := fun f => parseUrl_noScheme (hthree.stringAt_url f) hscheme
      cases hv : isHttp11 v with
      | false =>
          exact ⟨_, unsent_page _, fun f =>
            forwardRequest_badVersion (hparse f) (parseVersion_bad (hthree.stringAt_version f) hv)⟩
      | true =>
          -- the connection to no host is refused
          have hrefused : net.opens [] [] = false := by simpa [hv] using hor
          refine ⟨emit (.connect [] []) >>= fun _ => stop .exit,
            ⟨Emits.bind (.emit fun _ => nofun) fun _ => .stop _, nofun⟩, fun f => ?_⟩
          rw [forwardRequest_connect (hparse f) (parseVersion_ok (hthree.stringAt_version f) hv)
            (stringAt_cleared (by decide) _) (stringAt_cleared (by decide) _), hrefused]
          simp only [Bool.false_eq_true, if_false]
  | @version p i hscheme hhttp hslash hbad =>
      have hparse := parseUrl_path hthree hscheme hhttp hslash
      -- the version is read from an array that `parseUrl` does not write
      have hversion : ∀ f f' : Frame, f'.version = (f.scanned m u v).version →
          parseVersion f' = some (f', -1) := fun f f' hf =>
        parseVersion_bad (hf ▸ hthree.stringAt_version f) hbad
      unfold Frame.split at hparse
      cases hcolon : strchr (u.drop (p + 3)) colon with
      | none =>
          simp only [hcolon] at hparse
          exact ⟨_, unsent_page _, fun f => forwardRequest_badVersion (hparse f) (hversion f _ rfl)⟩
      | some j =>
          simp only [hcolon] at hparse
          by_cases hlt : j < i
          · simp only [if_pos hlt] at hparse
            exact ⟨_, unsent_page _, fun f =>
              forwardRequest_badVersion (hparse f) (hversion f _ rfl)⟩
          · simp only [if_neg hlt] at hparse
            exact ⟨_, unsent_crash, fun f => forwardRequest_crash (hparse f)⟩
  | @port p i j hscheme hhttp hslash hcolon hle =>
      refine ⟨_, unsent_crash, fun f => forwardRequest_crash ?_⟩
      have hparse := parseUrl_path hthree hscheme hhttp hslash f
      simp only [Frame.split, hcolon] at hparse
      rw [hparse, if_neg (by omega)]

/-- **None of these requests is forwarded**: what goes to an origin server always depends on
old contents. -/
theorem Determined.unforwarded (h : Determined net m u v) (hthree : ThreeWords line m u v)
    (f : Frame) :
    Emits (fun e => ∀ s, e ≠ .forward s) (fetch net (f.scanned m u v) rev lru rest) := by
  cases hm : isGet m with
  | false =>
      rw [fetch, strcasecmp_method (hthree.stringAt_method f), hm]
      exact Emits.bind (emits_clienterror (fun _ => nofun) _ _ _ _) fun _ => .pure _
  | true =>
      obtain ⟨x, hunsent, hx⟩ := h.forwardRequest_eq hthree hm
      rw [fetch_get hthree hm, hx f]
      cases hresult : x.result with
      | ok o =>
          obtain rfl := hunsent.result o hresult
          rw [bind_of_ok hresult]
          intro e he
          exact hunsent.events e ((List.mem_append.mp he).resolve_right List.not_mem_nil)
      | error stop =>
          rw [bind_of_error hresult]
          exact hunsent.events

/-- **Old contents decide nothing** about these requests. -/
theorem Determined.fetch_same (h : Determined net m u v) (hthree : ThreeWords line m u v)
    (f₁ f₂ : Frame) :
    upstream (fetch net (f₁.scanned m u v) rev lru rest) =
      upstream (fetch net (f₂.scanned m u v) rev lru rest) := by
  cases hm : isGet m with
  | false =>
      rw [fetch, strcasecmp_method (hthree.stringAt_method f₁), hm, fetch,
        strcasecmp_method (hthree.stringAt_method f₂), hm]
      simp only [Bool.false_eq_true, if_false]
  | true =>
      obtain ⟨x, -, hx⟩ := h.forwardRequest_eq hthree hm
      rw [fetch_get hthree hm, fetch_get hthree hm, hx f₁, hx f₂]

/-! ## Requests that are not -/

/-- The first event of a connection. -/
theorem head_upstream_fetch {f f' f'' : Frame} {hostname port : List UInt8}
    (hthree : ThreeWords line m u v) (hm : isGet m = true)
    (hparse : parseUrl (f.scanned m u v) = some (f', 0))
    (hversion : parseVersion f' = some (f'', 0))
    (hhost : stringAt MAXLINE f''.hostname 0 = some hostname)
    (hport : stringAt MAXLINE f''.port 0 = some port) :
    (upstream (fetch net (f.scanned m u v) rev lru rest)).head? =
      some (.connect hostname port) := by
  rw [fetch_get hthree hm, forwardRequest_connect hparse hversion hhost hport, bind_assoc, upstream,
    events_emit_bind]
  rfl

/-- Two stacks with another hostname left on them. -/
theorem not_independent_of_host (hthree : ThreeWords line m u v)
    (hread : rioReadlineb MAXLINE input = (line, rest))
    (hget : Lru.lruGet lru u = some (lru', none)) (hm : isGet m = true) (hv : isHttp11 v = true)
    {after : List UInt8} {i : ℕ} {F : (ℕ → UInt8) → Frame}
    (hparse : ∀ b, parseUrl (({ blank with hostname := b } : Frame).scanned m u v) =
      (F b).split after i)
    (hhost : ∀ b, (F b).hostname = b) (hport : ∀ b, (F b).port = blank.port)
    (hversion : ∀ b, (F b).version = strcpy blank.version v)
    (hnul : (0 : UInt8) ∉ after) (hlen : after.length + 1 < MAXLINE) (hi : i ≤ after.length)
    (hcolon : ∀ j, strchr after colon = some j → j < i) :
    ¬ Independent net rev lru input := by
  -- the hostname is a copy of the first `k` characters, without a NUL
  obtain ⟨k, hk, port, hsplit⟩ : ∃ k, k ≤ after.length ∧ ∃ port, ∀ b, ∃ f',
      (F b).split after i = some (f', 0) ∧ f'.hostname = strncpy b 0 after k ∧
      stringAt MAXLINE f'.port 0 = some port ∧ f'.version = strcpy blank.version v := by
    unfold Frame.split
    cases hc : strchr after colon with
    | none =>
        refine ⟨i, hi, [], fun b => ⟨(F b).withHost after i, rfl, ?_, ?_, hversion b⟩⟩
        · rw [Frame.withHost, hhost]
        · show stringAt MAXLINE (F b).port 0 = some []
          rw [hport]
          exact stringAt_eq_some.mpr ⟨List.not_mem_nil, by decide, by simp, rfl⟩
    | some j =>
        have hj := hcolon j hc
        refine ⟨j, by omega, (after.drop (j + 1)).take (i - (j + 1)), fun b =>
          ⟨(F b).withPort after i j, if_pos hj, ?_, ?_, hversion b⟩⟩
        · rw [Frame.withPort, hhost]
        · show stringAt MAXLINE (strncpy (F b).port 0 (after.drop (j + 1)) (i - (j + 1))) 0 = _
          rw [hport]
          refine stringAt_strncpy_zero (fun h => hnul (List.mem_of_mem_drop h)) ?_ ?_
          · rw [List.length_drop]
            omega
          · rw [List.length_drop]
            omega
  have hconnect : ∀ b hostname, stringAt MAXLINE (strncpy b 0 after k) 0 = some hostname →
      (upstream (doit net { blank with hostname := b } rev lru input)).head? =
        some (.connect hostname port) := by
    intro b hostname hname
    obtain ⟨f', hf', hhost', hport', hversion'⟩ := hsplit b
    have hv' : stringAt MAXLINE f'.version 0 = some v := by
      rw [hversion']
      exact hthree.stringAt_version blank
    rw [upstream_doit hthree hread hget]
    refine head_upstream_fetch hthree hm ((hparse b).trans hf') (parseVersion_ok hv' hv) ?_ hport'
    show stringAt MAXLINE f'.hostname 0 = some hostname
    rw [hhost']
    exact hname
  intro hsame
  have hzero := hconnect (fun _ => 0) _ (stringAt_strncpy_zero hnul hk (by omega))
  have hleft := hconnect (leftover k) _ (stringAt_strncpy_leftover hnul hk hlen)
  rw [hsame { blank with hostname := fun _ => 0 } { blank with hostname := leftover k } rfl rfl,
    hleft, Option.some_inj, Event.connect.injEq] at hzero
  have := congrArg List.length hzero.1
  rw [List.length_append, List.length_singleton] at this
  omega

/-- The request line, when it fits into its buffer. -/
theorem sendRequest_line {f : Frame} {hostname uri v' : List UInt8}
    (hm : stringAt MAXLINE f.method 0 = some m) (huri : stringAt MAXLINE f.uri 0 = some uri)
    (hv : stringAt MAXLINE f.version 0 = some v')
    (hlen : (m ++ text " " ++ uri ++ text " " ++ v' ++ crlf).length < MAXLINE) :
    sendRequest f hostname rest =
      (emit (.forward (m ++ text " " ++ uri ++ text " " ++ v' ++ crlf)) >>= fun _ =>
        forwardHeaders (m ++ text " " ++ uri ++ text " " ++ v' ++ crlf) rest >>= fun seen =>
          addHeaders seen hostname) := by
  rw [sendRequest, readString_eq hm, pure_bind, readString_eq huri, pure_bind, readString_eq hv,
    pure_bind, sprintf, if_pos hlen, pure_bind]

/-- Two stacks with another path left on them. -/
theorem not_independent_of_path (hthree : ThreeWords line m u v)
    (hread : rioReadlineb MAXLINE input = (line, rest))
    (hget : Lru.lruGet lru u = some (lru', none)) (hm : isGet m = true) (hv : isHttp11 v = true)
    (hscheme : strstr u (text "://") = none) (hopens : net.opens [] [] = true) :
    ¬ Independent net rev lru input := by
  have hmlen := length_of_isGet hm
  have hvlen := length_of_isHttp11 hv
  have hsent : ∀ b uri, stringAt MAXLINE b 0 = some uri → uri.length ≤ 1 →
      ∃ es, upstream (doit net { blank with uri := b } rev lru input) =
        .connect [] [] :: .forward (m ++ text " " ++ uri ++ text " " ++
          v.set (v.length - 1) 48 ++ crlf) :: es := by
    intro b uri huri hle
    have hversion := hthree.stringAt_version { blank with uri := b }
    have hfits : (m ++ text " " ++ uri ++ text " " ++ v.set (v.length - 1) 48 ++ crlf).length <
        MAXLINE := by
      simp only [List.length_append, List.length_set, hmlen, hvlen,
        show (text " ").length = 1 by simp [text], show crlf.length = 2 by rfl, MAXLINE]
      omega
    -- the stack when the request line is written
    generalize hF : ({ blank with uri := b } : Frame).scanned m u v = F at hversion
    have hmethod : stringAt MAXLINE F.method 0 = some m := hF ▸ hthree.stringAt_method _
    have hurl : stringAt MAXLINE F.url 0 = some u := hF ▸ hthree.stringAt_url _
    have hpath : stringAt MAXLINE F.uri 0 = some uri := hF ▸ huri
    have hline := @sendRequest_line rest m { F with
      port := Function.update F.port 0 0
      hostname := Function.update F.hostname 0 0
      version := Function.update F.version (v.length - 1) 48 } [] uri _ hmethod hpath
      (stringAt_update hversion (by omega) (by decide)) hfits
    rw [upstream_doit hthree hread hget, fetch_get hthree hm, hF,
      forwardRequest_connect (parseUrl_noScheme hurl hscheme) (parseVersion_ok hversion hv)
        (stringAt_cleared (by decide) _) (stringAt_cleared (by decide) _), hopens, if_pos rfl]
    simp only [hline, upstream, bind_assoc, events_emit_bind]
    exact ⟨_, rfl⟩
  intro hsame
  obtain ⟨es₁, h₁⟩ := hsent (fun _ => 0) [] (stringAt_eq_some.mpr
    ⟨List.not_mem_nil, by decide, by simp, rfl⟩) (by simp)
  obtain ⟨es₂, h₂⟩ := hsent (leftover 0) [120] (stringAt_eq_some.mpr
    ⟨by decide, by decide, fun i hi => by simp at hi; simp [hi, leftover], rfl⟩) (by simp)
  rw [hsame { blank with uri := fun _ => 0 } { blank with uri := leftover 0 } rfl rfl, h₂] at h₁
  simp only [List.cons.injEq, Event.forward.injEq, true_and] at h₁
  have := congrArg List.length h₁.1
  simp only [List.length_append, List.length_cons, List.length_nil] at this
  omega

/-- A URL without a path on a stack that was zero: the added slash is a path. -/
theorem parseUrl_noPath {f : Frame} (hthree : ThreeWords line m u v) (hm : isGet m = true)
    (hzero : f.url = blank.url) {p : ℕ} (hscheme : strstr u (text "://") = some p)
    (hhttp : strncasecmp u (text "http://") 7 = true)
    (hslash : strchr (u.drop (p + 3)) slash = none) :
    parseUrl (f.scanned m u v) =
      ({ f.scanned m u v with
        url := Function.update (f.scanned m u v).url u.length slash } : Frame).split
          (u.drop (p + 3) ++ [slash]) (u.length - (p + 3)) := by
  have hurl := hthree.stringAt_url f
  have hlen := hthree.length_le
  have hmlen := length_of_isGet hm
  have hle := scheme_le hscheme
  rw [MAXLINE] at hlen
  have hnext : (f.scanned m u v).url (u.length + 1) = 0 := by
    show strcpy f.url u (u.length + 1) = 0
    rw [strcpy_after _ (Nat.lt_succ_self _), hzero]
    rfl
  have hext := stringAt_extend hurl (c := slash) (by decide) (by rw [MAXLINE]; omega) hnext
  have hsplit := @splitUrl_eq { f.scanned m u v with
    url := Function.update (f.scanned m u v).url u.length slash } _ (p + 3) (u.length - (p + 3))
    hext (by rw [List.length_append]; omega)
  rw [show p + 3 + (u.length - (p + 3)) = u.length by omega, List.drop_append_of_le_length hle]
    at hsplit
  rw [parseUrl_noSlash hurl hscheme hhttp hslash]
  exact hsplit

/-- A colon is found before the slash at the end. -/
theorem strchr_before_slash {s : List UInt8} {j : ℕ} (h : strchr (s ++ [slash]) colon = some j) :
    j < s.length := by
  obtain ⟨l, r, hsplit, -, rfl⟩ := strchr_eq_some.mp h
  have hlen := congrArg List.length hsplit
  simp only [List.length_append, List.length_cons, List.length_nil] at hlen
  by_contra hge
  have hr : r = [] := List.length_eq_zero_iff.mp (by omega)
  rw [hr] at hsplit
  exact absurd (List.append_inj_right' hsplit rfl) (by decide)

/-- Two stacks with other bytes left behind the URL. -/
theorem not_independent_of_url (hthree : ThreeWords line m u v)
    (hread : rioReadlineb MAXLINE input = (line, rest))
    (hget : Lru.lruGet lru u = some (lru', none)) (hm : isGet m = true) (hv : isHttp11 v = false)
    {p : ℕ} (hscheme : strstr u (text "://") = some p)
    (hhttp : strncasecmp u (text "http://") 7 = true)
    (hslash : strchr (u.drop (p + 3)) slash = none) :
    ¬ Independent net rev lru input := by
  intro hsame
  have hdoit := hsame blank { blank with url := fun _ => 1 } rfl rfl
  rw [upstream_doit hthree hread hget, upstream_doit hthree hread hget, fetch_get hthree hm,
    fetch_get hthree hm] at hdoit
  -- with zeroes behind the URL the version is refused
  obtain ⟨f', hparse, hversion⟩ : ∃ f', parseUrl (blank.scanned m u v) = some (f', 0) ∧
      f'.version = (blank.scanned m u v).version := by
    rw [parseUrl_noPath hthree hm rfl hscheme hhttp hslash, Frame.split]
    cases hcolon : strchr (u.drop (p + 3) ++ [slash]) colon with
    | none => exact ⟨_, rfl, rfl⟩
    | some j =>
        have hj := strchr_before_slash hcolon
        rw [List.length_drop] at hj
        exact ⟨_, if_pos hj, rfl⟩
  have hbad : parseVersion f' = some (f', -1) :=
    parseVersion_bad (hversion ▸ hthree.stringAt_version blank) hv
  -- without any zero the path runs over the end of its array
  have hcrash : parseUrl (({ blank with url := fun _ => 1 } : Frame).scanned m u v) = none := by
    rw [parseUrl_noSlash (hthree.stringAt_url _) hscheme hhttp hslash]
    refine splitUrl_none _ (stringAt_eq_none fun j hj _ => ?_)
    show Function.update (strcpy (fun _ => 1) u) u.length slash j ≠ 0
    by_cases hju : j = u.length
    · rw [hju, Function.update_self]
      decide
    · rw [Function.update_of_ne hju, strcpy_after _ (by omega)]
      decide
  rw [forwardRequest_badVersion hparse hbad, forwardRequest_crash hcrash] at hdoit
  exact absurd hdoit (by simp [upstream, clienterror, Event.upstream])

/-- A URL without a path: the bytes behind it decide, or the hostname does. -/
theorem not_independent_noPath (hthree : ThreeWords line m u v)
    (hread : rioReadlineb MAXLINE input = (line, rest))
    (hget : Lru.lruGet lru u = some (lru', none)) (hm : isGet m = true) {p : ℕ}
    (hscheme : strstr u (text "://") = some p) (hhttp : strncasecmp u (text "http://") 7 = true)
    (hslash : strchr (u.drop (p + 3)) slash = none) : ¬ Independent net rev lru input := by
  have hlen := hthree.length_le
  have hmlen := length_of_isGet hm
  have hle := scheme_le hscheme
  rw [MAXLINE] at hlen
  cases hv : isHttp11 v with
  | false => exact not_independent_of_url hthree hread hget hm hv hscheme hhttp hslash
  | true =>
      refine not_independent_of_host hthree hread hget hm hv
        (fun b => @parseUrl_noPath line m u v { blank with hostname := b } hthree hm rfl p hscheme
          hhttp hslash)
        (fun _ => rfl) (fun _ => rfl) (fun _ => rfl) ?_ ?_ ?_ fun j hj => ?_
      · rw [List.mem_append, List.mem_singleton, not_or]
        exact ⟨hthree.nul_notMem_drop _, by decide⟩
      · rw [List.length_append, List.length_drop, List.length_singleton, MAXLINE]
        omega
      · rw [List.length_append, List.length_drop]
        omega
      · have := strchr_before_slash hj
        rwa [List.length_drop] at this

/-- A URL with a path: the hostname decides, unless there is no connection. -/
theorem determined_of_path (hthree : ThreeWords line m u v)
    (hread : rioReadlineb MAXLINE input = (line, rest))
    (hget : Lru.lruGet lru u = some (lru', none)) (hm : isGet m = true) {p i : ℕ}
    (hscheme : strstr u (text "://") = some p) (hhttp : strncasecmp u (text "http://") 7 = true)
    (hslash : strchr (u.drop (p + 3)) slash = some i) (hsame : Independent net rev lru input) :
    Determined net m u v := by
  have hlen := hthree.length_le
  have hmlen := length_of_isGet hm
  rw [MAXLINE] at hlen
  cases hv : isHttp11 v with
  | false => exact .version hscheme hhttp hslash hv
  | true =>
      by_contra hnot
      refine not_independent_of_host hthree hread hget hm hv
        (fun b => parseUrl_path hthree hscheme hhttp hslash { blank with hostname := b })
        (fun _ => rfl) (fun _ => rfl) (fun _ => rfl) (hthree.nul_notMem_drop _) ?_ ?_
        (fun j hj => ?_) hsame
      · rw [List.length_drop, MAXLINE]
        omega
      · obtain ⟨l, r, hsplit, -, rfl⟩ := strchr_eq_some.mp hslash
        rw [hsplit, List.length_append]
        omega
      · by_contra hge
        exact hnot (.port hscheme hhttp hslash hj (by omega))

/-- **When old contents decide nothing** about a request that is not answered from the
cache. -/
theorem independent_iff (hwords : words 3 (cstring line) = [m, u, v])
    (hread : rioReadlineb MAXLINE input = (line, rest))
    (hget : Lru.lruGet lru u = some (lru', none)) :
    Independent net rev lru input ↔ Determined net m u v := by
  have hthree := threeWords hread hwords
  constructor
  · intro hsame
    cases hm : isGet m with
    | false => exact .method hm
    | true =>
        cases hscheme : strstr u (text "://") with
        | none =>
            apply Determined.noScheme hscheme
            by_contra hor
            simp only [not_or, Bool.not_eq_false] at hor
            exact not_independent_of_path hthree hread hget hm hor.1 hscheme hor.2 hsame
        | some p =>
            cases hhttp : strncasecmp u (text "http://") 7 with
            | false => exact .otherScheme hscheme hhttp
            | true =>
                cases hslash : strchr (u.drop (p + 3)) slash with
                | none =>
                    exact absurd hsame
                      (not_independent_noPath hthree hread hget hm hscheme hhttp hslash)
                | some i => exact determined_of_path hthree hread hget hm hscheme hhttp hslash hsame
  · intro h f₁ f₂ _ _
    rw [upstream_doit hthree hread hget, upstream_doit hthree hread hget]
    exact h.fetch_same hthree f₁ f₂

end

/-- No connection is made. -/
def refusing : Net := ⟨fun _ _ => false, []⟩

/-- On every stack, a URL with a path and another version gets an error page, and a URL without
a scheme a connection to no host, which is refused. -/
theorem independent_old_version :
    Independent silent zeroed (Lru.lruInit 10 zeroedMemory)
      (text "GET http://h/ HTTP/1.0\r\n\r\n") ∧
    Independent refusing zeroed (Lru.lruInit 10 zeroedMemory) (text "GET /a HTTP/1.1\r\n\r\n") ∧
    upstream (doit refusing blank zeroed (Lru.lruInit 10 zeroedMemory)
      (text "GET /a HTTP/1.1\r\n\r\n")) = [.connect [] []] := by
  have hempty := Lru.holds_lruInit 10 zeroedMemory (by decide)
  refine ⟨?_, ?_, by decide +kernel⟩
  · obtain ⟨lru', hget, -⟩ := @lruGet_miss _ [] hempty (text "http://h/") List.not_mem_nil
    refine (@independent_iff _ _ _ _ _ _ _ (text "GET") _ (text "HTTP/1.0") ?_ Prod.mk.eta.symm
      hget).mpr (@Determined.version _ _ _ _ 4 1 ?_ ?_ ?_ ?_)
    · decide +kernel
    · decide +kernel
    · decide +kernel
    · decide +kernel
    · decide +kernel
  · obtain ⟨lru', hget, -⟩ := @lruGet_miss _ [] hempty (text "/a") List.not_mem_nil
    refine (@independent_iff _ _ _ _ _ _ _ (text "GET") _ (text "HTTP/1.1") ?_ Prod.mk.eta.symm
      hget).mpr (Determined.noScheme ?_ (Or.inr rfl))
    · decide +kernel
    · decide +kernel

/-- The name of a longer host was left on the stack: its tail is appended. -/
theorem not_independent_hostname : ¬ Independent silent zeroed (Lru.lruInit 10 zeroedMemory)
    (text "GET http://h/ HTTP/1.1\r\n\r\n") := by
  intro h
  have hsame := h blank { blank with hostname := strcpy blank.hostname (text "other.org") } rfl rfl
  revert hsame
  decide +kernel

end Proxy
