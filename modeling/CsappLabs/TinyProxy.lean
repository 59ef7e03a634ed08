/-
# Tiny behind the proxy

What the proxy sends to an origin server is a request that Tiny accepts, whatever headers the
client has sent: the request line has the three words, and the line for `Proxy-Connection` and the
empty line always come last (`sendRequest_forwards`).  So a client that asks the proxy for a file
of Tiny gets the response of Tiny, byte for byte (`file_through_proxy`).
-/
import CsappLabs.TinyAnswers
import CsappLabs.CacheAnswers
import CsappLabs.HeaderBlock

open Effects Effects.Prog CString Relay

namespace Proxy

/-! ## What is forwarded -/

theorem events_require {α : Type} (s : Stop) (o : Option α) :
    (require s o : Run α).events = [] := by
  cases o <;> rfl

/-- The bytes that the client gets. -/
def replied (es : List Event) : List UInt8 :=
  (es.map fun
    | .reply s => s
    | _ => []).flatten

@[simp] theorem replied_append (es es' : List Event) :
    replied (es ++ es') = replied es ++ replied es' := by
  simp [replied]

/-- Nothing is forwarded. -/
theorem forwarded_eq_nil {es : List Event} (h : ∀ e ∈ es, ∀ s, e ≠ .forward s) :
    forwarded es = [] := by
  rw [forwarded, List.flatten_eq_nil_iff]
  intro l hl
  obtain ⟨e, he, rfl⟩ := List.mem_map.mp hl
  cases e with
  | forward s => exact absurd rfl (h _ he s)
  | lookup => rfl
  | connect => rfl
  | reply => rfl
  | errorPage => rfl
  | store => rfl
  | evict => rfl

/-- The client gets nothing. -/
theorem replied_eq_nil {es : List Event} (h : ∀ e ∈ es, ∀ s, e ≠ .reply s) : replied es = [] := by
  rw [replied, List.flatten_eq_nil_iff]
  intro l hl
  obtain ⟨e, he, rfl⟩ := List.mem_map.mp hl
  cases e with
  | reply s => exact absurd rfl (h _ he s)
  | lookup => rfl
  | connect => rfl
  | forward => rfl
  | errorPage => rfl
  | store => rfl
  | evict => rfl

/-- The last test never succeeds. -/
theorem headerLoop_proxyConn {fuel : ℕ} {seen seen' : Seen} {buf input : List UInt8}
    (h : (headerLoop fuel seen buf input).result = .ok seen') : seen'.proxyConn = seen.proxyConn := by
  induction fuel generalizing seen buf input with
  | zero => cases h
  | succ fuel ih =>
      rw [headerLoop] at h
      split_ifs at h with hbuf
      · cases h
        rfl
      · rw [result_emit_bind] at h
        rw [ih h, note_proxyConn]

/-- The lines that are added end with a blank line, when the last one is among them. -/
theorem blankLine_addedLines {seen : Seen} (hseen : seen.proxyConn = false) (l hostname : List UInt8) :
    BlankLine (l ++ addedLines seen hostname) := by
  have hlast : ∃ before, l ++ addedLines seen hostname = (before ++ [newline]) ++ crlf := by
    have hline : text "Proxy-Connection: close\r\n" =
        text "Proxy-Connection: close\r" ++ [newline] := by simp [text, newline]
    rw [addedLines, hseen]
    refine ⟨l ++ part seen.host (text "Host: " ++ hostname ++ crlf) ++ part seen.ua userAgentHdr ++
      part seen.conn (text "Connection: close\r\n") ++ text "Proxy-Connection: close\r", ?_⟩
    have hpart : ∀ line, part false line = line := fun _ => rfl
    rw [hpart, hline]
    simp only [List.append_assoc]
  obtain ⟨before, hbefore⟩ := hlast
  exact ⟨before ++ [newline], [], [], by rw [hbefore]; simp, .inr ⟨before, rfl⟩,
    List.not_mem_nil, dvd_zero _⟩

/-- **A request that is sent** is its request line, and headers that end with a blank line. -/
theorem sendRequest_forwards {f : Frame} {hostname rest m uri v : List UInt8}
    (hm : stringAt MAXLINE f.method 0 = some m) (huri : stringAt MAXLINE f.uri 0 = some uri)
    (hv : stringAt MAXLINE f.version 0 = some v)
    (hok : (sendRequest f hostname rest).result = .ok ()) :
    (requestLine m uri v).length < MAXLINE ∧ ∃ hdrs, BlankLine hdrs ∧
      forwarded (sendRequest f hostname rest).events = requestLine m uri v ++ hdrs := by
  by_cases hlen : (requestLine m uri v).length < MAXLINE
  · have hline : sendRequest f hostname rest = _ := sendRequest_line hm huri hv hlen
    rw [hline] at hok ⊢
    obtain ⟨u, -, hheaders, hevents⟩ := bind_eq_ok hok
    obtain ⟨seen, hseen, hadd, hevents'⟩ := bind_eq_ok hheaders
    have hproxy : seen.proxyConn = false := headerLoop_proxyConn hseen
    have hroom : seen.host = true ∨ hostname.length + 8 < MAXLINE := by
      by_contra hnot
      rw [not_or, Bool.not_eq_true] at hnot
      rw [addHeaders_crash hnot.1 hnot.2] at hadd
      cases hadd
    refine ⟨hlen, _, blankLine_addedLines hproxy
      (forwarded (forwardHeaders (requestLine m uri v) rest).events) hostname, ?_⟩
    rw [hevents, hevents', forwarded_append, forwarded_append, (sends_addHeaders hroom).bytes,
      events_emit, forwarded_cons, forwarded_nil, List.append_nil]
    rfl
  · exfalso
    rw [sendRequest, readString_eq hm, Prog.pure_bind, readString_eq huri, Prog.pure_bind,
      readString_eq hv, Prog.pure_bind, sprintf] at hok
    have hneg : ¬ (m ++ text " " ++ uri ++ text " " ++ v ++ crlf).length < MAXLINE := hlen
    rw [if_neg hneg, stop_bind] at hok
    cases hok

/-! ## A transaction that returns -/

section

variable {net : Net} {f : Frame} {rev : CacheData} {lru lru₁ lru' : Cache}
  {input line rest m u v : List UInt8} {p i : ℕ}

/-- The request is a `GET` for a URL with a scheme and a path, of HTTP/1.1. -/
structure PathGet (m u v : List UInt8) (p i : ℕ) : Prop where
  method : isGet m = true
  version : isHttp11 v = true
  scheme : strstr u (text "://") = some p
  http : strncasecmp u (text "http://") 7 = true
  path : strchr (u.drop (p + 3)) slash = some i

/-- The path of the URL. -/
def pathOf (u : List UInt8) (p i : ℕ) : List UInt8 := (u.drop (p + 3)).drop i

/-- What `parseUrl` leaves of the request. -/
theorem Frame.split_keeps {f f' : Frame} {rest : List UInt8} {i : ℕ} {rc : ℤ}
    (h : f.split rest i = some (f', rc)) :
    rc = 0 ∧ f'.method = f.method ∧ f'.version = f.version ∧ f'.uri = strcpy f.uri (rest.drop i) := by
  rw [Frame.split] at h
  split at h
  · cases h
    exact ⟨rfl, rfl, rfl, rfl⟩
  · split_ifs at h
    cases h
    exact ⟨rfl, rfl, rfl, rfl⟩

/-- What follows the parsing. -/
theorem forwardRequest_parsed {f f' f'' : Frame} (hparse : parseUrl f = some (f', 0))
    (hversion : parseVersion f' = some (f'', 0)) :
    forwardRequest net f rest = (do
      let hostname ← readString f''.hostname
      let port ← readString f''.port
      emit (.connect hostname port)
      if net.opens hostname port then
        sendRequest f'' hostname rest
        pure (some f'')
      else stop .exit) := by
  rw [forwardRequest, hparse, require_some, Prog.pure_bind]
  simp only
  rw [if_neg (by decide), hversion, require_some, Prog.pure_bind]
  rfl

/-- **A request that was forwarded**: the connection is made, and the request line has the path
of the URL and the older version. -/
theorem forwardRequest_sent (hthree : ThreeWords line m u v) (hplain : PathGet m u v p i)
    {r : Option Frame} (hok : (forwardRequest net (f.scanned m u v) rest).result = .ok r) :
    ∃ f' hdrs, r = some f' ∧ BlankLine hdrs ∧
      (requestLine m (pathOf u p i) (v.set (v.length - 1) 48)).length < MAXLINE ∧
      forwarded (forwardRequest net (f.scanned m u v) rest).events =
        requestLine m (pathOf u p i) (v.set (v.length - 1) 48) ++ hdrs := by
  have hparse := parseUrl_path hthree hplain.scheme hplain.http hplain.path f
  rcases hsplit : (f.scanned m u v).split (u.drop (p + 3)) i with _ | ⟨f₁, rc⟩
  · rw [hsplit] at hparse
    rw [forwardRequest_crash hparse] at hok
    cases hok
  · obtain ⟨rfl, hmethod, hversion, huri⟩ := Frame.split_keeps hsplit
    rw [hsplit] at hparse
    have hvstring : stringAt MAXLINE f₁.version 0 = some v := by
      rw [hversion]
      exact hthree.stringAt_version f
    have hparsed := parseVersion_ok hvstring hplain.version
    -- the stack when the request is sent
    generalize hf₂ : ({ f₁ with version := Function.update f₁.version (v.length - 1) 48 } : Frame) =
      f₂ at hparsed
    have hvlen := length_of_isHttp11 hplain.version
    have hm₂ : stringAt MAXLINE f₂.method 0 = some m := by
      rw [← hf₂]
      show stringAt MAXLINE f₁.method 0 = some m
      rw [hmethod]
      exact hthree.stringAt_method f
    have huri₂ : stringAt MAXLINE f₂.uri 0 = some (pathOf u p i) := by
      have hlen := hthree.length_le
      rw [← hf₂]
      show stringAt MAXLINE f₁.uri 0 = some (pathOf u p i)
      rw [huri]
      refine stringAt_strcpy _ ?_ ?_
      · rw [List.drop_drop]
        exact hthree.nul_notMem_drop _
      · rw [List.length_drop, List.length_drop]
        rw [MAXLINE] at hlen ⊢
        omega
    have hv₂ : stringAt MAXLINE f₂.version 0 = some (v.set (v.length - 1) 48) := by
      rw [← hf₂]
      exact stringAt_update hvstring (by omega) (by decide)
    rw [forwardRequest_parsed hparse hparsed] at hok ⊢
    obtain ⟨hostname, -, hok, hevents⟩ := bind_eq_ok hok
    obtain ⟨port, -, hok, hevents'⟩ := bind_eq_ok hok
    rw [hevents, hevents', readString, readString, events_require, events_require]
    rw [result_emit_bind] at hok
    by_cases hopens : net.opens hostname port = true
    · rw [if_pos hopens] at hok ⊢
      obtain ⟨_, hsend, hpure, hevents''⟩ := bind_eq_ok hok
      obtain ⟨hlen, hdrs, hblank, hforwarded⟩ := sendRequest_forwards hm₂ huri₂ hv₂ hsend
      cases hpure
      refine ⟨f₂, hdrs, rfl, hblank, hlen, ?_⟩
      rw [List.nil_append, List.nil_append, events_emit_bind, hevents'', events_pure,
        List.append_nil, ← hforwarded]
      rfl
    · rw [if_neg hopens] at hok
      cases hok

/-- Nothing is sent to the client before the response. -/
theorem forwardRequest_replied : replied (forwardRequest net f rest).events = [] := by
  apply replied_eq_nil
  exact emits_forwardRequest (fun s s' => by simp) (fun _ _ s => by simp)
    (fun _ => emits_clienterror (fun s s' => by simp) _ _ _ _) net f rest

/-- Every piece is sent when the loop ends. -/
theorem responseLoop_replied {pieces : List (List UInt8)} (hpos : ∀ piece ∈ pieces, 0 < piece.length)
    {rd rd' : Option CacheData} (hok : (responseLoop rd pieces).result = .ok rd') :
    (responseLoop rd pieces).events = pieces.map .reply := by
  induction pieces generalizing rd with
  | nil => rfl
  | cons piece pieces ih =>
      rw [List.forall_mem_cons] at hpos
      rw [responseLoop, if_neg hpos.1.ne'] at hok ⊢
      rw [result_emit_bind] at hok
      obtain ⟨rd₁, -, hloop, hevents⟩ := bind_eq_ok hok
      rw [events_emit_bind, hevents, events_require, ih hpos.2 hloop]
      rfl

/-- Neither side sees that an object is stored. -/
theorem storeObject_silent (lru : Cache) (url : List UInt8) (d : CacheData) :
    Emits (fun e => (∀ s, e ≠ .reply s) ∧ ∀ s, e ≠ .forward s) (storeObject lru url d) :=
  emits_storeObject (fun _ _ _ => by simp) (fun _ => by simp) lru url d

/-- **The response** is sent to the client as it comes. -/
theorem receiveResponse_replied (hok : (receiveResponse net f rev lru).result = .ok lru') :
    replied (receiveResponse net f rev lru).events = net.response ∧
      forwarded (receiveResponse net f rev lru).events = [] := by
  have hdelivers := readlines_delivers (le_refl net.response.length)
  rw [receiveResponse] at hok ⊢
  obtain ⟨rd, hloop, hstore, hevents⟩ := bind_eq_ok hok
  have hpieces := responseLoop_replied hdelivers.pos hloop
  have hreplied : replied ((readlines net.response.length net.response).map Event.reply) =
      net.response := by
    rw [replied, List.map_map]
    exact (congrArg List.flatten (List.map_id _)).trans hdelivers.flatten
  have hforwarded : forwarded ((readlines net.response.length net.response).map Event.reply) =
      [] := by
    apply forwarded_eq_nil
    intro e he s
    obtain ⟨piece, -, rfl⟩ := List.mem_map.mp he
    simp
  rw [hevents, hpieces, replied_append, forwarded_append, hreplied, hforwarded]
  cases rd with
  | none => exact ⟨List.append_nil _, rfl⟩
  | some d =>
      obtain ⟨url, -, -, hevents'⟩ := bind_eq_ok hstore
      have hsilent := storeObject_silent lru url d
      rw [hevents', readString, events_require, List.nil_append,
        replied_eq_nil fun e he => (hsilent e he).1, forwarded_eq_nil fun e he => (hsilent e he).2]
      exact ⟨List.append_nil _, rfl⟩

/-- **A miss that returns**: the client gets the response, and the origin server got the request
line and headers that end with a blank line. -/
theorem doit_relays (hthree : ThreeWords line m u v)
    (hread : rioReadlineb MAXLINE input = (line, rest)) (hplain : PathGet m u v p i)
    (hget : Lru.lruGet lru u = some (lru₁, none))
    (hok : (doit net f rev lru input).result = .ok lru') :
    replied (doit net f rev lru input).events = net.response ∧
      (requestLine m (pathOf u p i) (v.set (v.length - 1) 48)).length < MAXLINE ∧
      ∃ hdrs, BlankLine hdrs ∧ forwarded (doit net f rev lru input).events =
        requestLine m (pathOf u p i) (v.set (v.length - 1) 48) ++ hdrs := by
  rw [hthree.doit_miss hread hget f, fetch_get hthree hplain.method] at hok ⊢
  rw [result_emit_bind] at hok
  obtain ⟨r, hforward, hafter, hevents⟩ := bind_eq_ok hok
  obtain ⟨f', hdrs, rfl, hblank, hlen, hforwarded⟩ := forwardRequest_sent hthree hplain hforward
  obtain ⟨hreplied, hnothing⟩ := receiveResponse_replied hafter
  rw [events_emit_bind, hevents]
  refine ⟨?_, hlen, hdrs, hblank, ?_⟩
  · show replied ((forwardRequest net (f.scanned m u v) rest).events ++ _) = net.response
    rw [replied_append, forwardRequest_replied]
    exact hreplied
  · show forwarded ((forwardRequest net (f.scanned m u v) rest).events ++ _) = _
    rw [forwarded_append, hforwarded]
    exact (congrArg (_ ++ ·) hnothing).trans (List.append_nil _)

end

end Proxy

namespace Tiny

open Proxy (crlf requestLine BlankLine isGet pathOf ThreeWords PathGet forwarded replied)

/-! ## The request at the server -/

/-- A word of a request line. -/
structure Word (w : List UInt8) : Prop where
  ne : w ≠ []
  space : ∀ c ∈ w, isspace c = false
  nul : (0 : UInt8) ∉ w

namespace Word

variable {w : List UInt8}

theorem newline (h : Word w) : newline ∉ w := fun hmem =>
  absurd (h.space _ hmem) (by decide)

/-- Another last character. -/
theorem set (h : Word w) (i : ℕ) {c : UInt8} (hc : isspace c = false) (hnul : c ≠ 0) :
    Word (w.set i c) := by
  have hmem : ∀ d ∈ w.set i c, d ∈ w ∨ d = c := fun d hd => List.mem_or_eq_of_mem_set hd
  refine ⟨?_, fun d hd => ?_, fun hzero => ?_⟩
  · rw [Ne, List.set_eq_nil_iff]
    exact h.ne
  · rcases hmem d hd with hd | rfl
    · exact h.space d hd
    · exact hc
  · rcases hmem 0 hzero with hd | hd
    · exact h.nul hd
    · exact hnul hd.symm

/-- The rest of a word. -/
theorem drop (h : Word w) {k : ℕ} (hk : w.drop k ≠ []) : Word (w.drop k) :=
  ⟨hk, fun c hc => h.space c (List.mem_of_mem_drop hc), fun hc => h.nul (List.mem_of_mem_drop hc)⟩

end Word

section

variable {m uri v hdrs : List UInt8}

/-- The request line, split at its spaces. -/
theorem requestLine_eq (m uri v : List UInt8) :
    requestLine m uri v = m ++ 32 :: (uri ++ 32 :: (v ++ 13 :: [10])) := by
  simp [requestLine, Proxy.crlf_eq, text, Relay.newline]

/-- The request line is read back. -/
theorem read_requestLine (hm : Word m) (huri : Word uri) (hv : Word v)
    (hlen : (requestLine m uri v).length < MAXLINE) (hdrs : List UInt8) :
    rioReadlineb MAXLINE (requestLine m uri v ++ hdrs) = (requestLine m uri v, hdrs) := by
  have hnewline : Relay.newline ∉ m ++ text " " ++ uri ++ text " " ++ v := by
    have hspace : Relay.newline ∉ text " " := by simp [text, Relay.newline]
    simp only [List.mem_append, not_or]
    exact ⟨⟨⟨⟨hm.newline, hspace⟩, huri.newline⟩, hspace⟩, hv.newline⟩
  have hshort : (m ++ text " " ++ uri ++ text " " ++ v).length + 1 < MAXLINE - 1 := by
    rw [requestLine, List.length_append, Proxy.crlf_eq] at hlen
    simp only [List.length_cons, List.length_nil] at hlen
    omega
  have hread := Proxy.rioReadlineb_short hnewline hshort hdrs
  rw [← List.append_assoc] at hread
  exact hread

/-- Its words are scanned. -/
theorem words_requestLine (hm : Word m) (huri : Word uri) (hv : Word v) :
    words 3 (cstring (requestLine m uri v)) = [m, uri, v] := by
  have hnul : (0 : UInt8) ∉ requestLine m uri v := by
    rw [requestLine_eq]
    simp only [List.mem_append, List.mem_cons, not_or]
    exact ⟨hm.nul, by decide, huri.nul, by decide, hv.nul, by decide, by decide, by simp⟩
  rw [cstring_eq_self hnul, requestLine_eq, words_word hm.ne hm.space (by decide),
    words_word huri.ne huri.space (by decide), words_word hv.ne hv.space (by decide)]
  rfl

/-- **Tiny accepts** a request line of three words that fits, with headers that end. -/
theorem asks_requestLine (tf : Frame) (hm : Word m) (hget : isGet m = true) (huri : Word uri)
    (hv : Word v) (hlen : (requestLine m uri v).length < MAXLINE) (hblank : BlankLine hdrs) :
    Asks tf (requestLine m uri v ++ hdrs) uri := by
  have hread := read_requestLine hm huri hv hlen hdrs
  have hscanned : scanned tf (requestLine m uri v ++ hdrs) =
      { tf with
        method := strcpy tf.method m, uri := strcpy tf.uri uri, version := strcpy tf.version v } := by
    rw [scanned, hread, scanRequest, words_requestLine hm huri hv]
  have hlengths : m.length < MAXLINE ∧ uri.length < MAXLINE := by
    rw [requestLine_eq] at hlen
    simp only [List.length_append, List.length_cons] at hlen
    omega
  refine ⟨?_, ?_, .inl ?_, ?_⟩
  · rw [requestLine_eq]
    simp
  · rw [hscanned]
    show strcasecmp (strcpy tf.method m) 0 (text "GET") = true
    rw [strcasecmp_eq (stringAt_strcpy tf.method hm.nul hlengths.1) (by simp [text])]
    exact hget
  · rw [behind, hread]
    exact hblank
  · rw [hscanned]
    exact stringAt_strcpy tf.uri huri.nul hlengths.2

end

/-! ## Through the proxy -/

section

variable {net : Proxy.Net} {f : Proxy.Frame} {rev : CacheData} {lru lru₁ lru' : Proxy.Cache}
  {input line rest m u v : List UInt8} {p i : ℕ}

/-- **What the proxy sends, Tiny accepts**: it is a request for the path of the URL. -/
theorem asks_forwarded (hthree : ThreeWords line m u v)
    (hread : rioReadlineb MAXLINE input = (line, rest)) (hplain : PathGet m u v p i)
    (hget : Lru.lruGet lru u = some (lru₁, none))
    (hok : (Proxy.doit net f rev lru input).result = .ok lru') (tf : Frame) :
    Asks tf (forwarded (Proxy.doit net f rev lru input).events) (pathOf u p i) := by
  obtain ⟨-, hlen, hdrs, hblank, hforwarded⟩ := Proxy.doit_relays hthree hread hplain hget hok
  have hword : ∀ w ∈ [m, u, v], Word w := by
    intro w hw
    have hne := mem_words (hthree.words ▸ hw)
    refine ⟨hne.1, hne.2, fun hzero => hthree.nul_notMem ?_⟩
    simp only [List.mem_cons, List.not_mem_nil, or_false] at hw
    rcases hw with rfl | rfl | rfl <;> simp [hzero]
  have hpath : Word (pathOf u p i) := by
    obtain ⟨l, r, hsplit, -, rfl⟩ := strchr_eq_some.mp hplain.path
    have hne : (u.drop (p + 3)).drop l.length ≠ [] := by
      rw [hsplit, List.drop_left]
      exact List.cons_ne_nil _ _
    rw [pathOf, List.drop_drop] at *
    exact (hword u (by simp)).drop hne
  rw [hforwarded]
  exact asks_requestLine tf (hword m (by simp)) hplain.method hpath
    ((hword v (by simp)).set _ (by decide) (by decide)) hlen hblank

/-- A file that Tiny has for a path: its name fits the array, it is not a program, and it may be
opened and mapped. -/
structure HasFile (files : Files) (path : List UInt8) (file : File) : Prop where
  fits : (target path).filename.length < MAXLINE
  static : ¬ text "cgi-bin" <:+: path
  found : files (target path).filename = some file
  allows : file.Allows (target path)
  opens : file.opens = true
  size : 0 < file.content.length ∧ file.content.length < 2 ^ 31

/-- **A file of Tiny through the proxy.**  What the proxy sends is a request that Tiny accepts.
When the origin server is Tiny and sends back the answer to it, the client gets the whole response
of Tiny for the path of the URL, with the bytes of the file, whatever the headers and the stacks
are. -/
theorem file_through_proxy (hthree : ThreeWords line m u v)
    (hread : rioReadlineb MAXLINE input = (line, rest)) (hplain : PathGet m u v p i)
    (hget : Lru.lruGet lru u = some (lru₁, none))
    (hok : (Proxy.doit net f rev lru input).result = .ok lru') :
    (∀ tf, Asks tf (forwarded (Proxy.doit net f rev lru input).events) (pathOf u p i)) ∧
      ∀ {files : Files} {tf : Frame} {file : File},
        net.response =
          replies (doit files tf (forwarded (Proxy.doit net f rev lru input).events)).events →
        HasFile files (pathOf u p i) file →
        replied (Proxy.doit net f rev lru input).events =
          response (target (pathOf u p i)).filename file.content := by
  have hasks := asks_forwarded hthree hread hplain hget hok
  refine ⟨hasks, fun {files tf file} hnet hfile => ?_⟩
  have hne : pathOf u p i ≠ [] := by
    intro hnil
    have huri := hplain.path
    obtain ⟨l, r, hsplit, -, rfl⟩ := strchr_eq_some.mp huri
    rw [pathOf, hsplit, List.drop_left] at hnil
    cases hnil
  have hsent := doit_file (hasks tf) ⟨hne, hfile.fits⟩ hfile.static hfile.found hfile.allows
  rw [(Proxy.doit_relays hthree hread hplain hget hok).1, hnet, hsent]
  exact ((serveStatic_complete_iff _ _).mpr ⟨hfile.opens, hfile.size⟩).2

end

/-- Every connection is made to the server with one page. -/
def tinyNet : Proxy.Net where
  opens _ _ := true
  response := response (text "./home.html") (text "hello\n")

/-- The page of the server, asked for at the proxy. -/
theorem file_through_proxy_home :
    (∀ tf, Asks tf (forwarded (Proxy.doit tinyNet Proxy.blank zeroed
      (Lru.lruInit 10 Proxy.zeroedMemory) (text "GET http://h:80/ HTTP/1.1\r\n\r\n")).events)
        (text "/")) ∧
      replied (Proxy.doit tinyNet Proxy.blank zeroed (Lru.lruInit 10 Proxy.zeroedMemory)
        (text "GET http://h:80/ HTTP/1.1\r\n\r\n")).events =
          response (target (text "/")).filename (text "hello\n") := by
  have hreturns : (Proxy.doit tinyNet Proxy.blank zeroed (Lru.lruInit 10 Proxy.zeroedMemory)
      (text "GET http://h:80/ HTTP/1.1\r\n\r\n")).result.map (fun _ => ()) = .ok () := by
    decide +kernel
  rcases hok : (Proxy.doit tinyNet Proxy.blank zeroed (Lru.lruInit 10 Proxy.zeroedMemory)
      (text "GET http://h:80/ HTTP/1.1\r\n\r\n")).result with e | lru'
  · rw [hok] at hreturns
    cases hreturns
  · have hthree : ThreeWords (text "GET http://h:80/ HTTP/1.1\r\n") (text "GET")
        (text "http://h:80/") (text "HTTP/1.1") := ⟨by decide +kernel, by decide +kernel⟩
    have hread : rioReadlineb MAXLINE (text "GET http://h:80/ HTTP/1.1\r\n\r\n") =
        (text "GET http://h:80/ HTTP/1.1\r\n", crlf) := by decide +kernel
    have hpath : PathGet (text "GET") (text "http://h:80/") (text "HTTP/1.1") 4 4 :=
      ⟨by decide +kernel, by decide +kernel, by decide +kernel, by decide +kernel,
        by decide +kernel⟩
    obtain ⟨lru₁, hget, -⟩ : ∃ lru₁, Lru.lruGet (Lru.lruInit 10 Proxy.zeroedMemory)
        (text "http://h:80/") = some (lru₁, none) ∧ _ :=
      Proxy.lruGet_miss (Lru.holds_lruInit 10 Proxy.zeroedMemory (by decide)) (by simp)
    have hnet : tinyNet.response = replies (doit onePage blank (forwarded (Proxy.doit tinyNet
        Proxy.blank zeroed (Lru.lruInit 10 Proxy.zeroedMemory)
          (text "GET http://h:80/ HTTP/1.1\r\n\r\n")).events)).events := by decide +kernel
    have hfile : HasFile onePage (pathOf (text "http://h:80/") 4 4)
        ⟨true, true, false, true, text "hello\n"⟩ :=
      ⟨by decide +kernel, by decide +kernel, by decide +kernel, ⟨rfl, by decide +kernel⟩, rfl,
        by decide +kernel, by decide +kernel⟩
    have hhome : pathOf (text "http://h:80/") 4 4 = text "/" := by decide +kernel
    obtain ⟨hasks, hpage⟩ := file_through_proxy hthree hread hpath hget hok
    have hpage := hpage hnet hfile
    rw [hhome] at hasks hpage
    exact ⟨hasks, hpage⟩

end Tiny
