/-
# Requests that tell contents of memory apart

When the contents of uninitialised memory disagree on the `size` of the cache, or on the
`len` of an object or its bytes below it, some sequence of requests shows it.  A request
for an object whose response is empty stores the object as `Malloc` returned it
(`doit_fetched`).  As many requests for different objects as the cache takes itself to
have room for evict nothing, and one more evicts, or crashes when the list is empty.
-/
import CsappLabs.HeapContents

open Effects Effects.Prog CString Relay

namespace Proxy

/-! ## A request that is refused, and one that is fetched -/

/-- A request with another method. -/
def refused : Transaction := ⟨silent, blank, text "PUT a HTTP/1.1\r\n\r\n"⟩

/-- A request for a URL. -/
def fetched (url : List UInt8) : Transaction :=
  ⟨silent, blank, text "GET " ++ url ++ text " HTTP/1.1\r\n\r\n"⟩

/-- Words of two letters, which need no quoting anywhere. -/
def Plain (url : List UInt8) : Prop := url ≠ [] ∧ url.length ≤ 4000 ∧ ∀ c ∈ url, c = 97 ∨ c = 98

/-- The error page of a request that is refused. -/
def refusal : Run Unit := do
  emit (.lookup (text "a") false)
  clienterror [] (text "500") [] (text "Method Not Supported")

/-- An empty cache stays empty when a request is refused. -/
theorem doit_refused {lru : Cache} (h : Lru.Holds lru []) (rev : CacheData) :
    ∃ lru', Lru.Holds lru' [] ∧ lru'.size = lru.size ∧ lru'.capacity = lru.capacity ∧
      doit refused.net refused.frame rev lru refused.input = (refusal >>= fun _ => pure lru') := by
  have hurl : stringAt MAXLINE (scanRequest refused.frame
      (rioReadlineb MAXLINE refused.input).1).url 0 = some (text "a") := by decide +kernel
  have hnew : text "a" ∉ ([] : List (List UInt8 × CacheData)).map Prod.fst := List.not_mem_nil
  obtain ⟨lru', hget, hold, hsize, hcap⟩ := lruGet_miss h hnew
  have hdoit := @doit_miss refused.net refused.frame rev lru lru' refused.input _ _ _
    Prod.mk.eta.symm (by decide +kernel) hurl hget
  have hmethod : strcasecmp (scanRequest refused.frame
      (rioReadlineb MAXLINE refused.input).1).method 0 (text "GET") = false := by decide +kernel
  refine ⟨lru', hold, hsize, hcap, ?_⟩
  rw [hdoit, fetch, hmethod]
  rfl

/-- The stack once the request of `fetched` was read and its URL and version parsed. -/
def parsed (url : List UInt8) : Frame where
  method := strcpy blank.method (text "GET")
  url := strcpy blank.url url
  uri := blank.uri
  version := Function.update (strcpy blank.version (text "HTTP/1.1")) 7 48
  hostname := Function.update blank.hostname 0 0
  port := Function.update blank.port 0 0

/-- What a fetch does until the response comes. -/
def request (url : List UInt8) : Run Unit := do
  emit (.lookup url false)
  emit (.connect [] [])
  sendRequest (parsed url) [] crlf

/-- The array of the URL is not sent. -/
theorem sendRequest_parsed (url : List UInt8) :
    sendRequest (parsed url) [] crlf = sendRequest (parsed []) [] crlf := by
  unfold sendRequest parsed
  rfl

theorem result_request (url : List UInt8) : (request url).result = .ok () := by
  rw [request, result_emit_bind, result_emit_bind, sendRequest_parsed]
  decide +kernel

/-- Nothing is evicted before the response. -/
theorem not_evict_mem_request (url k : List UInt8) : Event.evict k ∉ (request url).events := by
  have hsent : (sendRequest (parsed []) [] crlf).events.all
      (fun e => match e with | .evict _ => false | _ => true) = true := by decide +kernel
  rw [request, events_emit_bind, events_emit_bind, sendRequest_parsed]
  intro hmem
  simp only [List.mem_cons, reduceCtorEq, false_or] at hmem
  exact absurd (List.all_eq_true.mp hsent _ hmem) (by simp)

theorem plain_not_mem {url : List UInt8} (h : Plain url) {c : UInt8} (ha : c ≠ 97) (hb : c ≠ 98) :
    c ∉ url := by
  intro hc
  rcases h.2.2 c hc with rfl | rfl
  · exact ha rfl
  · exact hb rfl

/-- The words of the request. -/
theorem scanRequest_fetched {url : List UInt8} (h : Plain url) :
    scanRequest blank (text "GET " ++ url ++ text " HTTP/1.1\r\n") =
      { blank with
        method := strcpy blank.method (text "GET")
        url := strcpy blank.url url
        version := strcpy blank.version (text "HTTP/1.1") } := by
  have hline : text "GET " ++ url ++ text " HTTP/1.1\r\n" =
      text "GET" ++ 32 :: (url ++ 32 :: (text "HTTP/1.1" ++ 13 :: [10])) := by
    rw [show text "GET " = text "GET" ++ [32] by rfl,
      show text " HTTP/1.1\r\n" = 32 :: (text "HTTP/1.1" ++ 13 :: [10]) by rfl]
    simp
  have hnul : (0 : UInt8) ∉ text "GET" ++ 32 :: (url ++ 32 :: (text "HTTP/1.1" ++ 13 :: [10])) := by
    have hget : (0 : UInt8) ∉ text "GET" := by simp [text]
    have hversion : (0 : UInt8) ∉ 32 :: (text "HTTP/1.1" ++ 13 :: [10]) := by simp [text]
    have hword := plain_not_mem h (c := 0) (by decide) (by decide)
    simp only [List.mem_append, List.mem_cons, not_or] at hversion ⊢
    exact ⟨hget, by decide, hword, hversion⟩
  have hspace : ∀ c ∈ url, isspace c = false := by
    intro c hc
    rcases h.2.2 c hc with rfl | rfl
    · decide
    · decide
  rw [scanRequest, hline, cstring_eq_self hnul,
    words_word (by simp [text]) (by simp [text, isspace]) (by decide),
    words_word h.1 hspace (by decide),
    words_word (by simp [text]) (by simp [text, isspace]) (by decide)]

/-- The URL has no scheme, and the version is the right one. -/
theorem forwardRequest_fetched {url : List UInt8} (h : Plain url)
    (hurl : stringAt MAXLINE (strcpy blank.url url) 0 = some url) :
    forwardRequest silent { blank with
        method := strcpy blank.method (text "GET")
        url := strcpy blank.url url
        version := strcpy blank.version (text "HTTP/1.1") } crlf =
      (emit (.connect [] []) >>= fun _ => sendRequest (parsed url) [] crlf >>= fun _ =>
        pure (some (parsed url))) := by
  have hscheme : strstr url (text "://") = none := by
    rw [show text "://" = colon :: [47, 47] by rfl]
    exact strstr_eq_none (plain_not_mem h (by decide) (by decide))
  -- the version is turned into HTTP/1.0
  have hv : stringAt MAXLINE (strcpy blank.version (text "HTTP/1.1")) 0 = some (text "HTTP/1.1") :=
    stringAt_strcpy _ (by simp [text]) (by simp [text, MAXLINE])
  have hversion : strcasecmp (strcpy blank.version (text "HTTP/1.1")) 0 (text "http/1.1") = true := by
    rw [strcasecmp_eq hv (by simp [text])]
    rfl
  have hempty : readString (Function.update (fun _ => 0) 0 0) = pure [] := by
    apply readString_eq
    exact stringAt_cleared (by decide) _
  have hparse : parseVersion { blank with
      method := strcpy blank.method (text "GET")
      url := strcpy blank.url url
      version := strcpy blank.version (text "HTTP/1.1")
      hostname := Function.update blank.hostname 0 0
      port := Function.update blank.port 0 0 } = some (parsed url, 0) := by
    unfold parseVersion
    simp only [hversion, if_true, hv, Option.bind_eq_bind, Option.bind_some]
    rw [show (text "HTTP/1.1").length - 1 = 7 by rfl]
    rfl
  unfold forwardRequest parseUrl
  simp only [hurl, hscheme, Option.bind_eq_bind, Option.bind_some, require_some, pure_bind, hparse]
  rw [if_neg (by decide), if_neg (by decide), show (parsed url).hostname = _ from rfl,
    show (parsed url).port = _ from rfl]
  unfold parsed
  simp only [blank, hempty, pure_bind]
  rfl

/-- **A fetch**: the request is sent, and the object is stored as `Malloc` returned it. -/
theorem doit_fetched {lru : Cache} {es : List (List UInt8 × CacheData)} (h : Lru.Holds lru es)
    {url : List UInt8} (hp : Plain url) (hmiss : url ∉ es.map Prod.fst) (rev : CacheData) :
    ∃ lru', Lru.Holds lru' es ∧ lru'.size = lru.size ∧ lru'.capacity = lru.capacity ∧
      doit (fetched url).net (fetched url).frame rev lru (fetched url).input =
        (request url >>= fun _ => storeObject lru' url rev) := by
  have hread : rioReadlineb MAXLINE (fetched url).input =
      (text "GET " ++ url ++ text " HTTP/1.1\r\n", crlf) := by
    have hsplit : (fetched url).input =
        (text "GET " ++ url ++ text " HTTP/1.1\r") ++ newline :: crlf := by
      rw [fetched, show text " HTTP/1.1\r\n\r\n" = text " HTTP/1.1\r" ++ newline :: crlf by
        rfl]
      simp
    have hnew : newline ∉ text "GET " ++ url ++ text " HTTP/1.1\r" := by
      have hget : newline ∉ text "GET " := by simp [text, newline]
      have hend : newline ∉ text " HTTP/1.1\r" := by simp [text, newline]
      have hword := plain_not_mem hp (c := newline) (by decide) (by decide)
      simp only [List.mem_append, not_or]
      exact ⟨⟨hget, hword⟩, hend⟩
    have hlen : (text "GET " ++ url ++ text " HTTP/1.1\r").length < MAXLINE - 1 := by
      have := hp.2.1
      rw [List.length_append, List.length_append, show (text "GET ").length = 4 by simp [text],
        show (text " HTTP/1.1\r").length = 10 by simp [text], MAXLINE]
      omega
    rw [rioReadlineb, hsplit, readlinebLoop_line hnew hlen]
    rw [show text " HTTP/1.1\r\n" = text " HTTP/1.1\r" ++ [newline] by rfl]
    simp
  have hurl : stringAt MAXLINE (strcpy blank.url url) 0 = some url :=
    stringAt_strcpy _ (plain_not_mem hp (by decide) (by decide))
      (lt_of_le_of_lt hp.2.1 (by decide))
  have hscan : scanRequest (fetched url).frame (text "GET " ++ url ++ text " HTTP/1.1\r\n") = _ :=
    scanRequest_fetched hp
  have hline : text "GET " ++ url ++ text " HTTP/1.1\r\n" ≠ [] := by simp [text]
  obtain ⟨lru', hmissed, hold, hsize, hcap⟩ := lruGet_miss h hmiss
  have hdoit := @doit_miss (fetched url).net (fetched url).frame rev lru lru' (fetched url).input
    _ _ url hread hline (by rw [hscan]; exact hurl) hmissed
  refine ⟨lru', hold, hsize, hcap, ?_⟩
  have hmethod : stringAt MAXLINE (strcpy blank.method (text "GET")) 0 = some (text "GET") :=
    stringAt_strcpy _ (by simp [text]) (by simp [text, MAXLINE])
  have hget : strcasecmp (strcpy blank.method (text "GET")) 0 (text "GET") = true := by
    rw [strcasecmp_eq hmethod (by simp [text])]
    rfl
  rw [hdoit, hscan, fetch]
  simp only
  rw [if_pos hget, show (fetched url).net = silent from rfl, forwardRequest_fetched hp hurl, request]
  have hreceive : afterRequest silent rev lru' (some (parsed url)) = storeObject lru' url rev := by
    show (readString (strcpy blank.url url) >>= fun url => storeObject lru' url rev) = _
    rw [readString_eq hurl, pure_bind]
  simp only [bind_assoc, pure_bind, hreceive]

/-! ## What is stored -/

/-- A new object, while there is room. -/
theorem storeObject_room {lru : Cache} {es : List (List UInt8 × CacheData)}
    (h : Lru.Holds lru es) {url : List UInt8} (hmiss : url ∉ es.map Prod.fst)
    (hroom : lru.capacity ≠ lru.size) (d : CacheData) :
    ∃ lru', Lru.Holds lru' (es ++ [(url, d)]) ∧ lru'.size = Lru.incInt lru.size ∧
      lru'.capacity = lru.capacity ∧
      storeObject lru url d = (emit (.store url d.len (hit d)) >>= fun _ => pure lru') := by
  have hne : lru.capacity = lru.size → es ≠ [] := fun hfull => absurd hfull hroom
  obtain ⟨lru', hput, hold, hsize, hcap⟩ := Lru.lruPut_spec h url d hne
  rw [Lru.putEntries, Lru.valueOf_eq_none.mpr hmiss, decide_eq_false hroom] at hold
  refine ⟨lru', hold, by rw [hsize, if_neg hmiss], hcap, ?_⟩
  unfold storeObject
  rw [hput, require_some, pure_bind, evicted_eq h hne, if_neg fun hboth => hroom hboth.2]

/-- A new object, when the cache is full. -/
theorem evict_mem_storeObject {lru : Cache} {e : List UInt8 × CacheData}
    {es : List (List UInt8 × CacheData)} (h : Lru.Holds lru (e :: es)) {url : List UInt8}
    (hmiss : url ∉ (e :: es).map Prod.fst) (hfull : lru.capacity = lru.size) (d : CacheData) :
    Event.evict e.1 ∈ (storeObject lru url d).events := by
  have hne : lru.capacity = lru.size → e :: es ≠ [] := fun _ => List.cons_ne_nil _ _
  obtain ⟨lru', hput, -⟩ := Lru.lruPut_spec h url d hne
  unfold storeObject
  rw [hput, require_some, pure_bind, evicted_eq h hne, if_pos ⟨hmiss, hfull⟩]
  simp

/-- A new object, when the cache is empty and takes itself to be full. -/
theorem storeObject_empty {lru : Cache} (h : Lru.Holds lru []) (hfull : lru.capacity = lru.size)
    (url : List UInt8) (d : CacheData) : storeObject lru url d = stop .crash := by
  unfold storeObject
  rw [Lru.lruPut_empty h hfull, require_none, stop_bind]

/-! ## Equal results need equal objects -/

/-- A number of refused requests. -/
def refusals : ℕ → Run Unit
  | 0 => pure ()
  | i + 1 => refusal >>= fun _ => refusals i

theorem result_refusals (i : ℕ) : (refusals i).result = .ok () := by
  induction i with
  | zero => rfl
  | succ i ih =>
      have hok : refusal.result = .ok () := rfl
      rw [refusals, bind_of_ok hok, ih]

theorem serve_refused (i : ℕ) {lru : Cache} (h : Lru.Holds lru []) (rev : ℕ → CacheData) :
    ∃ lru', Lru.Holds lru' [] ∧ lru'.size = lru.size ∧ lru'.capacity = lru.capacity ∧
      ∀ ts, serve rev lru (List.replicate i refused ++ ts) =
        (refusals i >>= fun _ => serve (fun j => rev (j + i)) lru' ts) := by
  induction i generalizing lru rev with
  | zero => exact ⟨lru, h, rfl, rfl, fun ts => rfl⟩
  | succ i ih =>
      obtain ⟨lru₁, h₁, hsize₁, hcap₁, hdoit⟩ := doit_refused h (rev 0)
      obtain ⟨lru₂, h₂, hsize₂, hcap₂, hserve⟩ := ih h₁ fun j => rev (j + 1)
      refine ⟨lru₂, h₂, by rw [hsize₂, hsize₁], by rw [hcap₂, hcap₁], fun ts => ?_⟩
      rw [List.replicate_succ, List.cons_append, serve, hdoit, refusals]
      simp only [bind_assoc, pure_bind, hserve]
      rfl

/-- After some refused requests, a fetch stores what `Malloc` returned. -/
theorem events_refused_fetched (i : ℕ) {lru : Cache} (h : Lru.Holds lru [])
    (hroom : lru.capacity ≠ lru.size) (rev : ℕ → CacheData) {url : List UInt8} (hp : Plain url) :
    (serve rev lru (List.replicate i refused ++ [fetched url])).events =
      (refusals i >>= fun _ => request url).events ++
        [.store url (rev i).len (hit (rev i))] := by
  obtain ⟨lru₁, h₁, hsize₁, hcap₁, hserve⟩ := serve_refused i h rev
  obtain ⟨lru₂, h₂, hsize₂, hcap₂, hdoit⟩ := doit_fetched h₁ hp List.not_mem_nil (rev i)
  have hnew : url ∉ ([] : List (List UInt8 × CacheData)).map Prod.fst := List.not_mem_nil
  obtain ⟨lru₃, -, -, -, hstore⟩ := storeObject_room h₂ hnew
    (by rw [hsize₂, hcap₂, hsize₁, hcap₁]; exact hroom) (rev i)
  rw [hserve, serve]
  simp only [Nat.zero_add, hdoit, hstore, bind_assoc, pure_bind, serve]
  rw [bind_of_ok (result_refusals i), bind_of_ok (result_refusals i),
    bind_of_ok (result_request url)]
  simp

theorem sameObject_of_sameResults {m₁ m₂ : Cache} {rev₁ rev₂ : ℕ → CacheData}
    (hbrk₁ : 0 < m₁.brk) (hbrk₂ : 0 < m₂.brk) (hsize : m₁.size = m₂.size)
    (h : SameResults m₁ m₂ rev₁ rev₂) (i : ℕ) : SameObject (rev₁ i) (rev₂ i) := by
  -- a capacity for which the empty cache does not take itself to be full
  obtain ⟨c, hpos, hlt, hroom⟩ : ∃ c : ℤ, 1 ≤ c ∧ c < 2 ^ 31 ∧ c ≠ m₁.size := by
    by_cases hone : m₁.size = 1
    · exact ⟨2, by decide, by decide, by rw [hone]; decide⟩
    · exact ⟨1, by decide, by decide, Ne.symm hone⟩
  have hp : Plain (text "a") := ⟨by simp [text], by simp [text], by simp [text]⟩
  have hold₁ := Lru.holds_lruInit c m₁ hbrk₁
  have hold₂ := Lru.holds_lruInit c m₂ hbrk₂
  have hevents := (h c hpos hlt (List.replicate i refused ++ [fetched (text "a")])).events
  rw [events_refused_fetched i hold₁ hroom rev₁ hp,
    events_refused_fetched i hold₂ (hsize ▸ hroom) rev₂ hp] at hevents
  have hstore := List.append_cancel_left hevents
  simp only [List.cons.injEq, Event.store.injEq, true_and, and_true] at hstore
  exact sameObject_iff.mpr hstore

/-! ## Equal results need equal sizes -/

/-- The URLs of a long sequence of requests, all different. -/
def name (j : ℕ) : List UInt8 := (Nat.digits 2 (j + 1)).map fun d => if d = 0 then 97 else 98

/-- The digits can be read back. -/
theorem name_injective : Function.Injective name := by
  have hback : ∀ j, (name j).map (fun c => if c = 97 then 0 else 1) = Nat.digits 2 (j + 1) := by
    intro j
    rw [name, List.map_map]
    conv_rhs => rw [← List.map_id (Nat.digits 2 (j + 1))]
    apply List.map_congr_left
    intro d hd
    have hlt : d < 2 := Nat.digits_lt_base (by decide) hd
    obtain rfl | rfl : d = 0 ∨ d = 1 := by omega
    · rfl
    · rfl
  intro i j h
  have hdigits : Nat.digits 2 (i + 1) = Nat.digits 2 (j + 1) := by rw [← hback, ← hback, h]
  exact Nat.succ_injective (Nat.digits_inj_iff.mp hdigits)

theorem name_notMem (j : ℕ) : name j ∉ (List.range j).map name := by
  rw [List.mem_map]
  rintro ⟨i, hi, heq⟩
  obtain rfl := name_injective heq
  exact absurd (List.mem_range.mp hi) (lt_irrefl _)

theorem plain_name {j : ℕ} (h : j < 2 ^ 33) : Plain (name j) := by
  refine ⟨?_, ?_, ?_⟩
  · rw [name, Ne, List.map_eq_nil_iff]
    exact Nat.digits_ne_nil_iff_ne_zero.mpr (Nat.succ_ne_zero j)
  · rw [name, List.length_map]
    have hlen : (Nat.digits 2 (j + 1)).length ≤ 34 :=
      (Nat.digits_length_le_iff (by decide) _).mpr (by omega)
    omega
  · intro c hc
    obtain ⟨d, -, rfl⟩ := List.mem_map.mp hc
    split_ifs
    · exact Or.inl rfl
    · exact Or.inr rfl

/-- The requests `j`, ..., `j + k - 1`. -/
def requests (j k : ℕ) : List Transaction := (List.range' j k).map fun i => fetched (name i)

/-- A run that returns and evicts nothing. -/
def Quiet (x : Run Cache) : Prop := x.result.isOk = true ∧ ∀ u, Event.evict u ∉ x.events

theorem quiet_congr {R : Cache → Cache → Prop} {x y : Run Cache} (h : Agree R x y) :
    Quiet x ↔ Quiet y := by
  unfold Quiet
  rw [h.events]
  refine and_congr_left fun _ => ?_
  have hresult := h.result
  generalize x.result = a at hresult ⊢
  generalize y.result = b at hresult ⊢
  cases hresult with
  | ok _ => exact Iff.rfl
  | error _ => exact Iff.rfl

/-- **Requests that find room** fill the cache, and evict nothing. -/
theorem serve_requests (k : ℕ) {j : ℕ} {lru : Cache} {es : List (List UInt8 × CacheData)}
    (h : Lru.Holds lru es) (hkeys : es.map Prod.fst = (List.range j).map name)
    (hroom : ∀ i : ℕ, i < k → lru.capacity ≠ lru.size + i) (hmax : lru.size + k < 2 ^ 31)
    (hj : j + k ≤ 2 ^ 33) (rev : ℕ → CacheData) :
    ∃ ev lru' es', (∀ u, Event.evict u ∉ ev) ∧ Lru.Holds lru' es' ∧
      es'.map Prod.fst = (List.range (j + k)).map name ∧ lru'.size = lru.size + k ∧
      lru'.capacity = lru.capacity ∧
      ∀ ts, serve rev lru (requests j k ++ ts) =
        (record ev >>= fun _ => serve (fun i => rev (i + k)) lru' ts) := by
  induction k generalizing j lru es rev with
  | zero => exact ⟨[], lru, es, by simp, h, hkeys, by simp, rfl, fun ts => rfl⟩
  | succ k ih =>
      have hmiss : name j ∉ es.map Prod.fst := hkeys ▸ name_notMem j
      -- the first of them is stored, the others fill the rest
      obtain ⟨lru₁, h₁, hsize₁, hcap₁, hdoit⟩ := doit_fetched h (plain_name (by omega)) hmiss (rev 0)
      have hroom₁ : lru₁.capacity ≠ lru₁.size := by
        rw [hsize₁, hcap₁]
        simpa using hroom 0 (Nat.succ_pos k)
      obtain ⟨lru₂, h₂, hsize₂, hcap₂, hstore⟩ := storeObject_room h₁ hmiss hroom₁ (rev 0)
      have hsize : lru₂.size = lru.size + 1 := by
        push_cast at hmax
        rw [hsize₂, Lru.incInt, hsize₁, if_neg (by omega)]
      have hkeys₂ : (es ++ [(name j, rev 0)]).map Prod.fst = (List.range (j + 1)).map name := by
        rw [List.map_append, hkeys, List.range_succ, List.map_append]
        rfl
      have hroom₂ : ∀ i : ℕ, i < k → lru₂.capacity ≠ lru₂.size + i := by
        intro i hi
        have := hroom (i + 1) (by omega)
        push_cast at this
        rw [hcap₂, hcap₁, hsize]
        omega
      obtain ⟨ev, lru₃, es₃, hev, h₃, hkeys₃, hsize₃, hcap₃, hserve⟩ :=
        ih h₂ hkeys₂ hroom₂ (by push_cast at hmax; omega) (by omega) fun i => rev (i + 1)
      refine ⟨(request (name j)).events ++ .store (name j) (rev 0).len (hit (rev 0)) :: ev, lru₃,
        es₃, ?_, h₃, ?_, ?_, ?_, fun ts => ?_⟩
      · intro u hu
        rcases List.mem_append.mp hu with hu | hu
        · exact not_evict_mem_request _ _ hu
        · simp only [List.mem_cons, reduceCtorEq, false_or] at hu
          exact hev u hu
      · rw [hkeys₃]
        congr 2
        omega
      · rw [hsize₃, hsize]
        push_cast
        omega
      · rw [hcap₃, hcap₂, hcap₁]
      · have hcons : requests j (k + 1) = fetched (name j) :: requests (j + 1) k := by
          rw [requests, List.range'_succ]
          rfl
        rw [hcons, List.cons_append, serve]
        simp only [hdoit, hstore, bind_assoc, pure_bind, hserve]
        rw [bind_of_ok (result_request _), record_bind]
        ext1
        · simp only [events_emit_bind, record_bind, List.append_assoc, List.cons_append]
          rfl
        · rfl

/-- Enough room for all of the requests. -/
theorem quiet_requests {lru : Cache} (h : Lru.Holds lru []) {k : ℕ}
    (hroom : ∀ i : ℕ, i < k → lru.capacity ≠ lru.size + i) (hmax : lru.size + k < 2 ^ 31)
    (hk : k ≤ 2 ^ 33) (rev : ℕ → CacheData) : Quiet (serve rev lru (requests 0 k)) := by
  obtain ⟨ev, lru', es', hev, -, -, -, -, hserve⟩ :=
    serve_requests k (j := 0) h (by simp) hroom hmax (by omega) rev
  rw [← List.append_nil (requests 0 k), hserve, record_bind]
  refine ⟨rfl, fun u hu => hev u ?_⟩
  simpa [serve] using hu

/-- Room for all of the requests but the last. -/
theorem not_quiet_requests {lru : Cache} (h : Lru.Holds lru []) {k : ℕ}
    (hroom : ∀ i : ℕ, i < k → lru.capacity ≠ lru.size + i) (hfull : lru.capacity = lru.size + k)
    (hmax : lru.size + k < 2 ^ 31) (hk : k < 2 ^ 33) (rev : ℕ → CacheData) :
    ¬ Quiet (serve rev lru (requests 0 (k + 1))) := by
  obtain ⟨ev, lru₁, es, -, h₁, hkeys, hsize₁, hcap₁, hserve⟩ :=
    serve_requests k (j := 0) h (by simp) hroom hmax (by omega) rev
  rw [Nat.zero_add] at hkeys
  have hsplit : requests 0 (k + 1) = requests 0 k ++ [fetched (name k)] := by
    rw [requests, List.range'_concat, List.map_append, requests]
    simp
  have hmiss : name k ∉ es.map Prod.fst := hkeys ▸ name_notMem k
  obtain ⟨lru₂, h₂, hsize₂, hcap₂, hdoit⟩ :=
    doit_fetched h₁ (plain_name hk) hmiss (rev (0 + k))
  have hfull₂ : lru₂.capacity = lru₂.size := by rw [hcap₂, hcap₁, hfull, hsize₂, hsize₁]
  rw [hsplit, hserve, serve, hdoit, record_bind, bind_assoc, bind_of_ok (result_request _)]
  cases es with
  | nil =>
      -- the eviction from an empty list crashes
      rw [storeObject_empty h₂ hfull₂, stop_bind]
      rintro ⟨hok, -⟩
      exact Bool.false_ne_true hok
  | cons e es =>
      rintro ⟨-, hev⟩
      refine hev e.1 ?_
      have hmem := evict_mem_storeObject h₂ hmiss hfull₂ (rev (0 + k))
      have hsub := events_prefix (storeObject lru₂ (name k) (rev (0 + k)))
        fun lru => serve (fun i => rev (i + 1 + k)) lru []
      exact List.mem_append_right _ (List.mem_append_right _ (hsub.subset hmem))

theorem size_of_sameResults {m₁ m₂ : Cache} {rev₁ rev₂ : ℕ → CacheData}
    (hbrk₁ : 0 < m₁.brk) (hbrk₂ : 0 < m₂.brk) (hmin : -2 ^ 31 ≤ m₂.size) (hmax : m₂.size < 2 ^ 31)
    (hquiet : ∀ c : ℤ, 1 ≤ c → c < 2 ^ 31 → ∀ ts, Quiet (serve rev₁ (Lru.lruInit c m₁) ts) →
      Quiet (serve rev₂ (Lru.lruInit c m₂) ts)) : m₂.size ≤ m₁.size := by
  by_contra hlt
  -- the second cache takes itself to be full after `k` requests, the first does not
  obtain ⟨k, hk, hpos, hfull⟩ : ∃ k : ℕ, k < 2 ^ 33 ∧ 1 ≤ m₂.size + k ∧ m₂.size + k < 2 ^ 31 :=
    ⟨(1 - m₂.size).toNat, by omega, by omega, by omega⟩
  have h₁ := Lru.holds_lruInit (m₂.size + k) m₁ hbrk₁
  have h₂ := Lru.holds_lruInit (m₂.size + k) m₂ hbrk₂
  refine not_quiet_requests h₂ (k := k) ?_ rfl hfull hk rev₂
    (hquiet _ hpos hfull _ (quiet_requests h₁ ?_ ?_ (by omega) rev₁))
  · intro i hi
    show m₂.size + k ≠ m₂.size + i
    omega
  · intro i hi
    show m₂.size + k ≠ m₁.size + i
    omega
  · show m₁.size + (k + 1 : ℕ) < 2 ^ 31
    push_cast
    omega

/-! ## The contents that are read -/

/-- **Which contents of uninitialised memory give the same results**: those that agree on
the `size` of the cache, and on the `len` of every object and its bytes below `len`. -/
theorem sameResults_iff {m₁ m₂ : Cache} {rev₁ rev₂ : ℕ → CacheData} (hbrk₁ : 0 < m₁.brk)
    (hbrk₂ : 0 < m₂.brk) (hint₁ : -2 ^ 31 ≤ m₁.size ∧ m₁.size < 2 ^ 31)
    (hint₂ : -2 ^ 31 ≤ m₂.size ∧ m₂.size < 2 ^ 31) :
    SameResults m₁ m₂ rev₁ rev₂ ↔
      m₁.size = m₂.size ∧ ∀ i, SameObject (rev₁ i) (rev₂ i) := by
  constructor
  · intro h
    have hle₂ := size_of_sameResults hbrk₁ hbrk₂ hint₂.1 hint₂.2 fun c h₁ h₂ ts =>
      (quiet_congr (h c h₁ h₂ ts)).mp
    have hle₁ := size_of_sameResults hbrk₂ hbrk₁ hint₁.1 hint₁.2 fun c h₁ h₂ ts =>
      (quiet_congr (h c h₁ h₂ ts)).mpr
    have hsize : m₁.size = m₂.size := le_antisymm hle₁ hle₂
    exact ⟨hsize, sameObject_of_sameResults hbrk₁ hbrk₂ hsize h⟩
  · rintro ⟨hsize, hrev⟩ c hpos hlt ts
    obtain ⟨hevents, hresult⟩ := serve_agree (Lru.alike_lruInit c hbrk₁ hbrk₂ hsize) hrev ts
    refine ⟨hevents, ?_⟩
    generalize (serve rev₁ (Lru.lruInit c m₁) ts).result = a at hresult ⊢
    generalize (serve rev₂ (Lru.lruInit c m₂) ts).result = b at hresult ⊢
    cases hresult with
    | ok h =>
        obtain ⟨es₁, es₂, h₁, h₂, hes, -⟩ := h
        exact .ok ⟨es₁, es₂, h₁, h₂, hes⟩
    | error s => exact .error s

/-- Other bytes where nothing is read. -/
theorem sameResults_other_bytes : SameResults zeroedMemory
    { zeroedMemory with capacity := 7, nxt := fun _ => 9, key := fun _ => [1] }
    (fun _ => zeroed) (fun _ => ⟨fun _ => 0xff, 0⟩) := by
  refine (sameResults_iff (by decide) (by decide) (by decide) (by decide)).mpr ⟨rfl, fun i => ?_⟩
  exact ⟨rfl, fun _ j hj => absurd hj (by simp [zeroed])⟩

/-- An object whose `len` was as large as an object may be: the response of three bytes is
not stored. -/
theorem not_sameResults_len : ¬ SameResults zeroedMemory zeroedMemory (fun _ => zeroed)
    (fun _ => { zeroed with len := MAX_OBJECT_SIZE }) := by
  intro h
  have hevents := (h 10 (by decide) (by decide)
    [⟨⟨fun _ _ => true, text "hi\n"⟩, blank, text "GET http://h/ HTTP/1.1\r\n\r\n"⟩]).events
  revert hevents
  decide +kernel

end Proxy
