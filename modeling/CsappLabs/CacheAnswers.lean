/-
# What the cache changes

`doit` looks the URL up before it checks the method, the URL and the version.  So a request
that is refused when the cache is empty is answered from the cache when an earlier client
had that URL fetched; the client gets the same bytes then only when the object is, byte for
byte, the error page (`refusal_kept_iff`).

The key under which a response is stored is read from the array of the URL after `parseUrl`
was there.  `parseUrl` appends a slash to a URL without a path, and such a response is not
found again (`fetched_found_iff`).
-/
import CsappLabs.Upstream
import CsappLabs.HeapContents

open Effects Effects.Prog CString Relay

namespace Proxy

/-! ## Refused requests -/

/-- What the client sees. -/
def Event.toClient : Event → Bool
  | .reply _ => true
  | .errorPage _ => true
  | _ => false

def answer (x : Run Cache) : List Event := x.events.filter Event.toClient

/-- The bytes of what the client sees. -/
def Event.bytes : Event → List UInt8
  | .reply s => s
  | .errorPage s => s
  | _ => []

/-- The bytes that the client gets. -/
def clientBytes (x : Run Cache) : List UInt8 := x.events.flatMap Event.bytes

/-- The request is answered with an error page. -/
def Refused (x : Run Cache) : Prop := ∃ s, .errorPage s ∈ x.events

/-- What the client sees is what the bytes are of. -/
theorem clientBytes_eq (x : Run Cache) : clientBytes x = (answer x).flatMap Event.bytes := by
  rw [clientBytes, answer]
  induction x.events with
  | nil => rfl
  | cons e es ih =>
      rw [List.flatMap_cons, ih, List.filter_cons]
      cases e <;> rfl

/-- No write of an error page is empty. -/
def Event.PageFilled (e : Event) : Prop := ∀ s, e = .errorPage s → s ≠ []

/-- An error page has bytes. -/
theorem Refused.clientBytes_ne_nil {x : Run Cache} (h : Refused x)
    (hfilled : Emits Event.PageFilled x) : clientBytes x ≠ [] := by
  obtain ⟨s, hs⟩ := h
  intro hnil
  have hbytes : Event.bytes (.errorPage s) = [] := List.flatMap_eq_nil_iff.mp hnil _ hs
  exact hfilled _ hs s rfl hbytes

/-- Nothing is sent to the client. -/
theorem answer_eq_nil {x : Run Cache} (h : Emits (fun e => e.toClient = false) x) :
    answer x = [] := by
  apply List.filter_eq_nil_iff.mpr
  intro e he
  rw [h e he]
  decide

/-- The same beginning, and ends with the same answers. -/
theorem answer_bind {α : Type} (x : Run α) {f g : α → Run Cache}
    (h : ∀ a, answer (f a) = answer (g a)) : answer (x >>= f) = answer (x >>= g) := by
  cases hx : x.result with
  | ok a =>
      rw [bind_of_ok hx, bind_of_ok hx, answer, answer]
      simp only [List.filter_append]
      rw [← answer, ← answer, h a]
  | error s => rw [bind_of_error hx, bind_of_error hx]

/-- A store is not seen by the client. -/
theorem answer_storeObject (lru : Cache) (url : List UInt8) (d : CacheData) :
    answer (storeObject lru url d) = [] := by
  apply answer_eq_nil
  exact emits_storeObject (fun _ _ _ => rfl) (fun _ => rfl) lru url d

theorem Event.pageFilled_of_ne {e : Event} (h : ∀ s, e ≠ .errorPage s) : e.PageFilled :=
  fun s hs => absurd hs (h s)

/-- Whatever happens after a miss, the writes of its error page are not empty. -/
theorem fetch_pageFilled (net : Net) (f : Frame) (rev : CacheData) (lru : Cache)
    (input : List UInt8) : Emits Event.PageFilled (fetch net f rev lru input) := by
  have hpage : ∀ longmsg, Emits Event.PageFilled (clienterror [] (text "500") [] longmsg) := by
    intro longmsg e he
    simp only [clienterror, events_emit_bind, events_emit, List.mem_cons, List.not_mem_nil,
      or_false] at he
    rintro s rfl
    rcases he with he | he | he | he | he | he | he <;> cases he <;> simp [text]
  unfold fetch
  refine Emits.ite (Emits.bind ?_ fun o => ?_) (Emits.bind (hpage _) fun _ => .pure _)
  · exact emits_forwardRequest (fun _ => Event.pageFilled_of_ne (by simp))
      (fun _ _ => Event.pageFilled_of_ne (by simp)) hpage net f input
  · cases o with
    | none => exact .pure _
    | some f =>
        refine Emits.bind (emits_responseLoop (fun _ => Event.pageFilled_of_ne (by simp)) _ _)
          fun d => ?_
        cases d with
        | none => exact .pure _
        | some d =>
            refine Emits.bind (.require _ _) fun url => ?_
            exact emits_storeObject (fun _ _ _ => Event.pageFilled_of_ne (by simp))
              (fun _ => Event.pageFilled_of_ne (by simp)) _ _ _

/-- The client does not see the cache after a miss. -/
theorem answer_fetch (net : Net) (f : Frame) (rev : CacheData) (lru lru' : Cache)
    (input : List UInt8) :
    answer (fetch net f rev lru input) = answer (fetch net f rev lru' input) := by
  unfold fetch
  split_ifs
  · refine answer_bind _ fun o => ?_
    cases o with
    | none => rfl
    | some f =>
        refine answer_bind _ fun d => ?_
        cases d with
        | none => rfl
        | some d =>
            refine answer_bind _ fun url => ?_
            rw [answer_storeObject, answer_storeObject]
  · exact answer_bind _ fun _ => rfl

/-- A transaction leaves a well-formed cache. -/
theorem holds_of_serve {rev : ℕ → CacheData} {lru lru' : Cache} {es : List (List UInt8 × CacheData)}
    (h : Lru.Holds lru es) {ts : List Transaction} (hrun : (serve rev lru ts).result = .ok lru') :
    ∃ es', Lru.Holds lru' es' := by
  have hrefl : Lru.EntriesAlike SameObject es es :=
    List.forall₂_same.mpr fun e _ => ⟨rfl, rfl, fun _ _ _ => rfl⟩
  have hself : Lru.Alike SameObject lru lru := ⟨es, es, h, h, hrefl, rfl, rfl⟩
  have hagree := (serve_agree hself (fun i => ⟨rfl, fun _ _ _ => rfl⟩) ts :
    Agree (Lru.Alike SameObject) (serve rev lru ts) (serve rev lru ts)).result
  rw [hrun] at hagree
  cases hagree with
  | ok halike =>
      obtain ⟨es', -, hold, -⟩ := halike
      exact ⟨es', hold⟩

section

variable {net : Net} {f : Frame} {rev : CacheData} {lru : Cache}
  {input line rest m u v : List UInt8} {es : List (List UInt8 × CacheData)}

/-- A miss. -/
theorem doit_missed (hthree : ThreeWords line m u v)
    (hread : rioReadlineb MAXLINE input = (line, rest)) (hold : Lru.Holds lru es)
    (hmiss : u ∉ es.map Prod.fst) :
    ∃ lru', Lru.Holds lru' es ∧ doit net f rev lru input =
      (emit (.lookup u false) >>= fun _ => fetch net (f.scanned m u v) rev lru' rest) := by
  obtain ⟨lru', hget, hold', -⟩ := lruGet_miss hold hmiss
  exact ⟨lru', hold', hthree.doit_miss hread hget f⟩

/-- A hit. -/
theorem doit_hit (hthree : ThreeWords line m u v)
    (hread : rioReadlineb MAXLINE input = (line, rest)) (hold : Lru.Holds lru es)
    (hhit : u ∈ es.map Prod.fst) :
    ∃ lru' d, Lru.valueOf u es = some d ∧
      doit net f rev lru input = (emit (.lookup u true) >>= fun _ =>
        require .crash (hit d) >>= fun s => emit (.reply s) >>= fun _ => pure lru') := by
  obtain ⟨lru', hget, -⟩ := Lru.lruGet_spec hold u
  obtain ⟨d, hd⟩ : ∃ d, Lru.valueOf u es = some d := by
    rw [← Option.ne_none_iff_exists']
    exact fun hnone => Lru.valueOf_eq_none.mp hnone hhit
  rw [hd] at hget
  have hurl : stringAt MAXLINE (scanRequest f line).url 0 = some u := by
    rw [hthree.scanRequest]
    exact hthree.stringAt_url f
  refine ⟨lru', d, hd, ?_⟩
  rw [doit, hread]
  simp only
  rw [if_neg (by rw [List.length_eq_zero_iff]; exact hthree.ne_nil), readString_eq hurl, pure_bind,
    hget, require_some, pure_bind]
  rfl

end

/-- The bytes of a hit. -/
theorem clientBytes_hit (u : List UInt8) (d : CacheData) (lru : Cache) :
    clientBytes (emit (.lookup u true) >>= fun _ => require .crash (hit d) >>= fun s =>
      emit (.reply s) >>= fun _ => pure lru) = (hit d).getD [] := by
  cases hit d with
  | none => rfl
  | some s => exact List.append_nil s

/-- **A refused request stays refused** whatever the cache holds, as long as the URL is not
among its keys; the client gets the same bytes in that case, and when the object under that
key is, byte for byte, the error page. -/
theorem refusal_kept_iff {c : ℤ} {memory lru : Cache} {revs : ℕ → CacheData}
    {ts : List Transaction} {net : Net} {f : Frame} {rev : CacheData}
    {input line rest method url version : List UInt8} (hbrk : 0 < memory.brk)
    (hreached : (serve revs (Lru.lruInit c memory) ts).result = .ok lru)
    (hread : rioReadlineb MAXLINE input = (line, rest))
    (hwords : words 3 (cstring line) = [method, url, version])
    (hrefused : Refused (doit net f rev (Lru.lruInit c memory) input)) :
    ∃ es, Lru.Holds lru es ∧
      (answer (doit net f rev lru input) = answer (doit net f rev (Lru.lruInit c memory) input) ↔
        url ∉ es.map Prod.fst) ∧
      (clientBytes (doit net f rev lru input) =
          clientBytes (doit net f rev (Lru.lruInit c memory) input) ↔
        url ∉ es.map Prod.fst ∨ ∃ d, Lru.valueOf url es = some d ∧
          hit d = some (clientBytes (doit net f rev (Lru.lruInit c memory) input))) := by
  have hempty := Lru.holds_lruInit c memory hbrk
  obtain ⟨es, hold⟩ := holds_of_serve hempty hreached
  have hthree := threeWords hread hwords
  obtain ⟨lru₀, -, hdoit₀⟩ := @doit_missed net f rev _ input line rest method url version _ hthree
    hread hempty List.not_mem_nil
  have hkept : url ∉ es.map Prod.fst →
      answer (doit net f rev lru input) =
        answer (doit net f rev (Lru.lruInit c memory) input) := by
    intro hmiss
    obtain ⟨lru', -, hdoit⟩ := @doit_missed net f rev lru input line rest method url version es
      hthree hread hold hmiss
    rw [hdoit, hdoit₀]
    exact answer_bind _ fun _ => answer_fetch ..
  refine ⟨es, hold, ⟨fun hsame hmem => ?_, hkept⟩, fun hsame => ?_, ?_⟩
  · -- a hit has no error page
    obtain ⟨s, hs⟩ := hrefused
    have hpage : Event.errorPage s ∈ answer (doit net f rev (Lru.lruInit c memory) input) :=
      List.mem_filter.mpr ⟨hs, rfl⟩
    rw [← hsame] at hpage
    obtain ⟨lru', d, -, hdoit⟩ := @doit_hit net f rev lru input line rest method url version es
      hthree hread hold hmem
    have hhit : Emits (fun e => ∀ s, e ≠ .errorPage s) (doit net f rev lru input) := by
      rw [hdoit]
      refine (Emits.emit fun _ => by simp).bind fun _ => (Emits.require _ _).bind fun _ => ?_
      exact (Emits.emit fun _ => by simp).bind fun _ => Emits.pure _
    exact hhit _ (List.mem_of_mem_filter hpage) s rfl
  · refine Classical.or_iff_not_imp_left.mpr fun hmem => ?_
    obtain ⟨lru', d, hd, hdoit⟩ := @doit_hit net f rev lru input line rest method url version es
      hthree hread hold (not_not.mp hmem)
    refine ⟨d, hd, ?_⟩
    -- the page is not empty, so the hit sends something
    have hfilled : Emits Event.PageFilled (doit net f rev (Lru.lruInit c memory) input) := by
      rw [hdoit₀]
      exact Emits.bind (.emit (Event.pageFilled_of_ne (by simp))) fun _ =>
        fetch_pageFilled _ _ _ _ _
    have hne := hrefused.clientBytes_ne_nil hfilled
    rw [hdoit, clientBytes_hit] at hsame
    rw [← hsame] at hne ⊢
    cases hhit : hit d with
    | none => rw [hhit] at hne; exact absurd rfl hne
    | some s => rfl
  · rintro (hmiss | ⟨d, hd, hhit⟩)
    · rw [clientBytes_eq, clientBytes_eq, hkept hmiss]
    · have hmem : url ∈ es.map Prod.fst := by
        by_contra hnot
        rw [Lru.valueOf_eq_none.mpr hnot] at hd
        cases hd
      obtain ⟨lru', d', hd', hdoit⟩ := @doit_hit net f rev lru input line rest method url version
        es hthree hread hold hmem
      obtain rfl := Option.some.inj (hd'.symm.trans hd)
      rw [hdoit, clientBytes_hit, hhit]
      rfl

/-- Every connection is made, and answered. -/
def greeting : Net := ⟨fun _ _ => true, text "hello"⟩

/-- `http://h/` is fetched and stored. -/
def greeted : Transaction := ⟨greeting, blank, text "GET http://h/ HTTP/1.1\r\n\r\n"⟩

/-- A look-up finds the keys. -/
theorem mem_keys_of_lruGet {lru : Cache} {es : List (List UInt8 × CacheData)}
    (hold : Lru.Holds lru es) {u : List UInt8} {found : Bool}
    (hget : (Lru.lruGet lru u).map (fun r => r.2.isSome) = some found) :
    u ∈ es.map Prod.fst ↔ found = true := by
  obtain ⟨lru', hspec, -⟩ := Lru.lruGet_spec hold u
  rw [hspec, Option.map_some, Option.some.injEq] at hget
  rw [← hget, ← not_iff_not, ← Lru.valueOf_eq_none, Bool.not_eq_true, Option.isSome_eq_false_iff,
    Option.isNone_iff_eq_none]

/-- After `greeted`, `http://h/` is found, and `http://g/` is not. -/
theorem exists_greeted : ∃ lru, (serve (fun _ => zeroed) (Lru.lruInit 10 zeroedMemory)
      [greeted]).result = .ok lru ∧
    (Lru.lruGet lru (text "http://h/")).map (fun r => r.2.isSome) = some true ∧
    (Lru.lruGet lru (text "http://g/")).map (fun r => r.2.isSome) = some false := by
  have hval : (serve (fun _ => zeroed) (Lru.lruInit 10 zeroedMemory) [greeted]).result.map
      (fun lru => ((Lru.lruGet lru (text "http://h/")).map (fun r => r.2.isSome),
        (Lru.lruGet lru (text "http://g/")).map (fun r => r.2.isSome))) =
      .ok (some true, some false) := by
    decide +kernel
  cases hrun : (serve (fun _ => zeroed) (Lru.lruInit 10 zeroedMemory) [greeted]).result with
  | error s =>
      rw [hrun] at hval
      cases hval
  | ok lru =>
      rw [hrun] at hval
      obtain ⟨hh, hg⟩ := Prod.mk.inj (Except.ok.inj hval)
      exact ⟨lru, rfl, hh, hg⟩

/-- `http://h/` was stored, and `http://g/` is refused as before. -/
theorem refusal_kept_first : ∃ lru es, (serve (fun _ => zeroed) (Lru.lruInit 10 zeroedMemory)
      [greeted]).result = .ok lru ∧ Lru.Holds lru es ∧ text "http://h/" ∈ es.map Prod.fst ∧
    clientBytes (doit silent blank zeroed lru (text "POST http://g/ HTTP/1.1\r\n\r\n")) =
      clientBytes (doit silent blank zeroed (Lru.lruInit 10 zeroedMemory)
        (text "POST http://g/ HTTP/1.1\r\n\r\n")) := by
  have hrefused : Refused (doit silent blank zeroed (Lru.lruInit 10 zeroedMemory)
      (text "POST http://g/ HTTP/1.1\r\n\r\n")) :=
    ⟨text "HTTP/1.0 500 \r\n", by decide +kernel⟩
  obtain ⟨lru, hrun, hh, hg⟩ := exists_greeted
  obtain ⟨es, hold, -, hiff⟩ := @refusal_kept_iff _ _ _ _ _ _ _ _ _
    (text "POST http://g/ HTTP/1.1\r\n") crlf (text "POST") (text "http://g/") (text "HTTP/1.1")
    (by decide) hrun (by decide +kernel) (by decide +kernel) hrefused
  refine ⟨lru, es, hrun, hold, (mem_keys_of_lruGet hold hh).mpr rfl, hiff.mpr (Or.inl ?_)⟩
  rw [mem_keys_of_lruGet hold hg]
  exact Bool.false_ne_true

/-- After `http://h/` was stored, it is sent for another method as well. -/
theorem refusal_lost : ∃ lru, (serve (fun _ => zeroed) (Lru.lruInit 10 zeroedMemory)
      [greeted]).result = .ok lru ∧
    Refused (doit silent blank zeroed (Lru.lruInit 10 zeroedMemory)
      (text "POST http://h/ HTTP/1.1\r\n\r\n")) ∧
    answer (doit silent blank zeroed lru (text "POST http://h/ HTTP/1.1\r\n\r\n")) =
      [.reply (text "hello")] := by
  have hval : (serve (fun _ => zeroed) (Lru.lruInit 10 zeroedMemory) [greeted]).result.map
      (fun lru => answer (doit silent blank zeroed lru
        (text "POST http://h/ HTTP/1.1\r\n\r\n"))) = .ok [.reply (text "hello")] := by
    decide +kernel
  cases hrun : (serve (fun _ => zeroed) (Lru.lruInit 10 zeroedMemory) [greeted]).result with
  | error s =>
      rw [hrun] at hval
      cases hval
  | ok lru =>
      rw [hrun] at hval
      exact ⟨lru, rfl, ⟨text "HTTP/1.0 500 \r\n", by decide +kernel⟩, Except.ok.inj hval⟩

/-! ## What is stored -/

/-- A URL with a scheme and no path. -/
def NoPath (u : List UInt8) : Prop :=
  ∃ p, strstr u (text "://") = some p ∧ strchr (u.drop (p + 3)) slash = none

/-- The split writes the other arrays only. -/
theorem splitUrl_url {f f' : Frame} {p i : ℕ} {rc : ℤ} (h : splitUrl f p i = some (f', rc)) :
    f'.url = f.url := by
  simp only [splitUrl, Option.bind_eq_bind, Option.bind_eq_some_iff] at h
  obtain ⟨path, -, rest, -, h⟩ := h
  cases hcolon : strchr rest colon with
  | none =>
      simp only [hcolon, Option.bind_eq_some_iff, Option.some.injEq, Prod.mk.injEq] at h
      obtain ⟨hostname, -, rfl, -⟩ := h
      rfl
  | some j =>
      simp only [hcolon, Option.bind_eq_some_iff, Option.some.injEq, Prod.mk.injEq] at h
      obtain ⟨hostname, -, after, -, port, -, rfl, -⟩ := h
      rfl

/-- **`parseUrl` appends a slash** to a URL without a path, and keeps the others. -/
theorem parseUrl_url {f f' : Frame} {u : List UInt8} {rc : ℤ}
    (hurl : stringAt MAXLINE f.url 0 = some u) (h : parseUrl f = some (f', rc)) (hrc : ¬ rc < 0) :
    (¬ NoPath u → f'.url = f.url) ∧
      (NoPath u → f'.url = Function.update f.url u.length slash) := by
  cases hscheme : strstr u (text "://") with
  | none =>
      rw [parseUrl_noScheme hurl hscheme, Option.some.injEq, Prod.mk.injEq] at h
      obtain ⟨rfl, -⟩ := h
      refine ⟨fun _ => rfl, ?_⟩
      rintro ⟨p, hp, -⟩
      rw [hscheme] at hp
      cases hp
  | some p =>
      cases hhttp : strncasecmp u (text "http://") 7 with
      | false =>
          rw [parseUrl_otherScheme hurl hscheme hhttp, Option.some.injEq, Prod.mk.injEq] at h
          exact absurd h.2 (by omega)
      | true =>
          cases hslash : strchr (u.drop (p + 3)) slash with
          | none =>
              rw [parseUrl_noSlash hurl hscheme hhttp hslash] at h
              exact ⟨fun hno => absurd ⟨p, hscheme, hslash⟩ hno, fun _ => splitUrl_url h⟩
          | some i =>
              rw [parseUrl_slash hurl hscheme hhttp hslash] at h
              refine ⟨fun _ => splitUrl_url h, ?_⟩
              rintro ⟨q, hq, hnone⟩
              obtain rfl := Option.some.inj (hscheme.symm.trans hq)
              rw [hslash] at hnone
              cases hnone

theorem parseVersion_url {f f' : Frame} {rc : ℤ} (h : parseVersion f = some (f', rc)) :
    f'.url = f.url := by
  unfold parseVersion at h
  split_ifs at h
  · simp only [Option.bind_eq_bind, Option.bind_eq_some_iff, Option.some.injEq,
      Prod.mk.injEq] at h
    obtain ⟨v, -, rfl, -⟩ := h
    rfl
  · obtain ⟨rfl, -⟩ := Prod.mk.inj (Option.some.inj h)
    rfl

/-- Nothing is stored. -/
def NotStore : Event → Prop
  | .store _ _ _ => False
  | _ => True

section

variable {net : Net} {f f' : Frame} {rev : CacheData} {lru lru' : Cache} {rest : List UInt8}

theorem forwardRequest_stores : Emits NotStore (forwardRequest net f rest) :=
  emits_forwardRequest (fun _ => trivial) (fun _ _ => trivial)
    (fun _ => emits_clienterror (fun _ => trivial) _ _ _ _) net f rest

/-- A request that was sent leaves the URL as `parseUrl` does. -/
theorem forwardRequest_url (hret : (forwardRequest net f rest).result = .ok (some f')) :
    ∃ f₁ rc, parseUrl f = some (f₁, rc) ∧ ¬ rc < 0 ∧ f'.url = f₁.url := by
  unfold forwardRequest at hret
  obtain ⟨⟨f₁, rc⟩, hparse, hret, -⟩ := bind_eq_ok hret
  have hparse := ((Erases.require _ _).ok_iff _).mp hparse
  simp only at hret
  split_ifs at hret with hrc
  · obtain ⟨_, -, hret, -⟩ := bind_eq_ok hret
    cases hret
  obtain ⟨⟨f₂, rc₂⟩, hversion, hret, -⟩ := bind_eq_ok hret
  have hversion := ((Erases.require _ _).ok_iff _).mp hversion
  simp only at hret
  split_ifs at hret with hrc₂
  · obtain ⟨_, -, hret, -⟩ := bind_eq_ok hret
    cases hret
  obtain ⟨hostname, -, hret, -⟩ := bind_eq_ok hret
  obtain ⟨port, -, hret, -⟩ := bind_eq_ok hret
  obtain ⟨_, -, hret, -⟩ := bind_eq_ok hret
  split_ifs at hret
  · obtain ⟨_, -, hret, -⟩ := bind_eq_ok hret
    cases hret
    exact ⟨f₁, rc, hparse, hrc, parseVersion_url hversion⟩
  · cases hret

/-- A store. -/
theorem storeObject_stores {url k : List UInt8} {d : CacheData} {len : ℤ}
    {content : Option (List UInt8)} (hret : (storeObject lru url d).result = .ok lru')
    (hstore : .store k len content ∈ (storeObject lru url d).events) :
    k = url ∧ Lru.lruPut lru url d = some lru' := by
  unfold storeObject at hret hstore
  obtain ⟨lru₁, hput, hret, hevents⟩ := bind_eq_ok hret
  have hput := ((Erases.require _ _).ok_iff _).mp hput
  rw [hput, require_some, pure_bind, events_emit_bind] at hstore
  rw [result_emit_bind] at hret
  cases hevicted : evicted lru url with
  | none =>
      simp only [hevicted, events_pure, result_pure, List.mem_singleton, Event.store.injEq,
        Except.ok.injEq] at hstore hret
      exact ⟨hstore.1, hret ▸ hput⟩
  | some k' =>
      simp only [hevicted, events_emit_bind, result_emit_bind, events_pure, result_pure,
        List.mem_cons, List.not_mem_nil, or_false, Event.store.injEq, reduceCtorEq,
        Except.ok.injEq] at hstore hret
      exact ⟨hstore.1, hret ▸ hput⟩

/-- The response is stored under the string that the array of the URL holds. -/
theorem receiveResponse_stores {k : List UInt8} {len : ℤ} {content : Option (List UInt8)}
    (hret : (receiveResponse net f rev lru).result = .ok lru')
    (hstore : .store k len content ∈ (receiveResponse net f rev lru).events) :
    ∃ d, stringAt MAXLINE f.url 0 = some k ∧ Lru.lruPut lru k d = some lru' := by
  unfold receiveResponse at hret hstore
  obtain ⟨o, -, hret, hevents⟩ := bind_eq_ok hret
  rw [hevents, List.mem_append] at hstore
  have hstore := hstore.resolve_left fun hmem =>
    emits_responseLoop (P := NotStore) (fun _ => trivial) _ _ _ hmem
  cases o with
  | none => exact absurd hstore List.not_mem_nil
  | some d =>
      obtain ⟨url, hurl, hret, hevents⟩ := bind_eq_ok hret
      have hurl := ((Erases.require _ _).ok_iff _).mp hurl
      rw [hevents, List.mem_append] at hstore
      have hstore := hstore.resolve_left fun hmem => Emits.require (P := NotStore) _ _ _ hmem
      obtain ⟨rfl, hput⟩ := storeObject_stores hret hstore
      exact ⟨d, hurl, hput⟩

/-- **The key of a response** is the URL as `parseUrl` leaves it. -/
theorem fetch_stores {k : List UInt8} {len : ℤ} {content : Option (List UInt8)}
    (hret : (fetch net f rev lru rest).result = .ok lru')
    (hstore : .store k len content ∈ (fetch net f rev lru rest).events) :
    ∃ f₁ rc d, parseUrl f = some (f₁, rc) ∧ ¬ rc < 0 ∧ stringAt MAXLINE f₁.url 0 = some k ∧
      Lru.lruPut lru k d = some lru' := by
  unfold fetch at hret hstore
  split_ifs at hret hstore with hget
  · obtain ⟨o, hsent, hret, hevents⟩ := bind_eq_ok hret
    rw [hevents, List.mem_append] at hstore
    have hstore := hstore.resolve_left fun hmem => forwardRequest_stores _ hmem
    cases o with
    | none => exact absurd hstore List.not_mem_nil
    | some f' =>
        obtain ⟨f₁, rc, hparse, hrc, hurl⟩ := forwardRequest_url hsent
        obtain ⟨d, hkey, hput⟩ := receiveResponse_stores hret hstore
        exact ⟨f₁, rc, d, hparse, hrc, hurl ▸ hkey, hput⟩
  · have hpage : Emits NotStore (clienterror [] (text "500") [] (text "Method Not Supported") >>=
        fun _ => (pure lru : Run Cache)) :=
      Emits.bind (emits_clienterror (fun _ => trivial) _ _ _ _) fun _ => .pure _
    exact absurd (hpage _ hstore) id

end

/-- What `lru_put` was given is among the keys. -/
theorem holds_of_lruPut {lru lru' : Cache} {es : List (List UInt8 × CacheData)}
    (hold : Lru.Holds lru es) {k : List UInt8} {d : CacheData}
    (hput : Lru.lruPut lru k d = some lru') :
    ∃ es', Lru.Holds lru' es' ∧ k ∈ es'.map Prod.fst := by
  by_cases hempty : lru.capacity = lru.size ∧ es = []
  · obtain ⟨hfull, rfl⟩ := hempty
    rw [Lru.lruPut_empty hold hfull] at hput
    cases hput
  · obtain ⟨lru₁, hput₁, hold₁, -⟩ := Lru.lruPut_spec hold k d fun hfull hes => hempty ⟨hfull, hes⟩
    obtain rfl := Option.some.inj (hput₁.symm.trans hput)
    refine ⟨_, hold₁, ?_⟩
    unfold Lru.putEntries
    cases Lru.valueOf k es <;> simp

/-- **What was fetched is found again**, under the URL that was looked up and by the next
request with the same line, exactly when the URL has a path or no scheme. -/
theorem fetched_found_iff {c : ℤ} {memory lru lru' : Cache} {revs : ℕ → CacheData}
    {ts : List Transaction} {net : Net} {f : Frame} {rev : CacheData}
    {input line rest method url version k : List UInt8} {len : ℤ}
    {content : Option (List UInt8)} (hbrk : 0 < memory.brk)
    (hreached : (serve revs (Lru.lruInit c memory) ts).result = .ok lru)
    (hread : rioReadlineb MAXLINE input = (line, rest))
    (hwords : words 3 (cstring line) = [method, url, version])
    (hret : (doit net f rev lru input).result = .ok lru')
    (hstore : .store k len content ∈ (doit net f rev lru input).events) :
    (k = url ∧ ∀ net f rev input rest, rioReadlineb MAXLINE input = (line, rest) →
        .lookup url true ∈ (doit net f rev lru' input).events) ↔ ¬ NoPath url := by
  obtain ⟨es, hold⟩ := holds_of_serve (Lru.holds_lruInit c memory hbrk) hreached
  have hthree := threeWords hread hwords
  have hurl := hthree.stringAt_url f
  -- it was a miss
  have hmiss : url ∉ es.map Prod.fst := by
    intro hmem
    obtain ⟨lru₁, d, -, hdoit⟩ := @doit_hit net f rev lru input line rest method url version es
      hthree hread hold hmem
    have hhit : Emits NotStore (doit net f rev lru input) := by
      rw [hdoit]
      refine Emits.bind (.emit trivial) fun _ => Emits.bind (.require _ _) fun s => ?_
      exact Emits.bind (.emit (e := Event.reply s) trivial) fun _ => .pure _
    exact hhit _ hstore
  obtain ⟨lru₁, hold₁, hdoit⟩ := @doit_missed net f rev lru input line rest method url version es
    hthree hread hold hmiss
  rw [hdoit, result_emit_bind] at hret
  rw [hdoit, events_emit_bind, List.mem_cons] at hstore
  obtain ⟨f₁, rc, d, hparse, hrc, hkey, hput⟩ := fetch_stores hret (hstore.resolve_left (by simp))
  obtain ⟨hsame, hslash⟩ := parseUrl_url hurl hparse hrc
  constructor
  · -- the array does not end where the URL did
    rintro ⟨rfl, -⟩ hno
    rw [hslash hno] at hkey
    have hend := (stringAt_eq_some.mp hkey).2.2.2
    rw [Nat.zero_add, Function.update_self] at hend
    exact absurd hend (by decide)
  · intro hno
    rw [hsame hno] at hkey
    obtain rfl : k = url := Option.some.inj (hkey.symm.trans hurl)
    refine ⟨rfl, fun net f rev input rest hread => ?_⟩
    obtain ⟨es', hold', hmem⟩ := holds_of_lruPut hold₁ hput
    obtain ⟨lru₂, d', -, hdoit'⟩ := @doit_hit net f rev lru' input line rest method k version es'
      hthree hread hold' hmem
    rw [hdoit', events_emit_bind]
    exact List.mem_cons_self

theorem fetched_found_first : ∃ lru', (doit greeting blank zeroed (Lru.lruInit 10 zeroedMemory)
      (text "GET http://h/ HTTP/1.1\r\n\r\n")).result = .ok lru' ∧
    .lookup (text "http://h/") true ∈
      (doit silent blank zeroed lru' (text "GET http://h/ HTTP/1.1\r\n\r\n")).events := by
  have hpath : ¬ NoPath (text "http://h/") := by
    rintro ⟨p, hp, hnone⟩
    obtain rfl : p = 4 := Option.some.inj (hp.symm.trans (by decide +kernel))
    exact absurd hnone (by decide +kernel)
  cases hrun : (doit greeting blank zeroed (Lru.lruInit 10 zeroedMemory)
      (text "GET http://h/ HTTP/1.1\r\n\r\n")).result with
  | error s =>
      have hret : (doit greeting blank zeroed (Lru.lruInit 10 zeroedMemory)
        (text "GET http://h/ HTTP/1.1\r\n\r\n")).result.toBool = true := by decide +kernel
      rw [hrun] at hret
      cases hret
  | ok lru' =>
      have hfound := (@fetched_found_iff 10 zeroedMemory _ lru' (fun _ => zeroed) [] greeting blank
        zeroed (text "GET http://h/ HTTP/1.1\r\n\r\n") (text "GET http://h/ HTTP/1.1\r\n") crlf
        (text "GET") (text "http://h/") (text "HTTP/1.1") (text "http://h/") 5
        (some (text "hello")) (by decide) rfl (by decide +kernel) (by decide +kernel) hrun
        (by decide +kernel)).mpr hpath
      exact ⟨lru', rfl, hfound.2 silent blank zeroed _ crlf (by decide +kernel)⟩

/-- `http://h` is looked up, `http://h/` is stored, and the same request misses again. -/
theorem fetched_lost : ∃ lru', (doit greeting blank zeroed (Lru.lruInit 10 zeroedMemory)
      (text "GET http://h HTTP/1.1\r\n\r\n")).result = .ok lru' ∧
    .store (text "http://h/") 5 (some (text "hello")) ∈
      (doit greeting blank zeroed (Lru.lruInit 10 zeroedMemory)
        (text "GET http://h HTTP/1.1\r\n\r\n")).events ∧
    .lookup (text "http://h") false ∈
      (doit greeting blank zeroed lru' (text "GET http://h HTTP/1.1\r\n\r\n")).events := by
  have hval : (doit greeting blank zeroed (Lru.lruInit 10 zeroedMemory)
      (text "GET http://h HTTP/1.1\r\n\r\n")).result.map (fun lru => decide
        (.lookup (text "http://h") false ∈
          (doit greeting blank zeroed lru (text "GET http://h HTTP/1.1\r\n\r\n")).events)) =
        .ok true := by decide +kernel
  cases hrun : (doit greeting blank zeroed (Lru.lruInit 10 zeroedMemory)
      (text "GET http://h HTTP/1.1\r\n\r\n")).result with
  | error s =>
      rw [hrun] at hval
      cases hval
  | ok lru' =>
      rw [hrun] at hval
      exact ⟨lru', rfl, by decide +kernel, of_decide_eq_true (Except.ok.inj hval)⟩

end Proxy
