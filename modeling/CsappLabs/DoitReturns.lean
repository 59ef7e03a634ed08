/-
# When a transaction returns

A transaction returns to its worker when none of its calls fails and the rest of `doit` goes
well; `Spared` says when that is.  It lists the ends of `doit`: a client that sends nothing, a
hit, an error page, and a request that was forwarded with its response.

There is no end for a connection that is not made: `Open_clientfd` does not return, so the
page for `"Clientfd Error"` is never sent.
-/
import CsappLabs.RequestReturns
import CsappLabs.UrlCopies

open Effects Effects.Prog CString Relay WhileLoop

namespace Proxy

/-! ## The response -/

/-- The pieces of the response. -/
def Origins.pieces (o : Origins) : List (List UInt8) :=
  readlines o.response.bytes.length o.response.bytes

/-- No piece follows the one with which the object is given up, and its length is not negative
before it is written. -/
def Cacheable (rev : CacheData) (pieces : List (List UInt8)) : Prop :=
  pieces ≠ [] → 0 ≤ rev.len ∧
    (1 < pieces.length → rev.len + pieces.dropLast.flatten.length ≤ MAX_OBJECT_SIZE)

/-- After the object was given up, no piece may come. -/
theorem takes_givenUp {pieces : List (List UInt8)} (hpos : ∀ piece ∈ pieces, 0 < piece.length) :
    (∃ rd n, Takes (responseLoop none pieces) rd n) ↔ pieces = [] := by
  cases pieces with
  | nil => exact iff_of_true ⟨none, 0, Prog.Takes.pure_iff.mpr ⟨rfl, rfl⟩⟩ rfl
  | cons piece pieces =>
      refine iff_of_false ?_ (by simp)
      rintro ⟨rd, n, h⟩
      have hne := (hpos piece List.mem_cons_self).ne'
      rw [responseLoop, if_neg hne, Takes, Prog.Takes.emit_bind_iff] at h
      obtain ⟨m, h, -⟩ := h
      obtain ⟨rd₁, hcache, -⟩ := Prog.Takes.require_bind_iff.mp h
      cases hcache

/-- A piece, and the others. -/
theorem takes_responseLoop_cons {rd : Option CacheData} {piece : List UInt8}
    {pieces : List (List UInt8)} (hpos : 0 < piece.length) :
    (∃ rd' n, Takes (responseLoop rd (piece :: pieces)) rd' n) ↔
      ∃ rd₁, tryCache rd piece = some rd₁ ∧ ∃ rd' n, Takes (responseLoop rd₁ pieces) rd' n := by
  rw [responseLoop, if_neg hpos.ne']
  constructor
  · rintro ⟨rd', n, h⟩
    obtain ⟨m, h, -⟩ := Prog.Takes.emit_bind_iff.mp h
    obtain ⟨rd₁, hcache, h⟩ := Prog.Takes.require_bind_iff.mp h
    exact ⟨rd₁, hcache, rd', m, h⟩
  · rintro ⟨rd₁, hcache, rd', m, h⟩
    exact ⟨rd', _, Prog.Takes.emit_bind_iff.mpr
      ⟨m, Prog.Takes.require_bind_iff.mpr ⟨rd₁, hcache, h⟩, rfl⟩⟩

theorem cacheable_cons {rev : CacheData} {piece : List UInt8} {pieces : List (List UInt8)} :
    Cacheable rev (piece :: pieces) ↔ 0 ≤ rev.len ∧ (pieces ≠ [] →
      rev.len + piece.length + pieces.dropLast.flatten.length ≤ MAX_OBJECT_SIZE) := by
  have hlen : pieces ≠ [] → rev.len + (piece :: pieces).dropLast.flatten.length =
      rev.len + piece.length + pieces.dropLast.flatten.length := by
    intro hne
    rw [List.dropLast_cons_of_ne_nil hne, List.flatten_cons, List.length_append]
    push_cast
    omega
  constructor
  · intro h
    obtain ⟨hnn, hmore⟩ := h (by simp)
    refine ⟨hnn, fun hne => ?_⟩
    rw [← hlen hne]
    exact hmore (by simpa using List.length_pos_of_ne_nil hne)
  · rintro ⟨hnn, hmore⟩ -
    refine ⟨hnn, fun hlt => ?_⟩
    have hne : pieces ≠ [] := by
      rintro rfl
      exact absurd hlt (by simp)
    rw [hlen hne]
    exact hmore hne

/-- **The loop over the pieces.** -/
theorem takes_responseLoop {rev : CacheData} {pieces : List (List UInt8)}
    (hpieces : ∀ piece ∈ pieces, 0 < piece.length ∧ piece.length ≤ MAX_OBJECT_SIZE) :
    (∃ rd n, Takes (responseLoop (some rev) pieces) rd n) ↔ Cacheable rev pieces := by
  induction pieces generalizing rev with
  | nil =>
      refine iff_of_true ⟨some rev, 0, Prog.Takes.pure_iff.mpr ⟨rfl, rfl⟩⟩ ?_
      exact fun h => absurd rfl h
  | cons piece pieces ih =>
      rw [List.forall_mem_cons] at hpieces
      obtain ⟨⟨hpos, hle⟩, hpieces⟩ := hpieces
      rw [takes_responseLoop_cons hpos, cacheable_cons]
      by_cases hbig : rev.len + piece.length > MAX_OBJECT_SIZE
      · -- the object is given up
        have hcache : tryCache (some rev) piece = some none := if_pos hbig
        simp only [hcache, Option.some.injEq, exists_eq_left',
          takes_givenUp fun p hp => (hpieces p hp).1]
        constructor
        · rintro rfl
          exact ⟨by omega, fun h => absurd rfl h⟩
        · rintro ⟨-, hmore⟩
          by_contra hne
          have := hmore hne
          omega
      · by_cases hneg : rev.len < 0
        · have hcache : tryCache (some rev) piece = none := by
            simp only [tryCache, if_neg hbig, if_pos hneg]
          refine iff_of_false ?_ fun h => by omega
          rintro ⟨rd₁, hsome, -⟩
          rw [hcache] at hsome
          cases hsome
        · have hcache : tryCache (some rev) piece = some (some ⟨strncpy rev.buf rev.len.toNat piece
              piece.length, rev.len + piece.length⟩) := by
            simp only [tryCache, if_neg hbig, if_neg hneg]
          simp only [hcache, Option.some.injEq, exists_eq_left', ih hpieces]
          constructor
          · intro h
            refine ⟨by omega, fun hne => ?_⟩
            obtain ⟨-, hmore⟩ := h hne
            by_cases hlt : 1 < pieces.length
            · exact hmore hlt
            · -- only one more piece
              have hnil : pieces.dropLast = [] :=
                List.eq_nil_of_length_eq_zero (by rw [List.length_dropLast]; omega)
              rw [hnil]
              simp only [List.flatten_nil, List.length_nil]
              omega
          · rintro ⟨-, hmore⟩ hne
            exact ⟨by simp only; omega, fun _ => hmore hne⟩

theorem count_responseLoop {rd rd' : Option CacheData} {pieces : List (List UInt8)} {n : ℕ}
    (hpos : ∀ piece ∈ pieces, 0 < piece.length)
    (h : Takes (responseLoop rd pieces) rd' n) : n = pieces.length := by
  induction pieces generalizing rd n with
  | nil => exact (Prog.Takes.pure_iff.mp h).2
  | cons piece pieces ih =>
      rw [List.forall_mem_cons] at hpos
      have hwrite : Event.isWrite (.reply piece) = true :=
        decide_eq_true (List.ne_nil_of_length_pos hpos.1)
      rw [responseLoop, if_neg hpos.1.ne', takes_write hwrite] at h
      obtain ⟨m, h, rfl⟩ := h
      obtain ⟨rd₁, -, h⟩ := Prog.Takes.require_bind_iff.mp h
      rw [ih hpos.2 h, List.length_cons, Nat.add_comm]

/-- A value that is there, and nothing more to write. -/
theorem takes_require {α β : Type} {s : Stop} {v : Option α} {g : α → Run β} {b : β} {n : ℕ}
    {P : α → Prop} (hg : ∀ a, Takes (g a) b n ↔ P a ∧ n = 0) :
    Takes (require s v >>= g) b n ↔ (∃ a, v = some a ∧ P a) ∧ n = 0 := by
  rw [Takes, Prog.Takes.require_bind_iff]
  constructor
  · rintro ⟨a, hv, h⟩
    obtain ⟨hP, hn⟩ := (hg a).mp h
    exact ⟨⟨a, hv, hP⟩, hn⟩
  · rintro ⟨⟨a, hv, hP⟩, hn⟩
    exact ⟨a, hv, (hg a).mpr ⟨hP, hn⟩⟩

theorem takes_storeObject {lru lru' : Cache} {url : List UInt8} {d : CacheData} {n : ℕ} :
    Takes (storeObject lru url d) lru' n ↔ Lru.lruPut lru url d = some lru' ∧ n = 0 := by
  rw [storeObject, takes_require (P := fun lru₁ => lru₁ = lru')]
  · rw [exists_eq_right]
  · intro lru₁
    rw [takes_event rfl]
    cases evicted lru url with
    | some k => exact (takes_event rfl).trans Prog.Takes.pure_iff
    | none => exact Prog.Takes.pure_iff

namespace Faults

variable {o : Origins} {f : Frame} {rev : CacheData} {lru : Cache} {n : ℕ}

/-- A response that ends with an error. -/
theorem not_takes_responseLoop {s : Stream} (hs : s.fails = true) (fuel : ℕ)
    (rd rd' : Option CacheData) (n : ℕ) : ¬ Takes (responseLoop fuel rd s) rd' n := by
  induction fuel generalizing s rd n with
  | zero => exact Prog.Takes.not_stop _ _ _
  | succ fuel ih =>
      intro h
      rw [responseLoop] at h
      by_cases hshort : s.Short
      · rw [RioReadlineb, Stream.rioReadlineb_of_short hshort, require_none, stop_bind] at h
        exact Prog.Takes.not_stop _ _ _ h
      · have hne : s.bytes ≠ [] := fun hempty =>
          hshort ⟨hs, by simp [hempty], by rw [hempty]; decide⟩
        have hpos := (length_rioReadlineb hne).2
        rw [RioReadlineb_eq hshort, Prog.pure_bind] at h
        simp only [if_neg hpos.ne'] at h
        obtain ⟨m, h, -⟩ := Prog.Takes.emit_bind_iff.mp h
        obtain ⟨rd₁, -, h⟩ := Prog.Takes.require_bind_iff.mp h
        exact ih (s := ⟨(Relay.rioReadlineb MAXLINE s.bytes).2, s.fails⟩) hs rd₁ m h

/-- The pieces of the response are pieces. -/
theorem pieces_length (o : Origins) :
    ∀ piece ∈ o.pieces, 0 < piece.length ∧ piece.length ≤ MAX_OBJECT_SIZE := by
  have hdelivers := readlines_delivers (le_refl o.response.bytes.length)
  intro piece hpiece
  have hle := hdelivers.le piece hpiece
  rw [MAXLINE] at hle
  rw [MAX_OBJECT_SIZE]
  exact ⟨hdelivers.pos piece hpiece, by omega⟩

/-- **When the response is received**: it ends with EOF, and the object is not given up too
early. -/
theorem takes_receiveResponse {key : List UInt8} (hurl : stringAt MAXLINE f.url 0 = some key)
    (hput : ∀ d, ∃ lru', Lru.lruPut lru key d = some lru') :
    (∃ lru', Takes (receiveResponse o f rev lru) lru' n) ↔
      o.response.fails = false ∧ Cacheable rev o.pieces ∧ n = o.pieces.length := by
  cases hfails : o.response.fails with
  | true =>
      refine iff_of_false ?_ fun h => Bool.false_ne_true h.1.symm
      rintro ⟨lru', h⟩
      rw [receiveResponse, Takes, Prog.Takes.bind_iff] at h
      obtain ⟨rd, k, m, hloop, -⟩ := h
      exact not_takes_responseLoop hfails _ _ _ _ hloop
  | false =>
      have hloop := responseLoop_eq hfails (Nat.lt_succ_self o.response.bytes.length)
        (le_refl o.response.bytes.length) (some rev)
      have hpos := fun piece hp => (pieces_length o piece hp).1
      rw [← takes_responseLoop (pieces_length o), receiveResponse, hloop]
      simp only [Takes, Prog.Takes.bind_iff, true_and]
      constructor
      · rintro ⟨lru', rd, k, m, hrd, hstore, rfl⟩
        have hk := count_responseLoop hpos hrd
        refine ⟨⟨rd, k, hrd⟩, ?_⟩
        cases rd with
        | none =>
            obtain ⟨-, rfl⟩ := Prog.Takes.pure_iff.mp hstore
            exact hk
        | some d =>
            obtain ⟨url, -, hstore⟩ := Prog.Takes.require_bind_iff.mp hstore
            obtain ⟨-, rfl⟩ := takes_storeObject.mp hstore
            exact hk
      · rintro ⟨⟨rd, k, hrd⟩, rfl⟩
        have hk := count_responseLoop hpos hrd
        cases rd with
        | none => exact ⟨lru, none, k, 0, hrd, Prog.Takes.pure_iff.mpr ⟨rfl, rfl⟩, hk.symm⟩
        | some d =>
            obtain ⟨lru', hlru'⟩ := hput d
            refine ⟨lru', some d, k, 0, hrd, ?_, hk.symm⟩
            exact Prog.Takes.require_bind_iff.mpr ⟨key, hurl, takes_storeObject.mpr ⟨hlru', rfl⟩⟩

end Faults

/-- The URL is still a string when `parseUrl` has accepted it. -/
theorem Faults.Parsed.stringAt_url {f f' : Frame} (h : Faults.Parsed f f') {u : List UInt8}
    (hurl : stringAt MAXLINE f.url 0 = some u) :
    ∃ key, stringAt MAXLINE f'.url 0 = some key := by
  obtain ⟨f₁, rc, rc', hparse, hrc, hversion, -⟩ := h
  rw [parseVersion_url hversion]
  obtain ⟨hsame, hslash⟩ := parseUrl_url hurl hparse hrc
  by_cases hno : NoPath u
  · rw [hslash hno]
    obtain ⟨p, hscheme, hnone⟩ := hno
    cases hhttp : strncasecmp u (text "http://") 7 with
    | false =>
        rw [parseUrl_otherScheme hurl hscheme hhttp, Option.some.injEq, Prod.mk.injEq] at hparse
        exact absurd hparse.2 (by omega)
    | true =>
        have hsome : (parseUrl f).isSome = true := by
          rw [hparse]
          rfl
        obtain ⟨tail, htail, -⟩ := (isSome_noSlash hurl hscheme hhttp hnone).mp hsome
        exact ⟨_, stringAt_overwrite hurl (by decide) htail⟩
  · rw [hsame hno]
    exact ⟨u, hurl⟩

/-! ## Connections -/

/-- A connection that was asked for is made. -/
def Connected (o : Origins) : Event → Prop
  | .connect hostname port => 0 ≤ openClientfd (o.dial hostname port)
  | _ => True

namespace Faults

variable {o : Origins}

theorem connected_headerLoop (fuel : ℕ) (seen : Seen) (buf : List UInt8) (s : Stream) :
    Emits (Connected o) (headerLoop fuel seen buf s) := by
  induction fuel generalizing seen buf s with
  | zero => exact .stop _
  | succ fuel ih =>
      unfold headerLoop readLine
      refine Emits.ite (.pure _) (Emits.bind (.emit trivial) fun _ => ?_)
      exact Emits.bind (Emits.bind (.require _ _) fun _ => .pure _) fun _ => ih _ _ _

theorem connected_sendRequest (f : Frame) (hostname : List UInt8) (s : Stream) :
    Emits (Connected o) (sendRequest f hostname s) := by
  unfold sendRequest forwardHeaders readLine
  refine Emits.bind (.require _ _) fun _ => Emits.bind (.require _ _) fun _ =>
    Emits.bind (.require _ _) fun _ => Emits.bind (emits_sprintf _) fun _ => ?_
  refine Emits.bind (.emit trivial) fun _ => Emits.bind ?_ fun _ =>
    emits_addHeaders (fun _ => trivial) _ _
  exact Emits.bind (Emits.bind (.require _ _) fun _ => .pure _) fun _ =>
    connected_headerLoop _ _ _ _

/-- The page for `"Clientfd Error"` is not reached: `Open_clientfd` ends the process first. -/
theorem connected_connect (hostname port : List UInt8) {x y : Run (Option Frame)}
    (hy : Emits (Connected o) y) :
    Clean (Connected o) (emit (.connect hostname port) >>= fun _ =>
      OpenClientfd (o.dial hostname port) >>= fun clientfd => if clientfd < 0 then x else y) := by
  rw [OpenClientfd_bind]
  split_ifs with hconn
  · exact .of_emits (Emits.bind (.emit hconn) fun _ => hy)
  · intro r hr
    cases hr

theorem connected_forwardRequest (f : Frame) (s : Stream) :
    Clean (Connected o) (forwardRequest o f s) := by
  have hpage : ∀ longmsg, Clean (Connected o)
      (clienterror [] (text "500") [] longmsg >>= fun _ => pure (none : Option Frame)) :=
    fun _ => .of_emits (Emits.bind (emits_clienterror (fun _ => trivial) _ _ _ _) fun _ => .pure _)
  unfold forwardRequest
  refine Clean.bind (.require _ _) fun _ => Clean.ite (hpage _) ?_
  refine Clean.bind (.require _ _) fun _ => Clean.ite (hpage _) ?_
  refine Clean.bind (.require _ _) fun _ => Clean.bind (.require _ _) fun _ => ?_
  exact connected_connect _ _ (Emits.bind (connected_sendRequest _ _ _) fun _ => .pure _)

theorem connected_responseLoop (fuel : ℕ) (rd : Option CacheData) (s : Stream) :
    Emits (Connected o) (responseLoop fuel rd s) := by
  induction fuel generalizing rd s with
  | zero => exact .stop _
  | succ fuel ih =>
      unfold responseLoop
      refine Emits.bind (.require _ _) fun _ => Emits.ite (.pure _) ?_
      exact Emits.bind (.emit trivial) fun _ => Emits.bind (.require _ _) fun _ => ih _ _

theorem connected_receiveResponse (f : Frame) (rev : CacheData) (lru : Cache) :
    Emits (Connected o) (receiveResponse o f rev lru) := by
  unfold receiveResponse storeObject
  refine Emits.bind (connected_responseLoop _ _ _) fun rd => ?_
  cases rd with
  | none => exact .pure _
  | some d =>
      refine Emits.bind (.require _ _) fun url => Emits.bind (.require _ _) fun _ =>
        Emits.bind (.emit trivial) fun _ => ?_
      cases evicted lru url with
      | none => exact .pure _
      | some k => exact Emits.bind (.emit trivial) fun _ => .pure _

/-- **A transaction that returns** has made every connection that it asked for. -/
theorem connected_doit (f : Frame) (rev : CacheData) (lru : Cache) (s : Stream) :
    Clean (Connected o) (doit o f rev lru s) := by
  have hemit : ∀ {e : Event}, Connected o e → Clean (Connected o) (emit e : Run Unit) :=
    fun he => .of_emits (.emit he)
  unfold doit
  refine Clean.bind (.require _ _) fun r => Clean.ite (.pure _) ?_
  refine Clean.bind (.require _ _) fun url => Clean.bind (.require _ _) fun found =>
    Clean.bind (hemit trivial) fun _ => ?_
  cases found.2 with
  | some d => exact Clean.bind (.require _ _) fun _ => Clean.bind (hemit trivial) fun _ => .pure _
  | none =>
      refine Clean.ite (Clean.bind (connected_forwardRequest _ _) fun g => ?_) ?_
      · cases g with
        | none => exact .pure _
        | some g => exact .of_emits (connected_receiveResponse g rev _)
      · exact .of_emits
          (Emits.bind (emits_clienterror (fun _ => trivial) _ _ _ _) fun _ => .pure _)

end Faults

/-! ## The transaction -/

/-- The request line was read, and the URL in its array is `url`. -/
structure RequestLine (f : Frame) (client : Stream) (line rest url : List UInt8) : Prop where
  complete : ¬ client.Short
  read : Relay.rioReadlineb MAXLINE client.bytes = (line, rest)
  ne : line ≠ []
  url : stringAt MAXLINE (scanRequest f line).url 0 = some url

/-- The request is answered with an error page. -/
def AnswersPage (f : Frame) : Prop :=
  strcasecmp f.method 0 (text "GET") = false ∨
    strcasecmp f.method 0 (text "GET") = true ∧ Faults.BadRequest f

/-- The response comes whole: it ends with EOF, and no piece follows the one with which the
object is given up. -/
structure Received (o : Origins) (rev : CacheData) : Prop where
  eof : o.response.fails = false
  object : Cacheable rev o.pieces

/-- **When `doit` returns**: every read succeeds that it makes, every write, and the
connection, and a client that asks for something gets the hit, the error page or the response.
The cache holds `es`. -/
inductive Spared (writes : ℕ → Bool) (o : Origins) (f : Frame) (rev : CacheData)
    (es : List (List UInt8 × CacheData)) (client : Stream) : Prop
  | eof : client.bytes = [] → client.fails = false → Spared writes o f rev es client
  | hit {line rest url s : List UInt8} {d : CacheData} : RequestLine f client line rest url →
      Lru.valueOf url es = some d → hit d = some s → (s ≠ [] → writes 0 = true) →
      Spared writes o f rev es client
  | page {line rest url : List UInt8} : RequestLine f client line rest url →
      Lru.valueOf url es = none → AnswersPage (scanRequest f line) → (∀ i < 7, writes i = true) →
      Spared writes o f rev es client
  | forwarded {line rest url : List UInt8} {f' : Frame} {req : Faults.Request} :
      RequestLine f client line rest url → Lru.valueOf url es = none →
      strcasecmp (scanRequest f line).method 0 (text "GET") = true →
      Faults.Forwarded o (scanRequest f line) f' req rest → Received o rev →
      (∀ i < Faults.requestWrites rest + o.pieces.length, writes i = true) →
      Spared writes o f rev es client

/-- The transaction returns to its worker, and a connection that is not made is answered with
the page for `"Clientfd Error"`. -/
structure Survives (o : Origins) (x : Run Cache) : Prop where
  returns : ∃ lru', x.result = .ok lru'
  answered : ∀ hostname port, .connect hostname port ∈ x.events →
    openClientfd (o.dial hostname port) < 0 →
    (clienterror [] (text "500") [] (text "Clientfd Error")).events ⊆ x.events

section

variable {o : Origins} {f : Frame} {rev : CacheData} {lru : Cache}
  {es : List (List UInt8 × CacheData)} {n : ℕ}

/-- A request that is not answered from the cache. -/
theorem takes_fetch {s : Stream} {url : List UInt8} (hurl : stringAt MAXLINE f.url 0 = some url)
    (hput : ∀ key d, ∃ lru', Lru.lruPut lru key d = some lru') :
    (∃ lru', Takes (Faults.fetch o f rev lru s) lru' n) ↔ (AnswersPage f ∧ n = 7) ∨
      (strcasecmp f.method 0 (text "GET") = true ∧ ∃ f' req, Faults.Forwarded o f f' req s.bytes ∧
        Received o rev ∧ n = Faults.requestWrites s.bytes + o.pieces.length) := by
  rw [Faults.fetch, AnswersPage]
  cases hget : strcasecmp f.method 0 (text "GET") with
  | false =>
      simp only [Bool.false_eq_true, if_false, Faults.takes_page, true_and, false_and, or_false]
      exact exists_eq_left'
  | true =>
      simp only [if_true, Bool.true_eq_false, false_or, true_and, Takes, Prog.Takes.bind_iff]
      constructor
      · rintro ⟨lru', r, k, m, hforward, hafter, rfl⟩
        rcases Faults.takes_forwardRequest.mp hforward with ⟨hbad, rfl, rfl⟩ |
          ⟨f', req, hfwd, rfl, rfl⟩
        · obtain ⟨-, rfl⟩ := Prog.Takes.pure_iff.mp hafter
          exact Or.inl ⟨hbad, rfl⟩
        · obtain ⟨key, hkey⟩ := hfwd.parsed.stringAt_url hurl
          obtain ⟨heof, hobject, rfl⟩ :=
            (Faults.takes_receiveResponse hkey (hput key)).mp ⟨lru', hafter⟩
          exact Or.inr ⟨f', req, hfwd, ⟨heof, hobject⟩, rfl⟩
      · rintro (⟨hbad, rfl⟩ | ⟨f', req, hfwd, hreceived, rfl⟩)
        · exact ⟨lru, none, 7, 0, Faults.takes_forwardRequest.mpr (Or.inl ⟨hbad, rfl, rfl⟩),
            Prog.Takes.pure_iff.mpr ⟨rfl, rfl⟩, rfl⟩
        · obtain ⟨key, hkey⟩ := hfwd.parsed.stringAt_url hurl
          obtain ⟨lru', hafter⟩ := (Faults.takes_receiveResponse (n := o.pieces.length) hkey
            (hput key)).mpr ⟨hreceived.eof, hreceived.object, rfl⟩
          exact ⟨lru', some f', _, _,
            Faults.takes_forwardRequest.mpr (Or.inr ⟨f', req, hfwd, rfl, rfl⟩), hafter, rfl⟩

/-- `lru_put` returns on the cache that its calls have left. -/
theorem exists_lruPut (hold : Lru.Holds lru es) (hne : lru.capacity = lru.size → es ≠ [])
    (key : List UInt8) (d : CacheData) : ∃ lru', Lru.lruPut lru key d = some lru' := by
  obtain ⟨lru', hput, -⟩ := Lru.lruPut_spec hold key d hne
  exact ⟨lru', hput⟩

/-- Nothing is sent. -/
theorem takes_doit_eof {client : Stream} (hempty : client.bytes = []) :
    (∃ lru', Takes (Faults.doit o f rev lru client) lru' n) ↔ client.fails = false ∧ n = 0 := by
  cases hfails : client.fails with
  | true =>
      have hshort : client.Short := ⟨hfails, by simp [hempty], by rw [hempty]; decide⟩
      refine iff_of_false ?_ fun h => Bool.false_ne_true h.1.symm
      rintro ⟨lru', h⟩
      rw [Faults.doit, Faults.RioReadlineb, Stream.rioReadlineb_of_short hshort, require_none,
        stop_bind] at h
      exact Prog.Takes.not_stop _ _ _ h
  | false =>
      have hread : Relay.rioReadlineb MAXLINE client.bytes = ([], []) := by
        rw [hempty]
        rfl
      rw [Faults.doit, Faults.RioReadlineb_eq (Stream.not_short hfails), Prog.pure_bind, hread]
      simp only [List.length_nil, if_true, true_and]
      constructor
      · rintro ⟨lru', h⟩
        exact (Prog.Takes.pure_iff.mp h).2
      · rintro rfl
        exact ⟨lru, Prog.Takes.pure_iff.mpr ⟨rfl, rfl⟩⟩

/-- Otherwise the request line is read, if anything is returned. -/
theorem exists_requestLine {client : Stream} (hne : client.bytes ≠ []) {lru' : Cache}
    (h : Takes (Faults.doit o f rev lru client) lru' n) :
    ∃ line rest url, RequestLine f client line rest url := by
  rw [Faults.doit] at h
  by_cases hshort : client.Short
  · rw [Faults.RioReadlineb, Stream.rioReadlineb_of_short hshort, require_none, stop_bind] at h
    exact absurd h (Prog.Takes.not_stop _ _ _)
  · have hpos := (length_rioReadlineb hne).2
    rw [Faults.RioReadlineb_eq hshort, Prog.pure_bind] at h
    simp only [if_neg hpos.ne'] at h
    obtain ⟨url, hurl, -⟩ := Prog.Takes.require_bind_iff.mp h
    exact ⟨_, _, url, hshort, rfl, List.ne_nil_of_length_pos hpos, hurl⟩

/-- The answer to a request line: a hit, or what the origin server sends. -/
theorem takes_doit {client : Stream} {line rest url : List UInt8}
    (hline : RequestLine f client line rest url) (hold : Lru.Holds lru es)
    (hne : lru.capacity = lru.size → es ≠ []) :
    (∃ lru', Takes (Faults.doit o f rev lru client) lru' n) ↔
      (∃ d s, Lru.valueOf url es = some d ∧ hit d = some s ∧ n = if s ≠ [] then 1 else 0) ∨
      (Lru.valueOf url es = none ∧ ((AnswersPage (scanRequest f line) ∧ n = 7) ∨
        (strcasecmp (scanRequest f line).method 0 (text "GET") = true ∧
          ∃ f' req, Faults.Forwarded o (scanRequest f line) f' req rest ∧ Received o rev ∧
            n = Faults.requestWrites rest + o.pieces.length))) := by
  obtain ⟨lru₁, hget, hold₁, hsize, hcap⟩ := Lru.lruGet_spec hold url
  rw [Faults.doit, Faults.RioReadlineb_eq hline.complete, Prog.pure_bind, hline.read]
  simp only [if_neg (List.length_pos_of_ne_nil hline.ne).ne', readString, hline.url, hget,
    require_some, Prog.pure_bind, takes_event (e := .lookup _ _) rfl]
  cases hval : Lru.valueOf url es with
  | some d =>
      simp only [Takes, Prog.Takes.require_bind_iff, Prog.Takes.emit_bind_iff,
        Prog.Takes.pure_iff, Option.some.injEq, reduceCtorEq, false_and, or_false]
      constructor
      · rintro ⟨lru', s, hhit, m, ⟨-, rfl⟩, rfl⟩
        exact ⟨d, s, rfl, hhit, by simp [Event.isWrite]⟩
      · rintro ⟨d', s, rfl, hhit, rfl⟩
        exact ⟨lru₁, s, hhit, 0, ⟨rfl, rfl⟩, by simp [Event.isWrite]⟩
  | none =>
      rw [hval] at hget
      have hentries : Lru.getEntries url es = es := by
        rw [Lru.getEntries, hval]
      rw [hentries] at hold₁
      have hne₁ : lru₁.capacity = lru₁.size → es ≠ [] := by
        rw [hsize, hcap]
        exact hne
      have hfetch := @takes_fetch o _ rev lru₁ n ⟨rest, client.fails⟩ url hline.url
        (exists_lruPut hold₁ hne₁)
      simpa using hfetch

/-- **When a transaction returns.** -/
theorem returns_iff (writes : ℕ → Bool) (client : Stream) (hold : Lru.Holds lru es)
    (hne : lru.capacity = lru.size → es ≠ []) :
    (∃ lru', (transaction writes o f rev lru client).result = .ok lru') ↔
      Spared writes o f rev es client := by
  have hcut : (∃ lru', (transaction writes o f rev lru client).result = .ok lru') ↔
      ∃ n, (∃ lru', Takes (Faults.doit o f rev lru client) lru' n) ∧ ∀ i < n, writes i = true := by
    simp only [transaction, cut_ok_iff]
    constructor
    · rintro ⟨lru', n, h, hwrites⟩
      exact ⟨n, ⟨lru', h⟩, hwrites⟩
    · rintro ⟨n, ⟨lru', h⟩, hwrites⟩
      exact ⟨lru', n, h, hwrites⟩
  rw [hcut]
  constructor
  · rintro ⟨n, h, hwrites⟩
    by_cases hempty : client.bytes = []
    · exact .eof hempty ((takes_doit_eof hempty).mp h).1
    · obtain ⟨line, rest, url, hline⟩ := exists_requestLine hempty h.choose_spec
      rcases (takes_doit hline hold hne).mp h with ⟨d, s, hval, hhit, rfl⟩ |
        ⟨hval, ⟨hpage, rfl⟩ | ⟨hget, f', req, hfwd, hreceived, rfl⟩⟩
      · refine .hit hline hval hhit fun hs => hwrites 0 ?_
        rw [if_pos hs]
        exact Nat.one_pos
      · exact .page hline hval hpage hwrites
      · exact .forwarded hline hval hget hfwd hreceived hwrites
  · intro h
    cases h with
    | eof hempty hfails =>
        exact ⟨0, (takes_doit_eof hempty).mpr ⟨hfails, rfl⟩, fun i hi =>
          absurd hi (Nat.not_lt_zero i)⟩
    | @hit line rest url s d hline hval hhit hwrite =>
        refine ⟨_, (takes_doit hline hold hne).mpr (Or.inl ⟨d, s, hval, hhit, rfl⟩), ?_⟩
        intro i hi
        split_ifs at hi with hs
        · rw [Nat.lt_one_iff.mp hi]
          exact hwrite hs
        · exact absurd hi (Nat.not_lt_zero i)
    | page hline hval hpage hwrites =>
        exact ⟨7, (takes_doit hline hold hne).mpr (Or.inr ⟨hval, Or.inl ⟨hpage, rfl⟩⟩), hwrites⟩
    | @forwarded line rest url f' req hline hval hget hfwd hreceived hwrites =>
        exact ⟨_, (takes_doit hline hold hne).mpr
          (Or.inr ⟨hval, Or.inr ⟨hget, f', req, hfwd, hreceived, rfl⟩⟩), hwrites⟩

/-- **When the proxy goes on.**  The cache holds `es`, and is not full and empty at once. -/
theorem survives_iff (writes : ℕ → Bool) (client : Stream) (hold : Lru.Holds lru es)
    (hne : lru.capacity = lru.size → es ≠ []) :
    Survives o (transaction writes o f rev lru client) ↔ Spared writes o f rev es client := by
  rw [← returns_iff writes client hold hne]
  refine ⟨fun h => h.returns, fun ⟨lru', hreturns⟩ => ⟨⟨lru', hreturns⟩, ?_⟩⟩
  intro hostname port hmem hrefused
  obtain ⟨n, htakes, -⟩ := cut_ok_iff.mp hreturns
  have hconn := Faults.connected_doit f rev lru client lru' htakes.result _ (cut_events hmem)
  exact absurd hconn (Int.not_le.mpr hrefused)

end

/-- No address is found for any host. -/
def unknownHost : Origins := ⟨fun _ _ => none, ⟨[], false⟩⟩

/-- The host `h` is found, and says hello. -/
def helloOrigins : Origins :=
  ⟨fun hostname _ => if hostname = text "h" then some [⟨5, true, true⟩] else none,
    ⟨text "hello", false⟩⟩

/-- The request for `h` is forwarded. -/
theorem forwarded_hello : ∃ f' req, Faults.Forwarded helloOrigins
    (scanRequest blank (text "GET http://h/ HTTP/1.1\r\n")) f' req (text "Host: h\r\n\r\n") := by
  have hval : ((parseUrl (scanRequest blank (text "GET http://h/ HTTP/1.1\r\n"))).bind fun r =>
      (parseVersion r.1).map fun r' => ([r.2, r'.2], [r'.1.method, r'.1.uri, r'.1.version,
        r'.1.hostname, r'.1.port].map fun b => stringAt MAXLINE b 0)) =
      some ([0, 0], [some (text "GET"), some (text "/"), some (text "HTTP/1.0"), some (text "h"),
        some []]) := by
    decide +kernel
  obtain ⟨⟨f₁, rc⟩, hurl, hval⟩ := Option.bind_eq_some_iff.mp hval
  obtain ⟨⟨f', rc'⟩, hversion, hval⟩ := Option.map_eq_some_iff.mp hval
  simp only [Prod.mk.injEq, List.map_cons, List.map_nil, List.cons.injEq, and_true] at hval
  obtain ⟨⟨rfl, rfl⟩, hmethod, huri, hver, hhost, hport⟩ := hval
  refine ⟨f', ⟨text "GET", text "/", text "HTTP/1.0", text "h", []⟩,
    ⟨f₁, 0, 0, hurl, by decide, hversion, by decide⟩, ⟨hmethod, huri, hver, hhost, hport⟩,
    by decide +kernel, by decide +kernel, ?_, Or.inl (by decide +kernel)⟩
  exact ⟨text "Host: h\r\n", [], [], by decide +kernel,
    Or.inr ⟨text "Host: h\r", by decide +kernel⟩, List.not_mem_nil, dvd_zero _⟩

/-- The client gets what the host sends, and the proxy goes on. -/
theorem survives_hello :
    .reply (text "hello") ∈ (transaction (fun _ => true) helloOrigins blank zeroed
      (Lru.lruInit 10 zeroedMemory)
      ⟨text "GET http://h/ HTTP/1.1\r\nHost: h\r\n\r\n", false⟩).events ∧
    Survives helloOrigins (transaction (fun _ => true) helloOrigins blank zeroed
      (Lru.lruInit 10 zeroedMemory)
      ⟨text "GET http://h/ HTTP/1.1\r\nHost: h\r\n\r\n", false⟩) := by
  obtain ⟨f', req, hforwarded⟩ := forwarded_hello
  have hmiss : Lru.valueOf (text "http://h/") ([] : List (List UInt8 × CacheData)) = none := rfl
  refine ⟨by decide +kernel, (survives_iff _ _ (Lru.holds_lruInit 10 zeroedMemory (by decide))
    (by decide)).mpr (.forwarded ⟨Stream.not_short rfl, ?_, ?_, ?_⟩ hmiss ?_ hforwarded ⟨rfl, ?_⟩
      fun _ _ => rfl)⟩
  · decide +kernel
  · decide +kernel
  · decide +kernel
  · decide +kernel
  · exact fun _ => by decide +kernel

/-- The host of the request is not found. -/
theorem not_survives_unknownHost :
    ¬ Survives unknownHost (transaction (fun _ => true) unknownHost blank zeroed
      (Lru.lruInit 10 zeroedMemory) ⟨text "GET http://h/ HTTP/1.1\r\n\r\n", false⟩) := by
  rintro ⟨⟨lru', hreturns⟩, -⟩
  have hexit : (transaction (fun _ => true) unknownHost blank zeroed (Lru.lruInit 10 zeroedMemory)
      ⟨text "GET http://h/ HTTP/1.1\r\n\r\n", false⟩).result.map (fun _ => ()) =
        .error .exit := by
    decide +kernel
  rw [hreturns] at hexit
  cases hexit

end Proxy
