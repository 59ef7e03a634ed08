/-
# Rendering a URL and parsing it

A URL `http://host[:port][path]` in its four shapes, and what `parseUrl` makes of it on
arrays that were all zero.  Every shape is split at the end of its authority, where the path
or the appended slash starts (`parseUrl_render`).

The port of a URL that has one comes out; `"80"` never does, because `port = "80"` changes
the parameter and not the array of the caller.  The slash that is appended to a URL without
a path needs a cell of the array.
-/
import CsappLabs.ParseUrl

open CString Relay

namespace Proxy

/-- The parts of a URL. -/
structure Url where
  scheme : List UInt8
  host : List UInt8
  port : Option (List UInt8)
  path : Option (List UInt8)

namespace Url

/-- The port with its colon, if there is one. -/
def portPart (u : Url) : List UInt8 :=
  match u.port with
  | none => []
  | some digits => colon :: digits

/-- The host and the port. -/
def authority (u : Url) : List UInt8 := u.host ++ u.portPart

/-- `http://host[:port][path]`. -/
def render (u : Url) : List UInt8 := u.scheme ++ text "://" ++ u.authority ++ u.path.getD []

/-- The parts are those of a URL that fits into its array. -/
structure Valid (u : Url) : Prop where
  scheme : u.scheme.map tolower = text "http"
  host_ne : u.host ≠ []
  host : colon ∉ u.host ∧ slash ∉ u.host ∧ (0 : UInt8) ∉ u.host
  port : ∀ digits, u.port = some digits → ∀ c ∈ digits, isdigit c = true
  path : ∀ path, u.path = some path → path.head? = some slash ∧ (0 : UInt8) ∉ path
  fits : u.render.length < MAXLINE

/-- What follows the scheme, with the slash that `parseUrl` appends when there is no path. -/
def rest (u : Url) : List UInt8 := u.authority ++ u.path.getD [slash]

theorem render_eq (u : Url) : u.render = u.scheme ++ text "://" ++ (u.authority ++ u.path.getD []) := by
  rw [render, List.append_assoc]

end Url

/-- The arrays of a call of `parseUrl` on the string `s`, all zero before. -/
def called (s : List UInt8) : Frame := { blank with url := strcpy blank.url s }

/-- `parseUrl` gives back the host, the port or `"80"`, and the path or `"/"`. -/
def Undoes (u : Url) : Prop :=
  ∃ f, parseUrl (called u.render) = some (f, 0) ∧
    stringAt MAXLINE f.hostname 0 = some u.host ∧
    stringAt MAXLINE f.port 0 = some (u.port.getD (text "80")) ∧
    stringAt MAXLINE f.uri 0 = some (u.path.getD (text "/"))

/-! ## The characters of the parts -/

theorem text_scheme : text "://" = colon :: [slash, slash] := by
  simp [text, colon, slash]

/-- No digit is a slash, a colon or a NUL. -/
theorem isdigit_ne {c : UInt8} (h : isdigit c = true) : c ≠ slash ∧ c ≠ colon ∧ c ≠ 0 := by
  refine ⟨?_, ?_, ?_⟩ <;> rintro rfl <;> revert h <;> decide

namespace Url.Valid

variable {u : Url}

/-- A character of the scheme is a letter. -/
theorem mem_scheme (h : u.Valid) {c : UInt8} (hc : c ∈ u.scheme) : tolower c ∈ text "http" := by
  rw [← h.scheme]
  exact List.mem_map_of_mem hc

theorem length_scheme (h : u.Valid) : u.scheme.length = 4 := by
  have hlen := congrArg List.length h.scheme
  simpa [text] using hlen

theorem colon_notMem_scheme (h : u.Valid) : colon ∉ u.scheme := by
  intro hc
  have hmem := h.mem_scheme hc
  revert hmem
  simp [text, tolower, colon]

theorem nul_notMem_scheme (h : u.Valid) : (0 : UInt8) ∉ u.scheme := by
  intro hc
  have hmem := h.mem_scheme hc
  revert hmem
  simp [text, tolower]

/-- A character of the port. -/
theorem mem_portPart (h : u.Valid) {c : UInt8} (hc : c ∈ u.portPart) :
    c = colon ∨ isdigit c = true := by
  rw [Url.portPart] at hc
  cases hport : u.port with
  | none => simp [hport] at hc
  | some digits =>
      simp only [hport, List.mem_cons] at hc
      exact hc.imp_right (h.port digits hport c)

theorem slash_notMem_authority (h : u.Valid) : slash ∉ u.authority := by
  rw [Url.authority, List.mem_append, not_or]
  refine ⟨h.host.2.1, fun hc => ?_⟩
  rcases h.mem_portPart hc with heq | hdigit
  · exact absurd heq (by decide)
  · exact (isdigit_ne hdigit).1 rfl

theorem nul_notMem_authority (h : u.Valid) : (0 : UInt8) ∉ u.authority := by
  rw [Url.authority, List.mem_append, not_or]
  refine ⟨h.host.2.2, fun hc => ?_⟩
  rcases h.mem_portPart hc with heq | hdigit
  · exact absurd heq (by decide)
  · exact (isdigit_ne hdigit).2.2 rfl

theorem nul_notMem_rest (h : u.Valid) : (0 : UInt8) ∉ u.rest := by
  rw [Url.rest, List.mem_append, not_or]
  refine ⟨h.nul_notMem_authority, ?_⟩
  cases hpath : u.path with
  | none => decide
  | some path => exact (h.path path hpath).2

theorem nul_notMem_render (h : u.Valid) : (0 : UInt8) ∉ u.render := by
  rw [Url.render_eq, List.mem_append, List.mem_append, List.mem_append, not_or, not_or, not_or]
  refine ⟨⟨h.nul_notMem_scheme, by rw [text_scheme]; decide⟩, h.nul_notMem_authority, ?_⟩
  cases hpath : u.path with
  | none => exact List.not_mem_nil
  | some path => exact (h.path path hpath).2

/-- The path, or the appended slash, starts behind the authority. -/
theorem rest_eq (h : u.Valid) : ∃ more, u.rest = u.authority ++ slash :: more := by
  cases hpath : u.path with
  | none => exact ⟨[], by rw [Url.rest, hpath]; rfl⟩
  | some path =>
      obtain ⟨more, hmore⟩ := List.head?_eq_some_iff.mp (h.path path hpath).1
      exact ⟨more, by rw [Url.rest, hpath, ← hmore]; rfl⟩

/-- The scheme is found. -/
theorem strstr_render (h : u.Valid) : strstr u.render (text "://") = some 4 := by
  rw [Url.render_eq, List.append_assoc, text_scheme, strstr_append h.colon_notMem_scheme,
    strstr_prefix, h.length_scheme]
  rfl

theorem strncasecmp_render (h : u.Valid) : strncasecmp u.render (text "http://") 7 = true := by
  have hlen : (u.scheme ++ text "://").length = 7 := by
    rw [List.length_append, h.length_scheme]
    simp [text]
  rw [strncasecmp, decide_eq_true_eq, Url.render_eq, List.take_left' hlen, List.map_append,
    h.scheme]
  simp [text, tolower]

theorem drop_render (h : u.Valid) : u.render.drop 7 = u.authority ++ u.path.getD [] := by
  have hlen : (u.scheme ++ text "://").length = 7 := by
    rw [List.length_append, h.length_scheme]
    simp [text]
  rw [Url.render_eq, List.drop_left' hlen]

theorem length_render (h : u.Valid) :
    u.render.length = 7 + u.authority.length + (u.path.getD []).length := by
  have hdrop := congrArg List.length h.drop_render
  have hlen : 7 ≤ u.render.length := by
    rw [Url.render_eq, List.length_append, List.length_append, h.length_scheme]
    simp only [text_scheme, List.length_cons, List.length_nil]
    omega
  rw [List.length_drop, List.length_append] at hdrop
  omega

theorem stringAt_called (h : u.Valid) : stringAt MAXLINE (called u.render).url 0 = some u.render :=
  stringAt_strcpy _ h.nul_notMem_render h.fits

end Url.Valid

/-! ## Parsing -/

/-- **Every shape is split at the end of its authority**, if there is room for the slash. -/
theorem parseUrl_render {u : Url} (h : u.Valid)
    (hroom : u.path.isSome = true ∨ u.render.length + 1 < MAXLINE) :
    ∃ b, parseUrl (called u.render) =
      ({ called u.render with url := b } : Frame).split u.rest u.authority.length := by
  have hurl := h.stringAt_called
  cases hpath : u.path with
  | some path =>
      refine ⟨(called u.render).url, ?_⟩
      have hrest : u.render.drop 7 = u.rest := by
        rw [h.drop_render, Url.rest, hpath]
        rfl
      obtain ⟨more, hmore⟩ := h.rest_eq
      have hslash : strchr (u.render.drop (4 + 3)) slash = some u.authority.length := by
        rw [hrest, hmore]
        exact strchr_append h.slash_notMem_authority more
      have hlen := h.length_render
      rw [parseUrl_slash hurl h.strstr_render h.strncasecmp_render hslash,
        splitUrl_eq hurl (by omega), hrest]
  | none =>
      have hlen := h.length_render
      simp only [hpath, Option.getD_none, List.length_nil, add_zero] at hlen
      have hdrop : u.render.drop 7 = u.authority := by
        rw [h.drop_render, hpath, Option.getD_none, List.append_nil]
      have hslash : strchr (u.render.drop (4 + 3)) slash = none := by
        rw [hdrop]
        exact strchr_eq_none.mpr h.slash_notMem_authority
      have hroom : u.render.length + 1 < MAXLINE := by
        rcases hroom with hsome | hroom
        · rw [hpath] at hsome
          exact absurd hsome Bool.false_ne_true
        · exact hroom
      refine ⟨Function.update (called u.render).url u.render.length slash, ?_⟩
      -- the cell behind the NUL is another one
      have hnext : (called u.render).url (u.render.length + 1) = 0 :=
        strcpy_after _ (Nat.lt_succ_self _)
      have hextend := stringAt_extend hurl (by decide : slash ≠ 0) hroom hnext
      have hrest : (u.render ++ [slash]).drop 7 = u.rest := by
        rw [List.drop_append_of_le_length (by omega), hdrop, Url.rest, hpath]
        rfl
      rw [parseUrl_noSlash hurl h.strstr_render h.strncasecmp_render hslash, hlen]
      rw [hlen] at hextend
      show splitUrl _ 7 (7 + u.authority.length) = _
      rw [splitUrl_eq hextend (by rw [List.length_append]; omega), hrest]

/-- Without room for the slash the path has no end. -/
theorem parseUrl_noRoom {u : Url} (h : u.Valid) (hpath : u.path = none)
    (hroom : ¬ u.render.length + 1 < MAXLINE) : parseUrl (called u.render) = none := by
  have hslash : strchr (u.render.drop (4 + 3)) slash = none := by
    show strchr (u.render.drop 7) slash = none
    rw [h.drop_render, hpath, Option.getD_none, List.append_nil]
    exact strchr_eq_none.mpr h.slash_notMem_authority
  rw [parseUrl_noSlash h.stringAt_called h.strstr_render h.strncasecmp_render hslash]
  refine splitUrl_none _ (stringAt_eq_none fun j hj hjN => ?_)
  have hfits := h.fits
  obtain rfl : j = u.render.length := by omega
  show Function.update (called u.render).url u.render.length slash _ ≠ 0
  rw [Function.update_self]
  decide

/-- **Without a port in the URL** the array of the port stays as it was. -/
theorem split_port {f f' : Frame} {rest : List UInt8} {i : ℕ} {rc : ℤ}
    (h : f.split rest i = some (f', rc)) (hcolon : colon ∉ rest.take i) : f'.port = f.port := by
  rw [Frame.split] at h
  cases hj : strchr rest colon with
  | none =>
      simp only [hj, Option.some.injEq, Prod.mk.injEq] at h
      rw [← h.1]
      rfl
  | some j =>
      have hnot : ¬ j < i := by
        intro hlt
        obtain ⟨l, r, rfl, -, rfl⟩ := strchr_eq_some.mp hj
        refine hcolon (List.mem_take_iff_getElem.mpr ⟨l.length, ?_, ?_⟩)
        · simp [hlt]
        · simp
      simp only [hj, if_neg hnot] at h
      exact absurd h (by simp)

/-- With a port, everything comes out. -/
theorem undoes_port {u : Url} (h : u.Valid) {digits : List UInt8} (hport : u.port = some digits)
    (hroom : u.path.isSome = true ∨ u.render.length + 1 < MAXLINE) : Undoes u := by
  obtain ⟨b, hparse⟩ := parseUrl_render h hroom
  have hauth : u.authority = u.host ++ colon :: digits := by
    rw [Url.authority, Url.portPart, hport]
  have hrest : u.rest = u.host ++ colon :: (digits ++ u.path.getD [slash]) := by
    rw [Url.rest, hauth, List.append_assoc, List.cons_append]
  have hcolon : strchr u.rest colon = some u.host.length := by
    rw [hrest]
    exact strchr_append h.host.1 _
  have hlt : u.host.length < u.authority.length := by
    rw [hauth, List.length_append, List.length_cons]
    omega
  have hnul := h.nul_notMem_rest
  have hlen : u.rest.length < MAXLINE := by
    have hfits := h.fits
    have hrender := h.length_render
    rw [Url.rest, List.length_append]
    cases hpath : u.path <;>
      simp only [hpath, Option.getD_none, Option.getD_some, List.length_nil,
        List.length_singleton] at hrender ⊢ <;> omega
  have hdrop : u.rest.drop (u.host.length + 1) = digits ++ u.path.getD [slash] := by
    rw [hrest, List.append_cons, List.drop_left' (by simp)]
  have hdigits : u.authority.length - (u.host.length + 1) = digits.length := by
    rw [hauth, List.length_append, List.length_cons]
    omega
  have hpath : u.rest.drop u.authority.length = u.path.getD (text "/") := by
    rw [Url.rest, List.drop_left]
    rfl
  refine ⟨_, by rw [hparse, Frame.split, hcolon]; exact if_pos hlt, ?_, ?_, ?_⟩
  · -- the host
    have hhost := stringAt_strncpy_zero hnul (n := u.host.length)
      (by rw [hrest, List.length_append]; omega) hlen
    rw [hrest, List.take_left] at hhost
    rw [← hrest] at hhost
    exact hhost
  · -- the port
    have hnul' : (0 : UInt8) ∉ u.rest.drop (u.host.length + 1) := fun hmem =>
      hnul (List.mem_of_mem_drop hmem)
    have hcopy := stringAt_strncpy_zero hnul' (n := digits.length)
      (by rw [hdrop, List.length_append]; omega) (by rw [List.length_drop]; omega)
    rw [hdrop, List.take_left, ← hdrop] at hcopy
    rw [hport, Option.getD_some]
    show stringAt MAXLINE (strncpy _ 0 (u.rest.drop (u.host.length + 1))
      (u.authority.length - (u.host.length + 1))) 0 = _
    rw [hdigits]
    exact hcopy
  · -- the path
    rw [← hpath]
    exact stringAt_strcpy _ (fun hmem => hnul (List.mem_of_mem_drop hmem))
      (by rw [List.length_drop]; omega)

/-- Without a port nothing is written for it. -/
theorem not_undoes_noPort {u : Url} (h : u.Valid) (hport : u.port = none) : ¬ Undoes u := by
  rintro ⟨f, hparse, -, hstring, -⟩
  by_cases hroom : u.path.isSome = true ∨ u.render.length + 1 < MAXLINE
  · obtain ⟨b, hsplit⟩ := parseUrl_render h hroom
    rw [hsplit] at hparse
    have hcolon : colon ∉ u.rest.take u.authority.length := by
      rw [Url.rest, List.take_left, Url.authority, Url.portPart, hport, List.append_nil]
      exact h.host.1
    rw [split_port hparse hcolon, hport] at hstring
    have hzero : (0 : UInt8) = 56 := (stringAt_eq_some.mp hstring).2.2.1 0 (by simp [text])
    exact absurd hzero (by decide)
  · rw [not_or, Bool.not_eq_true, Option.isSome_eq_false_iff, Option.isNone_iff_eq_none] at hroom
    rw [parseUrl_noRoom h hroom.1 hroom.2] at hparse
    exact absurd hparse (by simp)

/-- **When `parseUrl` undoes the rendering**: the URL has a port, and a path or room for the
slash. -/
theorem undoes_iff {u : Url} (h : u.Valid) :
    Undoes u ↔
      u.port.isSome = true ∧ (u.path.isSome = true ∨ u.render.length + 1 < MAXLINE) := by
  cases hport : u.port with
  | none =>
      refine iff_of_false (not_undoes_noPort h hport) ?_
      rintro ⟨hsome, -⟩
      exact Bool.false_ne_true hsome
  | some digits =>
      rw [Option.isSome_some]
      refine ⟨fun hundoes => ⟨rfl, ?_⟩, fun hroom => undoes_port h hport hroom.2⟩
      by_contra hroom
      rw [not_or, Bool.not_eq_true, Option.isSome_eq_false_iff, Option.isNone_iff_eq_none] at hroom
      obtain ⟨f, hparse, -⟩ := hundoes
      rw [parseUrl_noRoom h hroom.1 hroom.2] at hparse
      exact absurd hparse (by simp)

/-- `HTTP://h:80/a:b`. -/
def withPort : Url := ⟨text "HTTP", text "h", some (text "80"), some (text "/a:b")⟩

/-- `http://h/`. -/
def withoutPort : Url := ⟨text "http", text "h", none, some (text "/")⟩

theorem undoes_withPort : Undoes withPort :=
  (undoes_iff ⟨by simp [withPort, text, tolower], by simp [withPort, text],
    by simp [withPort, text, colon, slash], by simp [withPort, text, isdigit],
    by simp [withPort, text, slash],
    by simp [Url.render, Url.authority, Url.portPart, withPort, text, MAXLINE]⟩).mpr
    ⟨rfl, Or.inl rfl⟩

/-- `"80"` does not come out. -/
theorem not_undoes_withoutPort : withoutPort.Valid ∧ ¬ Undoes withoutPort := by
  have h : withoutPort.Valid :=
    ⟨by simp [withoutPort, text, tolower], by simp [withoutPort, text],
      by simp [withoutPort, text, colon, slash], by simp [withoutPort],
      by simp [withoutPort, text, slash],
      by simp [Url.render, Url.authority, Url.portPart, withoutPort, text, MAXLINE]⟩
  exact ⟨h, not_undoes_noPort h rfl⟩

end Proxy
