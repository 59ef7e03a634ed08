/-
# The copies of `parseUrl`

`parseUrl` again, with a record of the length of each copy that it makes, for any characters
in the URL and any old contents of its array.  Forgetting the record gives `parseUrl`
(`erases_parseUrlCopies`).

The lengths are differences of positions: a colon behind the first slash makes the length of
the port negative.  Without a slash the NUL of the URL is overwritten, and the characters
that stood behind it belong to the URL when it is copied and searched.
-/
import CsappLabs.UrlRender

open Effects Effects.Prog CString Relay

namespace Proxy

/-- The part of `parseUrl` after the checks of the scheme, with the lengths of its copies. -/
def splitCopies (f : Frame) (p uriStart : ℕ) : Prog ℤ Unit (Frame × ℤ) := do
  let path ← require () (stringAt MAXLINE f.url uriStart)
  emit (path.length : ℤ)
  let f := { f with uri := strcpy f.uri path }
  let rest ← require () (stringAt MAXLINE f.url p)
  match strchr rest colon with
  | none =>
      emit ((uriStart : ℤ) - p)
      let hostname ← require () (copyPart f.hostname rest (uriStart - p))
      pure ({ f with hostname := hostname }, 0)
  | some i =>
      let colonAt := p + i
      emit ((colonAt : ℤ) - p)
      let hostname ← require () (copyPart f.hostname rest (colonAt - p))
      let after ← require () (stringAt MAXLINE f.url (colonAt + 1))
      emit ((uriStart : ℤ) - (colonAt + 1))
      let port ← require () (copyPart f.port after (uriStart - (colonAt + 1)))
      pure ({ f with hostname := hostname, port := port }, 0)

/-- `parseUrl`, with the lengths of its copies. -/
def parseUrlCopies (f : Frame) : Prog ℤ Unit (Frame × ℤ) := do
  let url ← require () (stringAt MAXLINE f.url 0)
  let n := url.length
  match strstr url (text "://") with
  | none =>
      pure ({ f with
        port := Function.update f.port 0 0
        hostname := Function.update f.hostname 0 0 }, 0)
  | some p =>
      if strncasecmp url (text "http://") 7 = false then pure (f, -1)
      else
        match strchr (url.drop (p + 3)) slash with
        | none => splitCopies { f with url := Function.update f.url n slash } (p + 3) n
        | some i => splitCopies f (p + 3) (p + 3 + i)

/-- **`parseUrl` stays inside its arrays**: every string that it reads ends inside of its
array, and every copy has a length from 0 to `MAXLINE - 1`. -/
structure Inside (f : Frame) : Prop where
  returns : ∃ r, (parseUrlCopies f).result = .ok r
  lengths : ∀ n ∈ (parseUrlCopies f).events, 0 ≤ n ∧ n ≤ MAXLINE - 1

/-- The URLs that `parseUrl` takes apart: those without `://` or of another scheme; a path,
and no colon at first behind its slash; no path, and no colon at first in what stood behind
the NUL. -/
inductive Contained (f : Frame) (u : List UInt8) : Prop where
  | noScheme : strstr u (text "://") = none → Contained f u
  | otherScheme : strncasecmp u (text "http://") 7 = false → Contained f u
  | path {p i : ℕ} : strstr u (text "://") = some p → strchr (u.drop (p + 3)) slash = some i →
      (∀ j, strchr (u.drop (p + 3)) colon = some j → j < i) → Contained f u
  | noPath {p : ℕ} {tail : List UInt8} : strstr u (text "://") = some p →
      strchr (u.drop (p + 3)) slash = none →
      stringAt MAXLINE f.url (u.length + 1) = some tail →
      colon ∈ u.drop (p + 3) ∨ colon ∉ tail → Contained f u

/-! ## Without the record -/

theorem erases_splitCopies (f : Frame) (p uriStart : ℕ) :
    Erases (splitCopies f p uriStart) (splitUrl f p uriStart) := by
  unfold splitCopies splitUrl
  refine .bind (.require _ _) fun path => .emit_bind _ (.bind (.require _ _) fun rest => ?_)
  cases strchr rest colon with
  | none => exact .emit_bind _ (.bind (.require _ _) fun hostname => .pure _)
  | some i =>
      refine .emit_bind _ (.bind (.require _ _) fun hostname => .bind (.require _ _) fun after => ?_)
      exact .emit_bind _ (.bind (.require _ _) fun port => .pure _)

/-- **The record changes nothing.** -/
theorem erases_parseUrlCopies (f : Frame) : Erases (parseUrlCopies f) (parseUrl f) := by
  unfold parseUrlCopies parseUrl
  refine .bind (.require _ _) fun url => ?_
  cases strstr url (text "://") with
  | none => exact .pure _
  | some p =>
      refine .ite (.pure _) ?_
      cases strchr (url.drop (p + 3)) slash with
      | none => exact erases_splitCopies _ _ _
      | some i => exact erases_splitCopies _ _ _

/-! ## The lengths -/

/-- A copy that is made has a length that is not negative. -/
theorem copyPart_nonneg {dst dst' : ℕ → UInt8} {src : List UInt8} {n : ℤ}
    (h : copyPart dst src n = some dst') : 0 ≤ n := by
  rw [copyPart] at h
  split_ifs at h with hn
  exact hn.1

/-- **The lengths of the copies**, when all of them are made. -/
theorem clean_splitCopies (f : Frame) (p uriStart : ℕ) :
    Clean (fun n : ℤ => 0 ≤ n ∧ n ≤ MAXLINE - 1) (splitCopies f p uriStart) := by
  intro r hr
  unfold splitCopies at hr ⊢
  cases hpath : stringAt MAXLINE f.url uriStart with
  | none =>
      rw [hpath] at hr
      cases hr
  | some path =>
      have hlen := (stringAt_eq_some.mp hpath).2.1
      cases hrest : stringAt MAXLINE f.url p with
      | none =>
          simp only [hpath, hrest, require_some, require_none, pure_bind, stop_bind] at hr
          cases hr
      | some rest =>
          have hlen' := (stringAt_eq_some.mp hrest).2.1
          simp only [hpath, hrest, require_some, pure_bind, result_emit_bind, events_emit_bind,
            List.forall_mem_cons] at hr ⊢
          refine ⟨by omega, ?_⟩
          cases hcolon : strchr rest colon with
          | none =>
              simp only [hcolon, result_emit_bind, events_emit_bind, List.forall_mem_cons] at hr ⊢
              cases hhost : copyPart f.hostname rest (uriStart - p) with
              | none =>
                  rw [hhost] at hr
                  cases hr
              | some hostname =>
                  have := copyPart_nonneg hhost
                  exact ⟨by omega, by simp⟩
          | some i =>
              obtain ⟨l, more, rfl, -, rfl⟩ := strchr_eq_some.mp hcolon
              rw [List.length_append, List.length_cons] at hlen'
              simp only [hcolon, result_emit_bind, events_emit_bind, List.forall_mem_cons] at hr ⊢
              refine ⟨by omega, ?_⟩
              cases hhost : copyPart f.hostname (l ++ colon :: more) ((p + l.length : ℕ) - p) with
              | none =>
                  rw [hhost] at hr
                  cases hr
              | some hostname =>
                  cases hafter : stringAt MAXLINE f.url (p + l.length + 1) with
                  | none =>
                      simp only [hhost, hafter, require_some, require_none, pure_bind,
                        stop_bind] at hr
                      cases hr
                  | some after =>
                      simp only [hhost, hafter, require_some, pure_bind, result_emit_bind,
                        events_emit_bind, List.forall_mem_cons] at hr ⊢
                      cases hport : copyPart f.port after
                          (uriStart - ((p + l.length : ℕ) + 1)) with
                      | none =>
                          rw [hport] at hr
                          cases hr
                      | some port =>
                          have := copyPart_nonneg hport
                          exact ⟨by omega, by simp⟩

/-- No copy is made before the split. -/
theorem clean_parseUrlCopies (f : Frame) :
    Clean (fun n : ℤ => 0 ≤ n ∧ n ≤ MAXLINE - 1) (parseUrlCopies f) := by
  unfold parseUrlCopies
  refine .bind (.require _ _) fun url => ?_
  cases strstr url (text "://") with
  | none => exact .pure _
  | some p =>
      refine .ite (.pure _) ?_
      cases strchr (url.drop (p + 3)) slash with
      | none => exact clean_splitCopies _ _ _
      | some i => exact clean_splitCopies _ _ _

/-- It is enough that `parseUrl` returns. -/
theorem inside_iff_isSome {f : Frame} : Inside f ↔ (parseUrl f).isSome = true := by
  have hok := fun r => (erases_parseUrlCopies f).ok_iff r
  rw [Option.isSome_iff_exists]
  constructor
  · rintro ⟨⟨r, hr⟩, -⟩
    exact ⟨r, (hok r).mp hr⟩
  · rintro ⟨r, hr⟩
    have hr := (hok r).mpr hr
    exact ⟨⟨r, hr⟩, clean_parseUrlCopies f r hr⟩

/-! ## The shapes of a URL -/

/-- The split returns when no colon comes at first behind the start of the path. -/
theorem split_isSome {f : Frame} {rest : List UInt8} {i : ℕ} :
    (f.split rest i).isSome = true ↔ ∀ j, strchr rest colon = some j → j < i := by
  rw [Frame.split]
  cases hcolon : strchr rest colon with
  | none => simp
  | some j => by_cases hj : j < i <;> simp [hj]

section

variable {f : Frame} {u : List UInt8} {p : ℕ}

/-- A URL with a slash behind its scheme. -/
theorem isSome_slash (hurl : stringAt MAXLINE f.url 0 = some u)
    (hscheme : strstr u (text "://") = some p)
    (hhttp : strncasecmp u (text "http://") 7 = true) {i : ℕ}
    (hslash : strchr (u.drop (p + 3)) slash = some i) :
    (parseUrl f).isSome = true ↔ ∀ j, strchr (u.drop (p + 3)) colon = some j → j < i := by
  have hle := scheme_le hscheme
  have hi : p + 3 + i ≤ u.length := by
    obtain ⟨l, r, hsplit, -, rfl⟩ := strchr_eq_some.mp hslash
    have hlen := congrArg List.length hsplit
    simp only [List.length_drop, List.length_append, List.length_cons] at hlen
    omega
  rw [parseUrl_slash hurl hscheme hhttp hslash, splitUrl_eq hurl hi]
  exact split_isSome

/-- The first colon, when a slash and what stood behind the NUL follow. -/
theorem colon_before {r tail : List UInt8} :
    (∀ j, strchr (r ++ slash :: tail) colon = some j → j < r.length) ↔
      colon ∈ r ∨ colon ∉ tail := by
  constructor
  · intro h
    by_contra hnot
    rw [not_or, not_not] at hnot
    have hmem : colon ∈ r ++ slash :: tail := by simp [hnot.2]
    obtain ⟨j, hj⟩ := Option.ne_none_iff_exists'.mp fun hnone => strchr_eq_none.mp hnone hmem
    have hlt := h j hj
    obtain ⟨l, more, heq, -, rfl⟩ := strchr_eq_some.mp hj
    have hget := congrArg (fun s => s[l.length]?) heq
    simp only [List.getElem?_append_left hlt, List.getElem?_append_right le_rfl, Nat.sub_self,
      List.getElem?_cons_zero] at hget
    exact hnot.1 (List.mem_of_getElem? hget)
  · rintro (hr | htail) j hj
    · obtain ⟨l, more, hsplit, hl⟩ := List.eq_append_cons_of_mem hr
      rw [hsplit, List.append_assoc, List.cons_append, strchr_append hl, Option.some.injEq] at hj
      rw [hsplit, List.length_append, List.length_cons]
      omega
    · obtain ⟨l, more, heq, hl, rfl⟩ := strchr_eq_some.mp hj
      by_contra hge
      have hmem : colon ∈ (r ++ slash :: tail).drop r.length := by
        rw [heq, List.drop_append_of_le_length (by omega)]
        simp
      rw [List.drop_left, List.mem_cons] at hmem
      rcases hmem with hmem | hmem
      · exact absurd hmem (by decide)
      · exact htail hmem

/-- A URL without a slash behind its scheme. -/
theorem isSome_noSlash (hurl : stringAt MAXLINE f.url 0 = some u)
    (hscheme : strstr u (text "://") = some p)
    (hhttp : strncasecmp u (text "http://") 7 = true)
    (hslash : strchr (u.drop (p + 3)) slash = none) :
    (parseUrl f).isSome = true ↔ ∃ tail, stringAt MAXLINE f.url (u.length + 1) = some tail ∧
      (colon ∈ u.drop (p + 3) ∨ colon ∉ tail) := by
  have hle := scheme_le hscheme
  have hne : slash ≠ 0 := by decide
  rw [parseUrl_noSlash hurl hscheme hhttp hslash]
  cases htail : stringAt MAXLINE f.url (u.length + 1) with
  | none =>
      have hend := stringAt_overwrite_end hurl hne
      rw [htail, Option.map_none] at hend
      rw [splitUrl_none _ hend]
      simp
  | some tail =>
      have hover := stringAt_overwrite hurl hne htail
      have hsum : p + 3 + (u.drop (p + 3)).length = u.length := by
        rw [List.length_drop]
        omega
      have hdrop : (u ++ slash :: tail).drop (p + 3) = u.drop (p + 3) ++ slash :: tail :=
        List.drop_append_of_le_length hle
      have hsplit := splitUrl_eq
        (f := { f with url := Function.update f.url u.length slash }) (p := p + 3)
        (i := (u.drop (p + 3)).length) hover (by rw [hsum, List.length_append]; omega)
      rw [hsum, hdrop] at hsplit
      rw [hsplit, split_isSome, colon_before]
      simp

end

/-- **When `parseUrl` stays inside its arrays**, whatever stood behind the URL. -/
theorem inside_iff {f : Frame} {u : List UInt8} (hurl : stringAt MAXLINE f.url 0 = some u) :
    Inside f ↔ Contained f u := by
  rw [inside_iff_isSome]
  cases hscheme : strstr u (text "://") with
  | none =>
      rw [parseUrl_noScheme hurl hscheme]
      exact iff_of_true rfl (.noScheme hscheme)
  | some p =>
      cases hhttp : strncasecmp u (text "http://") 7 with
      | false =>
          rw [parseUrl_otherScheme hurl hscheme hhttp]
          exact iff_of_true rfl (.otherScheme hhttp)
      | true =>
          cases hslash : strchr (u.drop (p + 3)) slash with
          | some i =>
              rw [isSome_slash hurl hscheme hhttp hslash]
              refine ⟨fun hj => .path hscheme hslash hj, fun h => ?_⟩
              cases h with
              | noScheme hnone => simp [hscheme] at hnone
              | otherScheme hother => simp [hhttp] at hother
              | path hscheme' hslash' hj =>
                  obtain rfl := Option.some.inj (hscheme.symm.trans hscheme')
                  obtain rfl := Option.some.inj (hslash.symm.trans hslash')
                  exact hj
              | noPath hscheme' hslash' =>
                  obtain rfl := Option.some.inj (hscheme.symm.trans hscheme')
                  simp [hslash] at hslash'
          | none =>
              rw [isSome_noSlash hurl hscheme hhttp hslash]
              refine ⟨fun ⟨tail, htail, hj⟩ => .noPath hscheme hslash htail hj, fun h => ?_⟩
              cases h with
              | noScheme hnone => simp [hscheme] at hnone
              | otherScheme hother => simp [hhttp] at hother
              | path hscheme' hslash' =>
                  obtain rfl := Option.some.inj (hscheme.symm.trans hscheme')
                  simp [hslash] at hslash'
              | noPath hscheme' hslash' htail hj =>
                  obtain rfl := Option.some.inj (hscheme.symm.trans hscheme')
                  exact ⟨_, htail, hj⟩

theorem stringAt_called {s : List UInt8} (hnul : (0 : UInt8) ∉ s) (hlen : s.length < MAXLINE) :
    stringAt MAXLINE (called s).url 0 = some s := stringAt_strcpy _ hnul hlen

/-- A port and a path, with another colon in the path. -/
theorem inside_withPort : Inside (called (text "http://h:80/a:b")) := by
  refine (inside_iff (stringAt_called ?_ ?_)).mpr (.path (p := 4) (i := 4) ?_ ?_ fun j hj => ?_)
  · simp [text]
  · simp [text, MAXLINE]
  · simp [text, strstr]
  · simp [text, strchr, slash, List.idxOf?_cons]
  · simp [text, strchr, colon, List.idxOf?_cons] at hj
    omega

/-- The first colon behind the scheme is in the path. -/
theorem not_inside_colon :
    stringAt MAXLINE (called (text "http://h/a:b")).url 0 = some (text "http://h/a:b") ∧
      (text "http://h/a:b").length ≤ MAXLINE - 2 ∧ ¬ Inside (called (text "http://h/a:b")) := by
  have hurl : stringAt MAXLINE (called (text "http://h/a:b")).url 0 = some (text "http://h/a:b") :=
    stringAt_called (by simp [text]) (by simp [text, MAXLINE])
  refine ⟨hurl, by simp [text, MAXLINE], ?_⟩
  rw [inside_iff_isSome, isSome_slash (p := 4) (i := 1) hurl]
  · intro h
    have hlt := h 3 (by simp [text, strchr, colon, List.idxOf?_cons])
    omega
  · simp [text, strstr]
  · simp [text, strncasecmp, tolower]
  · simp [text, strchr, slash, List.idxOf?_cons]

end Proxy
