/-
# The ids of a trace

What `checktrace.pl` makes of a trace that was written to a file: it goes on as long as each
request allocates under an id without a block, and frees or reallocates under one with a block
(`liveAfter`).  At the end it adds requests that free the ids that are left, in the order of
their numerals, and their number to the header (`checktrace_render`).
-/
import CsappLabs.Checktrace

open CString Radix TraceFile

namespace Checktrace

/-! ## The ids with a block -/

/-- The ids with a block after a request, when it may be made. -/
def liveAfter (live : List ℤ) : StoredOp → Option (List ℤ)
  | .alloc i _ => if i ∈ live then none else some (i :: live)
  | .free i => if i ∈ live then some (live.erase i) else none
  | .realloc i _ => if i ∈ live then some live else none

/-- The ids after all requests. -/
def liveAfters : List ℤ → List StoredOp → Option (List ℤ)
  | live, [] => some live
  | live, op :: ops => (liveAfter live op).bind fun live' => liveAfters live' ops

theorem liveAfters_append (live : List ℤ) (ops ops' : List StoredOp) :
    liveAfters live (ops ++ ops') =
      (liveAfters live ops).bind fun live' => liveAfters live' ops' := by
  induction ops generalizing live with
  | nil => rfl
  | cons op ops ih =>
      rw [List.cons_append, liveAfters, liveAfters, Option.bind_assoc]
      congr 1
      funext live'
      exact ih live'

/-- The ids in the order of `sort`. -/
def sortIds (live : List ℤ) : List ℤ :=
  live.insertionSort fun i j => signed 10 i ≤ signed 10 j

theorem sortIds_perm (live : List ℤ) : (sortIds live).Perm live := List.perm_insertionSort _ live

/-- The trace with requests that free these ids. -/
def balanced (t : TraceT) (live : List ℤ) : TraceT where
  suggHeapsize := t.suggHeapsize
  numIds := t.numIds
  numOps := t.numOps + live.length
  weight := t.weight
  ops := t.ops ++ (sortIds live).map .free

theorem liveAfter_nodup {live live' : List ℤ} {op : StoredOp} (hlive : live.Nodup)
    (h : liveAfter live op = some live') : live'.Nodup := by
  cases op with
  | alloc i n =>
      rw [liveAfter] at h
      split_ifs at h with hi
      cases h
      exact List.nodup_cons.mpr ⟨hi, hlive⟩
  | free i =>
      rw [liveAfter] at h
      split_ifs at h
      cases h
      exact hlive.erase i
  | realloc i n =>
      rw [liveAfter] at h
      split_ifs at h
      cases h
      exact hlive

/-! ## The lines of a written trace -/

/-- The line of a request, without its end. -/
def body : StoredOp → List UInt8
  | .alloc i n => charA :: space :: (signed 10 i ++ space :: signed 10 n)
  | .free i => charF :: space :: signed 10 i
  | .realloc i n => charR :: space :: (signed 10 i ++ space :: signed 10 n)

theorem line_eq_body (op : StoredOp) : op.line = body op ++ [newline] := by
  cases op <;> simp [StoredOp.line, body, field]

/-- The lines of a trace. -/
def traceLines (t : TraceT) : List (List UInt8) :=
  [signed 10 t.suggHeapsize, signed 10 t.numIds, signed 10 t.numOps, signed 10 t.weight] ++
    t.ops.map body

theorem printed_bodies (ops : List StoredOp) :
    printed (ops.map body) = ops.flatMap StoredOp.line := by
  rw [printed, List.flatMap_map]
  congr 1
  funext op
  exact (line_eq_body op).symm

theorem render_eq (t : TraceT) : render t = printed (traceLines t) := by
  rw [render, traceLines, printed_append, printed_bodies]
  simp [printed, field]

theorem newline_notMem_body (op : StoredOp) : newline ∉ body op := by
  have hletters : newline ≠ charA ∧ newline ≠ charF ∧ newline ≠ charR ∧ newline ≠ space := by
    decide
  obtain ⟨ha, hf, hr, hs⟩ := hletters
  cases op <;> simp [body, ha, hf, hr, hs, newline_notMem_signed]

theorem newline_notMem_traceLines (t : TraceT) : ∀ l ∈ traceLines t, newline ∉ l := by
  intro l hl
  simp only [traceLines, List.mem_append, List.mem_cons, List.not_mem_nil, or_false,
    List.mem_map] at hl
  rcases hl with (rfl | rfl | rfl | rfl) | ⟨op, -, rfl⟩
  · exact newline_notMem_signed _
  · exact newline_notMem_signed _
  · exact newline_notMem_signed _
  · exact newline_notMem_signed _
  · exact newline_notMem_body op

theorem lines_render (t : TraceT) : lines (render t) = traceLines t := by
  rw [render_eq, lines_printed (newline_notMem_traceLines t)]

/-- The id of a request. -/
def idOf : StoredOp → ℤ
  | .alloc i _ => i
  | .free i => i
  | .realloc i _ => i

/-- The command and the id are found. -/
theorem fields_body (op : StoredOp) : fields (body op) = ([op.letter], signed 10 (idOf op)) := by
  have hid : ∀ i, ∀ c ∈ signed 10 i, isspace c = false := fun i c hc => Scanf.isspace_signed hc
  have hpair : ∀ c, isspace c = false → ∀ i n,
      fields (c :: space :: (signed 10 i ++ space :: signed 10 n)) = ([c], signed 10 i) := by
    intro c hc i n
    have hfirst : words 2 (c :: space :: (signed 10 i ++ space :: signed 10 n)) =
        [c] :: words 1 (signed 10 i ++ space :: signed 10 n) :=
      words_word (w := [c]) (List.cons_ne_nil _ _) (by simp [hc]) (by decide)
    rw [fields, hfirst, words_word (Scanf.signed_ne_nil i) (hid i) (by decide)]
    rfl
  cases op with
  | alloc i n => exact hpair charA (by decide) i n
  | free i => exact fields_free (hid i)
  | realloc i n => exact hpair charR (by decide) i n

/-! ## The hash is the ids -/

theorem signed_injective : Function.Injective (signed 10) := by
  intro a b h
  have hvalue := congrArg (signedValue 10) h
  rwa [signedValue_signed (by decide) (by decide), signedValue_signed (by decide) (by decide)]
    at hvalue

/-- The hash for these ids. -/
def entries (live : List ℤ) : Hash := live.map fun i => (signed 10 i, [charA])

theorem keys_entries (live : List ℤ) : (entries live).keys = live.map (signed 10) := by
  rw [Hash.keys, entries, List.map_map]
  rfl

theorem mem_keys_entries {live : List ℤ} {i : ℤ} :
    signed 10 i ∈ (entries live).keys ↔ i ∈ live := by
  rw [keys_entries, List.mem_map_of_injective signed_injective]

theorem get_entries (live : List ℤ) (i : ℤ) :
    (entries live).get (signed 10 i) = if i ∈ live then [charA] else [] := by
  induction live with
  | nil => rfl
  | cons j live ih =>
      rw [Hash.get, entries, List.map_cons, List.lookup_cons]
      by_cases hij : i = j
      · rw [hij, beq_self_eq_true, if_pos List.mem_cons_self]
        rfl
      · have hne : (signed 10 i == signed 10 j) = false :=
          beq_eq_false_iff_ne.mpr (signed_injective.ne hij)
        rw [hne]
        refine ih.trans ?_
        simp [List.mem_cons, hij]

theorem delete_entries {live : List ℤ} (hlive : live.Nodup) (i : ℤ) :
    (entries live).delete (signed 10 i) = entries (live.erase i) := by
  rw [Hash.delete, entries, entries, List.filter_map, hlive.erase_eq_filter]
  congr 1
  apply List.filter_congr
  intro j hj
  by_cases hij : j = i
  · simp [hij]
  · simp [hij, signed_injective.ne hij]

theorem map_sortIds (live : List ℤ) :
    (sortIds live).map (signed 10) = (live.map (signed 10)).insertionSort (· ≤ ·) :=
  List.map_insertionSort _ _ (signed 10) live fun _ _ _ _ => Iff.rfl

/-- The order of the ids is that of their numerals alone. -/
theorem sortIds_congr {live live' : List ℤ} (h : live.Perm live') :
    sortIds live = sortIds live' := by
  apply List.map_injective_iff.mpr signed_injective
  rw [map_sortIds, map_sortIds]
  refine List.Perm.eq_of_pairwise' (List.pairwise_insertionSort _ _)
    (List.pairwise_insertionSort _ _) ?_
  exact (List.perm_insertionSort _ _).trans ((h.map _).trans (List.perm_insertionSort _ _).symm)

theorem balanced_congr (t : TraceT) {live live' : List ℤ} (h : live.Perm live') :
    balanced t live = balanced t live' := by
  rw [balanced, balanced, sortIds_congr h, h.length_eq]

/-- **A request** does to the hash what it does to the ids. -/
theorem request_entries {live : List ℤ} (hlive : live.Nodup) (n : ℕ) (op : StoredOp) :
    (∃ e, request n [op.letter] (signed 10 (idOf op)) (entries live) = .error e ∧
        liveAfter live op = none) ∨
      ∃ live', liveAfter live op = some live' ∧
        request n [op.letter] (signed 10 (idOf op)) (entries live) = .ok (entries live') := by
  cases op with
  | alloc i size =>
      by_cases hi : i ∈ live
      · refine .inl ?_
        show ∃ e, request n [charA] (signed 10 i) _ = _ ∧ _
        rw [request, if_neg (by decide), get_entries, if_pos hi, if_pos ⟨rfl, rfl⟩]
        exact ⟨_, rfl, if_pos hi⟩
      · refine .inr ⟨i :: live, if_neg hi, ?_⟩
        show request n [charA] (signed 10 i) _ = _
        rw [request, if_neg (by decide), get_entries, if_neg hi, if_neg (by simp),
          if_neg (by simp), if_neg (by simp [charA, charF]), if_neg (by simp [charA, charF]),
          if_neg (by decide)]
        show Except.ok ((signed 10 i, [charA]) :: (entries live).delete (signed 10 i)) = _
        rw [delete_entries hlive, List.erase_of_not_mem hi]
        rfl
  | free i =>
      by_cases hi : i ∈ live
      · refine .inr ⟨live.erase i, if_pos hi, ?_⟩
        show request n [charF] (signed 10 i) _ = _
        rw [request_free (mem_keys_entries.mpr hi), delete_entries hlive]
      · refine .inl ?_
        show ∃ e, request n [charF] (signed 10 i) _ = _ ∧ _
        rw [request, if_neg (by decide), if_neg (by simp [charA, charF]),
          if_neg (by simp [charA, charF]), if_pos ⟨rfl, fun h => hi (mem_keys_entries.mp h)⟩]
        exact ⟨_, rfl, if_neg hi⟩
  | realloc i size =>
      by_cases hi : i ∈ live
      · refine .inr ⟨live, if_pos hi, ?_⟩
        show request n [charR] (signed 10 i) _ = _
        rw [request, if_pos rfl, get_entries, if_pos hi, if_neg (by decide)]
      · refine .inl ?_
        show ∃ e, request n [charR] (signed 10 i) _ = _ ∧ _
        rw [request, if_pos rfl, get_entries, if_neg hi, if_pos (.inl rfl)]
        exact ⟨_, rfl, if_neg hi⟩

/-- **The loop** does to the hash what the requests do to the ids. -/
theorem loop_bodies (n : ℕ) (ops : List StoredOp) {live : List ℤ} (hlive : live.Nodup)
    (acc : List (List UInt8)) :
    (∃ e, loop n (ops.map body) ⟨entries live, acc⟩ = .error e ∧ liveAfters live ops = none) ∨
      ∃ live', liveAfters live ops = some live' ∧
        loop n (ops.map body) ⟨entries live, acc⟩ = .ok ⟨entries live', acc ++ ops.map body⟩ := by
  induction ops generalizing n live acc with
  | nil =>
      refine .inr ⟨live, rfl, ?_⟩
      rw [List.map_nil, List.append_nil]
      rfl
  | cons op ops ih =>
      have hletters : ¬ Falsy [charA] ∧ ¬ Falsy [charF] ∧ ¬ Falsy [charR] := by decide
      have hletter : ¬ Falsy [op.letter] := by
        cases op with
        | alloc i n => exact hletters.1
        | free i => exact hletters.2.1
        | realloc i n => exact hletters.2.2
      rw [List.map_cons, loop, step, fields_body, if_neg hletter, liveAfters]
      simp only
      rcases request_entries hlive (n + 1) op with ⟨e, he, hnone⟩ | ⟨live₁, hsome, hok⟩
      · rw [he, hnone]
        exact .inl ⟨e, rfl, rfl⟩
      · rw [hok, hsome]
        show (∃ e, loop (n + 1) (ops.map body) ⟨entries live₁, acc ++ [body op]⟩ = .error e ∧
            liveAfters live₁ ops = none) ∨ ∃ live', liveAfters live₁ ops = some live' ∧
          loop (n + 1) (ops.map body) ⟨entries live₁, acc ++ [body op]⟩ = _
        rw [← List.singleton_append (l := ops.map body), ← List.append_assoc]
        exact ih (n + 1) (liveAfter_nodup hlive hsome) (acc ++ [body op])

/-! ## The script -/

/-- All ids can be freed. -/
theorem printFrees_entries {live keys : List ℤ} (h : ∀ i ∈ keys, i ∈ live) :
    printFrees (entries live) (keys.map (signed 10)) =
      (printed (keys.map (body ∘ .free)), none) := by
  induction keys with
  | nil => rfl
  | cons i keys ih =>
      rw [List.forall_mem_cons] at h
      rw [List.map_cons, printFrees, get_entries, if_pos h.1, if_neg (by simp), ih h.2]
      show (printed [body (.free i)] ++ _, none) = _
      rw [← printed_append]
      rfl

theorem sortedKeys_entries (live : List ℤ) :
    sortedKeys (entries live) = (sortIds live).map (signed 10) := by
  rw [sortedKeys, keys_entries, map_sortIds]

/-- The sum that is printed. -/
theorem newNumOps_signed {z : ℤ} (hz : IsInt z) {n : ℕ} (hn : z + n < 2 ^ 63) :
    newNumOps (signed 10 z) n = some (signed 10 (z + n)) := by
  have hread : Scanf.integer (signed 10 z) = .item z [] := by
    have hread := Scanf.integer_signed z (s := []) rfl
    rwa [List.append_nil] at hread
  have hlo : -2 ^ 63 ≤ z := by
    have hz := hz.1
    omega
  rw [newNumOps, hread]
  show printInteger z n = _
  rw [printInteger, printSum, if_pos ⟨hlo, hn.trans (by norm_num)⟩]

/-- Each request brings one id at most. -/
theorem length_liveAfters {live live' : List ℤ} {ops : List StoredOp}
    (h : liveAfters live ops = some live') : live'.length ≤ live.length + ops.length := by
  induction ops generalizing live with
  | nil =>
      cases h
      exact Nat.le_add_right _ _
  | cons op ops ih =>
      rw [liveAfters, Option.bind_eq_some_iff] at h
      obtain ⟨live₁, hop, hops⟩ := h
      have hle := ih hops
      have hone : live₁.length ≤ live.length + 1 := by
        cases op <;> rw [liveAfter] at hop <;> split_ifs at hop <;> cases hop
        · exact le_of_eq List.length_cons
        · exact List.length_erase_le.trans (Nat.le_succ _)
        · exact Nat.le_succ _
      rw [List.length_cons]
      omega

theorem drop_traceLines (t : TraceT) : (traceLines t).drop 4 = t.ops.map body := rfl

theorem traceLines_balanced (t : TraceT) (live : List ℤ) :
    traceLines (balanced t live) =
      [signed 10 t.suggHeapsize, signed 10 t.numIds, signed 10 (t.numOps + live.length),
        signed 10 t.weight] ++ (t.ops.map body ++ (sortIds live).map (body ∘ .free)) := by
  rw [traceLines, balanced, List.map_append, List.map_map]

section

variable {t : TraceT}

/-- When each request may be made. -/
theorem checktrace_of_live (ht : IsInt t.numOps) (hlen : t.ops.length < 2 ^ 62) {live : List ℤ}
    (hlive : liveAfters [] t.ops = some live) :
    checktrace false (render t) = some (render (balanced t live), none) := by
  have hloop := loop_bodies 4 t.ops List.nodup_nil []
  rw [List.nil_append] at hloop
  rcases hloop with ⟨e, -, hnone⟩ | ⟨live', hsome, hok⟩
  · rw [hnone] at hlive
    cases hlive
  · obtain rfl := Option.some.inj (hsome.symm.trans hlive)
    have hle := length_liveAfters hlive
    have hsum : t.numOps + live'.length < 2 ^ 63 := by
      have hhi := ht.2
      rw [List.length_nil, Nat.zero_add] at hle
      omega
    have hentries : (entries live').length = live'.length := List.length_map _
    have hfrees := @printFrees_entries live' (sortIds live')
      fun i hi => (sortIds_perm live').mem_iff.mp hi
    have hnum : newNumOps ((traceLines t).getD 2 []) (entries live').length =
        some (signed 10 (t.numOps + live'.length)) := by
      rw [hentries]
      exact newNumOps_signed ht hsum
    have hend : loop 4 (t.ops.map body) ⟨[], []⟩ = .ok ⟨entries live', t.ops.map body⟩ := hok
    rw [checktrace, lines_render, drop_traceLines, hend]
    simp only [hnum, sortedKeys_entries, hfrees]
    rw [← printed_append, List.append_assoc, render_eq, traceLines_balanced]
    rfl

/-- With `-s`, when nothing is left. -/
theorem summary_of_live (hlive : liveAfters [] t.ops = some []) :
    checktrace true (render t) = some (CString.text "Balanced trace.\n", none) := by
  rcases loop_bodies 4 t.ops List.nodup_nil [] with ⟨e, -, hnone⟩ | ⟨live', hsome, hok⟩
  · rw [hnone] at hlive
    cases hlive
  · obtain rfl := Option.some.inj (hsome.symm.trans hlive)
    have hend : loop 4 (t.ops.map body) ⟨[], []⟩ = .ok ⟨[], t.ops.map body⟩ := hok
    rw [checktrace, lines_render, drop_traceLines, hend]
    rfl

/-- A trace that frees everything stays. -/
theorem balanced_nil (t : TraceT) : balanced t [] = t := by
  rw [balanced, sortIds, List.insertionSort_nil, List.map_nil, List.append_nil, List.length_nil,
    Nat.cast_zero, add_zero]

/-- When one of them may not. -/
theorem checktrace_of_not_live (hnone : liveAfters [] t.ops = none) :
    ∃ e, checktrace false (render t) = some ([], some e) := by
  rcases loop_bodies 4 t.ops List.nodup_nil [] with ⟨e, he, -⟩ | ⟨live', hsome, -⟩
  · refine ⟨e, ?_⟩
    have hend : loop 4 (t.ops.map body) ⟨[], []⟩ = .error e := he
    rw [checktrace, lines_render, drop_traceLines, hend]
  · rw [hsome] at hnone
    cases hnone

/-- **What the script makes of a written trace.**  When each request may be made, it prints the
trace with the missing requests to free, and their number in the header; else it dies before it
has printed anything. -/
theorem checktrace_render (ht : IsInt t.numOps) (hlen : t.ops.length < 2 ^ 62) :
    (∀ live, liveAfters [] t.ops = some live →
        checktrace false (render t) = some (render (balanced t live), none)) ∧
      (liveAfters [] t.ops = none → ∃ e, checktrace false (render t) = some ([], some e)) :=
  ⟨fun _ hlive => checktrace_of_live ht hlen hlive, checktrace_of_not_live⟩

end

/-- A trace that leaves two blocks, in the order of `sort`. -/
theorem checktrace_render_two :
    checktrace false (render ⟨20, 11, 2, 1, [.alloc 2 8, .alloc 10 16]⟩) =
      some (render ⟨20, 11, 4, 1, [.alloc 2 8, .alloc 10 16, .free 10, .free 2]⟩, none) :=
  (checktrace_render (t := ⟨20, 11, 2, 1, [.alloc 2 8, .alloc 10 16]⟩) (by decide)
    (by decide)).1 [10, 2] (by decide)

end Checktrace
