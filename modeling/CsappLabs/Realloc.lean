/-
# What `mm_realloc` promises

`mm_realloc` keeps the contents of its block and of all others, whichever of its five
paths it takes (`realloc_contents`).  A call that returns null has changed nothing
(`null_untouched`).

It may return null although `mm_malloc` of the same size would not: for the last block it
asks `mem_sbrk` only, and does not look for a free block when that refuses
(`realloc_succeeds_iff`).
-/
import CsappLabs.HeapRuns

open WordMemory LinkedChain Layout Effects Prog

namespace Malloc

/-! ## Contents -/

/-- A call for some bytes returns a pointer, unless it is refused. -/
theorem SeqStep.ne_zero {c : Call} {bs bs' : List Block} {q : ℕ} (h : SeqStep c bs bs' q)
    (hs : Settled bs) (hn : 0 < c.request) : q ≠ 0 := by
  cases h with
  | mallocZero => exact absurd hn (lt_irrefl 0)
  | malloc _ h => exact (h.held hs).choose_spec.2.1
  | free _ => exact absurd hn (lt_irrefl 0)
  | reallocZero _ => exact absurd hn (lt_irrefl 0)
  | reallocNull _ h => exact (h.held hs).choose_spec.2.1
  | reallocNullZero => exact absurd hn (lt_irrefl 0)
  | keep hheld _ _ =>
      have := hheld.bounds
      omega
  | grow _ => omega
  | absorb _ _ => omega
  | move _ _ _ h _ => exact (h.held hs).choose_spec.2.1

/-- `mm_realloc` keeps the other blocks where they are. -/
theorem SeqStep.held_of_ne {bs bs' : List Block} {p n q : ℕ}
    (h : SeqStep (.realloc p n) bs bs' q) (hs : Settled bs) {r u : ℕ} (hr : Held bs r u)
    (hne : r ≠ p) : Held bs' r u := by
  cases h with
  | reallocZero h => exact ((h.held hs).2 r u).mpr ⟨hr, hne⟩
  | reallocNull _ h =>
      obtain ⟨t, -, -, -, hH⟩ := h.held hs
      exact (hH r u).mpr (Or.inl hr)
  | reallocNullZero => exact hr
  | keep _ _ _ => exact hr
  | @grow xs s n hlt =>
      have hmid := resized_mid [] [] (t := s + 8 * ((n + 8 - s + 7) / 8))
        (by simpa using hs) (by simp) (Or.inl rfl)
      refine (hmid.2 r u).mpr (Or.inl ⟨?_, hne⟩)
      simpa using hr
  | @absorb xs ys s t n hlt hle =>
      have hmid := resized_mid [⟨t, .free⟩] ys (t := s + t) (by simpa using hs)
        (by simp) (Or.inr (by simp))
      refine (hmid.2 r u).mpr (Or.inl ⟨?_, hne⟩)
      simpa using hr
  | move _ _ _ hm hf =>
      obtain ⟨t, -, -, -, hH⟩ := hm.held hs
      exact ((hf.held (hm.settled hs)).2 r u).mpr ⟨(hH r u).mpr (Or.inl hr), hne⟩

/-- What `mm_realloc` of a live pointer did, when it returned. -/
theorem Inv.realloc {h h' : Heap} {live : List (ℕ × ℕ)} {bs : List Block} {L : ℕ → List ℕ}
    {p s n q : ℕ} (hi : Inv h live bs L) (hheld : Held bs p s) (hn : 0 < n)
    (hmax : n ≤ maxRequest) (hrun : mmRealloc h p n = some (h', q)) :
    (q ≠ 0 ∧ ∃ bs' L', SeqStep (.realloc p n) bs bs' q ∧
      Inv h' ((Call.realloc p n).after live q) bs' L' ∧ Frame bs p h.mem h'.mem ∧
      Copied h.mem h'.mem p q (s - 8)) ∨
    (q = 0 ∧ h' = h ∧ (Call.realloc p n).after live q = live) := by
  have hended : ∀ {es g r}, Logged.mmRealloc h p n = ⟨es, .ok (g, r)⟩ → g = h' ∧ r = q := by
    intro es g r hm
    have := Call.run_of_logged (c := .realloc p n) hm
    exact Prod.mk.inj (Option.some.inj (this.symm.trans hrun))
  rcases hi.rep.realloc_outcomes hi.settled hheld hn hmax with
    ⟨bs', L', r, es, hstep, -, hall⟩ | ⟨k, -, hask, -, hall⟩ | ⟨t, es, b, -, -, -, hall⟩
  · obtain ⟨g, hm, hr', hframe, hcopy⟩ := hall h hi.rep
    obtain ⟨rfl, rfl⟩ := hended hm
    exact Or.inl ⟨hstep.ne_zero hi.settled hn, bs', L', hstep,
      ⟨hr', hstep.settled hi.settled, hstep.live hi.settled hi.live⟩, hframe, hcopy⟩
  · obtain ⟨rfl, rfl⟩ := hended (hall h hi.rep)
    exact Or.inr ⟨rfl, rfl, hask.after hi.settled live⟩
  · have hm := Call.run_of_error (c := .realloc p n) (hall h hi.rep)
    exact absurd (hm.symm.trans hrun) (by simp)

/-- **`mm_realloc` preserves contents.**  A pointer it returns is aligned, its block has
room for the request inside the heap, and it holds the bytes of the old block, as many as
both requests have.  The other live blocks keep their extents and their bytes, and the old
pointer is the new one or no longer live.  When it returns null the old pointer is live
and its bytes are the same. -/
theorem realloc_contents {h h' : Heap} {live : List (ℕ × ℕ)} {p s n q : ℕ}
    (hr : Reachable h live) (hp : (p, s) ∈ live) (hn : 0 < n) (hmax : n ≤ maxRequest)
    (hrun : mmRealloc h p n = some (h', q)) :
    (q ≠ 0 → (q - h'.memStartBrk) % ALIGNMENT = 0 ∧
      (∃ t, Held (blocks h') q t ∧ n ≤ t - 8 ∧ h'.memStartBrk ≤ q ∧ q + (t - 8) ≤ h'.memBrk) ∧
      (∀ i < min s n, h'.mem (q + i) = h.mem (p + i)) ∧
      (∀ r k, (r, k) ∈ live → r ≠ p → (r, k) ∈ (Call.realloc p n).after live q ∧
        ∃ u, Held (blocks h) r u ∧ Held (blocks h') r u ∧ k ≤ u - 8 ∧
          ∀ x, r ≤ x → x < r + (u - 8) → h'.mem x = h.mem x) ∧
      (q = p ∨ p ∉ ((Call.realloc p n).after live q).map Prod.fst ∧
        ∀ t, ¬ Held (blocks h') p t)) ∧
    (q = 0 → (p, s) ∈ (Call.realloc p n).after live q ∧
      ∀ x, p ≤ x → x < p + s → h'.mem x = h.mem x) := by
  obtain ⟨bs, L, hi⟩ := hr.inv
  obtain ⟨t, hheld, hst, -⟩ := hi.extent hp
  rcases hi.realloc hheld hn hmax hrun with
    ⟨hq, bs', L', hstep, hi', hframe, hcopy⟩ | ⟨rfl, rfl, hafter⟩
  · refine ⟨fun _ => ?_, fun hq' => absurd hq' hq⟩
    rw [hi.rep.blocks_eq hi.settled, hi'.rep.blocks_eq hi'.settled]
    have hlist : (Call.realloc p n).after live q = (q, n) :: dropPtr live p := by
      rw [Call.after, if_neg (by omega), if_neg hq]
    obtain ⟨u, hu, hnu, hal, hle⟩ := hi'.extent (p := q) (n := n) (by rw [hlist]; simp)
    rw [hi'.rep.startBrk]
    refine ⟨hal, ⟨u, hu, by omega, Nat.zero_le q, by omega⟩, fun i hi => hcopy i (by omega), ?_, ?_⟩
    · intro r k hrk hne
      obtain ⟨v, hv, hkv, -⟩ := hi.extent hrk
      refine ⟨?_, v, hv, hstep.held_of_ne hi.settled hv hne, by omega, hframe r v hv hne⟩
      rw [hlist]
      exact List.mem_cons_of_mem _ (LiveRep.mem_dropPtr.mpr ⟨hrk, hne⟩)
    · by_cases hqp : q = p
      · exact Or.inl hqp
      · have hgone : p ∉ ((Call.realloc p n).after live q).map Prod.fst := by
          rw [hlist, List.map_cons, List.mem_cons]
          rintro (h | h)
          · exact hqp h.symm
          · exact (LiveRep.mem_map_dropPtr.mp h).2 rfl
        exact Or.inr ⟨hgone, fun t ht => hgone (hi'.live.all p t ht)⟩
  · refine ⟨fun hq => absurd rfl hq, fun _ => ⟨?_, fun _ _ _ => rfl⟩⟩
    rw [hafter]
    exact hp

/-- The first block of 100 bytes grows to 200. -/
theorem first_realloc : ∃ h h', Reachable h [(424, 100)] ∧
    mmRealloc h 424 200 = some (h', 424) := by
  obtain ⟨h, hrun, hsize⟩ := first_malloc
  have hval : (mmRealloc h 424 200).map Prod.snd = some 424 :=
    eval_first hrun (fun h => (mmRealloc h 424 200).map Prod.snd) (by decide +kernel)
  obtain ⟨⟨h', q⟩, hrun', rfl⟩ := Option.map_eq_some_iff.mp hval
  exact ⟨h, h', reachable_first hrun hsize, hrun'⟩

theorem realloc_contents_first : ∃ h h', mmRealloc h 424 200 = some (h', 424) ∧
    ∀ i < 100, h'.mem (424 + i) = h.mem (424 + i) := by
  obtain ⟨h, h', hr, hrun⟩ := first_realloc
  have hc := realloc_contents hr (p := 424) (s := 100) (by simp) (by norm_num)
    (by rw [maxRequest_eq]; norm_num) hrun
  exact ⟨h, h', hrun, fun i hi => (hc.1 (by norm_num)).2.2.1 i (by omega)⟩

/-! ## Failure -/

/-- **Out of memory leaves the heap untouched.**  When `mm_malloc` or `mm_realloc` returns
null, no byte, no list, no entry of `heap[]` and no variable has changed, and the client
has the same live pointers. -/
theorem null_untouched {h h' : Heap} {live : List (ℕ × ℕ)} {n : ℕ} (hr : Reachable h live)
    (hn : 0 < n) (hmax : n ≤ maxRequest) :
    (mmMalloc h n = some (h', 0) → h' = h ∧ (Call.malloc n).after live 0 = live) ∧
      ∀ p s, (p, s) ∈ live → mmRealloc h p n = some (h', 0) →
        h' = h ∧ (p, s) ∈ (Call.realloc p n).after live 0 := by
  obtain ⟨bs, L, hi⟩ := hr.inv
  constructor
  · intro hrun
    rcases hi.call (c := .malloc n) hmax hrun with ⟨bs', L', hstep, -, -⟩ | ⟨hh, -, hafter, -⟩
    · exact absurd rfl (hstep.ne_zero hi.settled hn)
    · exact ⟨hh, hafter⟩
  · intro p s hp hrun
    obtain ⟨t, hheld, -⟩ := hi.extent hp
    rcases hi.realloc hheld hn hmax hrun with ⟨hq, -⟩ | ⟨-, hh, hafter⟩
    · exact absurd rfl hq
    · rw [hafter]
      exact ⟨hh, hp⟩

/-- After a first block the largest request is refused, by both calls. -/
theorem null_untouched_first : ∃ h, Reachable h [(424, 100)] ∧
    mmMalloc h maxRequest = some (h, 0) ∧ mmRealloc h 424 maxRequest = some (h, 0) := by
  obtain ⟨h, hrun, hsize⟩ := first_malloc
  have hval := eval_first (v := (0, 0)) hrun (fun h => (mmMalloc h maxRequest).bind fun a =>
    (mmRealloc h 424 maxRequest).map fun b => (a.2, b.2)) (by decide +kernel)
  obtain ⟨⟨h₁, q₁⟩, h₁run, hval⟩ := Option.bind_eq_some_iff.mp hval
  obtain ⟨⟨h₂, q₂⟩, h₂run, hq⟩ := Option.map_eq_some_iff.mp hval
  obtain ⟨rfl, rfl⟩ := Prod.mk.inj hq
  have hr := reachable_first hrun hsize
  have hpos : 0 < maxRequest := by
    rw [maxRequest_eq]
    norm_num
  have hsame₁ := ((null_untouched hr hpos le_rfl).1 h₁run).1
  have hsame₂ := ((null_untouched hr hpos le_rfl).2 424 100 (by simp) h₂run).1
  rw [hsame₁] at h₁run
  rw [hsame₂] at h₂run
  exact ⟨h, hr, h₁run, h₂run⟩

/-- The last block asks `mem_sbrk` only. -/
theorem Rep.realloc_last_refused {h : Heap} {bs : List Block} {L : ℕ → List ℕ} {p n k : ℕ}
    (hr : Rep h bs L) (hs : Settled bs) (hlt : n < 2 ^ 32) (hgrow : Grows p n bs k)
    (hfull : MAX_HEAP < h.memBrk + k) : mmRealloc h p n = some (h, 0) := by
  cases hgrow with
  | @grow xs s hshort hp =>
      subst hp
      have hsize := hs.sizes ⟨s, .alloc⟩ (by simp)
      simp only at hsize
      have halign : align (n + 8 - s) = 8 * ((n + 8 - s + 7) / 8) := align_eq (by omega)
      have hm := hr.mmRealloc_eq (by omega) hlt
      rw [if_neg (not_le.mpr hshort), if_pos (hr.nextBlock_size.2.mpr rfl),
        hr.reallocGrow_refused halign (by omega) hfull] at hm
      exact Call.run_of_logged (c := .realloc (420 + total Block.size xs + 4) n) hm

/-- **When `mm_realloc` succeeds**, for a size for which `mm_malloc` would: unless the
block is the last one and `mem_sbrk` refuses the bytes it is short of, or the block has to
move and freeing the old one forms a free block too large for every list. -/
theorem realloc_succeeds_iff {h h₁ : Heap} {live : List (ℕ × ℕ)} {p s n r : ℕ}
    (hr : Admitted h live) (hp : (p, s) ∈ live) (hn : 0 < n) (hmax : n ≤ maxRequest)
    (hm : mmMalloc h n = some (h₁, r)) (hr0 : r ≠ 0) :
    (∃ h' q, mmRealloc h p n = some (h', q) ∧ q ≠ 0) ↔
      (∀ k, Grows p n (blocks h) k → h.memBrk + k ≤ MAX_HEAP) ∧
        ∀ t, Forms h (blocks h) (.realloc p n) t → t ≤ 2 ^ 24 := by
  obtain ⟨bs, L, hi⟩ := hr.inv
  obtain ⟨u, hheld, -⟩ := hi.extent hp
  rw [hi.rep.blocks_eq hi.settled]
  have hlt : n < 2 ^ 32 := by
    have := maxRequest_eq
    omega
  constructor
  · rintro ⟨h', q, hrun, hq⟩
    refine ⟨fun k hgrow => ?_, fun t hforms => ?_⟩
    · by_contra hfull
      rw [hi.rep.realloc_last_refused hi.settled hlt hgrow (not_le.mp hfull)] at hrun
      simp only [Option.some.injEq, Prod.mk.injEq] at hrun
      exact hq hrun.2.symm
    · exact hi.rep.forms_le hi.settled (c := .realloc p n) hmax hrun hforms
  · rintro ⟨hroom, hfits⟩
    rcases hi.rep.realloc_outcomes hi.settled hheld hn hmax with
      ⟨bs', L', q, es, hstep, -, hall⟩ | ⟨k, -, hask, hfull, -⟩ | ⟨t, es, b, hforms, hbig, -⟩
    · obtain ⟨h', hrun, -⟩ := hall h hi.rep
      exact ⟨h', q, Call.run_of_logged (c := .realloc p n) hrun, hstep.ne_zero hi.settled hn⟩
    · -- `mem_sbrk` refused: for the last block, or in `mm_malloc`, which contradicts `hm`
      exfalso
      cases hask with
      | reallocNull _ _ =>
          have := hheld.bounds
          omega
      | grow hshort => exact absurd (hroom _ (.grow hshort rfl)) (not_le.mpr hfull)
      | move _ _ _ hnone =>
          have := Call.run_of_logged (c := .malloc n)
            (hi.rep.mmMalloc_refused hn hmax (hi.rep.findFit_none hnone) hfull)
          have heq := Prod.mk.inj (Option.some.inj (this.symm.trans hm))
          exact hr0 heq.2.symm
    · exact absurd (hfits t hforms) (not_le.mpr hbig)

/-- The first block of 100 bytes, for which there is room to grow. -/
theorem realloc_succeeds_iff_first : ∃ h, Reachable h [(424, 100)] ∧
    ∀ k, Grows 424 200 (blocks h) k → h.memBrk + k ≤ MAX_HEAP := by
  obtain ⟨h, hrun, hsize⟩ := first_malloc
  have hval := eval_first (v := (536, 424)) hrun (fun h => (mmMalloc h 200).bind fun a =>
    (mmRealloc h 424 200).map fun b => (a.2, b.2)) (by decide +kernel)
  obtain ⟨⟨h₁, q₁⟩, h₁run, hval⟩ := Option.bind_eq_some_iff.mp hval
  obtain ⟨⟨h₂, q₂⟩, h₂run, hq⟩ := Option.map_eq_some_iff.mp hval
  obtain ⟨rfl, rfl⟩ := Prod.mk.inj hq
  have hr := reachable_first hrun hsize
  exact ⟨h, hr, ((realloc_succeeds_iff hr.admitted (p := 424) (s := 100) (by simp) (by norm_num)
    (by rw [maxRequest_eq]; norm_num) h₁run (by norm_num)).mp
      ⟨h₂, 424, h₂run, by norm_num⟩).1⟩

/-- The last block has 4000000 bytes, a free block has 16000000, and the break has no room
for another million: `mm_malloc(5000000)` takes the free block, `mm_realloc` returns
null. -/
theorem realloc_fails_last : ∃ h h₁ h₂ live, Admitted h live ∧ (16000432, 4000000) ∈ live ∧
    (∀ s, ⟨s, .free⟩ ∈ blocks h → s ≤ 2 ^ 24) ∧
    mmMalloc h 5000000 = some (h₁, 424) ∧ mmRealloc h 16000432 5000000 = some (h₂, 0) := by
  obtain ⟨h, hruns, hr⟩ := @admitted_of_runs [.malloc 16000000, .malloc 4000000, .free 424]
    [(16000432, 4000000)] [424, 16000432, 0] (by decide +kernel)
  have hval : ((runs (mmInit (memInit 0 fun _ => 0)).1 []
      [.malloc 16000000, .malloc 4000000, .free 424]).bind fun r =>
        (mmMalloc r.1 5000000).bind fun a => (mmRealloc r.1 16000432 5000000).map fun b =>
          (a.2, b.2)) = some (424, 0) := by decide +kernel
  rw [hruns, Option.bind_some, Option.bind_eq_some_iff] at hval
  obtain ⟨⟨h₁, q₁⟩, h₁run, hval⟩ := hval
  obtain ⟨⟨h₂, q₂⟩, h₂run, hq⟩ := Option.map_eq_some_iff.mp hval
  obtain ⟨rfl, rfl⟩ := Prod.mk.inj hq
  obtain ⟨bs, L, hi⟩ := hr.inv
  refine ⟨h, h₁, h₂, _, hr, by simp, fun s hs => ?_, h₁run, h₂run⟩
  rw [hi.rep.blocks_eq hi.settled] at hs
  obtain ⟨xs, ys, rfl⟩ := List.append_of_mem hs
  exact hi.rep.classes _ s (mem_placed_split Block.size 420 xs ⟨s, .free⟩ ys)

end Malloc
