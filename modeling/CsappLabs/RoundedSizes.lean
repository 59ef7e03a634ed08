/-
# Requests whose rounding wraps

`mm_malloc` rounds a request with `size + DSIZE + (DSIZE - 1)`, modulo `2 ^ 32`.  From
`2 ^ 32 - 15` on the sum wraps, and the block that is asked for has 0 or 8 bytes.

A request for 0 bytes takes any free block, and with none it has `extend_heap` make a block
of size zero, for which there is no list (`extendHeap_zero`).  A request for 8 bytes takes
any free block as well, or appends 8 bytes.  So the only way out is that `mem_sbrk` refuses
the 8 bytes (`mmMalloc_wrapped`).  `mm_realloc` has the same rounding where it moves a block;
where it does not move one it computes with differences that do not wrap.
-/
import CsappLabs.HeapRuns
import CsappLabs.HeapBreak

open WordMemory LinkedChain Layout Effects Prog

namespace Malloc

/-! ## The rounding -/

/-- Beyond `maxRequest` the rounded size is 0 or 8. -/
theorem adjustSize_wrapped {n : ℕ} (hbig : maxRequest < n) (hlt : n < 2 ^ 32) :
    adjustSize n = if 2 ^ 32 - 7 ≤ n then 8 else 0 := by
  have hval := maxRequest_eq
  unfold adjustSize u32
  change (if n ≤ 8 then 2 * 8 else (8 * ((n + 8 + (8 - 1)) % 2 ^ 32 / 8)) % 2 ^ 32) = _
  rw [if_neg (by omega)]
  have hsum : (n + 8 + (8 - 1)) % 2 ^ 32 = n + 15 - 2 ^ 32 := by omega
  rw [hsum]
  split_ifs <;> omega

/-! ## A block of size zero -/

/-- Two stores of zero leave the first word zero, wherever the second one goes. -/
theorem read32_zeros (m : Mem) (a b : ℕ) : read32 (write32 (write32 m a 0) b 0) a = 0 := by
  have hbyte : ∀ x, a ≤ x → x < a + 4 → write32 (write32 m a 0) b 0 x = 0 := by
    intro x hx hx'
    have hfirst : write32 m a 0 x = 0 := by
      obtain rfl | rfl | rfl | rfl : x = a ∨ x = a + 1 ∨ x = a + 2 ∨ x = a + 3 := by omega
      all_goals simp [write32]
    by_cases hout : x < b ∨ b + 4 ≤ x
    · rw [write32_apply_of_disjoint _ _ hout, hfirst]
    · obtain rfl | rfl | rfl | rfl : x = b ∨ x = b + 1 ∨ x = b + 2 ∨ x = b + 3 := by omega
      all_goals simp [write32]
  have hword : read32 (write32 (write32 m a 0) b 0) a = read32 (fun _ => 0) a :=
    read32_congr hbyte
  rw [hword]
  rfl

/-- There is no list for a block of size zero. -/
theorem heapAdd_zero {h : Heap} {bp : ℕ} (hzero : read32 h.mem (hdrp bp) = 0) :
    heapAdd h bp = none := by
  have hsize : getSize h (hdrp bp) = 0 := getSize_eq (b := ⟨0, .loose⟩) hzero rfl
  rw [heapAdd, hsize]
  rfl

/-- **`coalesce` of a block of size zero** at the epilogue does not return: it takes the
block for its own free neighbour, and has nothing to file. -/
theorem coalesce_zero {h : Heap} {p : ℕ} (hp : 4 ≤ p) (hhead : read32 h.mem p = 1)
    (hfoot : read32 h.mem (p - 4) = 0) : coalesce h (p + 12) = none := by
  have hsize : getSize h p = 0 := getSize_eq (b := ⟨0, .alloc⟩) hhead rfl
  have hlow : p + 12 - DSIZE - DSIZE = p - 4 := by
    change p + 12 - 8 - 8 = _
    omega
  have hprev : prevBlkp h (p + 12) = p + 12 := by
    rw [prevBlkp, hlow, getSize_eq (b := ⟨0, .loose⟩) hfoot rfl, Nat.sub_zero]
  have hnext : nextBlkp h (p + 12) = p + 12 := nextBlkp_of_header (b := ⟨0, .alloc⟩) hhead rfl
  have hftrp : ftrp h (p + 12) = p - 4 := ftrp_of_header (b := ⟨0, .alloc⟩) hhead rfl
  have hprevAlloc : getAlloc h (p - 4) = 0 := getAlloc_eq (b := ⟨0, .loose⟩) hfoot rfl
  have hnextAlloc : getAlloc h p = 1 := getAlloc_eq (b := ⟨0, .alloc⟩) hhead rfl
  simp only [coalesce, hprev, hnext, hftrp, hdrp_add, hsize, hprevAlloc, hnextAlloc]
  cases hremove : heapRemove h (p + 12) with
  | none => simp [coalescePrev, hremove]
  | some g =>
      have hprev' : coalescePrev h 0 (p + 12) (p + 12) 0 =
          some (g, prevBlkp g (p + 12), 0) := by
        simp [coalescePrev, hremove, hdrp_add, hsize, u32]
      have hnext' : coalesceNext g 1 (p + 12) 0 = some (g, 0) := rfl
      simp only [hprev', hnext', Option.bind_eq_bind, Option.bind_some]
      rw [heapAdd_zero (read32_zeros _ _ _)]
      rfl

namespace Rep

variable {h : Heap} {bs : List Block} {L : ℕ → List ℕ}

/-- **`extend_heap` of no bytes** does not return. -/
theorem extendHeap_zero (hr : Rep h bs L) : extendHeap h 0 = none := by
  have hbrk := hr.brk
  have hsmall := hr.small
  obtain ⟨p, hp⟩ : ∃ p, p = 420 + total Block.size bs := ⟨_, rfl⟩
  have hsbrk : memSbrk h (toInt 0) = (h, h.memBrk) := by
    rw [hr.memSbrk_eq (by norm_num), if_pos (by omega)]
    rfl
  have hne := hr.memBrk_ne
  have hbp : h.memBrk + DSIZE = p + 12 := by
    change h.memBrk + 8 = _
    omega
  -- the header, the footer four bytes below it, and the epilogue over the header
  obtain ⟨h₁, hh₁⟩ : ∃ h₁, h₁ = put h p 0 := ⟨_, rfl⟩
  have hftrp : ftrp h₁ (p + 12) = p - 4 := by
    have hword : read32 h₁.mem p = 0 := hh₁ ▸ read32_write32_same _ _ (by norm_num)
    exact ftrp_of_header (b := ⟨0, .loose⟩) hword rfl
  obtain ⟨h₂, hh₂⟩ : ∃ h₂, h₂ = put h₁ (p - 4) 0 := ⟨_, rfl⟩
  have hnext : nextBlkp h₂ (p + 12) = p + 12 := by
    have hword : read32 h₂.mem p = 0 := by
      rw [hh₂, hh₁]
      exact read32_zeros _ _ _
    exact nextBlkp_of_header (b := ⟨0, .loose⟩) hword rfl
  have hpack : pack 0 0 = 0 := rfl
  have hpack' : pack 0 1 = 1 := rfl
  have hrun : extendHeap h 0 = coalesce (put h₂ p 1) (p + 12) := by
    have hsize : u32 (0 * WSIZE) = 0 := rfl
    simp only [extendHeap, Nat.zero_mod, ne_eq, not_true_eq_false, if_false, hsize, hsbrk, hne,
      hbp, hdrp_add, hpack, hpack', ← hh₁, hftrp, ← hh₂, hnext]
  rw [hrun]
  apply coalesce_zero (by omega)
  · exact read32_write32_same _ _ (by norm_num)
  · show read32 (write32 h₂.mem p 1) (p - 4) = 0
    rw [read32_write32_disjoint _ _ (by omega), hh₂]
    exact read32_write32_same _ _ (by norm_num)

end Rep

/-! ## What is returned -/

/-- Without a free block the last block is allocated. -/
theorem Settled.prev_alloc {bs : List Block} (hs : Settled bs) (hnone : ∀ s, ⟨s, .free⟩ ∉ bs) :
    (prevBlock bs).tag = .alloc := by
  obtain ⟨us, l, rfl, ⟨rfl, htag⟩ | ⟨a, rfl⟩⟩ := hs.exists_leftFree
  · rwa [List.append_nil]
  · exact absurd (by simp) (hnone a)

/-- `coalesce` after an allocated block keeps the pointer. -/
theorem coalesce_keeps {h h' : Heap} {bp bp' : ℕ}
    (hprev : getAlloc h (ftrp h (prevBlkp h bp)) = 1) (hrun : coalesce h bp = some (h', bp')) :
    bp' = bp := by
  simp only [coalesce, hprev, coalescePrev, one_ne_zero, if_false, Option.bind_eq_bind,
    Option.bind_some, Option.bind_eq_some_iff, Option.some.injEq, Prod.mk.injEq] at hrun
  obtain ⟨-, -, -, -, -, hbp⟩ := hrun
  exact hbp.symm

/-- `place` returns the pointer of its block. -/
theorem place_returns {h h' : Heap} {bp asize q : ℕ} (hrun : place h bp asize = some (h', q)) :
    q = bp - DSIZE := by
  simp only [place, Option.bind_eq_bind, Option.bind_eq_some_iff] at hrun
  obtain ⟨g, -, hrun⟩ := hrun
  split_ifs at hrun
  · simp only [Option.bind_eq_some_iff, Option.some.injEq, Prod.mk.injEq] at hrun
    obtain ⟨-, -, -, hq⟩ := hrun
    exact hq.symm
  · simp only [Option.some.injEq, Prod.mk.injEq] at hrun
    exact hrun.2.symm

namespace Rep

variable {h : Heap} {bs : List Block} {L : ℕ → List ℕ}

/-- **`extend_heap` of eight bytes**, with no free block before them: the pointer of the new
block, unless the call does not return. -/
theorem extendHeap_eight (hr : Rep h bs L) (hs : Settled bs) (hnone : ∀ s, ⟨s, .free⟩ ∉ bs)
    (hfit : h.memBrk + 8 ≤ MAX_HEAP) {h' : Heap} {bp : ℕ}
    (hrun : extendHeap h 2 = some (h', bp)) : bp = h.memBrk + 8 := by
  have hbrk := hr.brk
  obtain ⟨p, hp⟩ : ∃ p, p = 420 + total Block.size bs := ⟨_, rfl⟩
  obtain ⟨h₀, hh₀⟩ : ∃ h₀ : Heap, h₀ = { h with memBrk := h.memBrk + 8 } := ⟨_, rfl⟩
  have hsbrk : memSbrk h (toInt 8) = (h₀, h.memBrk) := by
    rw [hr.memSbrk_eq (by norm_num), if_pos hfit, hh₀]
  have hne := hr.memBrk_ne
  have hbp : h.memBrk + DSIZE = p + 12 := by
    change h.memBrk + 8 = _
    omega
  obtain ⟨h₁, hh₁⟩ : ∃ h₁, h₁ = put h₀ p 8 := ⟨_, rfl⟩
  have hftrp : ftrp h₁ (p + 12) = p + 4 := by
    have hword : read32 h₁.mem p = 8 := hh₁ ▸ read32_write32_same _ _ (by norm_num)
    exact ftrp_of_header (b := ⟨8, .loose⟩) hword rfl
  obtain ⟨h₂, hh₂⟩ : ∃ h₂, h₂ = put h₁ (p + 4) 8 := ⟨_, rfl⟩
  have hnext : hdrp (nextBlkp h₂ (p + 12)) = p + 8 := by
    have hword : read32 h₂.mem p = 8 := by
      rw [hh₂, hh₁]
      show read32 (write32 (write32 h₀.mem p 8) (p + 4) 8) p = 8
      rw [read32_write32_disjoint _ _ (by omega), read32_write32_same _ _ (by norm_num)]
    rw [nextBlkp_of_header (b := ⟨8, .loose⟩) hword rfl, hdrp_add]
  have hout : EqOutside h.mem (put h₂ (p + 8) 1).mem p (p + 12) := by
    rw [hh₂, hh₁, hh₀]
    exact (((EqOutside.refl h.mem p (p + 12)).write32 8 (by omega) (by omega)).write32 8
      (by omega) (by omega)).write32 1 (by omega) (by omega)
  have hcoalesce : coalesce (put h₂ (p + 8) 1) (p + 12) = some (h', bp) := by
    have hsize : u32 (2 * WSIZE) = 8 := rfl
    have hpack : pack 8 0 = 8 := rfl
    have hpack' : pack 0 1 = 1 := rfl
    rw [← hrun]
    simp only [extendHeap, Nat.mod_self, ne_eq, not_true_eq_false, if_false, hsize, hsbrk, hne,
      hbp, hdrp_add, hpack, hpack', ← hh₁, hftrp, ← hh₂, hnext]
  -- the block before it keeps its tags, and is allocated
  have hr' : Rep h (bs ++ []) L := by rwa [List.append_nil]
  obtain ⟨hle, htag⟩ := hr'.tagged_prev
  rw [← hp] at hle htag
  have htag' := htag.of_eqOutside hout (Or.inl (by omega))
  have hprev := @Tagged.prevAlloc_eq (put h₂ (p + 8) 1) _ _ htag' (by omega) (p + 12) rfl
  rw [hs.prev_alloc hnone] at hprev
  rw [coalesce_keeps hprev hcoalesce]
  exact hbp.symm

/-- **`mm_malloc` of a size whose rounding wraps** returns null in one case only: the size is
rounded to eight bytes, no block is free, and `mem_sbrk` refuses eight bytes. -/
theorem mmMalloc_wrapped (hr : Rep h bs L) (hs : Settled bs) {n : ℕ} (hbig : maxRequest < n)
    (hlt : n < 2 ^ 32) {h' : Heap} :
    mmMalloc h n = some (h', 0) ↔
      h' = h ∧ 2 ^ 32 - 7 ≤ n ∧ (∀ s, ⟨s, .free⟩ ∉ bs) ∧ MAX_HEAP < h.memBrk + 8 := by
  have hbrk := hr.brk
  have hn0 : n ≠ 0 := by omega
  have hsize := adjustSize_wrapped hbig hlt
  have hplace : ∀ {g : Heap} {bp a : ℕ}, 8 < bp → place g bp a ≠ some (h', 0) := by
    intro g bp a hbp hrun
    have hq := place_returns hrun
    change 0 = bp - 8 at hq
    omega
  rcases hr.findFit_spec (adjustSize n) with ⟨hfind, hsmall⟩ | ⟨xs, s, ys, rfl, hle, hfind⟩
  · have hnone : ∀ s, ⟨s, .free⟩ ∉ bs := by
      intro s hmem
      have hmin := (hs.sizes _ hmem).2
      have hless := hsmall s hmem
      rw [hsize] at hless
      simp only at hmin
      split_ifs at hless <;> omega
    have hrun : mmMalloc h n = (extendHeap h (adjustSize n / WSIZE)).bind fun r =>
        if r.2 = 0 then some (r.1, 0) else place r.1 r.2 (adjustSize n) := by
      simp only [mmMalloc, hn0, if_false, hfind, Option.bind_eq_bind, Option.bind_some, ne_eq,
        not_true_eq_false]
    by_cases hseven : 2 ^ 32 - 7 ≤ n
    · rw [if_pos hseven] at hsize
      rw [hrun, hsize]
      by_cases hfull : MAX_HEAP < h.memBrk + 8
      · have hrefused : extendHeap h (8 / WSIZE) = some (h, 0) :=
          ((Logged.erases_extendHeap h (8 / WSIZE)).ok_iff (h, 0)).mp
            (by rw [hr.extendHeap_refused rfl (by norm_num) hfull])
        rw [hrefused, Option.bind_some, if_pos rfl, Option.some.injEq, Prod.mk.injEq]
        exact ⟨fun he => ⟨he.1.symm, hseven, hnone, hfull⟩, fun he => ⟨he.1.symm, rfl⟩⟩
      · refine iff_of_false (fun hret => ?_) fun he => hfull he.2.2.2
        obtain ⟨⟨g, bp⟩, hextend, hrest⟩ := Option.bind_eq_some_iff.mp hret
        obtain rfl : bp = h.memBrk + 8 := hr.extendHeap_eight hs hnone (by omega) hextend
        rw [if_neg (by simp)] at hrest
        exact hplace (by omega) hrest
    · rw [if_neg hseven] at hsize
      have hzero : extendHeap h (0 / WSIZE) = none := hr.extendHeap_zero
      rw [hrun, hsize, hzero]
      exact iff_of_false (by simp) fun he => hseven he.2.1
  · refine iff_of_false (fun hret => ?_) fun he => he.2.2.1 s (by simp)
    have hbp : 420 + total Block.size xs + 12 ≠ 0 := by omega
    simp only [mmMalloc, hn0, if_false, hfind, Option.bind_eq_bind, Option.bind_some, ne_eq, hbp,
      not_false_eq_true, if_true] at hret
    exact hplace (by omega) hret

end Rep

/-! ## The condition of a call -/

/-- What a client may call, with any size that a `size_t` holds. -/
def Callable (live : List (ℕ × ℕ)) : Call → Prop
  | .malloc n => n < 2 ^ 32
  | .free p => p ∈ live.map Prod.fst
  | .realloc p n => (p = 0 ∨ p ∈ live.map Prod.fst) ∧ n < 2 ^ 32

/-- The rounding of `n` in `mm_malloc` does not wrap, or it wraps to eight bytes that the
heap does not have. -/
def Rounds (h : Heap) (n : ℕ) : Prop :=
  n ≤ maxRequest ∨
    2 ^ 32 - 7 ≤ n ∧ (∀ s, ⟨s, .free⟩ ∉ blocks h) ∧ MAX_HEAP < h.memBrk + 8

/-- The call has `mm_malloc` round its size. -/
def Allocates (bs : List Block) : Call → Prop
  | .malloc _ => True
  | .free _ => False
  | .realloc p n => p = 0 ∨ Moves p n bs

/-- The size of the call is rounded well, and no free block that it forms is too large for
the free lists. -/
structure Meets (h : Heap) (c : Call) : Prop where
  rounds : Allocates (blocks h) c → Rounds h c.request
  classes : ∀ t, Forms h (blocks h) c t → t ≤ 2 ^ 24

/-- What is due to a request for `n` bytes: the call returns and leaves the heap well formed,
and it returns null or a block of the heap with room for `n` bytes. -/
def Answers (n : ℕ) (r : Option (Heap × ℕ)) : Prop :=
  ∃ h' q, r = some (h', q) ∧ (∃ L, WellFormed h' L) ∧
    (q = 0 ∨ ∃ t, Held (blocks h') q t ∧ n ≤ t - 8 ∧ h'.memStartBrk ≤ q ∧
      q + (t - 8) ≤ h'.memBrk)

theorem callable_iff {live : List (ℕ × ℕ)} {c : Call} (hsmall : c.request ≤ maxRequest) :
    Callable live c ↔ Legal live c := by
  have hval := maxRequest_eq
  cases c with
  | malloc n => exact iff_of_true (by change n ≤ _ at hsmall; show n < 2 ^ 32; omega) hsmall
  | free p => exact Iff.rfl
  | realloc p n =>
      refine and_congr Iff.rfl (iff_of_true ?_ hsmall)
      change n ≤ _ at hsmall
      omega

theorem Callable.request_lt {live : List (ℕ × ℕ)} {c : Call} (hc : Callable live c) :
    c.request < 2 ^ 32 := by
  cases c with
  | malloc n => exact hc
  | free p => norm_num [Call.request]
  | realloc p n => exact hc.2

/-- `mm_realloc` by moving returns null when `mm_malloc` does. -/
theorem reallocMove_null_iff {h h' : Heap} {p n k : ℕ} :
    reallocMove h p n k = some (h', 0) ↔ mmMalloc h n = some (h', 0) := by
  simp only [reallocMove, Option.bind_eq_bind, Option.bind_eq_some_iff, Prod.exists]
  constructor
  · rintro ⟨g, q, hmalloc, hrest⟩
    split_ifs at hrest with hq
    · cases hrest
      rw [hmalloc, hq]
    · simp only [Option.bind_eq_some_iff, Option.some.injEq, Prod.mk.injEq] at hrest
      obtain ⟨-, -, -, hzero⟩ := hrest
      exact absurd hzero hq
  · intro hmalloc
    exact ⟨h', 0, hmalloc, if_pos rfl⟩

namespace Rep

variable {h : Heap} {bs : List Block} {L : ℕ → List ℕ}

/-- The break does not leave the heap, whatever the call. -/
theorem memBrk_le_of_run (hr : Rep h bs L) {c : Call} {h' : Heap} {q : ℕ}
    (hrun : c.run h = some (h', q)) : h'.memBrk ≤ MAX_HEAP := by
  have htraced := traced_call h c
  have hmoved := htraced.moved (h', q) (((c.erases h).ok_iff (h', q)).mpr hrun)
  have hpath := htraced.path
  rw [hr.maxAddr] at hpath
  rw [hmoved.brk]
  exact hpath.lastBrk_le hr.small

/-- A block with room for more than `maxRequest` bytes does not fit in the heap. -/
theorem null_of_answers (hr : Rep h bs L) {c : Call} {n : ℕ} (hbig : maxRequest < n)
    (hans : Answers n (c.run h)) : ∃ h', c.run h = some (h', 0) := by
  obtain ⟨h', q, hrun, -, rfl | ⟨t, -, hroom, -, hend⟩⟩ := hans
  · exact ⟨h', hrun⟩
  · have hbrk := hr.memBrk_le_of_run hrun
    have hval := maxHeap_eq
    have hval' := maxRequest_eq
    omega

/-- Nor does a call for so many bytes form a free block. -/
theorem not_forms (hr : Rep h bs L) {c : Call} {t : ℕ} (hbig : maxRequest < c.request) :
    ¬ Forms h bs c t := by
  have hbrk := hr.brk
  have hsmall := hr.small
  have hval := maxHeap_eq
  have hval' := maxRequest_eq
  have hmalloc : ∀ {n t}, maxRequest < n → ¬ Forms h bs (.malloc n) t := by
    intro n t hbig hf
    have hblock := (le_blockSize n).1
    cases hf with
    | malloc _ _ hroom _ => omega
  intro hf
  cases hf with
  | malloc hn hnone hroom hext => exact hmalloc hbig (.malloc hn hnone hroom hext)
  | free _ => exact absurd hbig (by simp [Call.request])
  | reallocNull hf => exact hmalloc hbig hf
  | reallocZero _ => exact absurd hbig (by simp [Call.request])
  | moveExtend _ hf => exact hmalloc hbig hf
  | @moveFree p n q t bs' hmove hstep _ hroom _ =>
      have hblock := (le_blockSize n).1
      change maxRequest < n at hbig
      cases hstep with
      | fit hle =>
          simp only [total_append, total_cons] at hbrk
          omega
      | extend _ _ =>
          rw [total_append, total_splitBlock (by omega)] at hroom
          omega

end Rep

/-! ## A call that meets the condition -/

section Call

variable {h : Heap} {live : List (ℕ × ℕ)} {bs : List Block} {L : ℕ → List ℕ} {c : Call}

/-- A refused call for some bytes leaves the live pointers as they are. -/
theorem Call.after_null (live : List (ℕ × ℕ)) (hn : c.request ≠ 0) : c.after live 0 = live := by
  cases c with
  | malloc n => rfl
  | free p => exact absurd rfl hn
  | realloc p n =>
      change n ≠ 0 at hn
      rw [Call.after, if_neg hn, if_pos rfl]

theorem Inv.rounds_iff (hi : Inv h live bs L) {n : ℕ} (hbig : maxRequest < n) :
    Rounds h n ↔ 2 ^ 32 - 7 ≤ n ∧ (∀ s, ⟨s, .free⟩ ∉ bs) ∧ MAX_HEAP < h.memBrk + 8 := by
  rw [Rounds, hi.rep.blocks_eq hi.settled]
  exact or_iff_right (not_le.mpr hbig)

/-- A call for more than `maxRequest` bytes that has `mm_malloc` round them returns null
exactly when they are rounded well. -/
theorem Inv.null_iff (hi : Inv h live bs L) (hbig : maxRequest < c.request)
    (hlt : c.request < 2 ^ 32) (hc : Allocates bs c) {h' : Heap} :
    c.run h = some (h', 0) ↔ h' = h ∧ Rounds h c.request := by
  rw [hi.rounds_iff hbig, ← hi.rep.mmMalloc_wrapped hi.settled hbig hlt]
  cases c with
  | malloc n => exact Iff.rfl
  | free p => exact hc.elim
  | realloc p n =>
      show mmRealloc h p n = _ ↔ mmMalloc h n = _
      rcases hc with rfl | hmove
      · rw [mmRealloc, if_pos rfl]
      · change maxRequest < n at hbig
        change n < 2 ^ 32 at hlt
        obtain ⟨s, -, -, hrun⟩ := Rep.realloc_moves (L := L) hi.settled (by omega) hlt hmove
        have hsame : mmRealloc h p n = reallocMove h p n (s - 8) := by
          rw [← (Logged.erases_mmRealloc h p n), ← (Logged.erases_reallocMove h p n (s - 8)),
            hrun h hi.rep]
        rw [hsame]
        exact reallocMove_null_iff

/-- **A call that meets the condition** returns, and the heap it leaves satisfies the
invariant. -/
theorem Inv.meets (hi : Inv h live bs L) (hc : Callable live c) (hm : Meets h c) :
    ∃ h' q bs' L', c.run h = some (h', q) ∧ Inv h' (c.after live q) bs' L' := by
  have hclasses := hm.classes
  rw [hi.rep.blocks_eq hi.settled] at hclasses
  have hrounds := hm.rounds
  rw [hi.rep.blocks_eq hi.settled] at hrounds
  by_cases hsmall : c.request ≤ maxRequest
  · cases hi.rep.outcomes hi.settled hi.live ((callable_iff hsmall).mp hc) with
    | done hstep _ hall =>
        obtain ⟨g, hlog, hr', -⟩ := hall h hi.rep
        exact ⟨_, _, _, _, Call.run_of_logged hlog, hr', hstep.settled hi.settled,
          hstep.live hi.settled hi.live⟩
    | refused hask _ _ hall =>
        refine ⟨h, 0, bs, L, Call.run_of_logged (hall h hi.rep), ?_⟩
        rwa [hask.after hi.settled live]
    | overflow hforms hbig _ _ => exact absurd (hclasses _ hforms) (not_le.mpr hbig)
  · have hbig := not_le.mp hsmall
    have hnull : c.run h = some (h, 0) → ∃ h' q bs' L', c.run h = some (h', q) ∧
        Inv h' (c.after live q) bs' L' := by
      intro hrun
      refine ⟨h, 0, bs, L, hrun, ?_⟩
      rwa [Call.after_null live (by omega)]
    by_cases halloc : Allocates bs c
    · exact hnull ((hi.null_iff hbig hc.request_lt halloc).mpr ⟨rfl, hrounds halloc⟩)
    cases c with
    | malloc n => exact absurd trivial halloc
    | free p => exact absurd hbig (by simp [Call.request])
    | realloc p n =>
        obtain ⟨hp, hlt⟩ := hc
        obtain ⟨hp0, hstay⟩ := not_or.mp halloc
        obtain ⟨⟨p, k⟩, hmem, rfl⟩ := List.mem_map.mp (hp.resolve_left hp0)
        obtain ⟨-, s, -, hheld⟩ := hi.live.held p k hmem
        change maxRequest < n at hbig
        rcases hi.rep.realloc_stays hi.settled hheld (by omega) hlt hstay with
          ⟨bs', L', es, hstep, -, hall⟩ | ⟨k, -, -, -, hall⟩
        · obtain ⟨g, hlog, hr', -⟩ := hall h hi.rep
          exact ⟨g, p, bs', L', Call.run_of_logged hlog, hr', hstep.settled hi.settled,
            hstep.live hi.settled hi.live⟩
        · exact hnull (Call.run_of_logged (hall h hi.rep))

/-- What a state of a run holds for a pointer that a call returned. -/
theorem Inv.answers (hi : Inv h live bs L) {q n : ℕ} (hq : q = 0 ∨ (q, n) ∈ live) :
    Answers n (some (h, q)) := by
  refine ⟨h, q, rfl, ⟨L, hi.rep.wellFormed hi.settled⟩, hq.imp_right fun hmem => ?_⟩
  obtain ⟨t, hheld, hroom, -, hend⟩ := hi.extent hmem
  rw [hi.rep.blocks_eq hi.settled, hi.rep.startBrk]
  exact ⟨t, hheld, by omega, Nat.zero_le q, by omega⟩

/-- A call that returns forms no block that is too large. -/
theorem Inv.forms_le (hi : Inv h live bs L) {r : Heap × ℕ} (hrun : c.run h = some r) {t : ℕ}
    (hforms : Forms h bs c t) : t ≤ 2 ^ 24 := by
  apply hi.rep.forms_le hi.settled _ hrun hforms
  by_contra hlarge
  exact hi.rep.not_forms (not_le.mp hlarge) hforms

/-- A legal call that returns meets the condition. -/
theorem Inv.meets_of_run (hi : Inv h live bs L) (hc : Legal live c) {r : Heap × ℕ}
    (hrun : c.run h = some r) : Callable live c ∧ Meets h c := by
  refine ⟨(callable_iff hc.request_le).mpr hc, fun _ => Or.inl hc.request_le, ?_⟩
  rw [hi.rep.blocks_eq hi.settled]
  exact fun t => hi.forms_le hrun

/-- **A call for some bytes** is answered as it should be exactly when it meets the
condition. -/
theorem Inv.answers_iff (hi : Inv h live bs L) (hc : Callable live c) (hn : 0 < c.request) :
    Answers c.request (c.run h) ↔ Meets h c := by
  constructor
  · intro hans
    refine ⟨fun halloc => ?_, fun t hforms => ?_⟩
    · rw [hi.rep.blocks_eq hi.settled] at halloc
      by_cases hsmall : c.request ≤ maxRequest
      · exact Or.inl hsmall
      · obtain ⟨h', hrun⟩ := hi.rep.null_of_answers (not_le.mp hsmall) hans
        exact ((hi.null_iff (not_le.mp hsmall) hc.request_lt halloc).mp hrun).2
    · rw [hi.rep.blocks_eq hi.settled] at hforms
      obtain ⟨h', q, hrun, -⟩ := hans
      exact hi.forms_le hrun hforms
  · intro hm
    obtain ⟨h', q, bs', L', hrun, hi'⟩ := hi.meets hc hm
    rw [hrun]
    apply hi'.answers
    by_cases hq : q = 0
    · exact Or.inl hq
    · obtain ⟨rest, hafter, -⟩ := Call.after_eq live hq hn
      rw [hafter]
      exact Or.inr List.mem_cons_self

end Call

/-! ## Runs -/

/-- The heaps a client reaches with calls that meet the condition, of any size that a
`size_t` holds. -/
inductive Sized : Heap → List (ℕ × ℕ) → Prop where
  | init (contents : Mem) : Sized (mmInit (memInit 0 contents)).1 []
  | call {h h' : Heap} {live : List (ℕ × ℕ)} {c : Call} {q : ℕ} : Sized h live →
      Callable live c → Meets h c → c.run h = some (h', q) → Sized h' (c.after live q)
  | store {h : Heap} {live : List (ℕ × ℕ)} {p n x : ℕ} (b : UInt8) : Sized h live →
      (p, n) ∈ live → p ≤ x → x < p + n → Sized { h with mem := write8 h.mem x b } live

theorem Sized.inv {h : Heap} {live : List (ℕ × ℕ)} (hr : Sized h live) :
    ∃ bs L, Inv h live bs L := by
  induction hr with
  | init contents => exact ⟨_, _, Inv.init contents⟩
  | call _ hc hm hrun ih =>
      obtain ⟨bs, L, hi⟩ := ih
      obtain ⟨h', q, bs', L', hrun', hi'⟩ := hi.meets hc hm
      obtain ⟨rfl, rfl⟩ := Prod.mk.inj (Option.some.inj (hrun.symm.trans hrun'))
      exact ⟨bs', L', hi'⟩
  | store b _ hp hx hx' ih =>
      obtain ⟨bs, L, hi⟩ := ih
      exact ⟨bs, L, hi.store b hp hx hx'⟩

/-- The runs of legal calls are among them. -/
theorem Admitted.sized {h : Heap} {live : List (ℕ × ℕ)} (hr : Admitted h live) :
    Sized h live := by
  induction hr with
  | init contents => exact .init contents
  | call hr hc hrun ih =>
      obtain ⟨bs, L, hi⟩ := hr.inv
      obtain ⟨hc', hm⟩ := hi.meets_of_run hc hrun
      exact ih.call hc' hm hrun
  | store b _ hp hx hx' ih => exact ih.store b hp hx hx'

/-- **A request is answered as it should be** exactly when it meets the condition, in every
run whose calls all met it: `mm_malloc`, or `mm_realloc` of a live pointer, for any size from
1 to `2 ^ 32 - 1`. -/
theorem sizes_rounded {h : Heap} {live : List (ℕ × ℕ)} (hr : Sized h live) :
    (∃ L, WellFormed h L) ∧
    ∀ c, Callable live c → 0 < c.request → (Answers c.request (c.run h) ↔ Meets h c) := by
  obtain ⟨bs, L, hi⟩ := hr.inv
  exact ⟨⟨L, hi.rep.wellFormed hi.settled⟩, fun c => hi.answers_iff⟩

/-- A first request of 100 bytes. -/
theorem sizes_rounded_first :
    Answers 100 (Call.run (mmInit (memInit 0 fun _ => 0)).1 (.malloc 100)) := by
  obtain ⟨h, hrun, -⟩ := first_malloc
  obtain ⟨hc, hm⟩ := (Inv.init fun _ => 0).meets_of_run (c := .malloc 100) (by decide) hrun
  exact ((sizes_rounded (Sized.init _)).2 (.malloc 100) hc (by decide)).mpr hm

/-- After a request of 100 bytes and its release, `mm_malloc(2 ^ 32 - 1)` returns a block of
eight bytes, all of them tags. -/
theorem sizes_wrap : ∃ h h', Sized h [] ∧
    Call.run h (.malloc (2 ^ 32 - 1)) = some (h', 424) ∧ getSize h' 420 = 8 ∧
    ¬ Answers (2 ^ 32 - 1) (Call.run h (.malloc (2 ^ 32 - 1))) := by
  obtain ⟨h, hruns, hr⟩ := @admitted_of_runs [.malloc 100, .free 424] [] [424, 0]
    (by decide +kernel)
  have hval : ((runs (mmInit (memInit 0 fun _ => 0)).1 [] [.malloc 100, .free 424]).bind fun r =>
      (Call.run r.1 (.malloc (2 ^ 32 - 1))).map fun a => (a.2, getSize a.1 420, a.1.memBrk)) =
        some (424, 8, 536) := by
    decide +kernel
  rw [hruns, Option.bind_some] at hval
  obtain ⟨⟨h', q⟩, hrun, hp⟩ := Option.map_eq_some_iff.mp hval
  simp only [Prod.mk.injEq] at hp
  obtain ⟨rfl, hsize, hbrk⟩ := hp
  refine ⟨h, h', hr.sized, hrun, hsize, ?_⟩
  rintro ⟨g, q, hrun', -, rfl | ⟨t, -, hroom, -, hend⟩⟩
  · rw [hrun] at hrun'
    cases hrun'
  · rw [hrun] at hrun'
    cases hrun'
    omega

end Malloc
